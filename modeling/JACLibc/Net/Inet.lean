import JACLibc.Format.Scanf
import JACLibc.Lib.Buffer

/-!
# Internet addresses as text

`inet_pton` and `inet_ntop` of `net/inet.h`.  Texts given to `inet_pton` lie apart from what it writes, as `restrict`
says; the addresses given to `inet_ntop` are the bytes that its pointer sees.  The eight words that `__jacl_pton_ip6`
collects are a local array: a store, a `memmove` or a `memset` that would leave it makes the model answer `none`.
-/

namespace JACLibc.Inet

abbrev Mem := Nat → UInt8

def AF_INET : Int := 2

def AF_INET6 : Int := 10

def INET_ADDRSTRLEN : Nat := 16

def INET6_ADDRSTRLEN : Nat := 46

def isdigit (c : UInt8) : Bool := asc '0' ≤ c ∧ c ≤ asc '9'

def isxdigit (c : UInt8) : Bool := isdigit c ∨ (asc 'a' ≤ c ||| 32 ∧ c ||| 32 ≤ asc 'f')

/-! ### From text -/

/-- The loop of `__jacl_pton_ip4` from the number `i` on. -/
def ptonIp4Loop (dst i : Nat) (src : List UInt8) (mem : Mem) : Int × Mem :=
  if i < 4 then
    let n := strtoul src 10
    if n.endptr = 0 ∨ deref (src.drop n.endptr) ≠ (if i < 3 then asc '.' else 0) ∨ 255 < n.val then (0, mem)
    else ptonIp4Loop dst (i + 1) (src.drop (n.endptr + 1)) (Function.update mem (dst + i) n.val.toUInt8)
  else (1, mem)
termination_by 4 - i

/-- `__jacl_pton_ip4` -/
def ptonIp4 (src : List UInt8) (dst : Nat) (mem : Mem) : Int × Mem := ptonIp4Loop dst 0 src mem

/-- The locals of `__jacl_pton_ip6`; `comp` is `none` for `-1`. -/
structure Scratch where
  w : List UInt16
  i : Nat
  comp : Option Nat
  deriving DecidableEq, Repr

def Scratch.init : Scratch := ⟨List.replicate 8 0, 0, none⟩

/-- `w[i++] = v` -/
def Scratch.store (s : Scratch) (v : UInt16) : Option Scratch :=
  if s.i < s.w.length then some { s with w := s.w.set s.i v, i := s.i + 1 } else none

theorem Scratch.store_i {s s' : Scratch} {v : UInt16} (h : s.store v = some s') : s'.i = s.i + 1 := by
  unfold store at h
  split at h
  · cases h
    rfl
  · cases h

/-- The `sscanf` of an embedded IPv4 address and the tests of its numbers: the two words it stands for. -/
def embeddedIp4 (p : List UInt8) : Option (UInt16 × UInt16) :=
  match sscanf p (lit "%u.%u.%u.%u") with
  | some (4, [a, b, c, d]) =>
    if 255 < a ∨ 255 < b ∨ 255 < c ∨ 255 < d then none
    else some ((a <<< 8 ||| b).toUInt16, (c <<< 8 ||| d).toUInt16)
  | _ => none

/-- How the loop of `__jacl_pton_ip6` ends: with a store outside `w`, with `return 0`, or with the words. -/
inductive Outcome
  | overrun
  | reject
  | done (s : Scratch)
  deriving DecidableEq, Repr

/-- The `while (*p)` loop of `__jacl_pton_ip6`. -/
def ptonIp6Loop (p : List UInt8) (s : Scratch) : Outcome :=
  match p with
  | [] => .done s
  | c :: rest =>
    if c = asc ':' then
      if deref rest = asc ':' then
        if s.comp.isSome then .reject else ptonIp6Loop rest.tail { s with comp := some s.i }
      else ptonIp6Loop rest s
    else if isdigit c ∧ asc '.' ∈ c :: rest then
      match embeddedIp4 (c :: rest) with
      | none => .reject
      | some q =>
        if s.comp = none ∧ s.i ≠ 6 then .reject
        else
          match (s.store q.1).bind fun s => s.store q.2 with
          | none => .overrun
          | some s => .done s
    else if ¬isxdigit c then .reject
    else
      let n := strtoul (c :: rest) 16
      if 0xffff < n.val ∨ 8 ≤ s.i then .reject
      else
        match _h : s.store n.val.toUInt16 with
        | none => .overrun
        | some s => ptonIp6Loop ((c :: rest).drop n.endptr) s
termination_by p.length + (9 - s.i)
decreasing_by
  · simp only [List.length_cons, List.length_tail]
    omega
  · simp
  · have := Scratch.store_i _h
    simp only [List.length_drop, List.length_cons]
    omega

/-- `memmove(&w[start], &w[0], n * sizeof(uint16_t))` -/
def moveWords (w : List UInt16) (start : Int) (n : Nat) : Option (List UInt16) :=
  if 0 ≤ start ∧ start + n ≤ w.length ∧ n ≤ w.length then some (Buffer.write w start.toNat (w.take n)) else none

/-- `memset(&w[start], 0, n * sizeof(uint16_t))` -/
def clearWords (w : List UInt16) (start : Nat) (n : Int) : Option (List UInt16) :=
  if 0 ≤ n ∧ start + n ≤ w.length then some (Buffer.write w start (List.replicate n.toNat 0)) else none

/-- The bytes of the words in network order. -/
def wordBytes (w : List UInt16) : List UInt8 := w.flatMap fun x : UInt16 => [(x >>> 8).toUInt8, (x &&& 0xff).toUInt8]

/-- `__jacl_pton_ip6` -/
def ptonIp6 (src : List UInt8) (dst : Nat) (mem : Mem) : Option (Int × Mem) :=
  match ptonIp6Loop src .init with
  | .overrun => none
  | .reject => some (0, mem)
  | .done s =>
    match s.comp with
    | some comp =>
      let zerosNeeded : Int := 8 - s.i
      ((moveWords s.w (comp + zerosNeeded) s.i).bind fun w => clearWords w comp zerosNeeded).map fun w =>
        (1, storeBytes mem dst (wordBytes w))
    | none => if s.i ≠ 8 then some (0, mem) else some (1, storeBytes mem dst (wordBytes s.w))

/-- `inet_pton`: the returned `int` and the memory. -/
def inetPton (af : Int) (src : Option CString) (dst : Option Nat) (mem : Mem) : Option (Int × Mem) :=
  match src, dst with
  | some src, some dst =>
    if af = AF_INET then some (ptonIp4 src.bytes dst mem)
    else if af = AF_INET6 then ptonIp6 src.bytes dst mem
    else some (-1, mem)
  | _, _ => some (0, mem)

/-! ### To text -/

private theorem noNul_nil : (0 : UInt8) ∉ [] := List.not_mem_nil

/-- `snprintf` with integer arguments. -/
def snprintf (mem : Mem) (p n : Nat) (fmt : CString) (args : List Nat) : Option (Int × Mem) :=
  vsnprintf (fun _ => ⟨[], noNul_nil⟩) mem (some p) n fmt (args.map (BitVec.ofNat 64))

/-- `__jacl_ntop_ip4`: the returned pointer and the memory. -/
def ntopIp4 (b : Mem) (dst size : Nat) (mem : Mem) : Option (Option Nat × Mem) :=
  if size < INET_ADDRSTRLEN then some (none, mem)
  else
    (snprintf mem dst size ⟨lit "%u.%u.%u.%u", by decide⟩ [(b 0).toNat, (b 1).toNat, (b 2).toNat, (b 3).toNat]).map
      fun r => (some dst, r.2)

/-- `words` -/
def wordsOf (b : Mem) : List UInt16 :=
  (List.range 8).map fun i => (b (i * 2)).toUInt16 <<< 8 ||| (b (i * 2 + 1)).toUInt16

/-- `best_len`, `best_idx`, `cur_len` and `cur_idx`; an index is `none` for `-1`. -/
structure Runs where
  bestLen : Nat
  bestIdx : Option Nat
  curLen : Nat
  curIdx : Option Nat
  deriving DecidableEq, Repr

/-- The loop over the words that looks for the longest run of zeros, from the word `i` on. -/
def findRuns : Nat → List UInt16 → Runs → Runs
  | _, [], r => r
  | i, x :: words, r =>
    if x = 0 then
      let curIdx := if r.curLen = 0 then some i else r.curIdx
      let curLen := r.curLen + 1
      if r.bestLen < curLen then findRuns (i + 1) words ⟨curLen, curIdx, curLen, curIdx⟩
      else findRuns (i + 1) words { r with curLen := curLen, curIdx := curIdx }
    else findRuns (i + 1) words { r with curLen := 0 }

/-- `best_idx` and `best_len` after the loop and the test of the length. -/
def bestRun (words : List UInt16) : Option Nat × Nat :=
  let r := findRuns 0 words ⟨0, none, 0, none⟩
  (if r.bestLen < 2 then none else r.bestIdx, r.bestLen)

/-- The writing loop of `__jacl_ntop_ip6`: `p` and the memory behind it. -/
def ntopIp6Loop (words : List UInt16) (best : Option Nat × Nat) (dst size : Nat) :
    Nat → Nat → Nat → Mem → Option (Nat × Mem)
  | 0, _, _, _ => none
  | fuel + 1, i, p, mem =>
    if i < 8 then
      if best.1 = some i then
        ntopIp6Loop words best dst size fuel (i + best.2) (p + 2)
          (Function.update (Function.update mem p (asc ':')) (p + 1) (asc ':'))
      else
        let sep := p ≠ dst ∧ mem (p - 1) ≠ asc ':'
        let mem := if sep then Function.update mem p (asc ':') else mem
        let p := if sep then p + 1 else p
        match snprintf mem p (dst + size - p) ⟨lit "%x", by decide⟩ [(words.getD i 0).toNat] with
        | none => none
        | some (n, mem) => ntopIp6Loop words best dst size fuel (i + 1) (p + n.toNat) mem
    else some (p, mem)

/-- `__jacl_ntop_ip6`: the returned pointer and the memory. -/
def ntopIp6 (b : Mem) (dst size : Nat) (mem : Mem) : Option (Option Nat × Mem) :=
  let words := wordsOf b
  if size < INET6_ADDRSTRLEN then some (none, mem)
  else
    (ntopIp6Loop words (bestRun words) dst size 9 0 dst mem).map fun r => (some dst, Function.update r.2 r.1 0)

/-- `inet_ntop`: the returned pointer and the memory. -/
def inetNtop (af : Int) (src : Option Mem) (dst : Option Nat) (size : Nat) (mem : Mem) : Option (Option Nat × Mem) :=
  match src, dst with
  | some b, some dst =>
    if af = AF_INET then ntopIp4 b dst size mem
    else if af = AF_INET6 then ntopIp6 b dst size mem
    else some (none, mem)
  | _, _ => some (none, mem)

end JACLibc.Inet
