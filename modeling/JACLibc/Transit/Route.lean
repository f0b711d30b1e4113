import JACLibc.CString
import JACLibc.Lib.Checked

/-!
# Route patterns of `transit/route.h`

`route_scan` reads a character class at the start of a pattern and counts the characters at the start of a path that
it has, and `route_match` matches a path with a pattern from left to right.  A pointer into a string is the list of
the bytes from it up to the NUL and with it, so that a read behind the NUL is a read from the empty list.  The set of
a class has 256 bits, and a bit number outside is a fault as well.  C leaves open what comes of an `int` that is out
of range: `ovf` says what the machine makes of it, a value or a trap.
-/

namespace JACLibc.Route

/-- What stops a run: a read behind the NUL, a bit outside the set, a trap at an overflow, or the bound on the number
of turns. -/
inductive Fault
  | read | index | overflow | turns
  deriving DecidableEq

/-- `spec[3]` -/
structure Spec where
  any : UInt8
  div : UInt8
  esc : UInt8
  deriving DecidableEq

/-- `*p` -/
def read : List UInt8 → Except Fault UInt8
  | [] => .error .read
  | c :: _ => .ok c

@[simp] theorem read_cons (c : UInt8) (p : List UInt8) : read (c :: p) = .ok c := rfl

theorem read_eq_ok {c : UInt8} {p : List UInt8} : read p = .ok c ↔ ∃ q, p = c :: q := by
  cases p <;> simp [read]

/-- `while (*p != c) p++;` -/
def skipTo (c : UInt8) : List UInt8 → Except Fault (List UInt8)
  | [] => .error .read
  | x :: p => if x = c then .ok (x :: p) else skipTo c p

/-! ### Classes -/

/-- `BITS(cset, 256)` -/
abbrev CSet := BitVec 256

/-- `BITON(cset, bit)`, or `BITOFF(cset, bit)` in a negated class -/
def mark (neg : Bool) (bit : Int) (cset : CSet) : Except Fault CSet :=
  if 0 ≤ bit ∧ bit < 256 then
    .ok (if neg then cset &&& ~~~BitVec.twoPow 256 bit.toNat else cset ||| BitVec.twoPow 256 bit.toNat)
  else .error .index

/-- `BITON(cset, *p)`: the macro has a `p` of its own, the address of `cset`, so that the bit is the one with the
number `cset[0]`. -/
def markChar (neg : Bool) (cset : CSet) : Except Fault CSet := mark neg (cset.setWidth 8).toNat cset

/-- `n` turns of `for (int c = lo; c <= hi; c++)` -/
def markRange (neg : Bool) : Nat → Int → CSet → Except Fault CSet
  | 0, _, cset => .ok cset
  | n + 1, c, cset =>
    match mark neg c cset with
    | .ok cset => markRange neg n (c + 1) cset
    | .error f => .error f

/-- `while (*p && *p != ']')`: the pointer and the set behind the loop. -/
def scanClass (neg : Bool) : List UInt8 → CSet → Except Fault (List UInt8 × CSet)
  | [], _ => .error .read
  | [c], cset => if c = 0 ∨ c = asc ']' then .ok ([c], cset) else .error .read
  | [c, d], cset =>
    if c = 0 ∨ c = asc ']' then .ok ([c, d], cset)
    else if d = asc '-' then .error .read
    else do scanClass neg [d] (← markChar neg cset)
  | c :: d :: e :: p, cset =>
    if c = 0 ∨ c = asc ']' then .ok (c :: d :: e :: p, cset)
    else if d = asc '-' ∧ e ≠ asc ']' then do
      scanClass neg p (← markRange neg (charVal e - charVal c + 1).toNat (charVal c) cset)
    else do scanClass neg (d :: e :: p) (← markChar neg cset)

section Scan

variable (ovf : Int → Option Int)

/-- An `int` that has been computed as `x`. -/
def checked (x : Int) : Except Fault Int :=
  if -INT_MAX - 1 ≤ x ∧ x ≤ INT_MAX then .ok x
  else
    match ovf x with
    | some y => .ok (wrapInt y)
    | none => .error .overflow

/-- `while (*p >= '0' && *p <= '9') val = val * 10 + (*p++ - '0');` -/
def readBound : Int → List UInt8 → Except Fault (Int × List UInt8)
  | _, [] => .error .read
  | val, c :: p =>
    if asc '0' ≤ c ∧ c ≤ asc '9' then
      match checked ovf (val * 10 + (c.toNat - 48)) with
      | .ok val => readBound val p
      | .error f => .error f
    else .ok (val, c :: p)

/-- `if (*p++ != '}') return -1;` -/
def closeBounds (min max : Int) (p : List UInt8) : Except Fault (Option (Int × Int)) := do
  if (← read p) = asc '}' then return some (min, max) else return none

/-- The bounds `min` and `max` behind a class; `none` is the `return -1` for a brace that is not closed. -/
def scanBounds (p : List UInt8) : Except Fault (Option (Int × Int)) :=
  match p with
  | [] => .error .read
  | c :: p =>
    if c = asc '{' then do
      let (min, p) ← readBound ovf 0 p
      if (← read p) = asc ',' then
        let (max, p) ← readBound ovf 0 p.tail
        closeBounds min max p
      else closeBounds min min p
    else .ok (some (1, INT_MAX))

/-- `while (*h)` with the count `m` -/
def countRun (cset : CSet) (max : Int) : List UInt8 → Int → Except Fault Int
  | [], _ => .error .read
  | c :: h, m =>
    if c = 0 then .ok m
    else if charVal c < 0 then .error .index
    else if cset.getLsbD c.toNat then
      if m + 1 ≥ max then .ok (m + 1) else countRun cset max h (m + 1)
    else .ok m

/-- `route_scan` on pointers that are not NULL. -/
def routeScan (h p : List UInt8) : Except Fault Int := do
  if (← read p) ≠ asc '[' then return -1
  let p := p.tail
  let neg : Bool := (← read p) = asc '^'
  let (p, cset) ← scanClass neg (if neg then p.tail else p) (if neg then BitVec.allOnes 256 else 0)
  if (← read p) ≠ asc ']' then return -1
  match ← scanBounds ovf p.tail with
  | none => return -1
  | some (min, max) =>
    let m ← countRun cset max h 0
    return if m < min then -1 else m

/-! ### Matching -/

/-- The locals of `route_match`; `ms` are the offsets of the pointers in `matches`, and `start` is there while the
classes behind a wildcard are read. -/
structure St where
  p : List UInt8
  h : List UInt8
  ms : List Nat
  start : Option Nat
  deriving DecidableEq

/-- What a turn of a loop leads to. -/
inductive Turn
  | next (s : St)
  | ret (n : Int) (ms : List Nat)
  deriving DecidableEq

/-- `if (cnt < msize) matches[cnt++] = start;` -/
def capture (msize : Nat) (ms : List Nat) (start : Nat) : List Nat :=
  if ms.length < msize then ms ++ [start] else ms

/-- `while (*h && *h != div) h++;` -/
def skipSegment (div : UInt8) : List UInt8 → Except Fault (List UInt8)
  | [] => .error .read
  | c :: h => if c ≠ 0 ∧ c ≠ div then skipSegment div h else .ok (c :: h)

/-- A turn of `while (*p == '[')`, or the way out of it. -/
def classTurn (msize : Nat) (s : St) (start : Nat) : Except Fault Turn := do
  if (← read s.p) = asc '[' then
    let scan ← routeScan ovf s.h s.p
    if scan = -1 then return .ret 0 s.ms
    let p := (← skipTo (asc ']') s.p).tail
    let p ← if (← read p) = asc '{' then List.tail <$> skipTo (asc '}') p else pure p
    return .next { s with p, h := s.h.drop scan.toNat }
  else return .next { s with ms := capture msize s.ms start, start := none }

/-- What follows a wildcard, `p` behind it: classes, the rest of the path, or a segment. -/
def anyTurn (spec : Spec) (size msize : Nat) (s : St) (p : List UInt8) : Except Fault Turn := do
  let start := size - s.h.length
  let c ← read p
  if c = asc '[' then return .next { s with p, start := some start }
  if c = spec.any then
    if (← read p.tail) = 0 then
      return .next { s with p := p.tail, h := ← skipTo 0 s.h, ms := capture msize s.ms start }
  return .next { s with p, h := ← skipSegment spec.div s.h, ms := capture msize s.ms start }

/-- `if (*p == *h) { p++; h++; } else return 0;` -/
def sameTurn (s : St) (p : List UInt8) : Except Fault Turn := do
  if (← read p) = (← read s.h) then return .next { s with p := p.tail, h := s.h.tail }
  else return .ret 0 s.ms

/-- A turn of the loops of `route_match`; `size` is the length of the path with its NUL. -/
def matchTurn (spec : Spec) (size msize : Nat) (s : St) : Except Fault Turn :=
  match s.start with
  | some start => classTurn ovf msize s start
  | none => do
    let c ← read s.p
    if c = 0 then return .ret (if (← read s.h) = 0 then wrapInt s.ms.length else 0) s.ms
    else if c = spec.any then anyTurn spec size msize s s.p.tail
    else if c = spec.esc then sameTurn s s.p.tail
    else sameTurn s s.p

def matchLoop (spec : Spec) (size msize : Nat) : Nat → St → Except Fault (Int × List Nat)
  | 0, _ => .error .turns
  | n + 1, s =>
    match matchTurn ovf spec size msize s with
    | .ok (.next s) => matchLoop spec size msize n s
    | .ok (.ret n ms) => .ok (n, ms)
    | .error f => .error f

/-- The state in front of the loop. -/
def initial (path pattern : CString) : St := ⟨pattern.bytes ++ [0], path.bytes ++ [0], [0], none⟩

/-- `route_match` on pointers that are not NULL: the answer and the offsets of the matches in the path. -/
def routeMatch (path pattern : CString) (spec : Spec) (msize : Nat) : Except Fault (Int × List Nat) :=
  if msize = 0 then .ok (0, [])
  else
    matchLoop ovf spec (path.bytes.length + 1) msize (2 * pattern.bytes.length + 3) (initial path pattern)

/-! ### The turns come to an end -/

/-- What every turn takes from. -/
def St.measure (s : St) : Nat := 2 * s.p.length + if s.start.isSome then 1 else 0

theorem skipTo_length {c : UInt8} {p q : List UInt8} (h : skipTo c p = .ok q) : 0 < q.length ∧ q.length ≤ p.length := by
  induction p with
  | nil => cases h
  | cons x p ih =>
    rw [skipTo] at h
    split at h
    · cases h
      exact ⟨Nat.succ_pos _, Nat.le_refl _⟩
    · obtain ⟨hpos, hle⟩ := ih h
      exact ⟨hpos, Nat.le_succ_of_le hle⟩

variable {ovf}

theorem classTurn_measure {msize start : Nat} {s s' : St} (hs : s.start = some start)
    (h : classTurn ovf msize s start = .ok (.next s')) : s'.measure < s.measure := by
  obtain ⟨c, hc, h⟩ := bind_eq_ok.1 h
  split at h
  · obtain ⟨scan, -, h⟩ := bind_eq_ok.1 h
    split at h
    · cases h
    obtain ⟨q, hq, h⟩ := bind_eq_ok.1 h
    obtain ⟨d, hd, h⟩ := bind_eq_ok.1 h
    obtain ⟨hpos, hle⟩ := skipTo_length hq
    have hlen : q.tail.length < s.p.length := by rw [List.length_tail]; omega
    split at h
    · obtain ⟨p', hp', h⟩ := bind_eq_ok.1 h
      cases hr : skipTo (asc '}') q.tail with
      | error e => rw [hr] at hp'; cases hp'
      | ok r =>
        rw [hr] at hp'
        cases hp'
        cases h
        have hle' := (skipTo_length hr).2
        simp only [St.measure, List.length_tail] at *
        omega
    · cases h
      simp only [St.measure]
      omega
  · cases h
    simp [St.measure, hs]

/-- Every turn reads on in the pattern, or leaves the classes behind a wildcard. -/
theorem matchTurn_measure {spec : Spec} {size msize : Nat} {s s' : St}
    (h : matchTurn ovf spec size msize s = .ok (.next s')) :
    s'.measure < s.measure := by
  unfold matchTurn at h
  split at h
  · next start hs => exact classTurn_measure hs h
  · next hs =>
    obtain ⟨c, hc, h⟩ := bind_eq_ok.1 h
    obtain ⟨p, hp⟩ := read_eq_ok.1 hc
    have hsame : ∀ q, q.length ≤ s.p.length → sameTurn s q = .ok (.next s') → s'.measure < s.measure := by
      intro q hq h
      obtain ⟨a, ha, h⟩ := bind_eq_ok.1 h
      obtain ⟨b, -, h⟩ := bind_eq_ok.1 h
      obtain ⟨q', rfl⟩ := read_eq_ok.1 ha
      split at h
      · cases h
        simp only [St.measure, hs, List.tail_cons, List.length_cons] at *
        omega
      · cases h
    split at h
    · obtain ⟨d, -, h⟩ := bind_eq_ok.1 h
      cases h
    split at h
    · have hpos : 0 < s.p.length := by rw [hp]; exact Nat.succ_pos _
      have hnext : ∀ (h' : List UInt8) (ms : List Nat) (start : Option Nat) (q : List UInt8), q.length < s.p.length →
          St.measure ⟨q, h', ms, start⟩ < s.measure := by
        intro h' ms start q hq
        cases start <;> simp only [St.measure, hs, Option.isSome_some, Option.isSome_none, if_true,
          Bool.false_eq_true, if_false] <;>
          omega
      obtain ⟨d, hd, h⟩ := bind_eq_ok.1 h
      split at h
      · cases h
        exact hnext _ _ _ _ (by rw [List.length_tail]; omega)
      have hseg : (skipSegment spec.div s.h >>= fun h' => pure (Turn.next { s with
          p := s.p.tail, h := h', ms := capture msize s.ms (size - s.h.length) })) = .ok (.next s') →
            s'.measure < s.measure := by
        intro h
        obtain ⟨h', -, h⟩ := bind_eq_ok.1 h
        cases h
        exact hnext _ _ _ _ (by rw [List.length_tail]; omega)
      split at h
      · obtain ⟨e, he, h⟩ := bind_eq_ok.1 h
        split at h
        · obtain ⟨h', -, h⟩ := bind_eq_ok.1 h
          cases h
          exact hnext _ _ _ _ (by rw [List.length_tail, List.length_tail]; omega)
        · exact hseg h
      · exact hseg h
    split at h
    · exact hsame _ (by rw [List.length_tail]; omega) h
    · exact hsame _ (Nat.le_refl _) h

variable (ovf) (spec : Spec) (size msize : Nat)

/-- What the turns from a state on come to. -/
def finish (s : St) : Except Fault (Int × List Nat) := matchLoop ovf spec size msize (s.measure + 1) s

variable {spec size msize}

/-- The bound on the turns is never met. -/
theorem matchLoop_eq_finish {n : Nat} {s : St} (hn : s.measure < n) :
    matchLoop ovf spec size msize n s = finish ovf spec size msize s := by
  induction hm : s.measure using Nat.strong_induction_on generalizing s n with
  | _ m ih =>
    subst hm
    obtain ⟨n, rfl⟩ : ∃ k, n = k + 1 := ⟨n - 1, by omega⟩
    rw [finish, matchLoop, matchLoop]
    cases hturn : matchTurn ovf spec size msize s with
    | error e => rfl
    | ok t =>
      cases t with
      | ret k ms => rfl
      | next s' =>
        have hlt := matchTurn_measure hturn
        change matchLoop ovf spec size msize n s' = matchLoop ovf spec size msize s.measure s'
        rw [ih _ hlt (by omega) rfl, ih _ hlt hlt rfl]

variable {ovf}

theorem finish_next {s s' : St} (h : matchTurn ovf spec size msize s = .ok (.next s')) :
    finish ovf spec size msize s = finish ovf spec size msize s' := by
  rw [finish, matchLoop, h]
  exact matchLoop_eq_finish ovf (matchTurn_measure h)

theorem finish_ret {s : St} {n : Int} {ms : List Nat} (h : matchTurn ovf spec size msize s = .ok (.ret n ms)) :
    finish ovf spec size msize s = .ok (n, ms) := by
  rw [finish, matchLoop, h]

theorem finish_error {s : St} {e : Fault} (h : matchTurn ovf spec size msize s = .error e) :
    finish ovf spec size msize s = .error e := by
  rw [finish, matchLoop, h]

theorem routeMatch_eq_finish (path pattern : CString) (hm : msize ≠ 0) :
    routeMatch ovf path pattern spec msize = finish ovf spec (path.bytes.length + 1) msize (initial path pattern) := by
  rw [routeMatch, if_neg hm]
  apply matchLoop_eq_finish
  simp [St.measure, initial]
  omega

end Scan

end JACLibc.Route
