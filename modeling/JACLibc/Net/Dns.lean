import JACLibc.CString
import JACLibc.Format.Sink
import JACLibc.Lib.Buffer
import JACLibc.Lib.Checked

/-!
# Domain names of `net/dns.h`

`dn_expand` and `dn_comp`.  A message is the list of its bytes and a place in it is an offset.  `dn_expand` runs with
every access checked: a read behind the end of the message and a write outside of the text buffer are faults.  Sums of
type `int` wrap around.

`dn_comp` works on a memory, since it takes pointers into it from a table; the name and the table lie apart from what
it writes.
-/

namespace JACLibc.Dns

/-! ### Expanding -/

/-- An access outside of the message or of the text. -/
inductive Fault
  | read (p : Nat)
  | write (pos : Int)
  deriving DecidableEq

/-- The locals of `dn_expand` and the text. -/
structure Expand where
  p : Nat
  pos : Int
  consumed : Int
  jumps : Nat
  dst : List UInt8
  deriving DecidableEq

/-- `*p` -/
def load (msg : List UInt8) (p : Nat) : Except Fault UInt8 :=
  match msg[p]? with
  | some b => .ok b
  | none => .error (.read p)

/-- `memcpy(dst + pos, bytes, n)` -/
def store (dst : List UInt8) (pos : Int) (bytes : List UInt8) : Except Fault (List UInt8) :=
  if 0 ≤ pos ∧ pos + bytes.length ≤ dst.length then .ok (Buffer.write dst pos.toNat bytes) else .error (.write pos)

/-- The `n` bytes that `memcpy` reads at `p`. -/
def loads (msg : List UInt8) (p n : Nat) : Except Fault (List UInt8) :=
  if p + n ≤ msg.length then .ok ((msg.drop p).take n) else .error (.read msg.length)

/-- `if (pos > 0 && pos < dstsiz) dst[pos++] = c` -/
def Expand.put (s : Expand) (dstsiz : Int) (c : UInt8) : Except Fault Expand :=
  if 0 < s.pos ∧ s.pos < dstsiz then do
    let dst ← store s.dst s.pos [c]
    .ok { s with pos := wrapInt (s.pos + 1), dst := dst }
  else .ok s

/-- `if (consumed == 0) consumed = (int)(p - src + n)` -/
def Expand.consume (s : Expand) (src : Nat) (n : Int) : Expand :=
  if s.consumed = 0 then { s with consumed := wrapInt (s.p - src + n) } else s

/-- The place that a pointer of two bytes leads to. -/
def target (high low : UInt8) : Nat := (high &&& 0x3F).toNat <<< 8 ||| low.toNat

/-- How one round of the loop ends: with `return -1`, behind the loop, or in the next round. -/
inductive Next
  | fail (s : Expand)
  | stop (s : Expand)
  | again (s : Expand)
  deriving DecidableEq

/-- One round of the loop of `dn_expand`, the test of `p < eom` first. -/
def expandStep (msg : List UInt8) (src : Nat) (dstsiz : Int) (s : Expand) : Except Fault Next :=
  if s.p < msg.length then do
    let len ← load msg s.p
    if len = 0 then
      let s ← s.put dstsiz 0
      .ok (.stop (s.consume src 1))
    else if len &&& 0xC0 = 0xC0 then
      if msg.length ≤ s.p + 1 then .ok (.fail s)
      else if 10 < s.jumps + 1 then .ok (.fail s)
      else
        let low ← load msg (s.p + 1)
        if msg.length ≤ target len low then .ok (.fail s)
        else .ok (.again { s.consume src 2 with p := target len low, jumps := s.jumps + 1 })
    else if 63 < len then .ok (.fail s)
    else if msg.length < s.p + 1 + len.toNat then .ok (.fail s)
    else
      let s ← s.put dstsiz (asc '.')
      if dstsiz ≤ wrapInt (s.pos + len.toNat) then .ok (.fail s)
      else
        let label ← loads msg (s.p + 1) len.toNat
        let dst ← store s.dst s.pos label
        .ok (.again { s with p := s.p + 1 + len.toNat, pos := wrapInt (s.pos + len.toNat), dst := dst })
  else .ok (.stop s)

theorem Expand.put_eq {s s' : Expand} {dstsiz : Int} {c : UInt8} (h : s.put dstsiz c = .ok s') :
    s'.p = s.p ∧ s'.jumps = s.jumps := by
  unfold put at h
  split at h
  · obtain ⟨dst, -, h⟩ := bind_eq_ok.1 h
    cases h
    exact ⟨rfl, rfl⟩
  · cases h
    exact ⟨rfl, rfl⟩

/-- A round that is not the last one moves on in the message, or it has followed one pointer more. -/
theorem expandStep_again {msg : List UInt8} {src : Nat} {dstsiz : Int} {s s' : Expand}
    (h : expandStep msg src dstsiz s = .ok (.again s')) :
    (s'.jumps = s.jumps ∧ s.p < msg.length ∧ s.p < s'.p) ∨ (s'.jumps = s.jumps + 1 ∧ s.jumps < 10) := by
  unfold expandStep at h
  split at h
  · rename_i hp
    obtain ⟨len, -, h⟩ := bind_eq_ok.1 h
    split at h
    · obtain ⟨s₁, -, h⟩ := bind_eq_ok.1 h
      cases h
    split at h
    · split at h
      · cases h
      split at h
      · cases h
      · rename_i hjumps
        obtain ⟨low, -, h⟩ := bind_eq_ok.1 h
        split at h
        · cases h
        · cases h
          right
          exact ⟨rfl, by omega⟩
    split at h
    · cases h
    split at h
    · cases h
    · obtain ⟨s₁, hput, h⟩ := bind_eq_ok.1 h
      split at h
      · cases h
      · obtain ⟨label, -, h⟩ := bind_eq_ok.1 h
        obtain ⟨dst, -, h⟩ := bind_eq_ok.1 h
        cases h
        obtain ⟨hp₁, hjumps₁⟩ := Expand.put_eq hput
        left
        exact ⟨hjumps₁, hp, by dsimp only; omega⟩
  · cases h

/-- The loop of `dn_expand`: whether it ends with `return -1`, and the locals then. -/
def expandLoop (msg : List UInt8) (src : Nat) (dstsiz : Int) (s : Expand) : Except Fault (Bool × Expand) :=
  match _h : expandStep msg src dstsiz s with
  | .error e => .error e
  | .ok (.fail s) => .ok (true, s)
  | .ok (.stop s) => .ok (false, s)
  | .ok (.again s) => expandLoop msg src dstsiz s
termination_by (10 - s.jumps, msg.length - s.p)
decreasing_by
  rcases expandStep_again _h with ⟨hjumps, hp, hlt⟩ | ⟨hjumps, hlt⟩
  · rw [hjumps]
    exact Prod.Lex.right _ (by omega)
  · exact Prod.Lex.left _ _ (by omega)

/-- `dn_expand`: the returned `int` and the text. -/
def dnExpand (msg : List UInt8) (src : Nat) (dst : List UInt8) (dstsiz : Int) : Except Fault (Int × List UInt8) := do
  let (failed, s) ← expandLoop msg src dstsiz ⟨src, 0, 0, 0, dst⟩
  if failed ∨ dstsiz ≤ s.pos then .ok (-1, s.dst)
  else
    let dst ← store s.dst s.pos [0]
    .ok (if s.consumed ≠ 0 then s.consumed else wrapInt (s.p - src + 1), dst)

/-! ### Compressing -/

abbrev Mem := Nat → UInt8

/-- The table of names already written: the pointer at `dnptrs` and the ones after it, as far as the one that
`lastdnptr` points to; `0` is `NULL`. -/
structure Table where
  first : Nat
  rest : List Nat
  deriving DecidableEq

/-- `*lastdnptr` -/
def Table.last (t : Table) : Nat := t.rest.getLastD t.first

/-- The pointers that the search looks at. -/
def Table.entries (t : Table) : List Nat := (t.first :: t.rest).dropLast.takeWhile (· ≠ 0)

/-- Whether the search takes the entry for a label of `len` bytes at `check`. -/
def Table.hit (mem : Mem) (dst : Nat) (dstsiz : Int) (check : List UInt8) (len : Int) (entry : Nat) : Bool :=
  (dst ≤ entry ∧ (entry : Int) < dst + dstsiz) ∧ ((mem entry).toNat : Int) = len ∧
    (List.range len.toNat).all fun i => mem (entry + 1 + i) = check.getD i 0

/-- The text behind the first dot, if there is one. -/
def afterDot (check : List UInt8) : Option (List UInt8) := (check.dropWhile (· ≠ asc '.')).tail?

theorem afterDot_length {check rest : List UInt8} (h : afterDot check = some rest) : rest.length < check.length := by
  unfold afterDot at h
  have hle := (check.dropWhile_suffix (· ≠ asc '.')).length_le
  cases hdrop : check.dropWhile (· ≠ asc '.') with
  | nil =>
    rw [hdrop] at h
    cases h
  | cons c cs =>
    rw [hdrop] at h hle
    cases h
    exact hle

/-- The values of `label` in the rounds of a loop over the name; each is the text from there on. -/
def labelStarts (label : List UInt8) : List (List UInt8) :=
  if label = [] then []
  else
    match _h : afterDot label with
    | none => [label]
    | some rest => label :: labelStarts rest
termination_by label.length
decreasing_by exact afterDot_length _h

/-- `int len`, for the label at `check`. -/
def labelLen (check : List UInt8) : Int := wrapInt (check.takeWhile (· ≠ asc '.')).length

/-- The entry that the search takes for the label at `check`. -/
def Table.find (t : Table) (mem : Mem) (dst : Nat) (dstsiz : Int) (check : List UInt8) : Option Nat :=
  if labelLen check = 0 then none else t.entries.find? (Table.hit mem dst dstsiz check (labelLen check))

/-- The search for a label of the name in the table: the entry it ends at. -/
def searchLoop (mem : Mem) (dst : Nat) (dstsiz : Int) (t : Table) (src : List UInt8) : Option Nat :=
  (labelStarts src).findSome? (t.find mem dst dstsiz)

/-- `if (dnptrs && lastdnptr && *dnptrs < *lastdnptr) *(*dnptrs)++ = dst + pos`, which stores the low byte of the
pointer. -/
def remember (dst : Nat) (pos : Int) (table : Option Table) (mem : Mem) : Option Table × Mem :=
  match table with
  | some t =>
    if t.first < t.last then (some { t with first := t.first + 1 },
      Function.update mem t.first (dst + pos.toNat).toUInt8)
    else (some t, mem)
  | none => (none, mem)

/-- The end of `dn_comp` behind the labels. -/
def compEnd (dst : Nat) (dstsiz pos : Int) (table : Option Table) (mem : Mem) : Int × Option Table × Mem :=
  if dstsiz ≤ wrapInt (pos + 1) then (-1, table, mem) else (wrapInt (pos + 1), table,
    Function.update mem (dst + pos.toNat) 0)

/-- The loop of `dn_comp` that writes the labels, and what follows it; no answer where `memcpy` is called with a
negative length. -/
def compLoop (dst : Nat) (dstsiz : Int) (pos : Int) (table : Option Table) (mem : Mem) :
    List (List UInt8) → Option (Int × Option Table × Mem)
  | [] => some (compEnd dst dstsiz pos table mem)
  | label :: labels =>
    let len := labelLen label
    if len = 0 then compLoop dst dstsiz pos table mem labels
    else if 63 < len ∨ dstsiz ≤ wrapInt (wrapInt (pos + len) + 1) then some (-1, table, mem)
    else if len < 0 then none
    else
      let (table, mem) := remember dst pos table mem
      let mem := storeBytes mem (dst + pos.toNat) (len.toNat.toUInt8 :: label.take len.toNat)
      compLoop dst dstsiz (wrapInt (wrapInt (pos + 1) + len)) table mem labels

/-- `dn_comp`: the returned `int`, the table and the memory. -/
def dnComp (src : Option CString) (dst : Option Nat) (dstsiz : Int) (table : Option Table) (mem : Mem) :
    Option (Int × Option Table × Mem) :=
  match src, dst with
  | some src, some dst =>
    if dstsiz ≤ 0 then some (-1, table, mem)
    else if src.bytes = lit "." then some (1, table, Function.update mem dst 0)
    else
      match table.bind fun t => if t.first = 0 ∨ t.last = 0 then none else searchLoop mem dst dstsiz t src.bytes with
      | some entry =>
        if dstsiz < 2 then some (-1, table, mem)
        else
          let offset := entry - dst
          some (2, table, storeBytes mem dst [(0xC0 : UInt8) ||| (offset >>> 8 &&& 0x3F).toUInt8,
            (offset &&& 0xFF).toUInt8])
      | none => compLoop dst dstsiz 0 table mem (labelStarts src.bytes)
  | _, _ => some (-1, table, mem)

end JACLibc.Dns
