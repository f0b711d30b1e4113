import JACLibc.Json.Text
import Mathlib.Algebra.BigOperators.Group.List.Basic
import Mathlib.Algebra.Order.BigOperators.Group.List

/-!
# The buffers of the JSON writer

The functions of `js_stringify` write into blocks that they allocate: `js_stringify_string` into one whose size it
computes beforehand, `js_stringify_array` and `js_stringify_object` into one that they double.  `Out` is such a block
with the place that is written next, and says whether a byte was stored behind the end.

The containers stay in their blocks.  The string writer computes room for the two quotes and none for the NUL, and
stays in its block only thanks to the characters that it writes in two bytes and counts as six
(`js_stringify_bounds`).
-/

namespace JACLibc.Json

/-! ### Blocks -/

/-- A block and `pos`; `cap` is the length of `bytes`.  Not in the source: `calls`, the number of allocations made for
this node so far, `outside`, whether a byte was stored behind the end, and `endless`, whether a loop did not come to
an end. -/
structure Out where
  bytes : List UInt8
  pos : Nat
  calls : Nat
  outside : Bool
  endless : Bool

/-- What the allocations answer, by the place of the node in the tree and the number of the allocation for it:
nothing, or what the new bytes hold. -/
abbrev Memory := List Nat → Nat → Option (Nat → UInt8)

section

variable (mem : Memory) (at_ : List Nat)

/-- An allocation of `size` bytes.  No block is larger than `PTRDIFF_MAX`. -/
def alloc (k size : Nat) : Option (Nat → UInt8) := if size < 2 ^ 63 then mem at_ k else none

/-- `malloc(size)` -/
def Out.malloc (size : Nat) : Option Out := (alloc mem at_ 0 size).map fun junk =>
    ⟨(List.range size).map junk, 0, 1, false, false⟩

/-- `cap *= 2;` and `realloc(buf, cap)`: whether it succeeds. -/
def Out.double (b : Out) : Bool × Out :=
  match alloc mem at_ b.calls (b.bytes.length * 2 % 2 ^ 64) with
  | none => (false, b)
  | some junk =>
    (true, { b with
      bytes := b.bytes.take (b.bytes.length * 2 % 2 ^ 64) ++
        (List.range (b.bytes.length * 2 % 2 ^ 64 - b.bytes.length)).map junk
      calls := b.calls + 1 })

/-- `buf[pos] = c;` -/
def Out.set (b : Out) (c : UInt8) : Out :=
  { b with bytes := b.bytes.set b.pos c, outside := b.outside || decide (b.bytes.length ≤ b.pos) }

/-- `buf[pos++] = c;` -/
def Out.put (b : Out) (c : UInt8) : Out := { b.set c with pos := b.pos + 1 }

/-- Bytes one after another. -/
def Out.puts (b : Out) (s : List UInt8) : Out := s.foldl Out.put b

/-- `strcpy(buf + pos, s); pos += strlen(s);` -/
def Out.strcpy (b : Out) (s : CString) : Out := (b.puts s.bytes).set 0

/-- The string in the block. -/
def Out.text (b : Out) : CString := CString.of b.bytes

/-- What is done if nothing has failed. -/
def andThen (x : Bool × Out) (f : Out → Bool × Out) : Bool × Out := if x.1 then f x.2 else x

/-- `if (pos >= cap - 1)`, the block is doubled. -/
def Out.check (b : Out) : Bool × Out := if b.pos ≥ b.bytes.length - 1 then b.double mem at_ else (true, b)

/-- `while (pos + need >= cap)`, the block is doubled.  Lengths of two objects together stay below `SIZE_MAX`. -/
def Out.room (need : Nat) : Nat → Out → Bool × Out
  | 0, b => (false, { b with endless := true })
  | turns + 1, b => if b.pos + need ≥ b.bytes.length then andThen (b.double mem at_) (room need turns) else (true, b)

/-! ### The functions -/

/-- What a function of the writer leaves: the string that it returns (nothing for NULL), and the marks of its block. -/
structure Written where
  text : Option CString
  outside : Bool
  endless : Bool

/-- The string returned, where nothing has failed. -/
def Out.finish (x : Bool × Out) : Written := ⟨if x.1 then some x.2.text else none, x.2.outside, x.2.endless⟩

/-- The marks of a child's block. -/
def Out.child (b : Out) (w : Written) : Out :=
  { b with outside := b.outside || w.outside, endless := b.endless || w.endless }

/-- `(c == '"' || c == '\\' || c < 0x20 || c >= 0x7F) ? 6 : 1` -/
def cost (c : UInt8) : Nat := if c = asc '"' ∨ c = asc '\\' ∨ c < 0x20 ∨ c ≥ 0x7F then 6 else 1

/-- The size that `js_stringify_string` computes. -/
def need (s : CString) : Nat := (2 + (s.bytes.map cost).sum) % 2 ^ 64

/-- The characters that are written in two bytes. -/
def Short (c : UInt8) : Prop := c = asc '"' ∨ c = asc '\\' ∨ c = 8 ∨ c = 12 ∨ c = 10 ∨ c = 13 ∨ c = 9

instance (c : UInt8) : Decidable (Short c) := by
  unfold Short
  infer_instance

/-- One turn of the loop of `js_stringify_string`; `sprintf` stores a NUL behind what it writes. -/
def Out.char (b : Out) (c : UInt8) : Out :=
  if ¬Short c ∧ (c < 0x20 ∨ c ≥ 0x7F) then (b.puts (escape c)).set 0 else b.puts (escape c)

/-- `js_stringify_string` -/
def writeString (s : CString) : Written :=
  match Out.malloc mem at_ (need s) with
  | none => ⟨none, false, false⟩
  | some b => Out.finish (true, ((s.bytes.foldl Out.char { b with pos := 1 }).put (asc '"')).set 0)

/-- The comma in front of the children but the first. -/
def separator (i : Nat) (b : Out) : Bool × Out := if i = 0 then (true, b) else andThen (b.check mem at_) fun b =>
    (true, b.put (asc ','))

/-- The closing bracket. -/
def closing (c : UInt8) (b : Out) : Bool × Out := andThen (b.check mem at_) fun b => (true, (b.put c).set 0)

/-- The string of a child. -/
def append (w : Written) (b : Out) : Bool × Out :=
  match w.text with
  | none => (false, b.child w)
  | some child => andThen ((b.child w).room mem at_ child.bytes.length 64) fun b => (true, b.strcpy child)

/-- The key of a child. -/
def member (key : CString) (b : Out) : Bool × Out :=
  andThen (b.room mem at_ (key.bytes.length + 3) 64) fun b =>
    (true, (((b.put (asc '"')).strcpy key).put (asc '"')).put (asc ':'))

end

section

variable {D : Type} (fmt : D → CString) (mem : Memory)

mutual

/-- `js_stringify_value`; `js_stringify_null`, `js_stringify_boolean` and `js_stringify_number` have blocks that fit. -/
def writeValue (at_ : List Nat) : Value D → Written
  | .null => ⟨(alloc mem at_ 0 5).map fun _ => .of (lit "null"), false, false⟩
  | .boolean b =>
    ⟨if b then (alloc mem at_ 0 5).map fun _ => .of (lit "true") else (alloc mem at_ 0 6).map fun _ =>
      .of (lit "false"), false, false⟩
  | .number n => ⟨(alloc mem at_ 0 32).map fun _ => fmt n, false, false⟩
  | .string s => writeString mem at_ s
  | .array vs =>
    match Out.malloc mem at_ 64 with
    | none => ⟨none, false, false⟩
    | some b => Out.finish (andThen (writeArray at_ 0 vs (b.put (asc '['))) (closing mem at_ (asc ']')))
  | .object ms =>
    match Out.malloc mem at_ 64 with
    | none => ⟨none, false, false⟩
    | some b => Out.finish (andThen (writeObject at_ 0 ms (b.put (asc '{'))) (closing mem at_ (asc '}')))

/-- The loop of `js_stringify_array`; `i` counts the children. -/
def writeArray (at_ : List Nat) (i : Nat) : Values D → Out → Bool × Out
  | .nil, b => (true, b)
  | .cons v vs, b =>
    andThen (andThen (separator mem at_ i b) (append mem at_ (writeValue (i :: at_) v))) fun b =>
      writeArray at_ (i + 1) vs b

/-- The loop of `js_stringify_object`; `i` counts the children. -/
def writeObject (at_ : List Nat) (i : Nat) : Members D → Out → Bool × Out
  | .nil, b => (true, b)
  | .cons key v ms, b =>
    andThen (andThen (andThen (separator mem at_ i b) (member mem at_ key))
      (append mem at_ (writeValue (i :: at_) v))) fun b =>
      writeObject at_ (i + 1) ms b

end

end

/-! ### Containers stay in their blocks -/

/-- The block of a container holds `w`, with room behind it; `bad` says whether a string has been written outside its
block, and then nothing is known of what is held. -/
structure Out.Holds (b : Out) (w : List UInt8) (bad : Bool) : Prop where
  endless : b.endless = false
  outside : b.outside = bad
  room : b.pos < b.bytes.length
  cap : 64 ≤ b.bytes.length
  fits : b.bytes.length < 2 ^ 63
  front : bad = false → b.pos = w.length ∧ b.bytes.take w.length = w ∧ 0 ∉ w

/-- What is left behind `w` with room for `k` bytes more and one, or else by a failure. -/
structure Leaves (x : Bool × Out) (w : List UInt8) (k : Nat) (bad : Bool) : Prop where
  endless : x.2.endless = false
  safe : bad = false → x.2.outside = false
  holds : x.1 = true → x.2.Holds w bad ∧ x.2.pos + k < x.2.bytes.length

section

variable (mem : Memory) (at_ : List Nat) {b : Out} {w w' : List UInt8} {k k' : Nat} {bad bad' : Bool}

theorem Out.Holds.leaves (h : b.Holds w bad) (hroom : b.pos + k < b.bytes.length) : Leaves (true, b) w k bad :=
  ⟨h.endless, fun hbad => h.outside.trans hbad, fun _ => ⟨h, hroom⟩⟩

theorem Out.Holds.congr (h : b.Holds w bad) (hw : bad = false → w = w') : b.Holds w' bad :=
  ⟨h.endless, h.outside, h.room, h.cap, h.fits, fun hbad => hw hbad ▸ h.front hbad⟩

/-- One thing after another. -/
theorem Leaves.andThen {x : Bool × Out} {f : Out → Bool × Out} (h : Leaves x w k bad)
    (hmono : bad' = false → bad = false) (hf : ∀ b : Out, b.Holds w bad → b.pos + k < b.bytes.length →
    Leaves (f b) w' k' bad') : Leaves (Json.andThen x f) w' k' bad' := by
  unfold Json.andThen
  split
  next hx =>
    obtain ⟨hholds, hroom⟩ := h.holds hx
    exact hf x.2 hholds hroom
  next hx => exact ⟨h.endless, fun hbad => h.safe (hmono hbad), fun hx' => absurd hx' hx⟩

theorem Out.Holds.put (h : b.Holds w bad) (hroom : b.pos + 1 < b.bytes.length) {c : UInt8} (hc : c ≠ 0) :
    (b.put c).Holds (w ++ [c]) bad ∧ (b.put c).pos = b.pos + 1 ∧ (b.put c).bytes.length = b.bytes.length := by
  have hlen : (b.put c).bytes.length = b.bytes.length := List.length_set
  refine ⟨⟨h.endless,
    ?_, by rw [hlen]; exact hroom, by rw [hlen]; exact h.cap, by rw [hlen]; exact h.fits, fun hbad => ?_⟩, rfl, hlen⟩
  · change (b.outside || decide (b.bytes.length ≤ b.pos)) = bad
    rw [h.outside, decide_eq_false (by omega), Bool.or_false]
  · obtain ⟨hpos, hfront, h0⟩ := h.front hbad
    refine ⟨by rw [List.length_append, ← hpos]; rfl, ?_, by simp [h0, hc.symm]⟩
    rw [List.length_append, List.length_singleton]
    change (b.bytes.set b.pos c).take (w.length + 1) = w ++ [c]
    have hlt : w.length < (b.bytes.set b.pos c).length := by
      rw [List.length_set]
      omega
    rw [hpos] at hlt ⊢
    rw [List.take_succ_eq_append_getElem hlt, List.getElem_set_self, List.take_set_of_le (Nat.le_refl _), hfront]

theorem Out.Holds.puts {s : List UInt8} (h : b.Holds w bad) (hroom : b.pos + s.length < b.bytes.length) (hs : 0 ∉ s) :
    (b.puts s).Holds (w ++ s) bad ∧ (b.puts s).pos = b.pos + s.length ∧ (b.puts s).bytes.length = b.bytes.length := by
  induction s generalizing b w with
  | nil => exact ⟨by rw [List.append_nil]; exact h, rfl, rfl⟩
  | cons c s ih =>
    rw [List.mem_cons, not_or] at hs
    rw [List.length_cons] at hroom
    obtain ⟨hput, hpos, hlen⟩ := h.put (c := c) (by omega) (Ne.symm hs.1)
    obtain ⟨h1, h2, h3⟩ := ih hput (by omega) hs.2
    rw [List.append_assoc] at h1
    exact ⟨h1, by rw [List.length_cons]; exact h2.trans (by omega), h3.trans hlen⟩

/-- The NUL behind what is held. -/
theorem Out.Holds.set_zero (h : b.Holds w bad) :
    (b.set 0).Holds w bad ∧ (b.set 0).pos = b.pos ∧ (b.set 0).bytes.length = b.bytes.length ∧
    (bad = false → (b.set 0).text.bytes = w) := by
  have hlen : (b.set 0).bytes.length = b.bytes.length := List.length_set
  refine ⟨⟨h.endless, ?_, hlen ▸ h.room, hlen ▸ h.cap, hlen ▸ h.fits, fun hbad => ?_⟩, rfl, hlen, fun hbad => ?_⟩
  · have hroom := h.room
    change (b.outside || decide (b.bytes.length ≤ b.pos)) = bad
    rw [h.outside, decide_eq_false (by omega), Bool.or_false]
  · obtain ⟨hpos, hfront, h0⟩ := h.front hbad
    refine ⟨hpos, ?_, h0⟩
    change (b.bytes.set b.pos 0).take w.length = w
    rw [List.take_set_of_le (by omega), hfront]
  · obtain ⟨hpos, hfront, h0⟩ := h.front hbad
    have hsplit : b.bytes.set b.pos 0 = w ++ 0 :: b.bytes.drop (w.length + 1) := by
      rw [List.set_eq_take_append_cons_drop, if_pos h.room, hpos, hfront]
    change (CString.of (b.bytes.set b.pos 0)).bytes = w
    rw [hsplit, CString.of_append h0]

theorem Out.Holds.strcpy (h : b.Holds w bad) {s : CString} (hroom : b.pos + s.bytes.length < b.bytes.length) :
    (b.strcpy s).Holds (w ++ s.bytes) bad ∧ (b.strcpy s).pos = b.pos + s.bytes.length ∧
    (b.strcpy s).bytes.length = b.bytes.length := by
  obtain ⟨h1, h2, h3⟩ := h.puts hroom s.noNul
  obtain ⟨h4, h5, h6, -⟩ := h1.set_zero
  exact ⟨h4, h5.trans h2, h6.trans h3⟩

theorem Out.Holds.double (h : b.Holds w bad) :
    (b.double mem at_ = (false, b)) ∨
      (b.double mem at_).1 = true ∧ (b.double mem at_).2.Holds w bad ∧ (b.double mem at_).2.pos = b.pos ∧
        (b.double mem at_).2.bytes.length = b.bytes.length * 2 := by
  unfold Out.double
  split
  · exact .inl rfl
  next junk hjunk =>
    have hfits := h.fits
    have hmod : b.bytes.length * 2 % 2 ^ 64 = b.bytes.length * 2 := Nat.mod_eq_of_lt (by omega)
    rw [hmod] at hjunk ⊢
    have hlt : b.bytes.length * 2 < 2 ^ 63 := by
      by_contra hlt
      rw [alloc, if_neg hlt] at hjunk
      cases hjunk
    have hroom := h.room
    have hlen : (b.bytes.take (b.bytes.length * 2) ++
        (List.range (b.bytes.length * 2 - b.bytes.length)).map junk).length =
        b.bytes.length * 2 := by
      rw [List.length_append, List.length_take, List.length_map, List.length_range]
      omega
    refine .inr ⟨rfl, ⟨h.endless, h.outside, ?_, ?_, ?_, fun hbad => ?_⟩, rfl, hlen⟩
    · rw [hlen]
      change b.pos < _
      omega
    · rw [hlen]
      exact h.cap.trans (by omega)
    · rw [hlen]
      exact hlt
    · obtain ⟨hpos, hfront, h0⟩ := h.front hbad
      refine ⟨hpos, ?_, h0⟩
      change (b.bytes.take (b.bytes.length * 2) ++ _).take w.length = w
      rw [List.take_of_length_le (show b.bytes.length ≤ b.bytes.length * 2 by omega),
        List.take_append_of_le_length (by omega), hfront]

theorem Out.Holds.check (h : b.Holds w bad) : Leaves (b.check mem at_) w 1 bad := by
  have hroom := h.room
  have hcap := h.cap
  unfold Out.check
  split
  · rcases h.double mem at_ with hfail | ⟨-, hholds, hpos, hlen⟩
    · rw [hfail]
      exact ⟨h.endless, fun hbad => h.outside.trans hbad, nofun⟩
    · exact ⟨hholds.endless, fun hbad => hholds.outside.trans hbad, fun _ => ⟨hholds, by omega⟩⟩
  · exact h.leaves (by omega)

/-- Doubling comes to an end, or fails, before the block is larger than `PTRDIFF_MAX`. -/
theorem Out.Holds.makeRoom (turns : Nat) (h : b.Holds w bad) (hturns : 2 ^ 63 ≤ b.bytes.length * 2 ^ turns) :
    Leaves (b.room mem at_ k turns) w k bad := by
  induction turns generalizing b with
  | zero => exact absurd h.fits (by omega)
  | succ turns ih =>
    rw [Out.room]
    split
    · rcases h.double mem at_ with hfail | ⟨hok, hholds, hpos, hlen⟩
      · rw [hfail]
        exact ⟨h.endless, fun hbad => h.outside.trans hbad, nofun⟩
      · rw [Json.andThen, if_pos hok]
        refine ih hholds ?_
        rw [hlen, Nat.mul_assoc, ← Nat.pow_succ']
        exact hturns
    · exact h.leaves (by omega)

theorem asc_comma_ne_zero : asc ',' ≠ 0 := by decide

theorem Out.Holds.separator (h : b.Holds w bad) (i : Nat) :
    Leaves (separator mem at_ i b) (w ++ if i = 0 then [] else [asc ',']) 0 bad := by
  unfold Json.separator
  split
  · rw [List.append_nil]
    exact h.leaves h.room
  · refine (h.check mem at_).andThen id fun b hb hroom => ?_
    obtain ⟨hput, hpos, hlen⟩ := hb.put hroom asc_comma_ne_zero
    exact hput.leaves (by omega)

/-- The string of a container with its bracket. -/
theorem Out.Holds.closing (h : b.Holds w bad) {c : UInt8} (hc : c ≠ 0) :
    (closing mem at_ c b).2.endless = false ∧ (bad = false → (closing mem at_ c b).2.outside = false) ∧
      ((closing mem at_ c b).1 = true →
        (closing mem at_ c b).2.outside = bad ∧ (bad = false → (closing mem at_ c b).2.text.bytes = w ++ [c])) := by
  have hcheck := h.check mem at_
  unfold Json.closing Json.andThen
  split
  next hok =>
    obtain ⟨hb, hroom⟩ := hcheck.holds hok
    obtain ⟨hput, -⟩ := hb.put hroom hc
    obtain ⟨hset, -, -, htext⟩ := hput.set_zero
    exact ⟨hset.endless, fun hbad => hset.outside.trans hbad, fun _ => ⟨hset.outside, htext⟩⟩
  next hok => exact ⟨hcheck.endless, hcheck.safe, fun hok' => absurd hok' hok⟩

theorem Out.Holds.member (h : b.Holds w bad) (key : CString) :
    Leaves (member mem at_ key b) (w ++ asc '"' :: (key.bytes ++ [asc '"', asc ':'])) 0 bad := by
  have hturns : 2 ^ 63 ≤ b.bytes.length * 2 ^ 64 := by
    have := h.cap
    omega
  refine (h.makeRoom mem at_ 64 hturns).andThen id fun b hb hroom => ?_
  obtain ⟨h1, p1, l1⟩ := hb.put (c := asc '"') (by omega) (by decide)
  obtain ⟨h2, p2, l2⟩ := h1.strcpy (s := key) (by omega)
  obtain ⟨h3, p3, l3⟩ := h2.put (c := asc '"') (by omega) (by decide)
  obtain ⟨h4, p4, l4⟩ := h3.put (c := asc ':') (by omega) (by decide)
  refine Out.Holds.leaves (h4.congr fun _ => ?_) (by omega)
  simp

/-- What is known of a function that writes the text `t`; `bad` says whether a string does not fit its block. -/
structure Written.Is (x : Written) (t : List UInt8) (bad : Bool) : Prop where
  endless : x.endless = false
  safe : bad = false → x.outside = false
  text : ∀ s, x.text = some s → x.outside = bad ∧ (bad = false → s.bytes = t)

theorem Out.Holds.append (h : b.Holds w bad) {x : Written} {t : List UInt8} {bad' : Bool} (hx : x.Is t bad') :
    Leaves (append mem at_ x b) (w ++ t) 0 (bad || bad') := by
  unfold Json.append
  split
  next htext =>
    refine ⟨?_, fun hbad => ?_, nofun⟩
    · change (b.endless || x.endless) = false
      rw [h.endless, hx.endless]
      rfl
    · obtain ⟨hb, hb'⟩ := Bool.or_eq_false_iff.1 hbad
      change (b.outside || x.outside) = false
      rw [h.outside, hb, hx.safe hb']
      rfl
  next child htext =>
    obtain ⟨hout, hbytes⟩ := hx.text child htext
    have hchild : (b.child x).Holds w (bad || bad') := by
      refine ⟨?_, ?_, h.room, h.cap, h.fits, fun hbad => h.front (Bool.or_eq_false_iff.1 hbad).1⟩
      · change (b.endless || x.endless) = false
        rw [h.endless, hx.endless]
        rfl
      · change (b.outside || x.outside) = (bad || bad')
        rw [h.outside, hout]
    have hturns : 2 ^ 63 ≤ (b.child x).bytes.length * 2 ^ 64 := by
      have := hchild.cap
      omega
    refine (hchild.makeRoom mem at_ 64 hturns).andThen id fun b hb hroom => ?_
    obtain ⟨hcpy, hpos, hlen⟩ := hb.strcpy hroom
    exact (hcpy.congr fun hbad => by rw [hbytes (Bool.or_eq_false_iff.1 hbad).2]).leaves (by have := hcpy.room; omega)

end

/-! ### The string writer -/

/-- The size computed has not wrapped around, and a character that counts as six is written in two bytes. -/
def Sized (s : CString) : Prop := 2 + (s.bytes.map cost).sum < 2 ^ 64 ∧ ∃ c ∈ s.bytes, Short c

instance (s : CString) : Decidable (Sized s) := by
  unfold Sized
  infer_instance

theorem cost_cases (c : UInt8) :
    (Short c ∧ cost c = 6 ∧ (escape c).length = 2) ∨ (¬Short c ∧ cost c = (escape c).length) := by
  apply forall_byte (c := c)
  decide +kernel

/-- What is written is no longer than what is counted, and shorter just where a character is written in two bytes. -/
theorem length_escape (s : List UInt8) :
    (s.flatMap escape).length ≤ (s.map cost).sum ∧ (s.map cost).sum ≤ 3 * (s.flatMap escape).length ∧
      ((s.flatMap escape).length < (s.map cost).sum ↔ ∃ c ∈ s, Short c) := by
  induction s with
  | nil => simp
  | cons c s ih =>
    obtain ⟨h1, h2, h3⟩ := ih
    rw [List.flatMap_cons, List.length_append, List.map_cons, List.sum_cons]
    simp only [List.mem_cons, exists_eq_or_imp, ← h3]
    rcases cost_cases c with ⟨hc, hcost, hlen⟩ | ⟨hc, hcost⟩
    · simp only [hc, true_or, iff_true]
      omega
    · simp only [hc, false_or]
      omega

/-- The block of a string of size `n` behind the bytes `w`: nothing has been stored outside but where the place is
outside too. -/
structure Out.Behind (b : Out) (n : Nat) (w : List UInt8) : Prop where
  endless : b.endless = false
  length : b.bytes.length = n
  pos : b.pos = w.length
  late : b.outside = true → n ≤ b.pos
  front : b.outside = false → w.length ≤ n → b.bytes.take w.length = w

section

variable {b : Out} {n : Nat} {w : List UInt8}

theorem Out.Behind.put (h : b.Behind n w) (c : UInt8) : (b.put c).Behind n (w ++ [c]) := by
  have hpos := h.pos
  have hlen := h.length
  refine ⟨h.endless, (List.length_set).trans hlen, ?_, fun hout => ?_, fun hout _ => ?_⟩
  · rw [List.length_append, ← hpos]
    rfl
  · rcases Bool.or_eq_true_iff.1 hout with hout | hout
    · exact (h.late hout).trans (Nat.le_succ _)
    · have := of_decide_eq_true hout
      change n ≤ b.pos + 1
      omega
  · obtain ⟨hout, hin⟩ := Bool.or_eq_false_iff.1 hout
    have hlt := of_decide_eq_false hin
    rw [List.length_append, List.length_singleton]
    change (b.bytes.set b.pos c).take (w.length + 1) = w ++ [c]
    have hlt' : w.length < (b.bytes.set b.pos c).length := by
      rw [List.length_set]
      omega
    rw [hpos] at hlt' ⊢
    rw [List.take_succ_eq_append_getElem hlt', List.getElem_set_self, List.take_set_of_le (Nat.le_refl _),
      h.front hout (by omega)]

theorem Out.Behind.puts (h : b.Behind n w) (s : List UInt8) : (b.puts s).Behind n (w ++ s) := by
  induction s generalizing b w with
  | nil => rwa [List.append_nil]
  | cons c s ih =>
    have h' := ih (h.put c)
    rwa [List.append_assoc] at h'

theorem Out.Behind.set_zero (h : b.Behind n w) : (b.set 0).Behind n w ∧ (b.set 0).outside = decide (n ≤ w.length) := by
  have hpos := h.pos
  have hlen := h.length
  have hout : (b.set 0).outside = decide (n ≤ w.length) := by
    change (b.outside || decide (b.bytes.length ≤ b.pos)) = _
    rw [hlen, hpos]
    cases hb : b.outside with
    | false => exact Bool.false_or _
    | true => rw [Bool.true_or, decide_eq_true (hpos ▸ h.late hb)]
  refine ⟨⟨h.endless, (List.length_set).trans hlen, hpos, fun hb => ?_, fun hb hle => ?_⟩, hout⟩
  · rw [hout] at hb
    exact hpos ▸ of_decide_eq_true hb
  · change (b.bytes.set b.pos 0).take w.length = w
    rw [List.take_set_of_le (by omega), h.front (Bool.or_eq_false_iff.1 hb).1 hle]

theorem Out.Behind.chars (h : b.Behind n w) (s : List UInt8) :
    (s.foldl Out.char b).Behind n (w ++ s.flatMap escape) := by
  induction s generalizing b w with
  | nil => simpa using h
  | cons c s ih =>
    have hchar : (b.char c).Behind n (w ++ escape c) := by
      unfold Out.char
      split
      · exact (h.puts (escape c)).set_zero.1
      · exact h.puts (escape c)
    rw [List.flatMap_cons, ← List.append_assoc]
    exact ih hchar

end

/-- The first byte of a block for a string. -/
def firstByte (mem : Memory) (at_ : List Nat) : UInt8 := ((mem at_ 0).getD fun _ => 0) 0

/-- What stands behind a NUL is not part of the string. -/
theorem of_cut (s t : List UInt8) : (CString.of (s ++ 0 :: t)).bytes = (CString.of s).bytes := by
  change (s ++ 0 :: t).takeWhile (· ≠ 0) = s.takeWhile (· ≠ 0)
  induction s with
  | nil => simp
  | cons c s ih =>
    rw [List.cons_append, List.takeWhile_cons, List.takeWhile_cons, ih]

/-- `js_stringify_string` stores its NUL outside of its block but where the string is `Sized`. -/
theorem writeString_is (mem : Memory) (at_ : List Nat) (s : CString) :
    (writeString mem at_ s).Is (stringifyString (firstByte mem at_) s).bytes (!decide (Sized s)) := by
  unfold writeString
  split
  · exact ⟨rfl, fun _ => rfl, nofun⟩
  next b hb =>
    obtain ⟨junk, hjunk, rfl⟩ := Option.map_eq_some_iff.1 hb
    have hmem : need s < 2 ^ 63 ∧ mem at_ 0 = some junk := by
      unfold alloc at hjunk
      split at hjunk
      next hlt => exact ⟨hlt, hjunk⟩
      · cases hjunk
    obtain ⟨hlt, hmem⟩ := hmem
    -- the block behind the byte that is never set
    have hstart : Out.Behind ⟨(List.range (need s)).map junk, 1, 1, false, false⟩ (need s) [junk 0] := by
      refine ⟨rfl, by simp, rfl, nofun, fun _ hle => ?_⟩
      obtain ⟨n, hn⟩ := Nat.exists_eq_add_of_le' hle
      rw [hn, List.length_singleton, List.range_succ_eq_map]
      rfl
    have hquote := (hstart.chars s.bytes).put (asc '"')
    obtain ⟨hbehind, hout⟩ := hquote.set_zero
    obtain ⟨hle, hthree, hshort⟩ := length_escape s.bytes
    have hsized : decide (need s ≤ ([junk 0] ++ s.bytes.flatMap escape ++ [asc '"']).length) = !decide (Sized s) := by
      have hlen : ([junk 0] ++ s.bytes.flatMap escape ++ [asc '"']).length = 2 + (s.bytes.flatMap escape).length := by
        simp only [List.length_append, List.length_singleton]
        omega
      rw [hlen, ← decide_not, decide_eq_decide, Sized, ← hshort]
      unfold need at hlt ⊢
      omega
    rw [hsized] at hout
    refine ⟨hbehind.endless, fun hbad => hout.trans hbad, fun t ht => ?_⟩
    obtain rfl := Option.some.inj ht
    refine ⟨hout, fun hbad => ?_⟩
    rw [← hsized] at hbad
    have hin := of_decide_eq_false hbad
    have hclean : Out.outside _ = false := (Bool.or_eq_false_iff.1 (hout.trans (hsized.symm.trans hbad))).1
    have hfront := hquote.front hclean (by omega)
    have hpos := hquote.pos
    have hlen := hquote.length
    generalize (List.foldl Out.char ⟨(List.range (need s)).map junk, 1, 1, false, false⟩ s.bytes).put (asc '"') = b2
      at *
    have hsplit : b2.bytes.set b2.pos 0 =
        [junk 0] ++ s.bytes.flatMap escape ++ [asc '"'] ++ 0 :: b2.bytes.drop (b2.pos + 1) := by
      rw [List.set_eq_take_append_cons_drop, if_pos (by omega), hpos, hfront]
    change (CString.of (b2.bytes.set b2.pos 0)).bytes = _
    rw [hsplit, of_cut, stringifyString, firstByte, hmem]
    simp

/-! ### The whole tree -/

mutual

/-- The strings of a tree. -/
def Value.strings {D : Type} : Value D → List CString
  | .null | .boolean _ | .number _ => []
  | .string s => [s]
  | .array vs => vs.strings
  | .object ms => ms.strings

def Values.strings {D : Type} : Values D → List CString
  | .nil => []
  | .cons v vs => v.strings ++ vs.strings

def Members.strings {D : Type} : Members D → List CString
  | .nil => []
  | .cons _ v ms => v.strings ++ ms.strings

end

/-- Whether one of the strings does not fit its block. -/
def spills (ss : List CString) : Bool := ss.any fun s => !decide (Sized s)

theorem spills_append (ss ts : List CString) : spills (ss ++ ts) = (spills ss || spills ts) := List.any_append

theorem spills_eq_false {ss : List CString} : spills ss = false ↔ ∀ s ∈ ss, Sized s := by simp [spills]

section

variable {D : Type} (fmt : D → CString) (mem : Memory)

/-- The block of a container behind its opening bracket. -/
theorem holds_open {at_ : List Nat} {b : Out} (hb : Out.malloc mem at_ 64 = some b) {c : UInt8} (hc : c ≠ 0) :
    (b.put c).Holds [c] false := by
  obtain ⟨junk, -, rfl⟩ := Option.map_eq_some_iff.1 hb
  have hstart : Out.Holds ⟨(List.range 64).map junk, 0, 1, false, false⟩ [] false :=
    ⟨rfl, rfl, by simp, by simp, by simp, fun _ => ⟨rfl, rfl, by simp⟩⟩
  exact (hstart.put (by simp) hc).1

theorem fixed_is (o : Option (Nat → UInt8)) (t : CString) :
    Written.Is ⟨o.map fun _ => t, false, false⟩ t.bytes false := by
  refine ⟨rfl, fun _ => rfl, fun s hs => ⟨rfl, fun _ => ?_⟩⟩
  obtain ⟨-, -, rfl⟩ := Option.map_eq_some_iff.1 hs
  rfl

/-- A container with its closing bracket. -/
theorem finish_is {at_ : List Nat} {x : Bool × Out} {w : List UInt8} {bad : Bool} (h : Leaves x w 0 bad) {c : UInt8}
    (hc : c ≠ 0) :
    (Out.finish (andThen x (closing mem at_ c))).Is (w ++ [c]) bad := by
  unfold andThen
  split
  next hx =>
    obtain ⟨hend, hsafe, htext⟩ := (h.holds hx).1.closing mem at_ hc
    refine ⟨hend, hsafe, fun s hs => ?_⟩
    unfold Out.finish at hs
    split at hs
    next hok =>
      obtain rfl := Option.some.inj hs
      exact htext hok
    · cases hs
  next hx =>
    refine ⟨h.endless, h.safe, fun s hs => ?_⟩
    unfold Out.finish at hs
    rw [if_neg hx] at hs
    cases hs

mutual

theorem writeValue_is (at_ : List Nat) : ∀ v : Value D,
    (writeValue fmt mem at_ v).Is (stringifyValue (fun n => (fmt n).bytes) (firstByte mem) at_ v) (spills v.strings)
  | .null => fixed_is (alloc mem at_ 0 5) (.of (lit "null"))
  | .boolean true => fixed_is (alloc mem at_ 0 5) (.of (lit "true"))
  | .boolean false => fixed_is (alloc mem at_ 0 6) (.of (lit "false"))
  | .number n => fixed_is (alloc mem at_ 0 32) (fmt n)
  | .string s => by
    rw [Value.strings, spills, List.any_cons, List.any_nil, Bool.or_false]
    exact writeString_is mem at_ s
  | .array vs => by
    rw [writeValue, stringifyValue, Value.strings]
    split
    · exact ⟨rfl, fun _ => rfl, nofun⟩
    next b hb => exact finish_is mem (writeArray_leaves at_ vs 0 (holds_open mem hb (by decide))) (by decide)
  | .object ms => by
    rw [writeValue, stringifyValue, Value.strings]
    split
    · exact ⟨rfl, fun _ => rfl, nofun⟩
    next b hb => exact finish_is mem (writeObject_leaves at_ ms 0 (holds_open mem hb (by decide))) (by decide)

theorem writeArray_leaves (at_ : List Nat) : ∀ (vs : Values D) (i : Nat) {b : Out} {w : List UInt8} {bad : Bool},
    b.Holds w bad → Leaves (writeArray fmt mem at_ i vs b) (w ++ stringifyArray (fun n => (fmt n).bytes)
    (firstByte mem) at_ i vs) 0
      (bad || spills vs.strings)
  | .nil, i, b, w, bad, h => by
    rw [stringifyArray, List.append_nil, Values.strings, spills, List.any_nil, Bool.or_false]
    exact h.leaves h.room
  | .cons v vs, i, b, w, bad, h => by
    rw [writeArray, stringifyArray, Values.strings, spills_append, ← Bool.or_assoc]
    have hchild := (h.separator mem at_ i).andThen (fun hbad => (Bool.or_eq_false_iff.1 hbad).1) fun b hb _ =>
      hb.append mem at_ (writeValue_is (i :: at_) v)
    refine hchild.andThen (fun hbad => (Bool.or_eq_false_iff.1 hbad).1) fun b hb _ => ?_
    have hrest := writeArray_leaves at_ vs (i + 1) hb
    rwa [List.append_assoc, List.append_assoc] at hrest

theorem writeObject_leaves (at_ : List Nat) : ∀ (ms : Members D) (i : Nat) {b : Out} {w : List UInt8} {bad : Bool},
    b.Holds w bad → Leaves (writeObject fmt mem at_ i ms b) (w ++ stringifyObject (fun n => (fmt n).bytes)
    (firstByte mem) at_ i ms) 0
      (bad || spills ms.strings)
  | .nil, i, b, w, bad, h => by
    rw [stringifyObject, List.append_nil, Members.strings, spills, List.any_nil, Bool.or_false]
    exact h.leaves h.room
  | .cons key v ms, i, b, w, bad, h => by
    rw [writeObject, stringifyObject, Members.strings, spills_append, ← Bool.or_assoc]
    have hkey := (h.separator mem at_ i).andThen id fun b hb _ => hb.member mem at_ key
    have hchild := hkey.andThen (fun hbad => (Bool.or_eq_false_iff.1 hbad).1) fun b hb _ =>
      hb.append mem at_ (writeValue_is (i :: at_) v)
    refine hchild.andThen (fun hbad => (Bool.or_eq_false_iff.1 hbad).1) fun b hb _ => ?_
    have hrest := writeObject_leaves at_ ms (i + 1) hb
    simpa using hrest

end

/-- `js_stringify` in its blocks.  The loops come to an end.  Where every string is `Sized`, nothing is stored outside
of a block, and the text is that of `jsStringify`; and where the call succeeds, something is stored outside just where
one of the strings is not. -/
theorem js_stringify_bounds (v : Value D) :
    (writeValue fmt mem [] v).endless = false ∧
    ((∀ s ∈ v.strings, Sized s) → (writeValue fmt mem [] v).outside = false) ∧
    ∀ t, (writeValue fmt mem [] v).text = some t → ((writeValue fmt mem [] v).outside = false ↔
    ∀ s ∈ v.strings, Sized s) ∧
      ((∀ s ∈ v.strings, Sized s) → t.bytes = jsStringify (fun n => (fmt n).bytes) (firstByte mem) v) := by
  have h := writeValue_is fmt mem [] v
  refine ⟨h.endless, fun hs => h.safe (spills_eq_false.2 hs), fun t ht => ?_⟩
  obtain ⟨hout, htext⟩ := h.text t ht
  exact ⟨by rw [hout, spills_eq_false], fun hs => htext (spills_eq_false.2 hs)⟩

end

/-- The array of the string of one tab, whose block is large enough. -/
theorem js_stringify_bounds_tab :
    (writeValue (fun _ : Unit => CString.of []) (fun _ _ => some fun _ => 0) []
    (.array (.cons (.string (.of [9])) .nil))).outside = false :=
  (js_stringify_bounds (fun _ : Unit => CString.of []) (fun _ _ => some fun _ => 0)
    (.array (.cons (.string (.of [9])) .nil))).2.1
    (by decide)

/-- The string `a`: the NUL is stored at index 3 of a block of 3 bytes. -/
theorem js_stringify_overflow :
    (writeValue (fun _ : Unit => CString.of []) (fun _ _ => some fun _ => 0) [] (.string (.of [97]))).outside =
    true := by
  decide

end JACLibc.Json
