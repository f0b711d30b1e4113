import JACLibc.Wchar.IconvSpec

/-!
# `iconv` by characters

What one call of `iconv` does, told by characters and not by bytes (`convChars`): a position in the text is a number
of characters and of bytes of the next one that have been read.  The loop of the source does exactly this
(`returns_convChars`).  Two things in it are not what one would wish for.  A character that was begun in an earlier
call is read without the bits of that call (`seen`), and one for which there is no room is dropped.
-/

namespace JACLibc.Iconv

open Bytes

/-! ### Calls that return -/

section Returns

variable (src dst : Enc)

/-- The loop ends, after however many turns, with this answer. -/
def Returns (c : Conv) (a : Answer) : Prop := ∃ fuel, iconvLoop src dst fuel c = some a

/-- What happens once a code point was read. -/
def Puts (c : Conv) (a : Answer) : Prop :=
  match putCodepoint dst c with
  | .error b => a = b
  | .ok c => Returns src dst c a

variable {src dst} {c : Conv} {a b : Answer}

theorem iconvLoop_mono {fuel : Nat} (h : iconvLoop src dst fuel c = some a) (j : Nat) :
    iconvLoop src dst (fuel + j) c = some a := by
  induction fuel generalizing c with
  | zero => exact absurd h (by simp [iconvLoop])
  | succ fuel ih =>
    rw [show fuel + 1 + j = fuel + j + 1 by omega]
    rw [iconvLoop] at h ⊢
    split
    · rwa [if_pos ‹_›] at h
    · rw [if_neg ‹_›] at h
      dsimp only at h ⊢
      split
      · rw [if_pos ‹_›] at h
        exact ih h
      · rw [if_neg ‹_›] at h
        split
        · rwa [if_pos ‹_›] at h
        · rw [if_neg ‹_›] at h
          split
          · next heq =>
            rw [heq] at h
            exact h
          · next heq =>
            rw [heq] at h
            exact ih h

theorem Returns.unique (ha : Returns src dst c a) (hb : Returns src dst c b) : a = b := by
  obtain ⟨m, hm⟩ := ha
  obtain ⟨n, hn⟩ := hb
  have hm' := iconvLoop_mono hm n
  have hn' := iconvLoop_mono hn m
  rw [Nat.add_comm] at hn'
  exact Option.some.inj (hm'.symm.trans hn')

theorem returns_succ : Returns src dst c a ↔ ∃ fuel, iconvLoop src dst (fuel + 1) c = some a := by
  constructor
  · rintro ⟨fuel, h⟩
    exact ⟨fuel, iconvLoop_mono h 1⟩
  · rintro ⟨fuel, h⟩
    exact ⟨fuel + 1, h⟩

theorem returns_nil (h : c.inp = []) : Returns src dst c a ↔ a = ⟨some c.converted, none, c⟩ := by
  rw [returns_succ]
  constructor
  · rintro ⟨fuel, hrun⟩
    rw [iconvLoop, if_pos h] at hrun
    exact (Option.some.inj hrun).symm
  · rintro rfl
    exact ⟨0, by rw [iconvLoop, if_pos h]⟩

/-- A turn that reads a byte of a character, or nothing. -/
theorem returns_more (hne : c.inp ≠ []) {inp : List UInt8} {cp state : Nat}
    (hfrom : codepointFrom src c.inp c.cp c.state = ⟨0, inp, cp, state⟩) :
    Returns src dst c a ↔ Returns src dst { c with inp := inp, cp := cp, state := state } a := by
  rw [returns_succ]
  have hturn : ∀ fuel, iconvLoop src dst (fuel + 1) c =
    iconvLoop src dst fuel { c with inp := inp, cp := cp, state := state } := by
    intro fuel
    rw [iconvLoop, if_neg hne, hfrom]
    rfl
  simp only [hturn]
  rfl

/-- A turn that reads a whole character. -/
theorem returns_one (hne : c.inp ≠ []) {inp : List UInt8} {cp state : Nat}
    (hfrom : codepointFrom src c.inp c.cp c.state = ⟨1, inp, cp, state⟩) :
    Returns src dst c a ↔ Puts src dst { c with inp := inp, cp := cp, state := state } a := by
  rw [returns_succ, Puts]
  have hturn : ∀ fuel, iconvLoop src dst (fuel + 1) c =
      match putCodepoint dst { c with inp := inp, cp := cp, state := state } with
      | .error a => some a
      | .ok c => iconvLoop src dst fuel c := by
    intro fuel
    rw [iconvLoop, if_neg hne, hfrom]
    rfl
  simp only [hturn]
  cases putCodepoint dst { c with inp := inp, cp := cp, state := state } with
  | error b => exact ⟨fun h => (Option.some.inj h.choose_spec).symm, fun h => ⟨0, congrArg some h.symm⟩⟩
  | ok c' => exact Iff.rfl

end Returns

/-! ### Characters of UTF-8 -/

section Utf8

variable {dst : Enc} {c : Conv} {a : Answer}

theorem conts_ne_nil (v s : Nat) (w : List UInt8) : conts v (s + 1) ++ w ≠ [] := List.cons_ne_nil _ _

/-- The bytes that are still to come of a character add their bits to those that are known. -/
theorem returns_conts (v : Nat) {s : Nat} {w : List UInt8} (hinp : c.inp = conts v (s + 1) ++ w)
    (hstate : c.state = s + 1) (hcp : (c.cp + 1) * 64 ^ (s + 1) ≤ 2 ^ 26) : Returns .utf8 dst c a ↔
      Puts .utf8 dst { c with inp := w, cp := c.cp * 64 ^ (s + 1) + v % 64 ^ (s + 1), state := 0 } a := by
  induction s generalizing c with
  | zero =>
    have hsmall : c.cp * 64 < 2 ^ 32 := by omega
    have hfrom : codepointFrom .utf8 c.inp c.cp c.state = ⟨1, w, c.cp * 64 ^ (0 + 1) + v % 64 ^ (0 + 1), 0⟩ := by
      rw [hinp, hstate]
      refine (from_cont hsmall (v / 64 ^ 0) 0 w).trans ?_
      rw [if_pos rfl, Nat.pow_zero, Nat.div_one, Nat.zero_add, Nat.pow_one]
    exact returns_one (by rw [hinp]; exact conts_ne_nil v 0 w) hfrom
  | succ s ih =>
    have hpow : 64 ^ (s + 1 + 1) = 64 * 64 ^ (s + 1) := Nat.pow_succ'
    have hdigit : v / 64 ^ (s + 1) % 64 < 64 := Nat.mod_lt _ (by decide)
    have hpos : 0 < 64 ^ (s + 1) := Nat.pow_pos (by decide)
    have hstep : (c.cp * 64 + v / 64 ^ (s + 1) % 64 + 1) * 64 ^ (s + 1) ≤ 2 ^ 26 := by
      refine le_trans (Nat.mul_le_mul_right _ (show _ ≤ (c.cp + 1) * 64 by omega)) ?_
      rwa [Nat.mul_assoc, ← hpow]
    have hsmall : c.cp * 64 < 2 ^ 32 := by
      have := Nat.le_mul_of_pos_right (c.cp * 64 + v / 64 ^ (s + 1) % 64 + 1) hpos
      omega
    have hfrom : codepointFrom .utf8 c.inp c.cp c.state = ⟨0, conts v (s + 1) ++ w, c.cp * 64 + v / 64 ^ (s + 1) % 64,
      s + 1⟩ := by
      rw [hinp, hstate]
      exact (from_cont hsmall (v / 64 ^ (s + 1)) (s + 1) (conts v (s + 1) ++ w)).trans
        (by rw [if_neg (Nat.succ_ne_zero s)])
    have hvalue : (c.cp * 64 + v / 64 ^ (s + 1) % 64) * 64 ^ (s + 1) + v % 64 ^ (s + 1) =
        c.cp * 64 ^ (s + 1 + 1) + v % 64 ^ (s + 1 + 1) := by
      rw [Nat.mod_pow_succ (b := 64) (k := s + 1), hpow]
      ring
    rw [returns_more (by rw [hinp]; exact conts_ne_nil v (s + 1) w) hfrom]
    refine (ih (c := { c with inp := _, cp := _, state := _ }) rfl rfl hstep).trans ?_
    dsimp only
    rw [hvalue]

/-- Some, but not all of the bytes that are still to come. -/
theorem returns_conts_part (v : Nat) {s m : Nat} (hm : m < s) (hinp : c.inp = (conts v s).take m) (hstate : c.state = s)
    (hcp : (c.cp + 1) * 64 ^ s ≤ 2 ^ 26) :
    ∃ cp, ∀ a, Returns .utf8 dst c a ↔
    a = ⟨some c.converted, none, { c with inp := [], cp := cp, state := s - m }⟩ := by
  induction m generalizing s c with
  | zero =>
    refine ⟨c.cp, fun a => ?_⟩
    have hnil : c.inp = [] := by rw [hinp, List.take_zero]
    have hsame : { c with inp := [], cp := c.cp, state := s - 0 } = c := by
      rw [← hnil, Nat.sub_zero, ← hstate]
    rw [returns_nil hnil, hsame]
  | succ m ih =>
    obtain ⟨s, rfl⟩ : ∃ s', s = s' + 1 := ⟨s - 1, by omega⟩
    have hpow : 64 ^ (s + 1) = 64 * 64 ^ s := Nat.pow_succ'
    have hdigit : v / 64 ^ s % 64 < 64 := Nat.mod_lt _ (by decide)
    have hpos : 0 < 64 ^ s := Nat.pow_pos (by decide)
    have hstep : (c.cp * 64 + v / 64 ^ s % 64 + 1) * 64 ^ s ≤ 2 ^ 26 := by
      refine le_trans (Nat.mul_le_mul_right _ (show _ ≤ (c.cp + 1) * 64 by omega)) ?_
      rwa [Nat.mul_assoc, ← hpow]
    have hsmall : c.cp * 64 < 2 ^ 32 := by
      have := Nat.le_mul_of_pos_right (c.cp * 64 + v / 64 ^ s % 64 + 1) hpos
      omega
    have hfrom : codepointFrom .utf8 c.inp c.cp c.state = ⟨0, (conts v s).take m, c.cp * 64 + v / 64 ^ s % 64, s⟩ := by
      rw [hinp, hstate]
      exact (from_cont hsmall (v / 64 ^ s) s ((conts v s).take m)).trans (by rw [if_neg (by omega)])
    obtain ⟨cp, hcp'⟩ := ih (c := { c with inp := _, cp := _, state := _ }) (by omega) rfl rfl hstep
    refine ⟨cp, fun a => ?_⟩
    rw [returns_more (by rw [hinp]; exact List.cons_ne_nil _ _) hfrom, hcp' a, Nat.add_sub_add_right]

theorem drop_conts (v : Nat) {s j : Nat} (hj : j ≤ s) : (conts v s).drop j = conts v (s - j) := by
  induction j generalizing s with
  | zero => rfl
  | succ j ih =>
    obtain ⟨s, rfl⟩ : ∃ s', s = s' + 1 := ⟨s - 1, by omega⟩
    rw [conts, List.drop_succ_cons, ih (by omega), Nat.add_sub_add_right]

end Utf8

/-! ### Positions -/

/-- The code point that is read of a character of which `k` bytes were read in earlier calls: their bits are gone. -/
def seen (src : Enc) (k : Nat) (c : Char) : Nat :=
  if k = 0 then c.toNat else c.toNat % 64 ^ ((encodeCp src c.toNat).length - k)

/-- What the handle has as its state there. -/
def stateAt (src : Enc) (k : Nat) : List Char → Nat
  | [] => 0
  | c :: _ => if k = 0 then 0 else (encodeCp src c.toNat).length - k

/-- A position in the text: in UTF-8 it may be within its first character. -/
def Pos (src : Enc) (k : Nat) (cs : List Char) : Prop :=
  k = 0 ∨ (src = .utf8 ∧ ∃ c rest, cs = c :: rest ∧ k < (utf8Bytes c.toNat).length)

/-- One call from there with `n` bytes and so much room: its output and the new position, or nothing if it does not
return. -/
def convChars (src dst : Enc) : Nat → List Char → Nat → Nat → Option (List UInt8 × Nat × List Char)
  | _, [], _, _ => some ([], 0, [])
  | k, c :: cs, n, room =>
    let left := (encodeCp src c.toNat).length - k
    let bytes := encodeCp dst (seen src k c)
    if n < left then (if n = 0 ∨ src = .utf8 then some ([], k + n, c :: cs) else none)
    else if room < bytes.length then some ([], 0, cs)
    else (convChars src dst 0 cs (n - left) (room - bytes.length)).map fun r => (bytes ++ r.1, r.2)

theorem seen_le (src : Enc) (k : Nat) (c : Char) : seen src k c ≤ c.toNat := by
  unfold seen
  split
  · exact Nat.le_refl _
  · exact Nat.mod_le _ _

theorem putCodepoint_eq {dst : Enc} {c : Conv} (hcp : c.cp < 0x110000) : putCodepoint dst c =
    if c.room < (encodeCp dst c.cp).length then .error ⟨some c.converted, some .E2BIG, c⟩
    else .ok { c with
      room := c.room - (encodeCp dst c.cp).length
      out := c.out ++ encodeCp dst c.cp
      converted := c.converted + 1 } := by
  unfold putCodepoint
  rw [codepointTo_eq dst c.room hcp, To.fit]
  by_cases hroom : c.room < (encodeCp dst c.cp).length
  · rw [if_pos hroom, if_pos hroom]
    rfl
  · rw [if_neg hroom, if_neg hroom]
    rfl

/-- What is left of a character of several bytes behind its first one. -/
theorem utf8Bytes_drop {v k : Nat} (hv : v < 0x110000) (hk : k ≠ 0) (hlt : k < (utf8Bytes v).length) :
    (utf8Bytes v).drop k = conts v ((utf8Bytes v).length - k) ∧ 64 ^ ((utf8Bytes v).length - k) ≤ 2 ^ 26 := by
  have hlong : 0x80 ≤ v := by
    by_contra hshort
    rw [length_utf8Bytes, if_pos (Nat.not_le.1 hshort)] at hlt
    omega
  obtain ⟨b, s, hbytes, -, -, -, -, hbound⟩ := utf8Bytes_lead hv hlong
  obtain ⟨k, rfl⟩ := Nat.exists_eq_succ_of_ne_zero hk
  rw [hbytes, List.length_cons, length_conts] at hlt ⊢
  rw [List.drop_succ_cons, drop_conts v (by omega), Nat.succ_eq_add_one, Nat.add_sub_add_right]
  refine ⟨rfl, le_trans (Nat.pow_le_pow_right (by decide) (show s - k ≤ s from Nat.sub_le s k)) (by omega)⟩

theorem encode_drop (src : Enc) (c : Char) (cs : List Char) {k : Nat} (hk : k ≤ (encodeCp src c.toNat).length) :
    (encode src (c :: cs)).drop k = (encodeCp src c.toNat).drop k ++ encode src cs := by
  rw [encode_cons, List.drop_append_of_le_length hk]

section Characters

variable {src dst : Enc} (hsrc : src ≠ .ascii) {conv : Conv} {c : Char} {k : Nat}

include hsrc

/-- A character whose bytes are there is read and written, without the bits of earlier calls. -/
theorem returns_char (hpos : k = 0 ∨ (src = .utf8 ∧ k < (utf8Bytes c.toNat).length)) {w : List UInt8}
    (hinp : conv.inp = (encodeCp src c.toNat).drop k ++ w)
    (hstate : conv.state = if k = 0 then 0 else (encodeCp src c.toNat).length - k) (hcp : k ≠ 0 → conv.cp = 0)
    (a : Answer) :
    Returns src dst conv a ↔ Puts src dst { conv with inp := w, cp := seen src k c, state := 0 } a := by
  have hv := char_lt c
  have hscalar := char_not_surrogate c
  by_cases hk : k = 0
  · subst hk
    rw [List.drop_zero] at hinp
    rw [if_pos rfl] at hstate
    have hne : conv.inp ≠ [] := by
      rw [hinp]
      exact List.append_ne_nil_of_left_ne_nil (List.length_pos_iff.1 (length_encodeCp_pos src c.toNat)) w
    have hseen : seen src 0 c = c.toNat := if_pos rfl
    rw [hseen]
    cases src with
    | ascii => exact absurd rfl hsrc
    | utf8 =>
      by_cases hshort : c.toNat < 0x80
      · exact returns_one hne (by rw [hinp, hstate]; exact from_utf8_short hshort _ _)
      · obtain ⟨b, s, hbytes, hs, hlead, -, -, hbound⟩ := utf8Bytes_lead hv (Nat.not_lt.1 hshort)
        obtain ⟨s, rfl⟩ : ∃ s', s = s' + 1 := ⟨s - 1, by omega⟩
        have hfrom : codepointFrom .utf8 conv.inp conv.cp conv.state =
            ⟨0, conts c.toNat (s + 1) ++ w, c.toNat / 64 ^ (s + 1), s + 1⟩ := by
          rw [hinp, hstate, encodeCp, hbytes]
          exact hlead _ _
        have hdiv := Nat.div_mul_le_self c.toNat (64 ^ (s + 1))
        have hcps : (c.toNat / 64 ^ (s + 1) + 1) * 64 ^ (s + 1) ≤ 2 ^ 26 := by
          rw [Nat.add_mul, Nat.one_mul]
          omega
        have hvalue : c.toNat / 64 ^ (s + 1) * 64 ^ (s + 1) + c.toNat % 64 ^ (s + 1) = c.toNat := Nat.div_add_mod' _ _
        rw [returns_more hne hfrom]
        refine (returns_conts c.toNat (c := { conv with inp := _, cp := _, state := _ }) rfl rfl hcps).trans ?_
        dsimp only
        rw [hvalue]
    | utf16le => exact returns_one hne (by rw [hinp, hstate]; exact from_utf16 hv hscalar _ _ _)
    | utf32le => exact returns_one hne (by rw [hinp, hstate]; exact from_utf32 (by omega) _ _ _)
  · obtain ⟨rfl, hlt⟩ := hpos.resolve_left hk
    obtain ⟨hdrop, hpow⟩ := utf8Bytes_drop hv hk hlt
    rw [if_neg hk, encodeCp] at hstate
    rw [encodeCp, hdrop] at hinp
    have hseen : seen .utf8 k c = c.toNat % 64 ^ ((utf8Bytes c.toNat).length - k) := if_neg hk
    rw [hseen]
    obtain ⟨s, hs⟩ : ∃ s, (utf8Bytes c.toNat).length - k = s + 1 := ⟨(utf8Bytes c.toNat).length - k - 1, by omega⟩
    rw [hs] at hinp hstate hpow ⊢
    refine (returns_conts c.toNat hinp hstate (by rw [hcp hk, Nat.zero_add, Nat.one_mul]; exact hpow)).trans ?_
    rw [hcp hk, Nat.zero_mul, Nat.zero_add]

omit hsrc in
/-- A part of a character of UTF-8 is read, and its bits are gone when the call ends. -/
theorem returns_part {n : Nat} (hn : n ≠ 0) (hlt : k + n < (utf8Bytes c.toNat).length)
    (hinp : conv.inp = ((utf8Bytes c.toNat).drop k).take n)
    (hstate : conv.state = if k = 0 then 0 else (utf8Bytes c.toNat).length - k) (hcp : k ≠ 0 → conv.cp = 0) :
    ∃ cp, ∀ a, Returns .utf8 dst conv a ↔
      a = ⟨some conv.converted, none,
        { conv with inp := [], cp := cp, state := (utf8Bytes c.toNat).length - (k + n) }⟩ := by
  have hv := char_lt c
  by_cases hk : k = 0
  · subst hk
    have hlong : 0x80 ≤ c.toNat := by
      by_contra hshort
      rw [length_utf8Bytes, if_pos (Nat.not_le.1 hshort)] at hlt
      omega
    obtain ⟨b, s, hbytes, hs, hlead, -, -, hbound⟩ := utf8Bytes_lead hv hlong
    obtain ⟨n, rfl⟩ := Nat.exists_eq_succ_of_ne_zero hn
    rw [hbytes, List.length_cons, length_conts] at hlt ⊢
    rw [hbytes, List.drop_zero, List.take_succ_cons] at hinp
    rw [if_pos rfl] at hstate
    have hfrom : codepointFrom .utf8 conv.inp conv.cp conv.state = ⟨0, (conts c.toNat s).take n, c.toNat / 64 ^ s,
      s⟩ := by
      rw [hinp, hstate]
      exact hlead _ _
    have hcps : (c.toNat / 64 ^ s + 1) * 64 ^ s ≤ 2 ^ 26 := by
      have := Nat.div_mul_le_self c.toNat (64 ^ s)
      rw [Nat.add_mul, Nat.one_mul]
      omega
    obtain ⟨cp, hpart⟩ := returns_conts_part c.toNat (m := n) (c := { conv with inp := _, cp := _, state := _ })
      (show n < s by omega) rfl rfl hcps
    refine ⟨cp, fun a => ?_⟩
    rw [returns_more (by rw [hinp]; exact List.cons_ne_nil _ _) hfrom, hpart a]
    rw [show s + 1 - (0 + n.succ) = s - n by omega]
  · obtain ⟨hdrop, hpow⟩ := utf8Bytes_drop hv hk (by omega)
    rw [if_neg hk] at hstate
    rw [hdrop] at hinp
    obtain ⟨cp, hpart⟩ := returns_conts_part c.toNat (m := n) (show n < (utf8Bytes c.toNat).length - k by omega) hinp
      hstate
      (by rw [hcp hk, Nat.zero_add, Nat.one_mul]; exact hpow)
    refine ⟨cp, fun a => ?_⟩
    rw [hpart a, Nat.sub_sub]

/-- A part of a character of UTF-16 or UTF-32 stops the call for ever. -/
theorem returns_stuck (hutf8 : src ≠ .utf8) {n : Nat} (hn : n ≠ 0) (hlt : n < (encodeCp src c.toNat).length)
    (hinp : conv.inp = (encodeCp src c.toNat).take n) (a : Answer) : ¬Returns src dst conv a := by
  have hne : conv.inp ≠ [] := by
    rw [hinp, ← List.length_pos_iff, List.length_take]
    omega
  have hfrom : codepointFrom src conv.inp conv.cp conv.state = ⟨0, conv.inp, conv.cp, conv.state⟩ := by
    rw [hinp]
    cases src with
    | ascii => exact absurd rfl hsrc
    | utf8 => exact absurd rfl hutf8
    | utf16le => exact from_utf16_part (char_lt c) hlt _ _
    | utf32le => exact from_utf32_part (by rwa [encodeCp, length_le] at hlt) _ _
  rintro ⟨fuel, hrun⟩
  induction fuel with
  | zero => exact absurd hrun (by simp [iconvLoop])
  | succ fuel ih =>
    rw [iconvLoop, if_neg hne, hfrom] at hrun
    exact ih hrun

variable (dst conv) in
/-- The loop does what the call does by characters, and does not return where that does not. -/
theorem returns_convChars {cs : List Char} {n : Nat} (hpos : Pos src k cs)
    (hinp : conv.inp = ((encode src cs).drop k).take n) (hstate : conv.state = stateAt src k cs)
    (hcp : k ≠ 0 → conv.cp = 0) :
    (convChars src dst k cs n conv.room = none → ∀ a, ¬Returns src dst conv a) ∧
    ∀ r, convChars src dst k cs n conv.room = some r → ∃ a, Returns src dst conv a ∧ a.conv.out = conv.out ++ r.1 ∧
      a.conv.inp ++ ((encode src cs).drop k).drop n = (encode src r.2.2).drop r.2.1 ∧
      a.conv.state = stateAt src r.2.1 r.2.2 ∧ Pos src r.2.1 r.2.2 := by
  induction cs generalizing k n conv with
  | nil =>
    obtain rfl : k = 0 := by
      rcases hpos with h | ⟨-, c, rest, h, -⟩
      · exact h
      · exact absurd h (by simp)
    refine ⟨fun h => absurd h (by simp [convChars]), fun r hr => ?_⟩
    obtain rfl := Option.some.inj hr
    have hnil : conv.inp = [] := by
      rw [hinp]
      simp
    refine ⟨_, (returns_nil hnil).2 rfl, (List.append_nil _).symm, ?_, hstate, hpos⟩
    rw [hnil]
    simp
  | cons c cs ih =>
    have hlength := length_encodeCp_pos src c.toNat
    have hpos' : k = 0 ∨ (src = .utf8 ∧ k < (utf8Bytes c.toNat).length) := by
      rcases hpos with h | ⟨h, c', rest, heq, hk⟩
      · exact .inl h
      · obtain ⟨rfl, rfl⟩ := List.cons.inj heq
        exact .inr ⟨h, hk⟩
    have hk : k < (encodeCp src c.toNat).length := by
      rcases hpos' with rfl | ⟨rfl, h⟩
      · exact hlength
      · exact h
    have hrest := encode_drop src c cs (Nat.le_of_lt hk)
    have hdrop : ((encodeCp src c.toNat).drop k).length = (encodeCp src c.toNat).length - k := List.length_drop
    rw [convChars]
    by_cases hpart : n < (encodeCp src c.toNat).length - k
    · rw [hrest, List.take_append_of_le_length (by omega)] at hinp
      rw [if_pos hpart]
      by_cases hn : n = 0
      · -- nothing is read
        subst hn
        rw [if_pos (.inl rfl)]
        refine ⟨fun h => absurd h (by simp), fun r hr => ?_⟩
        obtain rfl := Option.some.inj hr
        refine ⟨_, (returns_nil (by rw [hinp, List.take_zero])).2 rfl, (List.append_nil _).symm, ?_, hstate, hpos⟩
        rw [hinp, List.take_zero]
        rfl
      · by_cases hutf8 : src = .utf8
        · -- a part of the character is read
          subst hutf8
          rw [if_pos (.inr rfl)]
          refine ⟨fun h => absurd h (by simp), fun r hr => ?_⟩
          obtain rfl := Option.some.inj hr
          have hlt : k + n < (utf8Bytes c.toNat).length := Nat.add_lt_of_lt_sub' hpart
          obtain ⟨cp, hreturns⟩ := returns_part hn hlt hinp hstate hcp
          refine ⟨_, (hreturns _).2 rfl, (List.append_nil _).symm, ?_, ?_, .inr ⟨rfl, c, cs, rfl, hlt⟩⟩
          · rw [List.nil_append, List.drop_drop]
          · rw [stateAt, if_neg (show ¬k + n = 0 by omega)]
            rfl
        · -- a part of the character stops the call
          obtain rfl := hpos'.resolve_right fun h => hutf8 h.1
          rw [if_neg (not_or.2 ⟨hn, hutf8⟩)]
          exact ⟨fun _ => returns_stuck hsrc hutf8 hn hpart hinp, fun r hr => absurd hr (by simp)⟩
    · have hinp' : conv.inp = (encodeCp src c.toNat).drop k ++
        (encode src cs).take (n - ((encodeCp src c.toNat).length - k)) := by
        rw [hinp, hrest, List.take_append, List.take_of_length_le (by omega), hdrop]
      have hdrop' : ((encode src (c :: cs)).drop k).drop n =
        (encode src cs).drop (n - ((encodeCp src c.toNat).length - k)) := by
        rw [hrest, List.drop_append, List.drop_eq_nil_of_le (by omega), hdrop, List.nil_append]
      have hseen : seen src k c < 0x110000 := Nat.lt_of_le_of_lt (seen_le src k c) (char_lt c)
      have hreturns : ∀ a, Returns src dst conv a ↔ _ := returns_char hsrc hpos' hinp' hstate hcp
      unfold Puts at hreturns
      rw [putCodepoint_eq (show Conv.cp { conv with inp := _, cp := seen src k c, state := 0 } < 0x110000 from hseen)]
        at hreturns
      dsimp only at hreturns
      rw [if_neg hpart, hdrop']
      by_cases hroom : conv.room < (encodeCp dst (seen src k c)).length
      · -- there is no room, and the character is dropped
        rw [if_pos hroom] at hreturns ⊢
        refine ⟨fun h => absurd h (by simp), fun r hr => ?_⟩
        obtain rfl := Option.some.inj hr
        refine ⟨_, (hreturns _).2 rfl, (List.append_nil _).symm, List.take_append_drop _ _, ?_, .inl rfl⟩
        cases cs <;> rfl
      · rw [if_neg hroom] at hreturns ⊢
        obtain ⟨hnone, hsome⟩ := @ih { conv with
          inp := (encode src cs).take (n - ((encodeCp src c.toNat).length - k))
          room := conv.room - (encodeCp dst (seen src k c)).length
          out := conv.out ++ encodeCp dst (seen src k c)
          cp := seen src k c
          state := 0
          converted := conv.converted + 1 }
          0 (n - ((encodeCp src c.toNat).length - k)) (.inl rfl) rfl (by cases cs <;> rfl) (fun h => absurd rfl h)
        constructor
        · intro h a ha
          exact hnone (Option.map_eq_none_iff.1 h) a ((hreturns a).1 ha)
        · intro r hr
          obtain ⟨r', hr', rfl⟩ := Option.map_eq_some_iff.1 hr
          obtain ⟨a, ha, hout, hleft, hst, hp⟩ := hsome r' hr'
          exact ⟨a, (hreturns a).2 ha, by rw [hout, List.append_assoc], hleft, hst, hp⟩

end Characters

/-! ### One call after another -/

/-- The calls, told by characters. -/
def callChars (src dst : Enc) : Nat → List Char → List (Nat × Nat) → Option (List UInt8 × Nat × List Char)
  | k, cs, [] => some ([], k, cs)
  | k, cs, (n, room) :: calls =>
    (convChars src dst k cs n room).bind fun r => (callChars src dst r.2.1 r.2.2 calls).map fun r' =>
      (r.1 ++ r'.1, r'.2)

theorem iconvCalls_mono {fuel : Nat} {h : Handle} {rest : List UInt8} {calls : List (Nat × Nat)}
    {r : List UInt8 × List UInt8} (hrun : iconvCalls fuel h rest calls = some r) (j : Nat) :
    iconvCalls (fuel + j) h rest calls = some r := by
  induction calls generalizing h rest r with
  | nil => exact hrun
  | cons call calls ih =>
    obtain ⟨n, room⟩ := call
    obtain ⟨a, ha, hmap⟩ := Option.bind_eq_some_iff.1 hrun
    obtain ⟨r', hr', rfl⟩ := Option.map_eq_some_iff.1 hmap
    have ha' : iconv (fuel + j) h (rest.take n) room = some a := iconvLoop_mono ha j
    rw [iconvCalls, ha', Option.bind_some, ih hr', Option.map_some]

theorem iconvCalls_unique {fuel fuel' : Nat} {h : Handle} {rest : List UInt8} {calls : List (Nat × Nat)}
    {r r' : List UInt8 × List UInt8} (hr : iconvCalls fuel h rest calls = some r)
    (hr' : iconvCalls fuel' h rest calls = some r') : r = r' := by
  have h₁ := iconvCalls_mono hr fuel'
  have h₂ := iconvCalls_mono hr' fuel
  rw [Nat.add_comm] at h₂
  exact Option.some.inj (h₁.symm.trans h₂)

/-- A call returns, and then the others do. -/
theorem iconvCalls_cons {h : Handle} {rest : List UInt8} {n room : Nat} {calls : List (Nat × Nat)}
    {r : List UInt8 × List UInt8} :
    (∃ fuel, iconvCalls fuel h rest ((n, room) :: calls) = some r) ↔
      ∃ a, Returns h.fromEnc h.toEnc ⟨rest.take n, room, [], 0, h.state, 0⟩ a ∧ ∃ r',
        (∃ fuel, iconvCalls fuel { h with state := a.conv.state } (a.conv.inp ++ rest.drop n) calls = some r') ∧
          r = (a.conv.out ++ r'.1, r'.2) := by
  constructor
  · rintro ⟨fuel, hrun⟩
    obtain ⟨a, ha, hmap⟩ := Option.bind_eq_some_iff.1 hrun
    obtain ⟨r', hr', rfl⟩ := Option.map_eq_some_iff.1 hmap
    exact ⟨a, ⟨fuel, ha⟩, r', ⟨fuel, hr'⟩, rfl⟩
  · rintro ⟨a, ⟨fuel, ha⟩, r', ⟨fuel', hr'⟩, rfl⟩
    have ha' : iconv (fuel + fuel') h (rest.take n) room = some a := iconvLoop_mono ha fuel'
    have hr'' := iconvCalls_mono hr' fuel
    rw [Nat.add_comm] at hr''
    exact ⟨fuel + fuel', by rw [iconvCalls, ha', Option.bind_some, hr'', Option.map_some]⟩

/-- The calls of the source are the calls by characters. -/
theorem iconvCalls_iff {src dst : Enc} (hsrc : src ≠ .ascii) {k : Nat} {cs : List Char} (hpos : Pos src k cs)
    {calls : List (Nat × Nat)} {r : List UInt8 × List UInt8} :
    (∃ fuel, iconvCalls fuel ⟨src, dst, stateAt src k cs⟩ ((encode src cs).drop k) calls = some r) ↔
      ∃ q, callChars src dst k cs calls = some q ∧ r = (q.1, (encode src q.2.2).drop q.2.1) ∧ Pos src q.2.1 q.2.2 := by
  induction calls generalizing k cs r with
  | nil =>
    constructor
    · rintro ⟨fuel, hrun⟩
      exact ⟨_, rfl, (Option.some.inj hrun).symm, hpos⟩
    · rintro ⟨q, hq, rfl, -⟩
      obtain rfl := Option.some.inj hq
      exact ⟨0, rfl⟩
  | cons call calls ih =>
    obtain ⟨n, room⟩ := call
    obtain ⟨hnone, hsome⟩ := returns_convChars dst hsrc ⟨((encode src cs).drop k).take n, room, [], 0,
      stateAt src k cs, 0⟩
      hpos rfl rfl fun _ => rfl
    dsimp only at hnone hsome
    rw [iconvCalls_cons, callChars]
    cases hconv : convChars src dst k cs n room with
    | none =>
      refine iff_of_false ?_ ?_
      · rintro ⟨a, ha, -⟩
        exact hnone hconv a ha
      · rintro ⟨q, hq, -⟩
        exact absurd hq (by simp)
    | some p =>
      obtain ⟨a, ha, hout, hleft, hstate, hp⟩ := hsome p hconv
      rw [Option.bind_some]
      rw [List.nil_append] at hout
      constructor
      · rintro ⟨b, hb, r', hr', rfl⟩
        obtain rfl := ha.unique hb
        rw [hleft, hstate] at hr'
        obtain ⟨q, hq, rfl, hqpos⟩ := (ih hp).1 hr'
        exact ⟨(p.1 ++ q.1, q.2), by rw [hq, Option.map_some], by rw [hout], hqpos⟩
      · rintro ⟨q, hq, rfl, hqpos⟩
        obtain ⟨q', hq', rfl⟩ := Option.map_eq_some_iff.1 hq
        refine ⟨a, ha, (q'.1, (encode src q'.2.2).drop q'.2.1), ?_, by rw [hout]⟩
        rw [hleft, hstate]
        exact (ih hp).2 ⟨q', hq', rfl, hqpos⟩

end JACLibc.Iconv
