import JACLibc.Wchar.IconvSplit

/-!
# One call of `iconv`

The loop of `iconv` asks the decoder again whenever it answers `0`.  The decoder of UTF-8 has then read a byte; those
of UTF-16 and UTF-32 have read nothing, since less than a character is left, and they never will.  So a call does not
return exactly where it comes to such a rest (`Stalls`): all that stands before it was read and written.  A text that
is whole in its encoding is converted to its end, so that one call there and one call back return it
(`iconv_round_trip`).
-/

namespace JACLibc.Iconv

open Bytes

/-- A code point that the decoder can read from units of two or four bytes. -/
def IsCode : Enc → Nat → Prop
  | .utf16le, v => v < 0x110000 ∧ ¬(0xD800 ≤ v ∧ v ≤ 0xDFFF)
  | .utf32le, v => v < 2 ^ 32
  | _, _ => False

/-- Less than a unit, or less than a surrogate pair behind a high surrogate. -/
def Truncated : Enc → List UInt8 → Prop
  | .utf16le, tail => tail.length = 1 ∨ ∃ b0 b1 rest, tail = b0 :: b1 :: rest ∧ rest.length < 2 ∧
  0xD800 ≤ unit b0 b1 ∧ unit b0 b1 ≤ 0xDBFF
  | .utf32le, tail => 0 < tail.length ∧ tail.length < 4
  | _, _ => False

/-- The bytes of a code point in the target, for which four are room enough. -/
def stored (dst : Enc) (v : Nat) : List UInt8 := (codepointTo dst 4 v).bytes

/-- The input is code points that can all be written, and a truncated rest. -/
def Stalls (src dst : Enc) (room : Nat) (inp : List UInt8) : Prop :=
  ∃ (vs : List Nat) (tail : List UInt8), inp = vs.flatMap (encodeCp src) ++ tail ∧
    (∀ v ∈ vs, IsCode src v ∧ (codepointTo dst 4 v).r = 1) ∧ Truncated src tail ∧
    (vs.map fun v => (stored dst v).length).sum ≤ room

/-! ### The target -/

/-- A code point has its bytes in the target, or it has none there; the room decides the rest. -/
theorem codepointTo_room (dst : Enc) (v : Nat) :
    ((codepointTo dst 4 v).r = 1 ∧ ∀ room, codepointTo dst room v = To.fit room (stored dst v)) ∨
      ((codepointTo dst 4 v).r ≠ 1 ∧ ∀ room, codepointTo dst room v = ⟨-1, []⟩) := by
  have hfit : ∀ bytes, bytes.length ≤ 4 → (∀ room, codepointTo dst room v = To.fit room bytes) →
      (codepointTo dst 4 v).r = 1 ∧ ∀ room, codepointTo dst room v = To.fit room (stored dst v) := by
    intro bytes hlen h
    have h4 : codepointTo dst 4 v = ⟨1, bytes⟩ := by rw [h, To.fit, if_neg (by omega)]
    unfold stored
    rw [h4]
    exact ⟨rfl, h⟩
  have hnone : (∀ room, codepointTo dst room v = ⟨-1, []⟩) →
      (codepointTo dst 4 v).r ≠ 1 ∧ ∀ room, codepointTo dst room v = ⟨-1, []⟩ := by
    intro h
    rw [h 4]
    exact ⟨by decide, h⟩
  cases dst with
  | ascii => exact .inl (hfit _ (by simp) fun room => rfl)
  | utf32le => exact .inl (hfit _ (by simp) fun room => rfl)
  | utf8 =>
    by_cases h1 : v ≤ 0x7F
    · exact .inl (hfit _ (by simp) fun room => if_pos h1)
    by_cases h2 : v ≤ 0x7FF
    · exact .inl (hfit _ (by simp) fun room => (if_neg h1).trans (if_pos h2))
    by_cases h3 : v ≤ 0xFFFF
    · exact .inl (hfit _ (by simp) fun room => (if_neg h1).trans ((if_neg h2).trans (if_pos h3)))
    by_cases h4 : v ≤ 0x10FFFF
    · exact .inl (hfit _ (by simp) fun room => (if_neg h1).trans ((if_neg h2).trans ((if_neg h3).trans (if_pos h4))))
    · exact .inr (hnone fun room => (if_neg h1).trans ((if_neg h2).trans ((if_neg h3).trans (if_neg h4))))
  | utf16le =>
    by_cases h1 : v ≥ 0x10000 ∧ v ≤ 0x10FFFF
    · exact .inl (hfit _ (by simp) fun room => if_pos h1)
    by_cases h2 : v > 0xFFFF
    · exact .inr (hnone fun room => (if_neg h1).trans (if_pos h2))
    · exact .inl (hfit _ (by simp) fun room => (if_neg h1).trans (if_neg h2))

/-! ### The source -/

section Source

variable {src : Enc} {v : Nat}

/-- A code point in front is read. -/
theorem from_code (hv : IsCode src v) (rest : List UInt8) (cp state : Nat) :
    codepointFrom src (encodeCp src v ++ rest) cp state = ⟨1, rest, v, state⟩ := by
  cases src with
  | ascii => exact hv.elim
  | utf8 => exact hv.elim
  | utf16le => exact from_utf16 hv.1 hv.2 cp state rest
  | utf32le => exact from_utf32 hv cp state rest

/-- A truncated rest is not read. -/
theorem from_truncated {tail : List UInt8} (h : Truncated src tail) (cp state : Nat) :
    codepointFrom src tail cp state = ⟨0, tail, cp, state⟩ := by
  cases src with
  | ascii => exact h.elim
  | utf8 => exact h.elim
  | utf16le =>
    rcases h with h | ⟨b0, b1, rest, rfl, hrest, hlow, hhigh⟩
    · obtain ⟨b, rfl⟩ := List.length_eq_one_iff.1 h
      rfl
    · change fromUtf16le (b0 :: b1 :: rest) cp state = _
      unfold fromUtf16le
      dsimp only
      rw [if_pos ⟨hlow, hhigh⟩]
      match rest, hrest with
      | [], _ => rfl
      | [_], _ => rfl
  | utf32le =>
    match tail, h with
    | [_], _ => rfl
    | [_, _], _ => rfl
    | [_, _, _], _ => rfl
    | _ :: _ :: _ :: _ :: _, h => exact absurd h.2 (by simp)

/-- What stands in front is a code point, a truncated rest or not valid. -/
theorem units_cases (hsrc : src = .utf16le ∨ src = .utf32le) {inp : List UInt8} (hne : inp ≠ []) :
    (∃ v rest, IsCode src v ∧ inp = encodeCp src v ++ rest) ∨ Truncated src inp ∨
      ∀ cp state, codepointFrom src inp cp state = ⟨-1, inp, cp, state⟩ := by
  rcases hsrc with rfl | rfl
  · rcases inp with _ | ⟨b0, _ | ⟨b1, rest⟩⟩
    · exact absurd rfl hne
    · exact .inr (.inl (.inl rfl))
    · have hunit : unit b0 b1 < 0x10000 := by
        rw [unit_eq]
        have := b0.toNat_lt
        have := b1.toNat_lt
        omega
      have hbytes : le 2 (unit b0 b1) = [b0, b1] := by
        have h := le_ofLe [b0, b1]
        rw [show ofLe [b0, b1] = unit b0 b1 by rw [unit_eq]; rfl] at h
        exact h
      by_cases hhigh : 0xD800 ≤ unit b0 b1 ∧ unit b0 b1 ≤ 0xDBFF
      · rcases rest with _ | ⟨b2, _ | ⟨b3, rest⟩⟩
        · exact .inr (.inl (.inr ⟨b0, b1, [], rfl, by decide, hhigh⟩))
        · exact .inr (.inl (.inr ⟨b0, b1, [b2], rfl, Nat.one_lt_two, hhigh⟩))
        · have hbytes' : le 2 (unit b2 b3) = [b2, b3] := by
            have h := le_ofLe [b2, b3]
            rw [show ofLe [b2, b3] = unit b2 b3 by rw [unit_eq]; rfl] at h
            exact h
          by_cases hlow : unit b2 b3 < 0xDC00 ∨ unit b2 b3 > 0xDFFF
          · refine .inr (.inr fun cp state => ?_)
            change fromUtf16le (b0 :: b1 :: b2 :: b3 :: rest) cp state = _
            unfold fromUtf16le
            dsimp only
            rw [if_pos hhigh, if_pos hlow]
          · refine .inl ⟨0x10000 + (unit b0 b1 - 0xD800) * 1024 + (unit b2 b3 - 0xDC00), rest, ⟨by omega, by omega⟩, ?_⟩
            have hfirst : 0xD800 + (0x10000 + (unit b0 b1 - 0xD800) * 1024 + (unit b2 b3 - 0xDC00) - 0x10000) / 1024 =
              unit b0 b1 := by omega
            have hsecond : 0xDC00 + (0x10000 + (unit b0 b1 - 0xD800) * 1024 + (unit b2 b3 - 0xDC00) - 0x10000) %
              1024 = unit b2 b3 := by omega
            rw [encodeCp, utf16Bytes, if_neg (by omega), hfirst, hsecond, hbytes, hbytes']
            rfl
      · by_cases hlow : 0xDC00 ≤ unit b0 b1 ∧ unit b0 b1 ≤ 0xDFFF
        · refine .inr (.inr fun cp state => ?_)
          change fromUtf16le (b0 :: b1 :: rest) cp state = _
          unfold fromUtf16le
          dsimp only
          rw [if_neg hhigh, if_pos hlow]
        · refine .inl ⟨unit b0 b1, rest, ⟨by omega, by omega⟩, ?_⟩
          rw [encodeCp, utf16Bytes, if_pos hunit, hbytes]
          rfl
  · rcases inp with _ | ⟨b0, _ | ⟨b1, _ | ⟨b2, _ | ⟨b3, rest⟩⟩⟩⟩
    · exact absurd rfl hne
    · exact .inr (.inl ⟨by simp, by simp⟩)
    · exact .inr (.inl ⟨by simp, by simp⟩)
    · exact .inr (.inl ⟨by simp, by simp⟩)
    · have hlt := ofLe_lt [b0, b1, b2, b3]
      rw [show [b0, b1, b2, b3].length = 4 from rfl, show 256 ^ 4 = 2 ^ 32 by decide] at hlt
      refine .inl ⟨ofLe [b0, b1, b2, b3], rest, hlt, ?_⟩
      rw [encodeCp, show (4 : Nat) = [b0, b1, b2, b3].length from rfl, le_ofLe]
      rfl

end Source

/-! ### Stalling -/

section Stalls

variable {src dst : Enc} {room : Nat} {inp : List UInt8}

theorem truncated_ne_nil (h : Truncated src inp) : inp ≠ [] := by
  rintro rfl
  cases src with
  | ascii => exact h
  | utf8 => exact h
  | utf16le =>
    rcases h with h | ⟨b0, b1, rest, h, -⟩
    · exact absurd h (by decide)
    · cases h
  | utf32le => exact absurd h.1 (by decide)

theorem not_stalls_nil : ¬Stalls src dst room [] := by
  rintro ⟨vs, tail, hinp, -, htail, -⟩
  exact truncated_ne_nil htail (List.append_eq_nil_iff.1 hinp.symm).2

theorem stalls_truncated (h : Truncated src inp) : Stalls src dst room inp := ⟨[], inp, rfl, by simp, h, Nat.zero_le _⟩

/-- What is not valid is no code point and no truncated rest. -/
theorem not_stalls_illegal (h : ∀ cp state, codepointFrom src inp cp state = ⟨-1, inp, cp, state⟩) :
    ¬Stalls src dst room inp := by
  rintro ⟨vs, tail, rfl, hvs, htail, -⟩
  cases vs with
  | nil =>
    have := from_truncated htail 0 0
    rw [List.flatMap_nil, List.nil_append] at h
    rw [h] at this
    exact absurd (congrArg From.r this) (show ¬(-1 : Int) = 0 by decide)
  | cons v vs =>
    have := from_code (hvs v List.mem_cons_self).1 (vs.flatMap (encodeCp src) ++ tail) 0 0
    rw [← List.append_assoc, ← List.flatMap_cons, h] at this
    exact absurd (congrArg From.r this) (show ¬(-1 : Int) = 1 by decide)

/-- A code point in front is one of those that were written. -/
theorem stalls_code {v : Nat} (hv : IsCode src v) {rest : List UInt8} :
    Stalls src dst room (encodeCp src v ++ rest) ↔
      (codepointTo dst 4 v).r = 1 ∧ (stored dst v).length ≤ room ∧
      Stalls src dst (room - (stored dst v).length) rest := by
  constructor
  · rintro ⟨vs, tail, hinp, hvs, htail, hsum⟩
    have hread := from_code hv rest 0 0
    cases vs with
    | nil =>
      rw [List.flatMap_nil, List.nil_append] at hinp
      rw [hinp, from_truncated htail] at hread
      exact absurd (congrArg From.r hread) (show ¬(0 : Int) = 1 by decide)
    | cons w vs =>
      obtain ⟨hw, hwr⟩ := hvs w List.mem_cons_self
      rw [List.flatMap_cons, List.append_assoc] at hinp
      rw [hinp, from_code hw] at hread
      obtain rfl : w = v := congrArg From.cp hread
      obtain rfl : vs.flatMap (encodeCp src) ++ tail = rest := congrArg From.inp hread
      rw [List.map_cons, List.sum_cons] at hsum
      exact ⟨hwr, by omega, vs, tail, rfl, fun x hx => hvs x (List.mem_cons_of_mem w hx), htail, by omega⟩
  · rintro ⟨hr, hle, vs, tail, rfl, hvs, htail, hsum⟩
    refine ⟨v :: vs, tail, ?_, ?_, htail, ?_⟩
    · rw [List.flatMap_cons, List.append_assoc]
    · intro x hx
      rcases List.mem_cons.1 hx with rfl | hx
      · exact ⟨hv, hr⟩
      · exact hvs x hx
    · rw [List.map_cons, List.sum_cons]
      omega

end Stalls

/-! ### The loop -/

section Ends

variable {src dst : Enc}

/-- A turn in which the input is not valid. -/
theorem returns_illegal {c : Conv} (hne : c.inp ≠ []) {inp : List UInt8} {cp state : Nat}
    (hfrom : codepointFrom src c.inp c.cp c.state = ⟨-1, inp, cp, state⟩) : ∃ a, Returns src dst c a := by
  refine ⟨⟨none, some .EILSEQ, { c with inp := inp, cp := cp, state := state }⟩, 1, ?_⟩
  rw [iconvLoop, if_neg hne, hfrom]
  rfl

/-- What becomes of a code point that was read. -/
theorem returns_put {c : Conv} : (∃ a, Puts src dst c a) ↔
    ((codepointTo dst 4 c.cp).r = 1 → (stored dst c.cp).length ≤ c.room →
      ∃ a, Returns src dst { c with
        room := c.room - (stored dst c.cp).length, out := c.out ++ stored dst c.cp, converted :=
  c.converted + 1 } a) := by
  unfold Puts putCodepoint
  rcases codepointTo_room dst c.cp with ⟨hr, hto⟩ | ⟨hr, hto⟩
  · rw [hto, To.fit]
    by_cases hroom : c.room < (stored dst c.cp).length
    · rw [if_pos hroom]
      exact ⟨fun _ _ hle => absurd hroom (Nat.not_lt.2 hle), fun _ => ⟨_, rfl⟩⟩
    · rw [if_neg hroom]
      exact ⟨fun h _ _ => h, fun h => h hr (Nat.not_lt.1 hroom)⟩
  · rw [hto]
    exact ⟨fun _ h => absurd h hr, fun _ => ⟨_, rfl⟩⟩

/-- A decoder that takes a byte in every turn. -/
theorem from_byte (hsrc : src = .ascii ∨ src = .utf8) (b : UInt8) (rest : List UInt8) (cp state : Nat) :
    ∃ cp' state', codepointFrom src (b :: rest) cp state = ⟨0, rest, cp', state'⟩ ∨
      codepointFrom src (b :: rest) cp state = ⟨1, rest, cp', state'⟩ ∨
      ∃ inp, codepointFrom src (b :: rest) cp state = ⟨-1, inp, cp', state'⟩ := by
  rcases hsrc with rfl | rfl
  · exact ⟨_, _, .inr (.inl rfl)⟩
  · change ∃ cp' state', fromUtf8 (b :: rest) cp state = _ ∨ fromUtf8 (b :: rest) cp state = _ ∨
      ∃ inp, fromUtf8 (b :: rest) cp state = _
    unfold fromUtf8
    dsimp only
    split
    · split
      · exact ⟨_, _, .inr (.inr ⟨_, rfl⟩)⟩
      · split
        · exact ⟨_, _, .inr (.inl rfl)⟩
        · exact ⟨_, _, .inl rfl⟩
    split
    · exact ⟨_, _, .inr (.inl rfl)⟩
    split
    · exact ⟨_, _, .inl rfl⟩
    split
    · exact ⟨_, _, .inl rfl⟩
    split
    · exact ⟨_, _, .inl rfl⟩
    · exact ⟨_, _, .inr (.inr ⟨_, rfl⟩)⟩

/-- From ASCII and UTF-8 every call returns. -/
theorem returns_bytes (hsrc : src = .ascii ∨ src = .utf8) {n : Nat} {c : Conv} (hn : c.inp.length = n) :
    ∃ a, Returns src dst c a := by
  induction n generalizing c with
  | zero => exact ⟨_, (returns_nil (List.length_eq_zero_iff.1 hn)).2 rfl⟩
  | succ n ih =>
    obtain ⟨b, rest, hinp⟩ := List.exists_cons_of_length_eq_add_one hn
    have hlen : rest.length = n := by simpa [hinp] using hn
    have hne : c.inp ≠ [] := by simp [hinp]
    obtain ⟨cp, state, hfrom⟩ := from_byte hsrc b rest c.cp c.state
    rw [← hinp] at hfrom
    rcases hfrom with hfrom | hfrom | ⟨inp, hfrom⟩
    · obtain ⟨a, ha⟩ := @ih { c with inp := rest, cp := cp, state := state } hlen
      exact ⟨a, (returns_more hne hfrom).2 ha⟩
    · have hput := (@returns_put src dst { c with inp := rest, cp := cp, state := state }).2 fun _ _ => ih hlen
      obtain ⟨a, ha⟩ := hput
      exact ⟨a, (returns_one hne hfrom).2 ha⟩
    · exact returns_illegal hne hfrom

/-- A turn that reads nothing is followed by the same turn. -/
theorem not_returns_truncated {c : Conv} (h : Truncated src c.inp) (a : Answer) : ¬Returns src dst c a := by
  have hfrom := from_truncated h c.cp c.state
  rintro ⟨fuel, hrun⟩
  induction fuel with
  | zero => exact absurd hrun (by simp [iconvLoop])
  | succ fuel ih =>
    rw [iconvLoop, if_neg (truncated_ne_nil h), hfrom] at hrun
    exact ih hrun

/-- From UTF-16 and UTF-32 a call returns if it does not stall. -/
theorem returns_units (hsrc : src = .utf16le ∨ src = .utf32le) {n : Nat} {c : Conv} (hn : c.inp.length ≤ n) :
    (∃ a, Returns src dst c a) ↔ ¬Stalls src dst c.room c.inp := by
  induction n generalizing c with
  | zero =>
    have hnil := List.length_eq_zero_iff.1 (Nat.le_zero.1 hn)
    rw [hnil]
    exact ⟨fun _ => not_stalls_nil, fun _ => ⟨_, (returns_nil hnil).2 rfl⟩⟩
  | succ n ih =>
    by_cases hnil : c.inp = []
    · rw [hnil]
      exact ⟨fun _ => not_stalls_nil, fun _ => ⟨_, (returns_nil hnil).2 rfl⟩⟩
    rcases units_cases hsrc hnil with ⟨v, rest, hv, hinp⟩ | htruncated | hillegal
    · have hfrom := from_code hv rest c.cp c.state
      rw [← hinp] at hfrom
      have hlen : rest.length ≤ n := by
        have := length_encodeCp_pos src v
        rw [hinp, List.length_append] at hn
        omega
      have hone : (∃ a, Returns src dst c a) ↔ ∃ a, Puts src dst { c with inp := rest, cp := v, state := c.state } a :=
        exists_congr fun a => returns_one hnil hfrom
      have hnext := @ih { c with
        inp := rest, cp := v, state := c.state, room := c.room - (stored dst v).length, out := c.out ++ stored dst v,
        converted := c.converted + 1 } hlen
      rw [hone, returns_put, hinp, stalls_code hv, not_and, not_and]
      exact forall_congr' fun _ => forall_congr' fun _ => hnext
    · exact ⟨fun ⟨a, ha⟩ => absurd ha (not_returns_truncated htruncated a),
        fun h => absurd (stalls_truncated htruncated) h⟩
    · exact ⟨fun _ => not_stalls_illegal hillegal, fun _ => returns_illegal hnil (hillegal _ _)⟩

end Ends

/-- A call of `iconv` returns exactly if it does not stall. -/
theorem iconv_ends (h : Handle) (inp : List UInt8) (room : Nat) :
    (∃ fuel a, iconv fuel h inp room = some a) ↔ ¬Stalls h.fromEnc h.toEnc room inp := by
  have hswap : (∃ fuel a, iconv fuel h inp room = some a) ↔
    ∃ a, Returns h.fromEnc h.toEnc ⟨inp, room, [], 0, h.state, 0⟩ a := exists_comm
  rw [hswap]
  have hnever : h.fromEnc = .ascii ∨ h.fromEnc = .utf8 → ¬Stalls h.fromEnc h.toEnc room inp := by
    rintro henc ⟨vs, tail, -, -, htail, -⟩
    rcases henc with henc | henc
    · rw [henc] at htail
      exact htail
    · rw [henc] at htail
      exact htail
  by_cases henc : h.fromEnc = .ascii ∨ h.fromEnc = .utf8
  · exact ⟨fun _ => hnever henc, fun _ => returns_bytes henc rfl⟩
  · refine returns_units ?_ (Nat.le_refl _)
    cases hfrom : h.fromEnc with
    | ascii => exact absurd (.inl hfrom) henc
    | utf8 => exact absurd (.inr hfrom) henc
    | utf16le => exact .inl rfl
    | utf32le => exact .inr rfl

/-- Half a unit of UTF-16 keeps the call for ever. -/
theorem iconv_half_unit : ¬∃ fuel a, iconv fuel ⟨.utf16le, .utf8, 0⟩ [0x61] 4 = some a := by
  rintro ⟨fuel, a, h⟩
  have htruncated : Truncated .utf16le [0x61] := .inl rfl
  exact @not_returns_truncated .utf16le .utf8 ⟨[0x61], 4, [], 0, 0, 0⟩ htruncated a ⟨fuel, h⟩

/-! ### There and back -/

/-- A call converts a text to its end, if there is room for it. -/
theorem returns_text {src dst : Enc} (hsrc : src ≠ .ascii) {cs : List Char} {c : Conv} (hinp : c.inp = encode src cs)
    (hstate : c.state = 0) (hroom : (encode dst cs).length ≤ c.room) :
    ∃ a, Returns src dst c a ∧ a.ret = some (c.converted + cs.length) ∧ a.err = none ∧ a.conv.inp = [] ∧
      a.conv.out = c.out ++ encode dst cs := by
  induction cs generalizing c with
  | nil =>
    refine ⟨_, (returns_nil hinp).2 rfl, rfl, rfl, hinp, ?_⟩
    rw [encode_nil, List.append_nil]
  | cons x cs ih =>
    rw [encode_cons, List.length_append] at hroom
    have hread : ∀ a, Returns src dst c a ↔
      Puts src dst { c with inp := encode src cs, cp := seen src 0 x, state := 0 } a := by
      intro a
      refine returns_char hsrc (.inl rfl) ?_ hstate (fun h => absurd rfl h) a
      rw [hinp, encode_cons, List.drop_zero]
    have hseen : seen src 0 x = x.toNat := if_pos rfl
    rw [hseen] at hread
    unfold Puts at hread
    rw [putCodepoint_eq (show Conv.cp { c with inp := encode src cs, cp := x.toNat, state := 0 } <
      0x110000 from char_lt x)] at hread
    dsimp only at hread
    rw [if_neg (by omega)] at hread
    obtain ⟨a, ha, hret, herr, hleft, hout⟩ := @ih { c with
      inp := encode src cs, cp := x.toNat, state := 0, room := c.room - (encodeCp dst x.toNat).length,
      out := c.out ++ encodeCp dst x.toNat, converted := c.converted + 1 } rfl rfl (by dsimp only; omega)
    refine ⟨a, (hread a).2 ha, ?_, herr, hleft, ?_⟩
    · rw [hret, List.length_cons, Nat.add_assoc, Nat.add_comm 1]
    · rw [hout, encode_cons, List.append_assoc]

/-- A text converted to another encoding and back with a call for each way is the text again; both calls read all of
their input and answer the number of characters. -/
theorem iconv_round_trip {src mid : Enc} (hsrc : src ≠ .ascii) (hmid : mid ≠ .ascii) (cs : List Char) {room room' : Nat}
    (hroom : (encode mid cs).length ≤ room) (hroom' : (encode src cs).length ≤ room') :
    ∃ fuel fuel' a b, iconv fuel ⟨src, mid, 0⟩ (encode src cs) room = some a ∧
    iconv fuel' ⟨mid, src, 0⟩ a.conv.out room' = some b ∧
      b.conv.out = encode src cs ∧ a.conv.inp = [] ∧ b.conv.inp = [] ∧ a.ret = some cs.length ∧
      b.ret = some cs.length := by
  obtain ⟨a, ⟨fuel, ha⟩, hret, -, hleft, hout⟩ :=
    @returns_text src mid hsrc cs ⟨encode src cs, room, [], 0, 0, 0⟩ rfl rfl hroom
  obtain ⟨b, ⟨fuel', hb⟩, hret', -, hleft', hout'⟩ :=
    @returns_text mid src hmid cs ⟨encode mid cs, room', [], 0, 0, 0⟩ rfl rfl hroom'
  rw [Nat.zero_add] at hret hret'
  rw [List.nil_append] at hout hout'
  refine ⟨fuel, fuel', a, b, ha, ?_, hout', hleft, hleft', hret, hret'⟩
  rw [hout]
  exact hb

theorem iconv_round_trip_two : ∃ fuel fuel' a b, iconv fuel ⟨.utf8, .utf16le, 0⟩ (encode .utf8 ['é', '😀']) 8 = some a ∧
    iconv fuel' ⟨.utf16le, .utf8, 0⟩ a.conv.out 8 = some b ∧ b.conv.out = encode .utf8 ['é', '😀'] ∧ a.conv.inp = [] ∧
    b.conv.inp = [] ∧ a.ret = some ['é', '😀'].length ∧ b.ret = some ['é', '😀'].length :=
  iconv_round_trip (by decide) (by decide) ['é', '😀'] (by decide) (by decide)

end JACLibc.Iconv
