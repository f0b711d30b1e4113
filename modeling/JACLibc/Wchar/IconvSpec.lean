import JACLibc.Wchar.Iconv

/-!
# The encodings

The bytes of a code point in each encoding (`encodeCp`), of which those of UTF-8 are the ones of the standard
(`utf8Bytes_char`). `__iconv_codepoint_to` stores them (`codepointTo_eq`) and `__iconv_codepoint_from` reads them
back.  A smaller code point never has more bytes, and no two code points have the same.
-/

namespace JACLibc.Iconv

open Bytes

/-- The byte of UTF-8 that carries the low six bits. -/
def cont (v : Nat) : UInt8 := UInt8.ofNat (v % 64 + 0x80)

/-- The last `s` bytes of a character. -/
def conts (v : Nat) : Nat → List UInt8
  | 0 => []
  | s + 1 => cont (v / 64 ^ s) :: conts v s

def utf8Bytes (v : Nat) : List UInt8 :=
  if v < 0x80 then [UInt8.ofNat v]
  else if v < 0x800 then UInt8.ofNat (v / 64 + 0xC0) :: conts v 1
  else if v < 0x10000 then UInt8.ofNat (v / 4096 + 0xE0) :: conts v 2
  else UInt8.ofNat (v / 262144 + 0xF0) :: conts v 3

def utf16Bytes (v : Nat) : List UInt8 :=
  if v < 0x10000 then le 2 v else le 2 (0xD800 + (v - 0x10000) / 1024) ++ le 2 (0xDC00 + (v - 0x10000) % 1024)

/-- The bytes of a code point. -/
def encodeCp : Enc → Nat → List UInt8
  | .ascii, v => [v.toUInt8]
  | .utf8, v => utf8Bytes v
  | .utf16le, v => utf16Bytes v
  | .utf32le, v => le 4 v

/-- The bytes of a text. -/
def encode (enc : Enc) (cs : List Char) : List UInt8 := cs.flatMap fun c => encodeCp enc c.toNat

@[simp] theorem encode_nil (enc : Enc) : encode enc [] = [] := rfl

theorem encode_cons (enc : Enc) (c : Char) (cs : List Char) :
    encode enc (c :: cs) = encodeCp enc c.toNat ++ encode enc cs := rfl

theorem encode_append (enc : Enc) (cs ds : List Char) : encode enc (cs ++ ds) = encode enc cs ++ encode enc ds :=
  List.flatMap_append

@[simp] theorem length_conts (v s : Nat) : (conts v s).length = s := by
  induction s with
  | zero => rfl
  | succ s ih => rw [conts, List.length_cons, ih]

theorem char_lt (c : Char) : c.toNat < 0x110000 := by
  rcases c.valid with h | h
  · exact Nat.lt_trans h (by decide)
  · exact h.2

theorem char_not_surrogate (c : Char) : ¬(0xD800 ≤ c.toNat ∧ c.toNat ≤ 0xDFFF) := by
  rcases c.valid with h | h
  · exact fun h' => absurd (show c.toNat < 0xD800 from h) (by omega)
  · exact fun h' => absurd (show 0xDFFF < c.toNat from h.1) (by omega)

theorem utf8Bytes_char (c : Char) : utf8Bytes c.toNat = String.utf8EncodeChar c := by
  have hlt := char_lt c
  have hval : c.val.toNat = c.toNat := rfl
  unfold utf8Bytes String.utf8EncodeChar
  rw [hval]
  by_cases h1 : c.toNat < 0x80
  · rw [if_pos h1, if_pos (show c.toNat ≤ 0x7f by omega)]
  · rw [if_neg h1, if_neg (show ¬c.toNat ≤ 0x7f by omega)]
    by_cases h2 : c.toNat < 0x800
    · rw [if_pos h2, if_pos (show c.toNat ≤ 0x7ff by omega), Nat.mod_eq_of_lt (show c.toNat / 64 < 0x20 by omega)]
      simp [conts, cont]
    · rw [if_neg h2, if_neg (show ¬c.toNat ≤ 0x7ff by omega)]
      by_cases h3 : c.toNat < 0x10000
      · rw [if_pos h3, if_pos (show c.toNat ≤ 0xffff by omega), Nat.mod_eq_of_lt (show c.toNat / 4096 < 0x10 by omega)]
        simp [conts, cont]
      · rw [if_neg h3, if_neg (show ¬c.toNat ≤ 0xffff by omega), Nat.mod_eq_of_lt (show c.toNat / 262144 < 8 by omega)]
        simp [conts, cont]

/-! ### Writing -/

theorem toUInt8_or {n lead m : Nat} (hn : n < m) (hor : ∀ x : Fin m, lead ||| x.val = x.val + lead) :
    (lead ||| n).toUInt8 = UInt8.ofNat (n + lead) := by
  rw [hor ⟨n, hn⟩]

theorem toUInt8_cont (n : Nat) : (0x80 ||| (n &&& 0x3F)).toUInt8 = cont n := by
  rw [show n &&& 0x3F = n % 64 from Nat.and_two_pow_sub_one_eq_mod n 6,
    toUInt8_or (Nat.mod_lt _ (by decide)) (by decide)]
  rfl

theorem to_utf8 (outlen : Nat) {v : Nat} (hv : v < 0x110000) :
    codepointTo .utf8 outlen v = To.fit outlen (utf8Bytes v) := by
  unfold codepointTo utf8Bytes
  dsimp only
  by_cases h1 : v < 0x80
  · rw [if_pos h1, if_pos (by omega)]
  · rw [if_neg h1, if_neg (by omega)]
    by_cases h2 : v < 0x800
    · rw [if_pos h2, if_pos (by omega), toUInt8_cont, Nat.shiftRight_eq_div_pow,
        toUInt8_or (m := 32) (by omega) (by decide)]
      simp [conts]
    · rw [if_neg h2, if_neg (by omega)]
      by_cases h3 : v < 0x10000
      · rw [if_pos h3, if_pos (by omega), toUInt8_cont, toUInt8_cont, Nat.shiftRight_eq_div_pow,
          Nat.shiftRight_eq_div_pow, toUInt8_or (m := 16) (by omega) (by decide)]
        simp [conts]
      · rw [if_neg h3, if_neg (by omega), if_pos (by omega), toUInt8_cont, toUInt8_cont, toUInt8_cont,
          Nat.shiftRight_eq_div_pow, Nat.shiftRight_eq_div_pow, Nat.shiftRight_eq_div_pow,
          toUInt8_or (m := 8) (by omega) (by decide)]
        simp [conts]

theorem low_byte (n : Nat) : (n &&& 0xFF).toUInt8 = n.toUInt8 := by
  rw [show n &&& 0xFF = n % 256 from Nat.and_two_pow_sub_one_eq_mod n 8]
  apply UInt8.toNat_inj.1
  rw [toNat_toUInt8, toNat_toUInt8, Nat.mod_mod]

theorem to_utf16 (outlen : Nat) {v : Nat} (hv : v < 0x110000) :
    codepointTo .utf16le outlen v = To.fit outlen (utf16Bytes v) := by
  unfold codepointTo utf16Bytes
  dsimp only
  by_cases h : v < 0x10000
  · rw [if_neg (by omega), if_neg (by omega), if_pos h, low_byte, Nat.shiftRight_eq_div_pow]
    rfl
  · have hhi : 0xD800 ||| (v - 0x10000) >>> 10 = 0xD800 + (v - 0x10000) / 1024 := by
      rw [Nat.shiftRight_eq_div_pow]
      exact (shift_or (show (v - 0x10000) / 2 ^ 10 < 2 ^ 10 by omega) : 0x36 <<< 10 ||| (v - 0x10000) / 2 ^ 10 = _)
    have hlo : 0xDC00 ||| ((v - 0x10000) &&& 0x3FF) = 0xDC00 + (v - 0x10000) % 1024 := by
      rw [show (v - 0x10000) &&& 0x3FF = (v - 0x10000) % 1024 from Nat.and_two_pow_sub_one_eq_mod _ 10]
      exact (shift_or (show (v - 0x10000) % 1024 < 2 ^ 10 by omega) : 0x37 <<< 10 ||| (v - 0x10000) % 1024 = _)
    rw [if_pos (by omega), if_neg h, hhi, hlo, low_byte, low_byte, Nat.shiftRight_eq_div_pow, Nat.shiftRight_eq_div_pow]
    rfl

theorem to_utf32 (outlen v : Nat) : codepointTo .utf32le outlen v = To.fit outlen (le 4 v) := by
  unfold codepointTo
  dsimp only
  rw [low_byte, low_byte, low_byte, low_byte, Nat.shiftRight_eq_div_pow, Nat.shiftRight_eq_div_pow,
    Nat.shiftRight_eq_div_pow]
  simp [le, Nat.div_div_eq_div_mul]

/-- What is stored are the bytes of the code point, if they fit. -/
theorem codepointTo_eq (enc : Enc) (outlen : Nat) {v : Nat} (hv : v < 0x110000) :
    codepointTo enc outlen v = To.fit outlen (encodeCp enc v) := by
  cases enc with
  | ascii => rfl
  | utf8 => exact to_utf8 outlen hv
  | utf16le => exact to_utf16 outlen hv
  | utf32le => exact to_utf32 outlen v

/-! ### Lengths -/

theorem length_utf8Bytes (v : Nat) :
    (utf8Bytes v).length = if v < 0x80 then 1 else if v < 0x800 then 2 else if v < 0x10000 then 3 else 4 := by
  unfold utf8Bytes
  split
  · rfl
  · split
    · rfl
    · split <;> rfl

theorem length_utf16Bytes (v : Nat) : (utf16Bytes v).length = if v < 0x10000 then 2 else 4 := by
  unfold utf16Bytes
  split <;> rfl

theorem length_encodeCp_pos (enc : Enc) (v : Nat) : 0 < (encodeCp enc v).length := by
  cases enc with
  | ascii => exact Nat.one_pos
  | utf8 =>
    rw [encodeCp, length_utf8Bytes]
    split
    · decide
    · split
      · decide
      · split <;> decide
  | utf16le =>
    rw [encodeCp, length_utf16Bytes]
    split <;> decide
  | utf32le =>
    rw [encodeCp, length_le]
    decide

/-- A smaller code point has no more bytes. -/
theorem length_encodeCp_mono (enc : Enc) {v w : Nat} (h : v ≤ w) :
    (encodeCp enc v).length ≤ (encodeCp enc w).length := by
  cases enc with
  | ascii => exact Nat.le_refl _
  | utf8 =>
    simp only [encodeCp, length_utf8Bytes]
    split_ifs <;> omega
  | utf16le =>
    simp only [encodeCp, length_utf16Bytes]
    split_ifs <;> omega
  | utf32le => simp only [encodeCp, length_le, Nat.le_refl]

/-! ### Different code points have different bytes -/

theorem toNat_ofNat_lt {n : Nat} (h : n < 256) : (UInt8.ofNat n).toNat = n := by
  rw [UInt8.toNat_ofNat', Nat.mod_eq_of_lt h]

theorem ofNat_inj {m n : Nat} (hm : m < 256) (hn : n < 256) (h : UInt8.ofNat m = UInt8.ofNat n) : m = n := by
  have := congrArg UInt8.toNat h
  rwa [toNat_ofNat_lt hm, toNat_ofNat_lt hn] at this

theorem conts_inj {v w s : Nat} (h : conts v s = conts w s) : v % 64 ^ s = w % 64 ^ s := by
  induction s with
  | zero => rw [Nat.pow_zero, Nat.mod_one, Nat.mod_one]
  | succ s ih =>
    obtain ⟨hbyte, hrest⟩ := List.cons.inj h
    have hdigit := ofNat_inj (by omega) (by omega) hbyte
    rw [Nat.mod_pow_succ, Nat.mod_pow_succ, ih hrest, Nat.add_right_cancel hdigit]

/-- The first byte and those behind it make up the code point. -/
theorem lead_conts_inj {v w s lead : Nat} (hv : v / 64 ^ s + lead < 256) (hw : w / 64 ^ s + lead < 256)
    (h : UInt8.ofNat (v / 64 ^ s + lead) :: conts v s = UInt8.ofNat (w / 64 ^ s + lead) :: conts w s) : v = w := by
  obtain ⟨hbyte, hrest⟩ := List.cons.inj h
  have hhigh := Nat.add_right_cancel (ofNat_inj hv hw hbyte)
  calc v = 64 ^ s * (v / 64 ^ s) + v % 64 ^ s := (Nat.div_add_mod v _).symm
    _ = 64 ^ s * (w / 64 ^ s) + w % 64 ^ s := by rw [hhigh, conts_inj hrest]
    _ = w := Nat.div_add_mod w _

theorem utf8Bytes_inj {v w : Nat} (hv : v < 0x110000) (hw : w < 0x110000) (h : utf8Bytes v = utf8Bytes w) : v = w := by
  have hlen := congrArg List.length h
  rw [length_utf8Bytes, length_utf8Bytes] at hlen
  unfold utf8Bytes at h
  by_cases h1 : v < 0x80
  · have hw1 : w < 0x80 := by
      rw [if_pos h1] at hlen
      split_ifs at hlen <;> omega
    rw [if_pos h1, if_pos hw1] at h
    exact ofNat_inj (by omega) (by omega) (List.cons.inj h).1
  · by_cases h2 : v < 0x800
    · have hw2 : ¬w < 0x80 ∧ w < 0x800 := by
        rw [if_neg h1, if_pos h2] at hlen
        split_ifs at hlen <;> omega
      rw [if_neg h1, if_pos h2, if_neg hw2.1, if_pos hw2.2] at h
      exact lead_conts_inj (s := 1) (by omega) (by omega) h
    · by_cases h3 : v < 0x10000
      · have hw3 : ¬w < 0x80 ∧ ¬w < 0x800 ∧ w < 0x10000 := by
          rw [if_neg h1, if_neg h2, if_pos h3] at hlen
          split_ifs at hlen <;> omega
        rw [if_neg h1, if_neg h2, if_pos h3, if_neg hw3.1, if_neg hw3.2.1, if_pos hw3.2.2] at h
        exact lead_conts_inj (s := 2) (by omega) (by omega) h
      · have hw4 : ¬w < 0x80 ∧ ¬w < 0x800 ∧ ¬w < 0x10000 := by
          rw [if_neg h1, if_neg h2, if_neg h3] at hlen
          split_ifs at hlen <;> omega
        rw [if_neg h1, if_neg h2, if_neg h3, if_neg hw4.1, if_neg hw4.2.1, if_neg hw4.2.2] at h
        exact lead_conts_inj (s := 3) (by omega) (by omega) h

theorem utf16Bytes_inj {v w : Nat} (hv : v < 0x110000) (hw : w < 0x110000) (h : utf16Bytes v = utf16Bytes w) :
    v = w := by
  have hlen := congrArg List.length h
  rw [length_utf16Bytes, length_utf16Bytes] at hlen
  unfold utf16Bytes at h
  by_cases h1 : v < 0x10000
  · have hw1 : w < 0x10000 := by
      rw [if_pos h1] at hlen
      split_ifs at hlen <;> omega
    rw [if_pos h1, if_pos hw1] at h
    exact le_inj (by omega) (by omega) h
  · have hw1 : ¬w < 0x10000 := by
      rw [if_neg h1] at hlen
      split_ifs at hlen <;> omega
    rw [if_neg h1, if_neg hw1] at h
    obtain ⟨hhi, hlo⟩ := List.append_inj h (by rw [length_le, length_le])
    have := le_inj (by omega) (by omega) hhi
    have := le_inj (by omega) (by omega) hlo
    omega

theorem encodeCp_inj {enc : Enc} (henc : enc ≠ .ascii) {v w : Nat} (hv : v < 0x110000) (hw : w < 0x110000)
    (h : encodeCp enc v = encodeCp enc w) : v = w := by
  cases enc with
  | ascii => exact absurd rfl henc
  | utf8 => exact utf8Bytes_inj hv hw h
  | utf16le => exact utf16Bytes_inj hv hw h
  | utf32le => exact le_inj (by omega) (by omega) h

/-! ### Reading -/

theorem from_utf8 (b : UInt8) (rest : List UInt8) (cp state : Nat) :
    codepointFrom .utf8 (b :: rest) cp state = fromUtf8 (b :: rest) cp state := rfl

/-- A byte of a character behind its first one adds six bits, and ends it if it is the last. -/
theorem from_cont {cp : Nat} (hcp : cp * 64 < 2 ^ 32) (v s : Nat) (rest : List UInt8) :
    codepointFrom .utf8 (cont v :: rest) cp (s + 1) = ⟨if s = 0 then 1 else 0, rest, cp * 64 + v % 64, s⟩ := by
  have hbyte : ∀ x : Fin 64, ¬(UInt8.ofNat (x.val + 0x80) &&& 0xC0 ≠ 0x80) ∧
    (UInt8.ofNat (x.val + 0x80) &&& 0x3F).toNat = x.val := by
    decide
  obtain ⟨hlead, hbits⟩ := hbyte ⟨v % 64, Nat.mod_lt _ (by decide)⟩
  have hshift : (cp <<< 6) % 2 ^ 32 ||| v % 64 = cp * 64 + v % 64 := by
    rw [Nat.shiftLeft_eq, Nat.mod_eq_of_lt hcp]
    have hor : cp <<< 6 ||| v % 64 = cp * 64 + v % 64 := shift_or (Nat.mod_lt _ (by decide))
    rwa [Nat.shiftLeft_eq] at hor
  rw [from_utf8, fromUtf8, if_pos (Nat.succ_ne_zero s)]
  dsimp only at hlead hbits
  rw [cont, if_neg hlead, hbits, hshift, Nat.add_sub_cancel]

/-- The first byte of a character of several bytes: how many are to come, and the high bits. -/
theorem utf8Bytes_lead {v : Nat} (hv : v < 0x110000) (hlong : 0x80 ≤ v) : ∃ b s, utf8Bytes v = b :: conts v s ∧ 0 < s ∧
    (∀ cp rest, codepointFrom .utf8 (b :: rest) cp 0 = ⟨0, rest, v / 64 ^ s, s⟩) ∧
    (b = 0xE0 ∨ b = 0xF0 ↔ v / 64 ^ s = 0) ∧ (∀ j, 0 < j → j < s → 64 ^ j ≤ v) ∧ v + 64 ^ s ≤ 2 ^ 26 := by
  have htwo : ∀ x : Fin 32, ¬UInt8.ofNat (x.val + 0xC0) ≤ 0x7F ∧ UInt8.ofNat (x.val + 0xC0) &&& 0xE0 = 0xC0 ∧
      (UInt8.ofNat (x.val + 0xC0) &&& 0x1F).toNat = x.val ∧ UInt8.ofNat (x.val + 0xC0) ≠ 0xE0 ∧
      UInt8.ofNat (x.val + 0xC0) ≠ 0xF0 := by
    decide
  have hthree : ∀ x : Fin 16, ¬UInt8.ofNat (x.val + 0xE0) ≤ 0x7F ∧ UInt8.ofNat (x.val + 0xE0) &&& 0xE0 ≠ 0xC0 ∧
      UInt8.ofNat (x.val + 0xE0) &&& 0xF0 = 0xE0 ∧ (UInt8.ofNat (x.val + 0xE0) &&& 0x0F).toNat = x.val ∧
      (UInt8.ofNat (x.val + 0xE0) = 0xE0 ∨ UInt8.ofNat (x.val + 0xE0) = 0xF0 ↔ x.val = 0) := by
    decide
  have hfour : ∀ x : Fin 8, ¬UInt8.ofNat (x.val + 0xF0) ≤ 0x7F ∧ UInt8.ofNat (x.val + 0xF0) &&& 0xE0 ≠ 0xC0 ∧
      UInt8.ofNat (x.val + 0xF0) &&& 0xF0 ≠ 0xE0 ∧ UInt8.ofNat (x.val + 0xF0) &&& 0xF8 = 0xF0 ∧
      (UInt8.ofNat (x.val + 0xF0) &&& 0x07).toNat = x.val ∧
      (UInt8.ofNat (x.val + 0xF0) = 0xE0 ∨ UInt8.ofNat (x.val + 0xF0) = 0xF0 ↔ x.val = 0) := by
    decide
  unfold utf8Bytes
  rw [if_neg (Nat.not_lt.2 hlong)]
  by_cases h2 : v < 0x800
  · obtain ⟨h7, hC, hbits, hE, hF⟩ := htwo ⟨v / 64, by omega⟩
    refine ⟨_, 1, if_pos h2, by decide, fun cp rest => ?_, ?_, fun j h0 h1 => by omega, by omega⟩
    · rw [from_utf8, fromUtf8, if_neg (by decide), if_neg h7, if_pos hC, hbits, Nat.pow_one]
    · exact iff_of_false (not_or.2 ⟨hE, hF⟩) (by omega)
  · rw [if_neg h2]
    by_cases h3 : v < 0x10000
    · obtain ⟨h7, hC, hE, hbits, hzero⟩ := hthree ⟨v / 4096, by omega⟩
      refine ⟨_, 2, if_pos h3, by decide, fun cp rest => ?_, hzero, fun j h0 h1 => ?_, by omega⟩
      · rw [from_utf8, fromUtf8, if_neg (by decide), if_neg h7, if_neg hC, if_pos hE, hbits]
        rfl
      · obtain rfl : j = 1 := by omega
        omega
    · obtain ⟨h7, hC, hE, hF, hbits, hzero⟩ := hfour ⟨v / 262144, by omega⟩
      refine ⟨_, 3, if_neg h3, by decide, fun cp rest => ?_, hzero, fun j h0 h1 => ?_, by omega⟩
      · rw [from_utf8, fromUtf8, if_neg (by decide), if_neg h7, if_neg hC, if_neg hE, if_pos hF, hbits]
        rfl
      · rcases (show j = 1 ∨ j = 2 by omega) with rfl | rfl <;> omega

theorem from_utf8_short {v : Nat} (hv : v < 0x80) (cp : Nat) (rest : List UInt8) :
    codepointFrom .utf8 (utf8Bytes v ++ rest) cp 0 = ⟨1, rest, v, 0⟩ := by
  have hbyte : ∀ x : Fin 128, UInt8.ofNat x.val ≤ 0x7F ∧ (UInt8.ofNat x.val).toNat = x.val := by decide
  obtain ⟨h7, hbits⟩ := hbyte ⟨v, hv⟩
  rw [utf8Bytes, if_pos hv, List.singleton_append, from_utf8, fromUtf8, if_neg (by decide), if_pos h7, hbits]

theorem unit_eq (b0 b1 : UInt8) : unit b0 b1 = b0.toNat + 256 * b1.toNat := by
  have hb0 : b0.toNat < 2 ^ 8 := b0.toNat_lt
  rw [unit, Nat.or_comm, shift_or hb0]
  omega

/-- The unit that two bytes of UTF-16 make. -/
theorem le_two {n : Nat} (hn : n < 0x10000) : ∃ b0 b1, le 2 n = [b0, b1] ∧ unit b0 b1 = n := by
  refine ⟨_, _, rfl, ?_⟩
  rw [unit_eq, toNat_toUInt8, toNat_toUInt8]
  omega

theorem from_utf16 {v : Nat} (hv : v < 0x110000) (hscalar : ¬(0xD800 ≤ v ∧ v ≤ 0xDFFF)) (cp state : Nat)
    (rest : List UInt8) :
    codepointFrom .utf16le (utf16Bytes v ++ rest) cp state = ⟨1, rest, v, state⟩ := by
  unfold utf16Bytes
  by_cases h : v < 0x10000
  · obtain ⟨b0, b1, hbytes, hunit⟩ := le_two h
    rw [if_pos h, hbytes]
    change fromUtf16le (b0 :: b1 :: rest) cp state = _
    simp only [fromUtf16le, hunit]
    rw [if_neg (by omega), if_neg (by omega)]
  · obtain ⟨b0, b1, hhi, hu⟩ := le_two (n := 0xD800 + (v - 0x10000) / 1024) (by omega)
    obtain ⟨b2, b3, hlo, hl⟩ := le_two (n := 0xDC00 + (v - 0x10000) % 1024) (by omega)
    have hsum : 0x10000 + (0xD800 + (v - 0x10000) / 1024 - 0xD800) * 2 ^ 10 +
      (0xDC00 + (v - 0x10000) % 1024 - 0xDC00) = v := by omega
    rw [if_neg h, hhi, hlo]
    change fromUtf16le (b0 :: b1 :: b2 :: b3 :: rest) cp state = _
    simp only [fromUtf16le, hu, hl]
    rw [if_pos (by omega), if_neg (by omega), Nat.shiftLeft_eq, hsum]

/-- A part of a character of UTF-16 stays where it is. -/
theorem from_utf16_part {v m : Nat} (hv : v < 0x110000) (hm : m < (utf16Bytes v).length) (cp state : Nat) :
    codepointFrom .utf16le ((utf16Bytes v).take m) cp state = ⟨0, (utf16Bytes v).take m, cp, state⟩ := by
  rw [length_utf16Bytes] at hm
  unfold utf16Bytes
  by_cases h : v < 0x10000
  · rw [if_pos h] at hm ⊢
    rcases (show m = 0 ∨ m = 1 by omega) with rfl | rfl <;> rfl
  · obtain ⟨b0, b1, hhi, hu⟩ := le_two (n := 0xD800 + (v - 0x10000) / 1024) (by omega)
    obtain ⟨b2, b3, hlo, -⟩ := le_two (n := 0xDC00 + (v - 0x10000) % 1024) (by omega)
    rw [if_neg h] at hm ⊢
    rw [hhi, hlo]
    have hsurrogate : unit b0 b1 ≥ 0xD800 ∧ unit b0 b1 ≤ 0xDBFF := by omega
    rcases (show m = 0 ∨ m = 1 ∨ m = 2 ∨ m = 3 by omega) with rfl | rfl | rfl | rfl
    · rfl
    · rfl
    · exact if_pos hsurrogate
    · exact if_pos hsurrogate

theorem from_utf32 {v : Nat} (hv : v < 2 ^ 32) (cp state : Nat) (rest : List UInt8) :
    codepointFrom .utf32le (le 4 v ++ rest) cp state = ⟨1, rest, v, state⟩ := by
  have hbits : unit v.toUInt8 (v / 256).toUInt8 ||| (v / 256 / 256).toUInt8.toNat <<<
    16 ||| (v / 256 / 256 / 256).toUInt8.toNat <<< 24 = v := by
    have hlow : unit v.toUInt8 (v / 256).toUInt8 = v % 2 ^ 16 := by
      rw [unit_eq, toNat_toUInt8, toNat_toUInt8]
      omega
    have hmid : (v / 256 / 256).toUInt8.toNat <<< 16 ||| v % 2 ^ 16 = v % 2 ^ 24 := by
      rw [shift_or (Nat.mod_lt _ (by decide)), toNat_toUInt8]
      omega
    have hhigh : (v / 256 / 256 / 256).toUInt8.toNat <<< 24 ||| v % 2 ^ 24 = v := by
      rw [shift_or (Nat.mod_lt _ (by decide)), toNat_toUInt8]
      omega
    rw [hlow, Nat.or_comm (v % 2 ^ 16), hmid, Nat.or_comm (v % 2 ^ 24), hhigh]
  change (⟨1, rest, _, state⟩ : From) = _
  congr 1

theorem from_utf32_part {v m : Nat} (hm : m < 4) (cp state : Nat) :
    codepointFrom .utf32le ((le 4 v).take m) cp state = ⟨0, (le 4 v).take m, cp, state⟩ := by
  rcases (show m = 0 ∨ m = 1 ∨ m = 2 ∨ m = 3 by omega) with rfl | rfl | rfl | rfl <;> rfl

end JACLibc.Iconv
