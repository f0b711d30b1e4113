import JACLibc.Lib.Bytes
import JACLibc.Strings.Compare
import Mathlib.Data.List.GetD
import Mathlib.Data.List.TakeDrop

/-!
# Wide characters and UTF-8

`mbrtowc` and `wcrtomb` of `wchar.h` convert one character, `mbsrtowcs` and `wcsrtombs` a string, up to a number of
characters or bytes.  The conversion state is not used by any of them and is left out; the pointers are not NULL,
except that the destination of a string may be.  A source pointer is a number of characters (or bytes) from the start
of the string, and `none` where `*src` is set to NULL.

The encoding of a character is `String.utf8EncodeChar`; the two character functions are inverse to each other between
the scalar values and their encodings, and the strings follow.
-/

namespace JACLibc.Wchar

def MB_CUR_MAX : Nat := 4

/-- The answers of `mbrtowc`: `(size_t)-1`, `(size_t)-2`, or the number of bytes with the character stored. -/
inductive Mb
  | illegal
  | incomplete
  | done (wc : BitVec 32) (b : Nat)
  deriving DecidableEq

/-- `mbrtowc` on the bytes of a string before its NUL. -/
def mbrtowc (s : List UInt8) (n : Nat) : Mb :=
  let s0 := s.getD 0 0
  let s1 := s.getD 1 0
  let s2 := s.getD 2 0
  let s3 := s.getD 3 0
  if n = 0 then .incomplete
  else if s0 < 0x80 then .done (BitVec.ofNat 32 s0.toNat) (if s0 ≠ 0 then 1 else 0)
  else if s0 &&& 0xE0 = 0xC0 then
    let wc := (s0 &&& 0x1F).toNat <<< 6 ||| (s1 &&& 0x3F).toNat
    if n < 2 then .incomplete
    else if s1 &&& 0xC0 ≠ 0x80 then .illegal
    else if wc < 0x80 then .illegal
    else .done (BitVec.ofNat 32 wc) 2
  else if s0 &&& 0xF0 = 0xE0 then
    let wc := (s0 &&& 0x0F).toNat <<< 12 ||| (s1 &&& 0x3F).toNat <<< 6 ||| (s2 &&& 0x3F).toNat
    if n < 3 then .incomplete
    else if s1 &&& 0xC0 ≠ 0x80 ∨ s2 &&& 0xC0 ≠ 0x80 then .illegal
    else if wc < 0x800 ∨ (wc ≥ 0xD800 ∧ wc ≤ 0xDFFF) then .illegal
    else .done (BitVec.ofNat 32 wc) 3
  else if s0 &&& 0xF8 = 0xF0 then
    let wc := (s0 &&& 0x07).toNat <<< 18 ||| (s1 &&& 0x3F).toNat <<< 12 ||| (s2 &&& 0x3F).toNat <<<
      6 ||| (s3 &&& 0x3F).toNat
    if n < 4 then .incomplete
    else if s1 &&& 0xC0 ≠ 0x80 ∨ s2 &&& 0xC0 ≠ 0x80 ∨ s3 &&& 0xC0 ≠ 0x80 then .illegal
    else if wc < 0x10000 ∨ wc > 0x10FFFF then .illegal
    else .done (BitVec.ofNat 32 wc) 4
  else .illegal

/-- The low byte of a number. -/
def lowByte (x : BitVec 32) : UInt8 := UInt8.ofBitVec (x.setWidth 8)

/-- `wcrtomb`: the bytes stored, or nothing for `(size_t)-1`. -/
def wcrtomb (wc : BitVec 32) : Option (List UInt8) :=
  if wc.toInt > 0x10FFFF ∨ (wc.toInt ≥ 0xD800 ∧ wc.toInt ≤ 0xDFFF) then none
  else if wc.toInt < 0x80 then some [lowByte wc]
  else if wc.toInt < 0x800 then some [lowByte (0xC0#32 ||| wc >>> 6), lowByte (0x80#32 ||| (wc &&& 0x3F#32))]
  else if wc.toInt < 0x10000 then
    some [lowByte (0xE0#32 ||| wc >>> 12), lowByte (0x80#32 ||| (wc >>> 6 &&& 0x3F#32)),
      lowByte (0x80#32 ||| (wc &&& 0x3F#32))]
  else
    some [lowByte (0xF0#32 ||| wc >>> 18), lowByte (0x80#32 ||| (wc >>> 12 &&& 0x3F#32)),
      lowByte (0x80#32 ||| (wc >>> 6 &&& 0x3F#32)), lowByte (0x80#32 ||| (wc &&& 0x3F#32))]

/-- The values of `dst` from `i` on replaced by `xs`. -/
def store {α : Type*} (dst : List α) (i : Nat) (xs : List α) : List α := dst.take i ++ xs ++ dst.drop (i + xs.length)

/-- What a string function leaves: its answer (nothing for `(size_t)-1`), `*src` and the destination. -/
structure Answer (α : Type*) where
  ret : Option Nat
  src : Option Nat
  dst : Option (List α)
  deriving DecidableEq

section Strings

variable (len : Nat)

/-- The loop of `mbsrtowcs` with `i` characters stored and `k` bytes read, on the bytes that are left. -/
def mbsLoop : Nat → List UInt8 → Nat → Nat → Option (List (BitVec 32)) → Answer (BitVec 32)
  | 0, _, i, k, dst => ⟨some i, some k, dst⟩
  | fuel + 1, s, i, k, dst =>
    if i < len ∨ dst = none then
      if s = [] then ⟨some i, none, dst.map fun d => store d i [0]⟩
      else
        match mbrtowc s MB_CUR_MAX with
        | .illegal => ⟨none, some k, dst⟩
        | .incomplete => ⟨none, some k, dst⟩
        | .done wc b => mbsLoop fuel (s.drop b) (i + 1) (k + b) (dst.map fun d => store d i [wc])
    else ⟨some i, some k, dst⟩

/-- `mbsrtowcs`; every turn but the last reads a byte. -/
def mbsrtowcs (dst : Option (List (BitVec 32))) (s : CString) : Answer (BitVec 32) :=
  mbsLoop len (s.bytes.length + 1) s.bytes 0 0 dst

/-- `if (dst && i < len) dst[i] = '\0';` -/
def terminate (dst : Option (List UInt8)) (i : Nat) : Option (List UInt8) :=
  dst.map fun d => if i < len then store d i [0] else d

/-- The loop of `wcsrtombs` with `i` bytes stored and `k` characters read, on the characters that are left. -/
def wcsLoop : List (BitVec 32) → Nat → Nat → Option (List UInt8) → Answer UInt8
  | [], i, _, dst => ⟨some i, none, terminate len dst i⟩
  | wc :: s, i, k, dst =>
    match wcrtomb wc with
    | none => ⟨none, some k, dst⟩
    | some mb =>
      if dst.isSome ∧ i + mb.length > len then ⟨some i, some k, terminate len dst i⟩
      else wcsLoop s (i + mb.length) (k + 1) (dst.map fun d => store d i mb)

/-- `wcsrtombs` -/
def wcsrtombs (dst : Option (List UInt8)) (w : WString) : Answer UInt8 := wcsLoop len w.units 0 0 dst

end Strings

/-! ### Single characters -/

def IsScalar (wc : BitVec 32) : Prop := wc.toNat.isValidChar

/-- The encoding of a character. -/
def utf8 (wc : BitVec 32) : List UInt8 := String.utf8EncodeChar (Char.ofNat wc.toNat)

theorem utf8_eq {wc : BitVec 32} (h : IsScalar wc) :
    utf8 wc =
      if wc.toNat < 0x80 then [UInt8.ofNat wc.toNat]
      else if wc.toNat < 0x800 then [UInt8.ofNat (wc.toNat / 64 + 0xC0), UInt8.ofNat (wc.toNat % 64 + 0x80)]
      else if wc.toNat < 0x10000 then
        [UInt8.ofNat (wc.toNat / 4096 + 0xE0), UInt8.ofNat (wc.toNat / 64 % 64 + 0x80),
        UInt8.ofNat (wc.toNat % 64 + 0x80)]
      else
        [UInt8.ofNat (wc.toNat / 262144 + 0xF0), UInt8.ofNat (wc.toNat / 4096 % 64 + 0x80),
          UInt8.ofNat (wc.toNat / 64 % 64 + 0x80), UInt8.ofNat (wc.toNat % 64 + 0x80)] := by
  have hval : (Char.ofNat wc.toNat).val.toNat = wc.toNat := by
    rw [Char.ofNat, dif_pos (show wc.toNat.isValidChar from h)]
    rfl
  have hlt : wc.toNat < 0x110000 := by
    rcases h with h | h
    · omega
    · exact h.2
  unfold utf8 String.utf8EncodeChar
  rw [hval]
  by_cases h1 : wc.toNat < 0x80
  · rw [if_pos h1, if_pos (show wc.toNat ≤ 0x7f by omega)]
  · rw [if_neg h1, if_neg (show ¬wc.toNat ≤ 0x7f by omega)]
    by_cases h2 : wc.toNat < 0x800
    · rw [if_pos h2, if_pos (show wc.toNat ≤ 0x7ff by omega), Nat.mod_eq_of_lt (show wc.toNat / 64 < 0x20 by omega)]
    · rw [if_neg h2, if_neg (show ¬wc.toNat ≤ 0x7ff by omega)]
      by_cases h3 : wc.toNat < 0x10000
      · rw [if_pos h3, if_pos (show wc.toNat ≤ 0xffff by omega),
          Nat.mod_eq_of_lt (show wc.toNat / 4096 < 0x10 by omega)]
      · rw [if_neg h3, if_neg (show ¬wc.toNat ≤ 0xffff by omega),
          Nat.mod_eq_of_lt (show wc.toNat / 262144 < 8 by omega)]

/-- A byte that starts with the bits `lead` and carries the value `x`. -/
theorem lowByte_or {lead x : BitVec 32} {m : Nat} (hx : x.toNat < m)
    (hor : ∀ n : Fin m, lead.toNat ||| n.val = n.val + lead.toNat) :
    lowByte (lead ||| x) = UInt8.ofNat (x.toNat + lead.toNat) := by
  apply UInt8.toNat_inj.1
  have h : (lead ||| x).toNat = x.toNat + lead.toNat := by
    rw [BitVec.toNat_or]
    exact hor ⟨x.toNat, hx⟩
  rw [lowByte, UInt8.toNat_ofBitVec, BitVec.toNat_setWidth, h]
  simp

/-- `wcrtomb` stores the encoding of a scalar value. -/
theorem wcrtomb_scalar {wc : BitVec 32} (h : IsScalar wc) : wcrtomb wc = some (utf8 wc) := by
  have hlt : wc.toNat < 0x110000 := by
    rcases h with h | h
    · omega
    · exact h.2
  have hint : wc.toInt = wc.toNat := BitVec.toInt_eq_toNat_of_lt (by omega)
  have htail : ∀ x : BitVec 32, lowByte (0x80#32 ||| (x &&& 0x3F#32)) = UInt8.ofNat (x.toNat % 64 + 0x80) := by
    intro x
    have hx : (x &&& 0x3F#32).toNat = x.toNat % 64 := by
      rw [BitVec.toNat_and]
      exact Nat.and_two_pow_sub_one_eq_mod x.toNat 6
    rw [lowByte_or (m := 64) (by rw [hx]; exact Nat.mod_lt _ (by decide)) (by decide), hx]
    rfl
  have hshift : ∀ k, (wc >>> k).toNat = wc.toNat / 2 ^ k := fun k => by
    rw [BitVec.toNat_ushiftRight, Nat.shiftRight_eq_div_pow]
  have hrange : ¬(wc.toInt > 0x10FFFF ∨ (wc.toInt ≥ 0xD800 ∧ wc.toInt ≤ 0xDFFF)) := by
    rw [hint]
    rcases h with h | h <;> omega
  rw [wcrtomb, if_neg hrange, utf8_eq h, hint]
  by_cases h1 : wc.toNat < 0x80
  · rw [if_pos h1, if_pos (by omega)]
    congr 2
  · rw [if_neg h1, if_neg (by omega)]
    by_cases h2 : wc.toNat < 0x800
    · rw [if_pos h2, if_pos (by omega), htail, lowByte_or (m := 32) (by rw [hshift]; omega) (by decide), hshift]
      rfl
    · rw [if_neg h2, if_neg (by omega)]
      by_cases h3 : wc.toNat < 0x10000
      · rw [if_pos h3, if_pos (by omega), htail, htail, lowByte_or (m := 16) (by rw [hshift]; omega) (by decide),
          hshift, hshift]
        rfl
      · rw [if_neg h3, if_neg (by omega), htail, htail, htail,
          lowByte_or (m := 8) (by rw [hshift]; omega) (by decide), hshift, hshift, hshift]
        rfl

/-- The bytes that are `lead` under `mask` carry a value below `m` in their other bits. -/
theorem exists_form {mask lead : UInt8} {m : Nat}
    (hform : ∀ n : Fin 256, n.val.toUInt8 &&& mask = lead → lead.toNat ≤ n.val ∧ n.val - lead.toNat < m) {b : UInt8}
    (h : b &&& mask = lead) : ∃ v < m, b = UInt8.ofNat (v + lead.toNat) := by
  have hb : b.toNat.toUInt8 = b := by simp
  obtain ⟨hle, hlt⟩ := hform ⟨b.toNat, b.toNat_lt⟩ (by rw [hb]; exact h)
  refine ⟨b.toNat - lead.toNat, hlt, ?_⟩
  rw [Nat.sub_add_cancel hle]
  exact hb.symm

theorem tail_form {v : Nat} (hv : v < 64) :
    UInt8.ofNat (v + 0x80) &&& 0xC0 = 0x80 ∧ (UInt8.ofNat (v + 0x80) &&& 0x3F).toNat = v := by
  have key : ∀ v : Fin 64, UInt8.ofNat (v + 0x80) &&& 0xC0 = 0x80 ∧ (UInt8.ofNat (v + 0x80) &&& 0x3F).toNat = v := by
    decide
  exact key ⟨v, hv⟩

/-- Six bits of `lo` under the bits of `hi`. -/
theorem shift_or {hi lo : Nat} (hlo : lo < 64) : hi <<< 6 ||| lo = hi * 64 + lo := Bytes.shift_or hlo

section Decode

variable {a b c d : Nat} (s : List UInt8)

theorem mbrtowc_one (ha : a < 128) (h0 : a ≠ 0) :
    mbrtowc (UInt8.ofNat a :: s) MB_CUR_MAX = .done (BitVec.ofNat 32 a) 1 := by
  have key : ∀ a : Fin 128, UInt8.ofNat a < 0x80 ∧ (UInt8.ofNat a).toNat = a ∧ (a.val ≠ 0 → UInt8.ofNat a ≠ 0) := by
    decide
  obtain ⟨h1, h2, h3⟩ := key ⟨a, ha⟩
  simp only [mbrtowc, MB_CUR_MAX, List.getD_cons_zero]
  rw [if_neg (by decide), if_pos h1, h2, if_pos (h3 h0)]

theorem mbrtowc_two (ha : a < 32) (hb : b < 64) :
    mbrtowc (UInt8.ofNat (a + 0xC0) :: UInt8.ofNat (b + 0x80) :: s) MB_CUR_MAX =
      if a * 64 + b < 0x80 then .illegal else .done (BitVec.ofNat 32 (a * 64 + b)) 2 := by
  have key : ∀ a : Fin 32, ¬UInt8.ofNat (a + 0xC0) < 0x80 ∧ UInt8.ofNat (a + 0xC0) &&& 0xE0 = 0xC0 ∧
      (UInt8.ofNat (a + 0xC0) &&& 0x1F).toNat = a := by decide
  obtain ⟨h1, h2, h3⟩ := key ⟨a, ha⟩
  obtain ⟨h4, h5⟩ := tail_form hb
  simp only [mbrtowc, MB_CUR_MAX, List.getD_cons_zero, List.getD_cons_succ]
  rw [if_neg (by decide), if_neg h1, if_pos h2, if_neg (by decide), if_neg (not_not.2 h4), h3, h5, shift_or hb]

theorem mbrtowc_three (ha : a < 16) (hb : b < 64) (hc : c < 64) :
    mbrtowc (UInt8.ofNat (a + 0xE0) :: UInt8.ofNat (b + 0x80) :: UInt8.ofNat (c + 0x80) :: s) MB_CUR_MAX =
      if (a * 64 + b) * 64 + c < 0x800 ∨ ((a * 64 + b) * 64 + c ≥ 0xD800 ∧ (a * 64 + b) * 64 + c ≤ 0xDFFF) then .illegal
      else .done (BitVec.ofNat 32 ((a * 64 + b) * 64 + c)) 3 := by
  have key : ∀ a : Fin 16, ¬UInt8.ofNat (a + 0xE0) < 0x80 ∧ UInt8.ofNat (a + 0xE0) &&& 0xE0 ≠ 0xC0 ∧
      UInt8.ofNat (a + 0xE0) &&& 0xF0 = 0xE0 ∧ (UInt8.ofNat (a + 0xE0) &&& 0x0F).toNat = a := by decide
  obtain ⟨h1, h2, h3, h4⟩ := key ⟨a, ha⟩
  obtain ⟨hb1, hb2⟩ := tail_form hb
  obtain ⟨hc1, hc2⟩ := tail_form hc
  have hval : a <<< 12 ||| b <<< 6 ||| c = (a * 64 + b) * 64 + c := by
    have h : a <<< 12 ||| b <<< 6 = (a * 64 + b) <<< 6 := by
      rw [show 12 = 6 + 6 from rfl, Nat.shiftLeft_add, ← Nat.shiftLeft_or_distrib, shift_or hb]
    rw [h, shift_or hc]
  simp only [mbrtowc, MB_CUR_MAX, List.getD_cons_zero, List.getD_cons_succ]
  rw [if_neg (by decide), if_neg h1, if_neg h2, if_pos h3, if_neg (by decide), if_neg (by rw [hb1, hc1]; decide), h4,
    hb2, hc2, hval]

theorem mbrtowc_four (ha : a < 8) (hb : b < 64) (hc : c < 64) (hd : d < 64) :
    mbrtowc (UInt8.ofNat (a + 0xF0) :: UInt8.ofNat (b + 0x80) :: UInt8.ofNat (c + 0x80) :: UInt8.ofNat (d + 0x80) ::
    s) MB_CUR_MAX =
      if ((a * 64 + b) * 64 + c) * 64 + d < 0x10000 ∨ ((a * 64 + b) * 64 + c) * 64 + d > 0x10FFFF then .illegal
      else .done (BitVec.ofNat 32 (((a * 64 + b) * 64 + c) * 64 + d)) 4 := by
  have key : ∀ a : Fin 8, ¬UInt8.ofNat (a + 0xF0) < 0x80 ∧ UInt8.ofNat (a + 0xF0) &&& 0xE0 ≠ 0xC0 ∧
      UInt8.ofNat (a + 0xF0) &&& 0xF0 ≠ 0xE0 ∧ UInt8.ofNat (a + 0xF0) &&& 0xF8 = 0xF0 ∧
      (UInt8.ofNat (a + 0xF0) &&& 0x07).toNat = a := by decide
  obtain ⟨h1, h2, h3, h4, h5⟩ := key ⟨a, ha⟩
  obtain ⟨hb1, hb2⟩ := tail_form hb
  obtain ⟨hc1, hc2⟩ := tail_form hc
  obtain ⟨hd1, hd2⟩ := tail_form hd
  have hval : a <<< 18 ||| b <<< 12 ||| c <<< 6 ||| d = ((a * 64 + b) * 64 + c) * 64 + d := by
    have h : a <<< 18 ||| b <<< 12 = (a * 64 + b) <<< 12 := by
      rw [show 18 = 6 + 12 from rfl, Nat.shiftLeft_add, ← Nat.shiftLeft_or_distrib, shift_or hb]
    have h' : (a * 64 + b) <<< 12 ||| c <<< 6 = ((a * 64 + b) * 64 + c) <<< 6 := by
      rw [show 12 = 6 + 6 from rfl, Nat.shiftLeft_add, ← Nat.shiftLeft_or_distrib, shift_or hc]
    rw [h, h', shift_or hd]
  simp only [mbrtowc, MB_CUR_MAX, List.getD_cons_zero, List.getD_cons_succ]
  rw [if_neg (by decide), if_neg h1, if_neg h2, if_neg h3, if_pos h4, if_neg (by decide),
    if_neg (by rw [hb1, hc1, hd1]; decide), h5, hb2, hc2, hd2, hval]

end Decode

/-- `mbrtowc` reads back the encoding of a scalar value. -/
theorem mbrtowc_utf8 {wc : BitVec 32} (h : IsScalar wc) (h0 : wc ≠ 0) (s : List UInt8) :
    mbrtowc (utf8 wc ++ s) MB_CUR_MAX = .done wc (utf8 wc).length := by
  have hpos : wc.toNat ≠ 0 := fun hwc => h0 (BitVec.eq_of_toNat_eq hwc)
  have hself : ∀ n, n = wc.toNat → BitVec.ofNat 32 n = wc := fun n hn => by rw [hn]; simp
  have hlt : wc.toNat < 0x110000 ∧ ¬(wc.toNat ≥ 0xD800 ∧ wc.toNat ≤ 0xDFFF) := by
    rcases h with h | h <;> omega
  rw [utf8_eq h]
  by_cases h1 : wc.toNat < 0x80
  · rw [if_pos h1]
    simp only [List.cons_append, List.nil_append]
    rw [mbrtowc_one s h1 hpos, hself _ rfl]
    rfl
  · rw [if_neg h1]
    by_cases h2 : wc.toNat < 0x800
    · rw [if_pos h2]
      simp only [List.cons_append, List.nil_append]
      rw [mbrtowc_two s (by omega) (Nat.mod_lt _ (by decide)), if_neg (by omega), hself _ (by omega)]
      rfl
    · rw [if_neg h2]
      by_cases h3 : wc.toNat < 0x10000
      · rw [if_pos h3]
        simp only [List.cons_append, List.nil_append]
        rw [mbrtowc_three s (by omega) (Nat.mod_lt _ (by decide)) (Nat.mod_lt _ (by decide)), if_neg (by omega),
          hself _ (by omega)]
        rfl
      · rw [if_neg h3]
        simp only [List.cons_append, List.nil_append]
        rw [mbrtowc_four s (by omega) (Nat.mod_lt _ (by decide)) (Nat.mod_lt _ (by decide)) (Nat.mod_lt _ (by decide)),
          if_neg (by omega), hself _ (by omega)]
        rfl

/-- A byte with the form of a continuation is not the NUL. -/
theorem exists_tail {s : List UInt8} {k : Nat} (h : s.getD k 0 &&& 0xC0 = 0x80) :
    ∃ v < 64, s.drop k = UInt8.ofNat (v + 0x80) :: s.drop (k + 1) := by
  have hk : k < s.length := by
    by_contra hk
    rw [List.getD_eq_default _ _ (by omega)] at h
    revert h
    decide
  rw [List.getD_eq_getElem _ _ hk] at h
  obtain ⟨v, hv, hb⟩ := exists_form (m := 64) (by decide +kernel) h
  refine ⟨v, hv, ?_⟩
  rw [List.drop_eq_getElem_cons hk, hb]
  rfl

/-- The answer `wc`, `len` of `mbrtowc` is right where the bytes in front are `bs`. -/
structure Reads (bs : List UInt8) (wc : BitVec 32) (len : Nat) : Prop where
  scalar : IsScalar wc
  ne_zero : wc ≠ 0
  length : len = bs.length
  utf8 : utf8 wc = bs

section Inverse

variable {a b c d n len : Nat} {wc : BitVec 32} {bs s : List UInt8}

theorem Reads.of_value (hn : n.isValidChar) (h0 : n ≠ 0)
    (hu : IsScalar (BitVec.ofNat 32 n) → (BitVec.ofNat 32 n).toNat = n → Wchar.utf8 (BitVec.ofNat 32 n) = bs)
    (h : Mb.done (BitVec.ofNat 32 n) bs.length = .done wc len) : Reads bs wc len := by
  have hlt : n < 0x110000 := by
    rcases hn with h | h
    · omega
    · exact h.2
  have hval : (BitVec.ofNat 32 n).toNat = n := by
    rw [BitVec.toNat_ofNat, Nat.mod_eq_of_lt (by omega)]
  have hsc : IsScalar (BitVec.ofNat 32 n) := by
    rw [IsScalar, hval]
    exact hn
  obtain ⟨rfl, rfl⟩ := Mb.done.inj h
  refine ⟨hsc, ?_, rfl, hu hsc hval⟩
  intro hz
  rw [hz] at hval
  exact h0 hval.symm

theorem reads_one (ha : a < 128) (h0 : a ≠ 0) (h : mbrtowc (UInt8.ofNat a :: s) MB_CUR_MAX = .done wc len) :
    Reads [UInt8.ofNat a] wc len := by
  rw [mbrtowc_one s ha h0] at h
  refine .of_value (Or.inl (by omega)) h0 (fun hsc hval => ?_) h
  rw [utf8_eq hsc, hval, if_pos ha]

theorem reads_two (ha : a < 32) (hb : b < 64)
    (h : mbrtowc (UInt8.ofNat (a + 0xC0) :: UInt8.ofNat (b + 0x80) :: s) MB_CUR_MAX = .done wc len) :
    Reads [UInt8.ofNat (a + 0xC0), UInt8.ofNat (b + 0x80)] wc len := by
  rw [mbrtowc_two s ha hb] at h
  split at h
  · cases h
  · refine .of_value (Or.inl (by omega)) (by omega) (fun hsc hval => ?_) h
    rw [utf8_eq hsc, hval, if_neg (by omega), if_pos (by omega), show (a * 64 + b) / 64 = a by omega,
      show (a * 64 + b) % 64 = b by omega]

theorem reads_three (ha : a < 16) (hb : b < 64) (hc : c < 64)
    (h : mbrtowc (UInt8.ofNat (a + 0xE0) :: UInt8.ofNat (b + 0x80) :: UInt8.ofNat (c + 0x80) :: s) MB_CUR_MAX =
    .done wc len) :
    Reads [UInt8.ofNat (a + 0xE0), UInt8.ofNat (b + 0x80), UInt8.ofNat (c + 0x80)] wc len := by
  rw [mbrtowc_three s ha hb hc] at h
  split at h
  · cases h
  · refine .of_value (by unfold Nat.isValidChar; omega) (by omega) (fun hsc hval => ?_) h
    rw [utf8_eq hsc, hval, if_neg (by omega), if_neg (by omega), if_pos (by omega),
      show ((a * 64 + b) * 64 + c) / 4096 = a by omega,
      show ((a * 64 + b) * 64 + c) / 64 % 64 = b by omega, show ((a * 64 + b) * 64 + c) % 64 = c by omega]

theorem reads_four (ha : a < 8) (hb : b < 64) (hc : c < 64) (hd : d < 64)
    (h : mbrtowc (UInt8.ofNat (a + 0xF0) :: UInt8.ofNat (b + 0x80) :: UInt8.ofNat (c + 0x80) ::
    UInt8.ofNat (d + 0x80) :: s) MB_CUR_MAX =
      .done wc len) :
    Reads [UInt8.ofNat (a + 0xF0), UInt8.ofNat (b + 0x80), UInt8.ofNat (c + 0x80), UInt8.ofNat (d + 0x80)] wc len := by
  rw [mbrtowc_four s ha hb hc hd] at h
  split at h
  · cases h
  · refine .of_value (by unfold Nat.isValidChar; omega) (by omega) (fun hsc hval => ?_) h
    rw [utf8_eq hsc, hval, if_neg (by omega), if_neg (by omega), if_neg (by omega),
      show (((a * 64 + b) * 64 + c) * 64 + d) / 262144 = a by
        omega, show (((a * 64 + b) * 64 + c) * 64 + d) / 4096 % 64 = b by omega,
      show (((a * 64 + b) * 64 + c) * 64 + d) / 64 % 64 = c by
        omega, show (((a * 64 + b) * 64 + c) * 64 + d) % 64 = d by omega]

/-- What `mbrtowc` accepts is the encoding of a scalar value, but for a NUL in front. -/
theorem mbrtowc_cons_done {x : UInt8} {t : List UInt8} (h0 : x ≠ 0) (h : mbrtowc (x :: t) MB_CUR_MAX = .done wc len) :
    ∃ bs, Reads bs wc len ∧ bs <+: x :: t := by
  have h' := h
  simp only [mbrtowc, MB_CUR_MAX, List.getD_cons_zero, List.getD_cons_succ] at h'
  rw [if_neg (by decide)] at h'
  by_cases h1 : x < 0x80
  · have hx : x.toNat ≠ 0 := by
      intro hz
      exact h0 (UInt8.toNat_inj.1 hz)
    rw [show x = UInt8.ofNat x.toNat from UInt8.ofNat_toNat.symm] at h
    exact ⟨_, reads_one (UInt8.lt_iff_toNat_lt.1 h1) hx h, by simp⟩
  rw [if_neg h1] at h'
  by_cases h2 : x &&& 0xE0 = 0xC0
  · rw [if_pos h2, if_neg (by decide)] at h'
    split at h'
    · cases h'
    next ht =>
    obtain ⟨a, ha, rfl⟩ := exists_form (m := 32) (by decide +kernel) h2
    obtain ⟨b, hb, hbt⟩ := exists_tail (not_not.1 ht)
    rw [List.drop_zero] at hbt
    rw [hbt] at h ⊢
    exact ⟨_, reads_two ha hb h, List.prefix_append [_, _] _⟩
  rw [if_neg h2] at h'
  by_cases h3 : x &&& 0xF0 = 0xE0
  · rw [if_pos h3, if_neg (by decide)] at h'
    split at h'
    · cases h'
    next ht =>
    obtain ⟨ht1, ht2⟩ := not_or.1 ht
    obtain ⟨a, ha, rfl⟩ := exists_form (m := 16) (by decide +kernel) h3
    obtain ⟨b, hb, hbt⟩ := exists_tail (not_not.1 ht1)
    obtain ⟨c, hc, hct⟩ := exists_tail (not_not.1 ht2)
    rw [List.drop_zero, hct] at hbt
    rw [hbt] at h ⊢
    exact ⟨_, reads_three ha hb hc h, List.prefix_append [_, _, _] _⟩
  rw [if_neg h3] at h'
  by_cases h4 : x &&& 0xF8 = 0xF0
  · rw [if_pos h4, if_neg (by decide)] at h'
    split at h'
    · cases h'
    next ht =>
    obtain ⟨ht1, ht⟩ := not_or.1 ht
    obtain ⟨ht2, ht3⟩ := not_or.1 ht
    obtain ⟨a, ha, rfl⟩ := exists_form (m := 8) (by decide +kernel) h4
    obtain ⟨b, hb, hbt⟩ := exists_tail (not_not.1 ht1)
    obtain ⟨c, hc, hct⟩ := exists_tail (not_not.1 ht2)
    obtain ⟨d, hd, hdt⟩ := exists_tail (not_not.1 ht3)
    rw [List.drop_zero, hct, hdt] at hbt
    rw [hbt] at h ⊢
    exact ⟨_, reads_four ha hb hc hd h, List.prefix_append [_, _, _, _] _⟩
  rw [if_neg h4] at h'
  cases h'

/-- What `mbrtowc` accepts from a string is the encoding of a scalar value. -/
theorem mbrtowc_done (hs : s ≠ []) (h0 : 0 ∉ s) (h : mbrtowc s MB_CUR_MAX = .done wc len) :
    ∃ bs, Reads bs wc len ∧ bs <+: s := by
  obtain ⟨x, t, rfl⟩ := List.exists_cons_of_ne_nil hs
  have hx : x ≠ 0 := by
    rintro rfl
    exact h0 List.mem_cons_self
  exact mbrtowc_cons_done hx h

end Inverse

end JACLibc.Wchar
