import JACLibc.Wchar.RoundTrip

/-!
# Measuring without converting

`mbrlen`, `mbrtowc` without a destination, `mbstowcs` and `mbsrtowcs` without a destination.  `mbrlen` looks at the
bits of the first two bytes where `mbrtowc` looks at the value, and the two agree (`mbrlen_eq`).  Without a
destination `mbrtowc` has no value to look at, and takes what has the form of a character for one (`size_eq`);
`mbstowcs` then counts the forms.
-/

namespace JACLibc.Wchar

/-! ### The functions -/

/-- What a function that measures one character answers: `(size_t)-1`, `(size_t)-2` or a number of bytes. -/
inductive Size
  | illegal
  | incomplete
  | bytes (n : Nat)
  deriving DecidableEq

/-- The answer of `mbrtowc` without the character. -/
def Mb.size : Mb → Size
  | .illegal => .illegal
  | .incomplete => .incomplete
  | .done _ b => .bytes b

/-- `mbrtowc` where `pwc` is NULL, which is `mblen` too. -/
def mbrtowcNull (s : List UInt8) (n : Nat) : Size :=
  let s0 := s.getD 0 0
  let s1 := s.getD 1 0
  let s2 := s.getD 2 0
  let s3 := s.getD 3 0
  if n = 0 then .incomplete
  else if s0 < 0x80 then .bytes (if s0 ≠ 0 then 1 else 0)
  else if s0 &&& 0xE0 = 0xC0 then
    if n < 2 then .incomplete
    else if s1 &&& 0xC0 ≠ 0x80 then .illegal
    else .bytes 2
  else if s0 &&& 0xF0 = 0xE0 then
    if n < 3 then .incomplete
    else if s1 &&& 0xC0 ≠ 0x80 ∨ s2 &&& 0xC0 ≠ 0x80 then .illegal
    else .bytes 3
  else if s0 &&& 0xF8 = 0xF0 then
    if n < 4 then .incomplete
    else if s1 &&& 0xC0 ≠ 0x80 ∨ s2 &&& 0xC0 ≠ 0x80 ∨ s3 &&& 0xC0 ≠ 0x80 then .illegal
    else .bytes 4
  else .illegal

/-- `mbrlen` -/
def mbrlen (s : List UInt8) (n : Nat) : Size :=
  let s0 := s.getD 0 0
  let s1 := s.getD 1 0
  let s2 := s.getD 2 0
  let s3 := s.getD 3 0
  if n = 0 then .incomplete
  else if s0 < 0x80 then .bytes (if s0 ≠ 0 then 1 else 0)
  else if s0 &&& 0xE0 = 0xC0 then
    if n < 2 then .incomplete
    else if s1 &&& 0xC0 ≠ 0x80 then .illegal
    else if s0 &&& 0x1E = 0 then .illegal
    else .bytes 2
  else if s0 &&& 0xF0 = 0xE0 then
    if n < 3 then .incomplete
    else if s1 &&& 0xC0 ≠ 0x80 ∨ s2 &&& 0xC0 ≠ 0x80 then .illegal
    else if s0 = 0xE0 ∧ s1 &&& 0x20 = 0 then .illegal
    else if s0 = 0xED ∧ s1 &&& 0x20 ≠ 0 then .illegal
    else .bytes 3
  else if s0 &&& 0xF8 = 0xF0 then
    if n < 4 then .incomplete
    else if s1 &&& 0xC0 ≠ 0x80 ∨ s2 &&& 0xC0 ≠ 0x80 ∨ s3 &&& 0xC0 ≠ 0x80 then .illegal
    else if s0 = 0xF0 ∧ s1 &&& 0x30 = 0 then .illegal
    else if s0 > 0xF4 ∨ (s0 = 0xF4 ∧ s1 &&& 0x30 ≠ 0) then .illegal
    else .bytes 4
  else .illegal

/-- The loop of `mbstowcs` with `i` characters read: the answer, and nothing for `(size_t)-1`.  What it stores at `pw`
is left out. -/
def mbstowcsLoop (pw : Bool) (n : Nat) (s : List UInt8) (i : Nat) : Option Nat :=
  if _h : (pw = false ∨ i < n) ∧ s ≠ [] then
    match if pw then (mbrtowc s MB_CUR_MAX).size else mbrtowcNull s MB_CUR_MAX with
    | .illegal => none
    | .incomplete => none
    | .bytes b => if b = 0 then some i else mbstowcsLoop pw n (s.drop b) (i + 1)
  else some i
termination_by s.length
decreasing_by
  have := List.length_pos_iff.2 _h.2
  rw [List.length_drop]
  omega

/-- `mbstowcs`, with a destination or without. -/
def mbstowcs (pw : Bool) (s : CString) (n : Nat) : Option Nat := mbstowcsLoop pw n s.bytes 0

/-! ### Forms that are no characters -/

def IsCont (b : UInt8) : Prop := b &&& 0xC0 = 0x80

instance (b : UInt8) : Decidable (IsCont b) := inferInstanceAs (Decidable (b &&& 0xC0 = 0x80))

/-- The second byte makes an overlong form, a surrogate or a value above `0x10FFFF` of the first. -/
def BadSecond (s0 s1 : UInt8) : Prop :=
  (s0 = 0xE0 ∧ s1 < 0xA0) ∨ (s0 = 0xED ∧ 0xA0 ≤ s1) ∨ (s0 = 0xF0 ∧ s1 < 0x90) ∨ (s0 = 0xF4 ∧ 0x90 ≤ s1) ∨
    (0xF5 ≤ s0 ∧ s0 ≤ 0xF7)

instance (s0 s1 : UInt8) : Decidable (BadSecond s0 s1) := by
  unfold BadSecond
  infer_instance

/-- The first `n` bytes hold something that has the form of a character and is none. -/
def Invalid (s : List UInt8) (n : Nat) : Prop :=
  let s0 := s.getD 0 0
  let s1 := s.getD 1 0
  let s2 := s.getD 2 0
  let s3 := s.getD 3 0
  (2 ≤ n ∧ (s0 = 0xC0 ∨ s0 = 0xC1) ∧ IsCont s1) ∨
    (3 ≤ n ∧ s0 &&& 0xF0 = 0xE0 ∧ IsCont s1 ∧ IsCont s2 ∧ BadSecond s0 s1) ∨
    (4 ≤ n ∧ s0 &&& 0xF8 = 0xF0 ∧ IsCont s1 ∧ IsCont s2 ∧ IsCont s3 ∧ BadSecond s0 s1)

instance (s : List UInt8) (n : Nat) : Decidable (Invalid s n) := by
  unfold Invalid
  infer_instance

/-! ### One character -/

/-- What the tests of a second byte say of the six bits it carries. -/
theorem second_byte {b : Nat} (hb : b < 64) :
    (UInt8.ofNat (b + 0x80) < 0xA0 ↔ b < 32) ∧ (0xA0 ≤ UInt8.ofNat (b + 0x80) ↔ 32 ≤ b) ∧
    (UInt8.ofNat (b + 0x80) &&& 0x20 = 0 ↔ b < 32) ∧
      (UInt8.ofNat (b + 0x80) < 0x90 ↔ b < 16) ∧ (0x90 ≤ UInt8.ofNat (b + 0x80) ↔ 16 ≤ b) ∧
      (UInt8.ofNat (b + 0x80) &&& 0x30 = 0 ↔ b < 16) := by
  have key : ∀ b : Fin 64, (UInt8.ofNat (b + 0x80) < 0xA0 ↔ b.val < 32) ∧ (0xA0 ≤ UInt8.ofNat (b + 0x80) ↔ 32 ≤ b.val) ∧
      (UInt8.ofNat (b + 0x80) &&& 0x20 = 0 ↔ b.val < 32) ∧ (UInt8.ofNat (b + 0x80) < 0x90 ↔ b.val < 16) ∧
      (0x90 ≤ UInt8.ofNat (b + 0x80) ↔ 16 ≤ b.val) ∧ (UInt8.ofNat (b + 0x80) &&& 0x30 = 0 ↔ b.val < 16) := by decide
  exact key ⟨b, hb⟩

theorem cont_form {b : UInt8} (h : IsCont b) : ∃ v < 64, b = UInt8.ofNat (v + 0x80) :=
  @exists_form 0xC0 0x80 64 (by decide +kernel) b h

/-- Two bytes: the value is too small, as the bits of the first byte show. -/
theorem two_bytes {s0 s1 : UInt8} (h0 : s0 &&& 0xE0 = 0xC0) (h1 : IsCont s1) :
    ((s0 &&& 0x1F).toNat <<< 6 ||| (s1 &&& 0x3F).toNat < 0x80 ↔ s0 = 0xC0 ∨ s0 = 0xC1) ∧
    (s0 &&& 0x1E = 0 ↔ s0 = 0xC0 ∨ s0 = 0xC1) := by
  have hlead : ∃ a < 32, s0 = UInt8.ofNat (a + 0xC0) := @exists_form 0xE0 0xC0 32 (by decide +kernel) s0 h0
  obtain ⟨a, ha, rfl⟩ := hlead
  obtain ⟨b, hb, rfl⟩ := cont_form h1
  have key : ∀ a : Fin 32, (UInt8.ofNat (a + 0xC0) &&& 0x1F).toNat = a ∧
      (UInt8.ofNat (a + 0xC0) = 0xC0 ∨ UInt8.ofNat (a + 0xC0) = 0xC1 ↔ a.val < 2) ∧
      (UInt8.ofNat (a + 0xC0) &&& 0x1E = 0 ↔ UInt8.ofNat (a + 0xC0) = 0xC0 ∨ UInt8.ofNat (a + 0xC0) = 0xC1) := by decide
  obtain ⟨hval, hbytes, hmask⟩ := key ⟨a, ha⟩
  obtain ⟨-, htail⟩ := tail_form hb
  refine ⟨?_, hmask⟩
  rw [hbytes, hval, htail, shift_or hb]
  omega

/-- The first byte of three. -/
theorem lead_three {a : Nat} (ha : a < 16) :
    (UInt8.ofNat (a + 0xE0) &&& 0x0F).toNat = a ∧ (UInt8.ofNat (a + 0xE0) = 0xE0 ↔ a = 0) ∧
    (UInt8.ofNat (a + 0xE0) = 0xED ↔ a = 13) ∧
      UInt8.ofNat (a + 0xE0) ≠ 0xF0 ∧ UInt8.ofNat (a + 0xE0) ≠ 0xF4 ∧ ¬0xF5 ≤ UInt8.ofNat (a + 0xE0) := by
  have key : ∀ a : Fin 16, (UInt8.ofNat (a + 0xE0) &&& 0x0F).toNat = a ∧ (UInt8.ofNat (a + 0xE0) = 0xE0 ↔ a.val = 0) ∧
      (UInt8.ofNat (a + 0xE0) = 0xED ↔ a.val = 13) ∧ UInt8.ofNat (a + 0xE0) ≠ 0xF0 ∧ UInt8.ofNat (a + 0xE0) ≠ 0xF4 ∧
      ¬0xF5 ≤ UInt8.ofNat (a + 0xE0) := by decide
  exact key ⟨a, ha⟩

/-- Three bytes: the value is too small or a surrogate, as the first two bytes show. -/
theorem three_bytes {s0 s1 s2 : UInt8} (h0 : s0 &&& 0xF0 = 0xE0) (h1 : IsCont s1) (h2 : IsCont s2) {v : Nat}
    (hv : v = (s0 &&& 0x0F).toNat <<< 12 ||| (s1 &&& 0x3F).toNat <<< 6 ||| (s2 &&& 0x3F).toNat) :
    (v < 0x800 ∨ (v ≥ 0xD800 ∧ v ≤ 0xDFFF) ↔ BadSecond s0 s1) ∧
      ((s0 = 0xE0 ∧ s1 &&& 0x20 = 0) ∨ (s0 = 0xED ∧ s1 &&& 0x20 ≠ 0) ↔ BadSecond s0 s1) := by
  have hlead : ∃ a < 16, s0 = UInt8.ofNat (a + 0xE0) := @exists_form 0xF0 0xE0 16 (by decide +kernel) s0 h0
  obtain ⟨a, ha, rfl⟩ := hlead
  obtain ⟨b, hb, rfl⟩ := cont_form h1
  obtain ⟨c, hc, rfl⟩ := cont_form h2
  obtain ⟨hval, hE0, hED, hF0, hF4, hF5⟩ := lead_three ha
  obtain ⟨hlt, hge, hmask, -⟩ := second_byte hb
  have hsum : a <<< 12 ||| b <<< 6 ||| c = (a * 64 + b) * 64 + c := by
    have h : a <<< 12 ||| b <<< 6 = (a * 64 + b) <<< 6 := by
      rw [show 12 = 6 + 6 from rfl, Nat.shiftLeft_add, ← Nat.shiftLeft_or_distrib, shift_or hb]
    rw [h, shift_or hc]
  rw [hval, (tail_form hb).2, (tail_form hc).2, hsum] at hv
  have hbad : BadSecond (UInt8.ofNat (a + 0xE0)) (UInt8.ofNat (b + 0x80)) ↔ (a = 0 ∧ b < 32) ∨ (a = 13 ∧ 32 ≤ b) := by
    unfold BadSecond
    simp only [hE0, hED, hF0, hF4, hF5, hlt, hge, false_and, or_false]
  rw [hbad]
  refine ⟨by omega, ?_⟩
  rw [hE0, hED, Ne, hmask, Nat.not_lt]

/-- The first byte of four. -/
theorem lead_four {a : Nat} (ha : a < 8) :
    (UInt8.ofNat (a + 0xF0) &&& 0x07).toNat = a ∧ (UInt8.ofNat (a + 0xF0) = 0xF0 ↔ a = 0) ∧
    (UInt8.ofNat (a + 0xF0) = 0xF4 ↔ a = 4) ∧
      UInt8.ofNat (a + 0xF0) ≠ 0xE0 ∧ UInt8.ofNat (a + 0xF0) ≠ 0xED ∧ (0xF5 ≤ UInt8.ofNat (a + 0xF0) ↔ 5 ≤ a) ∧
      UInt8.ofNat (a + 0xF0) ≤ 0xF7 ∧ (UInt8.ofNat (a + 0xF0) > 0xF4 ↔ 5 ≤ a) := by
  have key : ∀ a : Fin 8, (UInt8.ofNat (a + 0xF0) &&& 0x07).toNat = a ∧ (UInt8.ofNat (a + 0xF0) = 0xF0 ↔ a.val = 0) ∧
      (UInt8.ofNat (a + 0xF0) = 0xF4 ↔ a.val = 4) ∧ UInt8.ofNat (a + 0xF0) ≠ 0xE0 ∧ UInt8.ofNat (a + 0xF0) ≠ 0xED ∧
      (0xF5 ≤ UInt8.ofNat (a + 0xF0) ↔ 5 ≤ a.val) ∧ UInt8.ofNat (a + 0xF0) ≤ 0xF7 ∧ (UInt8.ofNat (a + 0xF0) > 0xF4 ↔
      5 ≤ a.val) := by
    decide
  exact key ⟨a, ha⟩

/-- Four bytes: the value is too small or too large, as the first two bytes show. -/
theorem four_bytes {s0 s1 s2 s3 : UInt8} (h0 : s0 &&& 0xF8 = 0xF0) (h1 : IsCont s1) (h2 : IsCont s2) (h3 : IsCont s3)
    {v : Nat} (hv : v = (s0 &&& 0x07).toNat <<< 18 ||| (s1 &&& 0x3F).toNat <<< 12 ||| (s2 &&& 0x3F).toNat <<<
    6 ||| (s3 &&& 0x3F).toNat) :
    (v < 0x10000 ∨ v > 0x10FFFF ↔ BadSecond s0 s1) ∧
      ((s0 = 0xF0 ∧ s1 &&& 0x30 = 0) ∨ s0 > 0xF4 ∨ (s0 = 0xF4 ∧ s1 &&& 0x30 ≠ 0) ↔ BadSecond s0 s1) := by
  have hlead : ∃ a < 8, s0 = UInt8.ofNat (a + 0xF0) := @exists_form 0xF8 0xF0 8 (by decide +kernel) s0 h0
  obtain ⟨a, ha, rfl⟩ := hlead
  obtain ⟨b, hb, rfl⟩ := cont_form h1
  obtain ⟨c, hc, rfl⟩ := cont_form h2
  obtain ⟨d, hd, rfl⟩ := cont_form h3
  obtain ⟨hval, hF0, hF4, hE0, hED, hF5, hF7, habove⟩ := lead_four ha
  obtain ⟨-, -, -, hlt, hge, hmask⟩ := second_byte hb
  have hsum : a <<< 18 ||| b <<< 12 ||| c <<< 6 ||| d = ((a * 64 + b) * 64 + c) * 64 + d := by
    have h : a <<< 18 ||| b <<< 12 = (a * 64 + b) <<< 12 := by
      rw [show 18 = 6 + 12 from rfl, Nat.shiftLeft_add, ← Nat.shiftLeft_or_distrib, shift_or hb]
    have h' : (a * 64 + b) <<< 12 ||| c <<< 6 = ((a * 64 + b) * 64 + c) <<< 6 := by
      rw [show 12 = 6 + 6 from rfl, Nat.shiftLeft_add, ← Nat.shiftLeft_or_distrib, shift_or hc]
    rw [h, h', shift_or hd]
  rw [hval, (tail_form hb).2, (tail_form hc).2, (tail_form hd).2, hsum] at hv
  have hbad : BadSecond (UInt8.ofNat (a + 0xF0)) (UInt8.ofNat (b + 0x80)) ↔ (a = 0 ∧ b < 16) ∨ (a = 4 ∧ 16 ≤ b) ∨
    5 ≤ a := by
    unfold BadSecond
    simp only [hE0, hED, hF0, hF4, hF5, hF7, hlt, hge, false_and, false_or, and_true]
  rw [hbad]
  refine ⟨by omega, ?_⟩
  rw [hF0, hF4, habove, Ne, hmask, Nat.not_lt]
  omega

/-- `mbrlen` answers as `mbrtowc` does. -/
theorem mbrlen_eq (s : List UInt8) (n : Nat) : mbrlen s n = (mbrtowc s n).size := by
  simp only [mbrlen, mbrtowc]
  split
  · rfl
  split
  · rfl
  split
  next h0 =>
    split
    · rfl
    split
    · rfl
    next hcont =>
    obtain ⟨hvalue, hmask⟩ := two_bytes h0 (not_not.1 hcont)
    simp only [hvalue, hmask]
    split <;> rfl
  split
  next h0 =>
    split
    · rfl
    split
    · rfl
    next hcont =>
    obtain ⟨h1, h2⟩ := not_or.1 hcont
    obtain ⟨hvalue, hmask⟩ := three_bytes h0 (not_not.1 h1) (not_not.1 h2) rfl
    rw [if_congr hvalue rfl rfl, ← ite_or, if_congr hmask rfl rfl]
    split <;> rfl
  split
  next h0 =>
    split
    · rfl
    split
    · rfl
    next hcont =>
    obtain ⟨h1, hcont⟩ := not_or.1 hcont
    obtain ⟨h2, h3⟩ := not_or.1 hcont
    obtain ⟨hvalue, hmask⟩ := four_bytes h0 (not_not.1 h1) (not_not.1 h2) (not_not.1 h3) rfl
    rw [if_congr hvalue rfl rfl, ← ite_or, if_congr hmask rfl rfl]
    split <;> rfl
  · rfl

/-- The tests of the first byte exclude one another. -/
theorem lead_tests (x : UInt8) :
    (x < 0x80 → x &&& 0xE0 ≠ 0xC0 ∧ x &&& 0xF0 ≠ 0xE0 ∧ x &&& 0xF8 ≠ 0xF0) ∧
    (x &&& 0xE0 = 0xC0 → x &&& 0xF0 ≠ 0xE0 ∧ x &&& 0xF8 ≠ 0xF0) ∧
      (x &&& 0xF0 = 0xE0 → x &&& 0xF8 ≠ 0xF0) ∧ (x = 0xC0 ∨ x = 0xC1 → x &&& 0xE0 = 0xC0) := by
  apply forall_byte (c := x)
  decide +kernel

/-- The answer of `mbrtowc` is that without a destination, but where the bytes have the form of a character and are
none. -/
theorem size_eq (s : List UInt8) (n : Nat) : (mbrtowc s n).size = if Invalid s n then .illegal
    else mbrtowcNull s n := by
  obtain ⟨hone, htwo, hthree, hC⟩ := lead_tests (s.getD 0 0)
  simp only [mbrtowc, mbrtowcNull, Invalid]
  split
  next h =>
    subst h
    simp [Mb.size]
  split
  next h0 =>
    obtain ⟨h2, h3, h4⟩ := hone h0
    have hC' := mt hC h2
    simp only [hC', h3, h4, false_and, and_false, or_false, if_false]
    rfl
  split
  next h0 =>
    obtain ⟨h3, h4⟩ := htwo h0
    simp only [h3, h4, false_and, and_false, or_false]
    split
    next hn =>
      rw [if_neg (fun h => absurd h.1 (by omega))]
      rfl
    split
    next hcont =>
      rw [if_neg (fun h => hcont h.2.2)]
      rfl
    next hn hcont =>
    obtain ⟨hvalue, -⟩ := two_bytes h0 (not_not.1 hcont)
    rw [if_congr hvalue rfl rfl]
    split
    next hbad => rw [if_pos ⟨by omega, hbad, not_not.1 hcont⟩]; rfl
    next hbad => rw [if_neg (fun h => hbad h.2.1)]; rfl
  next h2 =>
  have hC' := mt hC h2
  simp only [hC', false_and, and_false, false_or]
  split
  next h0 =>
    simp only [hthree h0, false_and, and_false, or_false]
    split
    next hn =>
      rw [if_neg (fun h => absurd h.1 (by omega))]
      rfl
    split
    next hcont =>
      rw [if_neg (fun h => hcont.elim (· h.2.2.1) (· h.2.2.2.1))]
      rfl
    next hn hcont =>
    obtain ⟨h1, h2⟩ := not_or.1 hcont
    obtain ⟨hvalue, -⟩ := three_bytes h0 (not_not.1 h1) (not_not.1 h2) rfl
    rw [if_congr hvalue rfl rfl]
    split
    next hbad => rw [if_pos ⟨by omega, h0, not_not.1 h1, not_not.1 h2, hbad⟩]; rfl
    next hbad => rw [if_neg (fun h => hbad h.2.2.2.2)]; rfl
  next h3 =>
  simp only [h3, false_and, and_false, false_or]
  split
  next h0 =>
    split
    next hn =>
      rw [if_neg (fun h => absurd h.1 (by omega))]
      rfl
    split
    next hcont =>
      rw [if_neg (fun h => hcont.elim (· h.2.2.1) (·.elim (· h.2.2.2.1) (· h.2.2.2.2.1)))]
      rfl
    next hn hcont =>
    obtain ⟨h1, hcont⟩ := not_or.1 hcont
    obtain ⟨h2, h3⟩ := not_or.1 hcont
    obtain ⟨hvalue, -⟩ := four_bytes h0 (not_not.1 h1) (not_not.1 h2) (not_not.1 h3) rfl
    rw [if_congr hvalue rfl rfl]
    split
    next hbad => rw [if_pos ⟨by omega, h0, not_not.1 h1, not_not.1 h2, not_not.1 h3, hbad⟩]; rfl
    next hbad => rw [if_neg (fun h => hbad h.2.2.2.2.2)]; rfl
  next h4 =>
  simp only [h4, false_and, and_false, if_false]
  rfl

/-- Without a destination an invalid form has a length. -/
theorem null_invalid {s : List UInt8} {n : Nat} (h : Invalid s n) : ∃ b, mbrtowcNull s n = .bytes b := by
  obtain ⟨hone, htwo, hthree, hC⟩ := lead_tests (s.getD 0 0)
  unfold Invalid IsCont at h
  simp only [mbrtowcNull]
  rcases h with ⟨hn, h0, h1⟩ | ⟨hn, h0, h1, h2, -⟩ | ⟨hn, h0, h1, h2, h3, -⟩
  · have hlead := hC h0
    refine ⟨2, ?_⟩
    rw [if_neg (by omega), if_neg fun h => (hone h).1 hlead, if_pos hlead, if_neg (by omega), if_neg (not_not.2 h1)]
  · refine ⟨3, ?_⟩
    rw [if_neg (by omega), if_neg fun h => (hone h).2.1 h0, if_neg fun h => (htwo h).1 h0, if_pos h0, if_neg (by omega),
      if_neg fun h => h.elim (· h1) (· h2)]
  · refine ⟨4, ?_⟩
    rw [if_neg (by omega), if_neg fun h => (hone h).2.2 h0, if_neg fun h => (htwo h).2 h0,
      if_neg fun h => hthree h h0, if_pos h0, if_neg (by omega), if_neg fun h => h.elim (· h1) (·.elim (· h2) (· h3))]

/-! ### Forms -/

/-- A byte below `0x80`, or a first byte of several with its continuation bytes. -/
def IsForm (f : List UInt8) : Prop :=
  (∃ a, f = [a] ∧ a < 0x80) ∨ (∃ a b, f = [a, b] ∧ a &&& 0xE0 = 0xC0 ∧ IsCont b) ∨
    (∃ a b c, f = [a, b, c] ∧ a &&& 0xF0 = 0xE0 ∧ IsCont b ∧ IsCont c) ∨
    ∃ a b c d, f = [a, b, c, d] ∧ a &&& 0xF8 = 0xF0 ∧ IsCont b ∧ IsCont c ∧ IsCont d

/-- Without a destination a form is measured by its length. -/
theorem null_form {f : List UInt8} (hf : IsForm f) (h0 : 0 ∉ f) (t : List UInt8) :
    mbrtowcNull (f ++ t) MB_CUR_MAX = .bytes f.length := by
  rcases hf with ⟨a, rfl, ha⟩ | ⟨a, b, rfl, ha, hb⟩ | ⟨a, b, c, rfl, ha, hb, hc⟩ | ⟨a, b, c, d, rfl, ha, hb, hc, hd⟩
  · have hne : a ≠ 0 := fun h => h0 (by simp [h])
    simp [mbrtowcNull, MB_CUR_MAX, ha, hne]
  · have h1 : ¬a < 0x80 := fun h => ((lead_tests a).1 h).1 ha
    unfold IsCont at hb
    simp [mbrtowcNull, MB_CUR_MAX, h1, ha, hb]
  · have h1 : ¬a < 0x80 := fun h => ((lead_tests a).1 h).2.1 ha
    have h2 : a &&& 0xE0 ≠ 0xC0 := fun h => ((lead_tests a).2.1 h).1 ha
    unfold IsCont at hb hc
    simp [mbrtowcNull, MB_CUR_MAX, h1, h2, ha, hb, hc]
  · have h1 : ¬a < 0x80 := fun h => ((lead_tests a).1 h).2.2 ha
    have h2 : a &&& 0xE0 ≠ 0xC0 := fun h => ((lead_tests a).2.1 h).2 ha
    have h3 : a &&& 0xF0 ≠ 0xE0 := fun h => (lead_tests a).2.2.1 h ha
    unfold IsCont at hb hc hd
    simp [mbrtowcNull, MB_CUR_MAX, h1, h2, h3, ha, hb, hc, hd]

/-- Whether a form is a character shows in its own bytes. -/
theorem invalid_form {f : List UInt8} (hf : IsForm f) (t : List UInt8) : Invalid (f ++ t) MB_CUR_MAX ↔
    Invalid f MB_CUR_MAX := by
  rcases hf with ⟨a, rfl, ha⟩ | ⟨a, b, rfl, ha, hb⟩ | ⟨a, b, c, rfl, ha, hb, hc⟩ | ⟨a, b, c, d, rfl, ha, hb, hc, hd⟩
  · obtain ⟨h2, h3, h4⟩ := (lead_tests a).1 ha
    have hC := mt (lead_tests a).2.2.2 h2
    simp [Invalid, h3, h4, hC]
  · obtain ⟨h3, h4⟩ := (lead_tests a).2.1 ha
    simp [Invalid, h3, h4]
  · have h4 := (lead_tests a).2.2.1 ha
    simp [Invalid, h4]
  · simp [Invalid]

/-- What is measured without a destination is a form. -/
theorem null_bytes {s : List UInt8} {b : Nat} (hs : s ≠ []) (h0 : 0 ∉ s) (h : mbrtowcNull s MB_CUR_MAX = .bytes b) :
    ∃ f t, s = f ++ t ∧ IsForm f ∧ f.length = b := by
  have hzero : ¬IsCont 0 := by decide
  obtain ⟨x, s, rfl⟩ := List.exists_cons_of_ne_nil hs
  simp only [mbrtowcNull, MB_CUR_MAX, List.getD_cons_zero, List.getD_cons_succ] at h
  rw [if_neg (by decide)] at h
  by_cases h1 : x < 0x80
  · have hx : x ≠ 0 := fun hx => h0 (by simp [hx])
    rw [if_pos h1, if_pos hx] at h
    exact ⟨[x], s, rfl, Or.inl ⟨x, rfl, h1⟩, by simpa using h⟩
  rw [if_neg h1] at h
  by_cases h2 : x &&& 0xE0 = 0xC0
  · rw [if_pos h2, if_neg (by decide)] at h
    split at h
    · cases h
    next hcont =>
    have hcont := not_not.1 hcont
    rcases s with _ | ⟨y, t⟩
    · exact absurd hcont hzero
    · exact ⟨[x, y], t, rfl, Or.inr (Or.inl ⟨x, y, rfl, h2, hcont⟩), by simpa using h⟩
  rw [if_neg h2] at h
  by_cases h3 : x &&& 0xF0 = 0xE0
  · rw [if_pos h3, if_neg (by decide)] at h
    split at h
    · cases h
    next hcont =>
    obtain ⟨hc1, hc2⟩ := not_or.1 hcont
    have hc1 := not_not.1 hc1
    have hc2 := not_not.1 hc2
    rcases s with _ | ⟨y, _ | ⟨z, t⟩⟩
    · exact absurd hc1 hzero
    · exact absurd hc2 hzero
    · exact ⟨[x, y, z], t, rfl, Or.inr (Or.inr (Or.inl ⟨x, y, z, rfl, h3, hc1, hc2⟩)), by simpa using h⟩
  rw [if_neg h3] at h
  by_cases h4 : x &&& 0xF8 = 0xF0
  · rw [if_pos h4, if_neg (by decide)] at h
    split at h
    · cases h
    next hcont =>
    obtain ⟨hc1, hcont⟩ := not_or.1 hcont
    obtain ⟨hc2, hc3⟩ := not_or.1 hcont
    have hc1 := not_not.1 hc1
    have hc2 := not_not.1 hc2
    have hc3 := not_not.1 hc3
    rcases s with _ | ⟨y, _ | ⟨z, _ | ⟨w, t⟩⟩⟩
    · exact absurd hc1 hzero
    · exact absurd hc2 hzero
    · exact absurd hc3 hzero
    · exact ⟨[x, y, z, w], t, rfl, Or.inr (Or.inr (Or.inr ⟨x, y, z, w, rfl, h4, hc1, hc2, hc3⟩)), by simpa using h⟩
  rw [if_neg h4] at h
  cases h

theorem IsForm.ne_nil {f : List UInt8} (hf : IsForm f) : f ≠ [] := by
  rcases hf with ⟨a, rfl, -⟩ | ⟨a, b, rfl, -⟩ | ⟨a, b, c, rfl, -⟩ | ⟨a, b, c, d, rfl, -⟩ <;> simp

/-! ### Strings -/

/-- One turn of `mbstowcs` over a form. -/
theorem mbstowcsLoop_form {f : List UInt8} (hf : IsForm f) (h0 : 0 ∉ f) {pw : Bool} {n i : Nat}
    (hroom : pw = false ∨ i < n) (t : List UInt8) :
    mbstowcsLoop pw n (f ++ t) i = if pw = true ∧ Invalid f MB_CUR_MAX then none else mbstowcsLoop pw n t (i + 1) := by
  have hlen : f.length ≠ 0 := fun h => hf.ne_nil (List.length_eq_zero_iff.1 h)
  rw [mbstowcsLoop, dif_pos ⟨hroom, List.append_ne_nil_of_left_ne_nil hf.ne_nil t⟩, size_eq, null_form hf h0 t,
    if_congr (invalid_form hf t) rfl rfl]
  cases pw with
  | false => simp [hlen]
  | true =>
    by_cases hbad : Invalid f MB_CUR_MAX
    · simp [hbad]
    · simp [hbad, hlen]

/-- One turn of `mbstowcs` where no form is. -/
theorem mbstowcsLoop_stuck {s : List UInt8} (hs : s ≠ []) {pw : Bool} {n i : Nat} (hroom : pw = false ∨ i < n)
    (h : ∀ b, mbrtowcNull s MB_CUR_MAX ≠ .bytes b) : mbstowcsLoop pw n s i = none := by
  rw [mbstowcsLoop, dif_pos ⟨hroom, hs⟩, size_eq]
  rcases hnull : mbrtowcNull s MB_CUR_MAX with _ | _ | b
  · cases pw <;> simp
  · by_cases hbad : Invalid s MB_CUR_MAX <;> cases pw <;> simp [hbad]
  · exact absurd hnull (h b)

/-- The forms that make up a string, where some do. -/
def Forms (s : List UInt8) (fs : List (List UInt8)) : Prop := s = fs.flatten ∧ ∀ f ∈ fs, IsForm f

theorem Forms.length_le {s : List UInt8} {fs : List (List UInt8)} (h : Forms s fs) : fs.length ≤ s.length := by
  obtain ⟨rfl, hforms⟩ := h
  induction fs with
  | nil => exact Nat.le_refl 0
  | cons f fs ih =>
    have hpos := List.length_pos_iff.2 (hforms f List.mem_cons_self).ne_nil
    have hle := ih fun g hg => hforms g (List.mem_cons_of_mem f hg)
    rw [List.flatten_cons, List.length_append, List.length_cons]
    omega

/-- `mbstowcs` over forms, with no destination or with room for all: their number, but for a destination where one is
no character. -/
theorem mbstowcsLoop_forms {fs : List (List UInt8)} {s : List UInt8} (hfs : Forms s fs) (h0 : 0 ∉ s) {pw : Bool}
    {n i : Nat} (hroom : pw = false ∨ i + fs.length ≤ n) :
    mbstowcsLoop pw n s i = if pw = true ∧ ∃ f ∈ fs, Invalid f MB_CUR_MAX then none else some (i + fs.length) := by
  obtain ⟨rfl, hforms⟩ := hfs
  induction fs generalizing i with
  | nil =>
    rw [mbstowcsLoop]
    simp
  | cons f fs ih =>
    rw [List.flatten_cons, List.mem_append, not_or] at h0
    rw [List.length_cons] at hroom
    rw [List.flatten_cons, mbstowcsLoop_form (hforms f List.mem_cons_self) h0.1 (hroom.imp_right (by omega)),
      ih (hroom.imp_right (by omega)) (fun g hg => hforms g (List.mem_cons_of_mem f hg)) h0.2]
    simp only [List.mem_cons, exists_eq_or_imp, List.length_cons, Nat.add_assoc, Nat.add_comm 1]
    split
    · next h => rw [if_pos ⟨h.1, Or.inl h.2⟩]
    · next h => exact if_congr ⟨fun h' => ⟨h'.1, Or.inr h'.2⟩,
        fun h' => ⟨h'.1, h'.2.resolve_left fun hbad => h ⟨h'.1, hbad⟩⟩⟩ rfl rfl

/-- A string that is not made up of forms is refused. -/
theorem mbstowcsLoop_none (s : List UInt8) (h0 : 0 ∉ s) {pw : Bool} {n i : Nat} (hroom : pw = false ∨ i + s.length ≤ n)
    (hno : ¬∃ fs, Forms s fs) : mbstowcsLoop pw n s i = none := by
  induction hk : s.length using Nat.strong_induction_on generalizing s i with
  | _ k ih =>
    have hs : s ≠ [] := by
      rintro rfl
      exact hno ⟨[], rfl, by simp⟩
    have hpos := List.length_pos_iff.2 hs
    by_cases hnull : ∃ b, mbrtowcNull s MB_CUR_MAX = .bytes b
    · obtain ⟨b, hnull⟩ := hnull
      obtain ⟨f, t, rfl, hf, rfl⟩ := null_bytes hs h0 hnull
      rw [List.mem_append, not_or] at h0
      have hfpos := List.length_pos_iff.2 hf.ne_nil
      rw [List.length_append] at hk hroom
      have hrest : mbstowcsLoop pw n t (i + 1) = none := by
        refine ih t.length (by omega) t h0.2 (hroom.imp_right (by omega)) ?_ rfl
        rintro ⟨fs, rfl, hforms⟩
        refine hno ⟨f :: fs, rfl, ?_⟩
        intro g hg
        rcases List.mem_cons.1 hg with rfl | hg
        · exact hf
        · exact hforms g hg
      rw [mbstowcsLoop_form hf h0.1 (hroom.imp_right (by omega)), hrest, ite_self]
    · exact mbstowcsLoop_stuck hs (hroom.imp_right (by omega)) fun b hb => hnull ⟨b, hb⟩

/-- What `mbsrtowcs` reads first, where it reads something. -/
theorem mbrtowc_front {s : List UInt8} (hs : s ≠ []) (h0 : 0 ∉ s) :
    (∃ wc b, mbrtowc s MB_CUR_MAX = .done wc b) ↔ ∃ wc, IsScalar wc ∧ utf8 wc <+: s := by
  constructor
  · rintro ⟨wc, b, hmb⟩
    obtain ⟨bs, hread, hfront⟩ := mbrtowc_done hs h0 hmb
    exact ⟨wc, hread.scalar, hread.utf8 ▸ hfront⟩
  · rintro ⟨wc, hwc, t, rfl⟩
    have hne : wc ≠ 0 := by
      rintro rfl
      exact h0 (List.mem_append_left t (by decide))
    exact ⟨wc, _, mbrtowc_utf8 hwc hne t⟩

section Restartable

variable {len : Nat}

/-- `mbsrtowcs` counts what it would store where there is room for everything. -/
theorem mbsLoop_count (l fuel : Nat) {s : List UInt8} {i k : Nat} {d : List (BitVec 32)} (h0 : 0 ∉ s)
    (hroom : i + s.length ≤ len) :
    (mbsLoop l fuel s i k none).ret = (mbsLoop len fuel s i k (some d)).ret := by
  induction fuel generalizing s i k d with
  | zero => rfl
  | succ fuel ih =>
    rw [mbsLoop, mbsLoop, if_pos (Or.inr rfl)]
    by_cases hs : s = []
    · rw [if_pos hs, if_pos hs]
      subst hs
      split
      · rfl
      · rfl
    · have hpos := List.length_pos_iff.2 hs
      rw [if_pos (Or.inl (by omega)), if_neg hs, if_neg hs]
      rcases hmb : mbrtowc s MB_CUR_MAX with _ | _ | ⟨wc, b⟩
      · rfl
      · rfl
      · obtain ⟨bs, hread, t, rfl⟩ := mbrtowc_done hs h0 hmb
        have hb := List.length_pos_iff.2 (utf8_ne_nil hread.scalar)
        rw [hread.utf8, ← hread.length] at hb
        exact ih (fun h => h0 (List.mem_of_mem_drop h)) (by rw [List.length_drop]; omega)

/-- `*src` does not go back. -/
theorem mbsLoop_src (fuel : Nat) {s : List UInt8} {i k j : Nat} (h : (mbsLoop len fuel s i k none).src = some j) :
    k ≤ j := by
  induction fuel generalizing s i k with
  | zero => exact (Option.some.inj h).le
  | succ fuel ih =>
    rw [mbsLoop, if_pos (Or.inr rfl)] at h
    split at h
    · cases h
    · split at h
      · exact (Option.some.inj h).le
      · exact (Option.some.inj h).le
      · exact (Nat.le_add_right _ _).trans (ih h)

/-- Without a destination `mbsrtowcs` leaves `*src` where it was in one case only: the first character is none. -/
theorem mbsrtowcs_src (s : CString) :
    (mbsrtowcs len none s).src = some 0 ↔ s.bytes ≠ [] ∧ ¬∃ wc, IsScalar wc ∧ utf8 wc <+: s.bytes := by
  rw [mbsrtowcs, mbsLoop, if_pos (Or.inr rfl)]
  by_cases hs : s.bytes = []
  · simp [hs]
  · rw [if_neg hs, ← mbrtowc_front hs s.noNul]
    rcases hmb : mbrtowc s.bytes MB_CUR_MAX with _ | _ | ⟨wc, b⟩
    · simp [hs]
    · simp [hs]
    · obtain ⟨bs, hread, -⟩ := mbrtowc_done hs s.noNul hmb
      have hb := List.length_pos_iff.2 (utf8_ne_nil hread.scalar)
      rw [hread.utf8, ← hread.length] at hb
      refine iff_of_false (fun h => ?_) fun h => h.2 ⟨wc, b, rfl⟩
      have hle := mbsLoop_src _ h
      omega

end Restartable

/-! ### Measuring and converting -/

/-- A string made up of forms, some of which are no characters. -/
def Miscounted (s : List UInt8) : Prop := ∃ fs, Forms s fs ∧ ∃ f ∈ fs, Invalid f MB_CUR_MAX

/-- Measuring against converting.  `mbrlen` always answers as `mbrtowc` does; `mbrtowc` without a destination does
where the bytes are not an invalid form, and `mbstowcs` without one where the string is not made up of forms with an
invalid one among them (and `mbstowcs` with room for everything does not depend on how much room).  `mbsrtowcs`
without a destination counts what it would store, whatever `len` is, but sets `*src` as a conversion does: it keeps it
where the first character of the string is not well formed. -/
theorem measures_as_converts (s : List UInt8) (n : Nat) (c : CString) (len k : Nat) (d : List (BitVec 32)) :
    (mbrlen s n = (mbrtowc s n).size) ∧
    (mbrtowcNull s n = (mbrtowc s n).size ↔ ¬Invalid s n) ∧
    (mbstowcs false c 0 = mbstowcs true c (c.bytes.length + k) ↔ ¬Miscounted c.bytes) ∧
    (mbsrtowcs len none c).ret = (mbsrtowcs (c.bytes.length + k) (some d) c).ret ∧
    ((mbsrtowcs len none c).src = some 0 ↔ c.bytes ≠ [] ∧ ¬∃ wc, IsScalar wc ∧ utf8 wc <+: c.bytes) := by
  refine ⟨mbrlen_eq s n, ?_, ?_, ?_, mbsrtowcs_src c⟩
  · rw [size_eq]
    by_cases hbad : Invalid s n
    · obtain ⟨b, hb⟩ := null_invalid hbad
      simp [hbad, hb]
    · simp [hbad]
  · unfold mbstowcs
    by_cases hmis : Miscounted c.bytes
    · obtain ⟨fs, hfs, hbad⟩ := id hmis
      have hle := hfs.length_le
      rw [mbstowcsLoop_forms hfs c.noNul (Or.inl rfl), mbstowcsLoop_forms hfs c.noNul (Or.inr (by omega))]
      simp [hbad, hmis]
    · refine iff_of_true ?_ hmis
      by_cases hforms : ∃ fs, Forms c.bytes fs
      · obtain ⟨fs, hfs⟩ := hforms
        have hle := hfs.length_le
        have hgood : ¬∃ f ∈ fs, Invalid f MB_CUR_MAX := fun hbad => hmis ⟨fs, hfs, hbad⟩
        rw [mbstowcsLoop_forms hfs c.noNul (Or.inl rfl), mbstowcsLoop_forms hfs c.noNul (Or.inr (by omega)),
          if_neg fun h => hgood h.2, if_neg fun h => hgood h.2]
      · rw [mbstowcsLoop_none c.bytes c.noNul (Or.inl rfl) hforms,
          mbstowcsLoop_none c.bytes c.noNul (Or.inr (by omega)) hforms]
  · exact mbsLoop_count len _ c.noNul (by omega)

/-- The overlong form `C0 80` is measured and not converted, and `mbsrtowcs` sets `*src` to NULL at the end of a
string. -/
theorem measures_overlong :
    mbrtowcNull [0xC0, 0x80] 2 ≠ (mbrtowc [0xC0, 0x80] 2).size ∧
      mbstowcs false (CString.of [0xC0, 0x80]) 0 ≠ mbstowcs true (CString.of [0xC0, 0x80]) 2 ∧
      (mbsrtowcs 0 none (CString.of [0x41])).src ≠ some 0 := by
  decide +kernel

end JACLibc.Wchar
