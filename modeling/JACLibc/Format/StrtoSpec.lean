import JACLibc.Format.Strto

/-!
# The reading of `strtol` and `strtoul`, piece by piece

The white space, the sign, the prefix and the digits are what the reference takes, as far as the code agrees with it.
-/

namespace JACLibc.Strto

/-! ### Characters -/

theorem charVal_eq_iff {c d : UInt8} : charVal c = charVal d ↔ c = d := ⟨charVal_injective, fun h => by rw [h]⟩

theorem charVal_eof {c : UInt8} : charVal c = EOF ↔ c = 255 := @charVal_eq_iff c 255

theorem charVal_zero {c : UInt8} : charVal c = 48 ↔ c = asc '0' := @charVal_eq_iff c (asc '0')

theorem charVal_minus {c : UInt8} : charVal c = 45 ↔ c = asc '-' := @charVal_eq_iff c (asc '-')

theorem charVal_plus {c : UInt8} : charVal c = 43 ↔ c = asc '+' := @charVal_eq_iff c (asc '+')

theorem charVal_x {c : UInt8} : charVal c = 120 ∨ charVal c = 88 ↔ isX c := by
  rw [isX, decide_eq_true_eq]
  exact or_congr (@charVal_eq_iff c (asc 'x')) (@charVal_eq_iff c (asc 'X'))

theorem isSpace_charVal (c : UInt8) : isSpace (charVal c) = isWhite c :=
  @forall_byte (fun c => isSpace (charVal c) = isWhite c) (by decide +kernel) c

/-- The code's digits are those of the standard, up to base 36. -/
theorem digitVal_cases (c : UInt8) : (digitOf c < 36 ∧ digitVal (charVal c) = digitOf c) ∨
    (digitOf c = 36 ∧ (digitVal (charVal c) < 0 ∨ 36 ≤ digitVal (charVal c))) :=
  @forall_byte (fun c => (digitOf c < 36 ∧ digitVal (charVal c) = digitOf c) ∨
    (digitOf c = 36 ∧ (digitVal (charVal c) < 0 ∨ 36 ≤ digitVal (charVal c)))) (by decide +kernel) c

theorem isDigitOf_iff {base : Nat} (hbase : base ≤ 36) {c : UInt8} : IsDigitOf base c ↔ digitOf c < base := by
  unfold IsDigitOf
  have := digitVal_cases c
  omega

theorem horner_eq {base : Nat} (hbase : base ≤ 36) {ds : List UInt8} (hds : ∀ c ∈ ds, digitOf c < base) (v : Nat) :
    horner base v ds = ds.foldl (fun v c => v * base + digitOf c) v := by
  induction ds generalizing v with
  | nil => rfl
  | cons c ds ih =>
    have hc := hds c List.mem_cons_self
    have hval : (digitVal (charVal c)).toNat = digitOf c := by
      have := digitVal_cases c
      omega
    rw [horner, List.foldl_cons, hval]
    exact ih (fun x hx => hds x (List.mem_cons_of_mem _ hx)) _

theorem readNext_char {c : UInt8} (hc : c ≠ 255) (back s : List UInt8) (read : Int) :
    readNext ⟨back, c :: s, read⟩ = (charVal c, ⟨c :: back, s, read + 1⟩) := by
  have heof : charVal c ≠ EOF := fun h => hc (charVal_eof.1 h)
  simp only [readNext, if_pos heof]

theorem readNext_eof (back s : List UInt8) (read : Int) :
    readNext ⟨back, 255 :: s, read⟩ = (EOF, ⟨255 :: back, s, read⟩) := rfl

theorem readNext_nil (back : List UInt8) (read : Int) : readNext ⟨back, [], read⟩ = (EOF, ⟨back, [], read⟩) := rfl

/-- A character that is put back was not read. -/
theorem readBack_readNext {c : UInt8} (hc : c ≠ 255) (back s : List UInt8) (read : Int) :
    readBack (readNext ⟨back, c :: s, read⟩).2 = ⟨back, c :: s, read⟩ := by
  rw [readNext_char hc, readBack]
  simp

/-! ### White space and sign -/

/-- A reader in front of the characters of `s`, or behind the first of them where it reads as the end. -/
def standing (back s : List UInt8) (read : Int) : Reader :=
  if s.head? = some 255 then ⟨255 :: back, s.tail, read⟩ else ⟨back, s, read⟩

theorem readSkip_eq (back str : List UInt8) (read : Int) :
    readSkip ⟨back, str, read⟩ =
      standing ((str.takeWhile isWhite).reverse ++ back) (body str) (read + (str.takeWhile isWhite).length) := by
  have hspaces : ∀ (str back : List UInt8) (read : Int), readSpaces ⟨back, str, read⟩ =
      readNext ⟨(str.takeWhile isWhite).reverse ++ back, body str, read + (str.takeWhile isWhite).length⟩ := by
    intro str
    induction str with
    | nil =>
      intro back read
      rw [readSpaces, if_neg (by simp [readNext])]
      simp [body]
    | cons c str ih =>
      intro back read
      by_cases hc : isWhite c
      · have hspace : isSpace (charVal c) = true := by rw [isSpace_charVal, hc]
        have heof : charVal c ≠ EOF := fun h => by rw [charVal_eof.1 h] at hc; exact absurd hc (by decide)
        rw [readSpaces, readNext_char fun h => heof (charVal_eof.2 h), if_pos ⟨heof, hspace⟩, ih,
          List.takeWhile_cons_of_pos hc, body, body, List.dropWhile_cons_of_pos hc]
        simp only [List.reverse_cons, List.append_assoc, List.singleton_append, List.length_cons, Nat.cast_add,
          Nat.cast_one, Int.add_assoc, Int.add_comm 1]
      · have hspace : isSpace (charVal c) = false := by rw [isSpace_charVal, Bool.eq_false_iff.2 hc]
        rw [readSpaces, if_neg (by simp [readNext, hspace]), List.takeWhile_cons_of_neg hc, body,
          List.dropWhile_cons_of_neg hc]
        simp
  rw [readSkip, hspaces]
  rcases hs : body str with _ | ⟨c, s⟩
  · simp [readNext, standing]
  · by_cases hc : c = 255
    · rw [hc, if_neg (by rw [readNext_eof]; exact not_not_intro rfl)]
      rfl
    · have heof : charVal c ≠ EOF := fun h => hc (charVal_eof.1 h)
      rw [if_pos (by rw [readNext_char hc]; exact heof), readBack_readNext hc, standing, if_neg (by simpa using hc)]

/-! ### Sign, prefix and digits -/

/-- The base and the digits that `__jacl_input_int` reads behind the sign. -/
def number (width : Int) (base : Nat) (ch : Int) (r : Reader) : Nat × Digits :=
  let start := inputBase base ch r
  (start.1, readDigits width width start.1 ⟨start.2.1, start.2.2, 0, 0, false⟩)

/-- What it makes of them, where `read` characters were read up to the first. -/
def scanned (spec : Spec) (neg : Bool) (read : Int) (n : Nat × Digits) : Scanned :=
  let pos := if 0 < n.2.count ∧ n.2.ch ≠ EOF then readBack n.2.reader else n.2.reader
  let signed := applySign spec neg n.2.val
  let found := decide (0 < n.2.count) || (n.1 == 8 && signed.1 == 0)
  ⟨found, signed.1, { pos with read := if found then read + pos.read else read }, n.2.erange || signed.2⟩

/-- Behind a sign the next character is read, and counted. -/
theorem inputInt_signed (spec : Spec) (width : Int) {s : List UInt8} (hs : (signOf s).2 = 1) (back : List UInt8)
    (read : Int) :
    inputInt spec width ⟨back, s, read⟩ = scanned spec (signOf s).1 (read + 1)
      (number width spec.base (readNext ⟨s.take 1 ++ back, unsigned s, 0⟩).1
        (readNext ⟨s.take 1 ++ back, unsigned s, 0⟩).2) := by
  rcases s with _ | ⟨c, t⟩
  · exact absurd hs (by decide)
  · have hc : (c = asc '-' ∧ signOf (c :: t) = (true, 1)) ∨ (c = asc '+' ∧ signOf (c :: t) = (false, 1)) := by
      unfold signOf at hs ⊢
      rw [deref_cons] at hs ⊢
      by_cases h1 : c = asc '-'
      · exact .inl ⟨h1, if_pos h1⟩
      · rw [if_neg h1] at hs ⊢
        by_cases h2 : c = asc '+'
        · exact .inr ⟨h2, if_pos h2⟩
        · rw [if_neg h2] at hs
          exact absurd hs (by decide)
    rcases hc with ⟨rfl, hsign⟩ | ⟨rfl, hsign⟩ <;>
      · rw [unsigned, hsign]
        rfl

/-- Without a sign the first character is that of the number. -/
theorem inputInt_unsigned (spec : Spec) (width : Int) {s : List UInt8} (hs : (signOf s).2 = 0) (back : List UInt8)
    (read : Int) :
    inputInt spec width ⟨back, s, read⟩ = scanned spec (signOf s).1 (readNext ⟨back, s, read⟩).2.read
      (number width spec.base (readNext ⟨back, s, read⟩).1 { (readNext ⟨back, s, read⟩).2 with read := 0 }) := by
  have hnone : inputSign (readNext ⟨back, s, read⟩).1 { (readNext ⟨back, s, read⟩).2 with read := 0 } =
      (false, (readNext ⟨back, s, read⟩).1, { (readNext ⟨back, s, read⟩).2 with read := 0 }) ∧
      (signOf s).1 = false := by
    have h1 : deref s ≠ asc '-' := fun h => by rw [signOf, if_pos h] at hs; exact absurd hs (by decide)
    have h2 : deref s ≠ asc '+' := fun h => by rw [signOf, if_neg h1, if_pos h] at hs; exact absurd hs (by decide)
    refine ⟨?_, by rw [signOf, if_neg h1, if_neg h2]⟩
    rcases s with _ | ⟨c, t⟩
    · rfl
    · rw [deref_cons] at h1 h2
      have hfirst : (readNext ⟨back, c :: t, read⟩).1 = charVal c := rfl
      rw [inputSign, hfirst, if_neg fun h => h1 (charVal_minus.1 h), if_neg fun h => h2 (charVal_plus.1 h)]
  rw [inputInt]
  simp only [hnone.1]
  rw [hnone.2]
  rfl

/-- At the end of the string there is no digit. -/
theorem number_eof (width : Int) (base : Nat) (r : Reader) :
    number width base EOF r = (if base = 0 then 10 else base, ⟨EOF, r, 0, 0, false⟩) := by
  have hbase : inputBase base EOF r = (if base = 0 then 10 else base, EOF, r) := by
    unfold inputBase EOF
    by_cases h0 : base = 0 <;> simp [h0]
  rw [number, hbase]
  simp only [readDigits_done (show (⟨EOF, r, 0, 0, false⟩ : Digits).ch = EOF ∨ _ from .inl rfl)]

theorem inputBase_none {base : Nat} {ch : Int} (h : ¬((base = 0 ∨ base = 16) ∧ ch = 48)) (r : Reader) :
    inputBase base ch r = (if base = 0 then 10 else base, ch, r) := by
  unfold inputBase
  by_cases h0 : base = 0
  · rw [if_pos h0, if_neg fun hch => h ⟨.inl h0, hch⟩, if_pos h0]
  · rw [if_neg h0, if_neg fun hch => h ⟨.inr hch.1, hch.2⟩, if_neg h0]

theorem inputBase_hex {base : Nat} (hbase : base = 0 ∨ base = 16) {x : UInt8} (hx : isX x) (back v : List UInt8)
    (read : Int) :
    inputBase base 48 ⟨back, x :: v, read⟩ = (16, readNext ⟨x :: back, v, read + 1⟩) := by
  have hx255 : x ≠ 255 := fun h => by rw [h] at hx; exact absurd hx (by decide)
  have hnext := readNext_char hx255 back v read
  have hread := charVal_x.2 hx
  rcases hbase with rfl | rfl
  · rw [inputBase, if_pos rfl, if_pos rfl]
    simp only [hnext]
    rw [if_pos hread]
  · rw [inputBase, if_neg (by decide), if_pos ⟨rfl, rfl⟩]
    simp only [hnext]
    rw [if_pos hread]

theorem inputBase_octal {r : Reader} (hx : ¬((readNext r).1 = 120 ∨ (readNext r).1 = 88)) :
    inputBase 0 48 r = (8, readNext r) := by
  rw [inputBase, if_pos rfl, if_pos rfl]
  exact if_neg hx

theorem inputBase_back {r : Reader} (hx : ¬((readNext r).1 = 120 ∨ (readNext r).1 = 88)) :
    inputBase 16 48 r = (16, 48, readBack (readNext r).2) := by
  rw [inputBase, if_neg (by decide), if_pos ⟨rfl, rfl⟩]
  exact if_neg hx

theorem readNext_not_x {u : List UInt8} (h : isX (deref u) = false) (back : List UInt8) (read : Int) :
    ¬((readNext ⟨back, u, read⟩).1 = 120 ∨ (readNext ⟨back, u, read⟩).1 = 88) := by
  rcases u with _ | ⟨x, v⟩
  · intro hx
    rw [readNext_nil, EOF] at hx
    omega
  · rw [deref_cons, Bool.eq_false_iff] at h
    exact fun hx => h (charVal_x.1 hx)

/-- Prefix and digits, where the look-ahead behind a zero of base 16 finds a character. -/
theorem number_eq (width : Int) (base : Nat) {c : UInt8} {u : List UInt8} (hc : c ≠ 255)
    (hmore : base = 16 → c = asc '0' → u.head? ≠ none ∧ u.head? ≠ some 255) (back : List UInt8) (read : Int) :
    number width base (readNext ⟨back, c :: u, read⟩).1 (readNext ⟨back, c :: u, read⟩).2 =
      ((codeBase base (c :: u)).1, readFrom width (codeBase base (c :: u)).1
        ⟨((c :: u).take (codeBase base (c :: u)).2).reverse ++ back, (c :: u).drop (codeBase base (c :: u)).2,
          read + (codeBase base (c :: u)).2⟩ 0 0 false) := by
  -- without a prefix
  have hplain : codeBase base (c :: u) = (if base = 0 then 10 else base, 0) →
      inputBase base (charVal c) ⟨c :: back, u, read + 1⟩ =
        (if base = 0 then 10 else base, charVal c, ⟨c :: back, u, read + 1⟩) →
        number width base (readNext ⟨back, c :: u, read⟩).1 (readNext ⟨back, c :: u, read⟩).2 =
        ((codeBase base (c :: u)).1, readFrom width (codeBase base (c :: u)).1
          ⟨((c :: u).take (codeBase base (c :: u)).2).reverse ++ back, (c :: u).drop (codeBase base (c :: u)).2,
            read + (codeBase base (c :: u)).2⟩ 0 0 false) := by
    intro hcode hnext
    rw [readNext_char hc, hcode, number, hnext]
    simp only [readFrom, List.take_zero, List.reverse_nil, List.nil_append, List.drop_zero, Nat.cast_zero, add_zero,
      readNext_char hc]
  by_cases hzero : (base = 0 ∨ base = 16) ∧ c = asc '0'
  · obtain ⟨hbase, rfl⟩ := hzero
    by_cases hx : isX (deref u)
    · rcases u with _ | ⟨x, v⟩
      · exact absurd hx (by decide)
      · have hcode : codeBase base (asc '0' :: x :: v) = (16, 2) := if_pos ⟨hbase, by simpa [startsHex] using hx⟩
        have hnext := inputBase_hex hbase (show isX x = true from hx) (asc '0' :: back) v (read + 1)
        rw [readNext_char hc, hcode, number, show charVal (asc '0') = 48 from rfl, hnext, Int.add_assoc]
        rfl
    · have hx := Bool.eq_false_iff.2 hx
      have hstart : startsHex (asc '0' :: u) = false := by simpa [startsHex] using hx
      rcases hbase with rfl | rfl
      · have hcode : codeBase 0 (asc '0' :: u) = (8, 1) := by
          rw [codeBase, hstart, if_neg (by simp), if_pos ⟨rfl, rfl⟩]
        rw [readNext_char hc, hcode, number, show charVal (asc '0') = 48 from rfl,
          inputBase_octal (readNext_not_x hx _ _)]
        rfl
      · obtain ⟨hnil, h255⟩ := hmore rfl rfl
        obtain ⟨x, v, rfl⟩ := List.exists_cons_of_ne_nil fun h : u = [] => hnil (by rw [h]; rfl)
        have hx255 : x ≠ 255 := by simpa using h255
        apply hplain
        · rw [codeBase, hstart, if_neg (by simp), if_neg (by simp)]
        · rw [show charVal (asc '0') = 48 from rfl, inputBase_back (readNext_not_x hx _ _), readBack_readNext hx255]
          rfl
  · apply hplain
    · have hstart : ¬((base = 0 ∨ base = 16) ∧ startsHex (c :: u) = true) :=
        fun h => hzero ⟨h.1, (of_decide_eq_true h.2).1⟩
      rw [codeBase, if_neg hstart, if_neg fun h => hzero ⟨.inl h.1, h.2⟩]
    · exact inputBase_none (fun h => hzero ⟨h.1, charVal_zero.1 h.2⟩) _

/-- In base 16 the zero at the end of a string is put back and read again. -/
theorem number_zero_nil {width : Int} (back : List UInt8) {read : Int} (hread : read + 1 < width) (hwidth : 1 < width) :
    number width 16 (readNext ⟨back, [asc '0'], read⟩).1 (readNext ⟨back, [asc '0'], read⟩).2 =
      (16, readFrom width 16 ⟨back, [asc '0'], read⟩ 1 0 false) := by
  have hzero : IsDigitOf 16 (asc '0') := by decide
  have hback := inputBase_back (readNext_not_x (show isX (deref []) = false from rfl) (asc '0' :: back) (read + 1))
  have hnext := @readDigits_next 16 (by decide) width (asc '0') hzero ⟨back, [asc '0'], read⟩ 0 0 false
    (by show read < width; omega)
    (by omega)
  rw [readNext_char (by decide), number, show charVal (asc '0') = 48 from rfl, hback, readNext_nil, readBack,
    show read + 1 - 1 = read by omega]
  exact congrArg (Prod.mk 16) hnext

/-- A byte that reads as the end of the string is put back, but was not counted. -/
theorem number_zero_eof (width : Int) (back v : List UInt8) (read : Int) :
    number width 16 (readNext ⟨back, asc '0' :: 255 :: v, read⟩).1 (readNext ⟨back, asc '0' :: 255 :: v, read⟩).2 =
      (16, readFrom width 16 ⟨back, asc '0' :: 255 :: v, read - 1⟩ 0 0 false) := by
  have hback := inputBase_back (readNext_not_x (show isX (deref (255 :: v)) = false from rfl) (asc '0' :: back)
    (read + 1))
  rw [readNext_char (by decide), number, show charVal (asc '0') = 48 from rfl, hback, readNext_eof, readBack]
  simp only [readFrom, readNext_char (show asc '0' ≠ 255 by decide),
    show read - 1 + 1 = read by omega, show read + 1 - 1 = read by omega]
  rfl

end JACLibc.Strto
