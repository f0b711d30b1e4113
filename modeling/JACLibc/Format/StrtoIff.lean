import JACLibc.Format.StrtoSpec

/-!
# When `strtol` and `strtoul` meet the standard

What the code returns is compared with the reference for every way a string can go on behind its white space and its
sign.
-/

namespace JACLibc.Strto

/-- The specification `__jacl_strto_int` passes on. -/
def intSpec (usig : Bool) (base : Nat) : Spec := { Spec.zero with base := base, length := .l, sign := !usig }

/-- What `__jacl_strto_int` makes of the digits. -/
def outcome (spec : Spec) (neg : Bool) (n : Nat × Digits) : Converted :=
  let x := scanned spec neg 0 n
  if x.found then ⟨x.val, x.reader.back.length, x.erange⟩ else ⟨0, 0, x.erange⟩

/-- What `__jacl_strto_int` makes of the string behind its white space. -/
def converted (usig : Bool) (base : Nat) (r : Reader) : Converted :=
  let n := inputInt (intSpec usig base) INT_MAX r
  if n.found then ⟨n.val, n.reader.back.length, n.erange⟩ else ⟨0, 0, n.erange⟩

theorem strtoInt_eq (usig : Bool) (str : List UInt8) (base : Nat) :
    strtoInt .l usig str base =
      converted usig base (standing (str.takeWhile isWhite).reverse (body str) (str.takeWhile isWhite).length) := by
  have hskip := readSkip_eq [] str 0
  rw [List.append_nil, Int.zero_add] at hskip
  rw [strtoInt, hskip]
  rfl

/-! ### No digits -/

theorem applySign_zero (spec : Spec) (neg : Bool) : applySign spec neg 0 = (0, false) := by
  unfold applySign
  have hnegate : negate 0 = 0 := by decide
  simp [hnegate]

theorem outcome_none (spec : Spec) (neg : Bool) {base b : Nat} (hb : b = 8 ↔ base = 8) (ch : Int) (r : Reader) :
    outcome spec neg (b, ⟨ch, r, 0, 0, false⟩) = if base = 8 then ⟨0, r.back.length, false⟩ else ⟨0, 0, false⟩ := by
  simp only [outcome, scanned, applySign_zero]
  by_cases h : base = 8 <;> simp [h, hb]

/-! ### A run of digits -/

section Run

variable (spec : Spec) (neg : Bool) {base : Nat} (hbase : 0 < base) (hbase36 : base ≤ 36) {ds : List UInt8}
  (hds : ∀ c ∈ ds, digitOf c < base) (hne : ds ≠ []) (back : List UInt8) {read : Int}

include hbase hbase36 hds hne

/-- The digits are read, and a byte behind them that reads as the end of the string. -/
theorem outcome_run {rest : List UInt8} (hrest : ∀ x ∈ rest.head?, ¬digitOf x < base)
    (hread : read + ds.length < INT_MAX) (hlen : (ds.length : Int) < INT_MAX) :
    outcome spec neg (base, readFrom INT_MAX base ⟨back, ds ++ rest, read⟩ 0 0 false) =
      ⟨(applySign spec neg (saturated (horner base 0 ds))).1, back.length + ds.length + if rest.head? = some 255
      then 1 else 0,
        decide (UINTMAX_MAX < horner base 0 ds) || (applySign spec neg (saturated (horner base 0 ds))).2⟩ := by
  have hdigits : ∀ c ∈ ds, IsDigitOf base c := fun c hc => (isDigitOf_iff hbase36).2 (hds c hc)
  have hrun := @readFrom_run base hbase INT_MAX ds rest hdigits back read 0 0 false (.inr hread) (.inr (by omega))
    (Nat.zero_le _)
  have hpos : 0 < ds.length := List.length_pos_iff.2 hne
  have hcount : decide (0 < (0 : Int) + ds.length) = true := decide_eq_true (by omega)
  rw [hrun, readFrom, readDigits_done]
  · rw [outcome, scanned]
    simp only [hcount, Bool.true_or, if_true, Bool.false_or]
    congr 1
    rcases rest with _ | ⟨x, rest⟩
    · simp [readNext, Nat.add_comm]
    · by_cases hx : x = 255
      · simp [hx, readNext_eof]
        omega
      · have heof : charVal x ≠ EOF := fun h => hx (charVal_eof.1 h)
        rw [if_pos ⟨by omega, by rw [readNext_char hx]; exact heof⟩, readBack_readNext hx]
        simp [hx]
        omega
  · rcases rest with _ | ⟨x, rest⟩
    · exact .inl rfl
    · exact .inr fun h => hrest x rfl ((isDigitOf_iff hbase36).1 h)

omit hne in
/-- A run that is too long is not read to its end. -/
theorem outcome_long {rest : List UInt8} (hlow : -1 ≤ read) (hhigh : read ≤ 2)
    (hlong : INT_MAX ≤ read + ds.length ∨ INT_MAX ≤ ds.length) :
    back.length ≤ (outcome spec neg (base, readFrom INT_MAX base ⟨back, ds ++ rest, read⟩ 0 0 false)).endptr ∧
      (outcome spec neg (base, readFrom INT_MAX base ⟨back, ds ++ rest, read⟩ 0 0 false)).endptr < back.length +
      ds.length := by
  have hdigits : ∀ c ∈ ds, IsDigitOf base c := fun c hc => (isDigitOf_iff hbase36).2 (hds c hc)
  have heof : ∀ n (h : n < ds.length), charVal ds[n] ≠ EOF := fun n h => (hdigits _ (List.getElem_mem h)).plain.1
  have hmax : INT_MAX = 2147483647 := rfl
  obtain ⟨n, hn⟩ : ∃ n : Nat, (n : Int) = INT_MAX - 1 - max read 0 := ⟨(INT_MAX - 1 - max read 0).toNat, by omega⟩
  have hlt : n < ds.length := by omega
  have hpos : 0 < n := by omega
  by_cases hr : read = -1
  · subst hr
    have hcount : (0 : Int) < INT_MAX := by omega
    rw [readFrom_count hbase hdigits (Nat.zero_le _) hlt (by omega) (by omega)]
    simp only [outcome, scanned, hcount, decide_true, Bool.true_or, if_true, true_and, heof n hlt, ne_eq,
      not_false_eq_true, readBack, List.length_append, List.length_reverse, List.length_take_of_le hlt.le]
    omega
  · have hcount : (0 : Int) < 0 + n := by omega
    rw [readFrom_width hbase hdigits (Nat.zero_le _) hlt (by omega) (.inr (by omega))]
    simp only [outcome, scanned, hcount, decide_true, Bool.true_or, if_true, true_and, heof n hlt, ne_eq,
      not_false_eq_true, readBack, List.length_append, List.length_reverse, List.length_take_of_le hlt.le]
    omega

end Run

/-! ### Behind the white space -/

theorem signOf_cases (s : List UInt8) : (signOf s).2 = 0 ∨ (signOf s).2 = 1 := by
  unfold signOf
  split_ifs <;> simp

/-- What is read when the number begins. -/
def before (back s : List UInt8) : List UInt8 := (s.take (signOf s).2).reverse ++ back

theorem length_before (back s : List UInt8) : (before back s).length = back.length + (signOf s).2 := by
  have hle : (signOf s).2 ≤ s.length := by
    rcases s with _ | ⟨c, t⟩
    · decide
    · rw [List.length_cons]
      rcases signOf_cases (c :: t) with h | h <;> omega
  rw [before, List.length_append, List.length_reverse, List.length_take_of_le hle]
  omega

variable (usig : Bool) (base : Nat) (back s : List UInt8) (read : Int)

theorem converted_eof (h : (unsigned s).head? = none ∨ (unsigned s).head? = some 255) :
    converted usig base ⟨back, s, read⟩ =
      if base = 8 then ⟨0, back.length + (signOf s).2 + min (unsigned s).length 1, false⟩ else ⟨0, 0, false⟩ := by
  have hnext : ∀ (back : List UInt8) (read : Int), (readNext ⟨back, unsigned s, read⟩).1 = EOF ∧
      (readNext ⟨back, unsigned s, read⟩).2.back.length = back.length + min (unsigned s).length 1 := by
    intro back read
    rcases hu : unsigned s with _ | ⟨c, u⟩
    · exact ⟨rfl, rfl⟩
    · rw [hu] at h
      obtain rfl : c = 255 := by simpa using h
      rw [readNext_eof, List.length_cons]
      exact ⟨rfl, by rw [List.length_cons, Nat.min_eq_right (by omega)]⟩
  have hten : (if base = 0 then 10 else base) = 8 ↔ base = 8 := by
    split <;> omega
  rcases signOf_cases s with hs | hs
  · have hself : unsigned s = s := by rw [unsigned, hs, List.drop_zero]
    have hinput := inputInt_unsigned (intSpec usig base) INT_MAX hs back read
    rw [hself] at hnext ⊢
    rw [(hnext back read).1, number_eof] at hinput
    have hout := outcome_none (intSpec usig base) (signOf s).1 hten EOF
      { (readNext ⟨back, s, read⟩).2 with read := 0 }
    rw [converted, hinput, hs, Nat.add_zero, ← (hnext back read).2, ← hout]
    rfl
  · have hinput := inputInt_signed (intSpec usig base) INT_MAX hs back read
    rw [(hnext _ _).1, number_eof] at hinput
    have hout := outcome_none (intSpec usig base) (signOf s).1 hten EOF
      (readNext ⟨s.take 1 ++ back, unsigned s, 0⟩).2
    have hlen : (s.take 1 ++ back).length = back.length + (signOf s).2 := by
      rw [← length_before, before, hs]
      simp
    rw [(hnext _ _).2, hlen] at hout
    rw [converted, hinput, ← hout]
    rfl

theorem converted_number {c : UInt8} {u : List UInt8} (hu : unsigned s = c :: u) (hc : c ≠ 255) :
    converted usig base ⟨back, s, read⟩ = outcome (intSpec usig base) (signOf s).1
      (number INT_MAX base (readNext ⟨before back s, unsigned s, ((signOf s).2 : Int) - 1⟩).1
        (readNext ⟨before back s, unsigned s, ((signOf s).2 : Int) - 1⟩).2) := by
  rcases signOf_cases s with hs | hs
  · have hself : unsigned s = s := by rw [unsigned, hs, List.drop_zero]
    have hbefore : before back s = back := by rw [before, hs]; rfl
    rw [hself] at hu
    have hinput := inputInt_unsigned (intSpec usig base) INT_MAX hs back read
    have hnext : { (readNext ⟨back, c :: u, read⟩).2 with read := 0 } = (readNext ⟨back, c :: u, -1⟩).2 := by
      rw [readNext_char hc, readNext_char hc]
      rfl
    have hsame : (readNext ⟨back, c :: u, read⟩).1 = (readNext ⟨back, c :: u, -1⟩).1 := rfl
    rw [converted, hinput, hs, hself, hu, hnext, hsame, ← hu, hbefore]
    rfl
  · have hbefore : before back s = s.take 1 ++ back := by
      rw [before, hs]
      rcases s with _ | ⟨x, s⟩ <;> rfl
    have hinput := inputInt_signed (intSpec usig base) INT_MAX hs back read
    rw [converted, hinput, hs, hbefore]
    rfl

/-! ### The digits of the code and those of the standard -/

/-- The digits that the code reads behind its prefix. -/
def codeDigits (base : Nat) (t : List UInt8) : List UInt8 :=
  (t.drop (codeBase base t).2).takeWhile fun c => digitOf c < (codeBase base t).1

/-- A zero that stands for base 8 is a digit of the standard and a prefix of the code. -/
def Octal (base : Nat) (t : List UInt8) : Prop :=
  base = 0 ∧ codeBase base t = (8, 1) ∧ baseOf base t = (8, 0) ∧ digitsOf base t = asc '0' :: codeDigits base t

theorem deref_eq {t : List UInt8} {c : UInt8} (hc : c ≠ 0) (h : deref t = c) : t = c :: t.tail := by
  rcases t with _ | ⟨x, t⟩
  · exact absurd h.symm hc
  · rw [deref_cons] at h
    rw [h, List.tail_cons]

theorem startsHex_eq {t : List UInt8} (h : startsHex t = true) : ∃ x v, t = asc '0' :: x :: v ∧ isX x := by
  obtain ⟨h0, hx⟩ := of_decide_eq_true h
  have ht := deref_eq (by decide) h0
  rcases htail : t.tail with _ | ⟨x, v⟩
  · rw [htail] at hx
    exact absurd hx (by decide)
  · rw [htail] at hx ht
    exact ⟨x, v, ht, hx⟩

variable {usig base back s read} {t : List UInt8}

theorem codeBase_cases (hlone : ¬LoneX base t) :
    (codeBase base t = baseOf base t ∧ codeDigits base t = digitsOf base t) ∨ Octal base t := by
  have hsame : codeBase base t = baseOf base t → codeDigits base t = digitsOf base t := by
    intro h
    rw [codeDigits, digitsOf, h]
  by_cases hhex : (base = 0 ∨ base = 16) ∧ startsHex t
  · have hahead : hexAhead t = true := by
      by_contra h
      exact hlone ⟨hhex.1, hhex.2, h⟩
    have heq : codeBase base t = baseOf base t := by rw [codeBase, baseOf, if_pos hhex, if_pos ⟨hhex.1, hahead⟩]
    exact .inl ⟨heq, hsame heq⟩
  · have hahead : ¬((base = 0 ∨ base = 16) ∧ hexAhead t) := fun h => hhex ⟨h.1, (of_decide_eq_true h.2).1⟩
    by_cases h8 : base = 0 ∧ deref t = asc '0'
    · have hcode : codeBase base t = (8, 1) := by rw [codeBase, if_neg hhex, if_pos h8]
      have hbase : baseOf base t = (8, 0) := by rw [baseOf, if_neg hahead, if_neg (by simp [h8.1]), if_pos h8.2]
      refine .inr ⟨h8.1, hcode, hbase, ?_⟩
      rw [codeDigits, digitsOf, hcode, hbase, deref_eq (by decide) h8.2]
      rfl
    · have heq : codeBase base t = baseOf base t := by
        rw [codeBase, baseOf, if_neg hhex, if_neg hahead, if_neg h8]
        by_cases h0 : base = 0
        · rw [if_pos h0, if_neg (by simp [h0]), if_neg fun h => h8 ⟨h0, h⟩]
        · rw [if_neg h0, if_pos h0]
      exact .inl ⟨heq, hsame heq⟩

theorem codeBase_le (base : Nat) (t : List UInt8) : (codeBase base t).2 ≤ t.length := by
  unfold codeBase
  split
  · rename_i h
    obtain ⟨x, v, rfl, -⟩ := startsHex_eq h.2
    simp
  · split
    · rename_i h
      rw [deref_eq (by decide) h.2]
      simp
    · exact Nat.zero_le _

theorem codeBase_bounds (hbase : base = 0 ∨ 2 ≤ base ∧ base ≤ 36) (t : List UInt8) :
    0 < (codeBase base t).1 ∧ (codeBase base t).1 ≤ 36 ∧ (codeBase base t).2 ≤ 2 := by
  unfold codeBase
  split_ifs <;> simp only <;> omega

theorem digitOf_codeDigits (base : Nat) (t : List UInt8) :
    ∀ c ∈ codeDigits base t, digitOf c < (codeBase base t).1 := by
  intro c hc
  unfold codeDigits at hc
  simpa using List.mem_takeWhile_imp hc

theorem drop_codeBase (hlone : ¬LoneX base t) :
    t.drop (codeBase base t).2 = codeDigits base t ++ afterDigits base t := by
  rcases codeBase_cases hlone with ⟨hcode, hdigits⟩ | ⟨-, hcode, hbase, hdigits⟩
  · rw [hdigits, hcode]
    exact List.takeWhile_append_dropWhile.symm
  · have hsplit : digitsOf base t ++ afterDigits base t = t.drop 0 := by
      rw [digitsOf, afterDigits, hbase]
      exact List.takeWhile_append_dropWhile
    rw [hdigits, List.drop_zero] at hsplit
    have htail : t.drop 1 = codeDigits base t ++ afterDigits base t := by
      conv_lhs => rw [← hsplit]
      rfl
    rw [hcode, htail]

theorem afterDigits_head (base : Nat) (t : List UInt8) :
    ∀ x ∈ (afterDigits base t).head?, ¬digitOf x < (baseOf base t).1 := by
  intro x hx
  have hnot := List.head?_dropWhile_not (fun c => decide (digitOf c < (baseOf base t).1)) (t.drop (baseOf base t).2)
  rw [show (t.drop (baseOf base t).2).dropWhile _ = afterDigits base t from rfl, Option.mem_def.1 hx] at hnot
  exact of_decide_eq_false (by simpa using hnot)

/-- The value of the digits that the code reads. -/
theorem horner_codeDigits (hbase : base = 0 ∨ 2 ≤ base ∧ base ≤ 36) (hlone : ¬LoneX base t) :
    horner (codeBase base t).1 0 (codeDigits base t) = valueOf base t := by
  rw [horner_eq (codeBase_bounds hbase t).2.1 (digitOf_codeDigits base t), valueOf]
  rcases codeBase_cases hlone with ⟨hcode, hdigits⟩ | ⟨-, hcode, hbase, hdigits⟩
  · rw [hcode, hdigits]
  · rw [hcode, hbase, hdigits]
    rfl

/-! ### What is returned -/

/-- Where the digits end, from the white space on. -/
def size (base : Nat) (s : List UInt8) : Nat :=
  (signOf s).2 + ((baseOf base (unsigned s)).2 + (digitsOf base (unsigned s)).length)

theorem size_eq (hlone : ¬LoneX base (unsigned s)) :
    size base s = (signOf s).2 + ((codeBase base (unsigned s)).2 + (codeDigits base (unsigned s)).length) := by
  rw [size]
  rcases codeBase_cases hlone with ⟨hcode, hdigits⟩ | ⟨-, hcode, hbase, hdigits⟩
  · rw [hcode, hdigits]
  · rw [hcode, hbase, hdigits, List.length_cons]
    omega

/-- What is read when the digits begin. -/
theorem length_begun (base : Nat) (back s : List UInt8) :
    (((unsigned s).take (codeBase base (unsigned s)).2).reverse ++ before back s).length =
      back.length + ((signOf s).2 + (codeBase base (unsigned s)).2) := by
  rw [List.length_append, List.length_reverse, List.length_take_of_le (codeBase_le _ _), length_before]
  omega

/-- The digits are read behind the prefix. -/
theorem converted_digits {c : UInt8} {u : List UInt8} (hu : unsigned s = c :: u) (hc : c ≠ 255)
    (hlone : ¬LoneX base (unsigned s)) (hmore : base = 16 → c = asc '0' → u.head? ≠ none ∧ u.head? ≠ some 255) :
    converted usig base ⟨back, s, read⟩ = outcome (intSpec usig base) (signOf s).1 ((codeBase base (unsigned s)).1,
      readFrom INT_MAX (codeBase base (unsigned s)).1
        ⟨((unsigned s).take (codeBase base (unsigned s)).2).reverse ++ before back s,
          codeDigits base (unsigned s) ++ afterDigits base (unsigned s),
          (signOf s).2 - 1 + (codeBase base (unsigned s)).2⟩ 0 0 false) := by
  rw [converted_number usig base back s read hu hc, ← drop_codeBase hlone, hu]
  exact congrArg _ (number_eq INT_MAX base hc hmore (before back s) ((signOf s).2 - 1))

/-- The code gives a lone `0x` up. -/
theorem converted_lone (hlone : LoneX base (unsigned s)) : converted usig base ⟨back, s, read⟩ = ⟨0, 0, false⟩ := by
  obtain ⟨h16, hstart, hahead⟩ := hlone
  obtain ⟨x, v, ht, hx⟩ := startsHex_eq hstart
  have hx255 : x ≠ 255 := fun h => by rw [h] at hx; exact absurd hx (by decide)
  have hcode : codeBase base (asc '0' :: x :: v) = (16, 2) := if_pos ⟨h16, by rw [← ht]; exact hstart⟩
  have hdigit : ¬digitOf (deref v) < 16 := by
    intro h
    apply hahead
    rw [ht, hexAhead, decide_eq_true_eq]
    exact ⟨by rw [← ht]; exact hstart, h⟩
  rw [converted_number usig base back s read ht (by decide), ht,
    number_eq INT_MAX base (by decide) (fun _ _ => ⟨by simp, by simpa using hx255⟩), hcode]
  simp only [readFrom]
  rw [readDigits_done]
  · rw [outcome_none (intSpec usig base) _ (show 16 = 8 ↔ 16 = 8 from Iff.rfl)]
    rfl
  · rcases v with _ | ⟨y, v⟩
    · exact .inl rfl
    · exact .inr fun h => hdigit ((isDigitOf_iff (by decide)).1 h)

/-- A zero is a digit in every base. -/
theorem digitsOf_zero (h : deref t = asc '0') : digitsOf base t ≠ [] := by
  have ht := deref_eq (by decide) h
  have hzero : digitOf (asc '0') = 0 := by decide
  unfold digitsOf baseOf
  split
  · rename_i hhex
    obtain ⟨x, v, htx, -⟩ := startsHex_eq (of_decide_eq_true hhex.2).1
    have hdigit := (of_decide_eq_true hhex.2).2
    rw [htx] at hdigit ⊢
    rcases v with _ | ⟨y, v⟩
    · exact absurd hdigit (show ¬digitOf (deref []) < 16 by decide)
    · rw [show (asc '0' :: x :: y :: v).drop (16, 2).2 = y :: v from rfl,
        List.takeWhile_cons_of_pos (by simpa using hdigit)]
      exact List.cons_ne_nil _ _
  · rw [List.drop_zero, ht, List.takeWhile_cons_of_pos]
    · exact List.cons_ne_nil _ _
    · simp only [hzero, decide_eq_true_eq]
      split_ifs <;> omega

theorem converted_none (hbase : base = 0 ∨ 2 ≤ base ∧ base ≤ 36) (hnone : digitsOf base (unsigned s) = []) :
    converted usig base ⟨back, s, read⟩ =
      if base = 8 then ⟨0, back.length + (signOf s).2 + min (unsigned s).length 1, false⟩ else ⟨0, 0, false⟩ := by
  have hzero : deref (unsigned s) ≠ asc '0' := fun h => digitsOf_zero h hnone
  have hstart : startsHex (unsigned s) = false := by simp [startsHex, hzero]
  have hcode : codeBase base (unsigned s) = (if base = 0 then 10 else base, 0) := by
    rw [codeBase, if_neg (by simp [hstart]), if_neg fun h => hzero h.2]
  have height : (if base = 0 then 10 else base) = 8 ↔ base = 8 := by
    split <;> omega
  rcases hu : unsigned s with _ | ⟨c, u⟩
  · rw [converted_eof usig base back s read (by simp [hu]), hu]
  · by_cases hc : c = 255
    · rw [converted_eof usig base back s read (by simp [hu, hc]), hu]
    · rw [hu] at hcode hzero
      have hdigit : ¬digitOf c < (if base = 0 then 10 else base) := by
        intro h
        have hbaseOf : baseOf base (c :: u) = (if base = 0 then 10 else base, 0) := by
          rw [← hu, baseOf, if_neg (by simp [hexAhead, hstart]), hu, if_neg hzero]
          by_cases h0 : base = 0 <;> simp [h0]
        rw [hu, digitsOf, hbaseOf] at hnone
        simp only [List.drop_zero] at hnone
        rw [List.takeWhile_cons_of_pos (by simpa using h)] at hnone
        exact List.cons_ne_nil _ _ hnone
      rw [converted_number usig base back s read hu hc, hu,
        number_eq INT_MAX base hc (fun _ h => absurd h (by simpa using hzero)), hcode]
      simp only [readFrom, List.take_zero, List.reverse_nil, List.nil_append, List.drop_zero, Nat.cast_zero, add_zero]
      rw [readDigits_done]
      · rw [outcome_none (intSpec usig base) _ height, readNext_char hc, List.length_cons, length_before,
          List.length_cons, Nat.min_eq_right (by omega)]
      · exact .inr fun h => hdigit ((isDigitOf_iff (by split <;> omega)).1 h)

theorem not_digit_after (base : Nat) (hlone : ¬LoneX base t) :
    ∀ x ∈ (afterDigits base t).head?, ¬digitOf x < (codeBase base t).1 := by
  have hsame : (codeBase base t).1 = (baseOf base t).1 := by
    rcases codeBase_cases hlone with ⟨hcode, -⟩ | ⟨-, hcode, hbase, -⟩
    · rw [hcode]
    · rw [hcode, hbase]
  rw [hsame]
  exact afterDigits_head base t

/-- Behind a zero that stands for base 8 the next character is gone over. -/
theorem converted_octal (h8 : Octal base (unsigned s)) (hnone : codeDigits base (unsigned s) = [])
    (hlone : ¬LoneX base (unsigned s)) :
    converted usig base ⟨back, s, read⟩ = ⟨0, back.length + size base s +
    min (afterDigits base (unsigned s)).length 1, false⟩ := by
  have hnot := not_digit_after base hlone
  have hlen := length_begun base back s
  have hsize := size_eq hlone
  obtain ⟨h0, hcode, hbaseOf, hdigits⟩ := h8
  have hsplit : unsigned s = asc '0' :: afterDigits base (unsigned s) := by
    have h : digitsOf base (unsigned s) ++ afterDigits base (unsigned s) = unsigned s := by
      rw [digitsOf, afterDigits, hbaseOf]
      exact List.takeWhile_append_dropWhile
    rw [hdigits, hnone] at h
    exact h.symm
  rw [converted_digits hsplit (by decide) hlone (fun h => by omega), hnone, List.nil_append]
  rw [hcode] at hnot hlen hsize ⊢
  rw [hnone] at hsize
  simp only [readFrom]
  rw [readDigits_done]
  · rw [outcome_none _ _ (show 8 = 8 ↔ 8 = 8 from Iff.rfl), if_pos rfl]
    congr 1
    rcases hafter : afterDigits base (unsigned s) with _ | ⟨x, v⟩
    · rw [readNext_nil, hlen, hsize]
      rfl
    · have hback : (readNext ⟨((unsigned s).take 1).reverse ++ before back s, x :: v,
        ((signOf s).2 : Int) - 1 + (1 : Nat)⟩).2.back =
          x :: (((unsigned s).take 1).reverse ++ before back s) := rfl
      rw [hback, List.length_cons, hlen, hsize, List.length_cons, Nat.min_eq_right (by omega)]
      rfl
  · rcases hafter : afterDigits base (unsigned s) with _ | ⟨x, v⟩
    · exact .inl rfl
    · rw [hafter] at hnot
      exact .inr fun h => hnot x rfl ((isDigitOf_iff (by decide)).1 h)

/-- In base 16 the look-ahead behind a zero finds no character. -/
def ZeroEnd (base : Nat) (t : List UInt8) : Prop :=
  base = 16 ∧ deref t = asc '0' ∧ (t.tail.head? = none ∨ t.tail.head? = some 255)

theorem zeroEnd_digits (h : ZeroEnd base t) : codeBase base t = (16, 0) ∧ baseOf base t = (16, 0) ∧
    digitsOf base t = [asc '0'] ∧ afterDigits base t = t.tail ∧ valueOf base t = 0 := by
  obtain ⟨rfl, hzero, hnext⟩ := h
  have ht := deref_eq (by decide) hzero
  have hx : isX (deref t.tail) = false ∧ ¬digitOf (deref t.tail) < 16 := by
    rcases htail : t.tail with _ | ⟨x, v⟩
    · decide
    · rw [htail] at hnext
      obtain rfl : x = 255 := by simpa using hnext
      rw [deref_cons]
      decide
  have hstart : startsHex t = false := by simp [startsHex, hx.1]
  have hbaseOf : baseOf 16 t = (16, 0) := by rw [baseOf, if_neg (by simp [hexAhead, hstart]), if_pos (by decide)]
  have hstop : t.tail.takeWhile (fun c => digitOf c < 16) = [] ∧ t.tail.dropWhile (fun c => digitOf c < 16) =
    t.tail := by
    rcases htail : t.tail with _ | ⟨x, v⟩
    · exact ⟨rfl, rfl⟩
    · rw [htail] at hx
      exact ⟨List.takeWhile_cons_of_neg (by simpa using hx.2), List.dropWhile_cons_of_neg (by simpa using hx.2)⟩
  have hdigits : digitsOf 16 t = [asc '0'] := by
    rw [digitsOf, hbaseOf, List.drop_zero, ht, List.takeWhile_cons_of_pos (by decide), hstop.1]
  refine ⟨?_, hbaseOf, hdigits, ?_, ?_⟩
  · rw [codeBase, if_neg (by simp [hstart]), if_neg (by simp), if_neg (by decide)]
  · rw [afterDigits, hbaseOf, List.drop_zero, ht, List.dropWhile_cons_of_pos (by decide), hstop.2, List.tail_cons]
  · rw [valueOf, hdigits, hbaseOf]
    rfl

theorem converted_zeroEnd (h : ZeroEnd base (unsigned s)) : converted usig base ⟨back, s, read⟩ =
    ⟨0, back.length + size base s + if (afterDigits base (unsigned s)).head? = some 255 then 1 else 0, false⟩ := by
  obtain ⟨-, hbaseOf, hdigits, hafter, -⟩ := zeroEnd_digits h
  obtain ⟨rfl, hzero, hnext⟩ := h
  have ht := deref_eq (by decide) hzero
  have hsize : size 16 s = (signOf s).2 + 1 := by rw [size, hbaseOf, hdigits]; rfl
  have hlen := length_before back s
  have hsign := signOf_cases s
  have hmax : INT_MAX = 2147483647 := rfl
  have hzeroDigit : ∀ x ∈ [asc '0'], IsDigitOf 16 x := by decide +kernel
  have hzero16 : ∀ c ∈ [asc '0'], digitOf c < 16 := by decide +kernel
  rw [hafter, hsize, converted_number usig 16 back s read ht (by decide)]
  rcases htail : (unsigned s).tail with _ | ⟨x, v⟩
  · rw [htail] at ht
    have hrun := @readFrom_run 16 (by decide) INT_MAX [asc '0'] [] hzeroDigit (before back s) ((signOf s).2 - 1) 1 0
      false
      (.inr (by simp; omega)) (.inr (by simp; omega)) (Nat.zero_le _)
    rw [List.append_nil] at hrun
    rw [ht, number_zero_nil (before back s) (by omega) (by omega), hrun, readFrom, readDigits_done (.inl rfl)]
    simp [outcome, scanned, readNext_nil, horner, saturated, show digitVal (charVal (asc '0')) =
      0 by decide, applySign_zero, hlen]
    omega
  · rw [htail] at ht hnext
    obtain rfl : x = 255 := by simpa using hnext
    have hrun := @outcome_run (intSpec usig 16) (signOf s).1 16 (by decide) (by decide) [asc '0'] hzero16
      (List.cons_ne_nil _ _)
      (before back s) ((signOf s).2 - 1 - 1) (255 :: v) (by intro y hy; obtain rfl := Option.some.inj hy; decide)
        (by simp; omega)
      (by simp; omega)
    rw [ht, number_zero_eof, show asc '0' :: 255 :: v = [asc '0'] ++ 255 :: v from rfl, hrun]
    simp [horner, saturated, show digitVal (charVal (asc '0')) = 0 by decide, applySign_zero, hlen]
    omega

/-- The character behind a zero of base 16 is no end of the string. -/
theorem more_of_not_zeroEnd {c : UInt8} {u : List UInt8} (h : ¬ZeroEnd base (c :: u)) :
    base = 16 → c = asc '0' → u.head? ≠ none ∧ u.head? ≠ some 255 :=
  fun h16 hc => ⟨fun hnone => h ⟨h16, hc, .inl hnone⟩, fun h255 => h ⟨h16, hc, .inr h255⟩⟩

theorem exists_digit (hbase : base = 0 ∨ 2 ≤ base ∧ base ≤ 36) (hsome : digitsOf base t ≠ []) :
    ∃ c u, t = c :: u ∧ c ≠ 255 := by
  rcases t with _ | ⟨c, u⟩
  · exact absurd (by rw [digitsOf, List.drop_nil]; rfl) hsome
  · refine ⟨c, u, rfl, fun hc => hsome ?_⟩
    subst hc
    have hdigit : digitOf 255 = 36 := by decide
    have hbaseOf : baseOf base (255 :: u) = (if base ≠ 0 then base else 10, 0) := by
      have hzero : deref (255 :: u) ≠ asc '0' := by rw [deref_cons]; decide
      rw [baseOf, if_neg fun h => hzero (of_decide_eq_true (of_decide_eq_true h.2).1).1, if_neg hzero]
    rw [digitsOf, hbaseOf, List.drop_zero, List.takeWhile_cons_of_neg]
    simp only [hdigit, decide_eq_true_eq]
    split <;> omega

theorem short_iff : Short base s ↔ (size base s : Int) < INT_MAX ∨
    (size base s : Int) = INT_MAX ∧ ((signOf s).2 = 1 ∨ (codeBase base (unsigned s)).2 ≠ 0) := Iff.rfl

/-- A number that is not too long is read with its value. -/
theorem converted_run (hbase : base = 0 ∨ 2 ≤ base ∧ base ≤ 36) (hsome : digitsOf base (unsigned s) ≠ [])
    (hlone : ¬LoneX base (unsigned s)) (hover : codeDigits base (unsigned s) = [] → afterDigits base (unsigned s) = [])
    (hshort : Short base s) : converted usig base ⟨back, s, read⟩ =
      ⟨(applySign (intSpec usig base) (signOf s).1 (saturated (valueOf base (unsigned s)))).1,
        back.length + size base s + if (afterDigits base (unsigned s)).head? = some 255 then 1 else 0,
        decide (UINTMAX_MAX < valueOf base (unsigned s)) ||
          (applySign (intSpec usig base) (signOf s).1 (saturated (valueOf base (unsigned s)))).2⟩ := by
  by_cases hend : ZeroEnd base (unsigned s)
  · rw [converted_zeroEnd hend, (zeroEnd_digits hend).2.2.2.2, show saturated 0 = 0 from rfl, applySign_zero]
    rfl
  · by_cases hcode : codeDigits base (unsigned s) = []
    · rcases codeBase_cases hlone with ⟨-, hdigits⟩ | h8
      · exact absurd (hdigits ▸ hcode) hsome
      · have hvalue : valueOf base (unsigned s) = 0 := by
          rw [← horner_codeDigits hbase hlone, hcode]
          rfl
        rw [converted_octal h8 hcode hlone, hover hcode, hvalue, show saturated 0 = 0 from rfl, applySign_zero]
        rfl
    · obtain ⟨c, u, hu, hc⟩ := exists_digit hbase hsome
      have hbounds := codeBase_bounds hbase (unsigned s)
      have hsize := size_eq hlone
      rw [converted_digits hu hc hlone (more_of_not_zeroEnd (hu ▸ hend)), outcome_run _ _ hbounds.1 hbounds.2.1
        (digitOf_codeDigits base (unsigned s)) hcode _ (not_digit_after base hlone), horner_codeDigits hbase hlone,
          length_begun, hsize]
      · congr 1
        omega
      · rw [short_iff] at hshort
        omega
      · have := signOf_cases s
        rw [short_iff] at hshort
        omega

theorem converted_long (hbase : base = 0 ∨ 2 ≤ base ∧ base ≤ 36) (hsome : digitsOf base (unsigned s) ≠ [])
    (hlone : ¬LoneX base (unsigned s)) (hlong : ¬Short base s) :
    back.length ≤ (converted usig base ⟨back, s, read⟩).endptr ∧
      (converted usig base ⟨back, s, read⟩).endptr < back.length + size base s := by
  have hmax : INT_MAX = 2147483647 := rfl
  have hsign := signOf_cases s
  rw [short_iff] at hlong
  have hend : ¬ZeroEnd base (unsigned s) := by
    intro h
    obtain ⟨-, hbaseOf, hdigits, -, -⟩ := zeroEnd_digits h
    have : size base s = (signOf s).2 + 1 := by rw [size, hbaseOf, hdigits]; rfl
    omega
  obtain ⟨c, u, hu, hc⟩ := exists_digit hbase hsome
  have hbounds := codeBase_bounds hbase (unsigned s)
  have hsize := size_eq hlone
  have hout := @outcome_long (intSpec usig base) (signOf s).1 (codeBase base (unsigned s)).1 hbounds.1 hbounds.2.1
    (codeDigits base (unsigned s)) (digitOf_codeDigits base (unsigned s))
    (((unsigned s).take (codeBase base (unsigned s)).2).reverse ++ before back s)
    ((signOf s).2 - 1 + (codeBase base (unsigned s)).2) (afterDigits base (unsigned s)) (by omega) (by omega) (by omega)
  rw [length_begun] at hout
  rw [converted_digits hu hc hlone (more_of_not_zeroEnd (hu ▸ hend))]
  omega

/-! ### The claim of the standard -/

theorem clamp_iff (usig neg : Bool) (base v : Nat) :
    ((applySign (intSpec usig base) neg (saturated v)).1,
        decide (UINTMAX_MAX < v) || (applySign (intSpec usig base) neg (saturated v)).2) = clamp usig neg v ↔
      InRange usig neg base v := by
  have hmax : UINTMAX_MAX = 18446744073709551615 := rfl
  have hsat : saturated v = v ∧ v ≤ UINTMAX_MAX ∨ saturated v = UINTMAX_MAX ∧ UINTMAX_MAX < v := by
    unfold saturated
    omega
  have hsign : (intSpec usig base).sign = !usig := rfl
  have hbits : 2 ^ ((intSpec usig base).length.bits - 1) = 2 ^ 63 := rfl
  have hbase : (intSpec usig base).base = base := rfl
  unfold applySign clamp InRange negate
  rw [hsign, hbits, hbase]
  generalize saturated v = w at hsat ⊢
  by_cases hten : base = 0 ∨ base = 10
  · have hlimits : base = 10 ∨ base = 0 := hten.symm
    have hrange : ∀ p : Prop, base = 0 ∨ base = 10 ∨ p := fun p => hten.imp_right .inl
    cases usig <;> cases neg <;>
      simp only [Bool.not_true, Bool.not_false, Bool.false_eq_true, not_true, not_false_eq_true, true_and, false_and,
        if_true, if_false, hlimits, hrange, and_true, forall_const, false_implies, iff_true] <;>
      split_ifs <;> simp only [Prod.mk.injEq, Bool.or_false, Bool.or_true, decide_eq_false_iff_not, decide_eq_true_eq,
        and_true] <;> omega
  · have hlimits : ¬(base = 10 ∨ base = 0) := fun h => hten h.symm
    have hrange : ∀ p : Prop, (base = 0 ∨ base = 10 ∨ p) = p := fun p => by
      rw [← or_assoc]
      simp [hten]
    cases usig <;> cases neg <;>
      simp only [Bool.not_true, Bool.not_false, Bool.false_eq_true, not_true, not_false_eq_true, true_and, false_and,
        if_true, if_false, hlimits, hrange, and_false, forall_const, false_implies, iff_true] <;>
      split_ifs <;> simp only [Prod.mk.injEq, Bool.or_false, decide_eq_false_iff_not, decide_eq_true_eq] <;> omega

/-- Where the code takes something for a number, it does not go back behind it. -/
theorem starts_endptr (hbase : base = 0 ∨ 2 ≤ base ∧ base ≤ 36) (h : Starts base (unsigned s)) :
    back.length ≤ (converted usig base ⟨back, s, read⟩).endptr := by
  by_cases hnone : digitsOf base (unsigned s) = []
  · have h8 : base = 8 := h.resolve_right fun h => h.1 hnone
    rw [converted_none hbase hnone, if_pos h8]
    simp only
    omega
  · have hlone : ¬LoneX base (unsigned s) := by
      rcases h with h8 | h
      · exact fun h => by have := h.1; omega
      · exact h.2
    by_cases hcode : codeDigits base (unsigned s) = []
    · have h8 : Octal base (unsigned s) := (codeBase_cases hlone).resolve_left fun h => hnone (h.2 ▸ hcode)
      rw [converted_octal h8 hcode hlone]
      simp only
      omega
    · by_cases hshort : Short base s
      · rw [converted_run hbase hnone hlone (fun h => absurd h hcode) hshort]
        simp only
        omega
      · exact (converted_long hbase hnone hlone hshort).1

theorem not_starts (hbase : base = 0 ∨ 2 ≤ base ∧ base ≤ 36) (h : ¬Starts base (unsigned s)) :
    converted usig base ⟨back, s, read⟩ = ⟨0, 0, false⟩ := by
  rw [Starts, not_or, not_and, not_not] at h
  by_cases hnone : digitsOf base (unsigned s) = []
  · rw [converted_none hbase hnone, if_neg h.1]
  · exact converted_lone (h.2 hnone)

/-- A single zero of base 0 that is no prefix stands for base 8. -/
theorem octal_of_zero (h0 : base = 0) (hlone : ¬LoneX base t) (hdigits : digitsOf base t = [asc '0'])
    (hpre : (baseOf base t).2 = 0) :
    Octal base t := by
  refine (codeBase_cases hlone).resolve_left ?_
  rintro ⟨hcode, -⟩
  have hzero : deref t = asc '0' := by
    rw [digitsOf, hpre, List.drop_zero] at hdigits
    rcases t with _ | ⟨c, u⟩
    · cases hdigits
    · rw [List.takeWhile_cons] at hdigits
      split at hdigits
      · exact (List.cons.inj hdigits).1
      · cases hdigits
  rw [← hcode, codeBase, h0] at hpre
  split at hpre
  · cases hpre
  · rw [if_pos ⟨rfl, hzero⟩] at hpre
    cases hpre

/-- The reference with its parts named. -/
theorem reference_eq (usig : Bool) (str : List UInt8) (base : Nat) : reference usig str base =
    if digitsOf base (unsigned (body str)) = [] then ⟨0, 0, false⟩
    else ⟨(clamp usig (signOf (body str)).1 (valueOf base (unsigned (body str)))).1,
      (str.takeWhile isWhite).length + size base (body str),
      (clamp usig (signOf (body str)).1 (valueOf base (unsigned (body str)))).2⟩ := rfl

theorem length_unsigned (s : List UInt8) : s.length = (signOf s).2 + (unsigned s).length := by
  have hle := length_before [] s
  rw [before, List.append_nil, List.length_reverse, List.length_nil, Nat.zero_add] at hle
  rw [unsigned, List.length_drop]
  rw [List.length_take] at hle
  omega

theorem strtoInt_iff (usig : Bool) (str : List UInt8) {base : Nat} (hbase : base = 0 ∨ 2 ≤ base ∧ base ≤ 36) :
    strtoInt .l usig str base = reference usig str base ↔ Fits usig str base := by
  rw [strtoInt_eq, reference_eq]
  unfold Fits standing
  simp only
  by_cases h255 : (body str).head? = some 255
  · rw [if_pos h255, if_pos h255]
    obtain ⟨u, hu⟩ : ∃ u, body str = 255 :: u := by
      rcases hb : body str with _ | ⟨c, u⟩
      · rw [hb] at h255
        cases h255
      · rw [hb] at h255
        exact ⟨u, by rw [Option.some.inj h255]⟩
    have hsign : unsigned (body str) = 255 :: u := by
      rw [hu]
      rfl
    have hnone : digitsOf base (unsigned (body str)) = [] := by
      by_contra h
      obtain ⟨c, u', hc, h255⟩ := exists_digit hbase h
      rw [hsign] at hc
      exact h255 (List.cons.inj hc).1.symm
    rw [if_pos hnone]
    constructor
    · intro h hstarts
      have hend := @starts_endptr usig base (255 :: (str.takeWhile isWhite).reverse) (body str).tail
        (str.takeWhile isWhite).length hbase
        hstarts
      rw [h, List.length_cons] at hend
      exact absurd hend (by simp only; omega)
    · exact fun h => not_starts hbase h
  · rw [if_neg h255, if_neg h255]
    by_cases hnone : digitsOf base (unsigned (body str)) = []
    · rw [if_pos hnone, if_pos hnone, converted_none hbase hnone]
      have hlen : str.length = (str.takeWhile isWhite).length + (body str).length := by
        rw [body, ← List.length_append, List.takeWhile_append_dropWhile]
      have hbody := length_unsigned (body str)
      by_cases h8 : base = 8
      · rw [if_pos h8, Converted.mk.injEq, List.length_reverse]
        constructor
        · rintro ⟨-, hzero, -⟩ -
          exact List.length_eq_zero_iff.1 (by omega)
        · intro h
          have := List.length_eq_zero_iff.2 (h h8)
          exact ⟨rfl, by omega, rfl⟩
      · rw [if_neg h8]
        exact ⟨fun _ h => absurd h h8, fun _ => rfl⟩
    · rw [if_neg hnone, if_neg hnone]
      have hpos : 0 < size base (body str) := by
        have := List.length_pos_iff.2 hnone
        rw [size]
        omega
      by_cases hlone : LoneX base (unsigned (body str))
      · rw [converted_lone hlone, Converted.mk.injEq]
        exact ⟨fun h => absurd h.2.1 (by omega), fun h => absurd hlone h.1⟩
      · by_cases hover : codeDigits base (unsigned (body str)) = [] ∧ afterDigits base (unsigned (body str)) ≠ []
        · have h8 : Octal base (unsigned (body str)) := (codeBase_cases hlone).resolve_left fun h =>
            hnone (h.2 ▸ hover.1)
          have hafter := List.length_pos_iff.2 hover.2
          rw [converted_octal h8 hover.1 hlone, Converted.mk.injEq, List.length_reverse]
          constructor
          · exact fun h => absurd h.2.1 (by omega)
          · intro h
            exact absurd (h.2.1 h8.1 (by rw [h8.2.2.2, hover.1]) (by rw [h8.2.2.1])) hover.2
        · have hover' : codeDigits base (unsigned (body str)) = [] → afterDigits base (unsigned (body str)) = [] :=
            fun h => by_contra fun hne => hover ⟨h, hne⟩
          by_cases hshort : Short base (body str)
          · rw [converted_run hbase hnone hlone hover' hshort, Converted.mk.injEq, List.length_reverse]
            have hvalue := clamp_iff usig (signOf (body str)).1 base (valueOf base (unsigned (body str)))
            rw [Prod.ext_iff] at hvalue
            constructor
            · rintro ⟨hval, hend, herange⟩
              refine ⟨hlone, ?_, ?_, hshort, hvalue.1 ⟨hval, herange⟩⟩
              · intro h0 hdigits hpre
                have h8 := octal_of_zero h0 hlone hdigits hpre
                exact hover' (List.cons.inj (h8.2.2.2.symm.trans hdigits)).2
              · intro h
                rw [if_pos h] at hend
                omega
            · rintro ⟨-, -, hafter, -, hrange⟩
              obtain ⟨hval, herange⟩ := hvalue.2 hrange
              exact ⟨hval, by rw [if_neg hafter]; omega, herange⟩
          · have hend := @converted_long usig base (str.takeWhile isWhite).reverse (body str)
              (str.takeWhile isWhite).length hbase hnone hlone
              hshort
            rw [List.length_reverse] at hend
            constructor
            · intro h
              rw [h] at hend
              exact absurd hend.2 (by simp only; omega)
            · exact fun h => absurd h.2.2.2.1 hshort

/-- `strtol` and `strtoul` do what the standard says if and only if the string and the base are none of those on which
the code slips. -/
theorem strto_iff (str : CString) {base : Nat} (hbase : base = 0 ∨ 2 ≤ base ∧ base ≤ 36) :
    (strtol str.bytes base = reference false str.bytes base ↔ Fits false str.bytes base) ∧
      (strtoul str.bytes base = reference true str.bytes base ↔ Fits true str.bytes base) :=
  ⟨strtoInt_iff false str.bytes hbase, strtoInt_iff true str.bytes hbase⟩

/-- `strtol(" -0x2A;", &end, 0)` is -42, and `end` stands behind the `A`. -/
theorem strto_iff_hex : (strtol (lit " -0x2A;") 0).endptr = 6 ∧ (strtol (lit " -0x2A;") 0).val = 2 ^ 64 - 42 := by
  have h := (@strto_iff ⟨lit " -0x2A;", by decide⟩ 0 (.inl rfl)).1.2 (by decide)
  rw [h]
  decide

/-- `strtol("x", &end, 8)` finds no digit, and moves `end`. -/
theorem strto_octal : ¬∀ (str : CString) (base : Nat), base = 0 ∨ 2 ≤ base ∧ base ≤ 36 →
    strtol str.bytes base = reference false str.bytes base ∧
    strtoul str.bytes base = reference true str.bytes base := by
  intro h
  have hx := (h ⟨lit "x", by decide⟩ 8 (.inr (by decide))).1
  rw [strtol, strtoInt_iff false _ (.inr (by decide))] at hx
  revert hx
  decide

end JACLibc.Strto
