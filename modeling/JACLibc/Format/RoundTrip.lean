import JACLibc.Format.IntSpec
import JACLibc.Format.StrtoIff

/-!
# Integers printed and read back

`strtol` and `strtoul` return the number whose text `printf` made, and leave the end pointer at the end of the text.
-/

namespace JACLibc.Strto

/-- A number with a minus sign or none. -/
def signedText (neg : Bool) (base n : Nat) : List UInt8 := (if neg then [asc '-'] else []) ++ numText base n

section Text

variable (neg : Bool) {base : Nat} (hbase : base = 8 ∨ base = 10 ∨ base = 16) (n : Nat)

include hbase

theorem digitOf_numText : ∀ c ∈ numText base n, digitOf c < base := by
  intro c hc
  have hdigit := numText_digits (by omega) (by omega) n c hc
  exact (isDigitOf_iff (by omega)).1 hdigit

/-- The text of a number has no white space and no sign of its own in front. -/
theorem numText_head : ∃ c u, numText base n = c :: u ∧ isWhite c = false ∧ c ≠ asc '-' ∧ c ≠ asc '+' ∧ c ≠ 255 := by
  obtain ⟨c, u, hcu⟩ := List.exists_cons_of_ne_nil (numText_ne_nil base n)
  refine ⟨c, u, hcu, ?_⟩
  have hc := digitOf_numText hbase n c (by rw [hcu]; exact List.mem_cons_self)
  exact @forall_byte (fun c => digitOf c < 36 → isWhite c = false ∧ c ≠ asc '-' ∧ c ≠ asc '+' ∧
    c ≠ 255) (by decide +kernel) c (by omega)

theorem body_signedText : body (signedText neg base n) = signedText neg base n ∧
    (signedText neg base n).takeWhile isWhite = [] := by
  obtain ⟨c, u, hcu, hwhite, -⟩ := numText_head hbase n
  have hminus : isWhite (asc '-') = false := by decide
  cases neg
  · rw [signedText, if_neg (by decide), List.nil_append, hcu]
    exact ⟨List.dropWhile_cons_of_neg (by simp [hwhite]), List.takeWhile_cons_of_neg (by simp [hwhite])⟩
  · exact ⟨List.dropWhile_cons_of_neg (by simp [hminus]), List.takeWhile_cons_of_neg (by simp [hminus])⟩

theorem signOf_signedText : signOf (signedText neg base n) = (neg, neg.toNat) ∧
    unsigned (signedText neg base n) = numText base n := by
  obtain ⟨c, u, hcu, -, hminus, hplus, -⟩ := numText_head hbase n
  cases neg
  · have hsign : signOf (numText base n) = (false, 0) := by
      rw [hcu, signOf, deref_cons, if_neg hminus, if_neg hplus]
    refine ⟨hsign, ?_⟩
    rw [signedText, if_neg (by decide), List.nil_append, unsigned, hsign]
    rfl
  · exact ⟨rfl, rfl⟩

/-- The whole text is digits. -/
theorem digitsOf_numText : baseOf base (numText base n) = (base, 0) ∧ digitsOf base (numText base n) = numText base n ∧
    afterDigits base (numText base n) = [] ∧ startsHex (numText base n) = false ∧
    valueOf base (numText base n) = n := by
  have hdigits := digitOf_numText hbase n
  have hstart : startsHex (numText base n) = false := by
    rw [Bool.eq_false_iff]
    intro h
    obtain ⟨x, v, hx, hisX⟩ := startsHex_eq h
    have hdigit := hdigits x (by rw [hx]; simp)
    exact @forall_byte (fun x => isX x = true → ¬digitOf x < 16) (by decide +kernel) x hisX (by omega)
  have hbaseOf : baseOf base (numText base n) = (base, 0) := by
    rw [baseOf, if_neg (by simp [hexAhead, hstart]), if_pos (by omega)]
  have hself : digitsOf base (numText base n) = numText base n := by
    rw [digitsOf, hbaseOf, List.drop_zero, List.takeWhile_eq_self_iff]
    simpa using hdigits
  refine ⟨hbaseOf, hself, ?_, hstart, ?_⟩
  · rw [afterDigits, hbaseOf, List.drop_zero, List.dropWhile_eq_nil_iff]
    simpa using hdigits
  · rw [valueOf, hself, hbaseOf, ← horner_eq (by omega) hdigits]
    exact horner_numText (by omega) (by omega) n

/-- `strtol` and `strtoul` read the text of a number to its end. -/
theorem strtoInt_signedText (usig : Bool) (hn : n < 2 ^ 64) (hrange : InRange usig neg base n) :
    strtoInt .l usig (signedText neg base n) base =
      ⟨(clamp usig neg n).1, (signedText neg base n).length, (clamp usig neg n).2⟩ := by
  obtain ⟨hbody, hwhite⟩ := body_signedText neg hbase n
  obtain ⟨hsign, hunsigned⟩ := signOf_signedText neg hbase n
  obtain ⟨hbaseOf, hdigits, hafter, hstart, hvalue⟩ := digitsOf_numText hbase n
  have hlen : (numText base n).length ≤ 64 :=
    length_numText_le (by omega) (by decide) (hn.trans_le (Nat.pow_le_pow_left (by omega) 64))
  have hneg : neg.toNat ≤ 1 := by cases neg <;> decide
  have hsize : size base (signedText neg base n) = neg.toNat + (numText base n).length := by
    rw [size, hunsigned, hsign, hbaseOf, hdigits, Nat.zero_add]
  have hfits : Fits usig (signedText neg base n) base := by
    unfold Fits
    simp only [hbody, hunsigned]
    rw [if_neg, if_neg (by rw [hdigits]; exact numText_ne_nil base n)]
    · refine ⟨fun h => absurd h.2.1 (by simp [hstart]), fun h => by omega, by simp [hafter], .inl ?_, ?_⟩
      · have : ((size base (signedText neg base n) : Nat) : Int) < INT_MAX := by
          rw [hsize, INT_MAX]
          omega
        exact this
      · rw [hsign, hvalue]
        exact hrange
    · obtain ⟨c, u, hcu, -, -, -, hc⟩ := numText_head hbase n
      cases neg
      · rw [signedText, if_neg (by decide), List.nil_append, hcu]
        simpa using hc
      · exact fun h => absurd (Option.some.inj h) (by decide)
  have href := (strtoInt_iff usig (signedText neg base n) (.inr (by omega))).2 hfits
  have hlength : (signedText neg base n).length = neg.toNat + (numText base n).length := by
    cases neg
    · simp [signedText]
    · simp [signedText, Nat.add_comm]
  rw [href, reference_eq, hbody, hwhite, hunsigned, if_neg (by rw [hdigits]; exact numText_ne_nil base n), hsign,
    hvalue, hsize, hlength, List.length_nil, Nat.zero_add]

end Text

/-! ### What is printed -/

section LongConv

open IntText

private theorem noFlags : ∀ c ∈ ([] : List UInt8), c ∈ lit "-+ #0" := fun _ h => absurd h List.not_mem_nil

private theorem noWidth_wf : (Field.digits []).WellFormed := Field.wellFormed_digits fun _ h =>
    absurd h List.not_mem_nil

private theorem noWidth_head : asc '0' ∉ (Field.digits []).text.head? := by decide

private theorem noPrec_wf : ∀ f ∈ (none : Option Field), f.WellFormed := fun _ h => (Option.not_mem_none _ h).elim

/-- The directive `%l` and a conversion character. -/
def longConv (type : UInt8) (h : type ∈ lit "diuoxX") : IntConv where
  flags := []
  width := .digits []
  prec := none
  length := .l
  type := type
  flags_mem := noFlags
  width_wf := noWidth_wf
  width_head := noWidth_head
  prec_wf := noPrec_wf
  type_mem := h

end LongConv

open IntText in
/-- A `long` is printed with all of its digits, and a sign if it needs one. -/
theorem printf_long {type : UInt8} (h : type ∈ lit "diuoxX") (hupper : type ≠ asc 'X') (str : Nat → CString)
    (mem : Nat → UInt8) (v : BitVec 64) : (vfprintf str mem (longConv type h).format [v]).map Prod.snd =
      some (signedText (decide ((longConv type h).passed v < 0)) (longConv type h).base
      ((longConv type h).passed v).natAbs) := by
  have hfields : (longConv type h).fields [v] = (0, -1, [v]) := rfl
  rw [vfprintf_eq (longConv type h) str mem [v] (show (0 : Int) < INT_MAX by decide) (show -INT_MAX < 0 by decide)
    (show -1 < INT_MAX by decide)]
  have hdigits : (longConv type h).codeDigits (-1) ((longConv type h).passed v).natAbs =
      numText (longConv type h).base ((longConv type h).passed v).natAbs := by
    have hup : (longConv type h).upper = false := decide_eq_false hupper
    have hnone : ¬(((longConv type h).passed v).natAbs = 0 ∧ (-1 : Int) = 0) := by omega
    rw [IntConv.codeDigits, if_neg (by simp [longConv]), padZeros, rawDigits, if_neg hnone, hup,
      show (min (-1 : Int) 64 - (digitText false (longConv type h).base
        ((longConv type h).passed v).natAbs).length).toNat = 0 by omega]
    rfl
  have hsign : (longConv type h).sign ((longConv type h).passed v) =
      if decide ((longConv type h).passed v < 0) = true then [asc '-'] else [] := by
    have hflags : (longConv type h).flags = [] := rfl
    unfold IntConv.sign
    simp only [hflags, List.not_mem_nil, if_false, decide_eq_true_eq]
    by_cases hs : (longConv type h).Signed
    · rw [if_pos hs]
    · have hpos : ¬(longConv type h).passed v < 0 := by
        rw [IntConv.passed, IntText.valueOf, if_neg hs]
        omega
      rw [if_neg hs, if_neg hpos]
  have hlayout : ∀ sign digits : List UInt8, layout false false 0 sign [] digits = sign ++ digits := by
    intro sign digits
    simp [layout]
  have hprinted : (longConv type h).printed 0 (-1) v =
    layout false false 0 ((longConv type h).sign ((longConv type h).passed v)) []
      ((longConv type h).codeDigits (-1) ((longConv type h).passed v).natAbs) := rfl
  rw [hfields, show (vaArg [v]).1 = v from rfl, hprinted, hlayout, hdigits, hsign]
  rfl

/-- A `long` printed with `%ld`, `%lu`, `%lx` or `%lo` is read back by `strtol` or `strtoul` in the same base. -/
theorem long_round_trip (str : Nat → CString) (mem : Nat → UInt8) (v : BitVec 64) :
    (∃ text, (vfprintf str mem ⟨lit "%ld", by decide⟩ [v]).map Prod.snd = some text ∧
    strtol text 10 = ⟨v.toNat, text.length, false⟩) ∧
    (∃ text, (vfprintf str mem ⟨lit "%lu", by decide⟩ [v]).map Prod.snd = some text ∧
    strtoul text 10 = ⟨v.toNat, text.length, false⟩) ∧
    (∃ text, (vfprintf str mem ⟨lit "%lx", by decide⟩ [v]).map Prod.snd = some text ∧
    strtoul text 16 = ⟨v.toNat, text.length, false⟩) ∧
    (∃ text, (vfprintf str mem ⟨lit "%lo", by decide⟩ [v]).map Prod.snd = some text ∧
    strtoul text 8 = ⟨v.toNat, text.length, false⟩) := by
  have hlt := v.isLt
  have hself : v.setWidth (max 32 Length.l.bits) = v := BitVec.setWidth_eq v
  -- the unsigned ones
  have hunsigned : ∀ {type : UInt8} (h : type ∈ lit "diuoxX") (base : Nat), type ≠ asc 'X' → ¬(longConv type h).Signed →
      (longConv type h).base = base → base = 8 ∨ base = 10 ∨ base = 16 →
      ∃ text, (vfprintf str mem (longConv type h).format [v]).map Prod.snd = some text ∧
        strtoul text base = ⟨v.toNat, text.length, false⟩ := by
    intro type h base hX hs hbase hbases
    have hpassed : (longConv type h).passed v = v.toNat := by
      rw [IntText.IntConv.passed, IntText.valueOf, if_neg hs, show (longConv type h).length = .l from rfl, hself]
      rfl
    have hprint := printf_long h hX str mem v
    rw [hpassed, hbase, decide_eq_false (by omega), Int.natAbs_natCast] at hprint
    refine ⟨_, hprint, ?_⟩
    have hread := strtoInt_signedText false hbases v.toNat true hlt (fun h => absurd h (by decide))
    have hclamp : clamp true false v.toNat = (v.toNat, false) := by
      rw [clamp, if_pos rfl, if_neg (by omega)]
      rfl
    rw [hclamp] at hread
    exact hread
  refine ⟨?_, hunsigned (by decide) 10 (by decide) (by decide) (by decide) (by decide),
    hunsigned (by decide) 16 (by decide) (by decide) (by decide) (by decide),
    hunsigned (by decide) 8 (by decide) (by decide) (by decide) (by decide)⟩
  have hd : asc 'd' ∈ lit "diuoxX" := by decide
  have hpassed : (longConv (asc 'd') hd).passed v = v.toInt := by
    rw [IntText.IntConv.passed, IntText.valueOf, if_pos (.inl rfl), show (longConv (asc 'd') hd).length = .l from rfl,
      hself]
    rfl
  have hprint := printf_long hd (by decide) str mem v
  rw [hpassed] at hprint
  refine ⟨_, hprint, ?_⟩
  have hcond := BitVec.toInt_eq_toNat_cond v
  have hread := strtoInt_signedText (decide (v.toInt < 0)) (show 10 = 8 ∨ 10 = 10 ∨
    10 = 16 by decide) v.toInt.natAbs false
    (by split at hcond <;> omega) (.inr (.inl rfl))
  have hclamp : clamp false (decide (v.toInt < 0)) v.toInt.natAbs = (v.toNat, false) := by
    unfold clamp negate
    simp only [Bool.false_eq_true, if_false, decide_eq_true_eq]
    split at hcond
    · rw [if_neg (by omega), if_neg (by omega), show v.toInt.natAbs = v.toNat by omega]
    · rw [if_pos (by omega), if_neg (by omega), show (2 ^ 64 - v.toInt.natAbs) % 2 ^ 64 = v.toNat by omega]
  rw [hclamp] at hread
  exact hread

end JACLibc.Strto
