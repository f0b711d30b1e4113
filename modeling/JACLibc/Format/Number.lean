import JACLibc.Format.PrintfSpec
import JACLibc.Format.Scanf
import Mathlib.Data.Nat.Digits.Lemmas

/-!
# The text of a number, printed and read back

`numText base v` is the usual text of `v`: its digits, most significant first.  `%u` and `%x` print it
(`printfLoop_u`, `printfLoop_x`), and `strtoul` in the same base reads `v` back from it and stops behind it
(`strtoul_numText`), whatever follows that could not belong to the number.
-/

namespace JACLibc

def numText (base v : Nat) : List UInt8 :=
  if v = 0 then [asc '0'] else ((Nat.digits base v).map (digitChar false)).reverse

/-! ### Printing -/

private theorem D100_odd (k : Nat) : D100 (k * 2 + 1) = asc '0' + (k % 10).toUInt8 := by
  unfold D100
  rw [if_neg (by omega), show (k * 2 + 1) / 2 = k by omega]

private theorem D100_even (k : Nat) : D100 (k * 2) = asc '0' + (k / 10).toUInt8 := by
  unfold D100
  rw [if_pos (by omega), show k * 2 / 2 = k by omega]

private theorem digitChar_dec {d : Nat} (h : d < 10) : asc '0' + d.toUInt8 = digitChar false d := by
  rw [digitChar, if_pos h]

/-- The two digits at a time are the digits one at a time. -/
theorem decDigits_eq {v : Nat} (hv : 0 < v) : decDigits v = (Nat.digits 10 v).map (digitChar false) := by
  induction v using decDigits.induct with
  | case1 v h ih =>
    have hten : 0 < v / 10 := by omega
    have hhundred : v / 10 / 10 = v / 100 := by omega
    rw [decDigits, if_pos h, ih (by omega), Nat.digits_def' (by decide) hv, Nat.digits_def' (by decide) hten, D100_odd,
      D100_even, digitChar_dec (by omega), digitChar_dec (by omega), hhundred]
    simp only [List.map_cons]
    rw [show v % 100 % 10 = v % 10 by omega, show v % 100 / 10 = v / 10 % 10 by omega]
  | case2 v h h' =>
    have hten : 0 < v / 10 := by omega
    rw [decDigits, if_neg h, if_pos h', Nat.digits_def' (by decide) hv, Nat.digits_def' (by decide) hten, D100_odd,
      D100_even, digitChar_dec (by omega), digitChar_dec (by omega), show v / 10 / 10 = 0 by omega]
    simp only [List.map_cons, Nat.digits_zero, List.map_nil]
    rw [show v / 10 % 10 = v / 10 by omega]
  | case3 v h h' =>
    rw [decDigits, if_neg h, if_neg h', Nat.digits_of_lt 10 v (by omega) (by omega), digitChar_dec (by omega)]
    rfl

/-- A directive without flags, width, precision and length modifier. -/
private def plain (base : Nat) : Spec := { Spec.zero with base := base }

private theorem intBuf_plain {base : Nat} (hbase : base = 10 ∨ base = 16) (v : Nat) :
    (intBuf (plain base) v (-1)).reverse = numText base v := by
  have hzeros : ∀ buf : List UInt8, List.replicate (min (-1 : Int) 64 - buf.length).toNat (asc '0') = [] := by
    intro buf
    rw [show (min (-1 : Int) 64 - buf.length).toNat = 0 by omega]
    rfl
  simp only [intBuf, hzeros, List.append_nil]
  rw [if_neg (by omega), numText]
  split
  · rfl
  · rename_i hv
    rcases hbase with rfl | rfl
    · rw [if_neg (by decide), decDigits_eq (by omega)]
    · rw [if_pos (by decide)]
      rfl

private theorem outputInt_plain {base : Nat} (hbase : base = 10 ∨ base = 16) (k : Sink) (val : BitVec 64) :
    outputInt k (plain base) val (-1) 0 = Counted.send (0, k) (numText base val.toNat) := by
  have hlen : (intBuf (plain base) val.toNat (-1)).length = (numText base val.toNat).length := by
    rw [← intBuf_plain hbase, List.length_reverse]
  simp only [outputInt, show (plain base).sign = false from rfl, show (plain base).pref = false from rfl,
    show (plain base).left = false from rfl, show (plain base).zpad = false from rfl, Bool.false_and,
    Bool.false_eq_true, false_and, if_false, Bool.toNat_false, hlen]
  have hpad : ¬(0 : Int) > (numText base val.toNat).length + (0 : Nat) + (0 : Nat) := by omega
  simp only [if_neg hpad]
  split
  · rename_i hnull
    simp only [Option.isNone_iff_eq_none] at hnull
    simp only [Counted.send, emit_null hnull.1 hnull.2, Prod.mk.injEq, and_true]
    omega
  · rw [writeChars_eq, intBuf_plain hbase]
    rfl

section Loop

variable (str : Nat → CString) (fuel : Nat) (w : Counted) (fmt : List UInt8) (ap : VaList)

theorem printfLoop_literal {c : UInt8} (h : c ≠ asc '%') :
    printfLoop str (fuel + 1) w (c :: fmt) ap = printfLoop str fuel (w.send [c]) fmt ap := by
  rw [printfLoop, if_pos h, putChar_eq]

private theorem printfLoop_conv {base : Nat} (hbase : base = 10 ∨ base = 16) {c : UInt8} (hc : c ≠ asc '%')
    (hspec : specPrintf ap (c :: fmt) = ⟨.zero, -1, 0, c :: fmt, ap⟩)
    (hconv : ∀ k d, d.type = c → printfConv str k d = some (printfBase base k d)) :
    printfLoop str (fuel + 1) w (asc '%' :: c :: fmt) ap =
      printfLoop str fuel (w.send (numText base ((vaArg ap).1.toNat % 2 ^ 32))) fmt ap.tail := by
  have hval : (getUnsigned .zero ap).1.toNat = (vaArg ap).1.toNat % 2 ^ 32 := by
    simp only [getUnsigned, Spec.zero, BitVec.toNat_setWidth]
    omega
  have hout : printfBase base w.2 ⟨.zero, -1, 0, c :: fmt, ap⟩ =
      (Counted.send (0, w.2) (numText base ((vaArg ap).1.toNat % 2 ^ 32)), ap.tail) := by
    rw [← hval, ← outputInt_plain hbase]
    rfl
  rw [printfLoop, if_neg (by simp), deref_cons, if_neg hc]
  simp only [hspec, hconv _ ⟨.zero, -1, 0, c :: fmt, ap⟩ rfl, hout, List.tail_cons]
  simp [Counted.send]

theorem printfLoop_u : printfLoop str (fuel + 1) w (asc '%' :: asc 'u' :: fmt) ap =
    printfLoop str fuel (w.send (numText 10 ((vaArg ap).1.toNat % 2 ^ 32))) fmt ap.tail := by
  apply printfLoop_conv str fuel w fmt ap (.inl rfl) (by decide) rfl
  intro k d hd
  rw [printfConv, hd]
  rfl

theorem printfLoop_x : printfLoop str (fuel + 1) w (asc '%' :: asc 'x' :: fmt) ap =
    printfLoop str fuel (w.send (numText 16 ((vaArg ap).1.toNat % 2 ^ 32))) fmt ap.tail := by
  apply printfLoop_conv str fuel w fmt ap (.inr rfl) (by decide) rfl
  intro k d hd
  rw [printfConv, hd]
  rfl

/-- The text of an `int`. -/
def decText (v : Int) : List UInt8 := if v < 0 then asc '-' :: numText 10 v.natAbs else numText 10 v.natAbs

theorem natAbs_toInt (val : BitVec 64) : (if val.toInt < 0 then -val else val).toNat = val.toInt.natAbs := by
  have hlt := val.isLt
  rw [BitVec.toInt_eq_toNat_cond]
  split
  · rw [if_neg (by omega)]
    omega
  · rw [if_pos (by omega), BitVec.toNat_neg]
    omega

/-- `%d` and `%u`, with a length modifier or without. -/
private def decSpec (sign : Bool) (length : Length) : Spec := { Spec.zero with sign, length, base := 10 }

private theorem outputInt_dec (k : Sink) (sign : Bool) (length : Length) (val : BitVec 64) :
    outputInt k (decSpec sign length) val (-1) 0 =
      Counted.send (0, k) (if sign then decText val.toInt else numText 10 val.toNat) := by
  have hbuf : ∀ v, (intBuf (decSpec sign length) v (-1)).reverse = numText 10 v := fun v => intBuf_plain (.inl rfl) v
  have hlen : ∀ v, (intBuf (decSpec sign length) v (-1)).length = (numText 10 v).length := by
    intro v
    rw [← hbuf v, List.length_reverse]
  simp only [outputInt, hlen, show (decSpec sign length).sign = sign from rfl, show (decSpec sign length).pref =
    false from rfl,
    show (decSpec sign length).left = false from rfl, show (decSpec sign length).zpad = false from rfl,
    show (decSpec sign length).plus = false from rfl, show (decSpec sign length).spad = false from rfl, Bool.or_false,
    Bool.false_and, Bool.false_eq_true, false_and, if_false]
  -- a minus sign or none
  have htext : (if sign then decText val.toInt else numText 10 val.toNat) =
      (if (sign && decide (val.toInt < 0)) = true then [asc '-'] else []) ++
        numText 10 (if (sign && decide (val.toInt < 0)) = true then -val else val).toNat := by
    cases sign with
    | false => rfl
    | true =>
      have habs := natAbs_toInt val
      simp only [Bool.true_and, decide_eq_true_eq, if_true, decText]
      rw [habs]
      by_cases hneg : val.toInt < 0
      · rw [if_pos hneg, if_pos hneg]
        rfl
      · rw [if_neg hneg, if_neg hneg]
        rfl
  have hneg : (sign && (sign && decide (val.toInt < 0))) = (sign && decide (val.toInt < 0)) := by
    cases sign <;> rfl
  rw [htext, hneg]
  generalize (sign && decide (val.toInt < 0)) = neg
  generalize (if neg = true then -val else val).toNat = v
  have hpad : ¬(0 : Int) > (numText 10 v).length + neg.toNat + (0 : Nat) := by omega
  simp only [if_neg hpad]
  split
  · rename_i hnull
    simp only [Option.isNone_iff_eq_none] at hnull
    simp only [Counted.send, emit_null hnull.1 hnull.2, Prod.mk.injEq, and_true]
    cases neg <;> simp
  · rw [writeChars_eq, hbuf]
    cases neg with
    | false => rfl
    | true =>
      change Counted.send (putChar (asc '-') (0, k)) _ = _
      rw [putChar_eq, send_send]
      rfl

private theorem printfLoop_dec (sign : Bool) (length : Length) (pre : List UInt8) {c : UInt8}
    (hpre : deref (pre ++ c :: fmt) ≠ asc '%')
    (hspec : specPrintf ap (pre ++ c :: fmt) = ⟨{ Spec.zero with sign, length }, -1, 0, c :: fmt, ap⟩)
    (hconv : ∀ k d, d.type = c → printfConv str k d = some (printfBase 10 k d)) :
    printfLoop str (fuel + 1) w (asc '%' :: (pre ++ c :: fmt)) ap =
      printfLoop str fuel (w.send (if sign then decText (getSigned { Spec.zero with sign, length } ap).1.toInt
        else numText 10 (getUnsigned { Spec.zero with sign, length } ap).1.toNat)) fmt ap.tail := by
  have hout : printfBase 10 w.2 ⟨{ Spec.zero with sign, length }, -1, 0, c :: fmt, ap⟩ =
      (Counted.send (0, w.2) (if sign then decText (getSigned { Spec.zero with sign, length } ap).1.toInt
        else numText 10 (getUnsigned { Spec.zero with sign, length } ap).1.toNat), ap.tail) := by
    have hsigned := outputInt_dec w.2 sign length (getSigned { Spec.zero with sign, length } ap).1
    have hunsigned := outputInt_dec w.2 sign length (getUnsigned { Spec.zero with sign, length } ap).1
    cases sign with
    | true =>
      simp only [if_true] at hsigned ⊢
      rw [← hsigned]
      cases length <;> rfl
    | false =>
      simp only [Bool.false_eq_true, if_false] at hunsigned ⊢
      rw [← hunsigned]
      cases length <;> rfl
  rw [printfLoop, if_neg (by simp), if_neg hpre]
  simp only [hspec, hconv _ ⟨_, -1, 0, c :: fmt, ap⟩ rfl, hout, List.tail_cons]
  simp [Counted.send]

theorem printfLoop_d : printfLoop str (fuel + 1) w (asc '%' :: asc 'd' :: fmt) ap =
    printfLoop str fuel (w.send (decText (vaInt ap).1)) fmt ap.tail := by
  have hval : (getSigned { Spec.zero with sign := true } ap).1.toInt = (vaInt ap).1 :=
    BitVec.toInt_signExtend_of_le (by decide)
  rw [← hval]
  apply printfLoop_dec str fuel w fmt ap true .none [] (show asc 'd' ≠ asc '%' by decide) rfl
  intro k d hd
  rw [printfConv, hd]
  rfl

theorem printfLoop_zu : printfLoop str (fuel + 1) w (asc '%' :: asc 'z' :: asc 'u' :: fmt) ap =
    printfLoop str fuel (w.send (numText 10 (vaArg ap).1.toNat)) fmt ap.tail := by
  apply printfLoop_dec str fuel w fmt ap false .z [asc 'z'] (show asc 'z' ≠ asc '%' by decide) rfl
  intro k d hd
  rw [printfConv, hd]
  rfl

end Loop

/-! ### The string that is read -/

/-- What a reader has gone over and what is to come. -/
def Reader.text (r : Reader) : List UInt8 := r.back.reverse ++ r.rest

/-- The character has a value below the base. -/
def IsDigitOf (base : Nat) (c : UInt8) : Prop := 0 ≤ digitVal (charVal c) ∧ digitVal (charVal c) < base

instance (base : Nat) (c : UInt8) : Decidable (IsDigitOf base c) := inferInstanceAs (Decidable (_ ∧ _))

/-- Horner's rule on digit characters. -/
def horner (base val : Nat) (cs : List UInt8) : Nat :=
  cs.foldl (fun v c => v * base + (digitVal (charVal c)).toNat) val

/-- Nothing that could belong to a number follows. -/
def EndsNumber (base : Nat) (rest : List UInt8) : Prop :=
  ∀ c ∈ rest.head?, charVal c ≠ EOF ∧ ¬IsDigitOf base c ∧ charVal c ≠ 120 ∧ charVal c ≠ 88

theorem endsNumber_nil (base : Nat) : EndsNumber base [] := fun c hc => by cases hc

theorem endsNumber_cons {base : Nat} {c : UInt8} (h : charVal c ≠ EOF ∧ ¬IsDigitOf base c ∧ charVal c ≠ 120 ∧
    charVal c ≠ 88)
    (rest : List UInt8) : EndsNumber base (c :: rest) := by
  intro x hx
  obtain rfl : c = x := Option.some.inj hx
  exact h

theorem le_horner {base : Nat} (hbase : 0 < base) (val : Nat) (cs : List UInt8) : val ≤ horner base val cs := by
  induction cs generalizing val with
  | nil => exact Nat.le_refl _
  | cons c cs ih =>
    calc val ≤ val * base := Nat.le_mul_of_pos_right val hbase
      _ ≤ val * base + (digitVal (charVal c)).toNat := Nat.le_add_right _ _
      _ ≤ horner base val (c :: cs) := ih _

theorem horner_lt {base : Nat} {cs : List UInt8} : ∀ {v : Nat}, (∀ c ∈ cs, IsDigitOf base c) →
    horner base v cs < (v + 1) * base ^ cs.length := by
  induction cs with
  | nil =>
    intro v _
    simp [horner]
  | cons c cs ih =>
    intro v hcs
    obtain ⟨h0, hlt⟩ := hcs c List.mem_cons_self
    have hstep : v * base + (digitVal (charVal c)).toNat + 1 ≤ (v + 1) * base := by
      rw [Nat.add_mul]
      omega
    calc horner base v (c :: cs) < (v * base + (digitVal (charVal c)).toNat + 1) * base ^ cs.length :=
          ih fun x hx => hcs x (List.mem_cons_of_mem _ hx)
      _ ≤ (v + 1) * base * base ^ cs.length := Nat.mul_le_mul_right _ hstep
      _ = (v + 1) * base ^ (c :: cs).length := by rw [List.length_cons, Nat.pow_succ']; ring

private theorem pushDigit_of_le {base val dval : Nat} (hbase : 0 < base) (h : val * base + dval ≤ UINTMAX_MAX) :
    pushDigit base val dval = (val * base + dval, false) := by
  have hle : val ≤ (UINTMAX_MAX - dval) / base := by
    rw [Nat.le_div_iff_mul_le hbase]
    omega
  rw [pushDigit, if_neg (by omega)]

/-- A character that is a digit is none of the others the reader looks for. -/
theorem IsDigitOf.plain {base : Nat} {c : UInt8} (h : IsDigitOf base c) :
    charVal c ≠ EOF ∧ charVal c ≠ 45 ∧ charVal c ≠ 43 ∧ isSpace (charVal c) = false := by
  obtain ⟨h, -⟩ := h
  have hlow : 48 ≤ charVal c := by
    unfold digitVal at h
    split at h
    · omega
    · split at h
      · omega
      · split at h <;> omega
  refine ⟨by unfold EOF; omega, by omega, by omega, ?_⟩
  simp only [isSpace, List.mem_cons, List.not_mem_nil, or_false, decide_eq_false_iff_not]
  omega

private theorem IsDigitOf.ne_x {c : UInt8} (h : IsDigitOf 16 c) : charVal c ≠ 120 ∧ charVal c ≠ 88 := by
  obtain ⟨-, h⟩ := h
  unfold digitVal at h
  constructor
  · intro hx
    simp [hx] at h
  · intro hx
    simp [hx] at h

section Digits

variable {base : Nat} (hbase : 0 < base) {width : Int} {rest : List UInt8}

private theorem readDigits_stop {d : Digits}
    (h : d.ch = EOF ∨ ¬(0 ≤ digitVal d.ch ∧ digitVal d.ch < base)) : readDigits width width base d = d := by
  rw [readDigits, if_neg]
  tauto

include hbase in
private theorem readDigits_digit {c : UInt8} (hc : IsDigitOf base c) {r : Reader} {count : Int} {val : Nat}
    (hread : r.read < width) (hcount : count + 1 < width)
    (hval : val * base + (digitVal (charVal c)).toNat ≤ UINTMAX_MAX) :
    readDigits width width base ⟨charVal c, r, count, val, false⟩ =
      readDigits width width base
        ⟨(readNext r).1, (readNext r).2, count + 1, val * base + (digitVal (charVal c)).toNat, false⟩ := by
  rw [readDigits, if_pos ⟨hread, hc.plain.1, hc⟩]
  simp only [pushDigit_of_le hbase hval, Bool.or_false]
  rw [if_neg (by omega)]

include hbase in
/-- The digits are read up to the first character that is none, which is put back. -/
private theorem readDigits_run (hrest : EndsNumber base rest) :
    ∀ {cs back : List UInt8} {c : UInt8} {read count : Int} {val : Nat}, (∀ x ∈ c :: cs, IsDigitOf base x) →
      read + cs.length < width → count + cs.length + 1 < width → horner base val (c :: cs) ≤ UINTMAX_MAX →
      ∃ d, readDigits width width base ⟨charVal c, ⟨c :: back, cs ++ rest, read⟩, count, val, false⟩ = d ∧
        d.val = horner base val (c :: cs) ∧ d.erange = false ∧ d.count = count + cs.length + 1 ∧
        (if d.ch ≠ EOF then readBack d.reader else d.reader) =
          ⟨(c :: cs).reverse ++ back, rest, read + cs.length⟩ := by
  intro cs
  induction cs with
  | nil =>
    intro back c read count val hdigits hread hcount hval
    rw [readDigits_digit hbase (hdigits c List.mem_cons_self) (by simpa using hread) (by simpa using hcount) hval]
    cases rest with
    | nil =>
      refine ⟨_, readDigits_stop (.inl rfl), rfl, rfl, by simp, ?_⟩
      simp [readNext]
    | cons x rest =>
      obtain ⟨heof, hstop, -⟩ := hrest x rfl
      refine ⟨_, readDigits_stop (.inr hstop), rfl, rfl, by simp, ?_⟩
      simp [readNext, readBack, heof]
  | cons x cs ih =>
    intro back c read count val hdigits hread hcount hval
    simp only [List.length_cons, Nat.cast_add, Nat.cast_one] at hread hcount
    have hx := hdigits x (by simp)
    rw [readDigits_digit hbase (hdigits c List.mem_cons_self) (by show read < width; omega) (by omega)
      ((le_horner hbase _ _).trans hval)]
    simp only [readNext, List.cons_append, if_pos hx.plain.1]
    obtain ⟨d, hd, hdval, hderr, hdcount, hdreader⟩ :=
      @ih (c :: back) x (read + 1) (count + 1) (val * base + (digitVal (charVal c)).toNat)
        (fun y hy => hdigits y (List.mem_cons_of_mem _ hy)) (by omega) (by omega) hval
    refine ⟨d, hd, hdval, hderr, ?_, ?_⟩
    · rw [hdcount, List.length_cons]
      omega
    · rw [hdreader]
      simp only [List.reverse_cons, List.append_assoc, List.singleton_append, List.length_cons]
      congr 1
      omega

end Digits

/-- In front of more text the look-ahead for `0x` leaves the reader where it was. -/
private theorem inputBase_digit {base : Nat} (hbase : base ≠ 0) {c : UInt8} {cs rest : List UInt8}
    (hdigits : ∀ x ∈ c :: cs, IsDigitOf base x) (hrest : EndsNumber base rest)
    (hmore : base = 16 → charVal c = 48 → cs ++ rest ≠ []) (back : List UInt8) :
    inputBase base (charVal c) ⟨back, cs ++ rest, 0⟩ = (base, charVal c, ⟨back, cs ++ rest, 0⟩) := by
  rw [inputBase, if_neg hbase]
  split
  · rename_i hzero
    obtain ⟨rfl, hzero⟩ := hzero
    obtain ⟨x, tail, htail⟩ := List.exists_cons_of_ne_nil (hmore rfl hzero)
    have hx : charVal x ≠ EOF ∧ charVal x ≠ 120 ∧ charVal x ≠ 88 := by
      cases cs with
      | nil =>
        obtain ⟨heof, -, hx⟩ := hrest x (by rw [List.nil_append] at htail; rw [htail]; rfl)
        exact ⟨heof, hx⟩
      | cons y cs =>
        obtain ⟨rfl, -⟩ := List.cons.inj htail
        have hy := hdigits y (by simp)
        exact ⟨hy.plain.1, hy.ne_x⟩
    simp only [htail, readNext, hx, or_self, if_false, readBack, hzero, ne_eq, not_false_eq_true, if_true]
    rfl
  · rfl

/-- A digit in front of the text is no white space. -/
theorem readSkip_digit {base : Nat} {c : UInt8} (hc : IsDigitOf base c) (back s : List UInt8) (read : Int) :
    readSkip ⟨back, c :: s, read⟩ = ⟨back, c :: s, read⟩ := by
  obtain ⟨heof, -, -, hspace⟩ := hc.plain
  rw [readSkip, readSpaces]
  simp [readNext, hspace, heof, readBack]

/-- A number in front of anything that ends it is found, whatever the signedness and the length. -/
private theorem inputInt_digits {spec : Spec} (hbase : 1 < spec.base) {c : UInt8} {cs rest : List UInt8}
    (hdigits : ∀ x ∈ c :: cs, IsDigitOf spec.base x) (hrest : EndsNumber spec.base rest)
    (hmore : spec.base = 16 → charVal c = 48 → cs ++ rest ≠ []) (hlen : (cs.length : Int) + 1 < INT_MAX)
    (hval : horner spec.base 0 (c :: cs) ≤ UINTMAX_MAX) (back : List UInt8) (read : Int) :
    ∃ n, inputInt spec INT_MAX ⟨back, c :: cs ++ rest, read⟩ = n ∧ n.found = true ∧
      n.val = (applySign spec false (horner spec.base 0 (c :: cs))).1 ∧
      n.erange = (applySign spec false (horner spec.base 0 (c :: cs))).2 ∧
      n.reader = ⟨(c :: cs).reverse ++ back, rest, read + 1 + cs.length⟩ := by
  obtain ⟨heof, hminus, hplus, -⟩ := (hdigits c List.mem_cons_self).plain
  obtain ⟨d, hd, hdval, hderr, hdcount, hdreader⟩ :=
    @readDigits_run spec.base (by omega) INT_MAX rest hrest cs back c 0 0 0
    hdigits (by omega) (by omega) hval
  have hcount : 0 < d.count := by omega
  refine ⟨_, rfl, ?_⟩
  simp only [inputInt, readNext, List.cons_append, inputSign, if_neg hminus, if_neg hplus]
  rw [inputBase_digit (by omega) hdigits hrest hmore]
  simp only [hd, hcount, true_and, hdreader, decide_true, Bool.true_or, hdval, hderr, Bool.false_or, heof, ne_eq,
    not_false_eq_true, if_true, zero_add, and_self]

/-- A number in front of anything that ends it. -/
theorem strtoul_digits {base : Nat} (hbase : 1 < base) {c : UInt8} {cs rest : List UInt8}
    (hdigits : ∀ x ∈ c :: cs, IsDigitOf base x) (hrest : EndsNumber base rest)
    (hmore : base = 16 → charVal c = 48 → cs ++ rest ≠ []) (hlen : (cs.length : Int) + 1 < INT_MAX)
    (hval : horner base 0 (c :: cs) ≤ UINTMAX_MAX) :
    strtoul (c :: cs ++ rest) base = ⟨horner base 0 (c :: cs), cs.length + 1, false⟩ := by
  obtain ⟨n, hn, hfound, hnval, herr, hreader⟩ :=
    @inputInt_digits { Spec.zero with base := base, length := .l, sign := !true } hbase c cs rest hdigits hrest hmore
      hlen hval [] 0
  have hskip := readSkip_digit (hdigits c List.mem_cons_self) [] (cs ++ rest) 0
  rw [← List.cons_append] at hskip
  have hsign : applySign { Spec.zero with base := base, length := .l, sign := !true } false (horner base 0 (c :: cs)) =
      (horner base 0 (c :: cs), false) := by
    simp [applySign]
  rw [hsign] at hnval herr
  rw [strtoul, strtoInt, hskip]
  simp only [hn, hfound, if_true, hnval, herr, hreader, List.append_nil, List.length_reverse, List.length_cons]

/-- `%u` reads a number in front of anything that ends it. -/
theorem scanfLoop_u (fuel : Nat) (fmt : List UInt8) {c : UInt8} {cs rest : List UInt8}
    (hdigits : ∀ x ∈ c :: cs, IsDigitOf 10 x) (hrest : EndsNumber 10 rest) (hlen : (cs.length : Int) + 1 < INT_MAX)
    (hval : horner 10 0 (c :: cs) ≤ UINTMAX_MAX) (back : List UInt8) (read count : Int) (matched : Bool)
    (stored : List Nat) :
    scanfLoop (fuel + 1) (asc '%' :: asc 'u' :: fmt) ⟨⟨back, c :: cs ++ rest, read⟩, count, matched, stored⟩ =
      scanfLoop fuel fmt ⟨⟨(c :: cs).reverse ++ back, rest, read + 1 + cs.length⟩, count + 1, true,
        stored ++ [horner 10 0 (c :: cs) % 2 ^ 32]⟩ := by
  obtain ⟨n, hn, hfound, hnval, -, hreader⟩ :=
    @inputInt_digits { Spec.zero with spad := true, base := 10 } (by decide) c cs rest hdigits hrest
      (by simp) hlen hval back read
  have hval' : n.val = horner 10 0 (c :: cs) := hnval
  have hskip := readSkip_digit (hdigits c List.mem_cons_self) back (cs ++ rest) read
  rw [← List.cons_append] at hskip
  have hread : scanfBase 10 (specScanf (asc 'u' :: fmt)) ⟨back, c :: cs ++ rest, read⟩ = n := by
    rw [scanfBase, hskip]
    exact hn
  have htype : scanBase (specScanf (asc 'u' :: fmt)).type = some 10 := rfl
  have hleft : (specScanf (asc 'u' :: fmt)).spec.left = false := rfl
  have hbits : (specScanf (asc 'u' :: fmt)).spec.length.bits = 32 := rfl
  have htail : (specScanf (asc 'u' :: fmt)).fmt.tail = fmt := rfl
  rw [scanfLoop, if_neg (by simp)]
  simp only [htype, hread, hfound, hleft, hbits, htail, hval', hreader, not_true, if_false, Bool.false_eq_true]

/-! ### What is printed is read back -/

private theorem digitVal_digitChar {d : Nat} (h : d < 16) : digitVal (charVal (digitChar false d)) = d := by
  revert d
  decide

private theorem horner_digits {base : Nat} (hbase : base ≤ 16) {ds : List Nat} (hds : ∀ d ∈ ds, d < base) :
    horner base 0 (ds.map (digitChar false)).reverse = Nat.ofDigits base ds := by
  unfold horner
  rw [List.foldl_reverse]
  induction ds with
  | nil => rfl
  | cons d ds ih =>
    have hd := hds d List.mem_cons_self
    rw [List.map_cons, List.foldr_cons, ih fun x hx => hds x (List.mem_cons_of_mem _ hx),
      digitVal_digitChar (by omega), Nat.ofDigits_cons, Int.toNat_natCast]
    ring

theorem mem_numText {base v : Nat} (hbase : 1 < base) {x : UInt8} (hx : x ∈ numText base v) :
    ∃ d < base, x = digitChar false d := by
  unfold numText at hx
  split at hx
  · rw [List.mem_singleton] at hx
    exact ⟨0, by omega, hx⟩
  · rw [List.mem_reverse, List.mem_map] at hx
    obtain ⟨d, hd, rfl⟩ := hx
    exact ⟨d, Nat.digits_lt_base hbase hd, rfl⟩

theorem numText_digits {base : Nat} (hbase : 1 < base) (hbase' : base ≤ 16) (v : Nat) :
    ∀ x ∈ numText base v, IsDigitOf base x := by
  intro x hx
  obtain ⟨d, hd, rfl⟩ := mem_numText hbase hx
  rw [IsDigitOf, digitVal_digitChar (by omega)]
  omega

theorem horner_numText {base : Nat} (hbase : 1 < base) (hbase' : base ≤ 16) (v : Nat) :
    horner base 0 (numText base v) = v := by
  unfold numText
  split
  · rename_i hv
    rw [hv]
    simp [horner, show digitVal (charVal (asc '0')) = 0 by decide]
  · rw [horner_digits hbase' fun d hd => Nat.digits_lt_base hbase hd, Nat.ofDigits_digits]

theorem length_numText_le {base v n : Nat} (hbase : 1 < base) (hn : 0 < n) (hv : v < base ^ n) :
    (numText base v).length ≤ n := by
  unfold numText
  split
  · exact hn
  · rw [List.length_reverse, List.length_map]
    exact (Nat.digits_length_le_iff hbase v).2 hv

theorem length_decText (v : BitVec 32) : (decText v.toInt).length ≤ 11 := by
  have habs : v.toInt.natAbs < 10 ^ 10 := by
    have h1 := BitVec.toInt_lt (x := v)
    have h2 := BitVec.le_toInt (x := v)
    omega
  have := length_numText_le (by decide : 1 < 10) (by decide : 0 < 10) habs
  unfold decText
  split
  · rw [List.length_cons]
    omega
  · omega

theorem numText_ne_nil (base v : Nat) : numText base v ≠ [] := by
  unfold numText
  split
  · simp
  · simpa using Nat.digits_ne_nil_iff_ne_zero.2 ‹_›

/-- `strtoul` reads back the text of a number and stops behind it. -/
theorem strtoul_numText {base v : Nat} (hbase : 1 < base) (hbase' : base ≤ 16) (hv : v ≤ UINTMAX_MAX)
    {rest : List UInt8} (hrest : EndsNumber base rest) :
    strtoul (numText base v ++ rest) base = ⟨v, (numText base v).length, false⟩ := by
  by_cases hzero : base = 16 ∧ v = 0 ∧ rest = []
  · obtain ⟨rfl, rfl, rfl⟩ := hzero
    decide +kernel
  · obtain ⟨c, cs, hcs⟩ := List.exists_cons_of_ne_nil (numText_ne_nil base v)
    have hlen : (numText base v).length ≤ 64 := by
      apply length_numText_le hbase (by decide)
      calc v ≤ UINTMAX_MAX := hv
        _ < 2 ^ 64 := by decide
        _ ≤ base ^ 64 := Nat.pow_le_pow_left hbase 64
    have hval := horner_numText hbase hbase' v
    have hdigits := numText_digits hbase hbase' v
    rw [hcs] at hlen hval hdigits ⊢
    rw [List.length_cons] at hlen
    have hmore : base = 16 → charVal c = 48 → cs ++ rest ≠ [] := by
      intro h16 hc hnil
      obtain ⟨rfl, rfl⟩ := List.append_eq_nil_iff.1 hnil
      refine hzero ⟨h16, ?_, rfl⟩
      rw [← hval]
      simp [horner, hc, digitVal]
    rw [strtoul_digits hbase hdigits hrest hmore (by unfold INT_MAX; omega) (by rw [hval]; exact hv), hval,
      List.length_cons]

/-- `atoi` reads back the text of an `int` that is not negative. -/
theorem atoi_numText {v : Nat} (hv : (v : Int) ≤ INT_MAX) {rest : List UInt8} (hrest : EndsNumber 10 rest) :
    atoi (numText 10 v ++ rest) = v := by
  obtain ⟨c, cs, hcs⟩ := List.exists_cons_of_ne_nil (numText_ne_nil 10 v)
  have hlen : (numText 10 v).length ≤ 10 := by
    apply length_numText_le (by decide) (by decide)
    unfold INT_MAX at hv
    omega
  have hval := horner_numText (by decide : 1 < 10) (by decide) v
  have hdigits := numText_digits (by decide : 1 < 10) (by decide) v
  rw [hcs] at hlen hval hdigits ⊢
  rw [List.length_cons] at hlen
  obtain ⟨n, hn, hfound, hnval, -, -⟩ :=
    @inputInt_digits { Spec.zero with base := 10, length := .none, sign := !false } (by decide) c cs rest hdigits
      hrest (by simp)
      (by unfold INT_MAX; omega) (by
        show horner 10 0 (c :: cs) ≤ _
        rw [hval]
        unfold INT_MAX at hv
        unfold UINTMAX_MAX
        omega) [] 0
  have hskip := readSkip_digit (hdigits c List.mem_cons_self) [] (cs ++ rest) 0
  rw [← List.cons_append] at hskip
  have hsign : applySign { Spec.zero with base := 10, length := .none, sign := !false } false v = (v, false) := by
    unfold INT_MAX at hv
    simp only [applySign, Length.bits]
    simp
    omega
  change n.val = (applySign _ false (horner 10 0 (c :: cs))).1 at hnval
  rw [hval, hsign] at hnval
  rw [atoi, atoInt, hskip]
  simp only [hn, hfound, if_true, hnval]
  exact wrapInt_of_le (by omega) hv

end JACLibc
