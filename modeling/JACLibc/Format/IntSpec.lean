import JACLibc.Format.IntText

/-!
# When the integer conversions print what they should

The formatter lays out the same sign and prefix as the reference, with digits of its own (`IntConv.printed`): the
argument is not converted to a type smaller than `int`, no more than 64 digits are made, and in octal `#` always puts
a zero in front of a number that is not zero.  From a text the number can be read off again, and then the digits, so
that the texts are the same only if these are.
-/

namespace JACLibc.IntText

/-- The number of type `int` or larger that is passed. -/
def IntConv.passed (c : IntConv) (arg : BitVec 64) : Int := valueOf c.Signed (max 32 c.length.bits) arg

/-- The digits of a number, or none. -/
def rawDigits (upper : Bool) (base : Nat) (prec : Int) (v : Nat) : List UInt8 :=
  if v = 0 ∧ prec = 0 then [] else digitText upper base v

/-- Digits with zeros in front, `n` in all. -/
def padZeros (n : Int) (digits : List UInt8) : List UInt8 :=
  List.replicate (n - digits.length).toNat (asc '0') ++ digits

namespace IntConv

variable (c : IntConv)

/-- The digits that are printed, with the zero that `#` puts in front of them in octal. -/
def codeDigits (prec : Int) (v : Nat) : List UInt8 :=
  let digits := padZeros (min prec 64) (rawDigits c.upper c.base prec v)
  if asc '#' ∈ c.flags ∧ c.base = 8 ∧ v ≠ 0 then asc '0' :: digits else digits

/-- What the formatter prints. -/
def printed (width prec : Int) (arg : BitVec 64) : List UInt8 :=
  let v := c.passed arg
  layout (c.left width) (asc '0' ∈ c.flags ∧ prec < 0) width.natAbs (c.sign v) (c.hexPrefix v)
    (c.codeDigits prec v.natAbs)

theorem base_cases : (c.base = 10 ∧ c.upper = false) ∨ (c.base = 8 ∧ c.upper = false) ∨ c.base = 16 := by
  have htype := c.type_mem
  rw [base, upper]
  rcases mem_types.1 htype with h | h | h | h | h | h <;> rw [h] <;> decide

end IntConv

/-! ### The digits of a number -/

theorem digitVal_digit (upper : Bool) {d : Nat} (h : d < 16) : digitVal (charVal (digitChar upper d)) = d := by
  revert d
  cases upper <;> decide

theorem intBuf_reverse (c : IntConv) (width prec : Int) (v : Nat) :
    (intBuf { c.spec width with base := c.base } v prec).reverse =
    padZeros (min prec 64) (rawDigits c.upper c.base prec v) := by
  have hraw : (if prec = 0 ∧ v = 0 then [] else if v = 0 then [asc '0'] else
      if c.base = 16 ∨ c.base = 8 ∨ c.base = 2 then (Nat.digits c.base v).map (digitChar c.upper) else decDigits v) =
      (rawDigits c.upper c.base prec v).reverse := by
    unfold rawDigits digitText
    by_cases h0 : v = 0
    · simp only [h0, true_and, and_true, if_true]
      split <;> rfl
    · simp only [h0, false_and, and_false, if_false, List.reverse_reverse]
      rcases c.base_cases with ⟨h, hu⟩ | ⟨h, -⟩ | h
      · rw [h, hu, if_neg (by decide), decDigits_eq (by omega)]
      · rw [h, if_pos (by decide)]
      · rw [h, if_pos (by decide)]
  have hbuf : intBuf { c.spec width with base := c.base } v prec = (rawDigits c.upper c.base prec v).reverse ++
      List.replicate (min prec 64 - (rawDigits c.upper c.base prec v).reverse.length).toNat (asc '0') := by
    rw [← hraw]
    rfl
  rw [hbuf, List.reverse_append, List.reverse_replicate, List.reverse_reverse, List.length_reverse, padZeros]

/-- Where `#` adds a zero in octal, it may stand in front of the padding or behind it. -/
theorem layout_zero (left zeros : Bool) (width : Int) (sign digits : List UInt8) :
    layout left zeros width sign [asc '0'] digits = layout left zeros width sign [] (asc '0' :: digits) := by
  have hlen : sign.length + [asc '0'].length + digits.length = sign.length + ([] : List UInt8).length +
    (asc '0' :: digits).length := by
    simp only [List.length_cons, List.length_nil]
    omega
  have hswap : ∀ n : Nat, asc '0' :: (List.replicate n (asc '0') ++ digits) = List.replicate n (asc '0') ++ asc '0' ::
    digits := by
    intro n
    rw [← List.cons_append, ← List.replicate_succ, List.replicate_succ', List.append_assoc]
    rfl
  unfold layout
  rw [hlen]
  cases left <;> cases zeros <;> simp [hswap]

/-- The text of `__jacl_output_int` as a layout, whatever its sign and prefix are. -/
theorem intText_layout (left zeros sign : Bool) (signText : List UInt8) (prefx : Nat) (letter : UInt8) (width : Int)
    (buf : List UInt8) (hsign : sign = true → signText.length = 1) (hprefx : prefx ≤ 2) :
    intText left zeros sign signText prefx letter
        (if width > (buf.length : Int) + sign.toNat + prefx then width - ((buf.length : Int) + sign.toNat + prefx)
        else 0).toNat buf =
      layout left zeros width (if sign then signText else [])
        ((if prefx != 0 then [asc '0'] else []) ++ (if prefx == 2 then [letter] else [])) buf.reverse := by
  have hsignLen : (if sign then signText else []).length = sign.toNat := by
    cases sign with
    | false => rfl
    | true => simpa using hsign rfl
  have hprefxLen : ((if prefx != 0 then [asc '0'] else []) ++ (if prefx == 2 then [letter] else [])).length =
      prefx := by
    obtain rfl | rfl | rfl : prefx = 0 ∨ prefx = 1 ∨ prefx = 2 := by omega
    all_goals rfl
  have hpad : (if width > (buf.length : Int) + sign.toNat + prefx
      then width - ((buf.length : Int) + sign.toNat + prefx) else 0).toNat =
      (width - (sign.toNat + prefx + buf.length : Nat)).toNat := by
    split <;> omega
  rw [hpad, layout, hsignLen, hprefxLen, List.length_reverse]
  simp only [intText, List.append_assoc]

/-- The text of `__jacl_output_int` for the directive. -/
theorem outputIntText_eq (c : IntConv) (width prec : Int) (val : BitVec 64) {v : Int}
    (hv : (if c.Signed then val.toInt else val.toNat) = v) :
    outputIntText { c.spec width with base := c.base } val prec width.natAbs =
      layout (c.left width) (asc '0' ∈ c.flags ∧ prec < 0) width.natAbs (c.sign v) (c.hexPrefix v)
      (c.codeDigits prec v.natAbs) := by
  have hneg : (decide c.Signed && decide (val.toInt < 0)) = decide (v < 0) := by
    by_cases hs : c.Signed
    · rw [if_pos hs] at hv
      rw [← hv]
      simp [hs]
    · rw [if_neg hs] at hv
      simp [hs]
      omega
  have hmag : (if decide (v < 0) = true then -val else val).toNat = v.natAbs := by
    by_cases hs : c.Signed
    · rw [if_pos hs] at hv
      rw [← hv, ← natAbs_toInt val]
      simp only [decide_eq_true_eq]
    · rw [if_neg hs] at hv
      rw [if_neg (by simp; omega)]
      omega
  have hsignText :
    (if (decide c.Signed && (decide (v < 0) || decide (asc '+' ∈ c.flags) || decide (asc ' ' ∈ c.flags))) = true then
      (if decide (v < 0) = true then [asc '-'] else if decide (asc '+' ∈ c.flags) = true then [asc '+'] else
        if decide (asc ' ' ∈ c.flags) = true then [asc ' '] else []) else []) = c.sign v := by
    unfold IntConv.sign
    by_cases hs : c.Signed <;> by_cases hlt : v < 0 <;> by_cases hplus : asc '+' ∈ c.flags <;>
      by_cases hspace : asc ' ' ∈ c.flags <;>
      simp [hs, hlt, hplus, hspace]
  have hzeros : (decide (asc '0' ∈ c.flags) && decide (prec < 0)) = decide (asc '0' ∈ c.flags ∧ prec < 0) := by
    rw [Bool.decide_and]
  have hone : ∀ s neg plus space : Bool, (s && (neg || plus || space)) = true →
      (if neg = true then [asc '-'] else if plus = true then [asc '+'] else if space = true then [asc ' ']
      else []).length = 1 := by
    decide
  have hle : (if decide (asc '#' ∈ c.flags) = true ∧ v.natAbs ≠ 0 then
      if c.base = 16 ∨ c.base = 2 then 2 else if c.base = 8 then 1 else 0 else 0) ≤ 2 := by
    split_ifs <;> omega
  simp only [outputIntText, IntConv.spec, hneg, hmag]
  refine (intText_layout _ (decide (asc '0' ∈ c.flags) && decide (prec < 0)) _ _ _ _ _ _
    (hone (decide c.Signed) (decide (v < 0)) (decide (asc '+' ∈ c.flags)) (decide (asc ' ' ∈ c.flags))) hle).trans ?_
  rw [hsignText, hzeros]
  have hbuf := intBuf_reverse c width prec v.natAbs
  rw [IntConv.spec] at hbuf
  rw [hbuf, IntConv.codeDigits, IntConv.hexPrefix]
  by_cases hpref : asc '#' ∈ c.flags ∧ v.natAbs ≠ 0
  · have hv0 : v ≠ 0 := by omega
    rcases c.base_cases with ⟨hbase, -⟩ | ⟨hbase, -⟩ | hbase
    · simp [hpref.1, hbase]
    · simp only [hpref.1, hpref.2, hbase, decide_true, ne_eq, not_false_eq_true, and_self, true_and, if_true]
      exact layout_zero _ _ _ _ _
    · simp [hpref.1, hpref.2, hv0, hbase]
  · have h1 : ¬(asc '#' ∈ c.flags ∧ c.base = 8 ∧ v.natAbs ≠ 0) := fun h => hpref ⟨h.1, h.2.2⟩
    have h2 : ¬(asc '#' ∈ c.flags ∧ c.base = 16 ∧ v ≠ 0) := fun h => hpref ⟨h.1, by omega⟩
    have h3 : (if decide (asc '#' ∈ c.flags) = true ∧ v.natAbs ≠ 0 then
        if c.base = 16 ∨ c.base = 2 then 2 else if c.base = 8 then 1 else 0 else 0) = 0 :=
          if_neg (by rw [decide_eq_true_eq]; exact hpref)
    rw [if_neg h1, if_neg h2, h3]
    rfl

/-! ### The run of the formatter -/

/-- The directive with its `%`. -/
def IntConv.format (c : IntConv) : CString where
  bytes := asc '%' :: c.text
  noNul := by
    have hdigits : ∀ f : Field, f.WellFormed → 0 ∉ f.text := by
      intro f hf
      cases f with
      | star => decide
      | digits ds => exact fun h => absurd (hf ds rfl 0 h) (by decide)
    have hprec : 0 ∉ c.precText := by
      have hwf := c.prec_wf
      rw [IntConv.precText]
      rcases hp : c.prec with _ | f
      · exact List.not_mem_nil
      · rw [List.mem_cons, not_or]
        exact ⟨by decide, hdigits f (hwf f hp)⟩
    have hflags : 0 ∉ c.flags := fun h => absurd (c.flags_mem 0 h) (by decide)
    have hlength : 0 ∉ lengthText c.length := by cases c.length <;> decide
    have htype : 0 ≠ c.type := fun h => absurd (h ▸ c.type_mem) (by decide)
    simp only [IntConv.text, List.mem_cons, List.mem_append, List.not_mem_nil, or_false, not_or]
    exact ⟨by decide, hflags, hdigits _ c.width_wf, hprec, hlength, htype⟩

theorem getSigned_eq (c : IntConv) (spec : Spec) (ap : VaList) (h : spec.length = c.length) :
    (getSigned spec ap).1.toInt = ((vaArg ap).1.setWidth (max 32 c.length.bits)).toInt := by
  have hint : (((vaArg ap).1.setWidth 32).signExtend 64).toInt = ((vaArg ap).1.setWidth 32).toInt :=
    BitVec.toInt_signExtend_of_le (by decide)
  have hlong : (vaArg ap).1.toInt = ((vaArg ap).1.setWidth 64).toInt := by rw [BitVec.setWidth_eq]
  unfold getSigned
  rw [h]
  cases c.length
  · exact hint
  · exact hint
  · exact hint
  all_goals exact hlong

theorem getUnsigned_eq (c : IntConv) (spec : Spec) (ap : VaList) (h : spec.length = c.length) :
    (getUnsigned spec ap).1.toNat = ((vaArg ap).1.setWidth (max 32 c.length.bits)).toNat := by
  have hint : (((vaArg ap).1.setWidth 32).setWidth 64).toNat = ((vaArg ap).1.setWidth 32).toNat := by
    rw [BitVec.toNat_setWidth]
    omega
  have hlong : (vaArg ap).1.toNat = ((vaArg ap).1.setWidth 64).toNat := by rw [BitVec.setWidth_eq]
  unfold getUnsigned
  rw [h]
  cases c.length
  · exact hint
  · exact hint
  · exact hint
  all_goals exact hlong

theorem printfBase_eq (c : IntConv) (k : Sink) {d : Directive} {width prec : Int} (hspec : d.spec = c.spec width)
    (hprec : d.prec = prec) (hwidth : d.width = width.natAbs) :
    (printfBase c.base k d).1 = Counted.send (0, k) (c.printed width prec (vaArg d.ap).1) := by
  have hsign : d.spec.sign = decide c.Signed := by rw [hspec]; rfl
  have hlength : d.spec.length = c.length := by rw [hspec]; rfl
  have hval : (if c.Signed then (if d.spec.sign = true then getSigned d.spec d.ap else getUnsigned d.spec d.ap).1.toInt
      else (if d.spec.sign = true then getSigned d.spec d.ap else getUnsigned d.spec d.ap).1.toNat) =
        c.passed (vaArg d.ap).1 := by
    unfold IntConv.passed valueOf
    by_cases hs : c.Signed
    · rw [if_pos hs, if_pos hs, if_pos (by rw [hsign]; exact decide_eq_true hs), getSigned_eq c d.spec d.ap hlength]
    · rw [if_neg hs, if_neg hs, if_neg (by rw [hsign]; simpa using hs), getUnsigned_eq c d.spec d.ap hlength]
  have htext := outputIntText_eq c width prec _ hval
  rw [← hspec] at htext
  have hbase : (printfBase c.base k d).1 = outputInt k { d.spec with base := c.base }
      (if d.spec.sign = true then getSigned d.spec d.ap else getUnsigned d.spec d.ap).1 d.prec d.width := rfl
  rw [hbase, outputInt_eq, hprec, hwidth, IntConv.printed, ← htext]

/-- The conversion characters and their bases. -/
theorem printfConv_eq (c : IntConv) (str : Nat → CString) (k : Sink) {d : Directive} (hd : d.type = c.type) :
    printfConv str k d = some (printfBase c.base k d) := by
  rw [printfConv, hd, IntConv.base]
  rcases mem_types.1 c.type_mem with h | h | h | h | h | h <;> rw [h] <;> rfl

/-- What a stream receives for the directive. -/
theorem vfprintf_eq (c : IntConv) (str : Nat → CString) (mem : Nat → UInt8) (ap : VaList)
    (hw : (c.fields ap).1 < INT_MAX) (hw' : -INT_MAX < (c.fields ap).1) (hp : (c.fields ap).2.1 < INT_MAX) :
    (vfprintf str mem c.format ap).map Prod.snd =
    some (c.printed (c.fields ap).1 (c.fields ap).2.1 (vaArg (c.fields ap).2.2).1) := by
  have hspec := c.specPrintf_text ap hw hw' hp
  have hpercent : deref c.text ≠ asc '%' := by
    intro h
    have hmem := c.flags_mem
    have hwidth := c.width_noFlag
    rw [IntConv.text] at h
    rcases hflags : c.flags with _ | ⟨x, xs⟩
    · rw [hflags, List.nil_append] at h
      rcases hrest : c.width.text ++ (c.precText ++ (lengthText c.length ++ [c.type])) with _ | ⟨x, xs⟩
      · rw [hrest] at h
        exact absurd h (by decide)
      · rw [hrest] at h hwidth
        exact (hwidth x rfl).2 h
    · rw [hflags] at h hmem
      have hx := hmem x List.mem_cons_self
      rw [show x = asc '%' from h] at hx
      exact absurd hx (by decide)
  obtain ⟨n, hn⟩ : ∃ n, c.text.length = n + 1 := by
    refine ⟨c.text.length - 1, ?_⟩
    have : 0 < c.text.length := by
      rw [IntConv.text]
      simp only [List.length_append, List.length_singleton]
      omega
    omega
  have hbase : ∀ k, (printfBase c.base k (specPrintf ap c.text)).1 =
      Counted.send (0, k) (c.printed (c.fields ap).1 (c.fields ap).2.1 (vaArg (c.fields ap).2.2).1) := by
    intro k
    have h := @printfBase_eq c k (specPrintf ap c.text) (c.fields ap).1 (c.fields ap).2.1
      (by rw [hspec]) (by rw [hspec]) (by rw [hspec])
    rw [h, hspec]
  have hloop : ∀ w, printfLoop str (c.format.bytes.length + 1) w c.format.bytes ap =
      some (w.send (c.printed (c.fields ap).1 (c.fields ap).2.1 (vaArg (c.fields ap).2.2).1)) := by
    intro w
    have htail : (specPrintf ap c.text).fmt.tail = [] := by rw [hspec]; rfl
    have hconv := @printfConv_eq c str w.2 (specPrintf ap c.text) (by rw [hspec]; rfl)
    rw [IntConv.format, List.length_cons, hn, printfLoop, if_neg (by simp), if_neg hpercent]
    simp only [hconv, htail]
    rw [show printfBase c.base w.2 (specPrintf ap c.text) = ((printfBase c.base w.2 (specPrintf ap c.text)).1,
      (printfBase c.base w.2 (specPrintf ap c.text)).2) from rfl, hbase]
    simp [Counted.send, printfLoop]
  rw [vfprintf, jaclPrintf, hloop]
  simp [Counted.send, emit_stream]

/-! ### The number that a text shows -/

theorem horner_zeros (base n : Nat) (ds : List UInt8) :
    horner base 0 (List.replicate n (asc '0') ++ ds) = horner base 0 ds := by
  induction n with
  | zero => rfl
  | succ n ih =>
    rw [List.replicate_succ, List.cons_append, horner, List.foldl_cons,
      show 0 * base + (digitVal (charVal (asc '0'))).toNat = 0 by
      rw [Nat.zero_mul]; decide]
    exact ih

theorem isDigitOf_digitChar (upper : Bool) {d : Nat} (h : d < 16) : IsDigitOf 16 (digitChar upper d) := by
  rw [IsDigitOf, digitVal_digit upper h]
  omega

section Base

variable (upper : Bool) {base : Nat} (hbase : 1 < base) (hbase' : base ≤ 16)

include hbase hbase'

theorem isDigitOf_digitText (v : Nat) : ∀ x ∈ digitText upper base v, IsDigitOf 16 x := by
  intro x hx
  unfold digitText at hx
  split at hx
  · rw [List.mem_singleton.1 hx]
    decide
  · rw [List.mem_reverse, List.mem_map] at hx
    obtain ⟨d, hd, rfl⟩ := hx
    have := Nat.digits_lt_base hbase hd
    exact isDigitOf_digitChar upper (by omega)

theorem horner_digitText (v : Nat) : horner base 0 (digitText upper base v) = v := by
  have hdigits : ∀ ds : List Nat, (∀ d ∈ ds, d < base) →
      horner base 0 (ds.map (digitChar upper)).reverse = Nat.ofDigits base ds := by
    intro ds hds
    induction ds with
    | nil => rfl
    | cons d ds ih =>
      have hd := hds d List.mem_cons_self
      have ih' := ih fun x hx => hds x (List.mem_cons_of_mem _ hx)
      unfold horner at ih' ⊢
      rw [List.map_cons, List.reverse_cons, List.foldl_append, ih', List.foldl_cons, List.foldl_nil,
        digitVal_digit upper (by omega), Nat.ofDigits_cons]
      simp only [Int.toNat_natCast]
      ring
  unfold digitText
  split
  · rename_i h0
    rw [h0]
    exact horner_zeros base 1 []
  · rw [hdigits _ fun d hd => Nat.digits_lt_base hbase hd, Nat.ofDigits_digits]

/-- A number that is not zero has a first digit that is not zero. -/
theorem head_digitText {v : Nat} (hv : v ≠ 0) : (digitText upper base v).head? ≠ some (asc '0') := by
  intro h
  rw [digitText, if_neg hv, List.head?_reverse, List.getLast?_map,
    List.getLast?_eq_some_getLast (Nat.digits_ne_nil_iff_ne_zero.2 hv), Option.map_some, Option.some.injEq] at h
  have hlast := Nat.getLast_digit_ne_zero base hv
  have hlt := Nat.digits_lt_base hbase (List.getLast_mem (Nat.digits_ne_nil_iff_ne_zero.2 hv))
  have hval := digitVal_digit upper (hlt.trans_le hbase')
  rw [h] at hval
  exact hlast (by simpa [digitVal, charVal, asc] using hval.symm)

end Base

/-! ### The texts are the same only if the digits are -/

/-- The digits of a text, the zeros of its padding and its prefix among them. -/
def digitsOf (text : List UInt8) : List UInt8 := text.filter (IsDigitOf 16 ·)

theorem digitsOf_layout (left zeros : Bool) (width : Int) {sign pre digits : List UInt8}
    (hsign : ∀ x ∈ sign, ¬IsDigitOf 16 x) (hdigits : ∀ x ∈ digits, IsDigitOf 16 x) :
    digitsOf (layout left zeros width sign pre digits) = digitsOf pre ++
      (List.replicate (if !left && zeros then (width - (sign.length + pre.length + digits.length : Nat)).toNat else 0)
      (asc '0') ++
        digits) := by
  have hspaces : ∀ n, (List.replicate n (asc ' ')).filter (IsDigitOf 16 ·) = [] := by
    intro n
    rw [List.filter_eq_nil_iff]
    intro x hx
    rw [List.eq_of_mem_replicate hx]
    decide
  have hzeros : ∀ n, (List.replicate n (asc '0')).filter (IsDigitOf 16 ·) = List.replicate n (asc '0') := by
    intro n
    rw [List.filter_eq_self]
    intro x hx
    rw [List.eq_of_mem_replicate hx]
    decide
  have hsigns : sign.filter (IsDigitOf 16 ·) = [] := by simpa [List.filter_eq_nil_iff] using hsign
  have hself : digits.filter (IsDigitOf 16 ·) = digits := by simpa [List.filter_eq_self] using hdigits
  unfold digitsOf layout
  cases left <;> cases zeros <;> simp [hspaces, hzeros, hsigns, hself]

namespace IntConv

variable (c : IntConv)

theorem sign_noDigit (v : Int) : ∀ x ∈ c.sign v, ¬IsDigitOf 16 x := by
  unfold sign
  split_ifs <;> simp <;> decide

theorem digitsOf_hexPrefix (v : Int) : ∃ n, digitsOf (c.hexPrefix v) = List.replicate n (asc '0') := by
  unfold hexPrefix
  split
  · exact ⟨1, by cases c.upper <;> decide⟩
  · exact ⟨0, rfl⟩

theorem base_bounds : 1 < c.base ∧ c.base ≤ 16 := by
  rcases c.base_cases with ⟨h, -⟩ | ⟨h, -⟩ | h <;> omega

/-- The zeros that the reference puts in front of the digits. -/
def zeros (prec : Int) (v : Nat) : Nat :=
  let n := (prec - (rawDigits c.upper c.base prec v).length).toNat
  if asc '#' ∈ c.flags ∧ c.base = 8 ∧ (v ≠ 0 ∨ prec = 0) ∧ n = 0 then 1 else n

/-- The zeros that the formatter puts in front of the digits. -/
def codeZeros (prec : Int) (v : Nat) : Nat :=
  (min prec 64 - (rawDigits c.upper c.base prec v).length).toNat + if asc '#' ∈ c.flags ∧ c.base = 8 ∧
    v ≠ 0 then 1 else 0

theorem head_rawDigits (prec : Int) (v : Nat) :
    (rawDigits c.upper c.base prec v).head? ≠ some (asc '0') ↔ v ≠ 0 ∨ prec = 0 := by
  unfold rawDigits
  by_cases hv : v = 0
  · by_cases hp : prec = 0
    · simp [hv, hp]
    · simp [hv, hp, digitText]
  · have hhead := head_digitText c.upper c.base_bounds.1 c.base_bounds.2 hv
    rw [if_neg (by simp [hv])]
    exact ⟨fun _ => .inl hv, fun _ => hhead⟩

theorem digits_eq (prec : Int) (v : Nat) :
    c.digits prec v = List.replicate (c.zeros prec v) (asc '0') ++ rawDigits c.upper c.base prec v := by
  have hhead := c.head_rawDigits prec v
  have hdef : c.digits prec v =
      let padded := padZeros prec (rawDigits c.upper c.base prec v)
      if asc '#' ∈ c.flags ∧ c.base = 8 ∧ padded.head? ≠ some (asc '0') then asc '0' :: padded else padded := rfl
  rw [hdef, zeros, padZeros]
  rcases hn : (prec - (rawDigits c.upper c.base prec v).length).toNat with _ | n
  · simp only [List.replicate_zero, List.nil_append, hhead, and_true]
    split <;> rfl
  · have hzero : (List.replicate (n + 1) (asc '0') ++ rawDigits c.upper c.base prec v).head? = some (asc '0') := rfl
    simp only [hzero, ne_eq, not_true_eq_false, and_false, if_false, Nat.add_one_ne_zero]

theorem codeDigits_eq (prec : Int) (v : Nat) :
    c.codeDigits prec v = List.replicate (c.codeZeros prec v) (asc '0') ++ rawDigits c.upper c.base prec v := by
  simp only [codeDigits, codeZeros, padZeros]
  split
  · rw [List.replicate_succ, List.cons_append]
  · rfl

/-- The zeros of the digits do not count. -/
theorem horner_rawDigits (prec : Int) (v : Nat) : horner c.base 0 (rawDigits c.upper c.base prec v) = v := by
  unfold rawDigits
  split
  · rename_i h
    rw [h.1]
    rfl
  · exact horner_digitText c.upper c.base_bounds.1 c.base_bounds.2 v

theorem isDigitOf_padded (n : Nat) (prec : Int) (v : Nat) :
    ∀ x ∈ List.replicate n (asc '0') ++ rawDigits c.upper c.base prec v, IsDigitOf 16 x := by
  intro x hx
  rw [List.mem_append] at hx
  rcases hx with hx | hx
  · rw [List.eq_of_mem_replicate hx]
    decide
  · unfold rawDigits at hx
    split at hx
    · cases hx
    · exact isDigitOf_digitText c.upper c.base_bounds.1 c.base_bounds.2 v x hx

theorem isDigitOf_digits (prec : Int) (v : Nat) : ∀ x ∈ c.digits prec v, IsDigitOf 16 x := by
  rw [digits_eq]
  exact c.isDigitOf_padded _ prec v

theorem isDigitOf_codeDigits (prec : Int) (v : Nat) : ∀ x ∈ c.codeDigits prec v, IsDigitOf 16 x := by
  rw [codeDigits_eq]
  exact c.isDigitOf_padded _ prec v

/-- The number can be read off the text. -/
theorem horner_layout (left zs : Bool) (width : Int) (v : Int) (n : Nat) (prec : Int) :
    horner c.base 0 (digitsOf (layout left zs width (c.sign v) (c.hexPrefix v)
      (List.replicate n (asc '0') ++ rawDigits c.upper c.base prec v.natAbs))) = v.natAbs := by
  obtain ⟨m, hm⟩ := c.digitsOf_hexPrefix v
  rw [digitsOf_layout left zs width (c.sign_noDigit v) (c.isDigitOf_padded n prec v.natAbs), hm, horner_zeros,
    horner_zeros, horner_zeros, horner_rawDigits]

/-- And its sign. -/
theorem minus_mem_layout (left zs : Bool) (width : Int) (v : Int) {digits : List UInt8}
    (hdigits : ∀ x ∈ digits, IsDigitOf 16 x) :
    asc '-' ∈ layout left zs width (c.sign v) (c.hexPrefix v) digits ↔ c.Signed ∧ v < 0 := by
  have hmem : asc '-' ∉ digits := fun h => absurd (hdigits _ h) (by decide)
  have hpre : asc '-' ∉ c.hexPrefix v := by
    unfold hexPrefix
    split
    · cases c.upper <;> decide
    · exact List.not_mem_nil
  have hpad : ∀ n, asc '-' ∉ List.replicate n (asc ' ') ∧ asc '-' ∉ List.replicate n (asc '0') := by
    intro n
    constructor <;> exact fun h => absurd (List.eq_of_mem_replicate h) (by decide)
  have hsign : asc '-' ∈ c.sign v ↔ c.Signed ∧ v < 0 := by
    unfold sign
    split_ifs <;> simp [*] <;> decide
  rw [← hsign]
  unfold layout
  cases left <;> cases zs <;> simp [hmem, hpre, (hpad _).1, (hpad _).2]

/-- The digits of the formatter are those of the reference. -/
def DigitsFit (prec : Int) (v : Nat) : Prop :=
  if asc '#' ∈ c.flags ∧ c.base = 8 then
    if v = 0 then prec ≠ 0 ∧ prec ≤ 64 else prec ≤ (Nat.digits 8 v).length ∨ prec = 65
  else prec ≤ 64

instance (prec : Int) (v : Nat) : Decidable (c.DigitsFit prec v) := inferInstanceAs (Decidable (ite _ _ _))

theorem codeDigits_iff (prec : Int) {v : Nat} (hv : v < 2 ^ 64) : c.codeDigits prec v = c.digits prec v ↔
    c.DigitsFit prec v := by
  have hcancel : c.codeDigits prec v = c.digits prec v ↔ c.codeZeros prec v = c.zeros prec v := by
    rw [digits_eq, codeDigits_eq, List.append_cancel_right_eq, List.replicate_left_inj]
  rw [hcancel, codeZeros, zeros, DigitsFit]
  by_cases h0 : v = 0
  · have hlen : (rawDigits c.upper c.base prec v).length = if prec = 0 then 0 else 1 := by
      unfold rawDigits digitText
      by_cases hp : prec = 0 <;> simp [h0, hp]
    simp only [h0, ne_eq, not_true_eq_false, false_or, and_false, if_false, if_true]
    split_ifs <;> grind
  · have hlen : (rawDigits c.upper c.base prec v).length = (Nat.digits c.base v).length := by
      rw [rawDigits, if_neg (by simp [h0]), digitText, if_neg h0, List.length_reverse, List.length_map]
    have hlow : 0 < (Nat.digits c.base v).length := List.length_pos_iff.2 (Nat.digits_ne_nil_iff_ne_zero.2 h0)
    have hhigh : (Nat.digits c.base v).length ≤ 64 := by
      rw [Nat.digits_length_le_iff c.base_bounds.1]
      exact hv.trans_le (Nat.pow_le_pow_left c.base_bounds.1 64)
    by_cases hpref : asc '#' ∈ c.flags ∧ c.base = 8
    · rw [hpref.2] at hlen hlow hhigh
      simp only [hpref.2, hlen, hpref.1, h0, ne_eq, not_false_eq_true, and_self, true_or, true_and, if_true, if_false]
      split_ifs <;> omega
    · have h1 : ¬(asc '#' ∈ c.flags ∧ c.base = 8 ∧ v ≠ 0) := fun h => hpref ⟨h.1, h.2.1⟩
      simp only [hlen, if_neg h1, if_neg hpref]
      rw [if_neg fun h => hpref ⟨h.1, h.2.1⟩]
      omega

theorem passed_lt (arg : BitVec 64) : (c.passed arg).natAbs < 2 ^ 64 := by
  have hbits : max 32 c.length.bits ≤ 64 := by cases c.length <;> decide
  have hpow : 2 ^ max 32 c.length.bits ≤ 2 ^ 64 := Nat.pow_le_pow_right (by decide) hbits
  have hlt := (arg.setWidth (max 32 c.length.bits)).isLt
  unfold passed valueOf
  split
  · rw [BitVec.toInt_eq_toNat_cond]
    split <;> omega
  · omega

/-- The text printed is the text of the standard only for an argument in its type and for digits that fit. -/
theorem printed_iff (width prec : Int) (arg : BitVec 64) :
    c.printed width prec arg = c.reference width prec arg ↔
      c.passed arg = c.converted arg ∧ c.DigitsFit prec (c.passed arg).natAbs := by
  simp only [printed, reference]
  have hiff := c.codeDigits_iff prec (c.passed_lt arg)
  constructor
  · intro h
    have habs : (c.passed arg).natAbs = (c.converted arg).natAbs := by
      have hcode := c.horner_layout (c.left width) (asc '0' ∈ c.flags ∧ prec < 0) width.natAbs (c.passed arg)
        (c.codeZeros prec (c.passed arg).natAbs) prec
      rw [← codeDigits_eq, h, digits_eq, horner_layout] at hcode
      exact hcode.symm
    have hminus : c.Signed ∧ c.passed arg < 0 ↔ c.Signed ∧ c.converted arg < 0 := by
      rw [← c.minus_mem_layout (c.left width) (asc '0' ∈ c.flags ∧ prec < 0) width.natAbs (c.passed arg)
        (c.isDigitOf_codeDigits prec _), h]
      exact c.minus_mem_layout _ _ _ _ (c.isDigitOf_digits prec _)
    have hvalue : c.passed arg = c.converted arg := by
      by_cases hs : c.Signed
      · simp only [hs, true_and] at hminus
        omega
      · have h1 : 0 ≤ c.passed arg := by
          rw [passed, valueOf, if_neg hs]
          omega
        have h2 : 0 ≤ c.converted arg := by
          rw [converted, valueOf, if_neg hs]
          omega
        omega
    refine ⟨hvalue, hiff.1 ?_⟩
    rw [← hvalue] at h
    by_cases hp : prec < 0
    · rw [hiff, DigitsFit]
      split
      · split <;> omega
      · omega
    · -- with a precision nothing but spaces is padded with
      have hzs : decide (asc '0' ∈ c.flags ∧ prec < 0) = false := decide_eq_false fun h => hp h.2
      have htext := congrArg digitsOf h
      rw [hzs, digitsOf_layout _ _ _ (c.sign_noDigit _) (c.isDigitOf_codeDigits prec _),
        digitsOf_layout _ _ _ (c.sign_noDigit _) (c.isDigitOf_digits prec _)] at htext
      simpa using htext
  · rintro ⟨hvalue, hfit⟩
    rw [← hvalue, hiff.2 hfit]

end IntConv

/-- A `printf` of an integer conversion prints the text of the standard if and only if the argument passed is one of
the type that the length modifier names and the precision is at most 64, or in octal with `#` asks for no zero that
`#` then repeats. -/
theorem int_conversion_iff (c : IntConv) (str : Nat → CString) (mem : Nat → UInt8) (ap : VaList)
    (hw : (c.fields ap).1 < INT_MAX) (hw' : -INT_MAX < (c.fields ap).1) (hp : (c.fields ap).2.1 < INT_MAX) :
    (vfprintf str mem c.format ap).map Prod.snd =
        some (c.reference (c.fields ap).1 (c.fields ap).2.1 (vaArg (c.fields ap).2.2).1) ↔
      c.passed (vaArg (c.fields ap).2.2).1 = c.converted (vaArg (c.fields ap).2.2).1 ∧
        c.DigitsFit (c.fields ap).2.1 (c.passed (vaArg (c.fields ap).2.2).1).natAbs := by
  rw [vfprintf_eq c str mem ap hw hw' hp, Option.some.injEq]
  exact c.printed_iff _ _ _

/-- The conversion `%5d`. -/
def paddedConv : IntConv := ⟨[], .digits [asc '5'], none, .none,
    asc 'd', by decide +kernel, Field.wellFormed_digits (by decide +kernel), by decide,
  fun _ h => (Option.not_mem_none _ h).elim, by decide⟩

theorem int_conversion_padded : (vfprintf (fun _ => ⟨[], by decide⟩) (fun _ => 0) paddedConv.format [42]).map Prod.snd =
    some (lit "   42") := by
  have hiff := int_conversion_iff paddedConv (fun _ => ⟨[], by decide⟩) (fun _ => 0) [42] (by decide) (by decide)
    (by decide)
  rw [hiff.2 (by decide)]
  decide

/-- The conversion `%hhd`. -/
def charConv : IntConv := ⟨[], .digits [], none, .hh,
    asc 'd', by decide +kernel, Field.wellFormed_digits (by decide +kernel), by decide,
  fun _ h => (Option.not_mem_none _ h).elim, by decide⟩

/-- `printf("%hhd", 300)` prints `300`, and `44` is the value converted to `signed char`. -/
theorem int_conversion_char : ¬∀ (c : IntConv) (str : Nat → CString) (mem : Nat → UInt8) (ap : VaList),
    (c.fields ap).1 < INT_MAX → -INT_MAX < (c.fields ap).1 → (c.fields ap).2.1 < INT_MAX →
    (vfprintf str mem c.format ap).map Prod.snd =
      some (c.reference (c.fields ap).1 (c.fields ap).2.1 (vaArg (c.fields ap).2.2).1) := by
  intro h
  have hchar := h charConv (fun _ => ⟨[], by decide⟩) (fun _ => 0) [300] (by decide) (by decide) (by decide)
  rw [vfprintf_eq _ _ _ _ (by decide) (by decide) (by decide)] at hchar
  revert hchar
  decide

end JACLibc.IntText
