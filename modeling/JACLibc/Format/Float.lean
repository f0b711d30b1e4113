import JACLibc.Format.PrintfSpec

/-!
# `%f` and `%e`: the measured length

Without a destination `__jacl_output_float` and `__jacl_output_exp` do not write, they compute how much they would
write.  What `__jacl_fdigits` answers is taken as it is (`FDigits`), since the length depends on its fields only.

`%f` measures what it writes as long as that fits an `int`.  `%e` measures an exponent of two or three digits, and
writes as many as the exponent has.  The special values are measured right, but their names are written as strings,
which a buffer without room for them is not done with.
-/

namespace JACLibc.Float

/-! ### The functions -/

/-- `__jacl_fdigits_t`: digits from `start` up to `stop`, the decimal exponent, and the sign. -/
structure FDigits where
  digits : List UInt8
  start : Nat
  stop : Nat
  exp : Int
  sign : Bool
  start_le : start ≤ stop
  stop_le : stop ≤ 40
  le_exp : -2 ^ 15 ≤ exp
  exp_lt : exp < 2 ^ 15

/-- `dec.digits[0] > '9'`: the value is no number or infinite. -/
def FDigits.Special (dec : FDigits) : Prop := charVal (asc '9') < charVal (dec.digits.getD 0 0)

instance (dec : FDigits) : Decidable dec.Special := inferInstanceAs (Decidable (_ < _))

/-- `!stream && (!out || !*out)` -/
def NoDest (k : Sink) : Prop := k.stream.isNone ∧ k.ptr.isNone

instance (k : Sink) : Decidable (NoDest k) := inferInstanceAs (Decidable (_ ∧ _))

/-- `len += f(..)` -/
def count (f : Sink → Counted) (w : Counted) : Counted := (w.1 + (f w.2).1, (f w.2).2)

/-- `return len;` -/
def result (w : Counted) : Int × Sink := (wrapInt w.1, w.2)

/-- `__jacl_output_special`; `nan` for `JACL_VAL_NAN`, else `JACL_VAL_INF`. -/
def outputSpecial (k : Sink) (spec : Spec) (nan neg : Bool) (width : Int) : Option (Int × Sink) :=
  let sign := neg || spec.plus || spec.spad
  let chars : Int := sign.toNat + 3
  let pad := if width > chars then width - chars else 0
  if NoDest k then some (chars + pad, k)
  else
    let name := if nan then (if spec.upper then lit "NAN" else lit "nan")
      else (if spec.upper then lit "INF" else lit "inf")
    let w := doIf sign (writeSign spec neg) (doIf (!spec.left) (writePad (asc ' ') pad) (0, k))
    (outputStr w.2 spec name 3 0).map fun r => result (doIf spec.left (writePad (asc ' ') pad) (w.1 + r.1, r.2))

/-- `if (prec < 0) prec = 6;` -/
def defaultPrec (prec : Int) : Int := if prec < 0 then 6 else prec

/-- The characters `dec.digits[i]` for `n` values of `i` from `first` on. -/
def FDigits.chars (dec : FDigits) (first n : Nat) : List UInt8 := (List.range n).map fun i =>
    dec.digits.getD (first + i) 0

/-- `ipart` of `__jacl_output_float`: the digits in front of the point. -/
def FDigits.ipart (dec : FDigits) : Int := if dec.exp ≥ 0 then dec.exp + 1 else 0

/-- `whole`: those of them that are digits of the value. -/
def FDigits.whole (dec : FDigits) : Int :=
  let digits : Int := dec.stop - dec.start
  if dec.ipart < digits then dec.ipart else digits

/-- `lead`: the zeros behind the point. -/
def FDigits.lead (dec : FDigits) : Int := if dec.exp < 0 then -(dec.exp + 1) else 0

/-- `post`: the digits of the value behind the point. -/
def FDigits.post (dec : FDigits) (prec : Int) : Int :=
  let i : Int := dec.stop - dec.start - dec.whole
  let post := if i < prec - dec.lead then i else prec - dec.lead
  if post < 0 then 0 else post

/-- `trail`: the zeros at the end. -/
def FDigits.trail (dec : FDigits) (prec : Int) : Int :=
  let trail := prec - dec.lead - dec.post prec
  if trail < 0 then 0 else trail

/-- `__jacl_output_float`; `dec` is what `__jacl_fdigits` answers, and `nan` tells whether `val != val`. -/
def outputFloat (k : Sink) (spec : Spec) (dec : FDigits) (nan : Bool) (prec width : Int) : Option (Int × Sink) :=
  let prec := defaultPrec prec
  let sign := dec.sign || spec.plus || spec.spad
  if dec.Special then outputSpecial k spec nan dec.sign width
  else
    let point := decide (prec > 0) || spec.pref
    let total := wrapInt (sign.toNat + (if dec.ipart ≠ 0 then dec.ipart else 1) + point.toNat + dec.lead +
      dec.post prec + dec.trail prec)
    let pad := if width > total then wrapInt (width - total) else 0
    if NoDest k then some (wrapInt (total + pad), k)
    else
      some (result
        (doIf spec.left (writePad (asc ' ') pad)
          (writePad (asc '0') (dec.trail prec)
            (writeChars (dec.chars (dec.start + dec.whole.toNat) (dec.post prec).toNat)
              (writePad (asc '0') dec.lead
                (doIf point (putChar (asc '.'))
                  (doIf (dec.ipart ≠ 0) (fun w => writePad (asc '0') (dec.ipart - dec.whole)
                    (writeChars (dec.chars dec.start dec.whole.toNat) w))
                    (doIf (dec.ipart = 0) (putChar (asc '0'))
                      (doIf (!spec.left && spec.zpad) (writePad (asc '0') pad)
                        (doIf sign (writeSign spec dec.sign)
                          (doIf (!spec.left && !spec.zpad) (writePad (asc ' ') pad) (0, k))))))))))))

/-- `__jacl_output_exp` -/
def outputExp (k : Sink) (spec : Spec) (dec : FDigits) (nan : Bool) (prec width : Int) : Option (Int × Sink) :=
  let prec := defaultPrec prec
  let sign := dec.sign || spec.plus || spec.spad
  let expval := if dec.exp < 0 then -dec.exp else dec.exp
  let expdig := if expval < 10 then 2 else if expval < 100 then 2 else 3
  let point := decide (prec > 0) || spec.pref
  let total := wrapInt (sign.toNat + 1 + point.toNat + prec + 2 + expdig)
  let pad := if width > total then wrapInt (width - total) else 0
  if dec.Special then outputSpecial k spec nan dec.sign width
  else if NoDest k then some (wrapInt (total + pad), k)
  else
    let shown := min (dec.stop - (dec.start + 1)) prec.toNat
    some (result
      (doIf spec.left (writePad (asc ' ') pad)
        (count (fun k => outputInt k .zero (BitVec.ofInt 64 expval) 2 0)
          (putChar (if dec.exp < 0 then asc '-' else asc '+')
            (putChar (if spec.upper then asc 'E' else asc 'e')
              (writePad (asc '0') (prec - shown)
                (writeChars (dec.chars (dec.start + 1) shown)
                  (doIf point (putChar (asc '.'))
                    (putChar (dec.digits.getD dec.start 0)
                      (doIf (!spec.left && spec.zpad) (writePad (asc '0') pad)
                        (doIf sign (writeSign spec dec.sign)
                          (doIf (!spec.left && !spec.zpad) (writePad (asc ' ') pad) (0, k)))))))))))))

/-! ### What is measured -/

/-- The text is what a call with this destination writes before it returns. -/
def Writes (f : Sink → Option (Int × Sink)) (k : Sink) (text : List UInt8) : Prop :=
  (f k).map Prod.snd = some (emit k text)

/-- The destination is written what a stream is written, and without a destination its length is the answer and
nothing is done. -/
def Measures (f : Sink → Option (Int × Sink)) (k : Sink) : Prop :=
  ∃ text : List UInt8, (∀ k, k.stream.isSome → Writes f k text) ∧ Writes f k text ∧
    ∀ k, NoDest k → f k = some ((text.length : Int), k)

/-- The number of characters of a special value up to the end of its name: the padding in front, the sign and three
letters. -/
def specialLength (spec : Spec) (neg : Bool) (width : Int) : Nat :=
  if spec.left then (neg || spec.plus || spec.spad).toNat + 3
    else max width.toNat ((neg || spec.plus || spec.spad).toNat + 3)

/-- The number of characters of `%f` without padding. -/
def floatLength (spec : Spec) (dec : FDigits) (prec : Int) : Int :=
  (dec.sign || spec.plus || spec.spad).toNat + max (dec.exp + 1) 1 +
    (decide (defaultPrec prec > 0) || spec.pref).toNat + max (defaultPrec prec) (-(dec.exp + 1))

/-- The number of characters of `%e` without padding, for an exponent of at most three digits. -/
def expLength (spec : Spec) (dec : FDigits) (prec : Int) : Int :=
  (dec.sign || spec.plus || spec.spad).toNat + 1 + (decide (defaultPrec prec > 0) || spec.pref).toNat +
    defaultPrec prec + 2 + (if dec.exp.natAbs < 100 then 2 else 3)

section

variable {spec : Spec} {neg : Bool}

/-- The sign is written as one character, when there is one. -/
theorem length_writtenSign {s : Bool} (hs : (neg || spec.plus || spec.spad) = s) :
    (if s then (if neg then [asc '-'] else if spec.plus then [asc '+'] else if spec.spad then [asc ' '] else [])
    else []).length =
      s.toNat := by
  subst hs
  cases neg <;> cases spec.plus <;> cases spec.spad <;> rfl

theorem count_eq {f : Sink → Counted} {text : List UInt8} (hf : ∀ k, f k = Counted.send (0, k) text) (w : Counted) :
    count f w = w.send text := by
  rw [count, hf]
  simp [Counted.send]

theorem result_send (k : Sink) (text : List UInt8) :
    result (Counted.send (0, k) text) = (wrapInt text.length, emit k text) := by
  simp [result, Counted.send]

theorem not_noDest {k : Sink} (hs : k.stream.isSome) : ¬NoDest k := by
  intro h
  rw [Option.isNone_iff_eq_none.1 h.1] at hs
  exact absurd hs (by simp)

/-- A function that writes a text of its own to a stream, and measures it by `n` where there is no destination. -/
theorem measures_iff {f : Sink → Option (Int × Sink)} {text : List UInt8} {n : Int}
    (hwrites : ∀ k, k.stream.isSome → Writes f k text) (hnull : ∀ k, NoDest k → f k = some (n, k)) (k : Sink) :
    Measures f k ↔ Writes f k text ∧ n = text.length := by
  constructor
  · rintro ⟨text', hwrites', hwrite, hnull'⟩
    -- a stream gets the text, so that it is the only one
    have hsame := (hwrites' ⟨some [], fun _ => 0, none, 0⟩ rfl).symm.trans (hwrites _ rfl)
    rw [emit_stream rfl, emit_stream rfl] at hsame
    have htext : text' = text := by simpa using hsame
    have hn := (hnull' ⟨none, fun _ => 0, none, 0⟩ ⟨rfl, rfl⟩).symm.trans (hnull _ ⟨rfl, rfl⟩)
    rw [← htext]
    exact ⟨hwrite, (Prod.mk.inj (Option.some.inj hn)).1.symm⟩
  · rintro ⟨hwrite, rfl⟩
    exact ⟨text, hwrites, hwrite, hnull⟩

/-- A sum and its padding, as they are measured in `int`. -/
theorem measured_total {total width : Int} (h0 : 0 ≤ total) (hw : width ≤ INT_MAX) :
    wrapInt (wrapInt total + (if width > wrapInt total then wrapInt (width - wrapInt total) else 0)) =
      total + (if width > wrapInt total then wrapInt (width - wrapInt total) else 0 : Int).toNat ↔ total ≤ INT_MAX := by
  constructor
  · intro h
    have := wrapInt_le (wrapInt total + (if width > wrapInt total then wrapInt (width - wrapInt total) else 0))
    omega
  · intro h
    rw [wrapInt_of_le h0 h]
    split
    · have hpad : wrapInt (width - total) = width - total := wrapInt_of_le (by omega) (by omega)
      rw [hpad, wrapInt_of_le (by omega) (by omega)]
      omega
    · rw [Int.add_zero, wrapInt_of_le h0 h]
      simp

end

/-! ### The texts -/

section

variable (spec : Spec) (dec : FDigits) (nan : Bool) (prec width : Int)

/-- A text with the padding `pad` on the left, behind its sign or on the right. -/
def padText (sign zeros : List UInt8) (pad : Nat) : List UInt8 → List UInt8 := fun body =>
  (if !spec.left && !spec.zpad then List.replicate pad (asc ' ') else []) ++ sign ++ zeros ++ body ++
    (if spec.left then List.replicate pad (asc ' ') else [])

/-- The sign that `__jacl_write_sign` writes. -/
def signText (neg : Bool) : List UInt8 :=
  if neg || spec.plus || spec.spad then
    (if neg then [asc '-'] else if spec.plus then [asc '+'] else if spec.spad then [asc ' '] else [])
  else []

theorem length_signText_eq (neg : Bool) : (signText spec neg).length = (neg || spec.plus || spec.spad).toNat :=
  length_writtenSign rfl

@[simp]
theorem FDigits.length_chars (first n : Nat) : (dec.chars first n).length = n := by
  rw [FDigits.chars, List.length_map, List.length_range]

/-- Padding stands in exactly one place. -/
theorem length_padText {body : List UInt8} {neg : Bool} {pad : Nat} :
    (padText spec (signText spec neg) (if !spec.left && spec.zpad then List.replicate pad (asc '0')
    else []) pad body).length =
      (neg || spec.plus || spec.spad).toNat + body.length + pad := by
  have hpad : (if !spec.left && !spec.zpad then List.replicate pad (asc ' ') else []).length +
      (if !spec.left && spec.zpad then List.replicate pad (asc '0') else []).length +
      (if spec.left then List.replicate pad (asc ' ') else []).length = pad := by
    cases spec.left <;> cases spec.zpad <;> simp
  rw [padText, List.length_append, List.length_append, List.length_append, List.length_append, length_signText_eq]
  omega

/-- A special value is measured right, and written where its name has a place. -/
theorem outputSpecial_measures_iff (neg : Bool) {k : Sink} (hk : ¬NoDest k) :
    Measures (fun k => outputSpecial k spec nan neg width) k ↔ k.Room (specialLength spec neg width) := by
  let name := if nan then (if spec.upper then lit "NAN" else lit "nan")
    else (if spec.upper then lit "INF" else lit "inf")
  have hlen : name.length = 3 := by
    simp only [name]
    cases nan <;> cases spec.upper <;> rfl
  have hname : ∀ w : Counted, outputStr w.2 spec name 3 0 = Counted.print (0, w.2) ⟨name, 3⟩ := by
    intro w
    have hspan : strSpan 3 name 0 = 3 := by
      simp only [name]
      cases nan <;> cases spec.upper <;> decide
    rw [outputStr_eq]
    simp only [strText, show ¬(3 : Int) < 0 by decide, if_false, hspan, show ¬(0 : Int) > ((3 : Nat) : Int) by decide,
      List.take_of_length_le hlen.le, hlen, Int.toNat_zero, List.replicate_zero, ite_self, Printed.append_nil,
      Printed.nil_append]
  let chars : Int := (neg || spec.plus || spec.spad).toNat + 3
  let pad : Int := if width > chars then width - chars else 0
  have hpad : 0 ≤ pad := by
    simp only [pad]
    split <;> omega
  let front := (if !spec.left then List.replicate pad.toNat (asc ' ') else []) ++ signText spec neg
  let back := if spec.left then List.replicate pad.toNat (asc ' ') else []
  have hfront : front.length + 3 = specialLength spec neg width := by
    simp only [front, List.length_append, length_signText_eq, specialLength, pad, chars]
    cases spec.left with
    | true => simp
    | false =>
      simp only [Bool.not_false, if_true, List.length_replicate, Bool.false_eq_true, if_false]
      split <;> omega
  have htext : ((front ++ name ++ back).length : Int) = chars + pad := by
    simp only [front, back, List.length_append, length_signText_eq, hlen, chars]
    cases spec.left <;> simp <;> omega
  -- what a call with a destination does
  have hwrite : ∀ k, ¬NoDest k → outputSpecial k spec nan neg width =
      (Counted.print (0, k) ⟨front ++ name, front.length + 3⟩).map fun w => result (w.send back) := by
    intro k hk
    have hsplit : Printed.mk (front ++ name) (front.length + 3) = (Printed.plain front).append ⟨name, 3⟩ := by
      simp [Printed.append, Printed.plain]
    have hstart : ∀ w : Counted, doIf (neg || spec.plus || spec.spad) (writeSign spec neg)
        (doIf (!spec.left) (writePad (asc ' ') pad) w) = w.send front := by
      intro w
      simp only [doIf_eq (writePad_eq _ _), doIf_eq (writeSign_eq _ _), send_send, front, signText]
    rw [hsplit, print_append, print_plain, Option.bind_some]
    simp only [outputSpecial, if_neg hk]
    rw [hstart, hname]
    rw [print_count (Counted.send (0, k) front), Option.map_map]
    refine Option.map_congr fun r _ => congrArg result ?_
    exact doIf_eq (writePad_eq _ _) spec.left _
  have hroom : ∀ k, ¬NoDest k → (Writes (fun k => outputSpecial k spec nan neg width) k (front ++ name ++ back) ↔
      k.Room (specialLength spec neg width)) := by
    intro k hk
    rw [Writes, hwrite k hk, ← hfront, Counted.print]
    split
    · rename_i h
      refine iff_of_true ?_ h
      simp [result, Counted.send, emit_append]
    · rename_i h
      exact iff_of_false (by simp) h
  rw [measures_iff (fun k hs => (hroom k (not_noDest hs)).2 (.inr (.inl hs))) (fun k hk => if_pos hk) k, hroom k hk]
  exact and_iff_left htext.symm

/-- What the writing part of `__jacl_output_float` writes behind the sign and the padding. -/
def floatBody (prec : Int) : List UInt8 :=
  (if dec.ipart = 0 then [asc '0'] else []) ++
    (if dec.ipart ≠ 0 then dec.chars dec.start dec.whole.toNat ++ List.replicate (dec.ipart - dec.whole).toNat
    (asc '0') else []) ++ (if decide (prec > 0) || spec.pref then [asc '.'] else []) ++
      List.replicate dec.lead.toNat (asc '0') ++
    dec.chars (dec.start + dec.whole.toNat) (dec.post prec).toNat ++ List.replicate (dec.trail prec).toNat (asc '0')

/-- What the writing part of `__jacl_output_exp` writes between the sign and the digits of the exponent. -/
def expBody (prec : Int) : List UInt8 :=
  let shown := min (dec.stop - (dec.start + 1)) prec.toNat
  [dec.digits.getD dec.start 0] ++ (if decide (prec > 0) || spec.pref then [asc '.'] else []) ++
    dec.chars (dec.start + 1) shown ++ List.replicate (prec - shown).toNat (asc '0') ++
    [if spec.upper then asc 'E' else asc 'e'] ++ [if dec.exp < 0 then asc '-' else asc '+']

theorem length_point (prec : Int) : (if decide (prec > 0) || spec.pref then [asc '.'] else []).length =
    (decide (prec > 0) || spec.pref).toNat := by
  cases decide (prec > 0) || spec.pref <;> rfl

/-- The parts of a number: no part is negative, and behind the point there are as many digits as are asked for, or
more zeros. -/
theorem FDigits.parts (prec : Int) : 0 ≤ dec.whole ∧ dec.whole ≤ dec.ipart ∧ 0 ≤ dec.lead ∧ 0 ≤ dec.post prec ∧
    0 ≤ dec.trail prec ∧ dec.lead + dec.post prec + dec.trail prec = max prec dec.lead := by
  have hdigits := dec.start_le
  simp only [FDigits.trail, FDigits.post, FDigits.whole, FDigits.lead, FDigits.ipart]
  refine ⟨?_, ?_, ?_, ?_, ?_, ?_⟩ <;> split_ifs <;> omega

theorem length_floatBody (prec : Int) : ((floatBody spec dec prec).length : Int) =
    (if dec.ipart ≠ 0 then dec.ipart else 1) + (decide (prec > 0) || spec.pref).toNat + dec.lead + dec.post prec +
    dec.trail prec := by
  obtain ⟨hwhole, hle, hlead, hpost, htrail, -⟩ := dec.parts prec
  simp only [floatBody, List.length_append, List.length_replicate, FDigits.length_chars, length_point]
  by_cases h0 : dec.ipart = 0
  · simp only [h0, if_true, ne_eq, not_true, if_false, List.length_singleton, List.length_nil]
    omega
  · simp only [h0, if_false, ne_eq, not_false_eq_true, if_true, List.length_append, List.length_replicate,
      FDigits.length_chars, List.length_nil]
    omega

theorem length_expBody {prec : Int} (hp : 0 ≤ prec) :
    ((expBody spec dec prec).length : Int) = 1 + (decide (prec > 0) || spec.pref).toNat + prec + 2 := by
  simp only [expBody, List.length_append, List.length_replicate, FDigits.length_chars, length_point,
    List.length_singleton]
  omega

end

/-! ### The measured lengths -/

section

variable (spec : Spec) (dec : FDigits) (nan : Bool) {prec width : Int}

theorem le_defaultPrec (prec : Int) : 0 ≤ defaultPrec prec := by
  unfold defaultPrec
  split <;> omega

theorem floatLength_eq (prec : Int) : floatLength spec dec prec = (dec.sign || spec.plus || spec.spad).toNat +
    (floatBody spec dec (defaultPrec prec)).length := by
  obtain ⟨-, -, -, -, -, hsum⟩ := dec.parts (defaultPrec prec)
  have := le_defaultPrec prec
  rw [length_floatBody, floatLength]
  simp only [FDigits.lead, FDigits.ipart] at hsum ⊢
  split_ifs at hsum ⊢ <;> omega

/-- A text with the padding that is computed from its measured length. -/
def paddedText (neg : Bool) (total width : Int) (body : List UInt8) : List UInt8 :=
  let pad : Int := if width > wrapInt total then wrapInt (width - wrapInt total) else 0
  padText spec (signText spec neg) (if !spec.left && spec.zpad then List.replicate pad.toNat (asc '0')
    else []) pad.toNat body

/-- A function that measures `total` and its padding, and writes `extra` characters more. -/
theorem measures_paddedText {f : Sink → Option (Int × Sink)} (neg : Bool) {total : Int} (extra : Nat)
    (body : List UInt8) (hw : width ≤ INT_MAX) (h0 : 0 ≤ total)
    (hbody : ((neg || spec.plus || spec.spad).toNat : Int) + body.length = total + extra)
    (hwrites : ∀ k, ¬NoDest k → Writes f k (paddedText spec neg total width body)) (hnull : ∀ k, NoDest k →
      f k = some (wrapInt (wrapInt total + (if width > wrapInt total then wrapInt (width - wrapInt total) else 0)), k))
    {k : Sink} (hk : ¬NoDest k) : Measures f k ↔ extra = 0 ∧ total ≤ INT_MAX := by
  rw [measures_iff (fun k hs => hwrites k (not_noDest hs)) hnull, and_iff_right (hwrites k hk), paddedText,
    length_padText]
  have hmeasured := measured_total h0 hw
  have hle := wrapInt_le (wrapInt total + (if width > wrapInt total then wrapInt (width - wrapInt total) else 0))
  push_cast
  constructor
  · intro h
    by_cases hextra : extra = 0
    · refine ⟨hextra, hmeasured.1 ?_⟩
      omega
    · exfalso
      -- more is written than is measured
      by_cases hfits : total ≤ INT_MAX
      · have := hmeasured.2 hfits
        omega
      · omega
  · rintro ⟨rfl, hfits⟩
    have := hmeasured.2 hfits
    omega

theorem outputFloat_measures_iff (hw : width ≤ INT_MAX) {k : Sink} (hk : ¬NoDest k) :
    Measures (fun k => outputFloat k spec dec nan prec width) k ↔
      if dec.Special then k.Room (specialLength spec dec.sign width) else floatLength spec dec prec ≤ INT_MAX := by
  by_cases hspecial : dec.Special
  · have heq : (fun k => outputFloat k spec dec nan prec width) = fun k => outputSpecial k spec nan dec.sign width := by
      funext k
      rw [outputFloat, if_pos hspecial]
    rw [heq, if_pos hspecial]
    exact outputSpecial_measures_iff spec nan width dec.sign hk
  · have hlen := floatLength_eq spec dec prec
    have htotal : ((dec.sign || spec.plus || spec.spad).toNat : Int) + (if dec.ipart ≠ 0 then dec.ipart else 1) +
        (decide (defaultPrec prec > 0) || spec.pref).toNat + dec.lead + dec.post (defaultPrec prec) +
        dec.trail (defaultPrec prec) = floatLength spec dec prec := by
      rw [hlen, length_floatBody]
      omega
    have hint : ∀ w, doIf (dec.ipart ≠ 0) (fun w => w.send (dec.chars dec.start dec.whole.toNat ++
        List.replicate (dec.ipart - dec.whole).toNat (asc '0'))) w =
        w.send (if dec.ipart ≠ 0 then dec.chars dec.start dec.whole.toNat ++
        List.replicate (dec.ipart - dec.whole).toNat (asc '0') else []) := fun w => by
      rw [doIf_eq fun _ => rfl]
      simp only [decide_eq_true_eq]
    rw [measures_paddedText spec dec.sign 0 (floatBody spec dec (defaultPrec prec)) hw
      (show 0 ≤ floatLength spec dec prec by omega)
      (by omega) ?_ ?_ hk]
    · simp [hspecial]
    · intro k hk
      simp only [Writes, Option.map_some, outputFloat, if_neg hspecial, if_neg hk, htotal, hint,
        doIf_eq (writePad_eq _ _), doIf_eq (putChar_eq _), doIf_eq (writeSign_eq _ _), writePad_eq, writeChars_eq,
        send_send, result_send, paddedText, padText, signText, floatBody, decide_eq_true_eq, List.append_assoc]
    · intro k hk
      simp only [outputFloat, if_neg hspecial, if_pos hk, htotal]

/-- The exponent as `__jacl_output_int` writes it: two digits at least. -/
theorem length_expDigits (v : Nat) : (intBuf .zero v 2).length = max (decDigits v).length 2 := by
  have hbuf : intBuf .zero v 2 = decDigits v ++ List.replicate (min 2 64 - (decDigits v).length : Int).toNat
    (asc '0') := by
    unfold intBuf
    rw [if_neg (by omega), if_neg (show ¬(Spec.zero.base = 16 ∨ Spec.zero.base = 8 ∨ Spec.zero.base = 2) by decide)]
    split
    · rename_i h
      rw [h, decDigits]
      rfl
    · rfl
  rw [hbuf, List.length_append, List.length_replicate]
  omega

theorem length_decDigits (v : Nat) : ((decDigits v).length ≤ 2 ↔ v < 100) ∧ ((decDigits v).length = 3 ↔
    100 ≤ v ∧ v < 1000) := by
  have hpos : ∀ v, 0 < (decDigits v).length := by
    intro v
    rw [decDigits]
    split
    · exact Nat.succ_pos _
    · split <;> exact Nat.succ_pos _
  rw [decDigits]
  split
  · rw [List.length_cons, List.length_cons]
    have h := hpos (v / 100)
    have hone : (decDigits (v / 100)).length = 1 ↔ v / 100 < 10 := by
      rw [decDigits]
      split
      · rw [List.length_cons, List.length_cons]
        omega
      · split
        · simp
          omega
        · simp
          omega
    omega
  · split
    · simp
      omega
    · simp
      omega

theorem outputExp_measures_iff (hw : width ≤ INT_MAX) {k : Sink} (hk : ¬NoDest k) :
    Measures (fun k => outputExp k spec dec nan prec width) k ↔
      if dec.Special then k.Room (specialLength spec dec.sign width) else dec.exp.natAbs < 1000 ∧
      expLength spec dec prec ≤ INT_MAX := by
  by_cases hspecial : dec.Special
  · have heq : (fun k => outputExp k spec dec nan prec width) = fun k => outputSpecial k spec nan dec.sign width := by
      funext k
      rw [outputExp, if_pos hspecial]
    rw [heq, if_pos hspecial]
    exact outputSpecial_measures_iff spec nan width dec.sign hk
  · have hprec := le_defaultPrec prec
    have hexpval : (if dec.exp < 0 then -dec.exp else dec.exp) = (dec.exp.natAbs : Int) := by
      split <;> omega
    have hdigits := outputInt_eq .zero (BitVec.ofInt 64 dec.exp.natAbs) 2 0
    generalize outputIntText .zero (BitVec.ofInt 64 dec.exp.natAbs) 2 0 = digits at hdigits
    have hlow := dec.le_exp
    have hhigh := dec.exp_lt
    have hval : (BitVec.ofInt 64 (dec.exp.natAbs : Int)).toNat = dec.exp.natAbs := by
      rw [BitVec.toNat_ofInt]
      omega
    have hlen : digits.length = (intBuf .zero dec.exp.natAbs 2).length := by
      -- what is measured without a destination
      have hnull := congrArg Prod.fst (hdigits ⟨none, fun _ => 0, none, 0⟩)
      have hzero : Spec.zero.sign = false ∧ Spec.zero.pref = false := ⟨rfl, rfl⟩
      simp only [outputInt, hzero, Bool.false_and, Bool.false_eq_true, if_false, false_and, hval, Bool.toNat_false,
        Option.isNone_none, and_self, if_true, Counted.send, zero_add] at hnull
      rw [← hnull, if_neg (by omega)]
      omega
    have htotal : ((dec.sign || spec.plus || spec.spad).toNat : Int) + 1 +
      (decide (defaultPrec prec > 0) || spec.pref).toNat +
        defaultPrec prec + 2 + (if (dec.exp.natAbs : Int) < 10 then 2 else if (dec.exp.natAbs : Int) < 100 then 2
        else 3) = expLength spec dec prec := by
      rw [expLength]
      split_ifs <;> omega
    have hbody := length_expBody spec dec hprec
    obtain ⟨htwo, hthree⟩ := length_decDigits dec.exp.natAbs
    rw [length_expDigits] at hlen
    rw [measures_paddedText spec dec.sign (digits.length - (if dec.exp.natAbs < 100 then 2 else 3))
      (expBody spec dec (defaultPrec prec) ++ digits) hw
        (show 0 ≤ expLength spec dec prec by rw [← htotal]; split_ifs <;> omega) ?_ ?_ ?_
      hk]
    · rw [if_neg hspecial]
      refine and_congr_left' ?_
      split_ifs <;> omega
    · rw [List.length_append, expLength]
      split_ifs <;> omega
    · intro k hk
      simp only [Writes, Option.map_some, outputExp, if_neg hspecial, if_neg hk, hexpval, htotal,
        doIf_eq (writePad_eq _ _), doIf_eq (putChar_eq _), doIf_eq (writeSign_eq _ _), writePad_eq, putChar_eq,
        writeChars_eq, count_eq hdigits, send_send, result_send, paddedText, padText, signText, expBody,
        List.append_assoc]
    · intro k hk
      simp only [outputExp, if_neg hspecial, if_pos hk, hexpval, htotal]

end

/-- What `__jacl_output_float` and `__jacl_output_exp` answer without a destination is the number of characters that
they write when there is one: for the special values exactly when the destination has room for the padding in front,
the sign and the name; for numbers whatever the destination, exactly when the text fits an `int`, and for `%e` when
also the exponent has at most three digits. -/
theorem measured_iff (spec : Spec) (dec : FDigits) (nan : Bool) (prec width : Int) (hw : width ≤ INT_MAX) (k : Sink)
    (hk : ¬NoDest k) :
    (Measures (fun k => outputFloat k spec dec nan prec width) k ↔
      if dec.Special then k.Room (specialLength spec dec.sign width) else floatLength spec dec prec ≤ INT_MAX) ∧
    (Measures (fun k => outputExp k spec dec nan prec width) k ↔
      if dec.Special then k.Room (specialLength spec dec.sign width)
      else dec.exp.natAbs < 1000 ∧ expLength spec dec prec ≤ INT_MAX) :=
  ⟨outputFloat_measures_iff spec dec nan hw hk, outputExp_measures_iff spec dec nan hw hk⟩

/-- One digit and an exponent. -/
def oneDigit (exp : Int) (le_exp : -2 ^ 15 ≤ exp) (exp_lt : exp < 2 ^ 15) : FDigits where
  digits := [asc '1']
  start := 0
  stop := 1
  exp := exp
  sign := false
  start_le := by omega
  stop_le := by omega
  le_exp := le_exp
  exp_lt := exp_lt

/-- 100 with two digits behind the point, into a buffer of three bytes. -/
theorem measured_iff_hundred :
    Measures (fun k => outputFloat k .zero (oneDigit 2 (by decide) (by decide)) false 2 0) ⟨none, fun _ => 0,
    some 100, 3⟩ ∧
      Measures (fun k => outputExp k .zero (oneDigit 2 (by decide) (by decide)) false 2 0) ⟨none, fun _ => 0,
      some 100, 3⟩ :=
  have h := measured_iff .zero (oneDigit 2 (by decide) (by decide)) false 2 0 (by decide)
    ⟨none, fun _ => 0, some 100, 3⟩ (by decide)
  ⟨h.1.2 (by decide), h.2.2 (by decide)⟩

/-- `%e` of `1e1000` is measured as 13 characters, and 14 are written. -/
theorem measured_thousand :
    ¬Measures (fun k => outputExp k .zero (oneDigit 1000 (by decide) (by decide)) false 6 0) ⟨some [], fun _ => 0,
    none, 0⟩ := by
  intro h
  exact absurd ((outputExp_measures_iff _ _ _ (by decide) (by decide)).1 h) (by decide)

end JACLibc.Float
