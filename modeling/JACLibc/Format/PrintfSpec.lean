import JACLibc.Format.Printf

/-!
# The truncation law of `vsnprintf`

What the formatter writes does not depend on where it writes to: for every format and argument list there is one text
(`formatText`), and a sink has that text sent through it and its length counted (`printfLoop_text`).  For the integer
conversions this says that the count returned early, when there is nothing to write to, is the number of characters
the writing path produces.

A string is another matter: the loop over its characters ends only where each of them finds a place.  So a text comes
with the length of its part up to the last character of a string, and a sink without room for that part is written to
for ever.

With the three kinds of sink of `Format.Sink` this gives the law: `vsnprintf` returns the length of the text, and stores
the part of the text that fits and one NUL, exactly for the buffers that all characters of strings find a place in
(`vsnprintf_truncation_iff`).
-/

namespace JACLibc

/-! ### Texts, and the room they need -/

/-- What is printed: the text, and the length of its part up to the last character of a string. -/
structure Printed where
  text : List UInt8
  need : Nat
  deriving DecidableEq

namespace Printed

/-- A text without strings. -/
def plain (text : List UInt8) : Printed := ⟨text, 0⟩

/-- One text behind another. -/
def append (p q : Printed) : Printed :=
  ⟨p.text ++ q.text, if q.need = 0 then p.need else max p.need (p.text.length + q.need)⟩

@[simp] theorem append_nil (p : Printed) : p.append (plain []) = p := by
  simp [append, plain]

@[simp] theorem nil_append (p : Printed) : (plain []).append p = p := by
  cases p
  simp only [append, plain, List.nil_append, List.length_nil, Nat.zero_add, Nat.zero_max, mk.injEq, true_and]
  split <;> omega

theorem append_assoc (p q r : Printed) : (p.append q).append r = p.append (q.append r) := by
  simp only [append, List.append_assoc, List.length_append, mk.injEq, true_and]
  split_ifs <;> omega

end Printed

/-- There is a place for `n` characters. -/
def Sink.Room (k : Sink) (n : Nat) : Prop := n = 0 ∨ k.stream.isSome = true ∨ (k.ptr.isSome = true ∧ n ≤ k.rem)

instance (k : Sink) (n : Nat) : Decidable (k.Room n) := inferInstanceAs (Decidable (_ ∨ _ ∨ _))

/-- A text counted and sent, where the sink has room. -/
def Counted.print (w : Counted) (p : Printed) : Option Counted := if w.2.Room p.need then some (w.send p.text) else none

theorem Sink.Room.mono {k : Sink} {m n : Nat} (h : k.Room n) (hle : m ≤ n) : k.Room m := by
  rcases h with rfl | h | h
  · exact .inl (Nat.le_zero.1 hle)
  · exact .inr (.inl h)
  · exact .inr (.inr ⟨h.1, hle.trans h.2⟩)

/-- The room that is left behind a text. -/
theorem room_emit {k : Sink} {text : List UInt8} {n : Nat} (hn : n ≠ 0) : (emit k text).Room n ↔
    k.Room (text.length + n) := by
  rcases hs : k.stream with _ | sent
  · rcases hp : k.ptr with _ | p
    · rw [emit_null hs hp]
      simp [Sink.Room, hs, hp, hn]
    · rw [emit_buffer hs hp]
      simp only [Sink.Room, hs, hp, hn, Option.isSome_none, Option.isSome_some, Bool.false_eq_true, false_or, true_and,
        Nat.add_eq_zero_iff, and_false]
      omega
  · rw [emit_stream hs]
    simp [Sink.Room, hs]

@[simp] theorem print_plain (w : Counted) (text : List UInt8) : w.print (.plain text) = some (w.send text) :=
  if_pos (.inl rfl)

theorem print_append (w : Counted) (p q : Printed) : w.print (p.append q) = (w.print p).bind fun w => w.print q := by
  have hsend : (w.send p.text).send q.text = w.send (p.text ++ q.text) := send_send w p.text q.text
  by_cases hp : w.2.Room p.need
  · rw [Counted.print, Counted.print, if_pos hp, Option.bind_some, Counted.print, hsend]
    refine if_congr ?_ rfl rfl
    by_cases hq : q.need = 0
    · rw [Printed.append, if_pos hq, hq]
      exact iff_of_true hp (.inl rfl)
    · have hroom : (w.send p.text).2.Room q.need ↔ w.2.Room (p.text.length + q.need) := room_emit hq
      rw [Printed.append, if_neg hq, hroom]
      refine ⟨fun h => h.mono (Nat.le_max_right _ _), fun h => ?_⟩
      rcases Nat.le_total p.need (p.text.length + q.need) with hle | hle
      · rwa [Nat.max_eq_right hle]
      · rwa [Nat.max_eq_left hle]
  · rw [Counted.print, Counted.print, if_neg hp, Option.bind_none]
    refine if_neg fun h => hp (h.mono ?_)
    rw [Printed.append]
    split
    · exact Nat.le_refl _
    · exact Nat.le_max_left _ _

/-- `len += f(..)` -/
theorem print_count (w : Counted) (p : Printed) : w.print p = (Counted.print (0, w.2) p).map fun r =>
    (w.1 + r.1, r.2) := by
  simp only [Counted.print]
  split
  · simp [Counted.send]
  · rfl

/-! ### Output functions send a text of their own -/

theorem writeChars_eq (cs : List UInt8) (w : Counted) : writeChars cs w = w.send cs := by
  induction cs generalizing w with
  | nil => rfl
  | cons c cs ih =>
    rw [show writeChars (c :: cs) w = writeChars cs (putChar c w) from rfl, ih, putChar_eq, send_send]
    rfl

theorem writeSign_eq (spec : Spec) (neg : Bool) (w : Counted) : writeSign spec neg w =
    w.send (if neg then [asc '-'] else if spec.plus then [asc '+'] else if spec.spad then [asc ' '] else []) := by
  unfold writeSign
  simp only [putChar_eq]
  split
  · rfl
  · split
    · rfl
    · split <;> simp

/-- A body with its padding on the left or on the right. -/
private def padded (left : Bool) (pad : Nat) (body : List UInt8) : List UInt8 :=
  (if !left then List.replicate pad (asc ' ') else []) ++ body ++
    (if left then List.replicate pad (asc ' ') else [])

/-- Without room for the next character no number of turns is enough. -/
theorem strLoop_forever {fuel : Nat} {c : UInt8} {str : List UInt8} {w : Counted} (h : ¬w.2.takes = true) :
    strLoop fuel (c :: str) w = none := by
  induction fuel generalizing w with
  | zero => rfl
  | succ fuel ih =>
    rw [strLoop, if_neg h]
    exact ih h

/-- The loop over a string sends it where there is room for all of it. -/
theorem strLoop_eq {fuel : Nat} {str : List UInt8} (hfuel : str.length ≤ fuel) (w : Counted) :
    strLoop fuel str w = w.print ⟨str, str.length⟩ := by
  induction fuel generalizing str w with
  | zero =>
    obtain rfl := List.length_eq_zero_iff.1 (Nat.le_zero.1 hfuel)
    exact (if_pos (.inl rfl)).symm
  | succ fuel ih =>
    cases str with
    | nil => exact (if_pos (.inl rfl)).symm
    | cons c str =>
      have hsplit : w.print ⟨c :: str, (c :: str).length⟩ = w.print ((Printed.mk [c] 1).append ⟨str, str.length⟩) := by
        congr 1
        simp only [Printed.append, List.length_cons, List.length_nil, List.singleton_append, Printed.mk.injEq, true_and]
        split <;> omega
      have htakes : w.2.takes = true ↔ w.2.Room 1 := by
        simp [Sink.takes, Sink.Room, Nat.succ_le_iff]
      rw [hsplit, print_append, strLoop]
      by_cases hroom : w.2.takes = true
      · rw [if_pos hroom, Counted.print, if_pos (htakes.1 hroom), Option.bind_some, ih (Nat.le_of_succ_le_succ hfuel),
          putChar_eq]
      · rw [if_neg hroom, Counted.print, if_neg (fun h => hroom (htakes.2 h)), Option.bind_none]
        exact strLoop_forever hroom

/-- What `__jacl_output_str` prints. -/
def strText (spec : Spec) (str : List UInt8) (prec width : Int) : Printed :=
  let slen := strSpan (if prec < 0 then INT_MAX else prec) str 0
  let pad := (if width > slen then width - slen else 0 : Int).toNat
  let body := str.take slen
  (Printed.plain (if !spec.left then List.replicate pad (asc ' ') else [])).append
    ((Printed.mk body body.length).append (.plain (if spec.left then List.replicate pad (asc ' ') else [])))

theorem outputStr_eq (spec : Spec) (str : List UInt8) (prec width : Int) (k : Sink) :
    outputStr k spec str prec width = Counted.print (0, k) (strText spec str prec width) := by
  simp only [outputStr, strText]
  generalize hslen : strSpan (if prec < 0 then INT_MAX else prec) str 0 = slen
  rw [doIf_eq (writePad_eq _ _), strLoop_eq (List.length_take_le _ _), print_append, print_plain, Option.bind_some,
    print_append]
  simp only [print_plain]
  cases Counted.print _ _ with
  | none => rfl
  | some w => exact congrArg some (doIf_eq (writePad_eq _ _) _ _)

/-- What `%c` prints. -/
def charText (d : Directive) : List UInt8 :=
  padded d.spec.left (if d.width > 1 then d.width - 1 else 0).toNat [UInt8.ofBitVec ((vaArg d.ap).1.setWidth 8)]

private theorem printfChar_eq (d : Directive) (k : Sink) :
    printfChar k d = (Counted.send (0, k) (charText d), (vaArg d.ap).2) := by
  simp only [printfChar, charText, padded, doIf_eq (writePad_eq _ _), putChar_eq, send_send]

/-- The text of an integer conversion: padding, sign, prefix, zeros, digits, padding. -/
def intText (left zeros sign : Bool) (signText : List UInt8) (prefx : Nat) (prefxChar : UInt8) (pad : Nat)
    (buf : List UInt8) : List UInt8 :=
  (if !left && !zeros then List.replicate pad (asc ' ') else []) ++ (if sign then signText else []) ++
    (if prefx != 0 then [asc '0'] else []) ++ (if prefx == 2 then [prefxChar] else []) ++
    (if !left && zeros then List.replicate pad (asc '0') else []) ++ buf.reverse ++
    (if left then List.replicate pad (asc ' ') else [])

/-- The padding appears in exactly one of its three places, so the length does not depend on the flags. -/
theorem length_intText {left zeros sign : Bool} {signText : List UInt8} {prefx : Nat} {prefxChar : UInt8}
    {pad : Nat} {buf : List UInt8} (hs : sign = true → signText.length = 1) (hp : prefx ≤ 2) :
    (intText left zeros sign signText prefx prefxChar pad buf).length = buf.length + sign.toNat + prefx + pad := by
  have hsign : (if sign then signText else []).length = sign.toNat := by
    cases sign with
    | false => rfl
    | true => simpa using hs rfl
  have hprefx : (if prefx != 0 then [asc '0'] else []).length + (if prefx == 2 then [prefxChar] else []).length =
      prefx := by
    obtain rfl | rfl | rfl : prefx = 0 ∨ prefx = 1 ∨ prefx = 2 := by omega
    all_goals rfl
  have hpad : (if !left && !zeros then List.replicate pad (asc ' ') else []).length +
      (if !left && zeros then List.replicate pad (asc '0') else []).length +
      (if left then List.replicate pad (asc ' ') else []).length = pad := by
    cases left <;> cases zeros <;> simp
  simp only [intText, List.length_append, List.length_reverse]
  omega

/-- The length of the prefix `0`, `0x` or `0b`. -/
private theorem prefix_le_two (spec : Spec) (v : Nat) : (if spec.pref = true ∧ v ≠ 0 then
    if spec.base = 16 ∨ spec.base = 2 then 2 else if spec.base = 8 then 1 else 0 else 0) ≤ 2 := by
  split
  · split
    · omega
    · split <;> omega
  · omega

/-- The sign is one character when there is one. -/
theorem length_signText {spec : Spec} {neg : Bool}
    (h : (spec.sign && (neg || spec.plus || spec.spad)) = true) :
    (if neg then [asc '-'] else if spec.plus then [asc '+'] else if spec.spad then [asc ' '] else []).length = 1 := by
  cases neg <;> cases hpl : spec.plus <;> cases hsp : spec.spad <;> simp_all

/-- The text that `__jacl_output_int` writes. -/
def outputIntText (spec : Spec) (val : BitVec 64) (prec width : Int) : List UInt8 :=
  let neg := spec.sign && decide (val.toInt < 0)
  let sign := spec.sign && (neg || spec.plus || spec.spad)
  let val := (if neg then -val else val).toNat
  let prefx : Nat :=
    if spec.pref ∧ val ≠ 0 then
      if spec.base = 16 ∨ spec.base = 2 then 2 else if spec.base = 8 then 1 else 0
    else 0
  let buf := intBuf spec val prec
  let used : Int := buf.length + sign.toNat + prefx
  let pad := if width > used then width - used else 0
  let letter := if spec.upper then (if spec.base = 16 then asc 'X' else asc 'B')
    else (if spec.base = 16 then asc 'x' else asc 'b')
  intText spec.left (spec.zpad && decide (prec < 0)) sign
    (if neg then [asc '-'] else if spec.plus then [asc '+'] else if spec.spad then [asc ' '] else []) prefx letter
      pad.toNat buf

/-- The early return of `__jacl_output_int` counts what its writing path writes. -/
theorem outputInt_eq (spec : Spec) (val : BitVec 64) (prec width : Int) (k : Sink) :
    outputInt k spec val prec width = Counted.send (0, k) (outputIntText spec val prec width) := by
  simp only [outputInt, outputIntText]
  generalize (spec.sign && decide (val.toInt < 0)) = neg
  have hs := @length_signText spec neg
  generalize (spec.sign && (neg || spec.plus || spec.spad)) = sign at hs ⊢
  generalize (if neg then -val else val).toNat = v
  have hp := prefix_le_two spec v
  generalize (if spec.pref = true ∧ v ≠ 0 then
    if spec.base = 16 ∨ spec.base = 2 then 2 else if spec.base = 8 then 1 else 0 else 0) = prefx at hp ⊢
  generalize intBuf spec v prec = buf
  generalize hpad : (if width > (buf.length : Int) + sign.toNat + prefx then
    width - ((buf.length : Int) + sign.toNat + prefx) else 0) = pad
  have hnonneg : 0 ≤ pad := by rw [← hpad]; split <;> omega
  generalize (if spec.upper = true then (if spec.base = 16 then asc 'X' else asc 'B')
    else (if spec.base = 16 then asc 'x' else asc 'b')) = letter
  generalize (spec.zpad && decide (prec < 0)) = zeros
  by_cases hnull : k.stream.isNone ∧ k.ptr.isNone
  · have hlen := @length_intText spec.left zeros sign _ prefx letter pad.toNat buf hs hp
    simp only [if_pos hnull]
    simp only [Option.isNone_iff_eq_none] at hnull
    simp only [Counted.send, emit_null hnull.1 hnull.2, hlen, Prod.mk.injEq, and_true]
    omega
  · simp only [if_neg hnull, doIf_eq (writePad_eq _ _), doIf_eq (putChar_eq _), doIf_eq (writeSign_eq _ _),
      writeChars_eq, send_send, intText]

/-! ### The loop -/

/-- What a directive prints, and the arguments left. -/
def convText (str : Nat → CString) (d : Directive) : Option (Printed × VaList) :=
  let base (base : Nat) : Printed × VaList :=
    let (val, ap) := if d.spec.sign then getSigned d.spec d.ap else getUnsigned d.spec d.ap
    (.plain (outputIntText { d.spec with base := base } val d.prec d.width), ap)
  let p := (vaArg d.ap).1
  if d.type = 0 ∨ unmodelled d.type then none
  else if d.type = asc 'c' then some (.plain (charText d), (vaArg d.ap).2)
  else if d.type = asc 's' then
    some (strText d.spec (if p.toNat = 0 then "(null)".toUTF8.toList else (str p.toNat).bytes) d.prec d.width,
      (vaArg d.ap).2)
  else if d.type = asc 'd' ∨ d.type = asc 'i' ∨ d.type = asc 'u' then some (base 10)
  else if d.type = asc 'o' then some (base 8)
  else if d.type = asc 'x' ∨ d.type = asc 'X' then some (base 16)
  else if d.type = asc 'p' then
    some (if p ≠ 0 then .plain (outputIntText { d.spec with base := 16, pref := true } p (-1) d.width)
      else strText d.spec "0x0".toUTF8.toList 3 d.width, (vaArg d.ap).2)
  else some (.plain [asc '%', d.type], d.ap)

private theorem printfBase_eq (base : Nat) (d : Directive) (k : Sink) :
    some (printfBase base k d) = (Counted.print (0, k) (.plain (outputIntText { d.spec with base := base }
      (if d.spec.sign then getSigned d.spec d.ap else getUnsigned d.spec d.ap).1 d.prec d.width))).map fun w =>
        (w, (if d.spec.sign then getSigned d.spec d.ap else getUnsigned d.spec d.ap).2) := by
  rw [print_plain, Option.map_some, ← outputInt_eq]
  rfl

/-- A conversion that is modelled prints its text. -/
theorem printfConv_text (str : Nat → CString) (d : Directive) (k : Sink) :
    printfConv str k d = (convText str d).bind fun r => (Counted.print (0, k) r.1).map fun w => (w, r.2) := by
  unfold printfConv convText
  split
  · rfl
  · split
    · rw [printfChar_eq, Option.bind_some, print_plain]
      rfl
    · split
      · rw [printfStr, outputStr_eq]
        rfl
      · split
        · exact printfBase_eq 10 d k
        · split
          · exact printfBase_eq 8 d k
          · split
            · exact printfBase_eq 16 d k
            · split
              · rw [printfPtr, Option.bind_some]
                split
                · rw [print_plain, outputInt_eq]
                  rfl
                · rw [outputStr_eq]
              · rw [Option.bind_some, print_plain]
                rfl

/-- What a format prints with its arguments. -/
def formatText (str : Nat → CString) : Nat → List UInt8 → VaList → Option Printed
  | 0, _, _ => none
  | _ + 1, [], _ => some (.plain [])
  | fuel + 1, c :: fmt, ap =>
    if c ≠ asc '%' then (formatText str fuel fmt ap).map (Printed.plain [c]).append
    else if deref fmt = asc '%' then (formatText str fuel fmt.tail ap).map (Printed.plain [asc '%']).append
    else
      let d := specPrintf ap fmt
      (convText str d).bind fun r => (formatText str fuel d.fmt.tail r.2).map r.1.append

/-- A text behind another one that the sink has a place for. -/
private theorem print_bind (w : Counted) (p : Printed) (r : Option Printed) :
    ((w.print p).bind fun w => r.bind w.print) = (r.map p.append).bind w.print := by
  cases r with
  | none => cases w.print p <;> rfl
  | some q => exact (print_append w p q).symm

/-- One text for every sink. -/
theorem printfLoop_text (str : Nat → CString) (fuel : Nat) (fmt : List UInt8) (ap : VaList) (w : Counted) :
    printfLoop str fuel w fmt ap = (formatText str fuel fmt ap).bind w.print := by
  induction fuel generalizing fmt ap w with
  | zero => rfl
  | succ fuel ih =>
    cases fmt with
    | nil => exact (print_plain w []).symm
    | cons c fmt =>
      simp only [printfLoop, formatText, putChar_eq]
      split
      · rw [ih, ← print_bind, print_plain, Option.bind_some]
      · split
        · rw [ih, ← print_bind, print_plain, Option.bind_some]
        · rw [printfConv_text]
          cases convText str (specPrintf ap fmt) with
          | none => rfl
          | some r =>
            rw [Option.bind_some, Option.bind_some, ← print_bind, print_count w r.1]
            cases Counted.print (0, w.2) r.1 with
            | none => rfl
            | some w' => exact ih _ _ _

/-! ### The formats of the law -/

def isFlag (c : UInt8) : Bool := c ∈ [asc '-', asc '+', asc ' ', asc '#', asc '0', asc '\'']

def isDigit (c : UInt8) : Bool := asc '0' ≤ c ∧ c ≤ asc '9'

/-- A width or a precision: `*`, or digits, possibly none. -/
inductive Number : List UInt8 → Prop
  | star : Number [asc '*']
  | digits {ds : List UInt8} (h : ∀ d ∈ ds, isDigit d) : Number ds

/-- What may stand between the width and the length modifier. -/
inductive Precision : List UInt8 → Prop
  | absent : Precision []
  | dot {num : List UInt8} (h : Number num) : Precision (asc '.' :: num)

def lengthModifiers : List (List UInt8) :=
  [[], [asc 'h', asc 'h'], [asc 'h'], [asc 'l'], [asc 'l', asc 'l'], [asc 'z'], [asc 't'], [asc 'j'], [asc 'L']]

def conversions : List UInt8 :=
  [asc 'd', asc 'i', asc 'u', asc 'o', asc 'x', asc 'X', asc 'c', asc 's', asc 'p']

/-- Formats made of literal text, `%%` and the conversions `d i u o x X c s p` with any flags, width, precision and
length modifier. -/
inductive Supported : List UInt8 → Prop
  | nil : Supported []
  | literal {c : UInt8} {fmt : List UInt8} (h : c ≠ asc '%') (rest : Supported fmt) : Supported (c :: fmt)
  | percent {fmt : List UInt8} (rest : Supported fmt) : Supported (asc '%' :: asc '%' :: fmt)
  | conv {flags width prec length fmt : List UInt8} {type : UInt8} (hflags : ∀ c ∈ flags, isFlag c)
      (hwidth : Number width) (hprec : Precision prec) (hlength : length ∈ lengthModifiers)
      (htype : type ∈ conversions) (rest : Supported fmt) :
      Supported (asc '%' :: (flags ++ (width ++ (prec ++ (length ++ type :: fmt)))))

private theorem specFlags_rest (spec : Spec) (fmt : List UInt8) : (specFlags spec fmt).2 = fmt.dropWhile isFlag := by
  induction fmt generalizing spec with
  | nil => rfl
  | cons c fmt ih =>
    unfold specFlags
    rw [List.dropWhile_cons]
    repeat' split
    all_goals simp_all [isFlag]

private theorem readDecimal_rest (val : Int) (fmt : List UInt8) :
    (readDecimal val fmt).2 = fmt.dropWhile isDigit := by
  induction fmt generalizing val with
  | nil => rfl
  | cons c fmt ih =>
    unfold readDecimal
    rw [List.dropWhile_cons]
    by_cases h : asc '0' ≤ c ∧ c ≤ asc '9'
    · rw [if_pos h, if_pos (by simpa [isDigit] using h), ih]
    · rw [if_neg h, if_neg (by simpa [isDigit] using h)]

/-- What can follow a number in a directive starts with a character that none of the loops takes. -/
private def Stops (fmt : List UInt8) : Prop :=
  ∃ c cs, fmt = c :: cs ∧ isDigit c = false ∧ isFlag c = false ∧ c ≠ asc '*'

private theorem dropWhile_follows {p : UInt8 → Bool} {xs fmt : List UInt8} (hxs : ∀ x ∈ xs, p x)
    (hfmt : ∃ c cs, fmt = c :: cs ∧ p c = false) : (xs ++ fmt).dropWhile p = fmt := by
  obtain ⟨c, cs, rfl, hc⟩ := hfmt
  rw [List.dropWhile_append_of_pos hxs, List.dropWhile_cons, hc]
  rfl

private theorem Number.deref_ne_star {ds fmt : List UInt8} (h : ∀ d ∈ ds, isDigit d) (hfmt : Stops fmt) :
    deref (ds ++ fmt) ≠ asc '*' := by
  obtain ⟨c, cs, rfl, -, -, hc⟩ := hfmt
  cases ds with
  | nil => exact hc
  | cons d ds =>
    intro hd
    have hstar : d = asc '*' := hd
    have hdigit := h d List.mem_cons_self
    rw [hstar] at hdigit
    exact absurd hdigit (by decide)

private theorem specValue_number {num fmt : List UInt8} (hnum : Number num) (hfmt : Stops fmt) (ap : VaList) :
    (specValue (num ++ fmt) ap).2.1 = fmt := by
  cases hnum with
  | star => rfl
  | digits hds =>
    obtain ⟨c, cs, hcs, hc, -⟩ := id hfmt
    rw [specValue, if_neg (Number.deref_ne_star hds hfmt)]
    show (readDecimal 0 _).2 = fmt
    rw [readDecimal_rest]
    exact dropWhile_follows hds ⟨c, cs, hcs, hc⟩

/-- The loop over the flags takes the leading zeros of a width too, and leaves a number. -/
private theorem specFlags_number {flags num fmt : List UInt8} (hflags : ∀ c ∈ flags, isFlag c) (hnum : Number num)
    (hfmt : Stops fmt) (spec : Spec) :
    ∃ num', Number num' ∧ (specFlags spec (flags ++ (num ++ fmt))).2 = num' ++ fmt := by
  rw [specFlags_rest, List.dropWhile_append_of_pos hflags]
  cases hnum with
  | star => exact ⟨_, .star, rfl⟩
  | digits hds =>
    obtain ⟨c, cs, rfl, -, hc, -⟩ := hfmt
    refine ⟨num.dropWhile isFlag, .digits fun d hd => hds d ((List.dropWhile_sublist _).subset hd), ?_⟩
    rw [List.dropWhile_append]
    split
    · rename_i hnil
      rw [List.isEmpty_iff] at hnil
      rw [hnil, List.dropWhile_cons, hc]
      rfl
    · rfl

private theorem conversions_plain {type : UInt8} (h : type ∈ conversions) :
    isDigit type = false ∧ isFlag type = false ∧ type ≠ asc '*' ∧ type ≠ asc '.' ∧ type ≠ asc '%' := by
  have hall : ∀ c ∈ conversions, isDigit c = false ∧ isFlag c = false ∧ c ≠ asc '*' ∧ c ≠ asc '.' ∧ c ≠ asc '%' :=
    forall_mem_of_all (by decide)
  exact hall type h

private theorem conversions_modelled {type : UInt8} (h : type ∈ conversions) :
    ¬(type = 0 ∨ unmodelled type = true) := by
  have hall : ∀ c ∈ conversions, ¬(c = 0 ∨ unmodelled c = true) := forall_mem_of_all (by decide)
  exact hall type h

/-- The end of a directive, from the length modifier on. -/
private theorem directive_end {length : List UInt8} {type : UInt8} (hlength : length ∈ lengthModifiers)
    (htype : type ∈ conversions) (fmt : List UInt8) : ∃ c cs, length ++ type :: fmt = c :: cs ∧
      isDigit c = false ∧ isFlag c = false ∧ c ≠ asc '*' ∧ c ≠ asc '.' ∧ c ≠ asc '%' := by
  simp only [lengthModifiers, List.mem_cons, List.not_mem_nil, or_false] at hlength
  rcases hlength with rfl | rfl | rfl | rfl | rfl | rfl | rfl | rfl | rfl
  · exact ⟨type, fmt, rfl, conversions_plain htype⟩
  all_goals exact ⟨_, _, rfl, by decide, by decide, by decide, by decide, by decide⟩

private theorem specLength_rest {length fmt : List UInt8} {type : UInt8} (hlength : length ∈ lengthModifiers)
    (htype : type ∈ conversions) : (specLength (length ++ type :: fmt)).2 = type :: fmt := by
  have hall : ∀ c ∈ conversions, c ≠ asc 'l' ∧ c ≠ asc 'h' ∧ c ≠ asc 'z' ∧ c ≠ asc 't' ∧ c ≠ asc 'j' ∧ c ≠ asc 'L' :=
    forall_mem_of_all (by decide)
  obtain ⟨hl, hh, hz, ht, hj, hL⟩ := hall type htype
  simp only [lengthModifiers, List.mem_cons, List.not_mem_nil, or_false] at hlength
  rcases hlength with rfl | rfl | rfl | rfl | rfl | rfl | rfl | rfl | rfl
  all_goals simp_all [specLength, deref, asc]

/-- The conversion character is found behind its flags, width, precision and length modifier. -/
private theorem specPrintf_rest {flags width prec length fmt : List UInt8} {type : UInt8}
    (hflags : ∀ c ∈ flags, isFlag c) (hwidth : Number width) (hprec : Precision prec)
    (hlength : length ∈ lengthModifiers) (htype : type ∈ conversions) (ap : VaList) :
    (specPrintf ap (flags ++ (width ++ (prec ++ (length ++ type :: fmt))))).fmt = type :: fmt := by
  obtain ⟨c, cs, hcs, hdigit, hflag, hstar, hdot, -⟩ := directive_end hlength htype fmt
  have hend : Stops (length ++ type :: fmt) := ⟨c, cs, hcs, hdigit, hflag, hstar⟩
  have hmid : Stops (prec ++ (length ++ type :: fmt)) := by
    cases hprec with
    | absent => exact hend
    | dot => exact ⟨_, _, rfl, by decide, by decide, by decide⟩
  obtain ⟨num, hnum, hstart⟩ := specFlags_number hflags hwidth hmid .zero
  simp only [specPrintf, hstart, specValue_number hnum hmid]
  cases hprec with
  | absent =>
    rw [List.nil_append, if_neg (by rw [hcs]; exact hdot)]
    exact specLength_rest hlength htype
  | dot hnum' =>
    rw [List.cons_append, deref_cons, if_pos rfl, List.tail_cons, specValue_number hnum' hend]
    exact specLength_rest hlength htype

private theorem deref_append_ne {xs fmt : List UInt8} {ch : UInt8} (hxs : ∀ x ∈ xs, x ≠ ch) (hfmt : deref fmt ≠ ch) :
    deref (xs ++ fmt) ≠ ch := by
  cases xs with
  | nil => exact hfmt
  | cons x xs => exact hxs x List.mem_cons_self

/-- A directive does not start with a second `%`. -/
private theorem directive_start {flags width prec length fmt : List UInt8} {type : UInt8}
    (hflags : ∀ c ∈ flags, isFlag c) (hwidth : Number width) (hprec : Precision prec)
    (hlength : length ∈ lengthModifiers) (htype : type ∈ conversions) :
    deref (flags ++ (width ++ (prec ++ (length ++ type :: fmt)))) ≠ asc '%' := by
  obtain ⟨c, cs, hcs, -, -, -, -, hpercent⟩ := directive_end hlength htype fmt
  refine deref_append_ne ?_ (deref_append_ne ?_ ?_)
  · intro x hx hx'
    exact absurd (hflags x hx) (by rw [hx']; decide)
  · cases hwidth with
    | star => exact forall_mem_of_all (by decide)
    | digits hds =>
      intro x hx hx'
      exact absurd (hds x hx) (by rw [hx']; decide)
  · cases hprec with
    | absent => rw [List.nil_append, hcs]; exact hpercent
    | dot => exact (by decide : asc '.' ≠ asc '%')

private theorem convText_modelled (str : Nat → CString) {d : Directive} (h : ¬(d.type = 0 ∨ unmodelled d.type = true)) :
    ∃ r, convText str d = some r := by
  rw [convText, if_neg h]
  repeat' split
  all_goals exact ⟨_, rfl⟩

/-- Every supported format has a text. -/
theorem formatText_supported (str : Nat → CString) {fmt : List UInt8} (h : Supported fmt) :
    ∀ (fuel : Nat) (ap : VaList), fmt.length < fuel → ∃ p, formatText str fuel fmt ap = some p := by
  -- a text in front of that of the rest of the format
  have prepend : ∀ {r : Option Printed} (q : Printed), (∃ p, r = some p) → ∃ p, r.map q.append = some p := by
    rintro _ q ⟨p, rfl⟩
    exact ⟨_, rfl⟩
  induction h with
  | nil =>
    intro fuel ap hfuel
    obtain ⟨fuel, rfl⟩ : ∃ m, fuel = m + 1 := ⟨fuel - 1, by simp at hfuel; omega⟩
    exact ⟨_, rfl⟩
  | literal hc _ ih =>
    intro fuel ap hfuel
    rw [List.length_cons] at hfuel
    obtain ⟨fuel, rfl⟩ : ∃ m, fuel = m + 1 := ⟨fuel - 1, by omega⟩
    rw [formatText, if_pos hc]
    exact prepend _ (ih _ _ (by omega))
  | percent _ ih =>
    intro fuel ap hfuel
    simp only [List.length_cons] at hfuel
    obtain ⟨fuel, rfl⟩ : ∃ m, fuel = m + 1 := ⟨fuel - 1, by omega⟩
    rw [formatText, if_neg (by simp), deref_cons, if_pos rfl]
    exact prepend _ (ih _ _ (by omega))
  | @conv flags width prec length fmt type hflags hwidth hprec hlength htype _ ih =>
    intro fuel ap hfuel
    simp only [List.length_cons, List.length_append] at hfuel
    obtain ⟨fuel, rfl⟩ : ∃ m, fuel = m + 1 := ⟨fuel - 1, by omega⟩
    rw [formatText, if_neg (by simp), if_neg (directive_start hflags hwidth hprec hlength htype)]
    have hrest := @specPrintf_rest flags width prec length fmt type hflags hwidth hprec hlength htype ap
    generalize specPrintf ap (flags ++ (width ++ (prec ++ (length ++ type :: fmt)))) = d at hrest ⊢
    have hmodelled : ¬(d.type = 0 ∨ unmodelled d.type = true) := by
      rw [Directive.type, hrest, deref_cons]
      exact conversions_modelled htype
    obtain ⟨r, hconv⟩ := convText_modelled str hmodelled
    simp only [hconv, Option.bind_some, hrest, List.tail_cons]
    exact prepend _ (ih _ _ (by omega))

/-! ### The law -/

section Law

variable {str : Nat → CString} {fmt : CString} {ap : VaList} {p : Printed}
  (hp : ∀ w, printfLoop str (fmt.bytes.length + 1) w fmt.bytes ap = w.print p)
include hp

theorem vfprintf_text (mem : Nat → UInt8) : vfprintf str mem fmt ap = some (wrapInt p.text.length, p.text) := by
  have hroom : (Sink.mk (some []) mem none 0).Room p.need := .inr (.inl rfl)
  simp [vfprintf, jaclPrintf, hp, Counted.print, hroom, Counted.send, emit_stream (k := ⟨some [], mem, none, 0⟩) rfl]

private theorem vsnprintf_null (mem : Nat → UInt8) (n : Nat) :
    vsnprintf str mem none n fmt ap = if p.need = 0 then some (wrapInt p.text.length, mem) else none := by
  have hroom : (Sink.mk none mem none 0).Room p.need ↔ p.need = 0 := by simp [Sink.Room]
  simp only [vsnprintf, jaclPrintf, hp, Counted.print, Option.isSome_none, Bool.false_eq_true, false_and, if_false]
  split <;> rename_i h
  · rw [if_pos (hroom.1 h)]
    simp [Counted.send, emit_null (k := ⟨none, mem, none, 0⟩) rfl rfl]
  · rw [if_neg (fun h0 => h (hroom.2 h0))]
    rfl

theorem vsnprintf_zero (mem : Nat → UInt8) (s : Nat) :
    vsnprintf str mem (some s) 0 fmt ap = if p.need = 0 then some (wrapInt p.text.length, mem) else none := by
  have hroom : (Sink.mk none mem (some s) 0).Room p.need ↔ p.need = 0 := by simp [Sink.Room]
  simp only [vsnprintf, jaclPrintf, hp, Counted.print, Option.isSome_some, gt_iff_lt, Nat.lt_irrefl, and_false,
    if_false]
  split <;> rename_i h
  · rw [if_pos (hroom.1 h)]
    simp [Counted.send, emit_buffer (k := ⟨none, mem, some s, 0⟩) rfl rfl]
  · rw [if_neg (fun h0 => h (hroom.2 h0))]
    rfl

theorem vsnprintf_pos (mem : Nat → UInt8) (s : Nat) {n : Nat} (hn : 0 < n) : vsnprintf str mem (some s) n fmt ap =
    if p.need ≤ n - 1 then some (wrapInt p.text.length, storeBytes mem s (p.text.take (n - 1) ++ [0])) else none := by
  have hroom : (Sink.mk none mem (some s) (n - 1)).Room p.need ↔ p.need ≤ n - 1 := by
    simp only [Sink.Room, Option.isSome_none, Option.isSome_some, Bool.false_eq_true, false_or, true_and]
    omega
  simp only [vsnprintf, jaclPrintf, hp, Counted.print, Option.isSome_some, true_and, gt_iff_lt, if_pos hn]
  split <;> rename_i h
  · rw [if_pos (hroom.1 h)]
    simp only [Counted.send, emit_buffer (k := ⟨none, mem, some s, n - 1⟩) rfl rfl, Option.map_some]
    rw [storeBytes_append, storeBytes_cons, storeBytes_nil, List.length_take]
    simp
  · rw [if_neg (fun h0 => h (hroom.2 h0))]
    rfl

end Law

/-- A text in which no string is printed always finds a place. -/
theorem vsnprintf_plain {str : Nat → CString} {fmt : CString} {ap : VaList} {text : List UInt8}
    (ht : ∀ w, printfLoop str (fmt.bytes.length + 1) w fmt.bytes ap = some (w.send text)) (mem : Nat → UInt8)
    (s : Nat) {n : Nat} (hn : 0 < n) :
    vsnprintf str mem (some s) n fmt ap = some (wrapInt text.length, storeBytes mem s (text.take (n - 1) ++ [0])) := by
  have hp : ∀ w, printfLoop str (fmt.bytes.length + 1) w fmt.bytes ap = w.print (.plain text) := by
    intro w
    rw [print_plain, ht]
  rw [vsnprintf_pos hp mem s hn]
  exact if_pos (Nat.zero_le _)

/-- The characters that `vsnprintf` has room for. -/
def roomOf (s : Option Nat) (n : Nat) : Nat := if s.isSome then n - 1 else 0

/-- The memory with the part of the text that fits and a NUL. -/
def truncated (mem : Nat → UInt8) (s : Option Nat) (n : Nat) (text : List UInt8) : Nat → UInt8 :=
  match s with
  | none => mem
  | some s => if n = 0 then mem else storeBytes mem s (text.take (min text.length (n - 1)) ++ [0])

theorem vsnprintf_eq {str : Nat → CString} {fmt : CString} {ap : VaList} {p : Printed}
    (hp : ∀ w, printfLoop str (fmt.bytes.length + 1) w fmt.bytes ap = w.print p)
    (hlen : (p.text.length : Int) < INT_MAX) (mem : Nat → UInt8) (s : Option Nat) (n : Nat) :
    vsnprintf str mem s n fmt ap =
      if p.need ≤ roomOf s n then some ((p.text.length : Int), truncated mem s n p.text) else none := by
  have hwrap : wrapInt p.text.length = p.text.length := wrapInt_of_le (by omega) (by omega)
  cases s with
  | none => simp only [vsnprintf_null hp, hwrap, roomOf, truncated, Option.isSome_none, Bool.false_eq_true, if_false,
    Nat.le_zero]
  | some s =>
    rcases Nat.eq_zero_or_pos n with rfl | hn
    · simp only [vsnprintf_zero hp, hwrap, roomOf, truncated, Option.isSome_some, if_true, Nat.zero_sub, Nat.le_zero]
    · simp only [vsnprintf_pos hp mem s hn, hwrap, roomOf, truncated, Option.isSome_some, if_true,
        if_neg (Nat.pos_iff_ne_zero.1 hn)]
      rw [List.take_eq_take_min, Nat.min_comm]

/-- The truncation law.  A stream receives the text that the format prints with its arguments; for every buffer, or
none, its length is returned and the part of it that fits stored with one NUL, and nothing else in memory changes,
exactly if the text up to the last character of a string has a place in the buffer, and else the call does not return.
So `vasprintf` fills the bytes it asked for exactly if no string prints a character. -/
theorem vsnprintf_truncation_iff (str : Nat → CString) (mem : Nat → UInt8) (fmt : CString) (ap : VaList)
    (hfmt : Supported fmt.bytes) :
    ∃ p : Printed, formatText str (fmt.bytes.length + 1) fmt.bytes ap = some p ∧
      vfprintf str mem fmt ap = some (wrapInt p.text.length, p.text) ∧
      ((p.text.length : Int) < INT_MAX →
        (∀ s n, (vsnprintf str mem s n fmt ap = some (↑p.text.length, truncated mem s n p.text) ↔ p.need ≤ roomOf s n) ∧
          (vsnprintf str mem s n fmt ap = none ↔ ¬p.need ≤ roomOf s n)) ∧
        ∀ (malloc : Nat → Option Nat) (q : Nat), malloc (p.text.length + 1) = some q →
          (vasprintf str mem malloc fmt ap = some (↑p.text.length, some q, storeBytes mem q (p.text ++ [0])) ↔
          p.need = 0)) := by
  obtain ⟨p, htext⟩ := formatText_supported str hfmt _ ap (Nat.lt_succ_self _)
  have hp : ∀ w, printfLoop str (fmt.bytes.length + 1) w fmt.bytes ap = w.print p := by
    intro w
    rw [printfLoop_text, htext, Option.bind_some]
  refine ⟨p, htext, vfprintf_text hp mem, fun hlen => ⟨fun s n => ?_, fun malloc q hq => ?_⟩⟩
  · rw [vsnprintf_eq hp hlen]
    by_cases hroom : p.need ≤ roomOf s n
    · simp [hroom]
    · simp [hroom]
  · have hmeasure := vsnprintf_eq hp hlen mem none 0
    have hroom : p.need ≤ roomOf none 0 ↔ p.need = 0 := Nat.le_zero
    by_cases h0 : p.need = 0
    · have hsize : toSize (wrapInt (p.text.length + 1)) = p.text.length + 1 := by
        rw [wrapInt_of_le (by omega) (by omega), toSize]
        unfold INT_MAX at hlen
        omega
      rw [if_pos (hroom.2 h0)] at hmeasure
      refine iff_of_true ?_ h0
      rw [vasprintf, hmeasure]
      simp only [truncated, hsize, hq]
      rw [if_neg (by omega), vsnprintf_eq hp hlen, if_pos (by rw [h0]; exact Nat.zero_le _)]
      simp [truncated]
    · rw [if_neg fun h => h0 (hroom.1 h)] at hmeasure
      refine iff_of_false ?_ h0
      rw [vasprintf, hmeasure]
      simp

/-- `"%5d%%"` with 42, into a buffer of four bytes and through `vasprintf`; and `"%s!"` with "ab", into a buffer of
three bytes, where the string has a place and the `!` has none. -/
theorem vsnprintf_truncation_width :
    vsnprintf (fun _ => ⟨[], by simp⟩) (fun _ => 7) (some 100) 4 ⟨lit "%5d%%", by decide⟩ [42] =
      some (6, storeBytes (fun _ => 7) 100 (lit "   " ++ [0])) ∧
    vasprintf (fun _ => ⟨[], by simp⟩) (fun _ => 7) (fun n => if n = 7 then some 200 else none)
    ⟨lit "%5d%%", by decide⟩ [42] =
      some (6, some 200, storeBytes (fun _ => 7) 200 (lit "   42%" ++ [0])) ∧
    vsnprintf (fun _ => ⟨lit "ab", by decide⟩) (fun _ => 7) (some 100) 3 ⟨lit "%s!", by decide⟩ [1] =
      some (3, storeBytes (fun _ => 7) 100 (lit "ab" ++ [0])) := by
  have hdigits : ∀ d ∈ [asc '5'], isDigit d = true := forall_mem_of_all (by decide)
  have hint : Supported (lit "%5d%%") :=
    @Supported.conv [] [asc '5'] [] [] [asc '%', asc '%'] (asc 'd') (by simp) (.digits hdigits) .absent
      (by decide) (by decide) (.percent .nil)
  have hstr : Supported (lit "%s!") :=
    @Supported.conv [] [] [] [] [asc '!'] (asc 's') (by simp) (.digits (by simp)) .absent (by decide) (by decide)
      (.literal (by decide) .nil)
  obtain ⟨p, hp, -, law⟩ := vsnprintf_truncation_iff (fun _ => ⟨[], by simp⟩) (fun _ => 7)
    ⟨lit "%5d%%", by decide⟩ [42] hint
  have heval : formatText (fun _ => ⟨[], by simp⟩) 6 (lit "%5d%%") [42] = some ⟨lit "   42%", 0⟩ := by decide +kernel
  obtain rfl : Printed.mk (lit "   42%") 0 = p := Option.some.inj (heval.symm.trans hp)
  obtain ⟨q, hq, -, law'⟩ := vsnprintf_truncation_iff (fun _ => ⟨lit "ab", by decide⟩) (fun _ => 7)
    ⟨lit "%s!", by decide⟩ [1] hstr
  have heval' : formatText (fun _ => ⟨lit "ab", by decide⟩) 4 (lit "%s!") [1] = some ⟨lit "ab!", 2⟩ := by decide +kernel
  obtain rfl : Printed.mk (lit "ab!") 2 = q := Option.some.inj (heval'.symm.trans hq)
  obtain ⟨hbuffer, hasprintf⟩ := law (by decide)
  obtain ⟨hbuffer', -⟩ := law' (by decide)
  exact ⟨((hbuffer (some 100) 4).1.2 (by decide)), (hasprintf _ 200 rfl).2 rfl,
    ((hbuffer' (some 100) 3).1.2 (by decide))⟩

/-- `"%s"` with "a" prints one character where there is room for two, and is never done where there is none. -/
theorem vsnprintf_string_forever :
    (vsnprintf (fun _ => ⟨lit "a", by decide⟩) (fun _ => 0) (some 100) 2 ⟨lit "%s", by decide⟩ [1]).map Prod.fst =
    some 1 ∧ (vsnprintf (fun _ => ⟨lit "a", by decide⟩) (fun _ => 0) none 0 ⟨lit "%s", by decide⟩ [1]).map Prod.fst =
    none := by
  decide +kernel

end JACLibc
