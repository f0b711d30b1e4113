import JACLibc.Format.ScanItem
import JACLibc.Lib.Run

/-!
# Runs of `scanf` over conversions

A format is a list of directives `%d`, `%u`, `%x`, `%s`, `%c` and `%n`, with or without a width.  In a run whose
directives all fit the input that they are at, each directive that succeeds consumes the white space that it skips and
its item, and no more, and `%n` stores the number of characters consumed so far (`scanf_consumption`).
-/

namespace JACLibc.Scan

open Strto

/-- A directive with the digits of its width. -/
structure Directive where
  type : UInt8
  width : List UInt8
  type_mem : type ∈ lit "duxscn"
  width_digits : ∀ c ∈ width, isDigit c = true

namespace Directive

variable (d : Directive)

/-- The directive behind its `%`. -/
def text : List UInt8 := d.width ++ [d.type]

/-- How many characters its item has at most. -/
def limit : Nat :=
  if IntText.decimal d.width = 0 then (if d.type = asc 'c' then 1 else 2 ^ 31 - 1) else IntText.decimal d.width

def base : Nat := if d.type = asc 'x' then 16 else 10

/-- What the directive skips of an input, and the item that it matches there. -/
def Matches (s skipped item : List UInt8) : Prop :=
  if d.type = asc 'c' then skipped = [] ∧ item = s.take d.limit
  else skipped = s.takeWhile isWhite ∧
    if d.type = asc 's' then item = ((body s).takeWhile (!isWhite ·)).take d.limit ∧ item ≠ []
    else item = (body s).take (min d.limit (size d.base (body s))) ∧ IsNumber d.base d.limit (body s)

/-- The width is an `int`; the characters that are read have no byte 0xFF; a `%s` ends with its width or with the
input; a number fits. -/
def Fits (s : List UInt8) : Prop :=
  (IntText.decimal d.width : Int) ≤ INT_MAX ∧
    if d.type = asc 'n' then True
    else if d.type = asc 'c' then 255 ∉ s.take d.limit
    else (body s).head? ≠ some 255 ∧
      if d.type = asc 's' then 255 ∉ strItem true d.limit (body s) ∧
        ((strItem true d.limit (body s)).length = d.limit ∨ strItem true d.limit (body s) = body s)
      else IntFits d.base d.limit (body s)

instance (s : List UInt8) : Decidable (d.Fits s) := inferInstanceAs (Decidable (_ ∧ _))

theorem limit_eq : (d.limit : Int) = if (IntText.decimal d.width : Int) = 0
    then (if d.type = asc 'c' then 1 else INT_MAX)
    else IntText.decimal d.width := by
  unfold limit INT_MAX
  by_cases h : IntText.decimal d.width = 0 <;> by_cases hc : d.type = asc 'c' <;> simp [h, hc]

theorem type_cases : d.type = asc 'd' ∨ d.type = asc 'u' ∨ d.type = asc 'x' ∨ d.type = asc 's' ∨ d.type = asc 'c' ∨
    d.type = asc 'n' := by
  have h := d.type_mem
  simpa [lit] using h

/-! ### The directive that is read -/

/-- What `__jacl_spec_scanf` makes of the flags and the length. -/
def spec : Spec := { Spec.zero with
  spad := d.type ≠ asc 'c', sign := d.type ≠ asc 'u', upper := asc 'A' ≤ d.type ∧ d.type ≤ asc 'Z' }

theorem specScanf_text (hwidth : (IntText.decimal d.width : Int) ≤ INT_MAX) (rest : List UInt8) :
    JACLibc.specScanf (d.text ++ rest) = ⟨d.spec, IntText.decimal d.width, d.type :: rest⟩ := by
  have htype := d.type_cases
  have hdigit : isDigit d.type = false := by
    rcases htype with h | h | h | h | h | h <;> rw [h] <;> decide
  have hlength : JACLibc.specLength (d.type :: rest) = (.none, d.type :: rest) := by
    unfold JACLibc.specLength
    rw [deref_cons]
    rcases htype with h | h | h | h | h | h <;> rw [h] <;> rfl
  have hstar : deref (d.text ++ rest) ≠ asc '*' := by
    unfold text
    rcases hw : d.width with _ | ⟨c, cs⟩
    · rw [List.nil_append, List.singleton_append, deref_cons]
      rcases htype with h | h | h | h | h | h <;> rw [h] <;> decide
    · have hc := d.width_digits c (by rw [hw]; exact List.mem_cons_self)
      intro h
      rw [show c = asc '*' from h] at hc
      exact absurd hc (by decide)
  have hread := @IntText.readDecimal_digits _ (d.type :: rest) d.width_digits
    (fun c hc => by rw [← Option.some.inj hc]; exact hdigit) 0 hwidth
  have htext : d.text ++ rest = d.width ++ d.type :: rest := List.append_assoc _ _ _
  rw [Nat.cast_zero] at hread
  unfold JACLibc.specScanf
  simp only [hstar, decide_false, if_false]
  rw [htext, hread]
  simp only [hlength, deref_cons]
  rfl

theorem read_text (hwidth : (IntText.decimal d.width : Int) ≤ INT_MAX) (rest : List UInt8) :
    read (d.text ++ rest) = ⟨d.spec, IntText.decimal d.width, d.type :: (rest ++ [0])⟩ := by
  rw [read, ← specScanf_type, d.specScanf_text hwidth]
  rfl

/-! ### A directive -/

/-- What a directive that succeeds does: `%n` stores how many characters were consumed, another one consumes what it
skips and its item. -/
def Consumes (s s' : State) : Prop :=
  if d.type = asc 'n' then s'.reader = s.reader ∧ s'.stored = s.stored ++ [.int (s.reader.read % 2 ^ 32).toNat]
  else ∃ skipped item, d.Matches s.reader.rest skipped item ∧ s.reader.rest = skipped ++ (item ++ s'.reader.rest) ∧
    s'.reader.back = (skipped ++ item).reverse ++ s.reader.back ∧
    s'.reader.read = s.reader.read + (skipped ++ item).length

theorem convert_next {dir : ScanDirective} {s s' : State} {n : Input} {fmt : List UInt8}
    (h : convert dir s n = .next fmt s') :
    n.found = true ∧ fmt = dir.fmt.tail ∧ s'.reader = n.reader := by
  unfold convert at h
  rcases hfound : n.found with _ | _
  · rw [hfound] at h
    cases h
  · rw [hfound] at h
    simp only [Bool.not_true, Bool.false_eq_true, if_false] at h
    split at h <;> cases h <;> exact ⟨rfl, rfl, rfl⟩

/-- Behind the white space the reader is in front of a character that is not read as the end. -/
theorem readSkip_body {r : Reader} (h : (body r.rest).head? ≠ some 255) : readSkip r =
    ⟨(r.rest.takeWhile isWhite).reverse ++ r.back, body r.rest, r.read + (r.rest.takeWhile isWhite).length⟩ := by
  have hskip := readSkip_eq r.back r.rest r.read
  rw [standing, if_neg h] at hskip
  exact hskip

theorem strItem_char (n : Nat) (s : List UInt8) : strItem false n s = s.take n := by
  rw [strItem, List.takeWhile_eq_self_iff.2]
  simp

theorem strItem_str (n : Nat) (s : List UInt8) : strItem true n s = (s.takeWhile (!isWhite ·)).take n := by
  simp only [strItem, Bool.true_and]

/-- An item at the beginning of a text, behind what was skipped. -/
theorem consumed {r : Reader} {skipped s : List UInt8} {n : Nat} (hn : n ≤ s.length) (hsplit : r.rest = skipped ++ s)
    {r' : Reader} (hr : r' = advanced (skipped.reverse ++ r.back) s (r.read + skipped.length) n) :
    r.rest = skipped ++ (s.take n ++ r'.rest) ∧ r'.back = (skipped ++ s.take n).reverse ++ r.back ∧
      r'.read = r.read + (skipped ++ s.take n).length := by
  rw [hr, advanced]
  refine ⟨?_, ?_, ?_⟩
  · rw [List.take_append_drop, hsplit]
  · rw [List.reverse_append, List.append_assoc]
  · rw [List.length_append, List.length_take_of_le hn, Nat.cast_add, Int.add_assoc]

theorem size_le {base n : Nat} {s : List UInt8} (h : IsNumber base n s) : size base s ≤ s.length := by
  have hpos : 0 < (digitsOf base (unsigned s)).length := List.length_pos_iff.2 h.1
  have hle : (digitsOf base (unsigned s)).length ≤ ((unsigned s).drop (baseOf base (unsigned s)).2).length :=
    (List.takeWhile_prefix _).length_le
  rw [List.length_drop] at hle
  have hlen := length_unsigned s
  rw [size]
  omega

variable {d} {float : ScanDirective → Reader → Input} {fuel : Nat} {s s' : State} {fmt rest : List UInt8}

/-- `%d`, `%u` and `%x`. -/
theorem scanfInt_next (hbody : (body s.reader.rest).head? ≠ some 255)
    (hfits : IntFits d.base d.limit (body s.reader.rest)) (hc : d.type ≠ asc 'c') (hs : d.type ≠ asc 's')
    (hn : d.type ≠ asc 'n') (h : convert ⟨d.spec, IntText.decimal d.width, d.type :: rest⟩ s
      (scanfInt d.base ⟨d.spec, IntText.decimal d.width, d.type :: rest⟩ s.reader) = .next fmt s') :
      fmt = rest ∧ d.Consumes s s' := by
  obtain ⟨hfound, hfmt, hreader⟩ := convert_next h
  have hlimit := d.limit_eq
  rw [if_neg hc] at hlimit
  rw [scanfInt, scanfBase] at hfound hreader
  simp only [← hlimit, readSkip_body hbody] at hfound hreader
  have hbase : d.base = 10 ∨ d.base = 16 := by
    unfold base
    split <;> simp
  obtain ⟨hnumber, hadvanced⟩ := @inputInt_found { d.spec with base := d.base } d.limit _ _ _ hbase hfits hfound
  refine ⟨hfmt, ?_⟩
  rw [Consumes, if_neg hn]
  refine ⟨s.reader.rest.takeWhile isWhite, (body s.reader.rest).take (min d.limit (size d.base (body s.reader.rest))),
    ?_, ?_⟩
  · rw [Matches, if_neg hc, if_neg hs]
    exact ⟨rfl, rfl, hnumber⟩
  · exact consumed ((Nat.min_le_right _ _).trans (size_le hnumber)) List.takeWhile_append_dropWhile.symm
      (hreader.trans hadvanced)

/-- `%c` -/
theorem scanfChar_next (hfits : 255 ∉ s.reader.rest.take d.limit) (hc : d.type = asc 'c')
    (h : convert ⟨d.spec, IntText.decimal d.width, d.type :: rest⟩ s (scanfStr ⟨d.spec, IntText.decimal d.width,
    d.type :: rest⟩ s.reader) =
      .next fmt s') : fmt = rest ∧ d.Consumes s s' := by
  obtain ⟨-, hfmt, hreader⟩ := convert_next h
  have hlimit := d.limit_eq
  rw [if_pos hc] at hlimit
  have hspad : d.spec.spad = false := by simp [spec, hc]
  have htype : ScanDirective.type ⟨d.spec, IntText.decimal d.width, d.type :: rest⟩ = asc 'c' := hc
  rw [scanfStr, htype] at hreader
  simp only [if_true, ← hlimit, hspad, Bool.false_eq_true, if_false] at hreader
  have hread := readStr_eq false d.limit [] s.reader.back s.reader.rest s.reader.read
  rw [List.length_nil, Nat.sub_zero, strItem_char] at hread
  have hend : (s.reader.rest.take d.limit).length = d.limit ∨ s.reader.rest.take d.limit = s.reader.rest := by
    rcases Nat.le_total d.limit s.reader.rest.length with hle | hle
    · exact .inl (List.length_take_of_le hle)
    · exact .inr (List.take_of_length_le hle)
  replace hread := hread hfits hend
  refine ⟨hfmt, ?_⟩
  rw [Consumes, if_neg (by rw [hc]; decide)]
  refine ⟨[], s.reader.rest.take d.limit, ?_, ?_⟩
  · rw [Matches, if_pos hc]
    exact ⟨rfl, rfl⟩
  · have hprefix : s.reader.rest.take d.limit <+: s.reader.rest := List.take_prefix _ _
    rw [hread] at hreader
    have hconsumed := @consumed s.reader [] s.reader.rest _ hprefix.length_le rfl s'.reader (hreader.trans (by simp))
    rw [← List.prefix_iff_eq_take.1 hprefix] at hconsumed
    exact hconsumed

/-- `%s` -/
theorem scanfStr_next (hbody : (body s.reader.rest).head? ≠ some 255)
    (hfits : 255 ∉ strItem true d.limit (body s.reader.rest))
    (hend : (strItem true d.limit (body s.reader.rest)).length = d.limit ∨ strItem true d.limit (body s.reader.rest) =
    body s.reader.rest)
    (hs : d.type = asc 's')
    (h : convert ⟨d.spec, IntText.decimal d.width, d.type :: rest⟩ s (scanfStr ⟨d.spec, IntText.decimal d.width,
    d.type :: rest⟩ s.reader) =
      .next fmt s') : fmt = rest ∧ d.Consumes s s' := by
  obtain ⟨hfound, hfmt, hreader⟩ := convert_next h
  have hc : d.type ≠ asc 'c' := by rw [hs]; decide
  have hlimit := d.limit_eq
  rw [if_neg hc] at hlimit
  have hspad : d.spec.spad = true := by simp [spec, hc]
  have htype : ScanDirective.type ⟨d.spec, IntText.decimal d.width, d.type :: rest⟩ = d.type := rfl
  rw [scanfStr, htype] at hfound hreader
  simp only [if_neg hc, ← hlimit, hspad, if_true, readSkip_body hbody] at hfound hreader
  have hread := readStr_eq true d.limit [] ((s.reader.rest.takeWhile isWhite).reverse ++ s.reader.back)
    (body s.reader.rest)
    (s.reader.read + (s.reader.rest.takeWhile isWhite).length)
  rw [List.length_nil, Nat.sub_zero] at hread
  replace hread := hread hfits hend
  rw [hread] at hfound hreader
  have hprefix : strItem true d.limit (body s.reader.rest) <+: body s.reader.rest :=
    (List.take_prefix _ _).trans (List.takeWhile_prefix _)
  refine ⟨hfmt, ?_⟩
  rw [Consumes, if_neg (by rw [hs]; decide)]
  refine ⟨s.reader.rest.takeWhile isWhite, strItem true d.limit (body s.reader.rest), ?_, ?_⟩
  · rw [Matches, if_neg hc, if_pos hs, strItem_str]
    refine ⟨rfl, rfl, fun hnil => ?_⟩
    rw [List.nil_append, strItem_str, hnil] at hfound
    simp at hfound
  · have hconsumed := consumed hprefix.length_le List.takeWhile_append_dropWhile.symm hreader
    rw [← List.prefix_iff_eq_take.1 hprefix] at hconsumed
    exact hconsumed

/-- A directive that fits and succeeds. -/
theorem directive_next (hfits : d.Fits s.reader.rest)
    (h : directive float fuel ⟨d.spec, IntText.decimal d.width, d.type :: rest⟩ s = .ok (.next fmt s')) :
    fmt = rest ∧ d.Consumes s s' := by
  have htype : ScanDirective.type ⟨d.spec, IntText.decimal d.width, d.type :: rest⟩ = d.type := rfl
  obtain ⟨-, hfits⟩ := hfits
  rw [directive, htype] at h
  by_cases hn : d.type = asc 'n'
  · rw [hn, if_neg (by decide), if_pos rfl] at h
    cases h
    refine ⟨rfl, ?_⟩
    rw [Consumes, if_pos hn]
    exact ⟨rfl, rfl⟩
  rw [if_neg hn] at hfits
  by_cases hc : d.type = asc 'c'
  · rw [if_pos hc] at hfits
    rw [hc, if_neg (by decide), if_neg (by decide), if_neg (by decide), if_pos (.inl rfl), ← hc] at h
    exact scanfChar_next hfits hc (Except.ok.inj h)
  rw [if_neg hc] at hfits
  by_cases hs : d.type = asc 's'
  · rw [if_pos hs] at hfits
    rw [hs, if_neg (by decide), if_neg (by decide), if_neg (by decide), if_pos (.inr rfl), ← hs] at h
    exact scanfStr_next hfits.1 hfits.2.1 hfits.2.2 hs (Except.ok.inj h)
  rw [if_neg hs] at hfits
  have hint : d.type = asc 'd' ∨ d.type = asc 'u' ∨ d.type = asc 'x' := by
    have := d.type_cases
    tauto
  have hbase : scanBase d.type = some d.base ∧ isFloat d.type = false ∧ d.type ≠ asc '%' ∧ d.type ≠ asc '[' := by
    unfold base
    rcases hint with h | h | h <;> rw [h] <;> decide
  rw [if_neg hbase.2.2.1, if_neg hn, if_neg hbase.2.2.2, if_neg (not_or.2 ⟨hc, hs⟩), hbase.2.1,
    if_neg Bool.false_ne_true, hbase.1] at h
  exact scanfInt_next hfits.1 hfits.2 hc hs hn (Except.ok.inj h)

/-- What is left of the format does not matter to a directive. -/
theorem directive_rest (rest' : List UInt8) (fuel' : Nat)
    (h : directive float fuel ⟨d.spec, IntText.decimal d.width, d.type :: rest⟩ s = .ok (.next fmt s')) :
    directive float fuel' ⟨d.spec, IntText.decimal d.width, d.type :: rest'⟩ s = .ok (.next rest' s') := by
  have hconvert : ∀ n, convert ⟨d.spec, IntText.decimal d.width, d.type :: rest⟩ s n = .next fmt s' →
      convert ⟨d.spec, IntText.decimal d.width, d.type :: rest'⟩ s n = .next rest' s' := by
    intro n hn
    unfold convert at hn ⊢
    rcases hfound : n.found with _ | _
    · rw [hfound] at hn
      cases hn
    · rw [hfound] at hn
      cases hn
      rfl
  have htype : ∀ rest, ScanDirective.type ⟨d.spec, IntText.decimal d.width, d.type :: rest⟩ = d.type := fun _ => rfl
  rw [directive, htype] at h ⊢
  rcases d.type_cases with hd | hd | hd | hd | hd | hd <;> simp only [hd] at h ⊢
  · exact congrArg Except.ok (hconvert _ (Except.ok.inj h))
  · exact congrArg Except.ok (hconvert _ (Except.ok.inj h))
  · exact congrArg Except.ok (hconvert _ (Except.ok.inj h))
  · exact congrArg Except.ok (hconvert _ (Except.ok.inj h))
  · exact congrArg Except.ok (hconvert _ (Except.ok.inj h))
  · cases h
    rfl

end Directive

/-! ### Runs -/

section Runs

variable (float : ScanDirective → Reader → Input)

/-- The format of a list of directives. -/
def formatText (ds : List Directive) : List UInt8 := ds.flatMap fun d => asc '%' :: d.text

/-- A directive, as long as those in front of it succeeded. -/
def scanStep (s : Option State) (d : Directive) : Unit × Option State :=
  ((), s.bind fun s =>
    match turn float 0 (asc '%') (d.text ++ [0]) s with
    | .ok (.next _ s') => some s'
    | _ => none)

/-- The directive fits what is left of the input. -/
def Guard (s : Option State) (d : Directive) : Prop := ∀ s' ∈ s, d.Fits s'.reader.rest

variable {float} {d : Directive} {s s' : State}

theorem scanStep_some (hwidth : (IntText.decimal d.width : Int) ≤ INT_MAX)
    (h : (scanStep float (some s) d).2 = some s') :
    ∃ fmt, directive float 0 ⟨d.spec, IntText.decimal d.width, d.type :: [0]⟩ s = .ok (.next fmt s') := by
  have hread := d.read_text hwidth []
  rw [List.append_nil] at hread
  simp only [scanStep, Option.bind_some, turn_percent, hread] at h
  split at h
  · rename_i fmt s'' hturn
    cases h
    exact ⟨fmt, hturn⟩
  · cases h

theorem scanStep_consumes (hfits : d.Fits s.reader.rest) (h : (scanStep float (some s) d).2 = some s') :
    d.Consumes s s' := by
  obtain ⟨fmt, hturn⟩ := scanStep_some hfits.1 h
  exact (Directive.directive_next hfits hturn).2

/-- What was consumed and what is left are the input, and the count is right. -/
def Counted (input : List UInt8) (s : State) : Prop :=
  s.reader.back.reverse ++ s.reader.rest = input ∧ s.reader.read = s.reader.back.length

theorem counted_step {input : List UInt8} (hs : Counted input s) (h : d.Consumes s s') : Counted input s' := by
  unfold Directive.Consumes at h
  by_cases hn : d.type = asc 'n'
  · rw [if_pos hn] at h
    rw [Counted, h.1]
    exact hs
  · rw [if_neg hn] at h
    obtain ⟨skipped, item, -, hrest, hback, hread⟩ := h
    constructor
    · rw [hback, List.reverse_append, List.reverse_reverse, List.append_assoc, List.append_assoc, ← hrest]
      exact hs.1
    · rw [hread, hback, hs.2]
      simp only [List.length_append, List.length_reverse]
      omega

theorem run_none (ds : List Directive) : Machine.run (scanStep float) none ds = none := by
  induction ds with
  | nil => rfl
  | cons d ds ih => exact ih

/-- The loop of `__jacl_scanf` goes through the states of the run. -/
theorem scanf_run (ds : List Directive) (s s' : State) (hfits : Machine.Guarded (scanStep float) Guard (some s) ds)
    (hrun : Machine.run (scanStep float) (some s) ds = some s') (fuel : Nat) (rest : List UInt8) :
    scanf float (fuel + ds.length) (formatText ds ++ (rest ++ [0])) s = scanf float fuel (rest ++ [0]) s' := by
  induction ds generalizing s with
  | nil =>
    cases hrun
    rfl
  | cons d ds ih =>
    rcases hstep : (scanStep float (some s) d).2 with _ | s₁
    · rw [Machine.run, hstep, run_none] at hrun
      cases hrun
    · obtain ⟨hd, hds⟩ := hfits
      rw [hstep] at hds
      rw [Machine.run, hstep] at hrun
      have hwidth := (hd s rfl).1
      obtain ⟨fmt, hturn⟩ := scanStep_some hwidth hstep
      have hread := d.read_text hwidth (formatText ds ++ rest)
      have htext : formatText (d :: ds) ++ (rest ++ [0]) = asc '%' :: (d.text ++ (formatText ds ++ rest) ++ [0]) := by
        simp [formatText]
      rw [htext, List.length_cons, ← Nat.add_assoc, scanf_cons (by decide), turn_percent, hread,
        Directive.directive_rest _ _ hturn, ok_bind, List.append_assoc]
      exact ih s₁ hds hrun

/-- In a run whose directives all fit, a directive that succeeds consumes what it skips and its item, which are the
next characters of the input; `%n` stores the number of those consumed before it. -/
theorem scanf_consumption (float : ScanDirective → Reader → Input) (str : CString) (ds : List Directive)
    (d : Directive) (s s' : State) (hfits : Machine.Guarded (scanStep float) Guard (some (.start str)) (ds ++ [d]))
    (hrun : Machine.run (scanStep float) (some (.start str)) ds = some s)
    (hstep : (scanStep float (some s) d).2 = some s') :
    (∀ fuel rest, scanf float (fuel + ds.length) (formatText ds ++ (rest ++ [0])) (.start str) =
    scanf float fuel (rest ++ [0]) s) ∧
      Counted str.bytes s ∧ Counted str.bytes s' ∧ d.Consumes s s' := by
  obtain ⟨hds, hd, -⟩ := Machine.guarded_append.1 hfits
  rw [hrun] at hd
  have hcounted : ∀ s ∈ Machine.run (scanStep float) (some (.start str)) ds, Counted str.bytes s := by
    refine @Machine.guarded_invariant _ _ _ (scanStep float) Guard (fun s => ∀ s' ∈ s,
      Counted str.bytes s') ?_ _ ?_ ds hds
    · intro s d hs hguard s' hs'
      rcases s with _ | s
      · cases hs'
      · exact counted_step (hs s rfl) (scanStep_consumes (hguard s rfl) hs')
    · intro s hs
      cases hs
      exact ⟨rfl, rfl⟩
  have hconsumes := scanStep_consumes (hd s rfl) hstep
  exact ⟨scanf_run ds _ s hds hrun, hcounted s hrun, counted_step (hcounted s hrun) hconsumes, hconsumes⟩

end Runs

/-- No number is found. -/
def noFloat (_ : ScanDirective) (r : Reader) : Input := ⟨false, .int 0, r⟩

/-- The input of the two runs below. -/
def digits : CString := ⟨lit " -123", by decide⟩

def words : CString := ⟨lit "ab c", by decide⟩

private theorem noWidth : ∀ c ∈ ([] : List UInt8), isDigit c = true := fun _ h => absurd h List.not_mem_nil

/-- `%3d` -/
def percent3d : Directive := ⟨asc 'd', lit "3", by decide, by decide +kernel⟩

/-- `%n` -/
def percentN : Directive := ⟨asc 'n', [], by decide, noWidth⟩

/-- `%s` -/
def percentS : Directive := ⟨asc 's', [], by decide, noWidth⟩

/-- `%3d%n` -/
theorem scanf_consumption_width : ∃ s s', Machine.run (scanStep noFloat) (some (.start digits)) [percent3d] = some s ∧
    s.reader.rest = lit "3" ∧ Counted (lit " -123") s' := by
  have hrun : (Machine.run (scanStep noFloat) (some (.start digits)) [percent3d]).map (·.reader.rest) =
    some (lit "3") := by
    decide +kernel
  have hstep : (scanStep noFloat (Machine.run (scanStep noFloat) (some (.start digits)) [percent3d])
    percentN).2.isSome := by
    decide +kernel
  obtain ⟨s, hs, hrest⟩ := Option.map_eq_some_iff.1 hrun
  rw [hs] at hstep
  obtain ⟨s', hs'⟩ := Option.isSome_iff_exists.1 hstep
  have hfirst : Guard (some (.start digits)) percent3d := by
    intro s hs
    cases hs
    decide
  refine ⟨s, s', hs, hrest, ?_⟩
  exact (scanf_consumption noFloat digits [percent3d] percentN s s'
    ⟨hfirst, fun _ _ => ⟨by decide, trivial⟩, trivial⟩ hs hs').2.2.1

/-- `%s` consumes the space behind its item. -/
theorem scanf_str_space : ∃ s', (scanStep noFloat (some (.start words)) percentS).2 = some s' ∧
    ¬percentS.Consumes (.start words) s' := by
  have hstep : (scanStep noFloat (some (.start words)) percentS).2.map (·.reader.rest) = some (lit "c") := by
    decide +kernel
  obtain ⟨s', hs', hrest⟩ := Option.map_eq_some_iff.1 hstep
  refine ⟨s', hs', ?_⟩
  rw [Directive.Consumes, if_neg (by decide)]
  rintro ⟨skipped, item, hmatches, hinput, -⟩
  rw [Directive.Matches, if_neg (by decide), if_pos (by rfl)] at hmatches
  rw [hmatches.1, hmatches.2.1, hrest] at hinput
  exact absurd hinput (by decide)

end JACLibc.Scan
