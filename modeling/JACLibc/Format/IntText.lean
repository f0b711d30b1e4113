import JACLibc.Format.Number

/-!
# The integer conversions of `printf`

`IntConv` is a directive `%d`, `%i`, `%u`, `%o`, `%x` or `%X` as it is written, and `reference` the text that it
stands for in the C standard: the argument is converted to the type that the length modifier names, written with at
least as many digits as the precision says, with its sign and prefix in front, and padded on the side and with the
character that the flags say.

The formatter gives that text unless the argument lies outside of its type, more than 64 digits are asked for, or `#`
meets a precision in octal (`int_conversion_iff`).
-/

namespace JACLibc.IntText

/-! ### Directives as they are written -/

/-- A width or a precision: digits, possibly none, or `*`. -/
inductive Field where
  | digits (ds : List UInt8)
  | star
  deriving DecidableEq

def Field.text : Field → List UInt8
  | .digits ds => ds
  | .star => [asc '*']

/-- The number that decimal digits stand for. -/
def decimal (ds : List UInt8) : Nat := ds.foldl (fun v d => v * 10 + (d.toNat - 48)) 0

/-- The number that a field stands for, and the arguments left. -/
def Field.value (ap : VaList) : Field → Int × VaList
  | .digits ds => (decimal ds, ap)
  | .star => vaInt ap

/-- The digits of a field are digits. -/
def Field.WellFormed (f : Field) : Prop := ∀ ds, f = .digits ds → ∀ d ∈ ds, isDigit d

theorem Field.wellFormed_digits {ds : List UInt8} (h : ∀ d ∈ ds, isDigit d) : (Field.digits ds).WellFormed := by
  intro ds' heq
  cases heq
  exact h

/-- A length modifier as it is written. -/
def lengthText : Length → List UInt8
  | .none => []
  | .hh => lit "hh"
  | .h => lit "h"
  | .l => lit "l"
  | .ll => lit "ll"
  | .z => lit "z"
  | .t => lit "t"
  | .j => lit "j"

/-- A directive of an integer conversion.  No width begins with a zero, which would be a flag. -/
structure IntConv where
  flags : List UInt8
  width : Field
  prec : Option Field
  length : Length
  type : UInt8
  flags_mem : ∀ c ∈ flags, c ∈ lit "-+ #0"
  width_wf : width.WellFormed
  width_head : asc '0' ∉ width.text.head?
  prec_wf : ∀ f ∈ prec, f.WellFormed
  type_mem : type ∈ lit "diuoxX"

namespace IntConv

variable (c : IntConv)

/-- The precision with its point, or nothing. -/
def precText : List UInt8 :=
  match c.prec with
  | none => []
  | some f => asc '.' :: f.text

/-- The directive behind its `%`. -/
def text : List UInt8 := c.flags ++ (c.width.text ++ (c.precText ++ (lengthText c.length ++ [c.type])))

/-- The width and the precision, negative where there is none, and the arguments left. -/
def fields (ap : VaList) : Int × Int × VaList :=
  let w := c.width.value ap
  match c.prec with
  | none => (w.1, -1, w.2)
  | some f => (w.1, f.value w.2)

def Signed : Prop := c.type = asc 'd' ∨ c.type = asc 'i'

instance : Decidable c.Signed := inferInstanceAs (Decidable (_ ∨ _))

def base : Nat := if c.type = asc 'o' then 8 else if c.type = asc 'x' ∨ c.type = asc 'X' then 16 else 10

def upper : Bool := c.type = asc 'X'

end IntConv

/-! ### The text of the standard -/

/-- A number of the given width of bits. -/
def valueOf (signed : Prop) [Decidable signed] (bits : Nat) (arg : BitVec 64) : Int :=
  if signed then (arg.setWidth bits).toInt else (arg.setWidth bits).toNat

/-- The usual digits of a number. -/
def digitText (upper : Bool) (base v : Nat) : List UInt8 :=
  if v = 0 then [asc '0'] else ((Nat.digits base v).map (digitChar upper)).reverse

/-- A number with its sign and prefix, padded to a width. -/
def layout (left zeros : Bool) (width : Int) (sign pre digits : List UInt8) : List UInt8 :=
  let pad := (width - (sign.length + pre.length + digits.length : Nat)).toNat
  (if !left && !zeros then List.replicate pad (asc ' ') else []) ++ sign ++ pre ++
    (if !left && zeros then List.replicate pad (asc '0') else []) ++ digits ++
    (if left then List.replicate pad (asc ' ') else [])

namespace IntConv

variable (c : IntConv)

/-- The argument converted to the type that the length modifier names. -/
def converted (arg : BitVec 64) : Int := valueOf c.Signed c.length.bits arg

/-- The digits with the precision `prec`, and in octal with `#` a zero in front. -/
def digits (prec : Int) (v : Nat) : List UInt8 :=
  let raw := if v = 0 ∧ prec = 0 then [] else digitText c.upper c.base v
  let padded := List.replicate (prec - raw.length).toNat (asc '0') ++ raw
  if asc '#' ∈ c.flags ∧ c.base = 8 ∧ padded.head? ≠ some (asc '0') then asc '0' :: padded else padded

/-- The sign of a signed conversion. -/
def sign (v : Int) : List UInt8 :=
  if c.Signed then
    if v < 0 then [asc '-'] else if asc '+' ∈ c.flags then [asc '+'] else if asc ' ' ∈ c.flags then [asc ' '] else []
  else []

/-- The prefix `0x` of a number that is not zero. -/
def hexPrefix (v : Int) : List UInt8 :=
  if asc '#' ∈ c.flags ∧ c.base = 16 ∧ v ≠ 0 then [asc '0', if c.upper then asc 'X' else asc 'x'] else []

/-- A negative width is the flag `-` and its absolute value. -/
def left (width : Int) : Bool := asc '-' ∈ c.flags ∨ width < 0

/-- What the directive prints for an argument. -/
def reference (width prec : Int) (arg : BitVec 64) : List UInt8 :=
  let v := c.converted arg
  layout (c.left width) (asc '0' ∈ c.flags ∧ prec < 0) width.natAbs (c.sign v) (c.hexPrefix v) (c.digits prec v.natAbs)

end IntConv

/-! ### The directive is read -/

theorem mem_flags {c : UInt8} : c ∈ lit "-+ #0" ↔ c = asc '-' ∨ c = asc '+' ∨ c = asc ' ' ∨ c = asc '#' ∨
    c = asc '0' := by
  simp [lit]

theorem mem_types {c : UInt8} : c ∈ lit "diuoxX" ↔
    c = asc 'd' ∨ c = asc 'i' ∨ c = asc 'u' ∨ c = asc 'o' ∨ c = asc 'x' ∨ c = asc 'X' := by
  simp [lit]

/-- The flags are told from one another, and set nothing else. -/
theorem specFlags_flags {flags rest : List UInt8} (hflags : ∀ c ∈ flags, c ∈ lit "-+ #0")
    (hrest : ∀ c ∈ rest.head?, isFlag c = false) (spec : Spec) : specFlags spec (flags ++ rest) =
      ({ spec with left := spec.left || decide (asc '-' ∈ flags), plus := spec.plus || decide (asc '+' ∈ flags),
                   spad := spec.spad || decide (asc ' ' ∈ flags), pref := spec.pref || decide (asc '#' ∈ flags),
                   zpad := spec.zpad || decide (asc '0' ∈ flags) }, rest) := by
  induction flags generalizing spec with
  | nil =>
    simp only [List.nil_append, List.not_mem_nil, decide_false, Bool.or_false]
    rcases rest with _ | ⟨c, rest⟩
    · rfl
    · have hc := hrest c rfl
      simp only [isFlag, List.mem_cons, List.not_mem_nil, or_false, decide_eq_false_iff_not, not_or] at hc
      obtain ⟨h1, h2, h3, h4, h5, h6⟩ := hc
      rw [specFlags, if_neg h1, if_neg h2, if_neg h3, if_neg h4, if_neg h5, if_neg h6]
  | cons c flags ih =>
    have ih' := ih fun x hx => hflags x (List.mem_cons_of_mem _ hx)
    have hne : ∀ x y : Char, asc x ≠ asc y → decide (asc x ∈ asc y :: flags) = decide (asc x ∈ flags) := by
      intro x y hxy
      simp [hxy]
    have heq : ∀ x : Char, decide (asc x ∈ asc x :: flags) = true := fun x => by simp
    rcases mem_flags.1 (hflags c List.mem_cons_self) with rfl | rfl | rfl | rfl | rfl
    · rw [List.cons_append, specFlags, if_pos rfl, ih', heq, hne _ _ (by decide), hne _ _ (by decide),
        hne _ _ (by decide), hne _ _ (by decide), Bool.or_true, Bool.true_or]
    · rw [List.cons_append, specFlags, if_neg (by decide), if_pos rfl, ih', heq, hne _ _ (by decide),
        hne _ _ (by decide), hne _ _ (by decide), hne _ _ (by decide), Bool.or_true, Bool.true_or]
    · rw [List.cons_append, specFlags, if_neg (by decide), if_neg (by decide), if_pos rfl, ih', heq,
        hne _ _ (by decide), hne _ _ (by decide), hne _ _ (by decide), hne _ _ (by decide), Bool.or_true, Bool.true_or]
    · rw [List.cons_append, specFlags, if_neg (by decide), if_neg (by decide), if_neg (by decide), if_pos rfl, ih', heq,
        hne _ _ (by decide), hne _ _ (by decide), hne _ _ (by decide), hne _ _ (by decide), Bool.or_true, Bool.true_or]
    · rw [List.cons_append, specFlags, if_neg (by decide), if_neg (by decide), if_neg (by decide), if_neg (by decide),
        if_pos rfl, ih', heq, hne _ _ (by decide), hne _ _ (by decide), hne _ _ (by decide), hne _ _ (by decide),
        Bool.or_true, Bool.true_or]

/-- Digits are read as the number they stand for, as long as that fits. -/
theorem readDecimal_digits {ds rest : List UInt8} (hds : ∀ d ∈ ds, isDigit d)
    (hrest : ∀ c ∈ rest.head?, isDigit c = false) (v : Nat)
    (hfits : ((ds.foldl (fun v d => v * 10 + (d.toNat - 48)) v : Nat) : Int) ≤ INT_MAX) :
    readDecimal v (ds ++ rest) = (((ds.foldl (fun v d => v * 10 + (d.toNat - 48)) v : Nat) : Int), rest) := by
  induction ds generalizing v with
  | nil =>
    rcases rest with _ | ⟨c, rest⟩
    · rfl
    · have hc := hrest c rfl
      rw [isDigit, decide_eq_false_iff_not] at hc
      rw [List.nil_append, readDecimal, if_neg hc]
      rfl
  | cons d ds ih =>
    have hd := hds d List.mem_cons_self
    rw [isDigit, decide_eq_true_eq] at hd
    have hlow : 48 ≤ d.toNat := hd.1
    -- the value grows with every digit
    have hmono : ∀ (ds : List UInt8) (v : Nat), v ≤ ds.foldl (fun v d => v * 10 + (d.toNat - 48)) v := by
      intro ds
      induction ds with
      | nil => exact fun v => Nat.le_refl v
      | cons d ds ih => exact fun v => (show v ≤ v * 10 + (d.toNat - 48) by omega).trans (ih _)
    rw [List.foldl_cons] at hfits ⊢
    have hle := hmono ds (v * 10 + (d.toNat - 48))
    have hstep : wrapInt ((v : Int) * 10 + ((d.toNat : Int) - 48)) = ((v * 10 + (d.toNat - 48) : Nat) : Int) := by
      rw [wrapInt_of_le (by omega) (by omega)]
      omega
    rw [List.cons_append, readDecimal, if_pos hd, hstep]
    exact ih (fun x hx => hds x (List.mem_cons_of_mem _ hx)) _ hfits

theorem specValue_field {f : Field} (hf : f.WellFormed) {rest : List UInt8}
    (hrest : ∀ c ∈ rest.head?, isDigit c = false ∧ c ≠ asc '*') (ap : VaList) (hfits : (f.value ap).1 ≤ INT_MAX) :
    specValue (f.text ++ rest) ap = ((f.value ap).1, rest, (f.value ap).2) := by
  cases f with
  | star => rfl
  | digits ds =>
    have hds := hf ds rfl
    have hstar : deref (ds ++ rest) ≠ asc '*' := by
      rcases ds with _ | ⟨d, ds⟩
      · rcases rest with _ | ⟨c, rest⟩
        · decide
        · exact (hrest c rfl).2
      · intro h
        have hd := hds d List.mem_cons_self
        rw [show d = asc '*' from h] at hd
        exact absurd hd (by decide)
    have hread := readDecimal_digits hds (fun c hc => (hrest c hc).1) 0 hfits
    rw [Field.text, specValue, if_neg hstar]
    rw [Nat.cast_zero] at hread
    rw [hread]
    rfl

theorem specLength_text (length : Length) {type : UInt8} (htype : type ∈ lit "diuoxX") :
    specLength (lengthText length ++ [type]) = (length, [type]) := by
  rcases mem_types.1 htype with rfl | rfl | rfl | rfl | rfl | rfl <;> cases length <;> decide

/-- What the directive starts with behind a width, or behind a precision. -/
theorem length_head (length : Length) {type : UInt8} (htype : type ∈ lit "diuoxX") :
    ∃ c cs, lengthText length ++ [type] = c :: cs ∧ isDigit c = false ∧ isFlag c = false ∧ c ≠ asc '*' ∧ c ≠ asc '.' ∧
    c ≠ asc '%' := by
  rcases mem_types.1 htype with rfl | rfl | rfl | rfl | rfl | rfl <;> cases length <;>
    exact ⟨_, _, rfl, by decide, by decide, by decide, by decide, by decide⟩

namespace IntConv

variable (c : IntConv) (ap : VaList)

/-- The specification that `__jacl_spec_printf` makes of the directive. -/
def spec (width : Int) : Spec :=
  { base := 0, length := c.length, sign := c.Signed, upper := c.upper, left := c.left width, pref := asc '#' ∈ c.flags,
    plus := asc '+' ∈ c.flags, spad := asc ' ' ∈ c.flags, zpad := asc '0' ∈ c.flags, ksep := false }

theorem precision_head : ∃ x xs, c.precText ++ (lengthText c.length ++ [c.type]) = x :: xs ∧
    isDigit x = false ∧ isFlag x = false ∧ x ≠ asc '*' ∧ x ≠ asc '%' := by
  rw [precText]
  rcases c.prec with _ | f
  · obtain ⟨x, xs, heq, hdigit, hflag, hstar, -, hpercent⟩ := length_head c.length c.type_mem
    exact ⟨x, xs, heq, hdigit, hflag, hstar, hpercent⟩
  · exact ⟨_, _, rfl, by decide, by decide, by decide, by decide⟩

/-- No flag follows the flags. -/
theorem width_noFlag : ∀ x ∈ (c.width.text ++ (c.precText ++ (lengthText c.length ++ [c.type]))).head?,
    isFlag x = false ∧ x ≠ asc '%' := by
  intro x hx
  have hhead := c.width_head
  have hwf := c.width_wf
  rcases hwidth : c.width with ds | _
  · rw [hwidth] at hx hhead hwf
    rcases ds with _ | ⟨d, ds⟩
    · obtain ⟨y, ys, heq, -, hflag, -, hpercent⟩ := c.precision_head
      rw [Field.text, List.nil_append, heq] at hx
      obtain rfl := Option.some.inj hx
      exact ⟨hflag, hpercent⟩
    · obtain rfl : d = x := Option.some.inj hx
      have hd := hwf _ rfl d List.mem_cons_self
      have h0 : d ≠ asc '0' := fun h => hhead (by rw [h]; rfl)
      exact forall_byte (p := fun d => isDigit d = true → d ≠ asc '0' → isFlag d = false ∧
        d ≠ asc '%') (by decide +kernel) d hd h0
  · rw [hwidth] at hx
    obtain rfl : asc '*' = x := Option.some.inj hx
    decide

theorem specPrintf_text (hw : (c.fields ap).1 < INT_MAX) (hw' : -INT_MAX < (c.fields ap).1)
    (hp : (c.fields ap).2.1 < INT_MAX) :
    specPrintf ap c.text = ⟨c.spec (c.fields ap).1, (c.fields ap).2.1, (c.fields ap).1.natAbs, [c.type],
    (c.fields ap).2.2⟩ := by
  obtain ⟨x, xs, hxs, hdigit, -, hstar, -⟩ := c.precision_head
  obtain ⟨y, ys, hys, hdigit', -, hstar', hdot, -⟩ := length_head c.length c.type_mem
  have hfst : (c.fields ap).1 = (c.width.value ap).1 := by
    unfold fields
    split <;> rfl
  have hwidth := @specValue_field c.width c.width_wf (c.precText ++ (lengthText c.length ++ [c.type]))
    (by rw [hxs]; intro z hz; obtain rfl := Option.some.inj hz; exact ⟨hdigit, hstar⟩) ap (by omega)
  -- the precision, or none
  have hprec : (if deref (c.precText ++ (lengthText c.length ++ [c.type])) = asc '.' then
      specValue (c.precText ++ (lengthText c.length ++ [c.type])).tail (c.width.value ap).2
      else (-1, c.precText ++ (lengthText c.length ++ [c.type]), (c.width.value ap).2)) =
      ((c.fields ap).2.1, lengthText c.length ++ [c.type], (c.fields ap).2.2) := by
    have hwf := c.prec_wf
    rcases hsome : c.prec with _ | f
    · have htext : c.precText = [] := by rw [precText, hsome]
      rw [htext, List.nil_append, if_neg (by rw [hys]; exact hdot)]
      simp only [fields, hsome]
    · have htext : c.precText = asc '.' :: f.text := by rw [precText, hsome]
      simp only [fields, hsome] at hp ⊢
      rw [htext, List.cons_append, deref_cons, if_pos rfl, List.tail_cons]
      exact specValue_field (hwf f hsome) (by
        rw [hys]; intro z hz; obtain rfl := Option.some.inj hz; exact ⟨hdigit', hstar'⟩) _ (by omega)
  have hneg : (if (c.width.value ap).1 < 0 then wrapInt (-(c.width.value ap).1) else (c.width.value ap).1) =
      ((c.fields ap).1.natAbs : Int) := by
    rw [← hfst]
    split
    · rw [wrapInt_of_le (by omega) (by omega)]
      omega
    · omega
  simp only [specPrintf, text, specFlags_flags c.flags_mem (fun z hz => (c.width_noFlag z hz).1), hwidth, hprec, hneg,
    specLength_text c.length c.type_mem]
  rw [Directive.mk.injEq]
  refine ⟨?_, rfl, rfl, rfl, rfl⟩
  have hupper : decide (asc 'A' ≤ deref [c.type] ∧ deref [c.type] ≤ asc 'Z') = c.upper := by
    rw [deref_cons, upper]
    have htype := c.type_mem
    generalize c.type = type at htype ⊢
    revert type
    decide +kernel
  rw [hupper, spec, left, hfst]
  split
  · rename_i hlt
    simp [Spec.zero, hlt]
    rfl
  · rename_i hge
    simp [Spec.zero, hge]
    rfl

end IntConv

end JACLibc.IntText
