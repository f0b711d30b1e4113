import JACLibc.Match.Fnmatch

/-!
# Bracket expressions of `fnmatch`

A bracket expression is a list of characters and ranges (`BracketExpr`).  `__jacl_fnmatch_bracket` reads it character
by character and sees a range at its hyphen, with the character before it in `prev`.  In front of the first character
`prev` is 0, and so a hyphen there that has something behind it is read as a range from 0 (`readAs`); everything else
is read as what it is.  Characters are compared as `char`, which is signed.
-/

namespace JACLibc.Fnmatch

/-! ### Expressions -/

inductive Item where
  | single (c : UInt8)
  | range (lo hi : UInt8)
  deriving DecidableEq

namespace Item

def text : Item → List UInt8
  | single c => [c]
  | range lo hi => [lo, asc '-', hi]

/-- The item lists a character. -/
def Lists (c : UInt8) : Item → Prop
  | single x => c = x
  | range lo hi => lo.toInt8 ≤ c.toInt8 ∧ c.toInt8 ≤ hi.toInt8

instance (c : UInt8) : ∀ i : Item, Decidable (i.Lists c)
  | single x => inferInstanceAs (Decidable (c = x))
  | range lo hi => inferInstanceAs (Decidable (lo.toInt8 ≤ c.toInt8 ∧ c.toInt8 ≤ hi.toInt8))

/-- An item that reads as itself: `]` is the first character of the expression or none, `-` is an item only where it
is the first or the last one, and a range begins with it only at the front. -/
def WellFormed (first last : Bool) : Item → Prop
  | single c => c ≠ 0 ∧ (c = asc ']' → first = true) ∧ (c = asc '-' → first = true ∨ last = true)
  | range lo hi =>
    lo ≠ 0 ∧ hi ≠ 0 ∧ hi ≠ asc ']' ∧ (lo = asc ']' → first = true) ∧ (lo = asc '-' → first = true) ∧
      lo.toInt8 ≤ hi.toInt8

instance (first last : Bool) : ∀ i : Item, Decidable (i.WellFormed first last)
  | single _ => inferInstanceAs (Decidable (_ ∧ _))
  | range _ _ => inferInstanceAs (Decidable (_ ∧ _))

end Item

open Item

def WellFormed : Bool → List Item → Prop
  | _, [] => True
  | first, i :: is => i.WellFormed first is.isEmpty ∧ WellFormed false is

instance WellFormed.decide : ∀ first is, Decidable (WellFormed first is)
  | _, [] => isTrue trivial
  | first, i :: is =>
    have := WellFormed.decide false is
    inferInstanceAs (Decidable (i.WellFormed first is.isEmpty ∧ WellFormed false is))

def itemsText (is : List Item) : List UInt8 := is.flatMap text

def isSign (c : UInt8) : Prop := c = asc '!' ∨ c = asc '^'

instance (c : UInt8) : Decidable (isSign c) := inferInstanceAs (Decidable (_ ∨ _))

/-- A bracket expression, with the sign of a negated one. -/
structure BracketExpr where
  sign : Option UInt8
  items : List Item
  sign_eq : ∀ c ∈ sign, isSign c
  nonempty : items ≠ []
  wellFormed : WellFormed true items
  no_sign : sign = none → ∀ c ∈ (itemsText items).head?, ¬isSign c

/-- The expression behind its opening bracket. -/
def BracketExpr.text (e : BracketExpr) : List UInt8 := e.sign.toList ++ itemsText e.items ++ [asc ']']

/-- One of the items lists the character. -/
def lists (is : List Item) (c : UInt8) : Bool := is.any fun i => i.Lists c

/-- The expression accepts the character. -/
def BracketExpr.accepts (e : BracketExpr) (c : UInt8) : Bool := lists e.items c != e.sign.isSome

/-! ### What the code reads -/

/-- A hyphen that has no character before it, in front of items. -/
def hyphen : List Item → List Item
  | [] => [single (asc '-')]
  | single x :: is => range 0 x :: is
  | range lo hi :: is => range 0 lo :: range 0 hi :: is

/-- The items that `__jacl_fnmatch_bracket` takes the items of an expression for. -/
def readAs : List Item → List Item
  | single c :: is => if c = asc '-' then hyphen is else single c :: is
  | range lo hi :: is =>
    if lo = asc '-' then range 0 (asc '-') :: (if hi = asc '-' then hyphen is else single hi :: is)
      else range lo hi :: is
  | [] => []

section

variable {c x e lo hi prev : UInt8} {p : List UInt8} {first matched : Bool}

theorem fold_zero (c : UInt8) : fold 0 c = c := if_neg (by decide)

theorem bracketLoop_close : bracketLoop 0 c (asc ']' :: p) false prev matched = some (matched, p) := by
  rcases p with _ | ⟨e, p⟩
  · rw [bracketLoop, if_pos ⟨rfl, rfl⟩]
  · rw [bracketLoop, if_pos ⟨rfl, rfl⟩]

theorem bracketLoop_single (hx : x = asc ']' → first = true) (he : x = asc '-' → e = asc ']') :
    bracketLoop 0 c (x :: e :: p) first prev matched = bracketLoop 0 c (e :: p) false x
    (matched || decide ((single x).Lists c)) := by
  have hclose : ¬(x = asc ']' ∧ first = false) := fun h => by
    rw [hx h.1] at h
    exact absurd h.2 (by decide)
  rw [bracketLoop, if_neg hclose, if_neg fun h => h.2 (he h.1), fold_zero, fold_zero]
  rfl

theorem bracketLoop_hyphen (he : e ≠ asc ']') :
    bracketLoop 0 c (asc '-' :: e :: p) first prev matched =
    bracketLoop 0 c p false 0 (matched || decide ((range prev e).Lists c)) := by
  have hrange : (decide (prev.toInt8 ≤ c.toInt8) && decide (c.toInt8 ≤ e.toInt8)) =
    decide ((range prev e).Lists c) := by
    rw [Bool.eq_iff_iff, Bool.and_eq_true, decide_eq_true_iff, decide_eq_true_iff, decide_eq_true_iff]
    rfl
  rw [bracketLoop, if_neg fun h => absurd h.1 (by decide), if_pos ⟨rfl, he⟩, fold_zero, fold_zero, fold_zero, hrange]

/-- One item, with what comes behind it. -/
theorem bracketLoop_item {i : Item} {last : Bool} (h : i.WellFormed first last)
    (hi : i.text.head? = some (asc '-') → i.text = [asc '-'] ∧ e = asc ']') :
    ∃ prev', bracketLoop 0 c (i.text ++ e :: p) first prev matched = bracketLoop 0 c (e :: p) false prev'
    (matched || decide (i.Lists c)) := by
  rcases i with x | ⟨lo, hi'⟩
  · refine ⟨x, bracketLoop_single h.2.1 fun hx => (hi ?_).2⟩
    rw [hx]
    rfl
  · obtain ⟨-, -, hclose, hfirst, -, hle⟩ := h
    have hlo : lo ≠ asc '-' := by
      rintro rfl
      exact absurd (hi rfl).1 (by simp [Item.text])
    refine ⟨0, ?_⟩
    show bracketLoop 0 c (lo :: asc '-' :: hi' :: e :: p) first prev matched = _
    rw [bracketLoop_single hfirst fun hx => absurd hx hlo, bracketLoop_hyphen hclose, Bool.or_assoc]
    congr 2
    by_cases hc : c = lo
    · subst hc
      simp [Item.Lists, hle]
    · simp [Item.Lists, hc]

theorem itemsText_cons (i : Item) (is : List Item) : itemsText (i :: is) = i.text ++ itemsText is := List.flatMap_cons

theorem lists_cons (i : Item) (is : List Item) : lists (i :: is) c = (decide (i.Lists c) || lists is c) := List.any_cons

/-- What follows an item. -/
theorem itemsText_eq_cons (is : List Item) (p : List UInt8) :
    ∃ e q, itemsText is ++ asc ']' :: p = e :: q ∧ (is = [] → e = asc ']') :=
  match is with
  | [] => ⟨_, _, rfl, fun _ => rfl⟩
  | single _ :: _ => ⟨_, _, rfl, fun h => nomatch h⟩
  | range _ _ :: _ => ⟨_, _, rfl, fun h => nomatch h⟩

/-- The items behind the first one are read as what they are. -/
theorem bracketLoop_items {is : List Item} (h : WellFormed false is) :
    bracketLoop 0 c (itemsText is ++ asc ']' :: p) false prev matched = some (matched || lists is c, p) := by
  induction is generalizing prev matched with
  | nil =>
    rw [lists, List.any_nil, Bool.or_false]
    exact bracketLoop_close
  | cons i is ih =>
    obtain ⟨e, q, hq, hnil⟩ := itemsText_eq_cons is p
    have hhyphen : i.text.head? = some (asc '-') → i.text = [asc '-'] ∧ e = asc ']' := by
      intro hhead
      rcases i with x | ⟨lo, hi⟩
      · obtain rfl : x = asc '-' := Option.some.inj hhead
        refine ⟨rfl, hnil ?_⟩
        have hlast := (h.1.2.2 rfl).resolve_left (by decide)
        exact List.isEmpty_iff.1 hlast
      · have hfirst := h.1.2.2.2.2.1 (Option.some.inj hhead)
        exact absurd hfirst (by decide)
    obtain ⟨prev', hstep⟩ := @bracketLoop_item c e prev q false matched i _ h.1 hhyphen
    rw [itemsText_cons, List.append_assoc, hq, hstep, ← hq, ih h.2, lists_cons, Bool.or_assoc]

/-- A hyphen with no character before it. -/
theorem bracketLoop_hyphen_items {is : List Item} (h : WellFormed false is) :
    bracketLoop 0 c (asc '-' :: (itemsText is ++ asc ']' :: p)) first 0 matched =
    some (matched || lists (hyphen is) c, p) := by
  rcases is with _ | ⟨x | ⟨lo, hi⟩, is⟩
  · show bracketLoop 0 c (asc '-' :: asc ']' :: p) first 0 matched = _
    rw [bracketLoop_single (fun hx => absurd hx (by decide)) fun _ => rfl, bracketLoop_close, hyphen, lists_cons]
    rw [lists, List.any_nil, Bool.or_false]
  · have hx : x ≠ asc ']' := fun hx => absurd (h.1.2.1 hx) (by decide)
    show bracketLoop 0 c (asc '-' :: x :: (itemsText is ++ asc ']' :: p)) first 0 matched = _
    rw [bracketLoop_hyphen hx, bracketLoop_items h.2, hyphen, lists_cons, Bool.or_assoc]
  · have hlo : lo ≠ asc ']' := fun hx => absurd (h.1.2.2.2.1 hx) (by decide)
    show bracketLoop 0 c (asc '-' :: lo :: asc '-' :: hi :: (itemsText is ++ asc ']' :: p)) first 0 matched = _
    rw [bracketLoop_hyphen hlo, bracketLoop_hyphen h.1.2.2.1, bracketLoop_items h.2, hyphen, lists_cons, lists_cons,
      Bool.or_assoc, Bool.or_assoc]

/-- The loop accepts what the items that it reads list. -/
theorem bracketLoop_readAs {is : List Item} (hne : is ≠ []) (h : WellFormed true is) :
    bracketLoop 0 c (itemsText is ++ asc ']' :: p) true 0 false = some (lists (readAs is) c, p) := by
  obtain ⟨i, is, rfl⟩ := List.exists_cons_of_ne_nil hne
  rcases i with x | ⟨lo, hi⟩
  · by_cases hx : x = asc '-'
    · subst hx
      show bracketLoop 0 c (asc '-' :: (itemsText is ++ asc ']' :: p)) true 0 false = _
      rw [bracketLoop_hyphen_items h.2, readAs, if_pos rfl, Bool.false_or]
    · obtain ⟨e, q, hq, -⟩ := itemsText_eq_cons is p
      obtain ⟨prev', hstep⟩ := @bracketLoop_item c e 0 q true false _ _ h.1 fun hhead =>
        absurd (Option.some.inj hhead) hx
      rw [itemsText_cons, List.append_assoc, hq, hstep, ← hq, bracketLoop_items h.2, readAs, if_neg hx, lists_cons,
        Bool.false_or]
  · by_cases hlo : lo = asc '-'
    · subst hlo
      show bracketLoop 0 c (asc '-' :: asc '-' :: hi :: (itemsText is ++ asc ']' :: p)) true 0 false = _
      rw [bracketLoop_hyphen (by decide), readAs, if_pos rfl, lists_cons, Bool.false_or]
      by_cases hhi : hi = asc '-'
      · subst hhi
        rw [bracketLoop_hyphen_items h.2, if_pos rfl]
      · obtain ⟨e, q, hq, -⟩ := itemsText_eq_cons is p
        rw [hq, bracketLoop_single (fun hx => absurd hx h.1.2.2.1) (fun hx => absurd hx hhi), ← hq,
          bracketLoop_items h.2, if_neg hhi, lists_cons, Bool.or_assoc]
    · obtain ⟨e, q, hq, -⟩ := itemsText_eq_cons is p
      obtain ⟨prev', hstep⟩ := @bracketLoop_item c e 0 q true false _ _ h.1 fun hhead =>
        absurd (Option.some.inj hhead) hlo
      rw [itemsText_cons, List.append_assoc, hq, hstep, ← hq, bracketLoop_items h.2, readAs, if_neg hlo, lists_cons,
        Bool.false_or]

/-- What the code answers, with the pattern behind the bracket. -/
theorem bracket_readAs (e : BracketExpr) (rest : List UInt8) (c : UInt8) :
    bracket 0 (e.text ++ rest) c = some (lists (readAs e.items) c != e.sign.isSome, rest) := by
  have hloop := @bracketLoop_readAs c rest e.items e.nonempty e.wellFormed
  rcases hsign : e.sign with _ | sgn
  · have htext : e.text ++ rest = itemsText e.items ++ asc ']' :: rest := by
      rw [BracketExpr.text, hsign, Option.toList_none, List.nil_append, List.append_assoc, List.singleton_append]
    have hno : ¬((e.text ++ rest).head? = some (asc '!') ∨ (e.text ++ rest).head? = some (asc '^')) := by
      intro h
      have hsome : ∃ x, isSign x ∧ (itemsText e.items).head? = some x := by
        obtain ⟨i, is, his⟩ := List.exists_cons_of_ne_nil e.nonempty
        rw [htext, his, itemsText_cons] at h
        rw [his, itemsText_cons]
        rcases i with x | ⟨lo, hi⟩
        · exact h.elim (fun h => ⟨_, Or.inl rfl, h⟩) fun h => ⟨_, Or.inr rfl, h⟩
        · exact h.elim (fun h => ⟨_, Or.inl rfl, h⟩) fun h => ⟨_, Or.inr rfl, h⟩
      obtain ⟨x, hx, hhead⟩ := hsome
      exact e.no_sign hsign x hhead hx
    rw [htext] at hno ⊢
    simp only [bracket, if_neg hno, hloop, Option.map_some, decide_eq_false hno]
    rfl
  · have htext : e.text ++ rest = sgn :: (itemsText e.items ++ asc ']' :: rest) := by
      rw [BracketExpr.text, hsign, Option.toList_some, List.append_assoc, List.append_assoc]
      rfl
    have hyes : (sgn :: (itemsText e.items ++ asc ']' :: rest)).head? = some (asc '!') ∨
        (sgn :: (itemsText e.items ++ asc ']' :: rest)).head? = some (asc '^') := by
      rcases e.sign_eq sgn hsign with rfl | rfl
      · exact Or.inl rfl
      · exact Or.inr rfl
    simp only [bracket, htext, if_pos hyes, List.tail_cons, hloop, Option.map_some, decide_eq_true hyes]
    rfl

end

/-! ### The hyphen at the front -/

/-- The expression begins with a hyphen, and has something behind it. -/
def LeadingHyphen (is : List Item) : Prop := (itemsText is).head? = some (asc '-') ∧ is ≠ [single (asc '-')]

instance (is : List Item) : Decidable (LeadingHyphen is) := inferInstanceAs (Decidable (_ ∧ _))

theorem readAs_of_not_leadingHyphen {is : List Item} (h : ¬LeadingHyphen is) : readAs is = is := by
  rcases is with _ | ⟨x | ⟨lo, hi⟩, is⟩
  · rfl
  · rw [readAs]
    split
    next hx =>
      subst hx
      have hnil : is = [] := by
        by_contra hne
        exact h ⟨rfl, fun heq => hne (List.cons.inj heq).2⟩
      rw [hnil, hyphen]
    next => rfl
  · rw [readAs, if_neg]
    rintro rfl
    exact h ⟨rfl, by simp⟩

/-- A bracket expression is decided right exactly where it does not begin with a hyphen that has something behind it,
or the character is listed alike when that hyphen and what is behind it are read as a range from 0.  The pattern that
is left is right in any case. -/
theorem bracket_correct_iff (e : BracketExpr) (rest : List UInt8) (c : UInt8) :
    (bracket 0 (e.text ++ rest) c).map Prod.snd = some rest ∧
      (bracket 0 (e.text ++ rest) c = some (e.accepts c, rest) ↔ ¬LeadingHyphen e.items ∨
      lists (readAs e.items) c = lists e.items c) := by
  rw [bracket_readAs]
  refine ⟨rfl, ?_⟩
  have hxor : (lists (readAs e.items) c != e.sign.isSome) = e.accepts c ↔
    lists (readAs e.items) c = lists e.items c := by
    rw [BracketExpr.accepts]
    cases lists (readAs e.items) c <;> cases lists e.items c <;> cases e.sign.isSome <;> decide
  rw [Option.some.injEq, Prod.mk.injEq, and_iff_left rfl, hxor]
  constructor
  · exact Or.inr
  · rintro (h | h)
    · rw [readAs_of_not_leadingHyphen h]
    · exact h

/-- `[-a]` -/
def hyphenA : BracketExpr where
  sign := none
  items := [single (asc '-'), single (asc 'a')]
  sign_eq := by simp
  nonempty := by simp
  wellFormed := by decide
  no_sign _ := by decide +kernel

/-- `[-a]` accepts `B`, which it does not list. -/
theorem bracket_leading_hyphen : bracket 0 hyphenA.text (asc 'B') = some (true, []) ∧
    hyphenA.accepts (asc 'B') = false := by decide

end JACLibc.Fnmatch
