import JACLibc.CString
import Mathlib.Computability.Language

/-!
# `fnmatch`

A place in the string is what is left of it, with the character in front of it: `none` at the start of the string that
`__jacl_fnmatch` was called on, which the star handler starts anew for every suffix it tries.  `true` stands for
`FNM_MATCH`.

Without brackets and with the flags `FNM_NOESCAPE` and `FNM_CASEFOLD` only, the strings that match are a language: the
product of one language for each piece of the pattern (`fnmatch_language`).  The star handler never tries the empty
suffix, and need not: what follows the stars begins with a piece that asks for a character.
-/

namespace JACLibc.Fnmatch

/-! ### The functions -/

def FNM_PATHNAME : BitVec 32 := 0x01
def FNM_PERIOD : BitVec 32 := 0x02
def FNM_NOESCAPE : BitVec 32 := 0x04
def FNM_CASEFOLD : BitVec 32 := 0x10

/-- `tolower` of an `unsigned char`. -/
def tolower (c : UInt8) : UInt8 := if asc 'A' ≤ c ∧ c ≤ asc 'Z' then c + 32 else c

section

variable (flags : BitVec 32)

def HasFlag (f : BitVec 32) : Prop := flags &&& f ≠ 0

instance (f : BitVec 32) : Decidable (HasFlag flags f) := inferInstanceAs (Decidable (flags &&& f ≠ 0))

/-- A period that `FNM_PERIOD` keeps from being matched: `*s == '.'` at the start or behind a slash. -/
def LeadingPeriod (prev : Option UInt8) (s : List UInt8) : Prop :=
  HasFlag flags FNM_PERIOD ∧ s.head? = some (asc '.') ∧ (prev = none ∨ prev = some (asc '/'))

instance (prev : Option UInt8) (s : List UInt8) : Decidable (LeadingPeriod flags prev s) := by
  unfold LeadingPeriod
  infer_instance

def Slash (s : List UInt8) : Prop := HasFlag flags FNM_PATHNAME ∧ s.head? = some (asc '/')

instance (s : List UInt8) : Decidable (Slash flags s) := by
  unfold Slash
  infer_instance

/-- `__jacl_fnmatch_qmark` -/
def qmark (prev : Option UInt8) (s : List UInt8) : Bool :=
  if s = [] then false else if Slash flags s then false else if LeadingPeriod flags prev s then false else true

/-- `char c_l = flags & FNM_CASEFOLD ? tolower((unsigned char)c) : c;` -/
def fold (c : UInt8) : UInt8 := if HasFlag flags FNM_CASEFOLD then tolower c else c

/-- The loop of `__jacl_fnmatch_bracket`, up to the bracket at the end: whether the character was found, and the
pattern behind the bracket; nothing where the bracket is missing. -/
def bracketLoop (c : UInt8) : List UInt8 → Bool → UInt8 → Bool → Option (Bool × List UInt8)
  | [], _, _, _ => none
  | [x], first, _, matched => if x = asc ']' ∧ first = false then some (matched, []) else none
  | x :: e :: p, first, prev, matched =>
    if x = asc ']' ∧ first = false then some (matched, e :: p)
    else if x = asc '-' ∧ e ≠ asc ']' then
      bracketLoop c p false 0 (matched || ((fold flags prev).toInt8 ≤ (fold flags c).toInt8 && (fold flags c).toInt8 ≤
        (fold flags e).toInt8))
    else bracketLoop c (e :: p) false x (matched || fold flags c == fold flags x)

/-- `__jacl_fnmatch_bracket` behind the opening bracket: the answer and the pattern that is left, and nothing for
`-1`. -/
def bracket (p : List UInt8) (c : UInt8) : Option (Bool × List UInt8) :=
  let negate := p.head? = some (asc '!') ∨ p.head? = some (asc '^')
  (bracketLoop flags c (if negate then p.tail else p) true 0 false).map fun r => (r.1 != decide negate, r.2)

theorem bracketLoop_length (c : UInt8) (p : List UInt8) (first : Bool) (prev : UInt8) (matched : Bool)
    {r : Bool × List UInt8} (h : bracketLoop flags c p first prev matched = some r) : r.2.length ≤ p.length := by
  induction p, first, prev, matched using bracketLoop.induct flags c with
  | case1 => cases h
  | case2 x first _ matched hx =>
    rw [bracketLoop, if_pos hx] at h
    rw [← Option.some.inj h]
    exact Nat.zero_le _
  | case3 x first _ matched hx =>
    rw [bracketLoop, if_neg hx] at h
    cases h
  | case4 x e p first prev matched hx =>
    rw [bracketLoop, if_pos hx] at h
    rw [← Option.some.inj h]
    exact Nat.le_succ _
  | case5 x e p first prev matched hx hrange ih =>
    rw [bracketLoop, if_neg hx, if_pos hrange] at h
    exact (ih h).trans ((Nat.le_succ _).trans (Nat.le_succ _))
  | case6 x e p first prev matched hx hrange ih =>
    rw [bracketLoop, if_neg hx, if_neg hrange] at h
    exact (ih h).trans (Nat.le_succ _)

theorem bracket_length {p : List UInt8} {c : UInt8} {r : Bool × List UInt8} (h : bracket flags p c = some r) :
    r.2.length ≤ p.length := by
  obtain ⟨r', hloop, rfl⟩ := Option.map_eq_some_iff.1 h
  refine (bracketLoop_length flags c _ _ _ _ hloop).trans ?_
  split
  · rw [List.length_tail]
    exact Nat.sub_le _ _
  · exact Nat.le_refl _

/-- `__jacl_fnmatch_literal`: the answer, and the pattern that is left. -/
def literal (x : UInt8) (p : List UInt8) (c : UInt8) : Bool × List UInt8 :=
  let escaped := x = asc '\\' ∧ ¬HasFlag flags FNM_NOESCAPE ∧ p ≠ []
  let pc := if escaped then p.headD 0 else x
  (pc == c || (decide (HasFlag flags FNM_CASEFOLD) && tolower pc == tolower c), if escaped then p.tail else p)

theorem literal_suffix (x : UInt8) (p : List UInt8) (c : UInt8) : (literal flags x p c).2 <:+ p := by
  simp only [literal]
  split
  · exact List.tail_suffix p
  · exact List.suffix_refl p

/-- The loop of `__jacl_fnmatch_star` over the suffixes, of which `rest` tries the pattern behind the stars. -/
def starLoop (rest : List UInt8 → Bool) : Option UInt8 → List UInt8 → Bool
  | _, [] => false
  | prev, c :: s =>
    if Slash flags (c :: s) then false
    else if LeadingPeriod flags prev (c :: s) then starLoop rest (some c) s
    else if rest (c :: s) then true
    else starLoop rest (some c) s

/-- The loop of `__jacl_fnmatch`, with `__jacl_fnmatch_star` where it returns the answer of that. -/
def fnmatchLoop (p : List UInt8) (prev : Option UInt8) (s : List UInt8) : Bool :=
  match _h : p with
  | [] => s = []
  | x :: p' =>
    if x = asc '?' then
      if qmark flags prev s then fnmatchLoop p' s.head? s.tail else false
    else if x = asc '*' then
      let r := p'.dropWhile (· = asc '*')
      if r = [] then
        if LeadingPeriod flags prev s then false else if HasFlag flags FNM_PATHNAME then asc '/' ∉ s else true
      else starLoop flags (fun t => fnmatchLoop r none t) prev s
    else if x = asc '[' then
      if s = [] then false
      else if Slash flags s then false
      else if LeadingPeriod flags prev s then false
      else
        match _hb : bracket flags p' (s.headD 0) with
        | none => false
        | some (ok, r) => if ok then fnmatchLoop r s.head? s.tail else false
    else
      if (literal flags x p' (s.headD 0)).1
      then fnmatchLoop (literal flags x p' (s.headD 0)).2 s.head? s.tail
      else false
termination_by p.length
decreasing_by
  · exact Nat.lt_succ_self _
  · exact Nat.lt_succ_of_le (List.length_dropWhile_le _ _)
  · exact Nat.lt_succ_of_le (bracket_length flags _hb)
  · exact Nat.lt_succ_of_le (literal_suffix flags x p' _).length_le

end

/-- `fnmatch` -/
def fnmatch (pattern string : CString) (flags : BitVec 32) : Bool := fnmatchLoop flags pattern.bytes none string.bytes

/-! ### The language of a pattern -/

/-- A piece of a pattern: `*`, `?` or a character. -/
inductive Piece
  | any
  | one
  | char (c : UInt8)
  deriving DecidableEq

/-- The pieces of a pattern without brackets; `escape` says whether a backslash quotes the character behind it. -/
def pieces (escape : Bool) : List UInt8 → List Piece
  | [] => []
  | [x] => [if x = asc '*' then .any else if x = asc '?' then .one else .char x]
  | x :: y :: p =>
    if x = asc '\\' ∧ escape then .char y :: pieces escape p
    else (if x = asc '*' then .any else if x = asc '?' then .one else .char x) :: pieces escape (y :: p)

/-- The strings that a piece denotes; `same` says which characters are the same. -/
def Piece.language (same : UInt8 → UInt8 → Prop) : Piece → Language UInt8
  | any => {_w : List UInt8 | True}
  | one => {w : List UInt8 | ∃ c, w = [c]}
  | char c => {w : List UInt8 | ∃ d, w = [d] ∧ same c d}

/-- The strings that pieces denote one after another. -/
def language (same : UInt8 → UInt8 → Prop) (ps : List Piece) : Language UInt8 := (ps.map (Piece.language same)).prod

section

variable (same : UInt8 → UInt8 → Prop)

@[simp]
theorem mem_nil {w : List UInt8} : w ∈ language same [] ↔ w = [] := Iff.rfl

theorem mem_cons {x : Piece} {ps : List Piece} {w : List UInt8} :
    w ∈ language same (x :: ps) ↔ ∃ a ∈ x.language same, ∃ b ∈ language same ps, a ++ b = w := by
  rw [language, List.map_cons, List.prod_cons]
  exact Language.mem_mul

theorem mem_one {ps : List Piece} {w : List UInt8} : w ∈ language same (.one :: ps) ↔ ∃ c t, w = c :: t ∧
    t ∈ language same ps := by
  rw [mem_cons]
  constructor
  · rintro ⟨a, ⟨c, rfl⟩, t, ht, rfl⟩
    exact ⟨c, t, rfl, ht⟩
  · rintro ⟨c, t, rfl, ht⟩
    exact ⟨[c], ⟨c, rfl⟩, t, ht, rfl⟩

theorem mem_char {x : UInt8} {ps : List Piece} {w : List UInt8} :
    w ∈ language same (.char x :: ps) ↔ ∃ c t, w = c :: t ∧ same x c ∧ t ∈ language same ps := by
  rw [mem_cons]
  constructor
  · rintro ⟨a, ⟨c, rfl, hc⟩, t, ht, rfl⟩
    exact ⟨c, t, rfl, hc, ht⟩
  · rintro ⟨c, t, rfl, hc, ht⟩
    exact ⟨[c], ⟨c, rfl, hc⟩, t, ht, rfl⟩

theorem mem_any {ps : List Piece} {w : List UInt8} : w ∈ language same (.any :: ps) ↔
    ∃ t, t <:+ w ∧ t ∈ language same ps := by
  rw [mem_cons]
  constructor
  · rintro ⟨a, -, t, ht, rfl⟩
    exact ⟨t, List.suffix_append a t, ht⟩
  · rintro ⟨t, ⟨a, rfl⟩, ht⟩
    exact ⟨a, trivial, t, ht, rfl⟩

/-- A star behind a star says nothing. -/
theorem mem_any_any {ps : List Piece} {w : List UInt8} : w ∈ language same (.any :: .any :: ps) ↔
    w ∈ language same (.any :: ps) := by
  rw [mem_any, mem_any]
  constructor
  · rintro ⟨t, ht, h⟩
    obtain ⟨u, hu, h⟩ := (mem_any same).1 h
    exact ⟨u, hu.trans ht, h⟩
  · rintro ⟨t, ht, h⟩
    exact ⟨w, List.suffix_refl w, (mem_any same).2 ⟨t, ht, h⟩⟩

end

section

variable (escape : Bool)

/-- A character that quotes nothing is a piece of its own. -/
theorem pieces_cons {x : UInt8} {p : List UInt8} (h : ¬(x = asc '\\' ∧ escape = true ∧ p ≠ [])) :
    pieces escape (x :: p) = (if x = asc '*' then .any else if x = asc '?' then .one else .char x) ::
    pieces escape p := by
  rcases p with _ | ⟨y, p⟩
  · rfl
  · rw [pieces, if_neg fun hx => h ⟨hx.1, hx.2, List.cons_ne_nil y p⟩]

/-- The pieces of a pattern behind stars. -/
theorem mem_star (same : UInt8 → UInt8 → Prop) {p w : List UInt8} :
    w ∈ language same (.any :: pieces escape p) ↔
    w ∈ language same (.any :: pieces escape (p.dropWhile (· = asc '*'))) := by
  induction p with
  | nil => rfl
  | cons x p ih =>
    by_cases hx : x = asc '*'
    · subst hx
      rw [pieces_cons escape fun h => absurd h.1 (by decide), if_pos rfl, mem_any_any, ih,
        List.dropWhile_cons_of_pos (by simp)]
    · rw [List.dropWhile_cons_of_neg (by simpa using hx)]

/-- What follows the stars asks for a character. -/
theorem nil_not_mem (same : UInt8 → UInt8 → Prop) {x : UInt8} {p : List UInt8} (hx : x ≠ asc '*') :
    [] ∉ language same (pieces escape (x :: p)) := by
  intro h
  by_cases hq : x = asc '\\' ∧ escape = true ∧ p ≠ []
  · obtain ⟨hx, he, hp⟩ := hq
    obtain ⟨y, q, rfl⟩ := List.exists_cons_of_ne_nil hp
    rw [pieces, if_pos ⟨hx, he⟩, mem_char] at h
    obtain ⟨c, t, hnil, -⟩ := h
    cases hnil
  · rw [pieces_cons escape hq, if_neg hx] at h
    split at h
    · obtain ⟨c, t, hnil, -⟩ := (mem_one same).1 h
      cases hnil
    · obtain ⟨c, t, hnil, -⟩ := (mem_char same).1 h
      cases hnil

end

/-! ### The loops and the language -/

section

variable {flags : BitVec 32}

/-- Flags other than `FNM_NOESCAPE` and `FNM_CASEFOLD` are off. -/
def Plain (flags : BitVec 32) : Prop := flags &&& ~~~(FNM_NOESCAPE ||| FNM_CASEFOLD) = 0

theorem Plain.not_hasFlag (h : Plain flags) {f : BitVec 32} (hf : ~~~(FNM_NOESCAPE ||| FNM_CASEFOLD) &&& f = f) :
    ¬HasFlag flags f := by
  intro hflag
  apply hflag
  rw [← hf, ← BitVec.and_assoc, h]
  exact BitVec.zero_and

theorem Plain.not_slash (h : Plain flags) (s : List UInt8) : ¬Slash flags s := fun hs => h.not_hasFlag (by decide) hs.1

theorem Plain.not_leadingPeriod (h : Plain flags) (prev : Option UInt8) (s : List UInt8) :
    ¬LeadingPeriod flags prev s :=
  fun hs => h.not_hasFlag (by decide) hs.1

/-- The same character, up to case where that is asked for. -/
def Same (flags : BitVec 32) (x c : UInt8) : Prop := x = c ∨ (HasFlag flags FNM_CASEFOLD ∧ tolower x = tolower c)

/-- The pieces of a pattern under the flags. -/
def piecesOf (flags : BitVec 32) : List UInt8 → List Piece := pieces (decide ¬HasFlag flags FNM_NOESCAPE)

/-- The star handler finds a suffix, but not the empty one. -/
theorem starLoop_iff (h : Plain flags) (rest : List UInt8 → Bool) (prev : Option UInt8) (s : List UInt8) :
    starLoop flags rest prev s = true ↔ ∃ t, t <:+ s ∧ t ≠ [] ∧ rest t = true := by
  induction s generalizing prev with
  | nil =>
    refine iff_of_false Bool.false_ne_true ?_
    rintro ⟨t, ht, hne, -⟩
    exact hne (List.suffix_nil.1 ht)
  | cons c s ih =>
    rw [starLoop, if_neg (h.not_slash _), if_neg (h.not_leadingPeriod _ _)]
    split
    next hrest => exact iff_of_true rfl ⟨c :: s, List.suffix_refl _, List.cons_ne_nil c s, hrest⟩
    next hrest =>
      rw [ih]
      constructor
      · rintro ⟨t, ht, hne, htr⟩
        exact ⟨t, ht.trans (List.suffix_cons c s), hne, htr⟩
      · rintro ⟨t, ht, hne, htr⟩
        rcases List.suffix_cons_iff.1 ht with rfl | ht
        · exact absurd htr hrest
        · exact ⟨t, ht, hne, htr⟩

theorem tolower_eq_zero {c : UInt8} (h : tolower c = 0) : c = 0 := by
  revert h
  apply forall_byte (c := c)
  decide +kernel

/-- A character of a pattern is not the NUL behind the string. -/
theorem Same.ne_zero {x c : UInt8} (h : Same flags x c) (hx : x ≠ 0) : c ≠ 0 := by
  rintro rfl
  rcases h with h | ⟨-, h⟩
  · exact hx h
  · exact hx (tolower_eq_zero h)

/-- The literal handler reads one piece, a character of the pattern. -/
theorem literal_piece {x : UInt8} {p : List UInt8} (hstar : x ≠ asc '*') (hmark : x ≠ asc '?') (c : UInt8) :
    ∃ pc ∈ x :: p, piecesOf flags (x :: p) = .char pc :: piecesOf flags (literal flags x p c).2 ∧
      ((literal flags x p c).1 = true ↔ Same flags pc c) := by
  have hsame : ∀ pc : UInt8, (pc == c || (decide (HasFlag flags FNM_CASEFOLD) && tolower pc == tolower c)) = true ↔
    Same flags pc c := by
    intro pc
    simp [Same]
  by_cases hq : x = asc '\\' ∧ ¬HasFlag flags FNM_NOESCAPE ∧ p ≠ []
  · obtain ⟨y, q, rfl⟩ := List.exists_cons_of_ne_nil hq.2.2
    simp only [literal, if_pos hq]
    refine ⟨y, by simp, ?_, hsame y⟩
    rw [piecesOf, pieces, if_pos ⟨hq.1, decide_eq_true hq.2.1⟩]
    rfl
  · simp only [literal, if_neg hq]
    refine ⟨x, List.mem_cons_self, ?_, hsame x⟩
    rw [piecesOf, pieces_cons _ fun h => hq ⟨h.1, of_decide_eq_true h.2.1, h.2.2⟩, if_neg hstar, if_neg hmark]

/-- The matcher accepts the language of its pattern. -/
theorem fnmatchLoop_iff (h : Plain flags) (p : List UInt8) (h0 : 0 ∉ p) (hbr : asc '[' ∉ p) (prev : Option UInt8)
    (s : List UInt8) :
    fnmatchLoop flags p prev s = true ↔ s ∈ language (Same flags) (piecesOf flags p) := by
  induction hk : p.length using Nat.strong_induction_on generalizing p prev s with
  | _ k ih =>
    rcases p with _ | ⟨x, p⟩
    · simp [fnmatchLoop, piecesOf, pieces]
    have hlt : p.length < k := by
      rw [← hk]
      exact Nat.lt_succ_self _
    have hsub : ∀ r : List UInt8, r <:+ p → 0 ∉ r ∧ asc '[' ∉ r ∧ r.length < k := fun r hr =>
      ⟨fun hm => h0 (List.mem_cons_of_mem x (hr.mem hm)), fun hm => hbr (List.mem_cons_of_mem x (hr.mem hm)),
        hr.length_le.trans_lt hlt⟩
    have hrec : ∀ r : List UInt8, r <:+ p → ∀ prev s, fnmatchLoop flags r prev s = true ↔
      s ∈ language (Same flags) (piecesOf flags r) := by
      intro r hr prev s
      obtain ⟨hr0, hrb, hrlt⟩ := hsub r hr
      exact ih r.length hrlt r hr0 hrb prev s rfl
    rw [fnmatchLoop]
    by_cases hmark : x = asc '?'
    · -- one character
      subst hmark
      have hpieces : piecesOf flags (asc '?' :: p) = .one :: piecesOf flags p := by
        rw [piecesOf, pieces_cons _ fun h => absurd h.1 (by decide), if_neg (by decide), if_pos rfl]
      rw [if_pos rfl, hpieces, mem_one]
      rcases s with _ | ⟨c, s⟩
      · simp [qmark]
      · have hq : qmark flags prev (c :: s) = true := by simp [qmark, h.not_slash, h.not_leadingPeriod]
        rw [if_pos hq, List.tail_cons, hrec p (List.suffix_refl p)]
        simp
    rw [if_neg hmark]
    by_cases hstar : x = asc '*'
    · -- the suffixes, for what follows the stars
      subst hstar
      rw [if_pos rfl, piecesOf, pieces_cons _ fun h => absurd h.1 (by decide), if_pos rfl, mem_star, mem_any]
      have hsuffix : p.dropWhile (· = asc '*') <:+ p := List.dropWhile_suffix _
      have hhead : ∀ y q, p.dropWhile (· = asc '*') = y :: q → y ≠ asc '*' := by
        intro y q hr
        have := List.head_dropWhile_not (· = asc '*') (l := p) (by rw [hr]; exact List.cons_ne_nil y q)
        simpa [hr] using this
      generalize p.dropWhile (· = asc '*') = r at hsuffix hhead
      rcases r with _ | ⟨y, q⟩
      · rw [if_pos rfl, if_neg (h.not_leadingPeriod _ _), if_neg (h.not_hasFlag (by decide))]
        exact iff_of_true rfl ⟨[], List.nil_suffix, rfl⟩
      · rw [if_neg (List.cons_ne_nil y q), starLoop_iff h]
        constructor
        · rintro ⟨t, ht, -, hr⟩
          exact ⟨t, ht, (hrec _ hsuffix none t).1 hr⟩
        · rintro ⟨t, ht, hr⟩
          refine ⟨t, ht, ?_, (hrec _ hsuffix none t).2 hr⟩
          rintro rfl
          exact nil_not_mem _ _ (hhead y q rfl) hr
    have hopen : x ≠ asc '[' := by
      rintro rfl
      exact hbr List.mem_cons_self
    rw [if_neg hstar, if_neg hopen]
    -- a character
    obtain ⟨pc, hpc, hpieces, hlit⟩ := @literal_piece flags x p hstar hmark (s.headD 0)
    have hpc0 : pc ≠ 0 := fun hz => h0 (hz ▸ hpc)
    have hnext := hrec _ (literal_suffix flags x p (s.headD 0))
    rw [hpieces, mem_char]
    rcases s with _ | ⟨c, s⟩
    · rw [if_neg fun hl => (hlit.1 hl).ne_zero hpc0 rfl]
      simp
    · split
      next hl =>
        rw [hnext]
        constructor
        · exact fun hs => ⟨c, s, rfl, hlit.1 hl, hs⟩
        · rintro ⟨c', t, hct, -, ht⟩
          obtain ⟨rfl, rfl⟩ := List.cons.inj hct
          exact ht
      next hl =>
        refine iff_of_false Bool.false_ne_true ?_
        rintro ⟨c', t, hct, hsame, -⟩
        obtain ⟨rfl, rfl⟩ := List.cons.inj hct
        exact hl (hlit.2 hsame)

end

/-- Without brackets, and with no flag but `FNM_NOESCAPE` and `FNM_CASEFOLD`, `fnmatch` matches exactly the language
of the pattern. -/
theorem fnmatch_language (pattern string : CString) (flags : BitVec 32) (hflags : Plain flags)
    (hbr : asc '[' ∉ pattern.bytes) :
    fnmatch pattern string flags = true ↔ string.bytes ∈ language (Same flags) (piecesOf flags pattern.bytes) :=
  fnmatchLoop_iff hflags pattern.bytes pattern.noNul hbr none string.bytes

/-- `*\A?` and `zzab` with the case ignored. -/
theorem fnmatch_language_fold :
    fnmatch (CString.of (lit "*\\A?")) (CString.of (lit "zzab")) FNM_CASEFOLD = true ∧
      (CString.of (lit "zzab")).bytes ∈ language (Same FNM_CASEFOLD)
      (piecesOf FNM_CASEFOLD (CString.of (lit "*\\A?")).bytes) := by
  have hpieces : piecesOf FNM_CASEFOLD (CString.of (lit "*\\A?")).bytes = [.any, .char (asc 'A'), .one] := by decide
  have hend : [asc 'b'] ∈ language (Same FNM_CASEFOLD) [.one] := (mem_one _).2 ⟨asc 'b', [], rfl, rfl⟩
  have hletter : [asc 'a', asc 'b'] ∈ language (Same FNM_CASEFOLD) [.char (asc 'A'), .one] :=
    (mem_cons _).2 ⟨[asc 'a'], ⟨asc 'a', rfl, .inr (by decide)⟩, _, hend, rfl⟩
  have hmem : (CString.of (lit "zzab")).bytes ∈ language (Same FNM_CASEFOLD) [.any, .char (asc 'A'), .one] :=
    (mem_cons _).2 ⟨lit "zz", trivial, _, hletter, rfl⟩
  rw [← hpieces] at hmem
  exact ⟨(fnmatch_language _ _ FNM_CASEFOLD (show _ = _ by decide) (by decide)).2 hmem, hmem⟩

end JACLibc.Fnmatch
