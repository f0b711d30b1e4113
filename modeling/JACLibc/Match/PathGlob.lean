import JACLibc.Match.Fnmatch

/-!
# `fnmatch` on paths

Under `FNM_PATHNAME` a slash, and under `FNM_PERIOD` a leading period, is matched by nothing but itself.  What counts
as leading depends on the character in front of it, and so the language of a pattern is defined with that character at
hand (`pathLanguage`).  POSIX takes a period behind a slash for a leading one only together with `FNM_PATHNAME`
(`posixLeading`); the code takes it for one in any case.

The star handler stops at a slash before it tries what is behind the stars there, tries that on suffixes as if they
were strings of their own, and passes over a leading period.  None of this shows where `Safe` holds of the pattern,
and there `fnmatch` decides the language (`fnmatch_path`).
-/

namespace JACLibc.Fnmatch

/-! ### The language -/

section

variable (pathname : Prop) (leading : Option UInt8 → List UInt8 → Prop) (same : UInt8 → UInt8 → Prop)

/-- The strings that pieces denote behind a character.  No character of what a star matches but the first one can be a
leading period where slashes are kept apart. -/
def pathLanguage : List Piece → Option UInt8 → Language UInt8
  | [], _ => {w : List UInt8 | w = []}
  | .char x :: ps, _ => {w : List UInt8 | ∃ c t, w = c :: t ∧ same x c ∧ t ∈ pathLanguage ps (some c)}
  | .one :: ps, prev =>
    {w : List UInt8 | ∃ c t, w = c :: t ∧ ¬(pathname ∧ c = asc '/') ∧ ¬leading prev w ∧ t ∈ pathLanguage ps (some c)}
  | .any :: ps, prev =>
    {w : List UInt8 | ∃ a t, w = a ++ t ∧ ¬(pathname ∧ asc '/' ∈ a) ∧ ¬leading prev a ∧
      t ∈ pathLanguage ps (a.getLast?.or prev)}

end

section

variable (flags : BitVec 32)

/-- A leading period of POSIX: at the start of the string, or of a component under `FNM_PATHNAME`. -/
def posixLeading (prev : Option UInt8) (s : List UInt8) : Prop :=
  HasFlag flags FNM_PERIOD ∧ s.head? = some (asc '.') ∧
    (prev = none ∨ (HasFlag flags FNM_PATHNAME ∧ prev = some (asc '/')))

/-- Under `FNM_PATHNAME` the code agrees with POSIX on what is leading. -/
theorem leadingPeriod_iff_posixLeading (h : HasFlag flags FNM_PATHNAME) (prev : Option UInt8) (s : List UInt8) :
    LeadingPeriod flags prev s ↔ posixLeading flags prev s := by
  simp [LeadingPeriod, posixLeading, h]

/-- The language that POSIX gives a pattern. -/
def posixLanguage (p : List UInt8) : Language UInt8 :=
  pathLanguage (HasFlag flags FNM_PATHNAME) (posixLeading flags) (Same flags) (piecesOf flags p) none

/-- The language with the leading periods of the code. -/
def pieceLanguage : List Piece → Option UInt8 → Language UInt8 :=
  pathLanguage (HasFlag flags FNM_PATHNAME) (LeadingPeriod flags) (Same flags)

/-! ### Patterns whose stars are safe -/

/-- A period at the start or behind a slash, in a string behind a character. -/
def hasLeading : Option UInt8 → List UInt8 → Bool
  | _, [] => false
  | prev, c :: s => (c == asc '.' && (prev = none || prev = some (asc '/'))) || hasLeading (some c) s

/-- The piece `y` behind a star: no slash where the star stops at one, and under `FNM_PERIOD` no `?` and, where there
are leading periods, none that the star could be at (`lead`) or skip. -/
def StarOk (dots lead : Bool) (y : Piece) : Prop :=
  (HasFlag flags FNM_PATHNAME → y ≠ .char (asc '/')) ∧
    (HasFlag flags FNM_PERIOD →
      y ≠ .one ∧ lead = false ∧ (dots = true → ¬HasFlag flags FNM_PATHNAME → y ≠ .char (asc '.')))

/-- Every star with something behind it is safe; `dots` says whether the string has leading periods, and `lead`
whether there may be one in front of the pieces. -/
def Safe (dots : Bool) : Bool → List Piece → Prop
  | _, [] => True
  | _, .char c :: ps => Safe dots (dots && c == asc '/') ps
  | _, .one :: ps => Safe dots (dots && !decide (HasFlag flags FNM_PATHNAME)) ps
  | lead, .any :: ps => (∀ y ∈ ps.head?, y ≠ .any → StarOk flags dots lead y) ∧ Safe dots lead ps

end

section

variable {flags : BitVec 32} {dots lead : Bool} {prev : Option UInt8}

/-! ### The language -/

theorem mem_pieceLanguage_one {ps : List Piece} {w : List UInt8} :
    w ∈ pieceLanguage flags (.one :: ps) prev ↔
      ∃ c t, w = c :: t ∧ ¬Slash flags w ∧ ¬LeadingPeriod flags prev w ∧ t ∈ pieceLanguage flags ps (some c) := by
  constructor
  · rintro ⟨c, t, rfl, hslash, hlead, ht⟩
    exact ⟨c, t, rfl, fun h => hslash ⟨h.1, Option.some.inj h.2⟩, hlead, ht⟩
  · rintro ⟨c, t, rfl, hslash, hlead, ht⟩
    exact ⟨c, t, rfl, fun h => hslash ⟨h.1, congrArg some h.2⟩, hlead, ht⟩

theorem mem_pieceLanguage_char {x : UInt8} {ps : List Piece} {w : List UInt8} :
    w ∈ pieceLanguage flags (.char x :: ps) prev ↔ ∃ c t, w = c :: t ∧ Same flags x c ∧
    t ∈ pieceLanguage flags ps (some c) := Iff.rfl

theorem mem_pieceLanguage_any {ps : List Piece} {w : List UInt8} :
    w ∈ pieceLanguage flags (.any :: ps) prev ↔
      ∃ a t, w = a ++ t ∧ ¬(HasFlag flags FNM_PATHNAME ∧ asc '/' ∈ a) ∧ ¬LeadingPeriod flags prev a ∧
        t ∈ pieceLanguage flags ps (a.getLast?.or prev) := Iff.rfl

theorem leadingPeriod_append {a : List UInt8} (ha : a ≠ []) (t : List UInt8) :
    LeadingPeriod flags prev (a ++ t) ↔ LeadingPeriod flags prev a := by
  obtain ⟨c, a, rfl⟩ := List.exists_cons_of_ne_nil ha
  rfl

theorem not_leadingPeriod_nil : ¬LeadingPeriod flags prev [] := fun h => nomatch h.2.1

/-- A star behind a star says nothing. -/
theorem pieceLanguage_any_any {ps : List Piece} :
    pieceLanguage flags (.any :: .any :: ps) prev = pieceLanguage flags (.any :: ps) prev := by
  ext w
  constructor
  · rintro ⟨a, t, rfl, hslash, hlead, b, u, rfl, hslash', hlead', hu⟩
    rw [← List.append_assoc]
    refine ⟨a ++ b, u, rfl, ?_, ?_, ?_⟩
    · rw [List.mem_append, and_or_left]
      exact fun h => h.elim hslash hslash'
    · rcases List.eq_nil_or_concat a with rfl | ha
      · exact hlead'
      · rw [leadingPeriod_append (by rintro rfl; simp at ha)]
        exact hlead
    · rwa [List.getLast?_append, Option.or_assoc]
  · rintro ⟨a, t, rfl, hslash, hlead, ht⟩
    exact ⟨a, t, rfl, hslash, hlead, [], t, rfl, fun h => absurd h.2 List.not_mem_nil, not_leadingPeriod_nil, ht⟩

/-! ### Places without leading periods -/

theorem not_leadingPeriod_of_hasLeading {s : List UInt8} (h : hasLeading prev s = false) :
    ¬LeadingPeriod flags prev s := by
  rintro ⟨-, hhead, hprev⟩
  rcases s with _ | ⟨c, s⟩
  · cases hhead
  · obtain rfl := Option.some.inj hhead
    rcases hprev with rfl | rfl <;> simp [hasLeading] at h

/-- The places behind a character of a string without leading periods. -/
theorem hasLeading_tail {c : UInt8} {t : List UInt8} (h : hasLeading (some c) t = false) :
    hasLeading t.head? t.tail = false := by
  rcases t with _ | ⟨d, t⟩
  · rfl
  · exact (Bool.or_eq_false_iff.1 h).2

theorem hasLeading_append {a t : List UInt8} (h : hasLeading (a ++ t).head? (a ++ t).tail = false) :
    hasLeading t.head? t.tail = false ∧ (a ≠ [] → hasLeading (a.getLast?.or prev) t = false) := by
  induction a with
  | nil => exact ⟨h, fun hne => absurd rfl hne⟩
  | cons c a ih =>
    obtain ⟨ht, hlast⟩ := ih (hasLeading_tail h)
    refine ⟨ht, fun _ => ?_⟩
    rcases a with _ | ⟨d, a⟩
    · exact h
    · rw [List.getLast?_cons_cons]
      exact hlast (List.cons_ne_nil d a)

/-! ### The star handler -/

theorem exists_append_cons {P : List UInt8 → List UInt8 → Prop} {c : UInt8} {s : List UInt8} :
    (∃ a t, c :: s = a ++ t ∧ P a t) ↔ P [] (c :: s) ∨ ∃ a t, s = a ++ t ∧ P (c :: a) t := by
  constructor
  · rintro ⟨_ | ⟨d, a⟩, t, hs, h⟩
    · exact Or.inl (by rwa [← List.nil_append t, ← hs] at h)
    · obtain ⟨rfl, rfl⟩ := List.cons.inj hs
      exact Or.inr ⟨a, t, rfl, h⟩
  · rintro (h | ⟨a, t, rfl, h⟩)
    · exact ⟨[], c :: s, rfl, h⟩
    · exact ⟨c :: a, t, rfl, h⟩

theorem getLast?_cons_or (c : UInt8) (a : List UInt8) : (c :: a).getLast?.or prev = a.getLast?.or (some c) := by
  rcases a with _ | ⟨d, a⟩
  · rfl
  · rw [List.getLast?_cons_cons]
    rcases h : (d :: a).getLast? with _ | e
    · exact absurd (List.getLast?_eq_none_iff.1 h) (List.cons_ne_nil d a)
    · rfl

/-- The star handler finds a suffix, but not the empty one, one behind a slash or at one, or one that begins with a
leading period. -/
theorem starLoop_path (rest : List UInt8 → Bool) (s : List UInt8) :
    starLoop flags rest prev s = true ↔
      ∃ a t, s = a ++ t ∧ t ≠ [] ∧ ¬(HasFlag flags FNM_PATHNAME ∧ asc '/' ∈ a) ∧ ¬Slash flags t ∧
        ¬LeadingPeriod flags (a.getLast?.or prev) t ∧ rest t = true := by
  induction s generalizing prev with
  | nil =>
    refine iff_of_false Bool.false_ne_true ?_
    rintro ⟨a, t, hs, hne, -⟩
    exact hne (List.append_eq_nil_iff.1 hs.symm).2
  | cons c s ih =>
    rw [starLoop, exists_append_cons]
    simp only [getLast?_cons_or, List.getLast?_nil, Option.none_or]
    by_cases hslash : Slash flags (c :: s)
    · rw [if_pos hslash]
      refine iff_of_false Bool.false_ne_true ?_
      rintro (⟨-, -, hno, -⟩ | ⟨a, t, -, -, hno, -⟩)
      · exact hno hslash
      · obtain rfl := Option.some.inj hslash.2
        exact hno ⟨hslash.1, List.mem_cons_self⟩
    rw [if_neg hslash]
    have hmem : ∀ a : List UInt8, (HasFlag flags FNM_PATHNAME ∧ asc '/' ∈ c :: a) ↔
      (HasFlag flags FNM_PATHNAME ∧ asc '/' ∈ a) := by
      intro a
      refine and_congr_right fun hp => ?_
      rw [List.mem_cons, or_iff_right]
      rintro rfl
      exact hslash ⟨hp, rfl⟩
    simp only [hmem, ← ih]
    by_cases hlead : LeadingPeriod flags prev (c :: s)
    · rw [if_pos hlead, or_iff_right]
      rintro ⟨-, -, -, hno, -⟩
      exact hno hlead
    rw [if_neg hlead]
    by_cases hrest : rest (c :: s) = true
    · rw [if_pos hrest]
      exact iff_of_true rfl (Or.inl ⟨List.cons_ne_nil c s, fun h => absurd h.2 List.not_mem_nil, hslash, hlead, hrest⟩)
    · rw [if_neg hrest, or_iff_right]
      rintro ⟨-, -, -, -, h⟩
      exact hrest h

/-- Only a slash or a period is the same as one. -/
theorem Same.eq_of_punct {x c : UInt8} (h : Same flags x c) (hc : c = asc '/' ∨ c = asc '.') : x = c := by
  rcases h with h | ⟨-, h⟩
  · exact h
  · revert h
    rcases hc with rfl | rfl
    · apply forall_byte (c := x)
      decide +kernel
    · apply forall_byte (c := x)
      decide +kernel

/-- The piece behind a safe star does not see the character in front of it. -/
theorem StarOk.mem_iff {y : Piece} (h : StarOk flags dots lead y) (hy : y ≠ .any) {ps : List Piece} {t : List UInt8}
    (prev' : Option UInt8) :
    t ∈ pieceLanguage flags (y :: ps) prev ↔ t ∈ pieceLanguage flags (y :: ps) prev' := by
  rcases y with _ | _ | x
  · exact absurd rfl hy
  · have hno : ∀ prev s, ¬LeadingPeriod flags prev s := fun prev s hl => (h.2 hl.1).1 rfl
    simp only [mem_pieceLanguage_one, hno]
  · exact Iff.rfl

/-- A string that the piece behind a safe star matches is one that the star handler tries. -/
theorem StarOk.tried {y : Piece} (h : StarOk flags dots lead y) (hy : y ≠ .any) {ps : List Piece} {a t : List UInt8}
    (ht : t ∈ pieceLanguage flags (y :: ps) (a.getLast?.or prev)) (ha : ¬(HasFlag flags FNM_PATHNAME ∧ asc '/' ∈ a))
    (hpos : lead = false → ¬LeadingPeriod flags prev (a ++ t))
    (hdots : dots = false → hasLeading (a ++ t).head? (a ++ t).tail = false) :
    t ≠ [] ∧ ¬Slash flags t ∧ ¬LeadingPeriod flags (a.getLast?.or prev) t := by
  rcases y with _ | _ | x
  · exact absurd rfl hy
  · obtain ⟨c, t, rfl, hslash, hlead, -⟩ := mem_pieceLanguage_one.1 ht
    exact ⟨List.cons_ne_nil c t, hslash, hlead⟩
  · obtain ⟨c, t, rfl, hsame, -⟩ := ht
    refine ⟨List.cons_ne_nil c t, ?_, ?_⟩
    · rintro ⟨hp, hc⟩
      obtain rfl := Option.some.inj hc
      exact h.1 hp (congrArg Piece.char (hsame.eq_of_punct (Or.inl rfl)))
    · intro hl
      obtain ⟨-, hlead, hdot⟩ := h.2 hl.1
      have hx : x = asc '.' := by
        obtain rfl := Option.some.inj hl.2.1
        exact hsame.eq_of_punct (Or.inr rfl)
      rcases List.eq_nil_or_concat a with rfl | ⟨b, d, rfl⟩
      · exact hpos hlead hl
      · cases hd : dots with
        | false => exact not_leadingPeriod_of_hasLeading ((hasLeading_append (hdots hd)).2 (by simp)) hl
        | true =>
          -- behind a slash, which the star does not pass
          rcases hl.2.2 with hnone | hslash
          · simp at hnone
          · have hmem : asc '/' ∈ b.concat d := by simpa using Or.inr (by simpa using hslash.symm)
            by_cases hp : HasFlag flags FNM_PATHNAME
            · exact ha ⟨hp, hmem⟩
            · exact hdot hd hp (congrArg Piece.char hx)

/-- The star handler, with a safe piece behind the stars. -/
theorem starLoop_mem {y : Piece} (hok : StarOk flags dots lead y) (hy : y ≠ .any) {ps : List Piece}
    {rest : List UInt8 → Bool} {s : List UInt8}
    (hrest : ∀ a t, s = a ++ t → (rest t = true ↔ t ∈ pieceLanguage flags (y :: ps) none))
    (hpos : lead = false → ¬LeadingPeriod flags prev s) (hdots : dots = false → hasLeading s.head? s.tail = false) :
    starLoop flags rest prev s = true ↔ s ∈ pieceLanguage flags (.any :: y :: ps) prev := by
  rw [starLoop_path, mem_pieceLanguage_any]
  constructor
  · rintro ⟨a, t, rfl, -, hslash, -, -, ht⟩
    refine ⟨a, t, rfl, hslash, ?_, (hok.mem_iff hy none).2 ((hrest a t rfl).1 ht)⟩
    rcases List.eq_nil_or_concat a with rfl | ha
    · exact not_leadingPeriod_nil
    · intro hl
      have hne : a ≠ [] := by
        rintro rfl
        simp at ha
      exact hpos (hok.2 hl.1).2.1 ((leadingPeriod_append hne t).2 hl)
  · rintro ⟨a, t, rfl, hslash, -, ht⟩
    obtain ⟨hne, hslash', hlead⟩ := hok.tried hy ht hslash hpos hdots
    exact ⟨a, t, rfl, hne, hslash, hslash', hlead, (hrest a t rfl).2 ((hok.mem_iff hy none).1 ht)⟩

/-- The stars at the end of a pattern. -/
theorem mem_last_star {s : List UInt8} :
    (if LeadingPeriod flags prev s then false else if HasFlag flags FNM_PATHNAME then decide (asc '/' ∉ s)
    else true) = true ↔
      s ∈ pieceLanguage flags [.any] prev := by
  have hmem : s ∈ pieceLanguage flags [.any] prev ↔ ¬(HasFlag flags FNM_PATHNAME ∧ asc '/' ∈ s) ∧
    ¬LeadingPeriod flags prev s := by
    constructor
    · rintro ⟨a, t, rfl, hslash, hlead, ht⟩
      obtain rfl : t = [] := ht
      rw [List.append_nil]
      exact ⟨hslash, hlead⟩
    · rintro ⟨hslash, hlead⟩
      exact ⟨s, [], (List.append_nil s).symm, hslash, hlead, rfl⟩
  rw [hmem]
  split_ifs with hlead hp
  · simp [hlead]
  · simp [hp, hlead]
  · simp [hp, hlead]

/-! ### The loop -/

/-- The pieces of a pattern behind stars. -/
theorem pieceLanguage_star (escape : Bool) (p : List UInt8) :
    pieceLanguage flags (.any :: pieces escape p) prev =
    pieceLanguage flags (.any :: pieces escape (p.dropWhile (· = asc '*'))) prev := by
  induction p with
  | nil => rfl
  | cons x p ih =>
    by_cases hx : x = asc '*'
    · subst hx
      rw [pieces_cons escape fun h => absurd h.1 (by decide), if_pos rfl, pieceLanguage_any_any, ih,
        List.dropWhile_cons_of_pos (by simp)]
    · rw [List.dropWhile_cons_of_neg (by simpa using hx)]

theorem safe_star (escape : Bool) {p : List UInt8} (h : Safe flags dots lead (.any :: pieces escape p)) :
    Safe flags dots lead (.any :: pieces escape (p.dropWhile (· = asc '*'))) := by
  induction p with
  | nil => exact h
  | cons x p ih =>
    by_cases hx : x = asc '*'
    · subst hx
      rw [pieces_cons escape fun h => absurd h.1 (by decide), if_pos rfl] at h
      rw [List.dropWhile_cons_of_pos (by simp)]
      exact ih h.2
    · rwa [List.dropWhile_cons_of_neg (by simpa using hx)]

/-- What is behind a piece that is no star does not depend on whether the piece may be at a leading period. -/
theorem Safe.of_cons {y : Piece} (hy : y ≠ .any) {ps : List Piece} (h : Safe flags dots lead (y :: ps)) (lead' : Bool) :
    Safe flags dots lead' (y :: ps) := by
  rcases y with _ | _ | x
  · exact absurd rfl hy
  · exact h
  · exact h

/-- The first piece of a pattern. -/
theorem pieces_head (escape : Bool) {x : UInt8} {p : List UInt8} (hx : x ≠ asc '*') :
    ∃ y ps, pieces escape (x :: p) = y :: ps ∧ y ≠ .any := by
  by_cases hq : x = asc '\\' ∧ escape = true ∧ p ≠ []
  · obtain ⟨rfl, he, hp⟩ := hq
    obtain ⟨y, q, rfl⟩ := List.exists_cons_of_ne_nil hp
    exact ⟨.char y, pieces escape q, by rw [pieces, if_pos ⟨rfl, he⟩], by simp⟩
  · rw [pieces_cons escape hq, if_neg hx]
    split
    · exact ⟨.one, _, rfl, by simp⟩
    · exact ⟨.char x, _, rfl, by simp⟩

/-- Where there is no leading period, there is none behind a character that is no slash, or in a string without them. -/
theorem not_leadingPeriod_next {c : UInt8} {t : List UInt8} {b : Bool}
    (hdots : dots = false → hasLeading (some c) t = false) (hb : b = false → c ≠ asc '/') (h : (dots && b) = false) :
    ¬LeadingPeriod flags (some c) t := by
  rcases Bool.and_eq_false_iff.1 h with hd | hb'
  · exact not_leadingPeriod_of_hasLeading (hdots hd)
  · rintro ⟨-, -, hprev⟩
    rcases hprev with hnone | hslash
    · cases hnone
    · exact hb hb' (Option.some.inj hslash)

/-- The matcher accepts the language of its pattern, where the stars are safe. -/
theorem fnmatchLoop_path (p : List UInt8) (h0 : 0 ∉ p) (hbr : asc '[' ∉ p) (lead : Bool) (prev : Option UInt8)
    (s : List UInt8) (hsafe : Safe flags dots lead (piecesOf flags p))
    (hpos : lead = false → ¬LeadingPeriod flags prev s) (hdots : dots = false → hasLeading s.head? s.tail = false) :
    fnmatchLoop flags p prev s = true ↔ s ∈ pieceLanguage flags (piecesOf flags p) prev := by
  induction hk : p.length using Nat.strong_induction_on generalizing p lead prev s with
  | _ k ih =>
    rcases p with _ | ⟨x, p⟩
    · rw [fnmatchLoop, decide_eq_true_iff]
      rfl
    have hlt : p.length < k := by
      rw [← hk]
      exact Nat.lt_succ_self _
    have hrec : ∀ r : List UInt8, r <:+ p → ∀ lead prev s, Safe flags dots lead (piecesOf flags r) →
        (lead = false → ¬LeadingPeriod flags prev s) → (dots = false → hasLeading s.head? s.tail = false) →
        (fnmatchLoop flags r prev s = true ↔ s ∈ pieceLanguage flags (piecesOf flags r) prev) := by
      intro r hr lead prev s hsafe hpos hdots
      refine ih r.length (hr.length_le.trans_lt hlt) r ?_ ?_ lead prev s hsafe hpos hdots rfl
      · exact fun hm => h0 (List.mem_cons_of_mem x (hr.mem hm))
      · exact fun hm => hbr (List.mem_cons_of_mem x (hr.mem hm))
    rw [fnmatchLoop]
    by_cases hmark : x = asc '?'
    · -- one character
      subst hmark
      have hpieces : piecesOf flags (asc '?' :: p) = .one :: piecesOf flags p := by
        rw [piecesOf, pieces_cons _ fun h => absurd h.1 (by decide), if_neg (by decide), if_pos rfl]
      rw [hpieces] at hsafe
      rw [if_pos rfl, hpieces, mem_pieceLanguage_one]
      rcases s with _ | ⟨c, t⟩
      · simp [qmark]
      by_cases hslash : Slash flags (c :: t)
      · simp [qmark, hslash]
      by_cases hlead : LeadingPeriod flags prev (c :: t)
      · simp [qmark, hslash, hlead]
      have hq : qmark flags prev (c :: t) = true := by simp [qmark, hslash, hlead]
      have hnext := hrec p (List.suffix_refl p) _ (some c) t hsafe
        (not_leadingPeriod_next hdots fun hb hc => hslash ⟨by simpa using hb, congrArg some hc⟩) fun hd =>
          hasLeading_tail (hdots hd)
      rw [if_pos hq]
      refine hnext.trans ?_
      simp [hslash, hlead]
    rw [if_neg hmark]
    by_cases hstar : x = asc '*'
    · -- the suffixes, for what follows the stars
      subst hstar
      have hpieces : piecesOf flags (asc '*' :: p) = .any :: piecesOf flags p := by
        rw [piecesOf, pieces_cons _ fun h => absurd h.1 (by decide), if_pos rfl]
      rw [hpieces] at hsafe
      have hsafe := safe_star _ hsafe
      rw [if_pos rfl, hpieces, piecesOf, pieceLanguage_star]
      have hsuffix : p.dropWhile (· = asc '*') <:+ p := List.dropWhile_suffix _
      have hhead : ∀ y q, p.dropWhile (· = asc '*') = y :: q → y ≠ asc '*' := by
        intro y q hr
        have := List.head_dropWhile_not (· = asc '*') (l := p) (by rw [hr]; exact List.cons_ne_nil y q)
        simpa [hr] using this
      generalize p.dropWhile (· = asc '*') = r at hsafe hsuffix hhead
      rcases r with _ | ⟨y, q⟩
      · rw [if_pos rfl]
        exact mem_last_star
      · rw [if_neg (List.cons_ne_nil y q)]
        obtain ⟨Y, ps, hY, hany⟩ := @pieces_head (decide ¬HasFlag flags FNM_NOESCAPE) y q (hhead y q rfl)
        rw [hY] at hsafe ⊢
        refine starLoop_mem (hsafe.1 Y rfl hany) hany ?_ hpos hdots
        rintro a t rfl
        have hnext := hrec (y :: q) hsuffix true none t (by rw [piecesOf, hY]; exact hsafe.2.of_cons hany true)
          (fun h => by cases h)
          fun hd => (@hasLeading_append none a t (hdots hd)).1
        rwa [piecesOf, hY] at hnext
    have hopen : x ≠ asc '[' := by
      rintro rfl
      exact hbr List.mem_cons_self
    rw [if_neg hstar, if_neg hopen]
    -- a character
    obtain ⟨pc, hpc, hpieces, hlit⟩ := @literal_piece flags x p hstar hmark (s.headD 0)
    have hpc0 : pc ≠ 0 := fun hz => h0 (hz ▸ hpc)
    rw [hpieces] at hsafe ⊢
    rw [mem_pieceLanguage_char]
    rcases s with _ | ⟨c, t⟩
    · rw [if_neg fun hl => (hlit.1 hl).ne_zero hpc0 rfl]
      simp
    by_cases hl : (literal flags x p c).1 = true
    · have hsame : Same flags pc c := hlit.1 hl
      have hnext := hrec _ (literal_suffix flags x p c) _ (some c) t hsafe
        (not_leadingPeriod_next hdots fun hb hc => by
          obtain rfl := hsame.eq_of_punct (Or.inl hc)
          exact absurd hc (by simpa using hb))
        fun hd => hasLeading_tail (hdots hd)
      rw [List.headD_cons, if_pos hl]
      refine hnext.trans ?_
      constructor
      · exact fun ht => ⟨c, t, rfl, hsame, ht⟩
      · rintro ⟨c', t', hct, -, ht⟩
        obtain ⟨rfl, rfl⟩ := List.cons.inj hct
        exact ht
    · rw [List.headD_cons, if_neg hl]
      refine iff_of_false Bool.false_ne_true ?_
      rintro ⟨c', t', hct, hsame, -⟩
      obtain ⟨rfl, rfl⟩ := List.cons.inj hct
      exact hl (hlit.2 hsame)

end

theorem pieceLanguage_eq_posix {flags : BitVec 32} (h : HasFlag flags FNM_PATHNAME) (p : List UInt8) :
    pieceLanguage flags (piecesOf flags p) none = posixLanguage flags p := by
  have hleading : LeadingPeriod flags = posixLeading flags := by
    funext prev s
    exact propext (leadingPeriod_iff_posixLeading flags h prev s)
  rw [pieceLanguage, posixLanguage, hleading]

/-- Without brackets and with safe stars, `fnmatch` decides the language of the pattern, which is the one of POSIX under
`FNM_PATHNAME`. -/
theorem fnmatch_path (pattern string : CString) (flags : BitVec 32) (hbr : asc '[' ∉ pattern.bytes)
    (hsafe : Safe flags (hasLeading none string.bytes) (hasLeading none string.bytes) (piecesOf flags pattern.bytes)) :
    (fnmatch pattern string flags = true ↔ string.bytes ∈ pieceLanguage flags (piecesOf flags pattern.bytes) none) ∧
      (HasFlag flags FNM_PATHNAME → (fnmatch pattern string flags = true ↔
      string.bytes ∈ posixLanguage flags pattern.bytes)) := by
  have hdots : hasLeading none string.bytes = false → hasLeading string.bytes.head? string.bytes.tail = false := by
    rcases string.bytes with _ | ⟨c, s⟩
    · exact fun _ => rfl
    · exact fun h => (Bool.or_eq_false_iff.1 h).2
  have hloop := fnmatchLoop_path pattern.bytes pattern.noNul hbr _ none string.bytes hsafe (fun h =>
    not_leadingPeriod_of_hasLeading h) hdots
  refine ⟨hloop, fun hp => ?_⟩
  rw [← pieceLanguage_eq_posix hp]
  exact hloop

/-- `d/*.c` is a safe pattern for a string without leading periods. -/
theorem fnmatch_path_source :
    (fnmatch (CString.of (lit "d/*.c")) (CString.of (lit "d/a.c")) (FNM_PATHNAME ||| FNM_PERIOD) = true ↔
        (CString.of (lit "d/a.c")).bytes ∈
          pieceLanguage (FNM_PATHNAME ||| FNM_PERIOD)
          (piecesOf (FNM_PATHNAME ||| FNM_PERIOD) (CString.of (lit "d/*.c")).bytes) none) ∧
      (HasFlag (FNM_PATHNAME ||| FNM_PERIOD) FNM_PATHNAME →
        (fnmatch (CString.of (lit "d/*.c")) (CString.of (lit "d/a.c")) (FNM_PATHNAME ||| FNM_PERIOD) = true ↔
          (CString.of (lit "d/a.c")).bytes ∈ posixLanguage (FNM_PATHNAME ||| FNM_PERIOD)
          (CString.of (lit "d/*.c")).bytes)) := by
  apply fnmatch_path
  · decide
  · have hpieces : piecesOf (FNM_PATHNAME ||| FNM_PERIOD) (CString.of (lit "d/*.c")).bytes =
        [.char (asc 'd'), .char (asc '/'), .any, .char (asc '.'), .char (asc 'c')] := by decide
    have hdots : hasLeading none (CString.of (lit "d/a.c")).bytes = false := by decide
    rw [hpieces, hdots]
    refine ⟨?_, trivial⟩
    rintro y ⟨⟩ -
    exact ⟨fun _ => by decide, fun _ => ⟨by decide, rfl, fun h => absurd h (by decide)⟩⟩

/-- Without `FNM_PATHNAME` too, `dir/*` does not match `dir/.abc`, where the period is an ordinary character in POSIX.
-/
theorem fnmatch_period_slash :
    fnmatch (CString.of (lit "dir/*")) (CString.of (lit "dir/.abc")) FNM_PERIOD = false ∧
      (CString.of (lit "dir/.abc")).bytes ∈ posixLanguage FNM_PERIOD (CString.of (lit "dir/*")).bytes := by
  refine ⟨by decide +kernel, ?_⟩
  have hpieces : piecesOf FNM_PERIOD (CString.of (lit "dir/*")).bytes =
      [.char (asc 'd'), .char (asc 'i'), .char (asc 'r'), .char (asc '/'), .any] := by decide
  have hpath : ¬HasFlag FNM_PERIOD FNM_PATHNAME := by decide
  rw [posixLanguage, hpieces]
  refine ⟨asc 'd', lit "ir/.abc", rfl, Or.inl rfl, asc 'i', lit "r/.abc", rfl, Or.inl rfl, asc 'r', lit "/.abc", rfl,
    Or.inl rfl, asc '/', lit ".abc", rfl, Or.inl rfl, lit ".abc", [], rfl, fun h => hpath h.1, ?_, rfl⟩
  rintro ⟨-, -, hnone | hslash⟩
  · cases hnone
  · exact hpath hslash.1

-- a star that the code stops at the slash
example : fnmatch (CString.of (lit "*/b")) (CString.of (lit "a/b")) FNM_PATHNAME = false := by decide +kernel

end JACLibc.Fnmatch
