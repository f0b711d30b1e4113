import JACLibc.Transit.RouteScan

/-!
# The reads of `route_scan` and `route_match`

Neither function reads behind a NUL or tests a bit outside the set of a class, but for three things: a range whose
last character is the NUL of the pattern, a character from 128 on that is stored or counted, being negative as a
`char`, and an escape at the end of the pattern that meets the end of the path, the two NULs being the same character
(`route_bounds`).  All loops come to an end.
-/

namespace JACLibc.Route

/-- No read behind a NUL, no bit outside the set, and an end. -/
def InBounds {α : Type} (r : Except Fault α) : Prop := r ≠ .error .read ∧ r ≠ .error .index ∧ r ≠ .error .turns

/-- A string in memory from a pointer on. -/
def Terminated (p : List UInt8) : Prop := ∃ s, 0 ∉ s ∧ p = s ++ [0]

/-! ### When a scan is in bounds -/

/-- `int neg = (*p == '^');` -/
def negated (q : List UInt8) : Bool := q.head? = some (asc '^')

/-- The class behind the bracket and the caret. -/
def classText (q : List UInt8) : List UInt8 := if negated q then q.tail else q

def classBody (q : List UInt8) : List UInt8 := (classText q).takeWhile fun c => ¬Stops c

def classRest (q : List UInt8) : List UInt8 := (classText q).dropWhile fun c => ¬Stops c

/-- Where the class takes all characters in front of one from 128 on, the upper bound stops the count in front of it. -/
def CountOk (taken : UInt8 → Bool) (max m : Int) (h : List UInt8) : Prop :=
  ∀ a b t, h = a ++ b :: t → charVal b < 0 → (∀ c ∈ a, taken c) → a ≠ [] ∧ max ≤ m + a.length

/-- The class behind a bracket, and the path where it is counted. -/
structure ScanOk (ovf : Int → Option Int) (h q : List UInt8) : Prop where
  /-- The last character of a range is not the NUL. -/
  whole : classRest q = [0] → cutOff (classBody q) = false
  /-- A range that is not empty has no characters from 128 on. -/
  indexes : ∀ i ∈ items (classBody q), i.Indexes
  count : ∀ r min max, classRest q = asc ']' :: r → scanBounds ovf r = .ok (some (min, max)) →
    CountOk (takes (negated q) (items (classBody q))) max 0 h

/-! ### When a match is in bounds -/

/-- What a pattern is made of. -/
inductive Piece
  /-- A character, escaped or not; it is the NUL for an escape at the end. -/
  | same (c : UInt8)
  | segment
  | rest
  /-- A class behind a wildcard, from behind the bracket on. -/
  | cls (q : List UInt8)

/-- The pattern behind a class and its braces. -/
def classEnd (q : List UInt8) : List UInt8 :=
  let r := (classRest q).tail
  if r.head? = some (asc '{') then (r.dropWhile (· ≠ asc '}')).tail else r

theorem classEnd_length (q : List UInt8) : (classEnd q).length ≤ q.length := by
  have hclass : (classText q).length ≤ q.length := by
    unfold classText
    split
    · rw [List.length_tail]
      omega
    · exact Nat.le_refl _
  have hrest : (classRest q).length ≤ (classText q).length := List.length_dropWhile_le _ _
  have hbrace := List.length_dropWhile_le (· ≠ asc '}') (classRest q).tail
  simp only [classEnd]
  rw [List.length_tail] at hbrace
  split
  · rw [List.length_tail]
    omega
  · rw [List.length_tail]
    omega

/-- The pieces of a pattern; `cls` where a class may follow a wildcard or another class. -/
def pieces (spec : Spec) (cls : Bool) (p : List UInt8) : List Piece :=
  match p with
  | [] => []
  | c :: q =>
    if cls then
      if c = asc '[' then .cls q :: pieces spec true (classEnd q) else pieces spec false (c :: q)
    else if c = 0 then []
    else if c = spec.any then
      if q.head? = some (asc '[') then pieces spec true q
      else if q.head? = some spec.any ∧ q.tail.head? = some 0 then [.rest]
      else .segment :: pieces spec false q
    else if c = spec.esc then
      match q with
      | [] => []
      | d :: r => .same d :: pieces spec false r
    else .same c :: pieces spec false q
termination_by 2 * p.length + if cls then 1 else 0
decreasing_by
  · have := classEnd_length q
    simp_all only [List.length_cons, if_true]
    omega
  all_goals
    simp_all only [List.length_cons, Bool.not_eq_true, if_true, if_false, Bool.false_eq_true]
    omega

/-- The longest front that the class takes, up to the bound, but one character whatever the bound. -/
structure Counted (taken : UInt8 → Bool) (max : Int) (a b : List UInt8) : Prop where
  all : ∀ c ∈ a, c ≠ 0 ∧ taken c
  most : (a.length : Int) ≤ Max.max 1 max
  stop : (a.length : Int) < Max.max 1 max → ∃ c t, b = c :: t ∧ (c = 0 ∨ taken c = false)

/-- What a piece takes of the path: `a`, where `b` is left. -/
def Piece.Takes (ovf : Int → Option Int) (spec : Spec) (a b : List UInt8) : Piece → Prop
  | same c => a = [c]
  | segment => (∀ x ∈ a, x ≠ 0 ∧ x ≠ spec.div) ∧ ∃ c t, b = c :: t ∧ (c = 0 ∨ c = spec.div)
  | rest => 0 ∉ a ∧ b = [0]
  | cls q => ∃ r min max, classRest q = asc ']' :: r ∧ scanBounds ovf r = .ok (some (min, max)) ∧ min ≤ a.length ∧
      Counted (takes (negated q) (items (classBody q))) max a b

/-- Pieces take `a`, one after another, where `b` is left. -/
def Leads (ovf : Int → Option Int) (spec : Spec) : List Piece → List UInt8 → List UInt8 → Prop
  | [], a, _ => a = []
  | pc :: pcs, a, b => ∃ a₁ a₂, a = a₁ ++ a₂ ∧ pc.Takes ovf spec a₁ (a₂ ++ b) ∧ Leads ovf spec pcs a₂ b

/-- What a piece asks of the path: a class is in order, and there is no escape at the end in front of the NUL. -/
def Piece.Ok (ovf : Int → Option Int) (h : List UInt8) : Piece → Prop
  | same c => c = 0 → h ≠ [0]
  | segment => True
  | rest => True
  | cls q => ScanOk ovf h q

/-- Each piece finds what it asks for where the pieces in front of it lead to. -/
def MatchOk (ovf : Int → Option Int) (spec : Spec) (pcs : List Piece) (h : List UInt8) : Prop :=
  ∀ pre pc post, pcs = pre ++ pc :: post → ∀ a b, h = a ++ b → Leads ovf spec pre a b → pc.Ok ovf b

section Strings

theorem terminated_nul : Terminated [0] := ⟨[], by simp, rfl⟩

theorem Terminated.cons {c : UInt8} {p : List UInt8} (hc : c ≠ 0) (hp : Terminated p) : Terminated (c :: p) := by
  obtain ⟨s, hs, rfl⟩ := hp
  exact ⟨c :: s, by simp [hs, Ne.symm hc], rfl⟩

theorem Terminated.cases {p : List UInt8} (hp : Terminated p) : p = [0] ∨ ∃ c q, p = c :: q ∧ c ≠ 0 ∧ Terminated q := by
  obtain ⟨s, hs, rfl⟩ := hp
  cases s with
  | nil => exact .inl rfl
  | cons c s =>
    simp only [List.mem_cons, not_or] at hs
    exact .inr ⟨c, s ++ [0], rfl, Ne.symm hs.1, s, hs.2, rfl⟩

theorem Terminated.tail {c : UInt8} {q : List UInt8} (hp : Terminated (c :: q)) (hc : c ≠ 0) : Terminated q := by
  rcases hp.cases with h | ⟨c', q', h, -, hq⟩
  · exact absurd (List.cons.inj h).1 hc
  · obtain ⟨-, rfl⟩ := List.cons.inj h
    exact hq

theorem Terminated.nul {q : List UInt8} (hp : Terminated (0 :: q)) : q = [] := by
  rcases hp.cases with h | ⟨c', q', h, hc, -⟩
  · exact (List.cons.inj h).2
  · exact absurd (List.cons.inj h).1.symm hc

theorem Terminated.of_append {a b : List UInt8} (h : Terminated (a ++ b)) (ha : ∀ c ∈ a, c ≠ 0) : Terminated b := by
  induction a with
  | nil => exact h
  | cons c a ih => exact ih (h.tail (ha c List.mem_cons_self)) fun x hx => ha x (List.mem_cons_of_mem _ hx)

/-- The class ends with a bracket or the NUL. -/
theorem Terminated.split {p : List UInt8} (hp : Terminated p) : ∃ c r, p.dropWhile (fun c => ¬Stops c) = c :: r ∧
    Stops c ∧ Terminated (c :: r) := by
  obtain ⟨s, hs, rfl⟩ := hp
  induction s with
  | nil => exact ⟨0, [], rfl, .inl rfl, terminated_nul⟩
  | cons x s ih =>
    simp only [List.mem_cons, not_or] at hs
    by_cases hx : Stops x
    · refine ⟨x, s ++ [0], ?_, hx, Terminated.cons (Ne.symm hs.1) ⟨s, hs.2, rfl⟩⟩
      rw [List.cons_append, List.dropWhile_cons, if_neg fun h => absurd hx (of_decide_eq_true h)]
    · obtain ⟨c, r, h⟩ := ih hs.2
      refine ⟨c, r, ?_, h.2⟩
      rw [List.cons_append, List.dropWhile_cons, if_pos (decide_eq_true hx)]
      exact h.1

end Strings

/-! ### The class -/

section Scan

/-- What is not in bounds here. -/
def Faulty {α : Type} (r : Except Fault α) : Prop := r = .error .read ∨ r = .error .index

theorem Faulty.not_inBounds {α : Type} {r : Except Fault α} (h : Faulty r) : ¬InBounds r := by
  rintro ⟨hread, hindex, -⟩
  exact h.elim hread hindex

theorem Faulty.bind {α β : Type} {r : Except Fault α} (h : Faulty r) (f : α → Except Fault β) : Faulty (r >>= f) := by
  rcases h with rfl | rfl
  · exact .inl rfl
  · exact .inr rfl

theorem inBounds_ok {α : Type} (a : α) : InBounds (.ok a : Except Fault α) := ⟨by simp, by simp, by simp⟩

theorem inBounds_overflow {α : Type} : InBounds (.error .overflow : Except Fault α) := ⟨by simp, by simp, by simp⟩

variable {neg : Bool} {cset : CSet}

theorem markRange_faulty {lo hi : UInt8} (h : ¬(Item.range lo hi).Indexes) :
    Faulty (markRange neg (charVal hi - charVal lo + 1).toNat (charVal lo) cset) := by
  simp only [Item.Indexes, not_forall] at h
  obtain ⟨hle, hlo⟩ := h
  obtain ⟨n, hn⟩ : ∃ n, (charVal hi - charVal lo + 1).toNat = n + 1 := ⟨(charVal hi - charVal lo).toNat, by omega⟩
  rw [hn, markRange, mark, if_neg (by omega)]
  exact .inr rfl

/-- A range that is cut off runs over the NUL, and one with negative characters out of the set. -/
theorem scanClass_faulty {c : UInt8} (hc : Stops c) (body r : List UInt8) (hr : c = 0 → r = [])
    (hbody : ∀ x ∈ body, ¬Stops x) (h : (c = 0 ∧ cutOff body = true) ∨ ∃ i ∈ items body, ¬i.Indexes) :
    Faulty (scanClass neg (body ++ c :: r) cset) := by
  induction body using items.induct generalizing cset with
  | case1 => simp [cutOff, items] at h
  | case2 x => simp [cutOff, items, Item.Indexes] at h
  | case3 x d =>
    obtain ⟨rfl, hd⟩ := h.resolve_right (by simp [items, Item.Indexes])
    obtain rfl : d = asc '-' := by simpa [cutOff] using hd
    obtain rfl := hr rfl
    rw [List.cons_append, List.cons_append, List.nil_append, scanClass, if_neg (hbody x (by simp)),
      if_pos ⟨rfl, by decide⟩]
    by_cases hx : (Item.range x 0).Indexes
    · have hcount : (charVal 0 - charVal x + 1).toNat = 0 := by
        have h0 : charVal 0 = 0 := by decide
        have hne : charVal x ≠ 0 := fun h => hbody x (by simp) (.inl (charVal_injective (h.trans h0.symm)))
        have : charVal x ≤ charVal 0 → 0 ≤ charVal x := hx
        omega
      rw [hcount, markRange, ok_bind]
      exact .inl rfl
    · exact (markRange_faulty hx).bind _
  | case4 x e body ih =>
    rw [cutOff, if_pos rfl, items, if_pos rfl] at h
    have hx := hbody x (by simp)
    have he : e ≠ asc ']' := fun h => hbody e (by simp) (.inr h)
    by_cases hi : (Item.range x e).Indexes
    · rw [List.cons_append, List.cons_append, List.cons_append, scanClass_range hx he hi]
      refine ih (fun y hy => hbody y (by simp [hy])) (h.imp_right ?_)
      rintro ⟨i, hmem, hbad⟩
      rcases List.mem_cons.1 hmem with rfl | hmem
      · exact absurd hi hbad
      · exact ⟨i, hmem, hbad⟩
    · rw [List.cons_append, List.cons_append, List.cons_append, scanClass, if_neg hx, if_pos ⟨rfl, he⟩]
      exact (markRange_faulty hi).bind _
  | case5 x d e body hd ih =>
    rw [cutOff, if_neg hd, items, if_neg hd] at h
    rw [List.cons_append, List.cons_append, scanClass_char (hbody x (by simp)) (.inl hd), ← List.cons_append]
    refine ih (fun y hy => hbody y (List.mem_cons_of_mem _ hy)) (h.imp_right ?_)
    rintro ⟨i, hmem, hbad⟩
    rcases List.mem_cons.1 hmem with rfl | hmem
    · exact absurd trivial hbad
    · exact ⟨i, hmem, hbad⟩

/-! ### The count -/

theorem countOk_nul (taken : UInt8 → Bool) (max m : Int) : CountOk taken max m [0] := by
  intro a b t h hb
  cases a with
  | nil =>
    obtain ⟨rfl, -⟩ := List.cons.inj h
    exact absurd hb (by decide)
  | cons x a => simp at h

theorem countRun_inBounds {h : List UInt8} (hh : Terminated h) (max m : Int) :
    InBounds (countRun cset max h m) ↔ CountOk (fun c => cset.getLsbD c.toNat) max m h := by
  obtain ⟨s, hs, rfl⟩ := hh
  induction s generalizing m with
  | nil =>
    rw [List.nil_append, countRun, if_pos rfl]
    exact iff_of_true (inBounds_ok m) (countOk_nul _ max m)
  | cons c s ih =>
    simp only [List.mem_cons, not_or] at hs
    rw [List.cons_append, countRun, if_neg (Ne.symm hs.1)]
    by_cases hc : charVal c < 0
    · rw [if_pos hc]
      refine iff_of_false (fun h => h.2.1 rfl) fun h => ?_
      exact (h [] c (s ++ [0]) rfl hc (by simp)).1 rfl
    rw [if_neg hc]
    by_cases hhit : cset.getLsbD c.toNat
    · rw [if_pos hhit]
      by_cases hmax : m + 1 ≥ max
      · rw [if_pos hmax]
        refine iff_of_true (inBounds_ok _) fun a b t h hb ha => ?_
        cases a with
        | nil => exact absurd ((List.cons.inj h).1 ▸ hb) hc
        | cons x a => exact ⟨by simp, by rw [List.length_cons]; omega⟩
      · rw [if_neg hmax, ih (m + 1) hs.2]
        constructor
        · intro hok a b t h hb ha
          cases a with
          | nil => exact absurd ((List.cons.inj h).1 ▸ hb) hc
          | cons x a =>
            have := (hok a b t (List.cons.inj h).2 hb fun y hy => ha y (List.mem_cons_of_mem _ hy)).2
            exact ⟨by simp, by rw [List.length_cons]; omega⟩
        · intro hok a b t h hb ha
          have := (hok (c :: a) b t (congrArg (c :: ·) h) hb fun y hy => by
            rcases List.mem_cons.1 hy with rfl | hy
            · exact hhit
            · exact ha y hy).2
          rw [List.length_cons] at this
          refine ⟨?_, by omega⟩
          rintro rfl
          rw [List.length_nil] at this
          omega
    · rw [if_neg hhit]
      refine iff_of_true (inBounds_ok m) fun a b t h hb ha => ?_
      cases a with
      | nil => exact absurd ((List.cons.inj h).1 ▸ hb) hc
      | cons x a => exact absurd ((List.cons.inj h).1 ▸ ha x List.mem_cons_self) hhit

theorem Counted.cons {taken : UInt8 → Bool} {max : Int} {c : UInt8} {a b : List UInt8} (hc : c ≠ 0 ∧ taken c)
    (hmax : 1 < max) (h : Counted taken (max - 1) a b) : Counted taken max (c :: a) b := by
  refine ⟨fun x hx => ?_, ?_, fun hlt => h.stop ?_⟩
  · rcases List.mem_cons.1 hx with rfl | hx
    · exact hc
    · exact h.all x hx
  · have := h.most
    rw [List.length_cons]
    omega
  · rw [List.length_cons] at hlt
    omega

/-- What is counted is the longest front. -/
theorem countRun_counted {h : List UInt8} {max m n : Int} (hrun : countRun cset max h m = .ok n) :
    ∃ a b, h = a ++ b ∧ Counted (fun c => cset.getLsbD c.toNat) (max - m) a b ∧ n = m + a.length := by
  induction h generalizing m with
  | nil => cases hrun
  | cons c s ih =>
    have hnone : (c = 0 ∨ cset.getLsbD c.toNat = false) → countRun cset max (c :: s) m = .ok m →
        ∃ a b, c :: s = a ++ b ∧ Counted (fun c => cset.getLsbD c.toNat) (max - m) a b ∧ m = m + a.length := by
      intro hc _
      exact ⟨[], c :: s, rfl, ⟨by simp, by rw [List.length_nil]; omega, fun _ => ⟨c, s, rfl, hc⟩⟩, by simp⟩
    rw [countRun] at hrun
    by_cases h0 : c = 0
    · rw [if_pos h0] at hrun
      cases hrun
      exact hnone (.inl h0) (by rw [countRun, if_pos h0])
    rw [if_neg h0] at hrun
    by_cases hneg : charVal c < 0
    · rw [if_pos hneg] at hrun
      cases hrun
    rw [if_neg hneg] at hrun
    by_cases hhit : cset.getLsbD c.toNat
    · rw [if_pos hhit] at hrun
      by_cases hmax : m + 1 ≥ max
      · rw [if_pos hmax] at hrun
        cases hrun
        refine ⟨[c], s, rfl, ⟨fun x hx => ?_, ?_, fun hlt => ?_⟩, rfl⟩
        · rw [List.mem_singleton.1 hx]
          exact ⟨h0, hhit⟩
        · rw [List.length_singleton]
          omega
        · rw [List.length_singleton] at hlt
          omega
      · rw [if_neg hmax] at hrun
        obtain ⟨a, b, rfl, hcount, rfl⟩ := ih hrun
        rw [show max - (m + 1) = max - m - 1 by omega] at hcount
        refine ⟨c :: a, b, rfl, hcount.cons ⟨h0, hhit⟩ (by omega), ?_⟩
        rw [List.length_cons]
        omega
    · rw [if_neg hhit] at hrun
      cases hrun
      exact hnone (.inr (by simpa using hhit)) (by rw [countRun, if_neg h0, if_neg hneg, if_neg hhit])

/-- A front of characters that `P` holds of ends where it does not. -/
theorem length_le_of_stop {P : UInt8 → Prop} {a b a' b' : List UInt8} (hb : ∃ c t, b = c :: t ∧ ¬P c)
    (ha : ∀ x ∈ a', P x) (happ : a ++ b = a' ++ b') : a'.length ≤ a.length := by
  obtain ⟨c, t, rfl, hc⟩ := hb
  by_contra hlt
  have hget : (a ++ c :: t)[a.length]? = some c := by simp
  rw [happ, List.getElem?_append_left (Nat.not_le.1 hlt)] at hget
  exact hc (ha c (List.mem_of_getElem? hget))

theorem Counted.le {taken : UInt8 → Bool} {max : Int} {a b a' b' : List UInt8} (h : Counted taken max a b)
    (h' : Counted taken max a' b') (happ : a ++ b = a' ++ b') : a'.length ≤ a.length := by
  by_contra hlt
  have hmost := h'.most
  obtain ⟨c, t, hb, hc⟩ := h.stop (by omega)
  refine hlt (length_le_of_stop ⟨c, t, hb, fun hP => ?_⟩ h'.all happ)
  rcases hc with hc | hc
  · exact hP.1 hc
  · rw [hP.2] at hc
    cases hc

theorem Counted.unique {taken : UInt8 → Bool} {max : Int} {a b a' b' : List UInt8} (h : Counted taken max a b)
    (h' : Counted taken max a' b') (happ : a ++ b = a' ++ b') : a = a' ∧ b = b' :=
  List.append_inj happ (Nat.le_antisymm (h'.le h happ.symm) (h.le h' happ))

theorem countRun_ne_overflow (max : Int) (h : List UInt8) (m : Int) : countRun cset max h m ≠ .error .overflow := by
  induction h generalizing m with
  | nil => simp [countRun]
  | cons c s ih =>
    rw [countRun]
    split_ifs <;> first | exact ih _ | simp

/-! ### The bounds -/

variable {ovf : Int → Option Int}

/-- A number is read up to what stands behind it. -/
theorem readBound_cases (val : Int) {p : List UInt8} (hp : Terminated p) : readBound ovf val p = .error .overflow ∨
    ∃ v u p', readBound ovf val p = .ok (v, p') ∧ p = u ++ p' ∧ Terminated p' := by
  obtain ⟨s, hs, rfl⟩ := hp
  induction s generalizing val with
  | nil => exact .inr ⟨val, [], [0], rfl, rfl, terminated_nul⟩
  | cons c s ih =>
    simp only [List.mem_cons, not_or] at hs
    rw [List.cons_append, readBound]
    by_cases hc : asc '0' ≤ c ∧ c ≤ asc '9'
    · rw [if_pos hc]
      cases hcheck : checked ovf (val * 10 + (c.toNat - 48)) with
      | error e =>
        left
        unfold checked at hcheck
        split at hcheck
        · cases hcheck
        · split at hcheck <;> cases hcheck
          rfl
      | ok val' =>
        refine (ih val' hs.2).imp_right ?_
        rintro ⟨v, u, p', hread, happ, hterm⟩
        exact ⟨v, c :: u, p', hread, by rw [happ]; rfl, hterm⟩
    · rw [if_neg hc]
      exact .inr ⟨val, [], c :: (s ++ [0]), rfl, rfl, Terminated.cons (Ne.symm hs.1) ⟨s, hs.2, rfl⟩⟩

theorem Terminated.read {p : List UInt8} (hp : Terminated p) : ∃ c q, p = c :: q ∧ Route.read p = .ok c := by
  rcases hp.cases with rfl | ⟨c, q, rfl, -, -⟩
  · exact ⟨0, [], rfl, rfl⟩
  · exact ⟨c, q, rfl, rfl⟩

theorem closeBounds_cases (min max : Int) {p : List UInt8} (hp : Terminated p) :
    closeBounds min max p = .ok none ∨ closeBounds min max p = .ok (some (min, max)) ∧ asc '}' ∈ p := by
  obtain ⟨c, q, rfl, -⟩ := hp.read
  rw [closeBounds, read_cons, ok_bind]
  by_cases hc : c = asc '}'
  · rw [if_pos hc]
    exact .inr ⟨rfl, hc ▸ List.mem_cons_self⟩
  · rw [if_neg hc]
    exact .inl rfl

/-- The bounds are in bounds, and a brace that is read has its end. -/
theorem scanBounds_cases {p : List UInt8} (hp : Terminated p) : scanBounds ovf p = .error .overflow ∨
    scanBounds ovf p = .ok none ∨ ∃ b, scanBounds ovf p = .ok (some b) ∧ (p.head? = some (asc '{') → asc '}' ∈ p) := by
  obtain ⟨c, q, rfl, -⟩ := hp.read
  rw [scanBounds]
  by_cases hc : c = asc '{'
  · rw [if_pos hc]
    rcases readBound_cases 0 (hp.tail (by rw [hc]; decide)) with hread | ⟨min, u, p', hread, rfl, hp'⟩
    · rw [hread]
      exact .inl rfl
    rw [hread, ok_bind]
    obtain ⟨d, q', rfl, -⟩ := hp'.read
    simp only [read_cons, ok_bind, List.tail_cons]
    by_cases hd : d = asc ','
    · rw [if_pos hd]
      rcases readBound_cases 0 (hp'.tail (by rw [hd]; decide)) with hread | ⟨max, u', p', hread, rfl, hp''⟩
      · rw [hread]
        exact .inl rfl
      rw [hread, ok_bind]
      refine .inr ((closeBounds_cases min max hp'').imp_right fun h => ⟨_, h.1, fun _ => ?_⟩)
      simp [h.2]
    · rw [if_neg hd]
      refine .inr ((closeBounds_cases min min hp').imp_right fun h => ⟨_, h.1, fun _ => ?_⟩)
      exact List.mem_cons_of_mem _ (List.mem_append_right _ h.2)
  · rw [if_neg hc]
    exact .inr (.inr ⟨_, rfl, fun h => absurd (Option.some.inj h) hc⟩)

/-! ### The scan -/

theorem inBounds_map {α β : Type} (x : Except Fault α) (f : α → β) : InBounds (x >>= fun a => pure (f a)) ↔
    InBounds x := by
  cases x with
  | ok a => exact iff_of_true (inBounds_ok _) (inBounds_ok _)
  | error e => simp [InBounds]

variable {h q : List UInt8}

theorem routeScan_bracket (h : List UInt8) (hq : Terminated q) : routeScan ovf h (asc '[' :: q) = do
    let (p, cset) ← scanClass (negated q) (classText q) (if negated q then BitVec.allOnes 256 else 0)
    if (← read p) ≠ asc ']' then return -1
    match ← scanBounds ovf p.tail with
    | none => return -1
    | some (min, max) =>
      let m ← countRun cset max h 0
      return if m < min then -1 else m := by
  obtain ⟨c, q', rfl, -⟩ := hq.read
  have hneg : negated (c :: q') = decide (c = asc '^') := by simp [negated]
  rw [classText, hneg]
  rfl

theorem classText_terminated (hq : Terminated q) : Terminated (classText q) := by
  unfold classText
  split
  · next hneg =>
    obtain ⟨c, q', rfl, -⟩ := hq.read
    have hc : c = asc '^' := by simpa [negated] using hneg
    exact hq.tail (by rw [hc]; decide)
  · exact hq

theorem classBody_plain : ∀ x ∈ classBody q, ¬Stops x := by
  intro x hx
  have := List.mem_takeWhile_imp hx
  simpa using this

theorem classText_split (hq : Terminated q) :
    ∃ c r, classRest q = c :: r ∧ classText q = classBody q ++ c :: r ∧ Stops c ∧ Terminated (c :: r) := by
  obtain ⟨c, r, hrest, hc, hterm⟩ := (classText_terminated hq).split
  refine ⟨c, r, hrest, ?_, hc, hterm⟩
  rw [← hrest]
  exact List.takeWhile_append_dropWhile.symm

/-- The class of a scan in bounds. -/
theorem ScanOk.scanClass (hq : Terminated q) (hok : ScanOk ovf h q) :
    scanClass (negated q) (classText q) (if negated q then BitVec.allOnes 256 else 0) =
      .ok (classRest q, bits (negated q) (items (classBody q))) := by
  obtain ⟨c, r, hrest, htext, hc, hterm⟩ := classText_split hq
  rw [htext, hrest]
  refine scanClass_items hc _ _ classBody_plain (fun h0 => hok.whole ?_) hok.indexes
  subst h0
  rw [hrest, hterm.nul]

/-- A scan is in bounds where the class and the path are in order, and only there. -/
theorem routeScan_inBounds (hh : Terminated h) (hq : Terminated q) :
    InBounds (routeScan ovf h (asc '[' :: q)) ↔ ScanOk ovf h q := by
  obtain ⟨c, r, hrest, htext, hc, hterm⟩ := classText_split hq
  rw [routeScan_bracket h hq]
  by_cases hclass : (c = 0 → cutOff (classBody q) = false) ∧ ∀ i ∈ items (classBody q), i.Indexes
  · rw [htext, scanClass_items hc _ _ classBody_plain hclass.1 hclass.2, ok_bind]
    have htaken : (fun c : UInt8 => (bits (negated q) (items (classBody q))).getLsbD c.toNat) =
      takes (negated q) (items (classBody q)) :=
      funext (bits_getLsbD hclass.2)
    have hiff : ∀ P : Prop, ((∀ r' min max, classRest q = asc ']' :: r' → scanBounds ovf r' = .ok (some (min, max)) →
        CountOk (takes (negated q) (items (classBody q))) max 0 h) ↔ P) → (P ↔ ScanOk ovf h q) := by
      intro P hP
      constructor
      · intro hp
        refine ⟨fun h0 => hclass.1 ?_, hclass.2, hP.2 hp⟩
        rw [hrest] at h0
        exact (List.cons.inj h0).1
      · exact fun hok => hP.1 hok.count
    simp only [read_cons, ok_bind, List.tail_cons]
    by_cases hbracket : c = asc ']'
    · subst hbracket
      rw [if_neg (by simp)]
      rcases scanBounds_cases (hterm.tail (by decide)) with hb | hb | ⟨⟨min, max⟩, hb, -⟩
      · rw [hb]
        refine (hiff _ ⟨fun _ => ?_, fun _ r' min max hr' hb' => ?_⟩)
        · exact inBounds_overflow
        · rw [hrest] at hr'
          rw [← (List.cons.inj hr').2, hb] at hb'
          cases hb'
      · rw [hb]
        refine (hiff _ ⟨fun _ => ?_, fun _ r' min max hr' hb' => ?_⟩)
        · exact inBounds_ok _
        · rw [hrest] at hr'
          rw [← (List.cons.inj hr').2, hb] at hb'
          cases hb'
      · rw [hb, ok_bind]
        refine hiff _ ?_
        refine Iff.trans ?_ ((inBounds_map _ _).trans (countRun_inBounds hh max 0)).symm
        change _ ↔ CountOk (fun c : UInt8 => (bits (negated q) (items (classBody q))).getLsbD c.toNat) max 0 h
        rw [htaken]
        constructor
        · exact fun hall => hall r min max hrest hb
        · intro hcount r' min' max' hr' hb'
          rw [hrest] at hr'
          rw [← (List.cons.inj hr').2, hb] at hb'
          cases hb'
          exact hcount
    · rw [if_pos hbracket]
      refine hiff _ ⟨fun _ => inBounds_ok _, fun _ r' min max hr' _ => ?_⟩
      rw [hrest] at hr'
      exact absurd (List.cons.inj hr').1 hbracket
  · have hfault : Faulty (Route.scanClass (negated q) (classText q) (if negated q then BitVec.allOnes 256 else 0)) := by
      rw [htext]
      refine scanClass_faulty hc _ _ (fun h0 => (h0 ▸ hterm).nul) classBody_plain ?_
      by_cases hcut : c = 0 → cutOff (classBody q) = false
      · right
        simpa using fun h => hclass ⟨hcut, h⟩
      · left
        simpa using hcut
    refine iff_of_false (hfault.bind _).not_inBounds fun hok => hclass ⟨fun h0 => hok.whole ?_, hok.indexes⟩
    subst h0
    rw [hrest, hterm.nul]

/-- A scan in bounds answers how much the class takes, and -1 where it cannot take what it asks for. -/
theorem routeScan_takes (spec : Spec) (hh : Terminated h) (hq : Terminated q) (hok : ScanOk ovf h q) :
    (∀ n, routeScan ovf h (asc '[' :: q) = .ok n → n = -1) ∧ (∀ a b, h = a ++ b → ¬(Piece.cls q).Takes ovf spec a b) ∨
    ∃ a b, h = a ++ b ∧ (Piece.cls q).Takes ovf spec a b ∧ routeScan ovf h (asc '[' :: q) = .ok (a.length : Int) ∧
      (∀ a' b', h = a' ++ b' → (Piece.cls q).Takes ovf spec a' b' → b' = b) ∧ Terminated b := by
  obtain ⟨c, r, hrest, -, hc, hterm⟩ := classText_split hq
  have htaken : (fun c : UInt8 => (bits (negated q) (items (classBody q))).getLsbD c.toNat) =
    takes (negated q) (items (classBody q)) :=
    funext (bits_getLsbD hok.indexes)
  have hscan : routeScan ovf h (asc '[' :: q) = _ := routeScan_bracket h hq
  rw [hok.scanClass hq, hrest] at hscan
  simp only [read_cons, ok_bind, List.tail_cons] at hscan
  have htakes : ∀ a b, (Piece.cls q).Takes ovf spec a b → c = asc ']' ∧ ∃ min max,
    scanBounds ovf r = .ok (some (min, max)) ∧
      min ≤ a.length ∧ Counted (takes (negated q) (items (classBody q))) max a b := by
    rintro a b ⟨r', min, max, hrest', hb, hmin, hcount⟩
    obtain ⟨rfl, rfl⟩ := List.cons.inj (hrest.symm.trans hrest')
    exact ⟨rfl, min, max, hb, hmin, hcount⟩
  by_cases hbracket : c = asc ']'
  · rw [if_neg (not_not.2 hbracket)] at hscan
    rcases scanBounds_cases (hterm.tail (by rw [hbracket]; decide)) with hb | hb | ⟨⟨min, max⟩, hb, -⟩
    · refine .inl ⟨fun n hn => ?_, fun a b _ ht => ?_⟩
      · rw [hscan, hb] at hn
        cases hn
      · obtain ⟨-, min, max, hb', -⟩ := htakes a b ht
        rw [hb] at hb'
        cases hb'
    · refine .inl ⟨fun n hn => ?_, fun a b _ ht => ?_⟩
      · rw [hscan, hb] at hn
        cases hn
        rfl
      · obtain ⟨-, min, max, hb', -⟩ := htakes a b ht
        rw [hb] at hb'
        cases hb'
    · have hin : InBounds (countRun (bits (negated q) (items (classBody q))) max h 0) := by
        rw [countRun_inBounds hh, htaken]
        exact hok.count r min max (hbracket ▸ hrest) hb
      rw [hb, ok_bind] at hscan
      cases hcount : countRun (bits (negated q) (items (classBody q))) max h 0 with
      | error e =>
        rw [hcount] at hin
        cases e with
        | read => exact absurd rfl hin.1
        | index => exact absurd rfl hin.2.1
        | overflow => exact absurd hcount (countRun_ne_overflow max h 0)
        | turns => exact absurd rfl hin.2.2
      | ok m =>
        obtain ⟨a, b, rfl, hab, rfl⟩ := countRun_counted hcount
        rw [htaken, sub_zero] at hab
        simp only [hcount, ok_bind, zero_add] at hscan
        by_cases hmin : (a.length : Int) < min
        · rw [if_pos hmin] at hscan
          refine .inl ⟨fun n hn => ?_, fun a' b' happ ht => ?_⟩
          · rw [hscan] at hn
            cases hn
            rfl
          · obtain ⟨-, min', max', hb', hmin', hcount'⟩ := htakes a' b' ht
            rw [hb] at hb'
            cases hb'
            obtain ⟨rfl, -⟩ := hab.unique hcount' happ
            omega
        · rw [if_neg hmin] at hscan
          refine .inr ⟨a, b, rfl, ⟨r, min, max, hbracket ▸ hrest, hb, by omega, hab⟩, hscan, fun a' b' happ ht => ?_,
            ?_⟩
          · obtain ⟨-, min', max', hb', -, hcount'⟩ := htakes a' b' ht
            rw [hb] at hb'
            cases hb'
            exact (hab.unique hcount' happ).2.symm
          · exact hh.of_append fun x hx => (hab.all x hx).1
  · rw [if_pos hbracket] at hscan
    refine .inl ⟨fun n hn => ?_, fun a b _ ht => hbracket (htakes a b ht).1⟩
    rw [hscan] at hn
    cases hn
    rfl

end Scan

/-! ### The matching -/

section Match

variable {ovf : Int → Option Int} {spec : Spec} {size msize : Nat}

/-- The pieces in front of a state. -/
def St.pieces (spec : Spec) (s : St) : List Piece := Route.pieces spec s.start.isSome s.p

/-- The pointers of a state are in their strings. -/
structure St.Inside (s : St) : Prop where
  pattern : Terminated s.p
  path : Terminated s.h

theorem matchOk_nil {h : List UInt8} : MatchOk ovf spec [] h := by
  intro pre pc post hpcs
  simp at hpcs

/-- The first piece finds what it asks for, and the others do in what it leaves. -/
theorem matchOk_cons {pc : Piece} {pcs : List Piece} {h : List UInt8} : MatchOk ovf spec (pc :: pcs) h ↔
    pc.Ok ovf h ∧ ∀ a b, h = a ++ b → pc.Takes ovf spec a b → MatchOk ovf spec pcs b := by
  constructor
  · intro hok
    refine ⟨hok [] pc pcs rfl [] h rfl rfl, ?_⟩
    rintro a b rfl ht pre pc' post rfl a' b' rfl hleads
    exact hok (pc :: pre) pc' post rfl (a ++ a') b' (List.append_assoc ..).symm ⟨a, a', rfl, ht, hleads⟩
  · rintro ⟨hhead, htail⟩ pre pc' post hpcs a b rfl hleads
    cases pre with
    | nil =>
      obtain ⟨rfl, -⟩ := List.cons.inj hpcs
      obtain rfl : a = [] := hleads
      exact hhead
    | cons pc₁ pre =>
      obtain ⟨rfl, rfl⟩ := List.cons.inj hpcs
      obtain ⟨a₁, a₂, rfl, ht, hleads⟩ := hleads
      exact htail a₁ (a₂ ++ b) (List.append_assoc ..) ht pre pc' post rfl a₂ b rfl hleads

/-- A piece that is in order and can take nothing ends the match. -/
theorem matchOk_stuck {h : List UInt8} (pc : Piece) (pcs : List Piece) (hok : pc.Ok ovf h)
    (hstuck : ∀ a b, h = a ++ b → ¬pc.Takes ovf spec a b) : MatchOk ovf spec (pc :: pcs) h :=
  matchOk_cons.2 ⟨hok, fun a b happ ht => absurd ht (hstuck a b happ)⟩

/-- What a piece leaves is one thing. -/
theorem matchOk_takes {a b : List UInt8} (pc : Piece) (pcs : List Piece) (hok : pc.Ok ovf (a ++ b))
    (ht : pc.Takes ovf spec a b) (hone : ∀ a' b', a ++ b = a' ++ b' → pc.Takes ovf spec a' b' → b' = b) :
    MatchOk ovf spec (pc :: pcs) (a ++ b) ↔ MatchOk ovf spec pcs b := by
  rw [matchOk_cons]
  constructor
  · exact fun h => h.2 a b rfl ht
  · refine fun h => ⟨hok, fun a' b' happ ht' => ?_⟩
    rw [hone a' b' happ ht']
    exact h

/-- A turn with `pcs` in front of it and `h` left of the path: it is in bounds, and what it leads to asks the same. -/
structure TurnOk (ovf : Int → Option Int) (spec : Spec) (pcs : List Piece) (h : List UInt8) (r : Except Fault Turn) :
    Prop where
  inBounds : InBounds r
  next : ∀ s, r = .ok (.next s) → s.Inside ∧ (MatchOk ovf spec pcs h ↔ MatchOk ovf spec (s.pieces spec) s.h)
  last : (∀ s, r ≠ .ok (.next s)) → MatchOk ovf spec pcs h

variable {pcs : List Piece} {h : List UInt8}

theorem turnOk_ret {n : Int} {ms : List Nat} (hok : MatchOk ovf spec pcs h) : TurnOk ovf spec pcs h (.ok (.ret n ms)) :=
  ⟨inBounds_ok _, fun s h => (by cases h), fun _ => hok⟩

theorem turnOk_next {s : St} (hs : s.Inside) (hiff : MatchOk ovf spec pcs h ↔ MatchOk ovf spec (s.pieces spec) s.h) :
    TurnOk ovf spec pcs h (.ok (.next s)) :=
  ⟨inBounds_ok _, fun s' h => (by cases h; exact ⟨hs, hiff⟩), fun h => absurd rfl (h s)⟩

theorem skipTo_terminated {c : UInt8} {p : List UInt8} (hp : Terminated p) (hc : c = 0 ∨ c ∈ p) :
    ∃ q, skipTo c p = .ok (c :: q) ∧ p.dropWhile (· ≠ c) = c :: q ∧ Terminated (c :: q) := by
  obtain ⟨s, hs, rfl⟩ := hp
  induction s with
  | nil =>
    obtain rfl : c = 0 := by simpa using hc
    exact ⟨[], rfl, rfl, terminated_nul⟩
  | cons x s ih =>
    simp only [List.mem_cons, not_or] at hs
    rw [List.cons_append, skipTo, List.dropWhile_cons]
    by_cases hx : x = c
    · subst hx
      rw [if_pos rfl, if_neg (by simp)]
      exact ⟨_, rfl, rfl, Terminated.cons (Ne.symm hs.1) ⟨s, hs.2, rfl⟩⟩
    · rw [if_neg hx, if_pos (decide_eq_true hx)]
      refine ih hs.2 (hc.imp_right fun h => ?_)
      rcases List.mem_cons.1 h with rfl | h
      · exact absurd rfl hx
      · exact h

/-- The first bracket behind a class is the one that ends it. -/
theorem skipTo_class {q r : List UInt8} (hq : Terminated q) (hrest : classRest q = asc ']' :: r) :
    skipTo (asc ']') (asc '[' :: q) = .ok (asc ']' :: r) := by
  have hskip : ∀ body : List UInt8, (∀ x ∈ body, ¬Stops x) →
    skipTo (asc ']') (body ++ asc ']' :: r) = .ok (asc ']' :: r) := by
    intro body hbody
    induction body with
    | nil => exact if_pos rfl
    | cons x body ih =>
      rw [List.cons_append, skipTo, if_neg fun h => hbody x List.mem_cons_self (.inr h)]
      exact ih fun y hy => hbody y (List.mem_cons_of_mem _ hy)
  obtain ⟨c, r', hrest', htext, -, -⟩ := classText_split hq
  obtain ⟨rfl, rfl⟩ := List.cons.inj (hrest.symm.trans hrest')
  have htail := hskip _ (classBody_plain (q := q))
  rw [← htext] at htail
  rw [skipTo, if_neg (by decide)]
  unfold classText at htail
  split at htail
  · next hneg =>
    obtain ⟨c, q', rfl, -⟩ := hq.read
    obtain rfl : c = asc '^' := by simpa [negated] using hneg
    rw [skipTo, if_neg (by decide)]
    exact htail
  · exact htail

/-- The turn goes behind the class that has been counted. -/
theorem classTurn_next {s : St} {start : Nat} {a b q : List UInt8} (hq : Terminated q) (hp : s.p = asc '[' :: q)
    (hh : s.h = a ++ b) (ht : (Piece.cls q).Takes ovf spec a b)
    (hscan : routeScan ovf s.h (asc '[' :: q) = .ok (a.length : Int)) :
    classTurn ovf msize s start = .ok (.next { s with p := classEnd q, h := b }) ∧ Terminated (classEnd q) := by
  obtain ⟨r, min, max, hrest, hb, -, -⟩ := ht
  obtain ⟨c, r', hrest', -, -, hterm⟩ := classText_split hq
  obtain ⟨rfl, rfl⟩ := List.cons.inj (hrest.symm.trans hrest')
  have hterm := hterm.tail (by decide)
  have hclose : r.head? = some (asc '{') → asc '}' ∈ r := by
    have hcases : scanBounds ovf r = _ ∨ _ := scanBounds_cases hterm
    rcases hcases with hb' | hb' | ⟨b', hb', hclose⟩
    · rw [hb] at hb'
      cases hb'
    · rw [hb] at hb'
      cases hb'
    · exact hclose
  have hbehind : classEnd q = if r.head? = some (asc '{') then (r.dropWhile (· ≠ asc '}')).tail else r := by
    rw [classEnd, hrest]
    rfl
  have hdrop : s.h.drop a.length = b := by rw [hh, List.drop_left]
  have hne : ¬((a.length : Int) = -1) := by omega
  obtain ⟨d, r', rfl, -⟩ := hterm.read
  rw [classTurn, hp]
  simp only [read_cons, ok_bind, if_true, hscan, if_neg hne, skipTo_class hq hrest, List.tail_cons, Int.toNat_natCast,
    hdrop]
  rw [List.head?_cons] at hbehind hclose
  by_cases hd : d = asc '{'
  · obtain ⟨r'', hskip, hdrop', hterm'⟩ := skipTo_terminated hterm (.inr (hclose (congrArg some hd)))
    rw [if_pos (congrArg some hd), hdrop'] at hbehind
    rw [if_pos hd, hskip, hbehind]
    exact ⟨rfl, hterm'.tail (by decide)⟩
  · rw [if_neg fun h => hd (Option.some.inj h)] at hbehind
    rw [if_neg hd, hbehind]
    exact ⟨rfl, hterm⟩

theorem pieces_bracket (q : List UInt8) : pieces spec true (asc '[' :: q) = .cls q ::
    pieces spec true (classEnd q) := by
  rw [pieces.eq_def]
  simp

theorem pieces_plain {c : UInt8} (hc : c ≠ asc '[') (q : List UInt8) :
    pieces spec true (c :: q) = pieces spec false (c :: q) := by
  rw [pieces.eq_def]
  simp [hc]

theorem classTurn_ok {s : St} {start : Nat} (hs : s.Inside) (hstart : s.start = some start)
    (hok : ∀ q, s.p = asc '[' :: q → ScanOk ovf s.h q) :
    TurnOk ovf spec (pieces spec true s.p) s.h (classTurn ovf msize s start) := by
  obtain ⟨c, q, hp, hread⟩ := hs.pattern.read
  by_cases hc : c = asc '['
  · subst hc
    have hq : Terminated q := (hp ▸ hs.pattern).tail (by decide)
    rw [hp, pieces_bracket]
    rcases routeScan_takes spec hs.path hq (hok q hp) with ⟨hn, hstuck⟩ | ⟨a, b, hh, ht, hscan, hone, hb⟩
    · have hlast := matchOk_stuck (.cls q) (pieces spec true (classEnd q)) (hok q hp) hstuck
      have hin := (routeScan_inBounds hs.path hq).2 (hok q hp)
      rw [classTurn, hread, ok_bind, if_pos rfl, hp]
      cases hr : routeScan ovf s.h (asc '[' :: q) with
      | error e =>
        rw [hr] at hin
        exact ⟨by simpa [InBounds] using hin, fun s h => (by cases h), fun _ => hlast⟩
      | ok n =>
        rw [ok_bind, if_pos (hn n hr)]
        exact turnOk_ret hlast
    · obtain ⟨hturn, hterm⟩ : classTurn ovf msize s start = _ ∧ _ := classTurn_next hq hp hh ht hscan
      rw [hturn]
      refine turnOk_next ⟨hterm, hb⟩ ?_
      rw [hh] at hone
      have hiff := matchOk_takes (.cls q) (pieces spec true (classEnd q)) (hh ▸ hok q hp) ht hone
      rw [hh, hiff, St.pieces, hstart]
      rfl
  · rw [classTurn, hread, ok_bind, if_neg hc]
    refine turnOk_next ⟨hs.pattern, hs.path⟩ ?_
    rw [hp, pieces_plain hc, St.pieces]
    exact hp ▸ Iff.rfl

theorem skipSegment_takes (ovf : Int → Option Int) (spec : Spec) {h : List UInt8} (hh : Terminated h) :
    ∃ a b, h = a ++ b ∧ skipSegment spec.div h = .ok b ∧ Terminated b ∧ Piece.segment.Takes ovf spec a b := by
  obtain ⟨t, ht, rfl⟩ := hh
  induction t with
  | nil => exact ⟨[], [0], rfl, rfl, terminated_nul, by simp, 0, [], rfl, .inl rfl⟩
  | cons x t ih =>
    simp only [List.mem_cons, not_or] at ht
    rw [List.cons_append, skipSegment]
    by_cases hx : x ≠ 0 ∧ x ≠ spec.div
    · obtain ⟨a, b, happ, hskip, hb, hall, hstop⟩ := ih ht.2
      refine ⟨x :: a, b, by rw [happ]; rfl, by rw [if_pos hx, hskip], hb, fun y hy => ?_, hstop⟩
      rcases List.mem_cons.1 hy with rfl | hy
      · exact hx
      · exact hall y hy
    · rw [if_neg hx]
      exact ⟨[], x :: (t ++ [0]), rfl, rfl, Terminated.cons (Ne.symm ht.1) ⟨t, ht.2, rfl⟩, by simp, x, t ++ [0], rfl,
        .inr (not_not.1 fun h => hx ⟨Ne.symm ht.1, h⟩)⟩

theorem segment_unique {a b a' b' : List UInt8} (h : Piece.segment.Takes ovf spec a b)
    (h' : Piece.segment.Takes ovf spec a' b') (happ : a ++ b = a' ++ b') : b' = b := by
  have stop : ∀ {a b : List UInt8}, Piece.segment.Takes ovf spec a b → ∃ c t, b = c :: t ∧ ¬(c ≠ 0 ∧ c ≠ spec.div) := by
    rintro a b ⟨-, c, t, rfl, hc⟩
    exact ⟨c, t, rfl, fun hn => hc.elim hn.1 hn.2⟩
  exact (List.append_inj happ (Nat.le_antisymm (length_le_of_stop (stop h') h.1 happ.symm)
    (length_le_of_stop (stop h) h'.1 happ))).2.symm

theorem pieces_cons (c : UInt8) (q : List UInt8) : pieces spec false (c :: q) =
    if c = 0 then []
    else if c = spec.any then
      if q.head? = some (asc '[') then pieces spec true q
      else if q.head? = some spec.any ∧ q.tail.head? = some 0 then [.rest]
      else .segment :: pieces spec false q
    else if c = spec.esc then
      match q with
      | [] => []
      | d :: r => .same d :: pieces spec false r
    else .same c :: pieces spec false q := by
  rw [pieces.eq_def]
  simp only [Bool.false_eq_true, if_false]

theorem anyTurn_ok {s : St} {p : List UInt8} (hany : spec.any ≠ 0) (hstart : s.start = none) (hp : Terminated p)
    (hh : Terminated s.h) : TurnOk ovf spec (pieces spec false (spec.any :: p)) s.h (anyTurn spec size msize s p) := by
  obtain ⟨c, q, rfl, -⟩ := hp.read
  obtain ⟨a, b, happ, hskip, hb, ht⟩ := skipSegment_takes ovf spec hh
  have hsegment : ∀ ms, TurnOk ovf spec (.segment :: pieces spec false (c :: q)) s.h
      (.ok (.next { s with p := c :: q, h := b, ms })) := by
    intro ms
    refine turnOk_next ⟨hp, hb⟩ ?_
    rw [happ, matchOk_takes .segment _ trivial ht fun a' b' happ' ht' => segment_unique ht ht' happ', St.pieces, hstart]
    rfl
  rw [pieces_cons, if_neg hany, if_pos rfl]
  simp only [anyTurn, read_cons, ok_bind, List.tail_cons, List.head?_cons, Option.some.injEq]
  by_cases hc : c = asc '['
  · rw [if_pos hc, if_pos hc]
    exact turnOk_next ⟨hp, hh⟩ Iff.rfl
  rw [if_neg hc, if_neg hc]
  by_cases hc' : c = spec.any
  · have hq : Terminated q := hp.tail (hc' ▸ hany)
    obtain ⟨d, q', rfl, -⟩ := hq.read
    simp only [if_pos hc', read_cons, ok_bind, List.head?_cons, Option.some.injEq]
    by_cases hd : d = 0
    · obtain ⟨r, hnul, -, hr⟩ := skipTo_terminated hh (.inl rfl)
      rw [if_pos hd, if_pos ⟨hc', hd⟩, hnul]
      refine turnOk_next ⟨hq, hr⟩ (iff_of_true ?_ ?_)
      · exact matchOk_cons.2 ⟨trivial, fun _ _ _ _ => matchOk_nil⟩
      · rw [St.pieces, hstart]
        change MatchOk ovf spec (pieces spec false (d :: q')) _
        rw [pieces_cons, if_pos hd]
        exact matchOk_nil
    · rw [if_neg hd, if_neg fun h => hd h.2, hskip]
      exact hsegment _
  · rw [if_neg hc', if_neg fun h => hc' h.1, hskip]
    exact hsegment _

theorem sameTurn_ok {s : St} {c : UInt8} {q : List UInt8} (hstart : s.start = none) (hp : Terminated (c :: q))
    (hh : Terminated s.h) (hne : c = 0 → s.h ≠ [0]) :
    TurnOk ovf spec (.same c :: pieces spec false q) s.h (sameTurn s (c :: q)) := by
  obtain ⟨d, h', hd, hread⟩ := hh.read
  rw [sameTurn, read_cons, ok_bind, hread, ok_bind]
  by_cases hcd : c = d
  · rw [if_pos hcd]
    subst hcd
    have hc : c ≠ 0 := by
      rintro rfl
      rw [hd] at hh
      exact hne rfl (by rw [hd, hh.nul])
    have hh' : Terminated h' := (hd ▸ hh).tail hc
    rw [hd, List.tail_cons, List.tail_cons]
    refine turnOk_next ⟨hp.tail hc, hh'⟩ ?_
    have hone : ∀ a' b', [c] ++ h' = a' ++ b' → (Piece.same c).Takes ovf spec a' b' → b' = h' := by
      rintro a' b' happ rfl
      exact (List.cons.inj happ).2.symm
    rw [St.pieces, hstart]
    exact matchOk_takes (.same c) (pieces spec false q) (fun h0 => absurd h0 hc) rfl hone
  · rw [if_neg hcd]
    refine turnOk_ret (matchOk_stuck (.same c) _ hne fun a b happ ht => hcd ?_)
    obtain rfl : a = [c] := ht
    exact (List.cons.inj (hd.symm.trans happ)).1.symm

/-- What a turn needs: the class in front of it is in order, or it is no escape in front of the two NULs. -/
def StepOk (ovf : Int → Option Int) (spec : Spec) (s : St) : Prop :=
  match s.start with
  | some _ => ∀ q, s.p = asc '[' :: q → ScanOk ovf s.h q
  | none => s.p = [spec.esc, 0] → s.h = [0] → spec.esc = spec.any

theorem matchTurn_ok {s : St} (hs : s.Inside) (hok : StepOk ovf spec s) :
    TurnOk ovf spec (s.pieces spec) s.h (matchTurn ovf spec size msize s) := by
  unfold matchTurn
  rw [St.pieces]
  cases hstart : s.start with
  | some start =>
    simp only [StepOk, hstart] at hok
    exact classTurn_ok hs hstart hok
  | none =>
    simp only [StepOk, hstart] at hok
    obtain ⟨c, q, hp, hread⟩ := hs.pattern.read
    obtain ⟨d, h', -, hread'⟩ := hs.path.read
    simp only [hread, ok_bind, Option.isSome_none]
    by_cases h0 : c = 0
    · rw [if_pos h0, hread', ok_bind, hp, pieces_cons, if_pos h0]
      exact turnOk_ret matchOk_nil
    have hq : Terminated q := (hp ▸ hs.pattern).tail h0
    rw [if_neg h0]
    by_cases hany : c = spec.any
    · subst hany
      rw [if_pos rfl, hp, List.tail_cons]
      exact anyTurn_ok h0 hstart hq hs.path
    rw [if_neg hany]
    by_cases hesc : c = spec.esc
    · obtain ⟨e, r, rfl, -⟩ := hq.read
      rw [if_pos hesc, hp, List.tail_cons, pieces_cons, if_neg h0, if_neg hany, if_pos hesc]
      refine sameTurn_ok hstart hq hs.path fun he hh0 => hany (hesc.trans (hok ?_ hh0))
      subst he
      rw [hp, hq.nul, hesc]
    · rw [if_neg hesc, hp, pieces_cons, if_neg h0, if_neg hany, if_neg hesc]
      exact sameTurn_ok hstart (hp ▸ hs.pattern) hs.path fun h => absurd h h0

/-- A turn that is not in order leads out of bounds, an escape at the two NULs with the next one. -/
theorem finish_not_inBounds {s : St} (hs : s.Inside) (hbad : ¬StepOk ovf spec s) :
    ¬InBounds (finish ovf spec size msize s) := by
  obtain ⟨p, h, ms, start⟩ := s
  cases start with
  | some start =>
    simp only [StepOk, not_forall] at hbad
    obtain ⟨q, rfl, hbad⟩ := hbad
    rw [← routeScan_inBounds hs.path (hs.pattern.tail (by decide))] at hbad
    cases hr : routeScan ovf h (asc '[' :: q) with
    | ok n =>
      rw [hr] at hbad
      exact absurd (inBounds_ok n) hbad
    | error e =>
      have hturn : matchTurn ovf spec size msize ⟨asc '[' :: q, h, ms, some start⟩ = .error e := by
        simp [matchTurn, classTurn, hr]
      rw [hr] at hbad
      rw [finish_error hturn]
      simpa [InBounds] using hbad
  | none =>
    simp only [StepOk, Classical.not_imp] at hbad
    obtain ⟨rfl, rfl, hany⟩ := hbad
    have hesc : spec.esc ≠ 0 := by
      intro h0
      have := hs.pattern
      rw [h0] at this
      simpa using this.nul
    have hturn : matchTurn ovf spec size msize ⟨[spec.esc, 0], [0], ms, none⟩ = .ok (.next ⟨[], [], ms, none⟩) := by
      simp [matchTurn, sameTurn, hesc, hany, pure, Except.pure]
    have hread : matchTurn ovf spec size msize ⟨[], [], ms, none⟩ = .error .read := rfl
    rw [finish_next hturn, finish_error hread]
    exact fun h => h.1 rfl

theorem matchOk_bad {s : St} (hs : s.Inside) (hbad : ¬StepOk ovf spec s) : ¬MatchOk ovf spec (s.pieces spec) s.h := by
  obtain ⟨p, h, ms, start⟩ := s
  cases start with
  | some start =>
    simp only [StepOk, not_forall] at hbad
    obtain ⟨q, rfl, hbad⟩ := hbad
    change ¬MatchOk ovf spec (pieces spec true (asc '[' :: q)) h
    rw [pieces_bracket, matchOk_cons]
    exact fun hok => hbad hok.1
  | none =>
    simp only [StepOk, Classical.not_imp] at hbad
    obtain ⟨rfl, rfl, hany⟩ := hbad
    have hesc : spec.esc ≠ 0 := by
      intro h0
      have := hs.pattern
      rw [h0] at this
      simpa using this.nul
    change ¬MatchOk ovf spec (pieces spec false [spec.esc, 0]) [0]
    rw [pieces_cons, if_neg hesc, if_neg hany, if_pos rfl, matchOk_cons]
    exact fun hok => hok.1 rfl rfl

/-- A match is in bounds where each piece finds what it asks for. -/
theorem finish_inBounds {s : St} (hs : s.Inside) :
    InBounds (finish ovf spec size msize s) ↔ MatchOk ovf spec (s.pieces spec) s.h := by
  induction hm : s.measure using Nat.strong_induction_on generalizing s with
  | _ m ih =>
    subst hm
    by_cases hok : StepOk ovf spec s
    · have hturnOk : TurnOk ovf spec _ _ (matchTurn ovf spec size msize s) := matchTurn_ok hs hok
      have hin := hturnOk.inBounds
      cases hturn : matchTurn ovf spec size msize s with
      | error e =>
        rw [finish_error hturn]
        rw [hturn] at hin
        refine iff_of_true (by simpa [InBounds] using hin) (hturnOk.last fun s' => ?_)
        rw [hturn]
        simp
      | ok t =>
        cases t with
        | ret n ms =>
          rw [finish_ret hturn]
          refine iff_of_true (inBounds_ok _) (hturnOk.last fun s' => ?_)
          rw [hturn]
          simp
        | next s₁ =>
          obtain ⟨hin₁, hiff⟩ := hturnOk.next s₁ hturn
          rw [finish_next hturn, ih _ (matchTurn_measure hturn) hin₁ rfl, hiff]
    · exact iff_of_false (finish_not_inBounds hs hok) (matchOk_bad hs hok)

end Match

/-- `route_scan` and `route_match` stay in bounds and come to an end exactly where the class of the scan, and each
piece of the pattern at the place in the path to which the pieces in front of it lead, is in order. -/
theorem route_bounds (ovf : Int → Option Int) :
    (∀ h p : CString, InBounds (routeScan ovf (h.bytes ++ [0]) (p.bytes ++ [0])) ↔
      ∀ q, p.bytes ++ [0] = asc '[' :: q → ScanOk ovf (h.bytes ++ [0]) q) ∧
    ∀ (path pattern : CString) (spec : Spec) (msize : Nat), InBounds (routeMatch ovf path pattern spec msize) ↔
      msize = 0 ∨ MatchOk ovf spec (pieces spec false (pattern.bytes ++ [0])) (path.bytes ++ [0]) := by
  have hterm : ∀ s : CString, Terminated (s.bytes ++ [0]) := fun s => ⟨s.bytes, s.noNul, rfl⟩
  constructor
  · intro h p
    obtain ⟨c, q, hp, hread⟩ := (hterm p).read
    by_cases hc : c = asc '['
    · subst hc
      have hq : Terminated q := (hp ▸ hterm p).tail (by decide)
      rw [hp, routeScan_inBounds (hterm h) hq]
      constructor
      · intro hok q' hq'
        rw [← (List.cons.inj hq').2]
        exact hok
      · exact fun h => h q rfl
    · rw [routeScan, hread, ok_bind, if_pos hc]
      refine iff_of_true (inBounds_ok _) fun q' hq' => ?_
      exact absurd (List.cons.inj (hp.symm.trans hq')).1 hc
  · intro path pattern spec msize
    by_cases hm : msize = 0
    · rw [routeMatch, if_pos hm]
      exact iff_of_true (inBounds_ok _) (.inl hm)
    · rw [routeMatch_eq_finish path pattern hm, or_iff_right hm]
      exact finish_inBounds ⟨hterm pattern, hterm path⟩

/-- The pattern `\` on an empty path, the pattern `*[a-`, and a character from 128 on behind a wildcard with a class. -/
theorem route_out_of_bounds :
    routeMatch some ⟨[], by decide⟩ ⟨lit "\\", by decide⟩ ⟨asc '*', asc '/', asc '\\'⟩ 16 = .error .read ∧
    routeMatch some ⟨lit "a", by decide⟩ ⟨lit "*[a-", by decide⟩ ⟨asc '*', asc '/', asc '\\'⟩ 16 = .error .read ∧
    routeMatch some ⟨[200], by decide⟩ ⟨lit "*[a-z]", by decide⟩ ⟨asc '*', asc '/', asc '\\'⟩ 16 = .error .index := by
  decide

end JACLibc.Route
