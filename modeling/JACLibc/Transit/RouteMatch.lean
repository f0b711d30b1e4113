import JACLibc.Transit.Route
import Mathlib.Tactic.Linarith

/-!
# Matching by segments

A pattern without classes is a list of segments, each a wildcard or a literal, and may end in a wildcard for the rest
of the path. `route_match` has no way back: it compares the literals character by character and skips a segment for a
wildcard.  It answers what the segments say (`route_match_segments`) as long as no wildcard stands in front of a `[`,
which would be read as a class: this is the case where `[` itself is the divider or the wildcard.
-/

namespace JACLibc.Route

/-- The three characters are different from one another and from NUL. -/
structure Spec.Distinct (spec : Spec) : Prop where
  any_ne : spec.any ≠ 0
  div_ne : spec.div ≠ 0
  esc_ne : spec.esc ≠ 0
  any_div : spec.any ≠ spec.div
  any_esc : spec.any ≠ spec.esc
  div_esc : spec.div ≠ spec.esc

inductive Seg
  | any
  | lit (l : List UInt8)
  deriving DecidableEq

/-- A pattern by its segments; `rest` is the final `any any`. -/
structure Pattern (spec : Spec) where
  segs : List Seg
  rest : Bool
  ne : segs = [] → rest = true
  plain : ∀ l, Seg.lit l ∈ segs → 0 ∉ l ∧ spec.div ∉ l

/-- A literal with the special characters escaped. -/
def escape (spec : Spec) (l : List UInt8) : List UInt8 :=
  l.flatMap fun c => if c = spec.any ∨ c = spec.esc then [spec.esc, c] else [c]

def Seg.text (spec : Spec) : Seg → List UInt8
  | any => [spec.any]
  | lit l => escape spec l

/-- The texts of the segments. -/
def texts (spec : Spec) (segs : List Seg) (rest : Bool) : List (List UInt8) :=
  segs.map (Seg.text spec) ++ if rest then [[spec.any, spec.any]] else []

/-- A literal segment is equal to the segment of the path. -/
def Seg.Fits : Seg → List UInt8 → Prop
  | any, _ => True
  | lit l, t => l = t

instance (s : Seg) (t : List UInt8) : Decidable (s.Fits t) :=
  match s with
  | .any => .isTrue trivial
  | .lit l => inferInstanceAs (Decidable (l = t))

/-- As many segments, or at least as many where the pattern has a rest, and the literals equal. -/
def Fits (segs : List Seg) (rest : Bool) (ts : List (List UInt8)) : Prop :=
  (if rest then segs.length + 1 ≤ ts.length else segs.length = ts.length) ∧ ∀ x ∈ segs.zip ts, x.1.Fits x.2

instance (segs : List Seg) (rest : Bool) (ts : List (List UInt8)) : Decidable (Fits segs rest ts) :=
  inferInstanceAs (Decidable (_ ∧ _))

/-- What a segment captures at `pos`. -/
def Seg.starts : Seg → Nat → List Nat
  | any, pos => [pos]
  | lit _, _ => []

/-- The starts of the segments under the wildcards, where `pos` is that of the first segment. -/
def starts (rest : Bool) : List Seg → List (List UInt8) → Nat → List Nat
  | s :: segs, t :: ts, pos => s.starts pos ++ starts rest segs ts (pos + t.length + 1)
  | _, _, pos => if rest then [pos] else []

/-- The number of wildcards. -/
def wilds (segs : List Seg) (rest : Bool) : Nat := segs.count .any + if rest then 1 else 0

/-- No wildcard stands in front of a `[`. -/
def NoClass (spec : Spec) (segs : List Seg) (rest : Bool) : Prop :=
  (spec.div = asc '[' → Seg.any ∉ if rest then segs else segs.dropLast) ∧ (spec.any = asc '[' → rest = false)

/-- The text of a pattern: the segments with dividers between them. -/
def Pattern.text {spec : Spec} (pat : Pattern spec) : List UInt8 :=
  [spec.div].intercalate (texts spec pat.segs pat.rest)

section Match

variable {ovf : Int → Option Int} {spec : Spec} {size msize : Nat} {p h : List UInt8} {ms : List Nat}

/-! ### Single characters -/

theorem finish_same {c d : UInt8} (h0 : c ≠ 0) (hany : c ≠ spec.any) (hesc : c ≠ spec.esc) :
    finish ovf spec size msize ⟨c :: p, d :: h, ms, none⟩ =
      if c = d then finish ovf spec size msize ⟨p, h, ms, none⟩ else .ok (0, ms) := by
  by_cases hd : c = d
  · rw [if_pos hd]
    apply finish_next
    simp [matchTurn, sameTurn, hd ▸ h0, hd ▸ hany, hd ▸ hesc, hd, pure, Except.pure]
  · rw [if_neg hd]
    apply finish_ret
    simp [matchTurn, sameTurn, h0, hany, hesc, hd, pure, Except.pure]

theorem finish_esc (hs : spec.Distinct) {c d : UInt8} :
    finish ovf spec size msize ⟨spec.esc :: c :: p, d :: h, ms, none⟩ =
      if c = d then finish ovf spec size msize ⟨p, h, ms, none⟩ else .ok (0, ms) := by
  by_cases hd : c = d
  · rw [if_pos hd]
    apply finish_next
    simp [matchTurn, sameTurn, hs.esc_ne, hs.any_esc.symm, hd, pure, Except.pure]
  · rw [if_neg hd]
    apply finish_ret
    simp [matchTurn, sameTurn, hs.esc_ne, hs.any_esc.symm, hd, pure, Except.pure]

theorem finish_end {d : UInt8} :
    finish ovf spec size msize ⟨0 :: p, d :: h, ms, none⟩ = .ok (if d = 0 then wrapInt ms.length else 0, ms) := by
  apply finish_ret
  simp [matchTurn, pure, Except.pure]

theorem escape_cons (c : UInt8) (l : List UInt8) :
    escape spec (c :: l) = if c = spec.any ∨ c = spec.esc then spec.esc :: c :: escape spec l else c ::
    escape spec l := by
  rw [escape, List.flatMap_cons]
  split <;> rfl

/-- A character of a literal, escaped or not. -/
theorem finish_char (hs : spec.Distinct) {c d : UInt8} {l : List UInt8} (h0 : c ≠ 0) :
    finish ovf spec size msize ⟨escape spec (c :: l) ++ p, d :: h, ms, none⟩ =
      if c = d then finish ovf spec size msize ⟨escape spec l ++ p, h, ms, none⟩ else .ok (0, ms) := by
  rw [escape_cons]
  by_cases hc : c = spec.any ∨ c = spec.esc
  · rw [if_pos hc]
    exact finish_esc hs
  · rw [if_neg hc]
    exact finish_same h0 (fun h => hc (.inl h)) fun h => hc (.inr h)

/-! ### Segments -/

/-- A character behind a segment. -/
def Ends (spec : Spec) (c : UInt8) : Prop := c = 0 ∨ c = spec.div

theorem finish_lit (hs : spec.Distinct) {l t : List UInt8} (hl : 0 ∉ l ∧ spec.div ∉ l) (ht : 0 ∉ t ∧ spec.div ∉ t)
    {c d : UInt8} (hc : Ends spec c) (hd : Ends spec d) :
    finish ovf spec size msize ⟨escape spec l ++ c :: p, t ++ d :: h, ms, none⟩ =
      if l = t then finish ovf spec size msize ⟨c :: p, d :: h, ms, none⟩ else .ok (0, ms) := by
  induction l generalizing t with
  | nil =>
    cases t with
    | nil => rfl
    | cons x t =>
      simp only [List.mem_cons, not_or] at ht
      rw [if_neg (by simp)]
      rcases hc with rfl | rfl
      · refine finish_end.trans ?_
        rw [if_neg (Ne.symm ht.1.1)]
      · refine (finish_same hs.div_ne hs.any_div.symm hs.div_esc).trans ?_
        rw [if_neg ht.2.1]
  | cons y l ih =>
    simp only [List.mem_cons, not_or] at hl
    cases t with
    | nil =>
      have hyd : y ≠ d := by
        rcases hd with rfl | rfl
        · exact Ne.symm hl.1.1
        · exact Ne.symm hl.2.1
      rw [List.nil_append, finish_char hs (Ne.symm hl.1.1), if_neg hyd, if_neg (by simp)]
    | cons x t =>
      simp only [List.mem_cons, not_or] at ht
      rw [List.cons_append, finish_char hs (Ne.symm hl.1.1)]
      by_cases hyx : y = x
      · rw [if_pos hyx, ih ⟨hl.1.2, hl.2.2⟩ ⟨ht.1.2, ht.2.2⟩, hyx]
        simp only [List.cons.injEq, true_and]
      · rw [if_neg hyx, if_neg fun h => hyx (List.cons.inj h).1]

theorem skipSegment_end {t : List UInt8} (ht : 0 ∉ t ∧ spec.div ∉ t) {d : UInt8} (hd : Ends spec d) :
    skipSegment spec.div (t ++ d :: h) = .ok (d :: h) := by
  induction t with
  | nil =>
    rw [List.nil_append, skipSegment, if_neg]
    rintro ⟨h0, hdiv⟩
    exact hd.elim h0 hdiv
  | cons x t ih =>
    simp only [List.mem_cons, not_or] at ht
    rw [List.cons_append, skipSegment, if_pos ⟨Ne.symm ht.1.1, Ne.symm ht.2.1⟩]
    exact ih ⟨ht.1.2, ht.2.2⟩

theorem finish_any (hs : spec.Distinct) {t : List UInt8} (ht : 0 ∉ t ∧ spec.div ∉ t) {c d : UInt8} (hc : Ends spec c)
    (hclass : c ≠ asc '[') (hd : Ends spec d) (hm : ms.length < msize) :
    finish ovf spec size msize ⟨spec.any :: c :: p, t ++ d :: h, ms, none⟩ =
      finish ovf spec size msize ⟨c :: p, d :: h, ms ++ [size - (t ++ d :: h).length], none⟩ := by
  have hany : c ≠ spec.any := by
    rcases hc with rfl | rfl
    · exact Ne.symm hs.any_ne
    · exact Ne.symm hs.any_div
  apply finish_next
  simp only [matchTurn, anyTurn, read_cons, ok_bind, List.tail_cons, if_neg hs.any_ne, if_neg hclass, if_neg hany,
    if_pos True.intro, skipSegment_end ht hd, capture, if_pos hm]
  rfl

theorem skipTo_nul {t : List UInt8} (ht : 0 ∉ t) : skipTo 0 (t ++ [0]) = .ok [0] := by
  induction t with
  | nil => rfl
  | cons x t ih =>
    simp only [List.mem_cons, not_or] at ht
    rw [List.cons_append, skipTo, if_neg (Ne.symm ht.1)]
    exact ih ht.2

theorem finish_rest (hs : spec.Distinct) (hclass : spec.any ≠ asc '[') {t : List UInt8} (ht : 0 ∉ t)
    (hm : ms.length < msize) :
    finish ovf spec size msize ⟨[spec.any, spec.any, 0], t ++ [0], ms, none⟩ =
      .ok (wrapInt (ms.length + 1 : Nat), ms ++ [size - (t ++ [0]).length]) := by
  have hturn : matchTurn ovf spec size msize ⟨[spec.any, spec.any, 0], t ++ [0], ms, none⟩ =
      .ok (.next ⟨[0], [0], ms ++ [size - (t ++ [0]).length], none⟩) := by
    simp only [matchTurn, anyTurn, read_cons, ok_bind, List.tail_cons, if_neg hs.any_ne, if_neg hclass,
      if_pos True.intro, skipTo_nul ht, capture, if_pos hm]
    rfl
  rw [finish_next hturn]
  refine finish_end.trans ?_
  rw [if_pos rfl, List.length_append, List.length_singleton]

/-! ### Patterns -/

/-- What is left behind a segment. -/
def behind (spec : Spec) : List (List UInt8) → List UInt8
  | [] => [0]
  | x :: xs => spec.div :: ([spec.div].intercalate (x :: xs) ++ [0])

theorem intercalate_behind (x : List UInt8) (xs : List (List UInt8)) :
    [spec.div].intercalate (x :: xs) ++ [0] = x ++ behind spec xs := by
  cases xs with
  | nil => simp [behind, List.intercalate]
  | cons y ys => simp [behind, List.intercalate, List.append_assoc]

theorem behind_ends (xs : List (List UInt8)) : ∃ c q, behind spec xs = c :: q ∧ Ends spec c := by
  cases xs with
  | nil => exact ⟨0, [], rfl, .inl rfl⟩
  | cons x xs => exact ⟨spec.div, _, rfl, .inr rfl⟩

/-- A segment of the pattern at a segment of the path. -/
theorem finish_seg (hs : spec.Distinct) {s : Seg} {t : List UInt8} {ps qs : List (List UInt8)}
    (hl : ∀ l, s = .lit l → 0 ∉ l ∧ spec.div ∉ l) (ht : 0 ∉ t ∧ spec.div ∉ t)
    (hclass : s = .any → ps ≠ [] → spec.div ≠ asc '[') (hm : s = .any → ms.length < msize) {pos : Nat}
    (hpos : pos + (t ++ behind spec qs).length = size) :
    finish ovf spec size msize ⟨s.text spec ++ behind spec ps, t ++ behind spec qs, ms, none⟩ =
      if s.Fits t then finish ovf spec size msize ⟨behind spec ps, behind spec qs, ms ++ s.starts pos, none⟩
      else .ok (0, ms) := by
  obtain ⟨d, q, hq, hd⟩ := behind_ends qs
  rw [hq] at hpos ⊢
  cases s with
  | any =>
    obtain ⟨c, p, hp, hc⟩ := behind_ends ps
    have hc' : c ≠ asc '[' := by
      cases ps with
      | nil =>
        cases hp
        decide
      | cons x xs =>
        cases hp
        exact hclass rfl (by simp)
    rw [hp, if_pos (show Seg.any.Fits t from trivial)]
    refine (finish_any hs ht hc hc' hd (hm rfl)).trans ?_
    rw [show size - (t ++ d :: q).length = pos by omega]
    rfl
  | lit l =>
    obtain ⟨c, p, hp, hc⟩ := behind_ends ps
    rw [hp]
    refine (finish_lit hs (hl l rfl) ht hc hd).trans ?_
    simp only [Seg.starts, List.append_nil]
    rfl

/-- Where the next segments are reached, or the ends. -/
theorem finish_behind (hs : spec.Distinct) (ps qs : List (List UInt8)) :
    finish ovf spec size msize ⟨behind spec ps, behind spec qs, ms, none⟩ =
      match ps, qs with
      | [], [] => .ok (wrapInt ms.length, ms)
      | [], _ :: _ => .ok (0, ms)
      | _ :: _, [] => .ok (0, ms)
      | x :: xs, y :: ys => finish ovf spec size msize ⟨x ++ behind spec xs, y ++ behind spec ys, ms, none⟩ := by
  cases ps with
  | nil =>
    cases qs with
    | nil =>
      refine finish_end.trans ?_
      rw [if_pos rfl]
    | cons y ys =>
      refine finish_end.trans ?_
      rw [if_neg hs.div_ne]
  | cons x xs =>
    cases qs with
    | nil =>
      refine (finish_same hs.div_ne hs.any_div.symm hs.div_esc).trans ?_
      rw [if_neg hs.div_ne]
    | cons y ys =>
      refine (finish_same hs.div_ne hs.any_div.symm hs.div_esc).trans ?_
      rw [if_pos rfl, intercalate_behind, intercalate_behind]

theorem NoClass.tail {s : Seg} {segs : List Seg} {rest : Bool} (hn : NoClass spec (s :: segs) rest) :
    NoClass spec segs rest := by
  refine ⟨fun hdiv => ?_, hn.2⟩
  have h := hn.1 hdiv
  cases rest with
  | true => exact fun hmem => h (List.mem_cons_of_mem _ hmem)
  | false =>
    cases segs with
    | nil => simp
    | cons s' segs => exact fun hmem => h (List.mem_cons_of_mem _ hmem)

theorem NoClass.head {s : Seg} {segs : List Seg} {rest : Bool} (hn : NoClass spec (s :: segs) rest) (hany : s = .any)
    (hne : texts spec segs rest ≠ []) : spec.div ≠ asc '[' := by
  rintro hdiv
  have h := hn.1 hdiv
  cases rest with
  | true => exact h (hany ▸ List.mem_cons_self)
  | false =>
    cases segs with
    | nil => exact hne rfl
    | cons s' segs => exact h (hany ▸ List.mem_cons_self)

theorem fits_cons {s : Seg} {segs : List Seg} {rest : Bool} {t : List UInt8} {ts : List (List UInt8)} :
    Fits (s :: segs) rest (t :: ts) ↔ s.Fits t ∧ Fits segs rest ts := by
  simp only [Fits, List.length_cons, List.zip_cons_cons, List.mem_cons, forall_eq_or_imp, Nat.add_right_cancel_iff,
    Nat.add_le_add_iff_right]
  exact and_left_comm

theorem texts_eq_nil {segs : List Seg} {rest : Bool} : texts spec segs rest = [] ↔ segs = [] ∧ rest = false := by
  cases rest <;> simp [texts]

theorem starts_length (s : Seg) (pos : Nat) : (s.starts pos).length = if s = .any then 1 else 0 := by
  cases s <;> rfl

theorem wilds_cons (s : Seg) (segs : List Seg) (rest : Bool) :
    wilds (s :: segs) rest = (if s = .any then 1 else 0) + wilds segs rest := by
  simp only [wilds, List.count_cons, beq_iff_eq]
  omega

theorem nul_notMem_intercalate (hdiv : spec.div ≠ 0) {ts : List (List UInt8)} (ht : ∀ t ∈ ts, 0 ∉ t ∧ spec.div ∉ t) :
    0 ∉ [spec.div].intercalate ts := by
  induction ts with
  | nil => simp [List.intercalate]
  | cons t ts ih =>
    cases ts with
    | nil => simpa [List.intercalate] using (ht t List.mem_cons_self).1
    | cons t' ts =>
      have := ih fun x hx => ht x (List.mem_cons_of_mem _ hx)
      simp only [List.intercalate, List.intersperse_cons_cons, List.flatten_cons, List.mem_append, List.mem_singleton,
        not_or] at this ⊢
      exact ⟨(ht t List.mem_cons_self).1, hdiv.symm, this⟩

variable (ovf) in
/-- The matching goes through the segments of the pattern and of the path together. -/
theorem finish_segs (hs : spec.Distinct) {rest : Bool} {segs : List Seg} {ts : List (List UInt8)} {pos : Nat}
    (hne : segs = [] → rest = true) (hl : ∀ l, Seg.lit l ∈ segs → 0 ∉ l ∧ spec.div ∉ l) (hn : NoClass spec segs rest)
    (ht : ∀ t ∈ ts, 0 ∉ t ∧ spec.div ∉ t) (hts : ts ≠ []) (hm : ms.length + wilds segs rest ≤ msize)
    (hpos : pos + ([spec.div].intercalate ts ++ [0]).length = size) :
    (Fits segs rest ts → finish ovf spec size msize ⟨[spec.div].intercalate (texts spec segs rest) ++ [0],
        [spec.div].intercalate ts ++ [0], ms, none⟩ = .ok
        (wrapInt (ms.length + wilds segs rest : Nat), ms ++ starts rest segs ts pos)) ∧
    (¬Fits segs rest ts → ∃ ms', finish ovf spec size msize ⟨[spec.div].intercalate (texts spec segs rest) ++ [0],
        [spec.div].intercalate ts ++ [0], ms, none⟩ = .ok (0, ms')) := by
  induction segs generalizing ts ms pos with
  | nil =>
    obtain rfl := hne rfl
    have hlen : size - ([spec.div].intercalate ts ++ [0]).length = pos := by omega
    have hrun : finish ovf spec size msize ⟨[spec.any, spec.any, 0], [spec.div].intercalate ts ++ [0], ms, none⟩ = _ :=
      finish_rest hs (fun h => by simpa using hn.2 h) (nul_notMem_intercalate hs.div_ne ht) (Nat.lt_of_succ_le hm)
    rw [hlen] at hrun
    constructor
    · exact fun _ => hrun
    · intro hfit
      refine absurd ⟨?_, ?_⟩ hfit
      · simpa [Nat.succ_le_iff, List.length_pos_iff] using hts
      · simp
  | cons s segs ih =>
    obtain ⟨t, ts, rfl⟩ := List.exists_cons_of_ne_nil hts
    rw [wilds_cons] at hm ⊢
    rw [show texts spec (s :: segs) rest = s.text spec :: texts spec segs rest from rfl, intercalate_behind,
      intercalate_behind]
    rw [intercalate_behind] at hpos
    have hseg : finish ovf spec size msize ⟨s.text spec ++ behind spec (texts spec segs rest), t ++ behind spec ts,
      ms, none⟩ = _ :=
      finish_seg hs (fun l h => hl l (h ▸ List.mem_cons_self)) (ht t List.mem_cons_self) hn.head
        (fun h => by rw [if_pos h] at hm; omega) hpos
    rw [hseg, fits_cons]
    by_cases hfits : s.Fits t
    · rw [if_pos hfits, finish_behind hs, and_iff_right hfits]
      have hlen := starts_length s pos
      cases htexts : texts spec segs rest with
      | nil =>
        obtain ⟨rfl, rfl⟩ := texts_eq_nil.1 htexts
        cases ts with
        | nil =>
          refine ⟨fun _ => ?_, fun h => absurd ⟨rfl, by simp⟩ h⟩
          simp [hlen, starts, wilds]
        | cons y ys => exact ⟨fun h => absurd h.1 (by simp), fun _ => ⟨_, rfl⟩⟩
      | cons x xs =>
        cases ts with
        | nil =>
          refine ⟨fun h => ?_, fun _ => ⟨_, rfl⟩⟩
          have hnil : segs = [] ∧ rest = false := by
            have := h.1
            cases rest <;> simp_all
          rw [texts_eq_nil.2 hnil] at htexts
          cases htexts
        | cons y ys =>
          have hih := @ih (ms ++ s.starts pos) (y :: ys) (pos + t.length + 1)
            (fun h => by subst h; cases rest <;> simp_all [texts]) (fun l h => hl l (List.mem_cons_of_mem _ h)) hn.tail
            (fun x hx => ht x (List.mem_cons_of_mem _ hx)) (by simp) (by rw [List.length_append, hlen]; omega)
            (by simp only [behind, List.length_append, List.length_cons] at hpos ⊢; omega)
          rw [htexts, intercalate_behind, intercalate_behind, List.length_append, hlen, List.append_assoc,
            Nat.add_assoc] at hih
          exact hih
    · rw [if_neg hfits]
      exact ⟨fun h => absurd h.1 hfits, fun _ => ⟨ms, rfl⟩⟩

end Match

theorem mem_splitOn {d : UInt8} {xs t : List UInt8} (ht : t ∈ xs.splitOn d) : d ∉ t ∧ ∀ x ∈ t, x ∈ xs := by
  induction xs generalizing t with
  | nil =>
    rw [List.splitOn_nil, List.mem_singleton] at ht
    simp [ht]
  | cons x xs ih =>
    rw [List.splitOn_cons_eq_if_modifyHead] at ht
    split at ht
    · rcases List.mem_cons.1 ht with rfl | ht
      · simp
      · exact ⟨(ih ht).1, fun y hy => List.mem_cons_of_mem _ ((ih ht).2 y hy)⟩
    · next hx =>
      obtain ⟨y, ys, hys⟩ := List.exists_cons_of_ne_nil (List.splitOn_ne_nil d xs)
      rw [hys, List.modifyHead_cons] at ht
      rw [hys] at ih
      rcases List.mem_cons.1 ht with rfl | ht
      · obtain ⟨hd, hy⟩ := ih List.mem_cons_self
        refine ⟨?_, ?_⟩
        · simpa [hd] using fun h => hx (by simp [h])
        · intro z hz
          rcases List.mem_cons.1 hz with rfl | hz
          · exact List.mem_cons_self
          · exact List.mem_cons_of_mem _ (hy z hz)
      · obtain ⟨hd, hy⟩ := ih (List.mem_cons_of_mem _ ht)
        exact ⟨hd, fun z hz => List.mem_cons_of_mem _ (hy z hz)⟩

/-- `route_match` answers by segments what the pattern says, where no wildcard stands in front of a `[`: the number of
matches, with the path itself the first, and their places in the path. -/
theorem route_match_segments (ovf : Int → Option Int) {spec : Spec} (hs : spec.Distinct) (pat : Pattern spec)
    (hn : NoClass spec pat.segs pat.rest) (path pattern : CString) (hp : pattern.bytes = pat.text) {msize : Nat}
    (hm : wilds pat.segs pat.rest < msize) :
    (Fits pat.segs pat.rest (path.bytes.splitOn spec.div) → routeMatch ovf path pattern spec msize =
      .ok (wrapInt (1 + wilds pat.segs pat.rest : Nat),
      0 :: starts pat.rest pat.segs (path.bytes.splitOn spec.div) 0)) ∧
    (¬Fits pat.segs pat.rest (path.bytes.splitOn spec.div) →
    ∃ ms, routeMatch ovf path pattern spec msize = .ok (0, ms)) := by
  have hpath : [spec.div].intercalate (path.bytes.splitOn spec.div) = path.bytes := List.intercalate_splitOn spec.div
  have hmem : ∀ t ∈ path.bytes.splitOn spec.div, 0 ∉ t ∧ spec.div ∉ t :=
    fun t ht => ⟨fun h => path.noNul ((mem_splitOn ht).2 0 h), (mem_splitOn ht).1⟩
  have hroom : ([0] : List Nat).length + wilds pat.segs pat.rest ≤ msize := by
    rw [List.length_singleton]
    omega
  have hrun := finish_segs ovf hs pat.ne pat.plain hn hmem (List.splitOn_ne_nil _ _) hroom (Nat.zero_add _)
  rw [routeMatch_eq_finish path pattern (Nat.ne_of_gt (Nat.lt_of_le_of_lt (Nat.zero_le _) hm)), initial, hp]
  rw [hpath, List.length_append] at hrun
  exact hrun

/-- `/a/*/**` on `/a/b/c/d` with `*`, `/` and the backslash. -/
theorem route_match_segments_rest : routeMatch some ⟨lit "/a/b/c/d", by decide⟩ ⟨lit "/a/*/**", by decide⟩
    ⟨asc '*', asc '/', asc '\\'⟩ 16 = .ok (3, [0, 3, 5]) := by
  have hs : Spec.Distinct ⟨asc '*', asc '/', asc '\\'⟩ := by constructor <;> decide
  have hm : wilds [.lit [], .lit (lit "a"), .any] true < 16 := by decide
  have h := (route_match_segments some hs
    ⟨[.lit [], .lit (lit "a"), .any], true, by decide, by simp [lit, asc]⟩ ⟨by decide, by decide⟩
      ⟨lit "/a/b/c/d", by decide⟩
    ⟨lit "/a/*/**", by decide⟩ (by decide) hm).1 (by decide)
  rw [h]
  decide

/-- With the divider `[`, the pattern `*[a` is a wildcard and a class that is not closed, and with the wildcard `[`,
the pattern `[[` is. -/
theorem route_match_class :
    (Fits [.any, .lit (lit "a")] false ((lit "x[a").splitOn (asc '[')) ∧
      routeMatch some ⟨lit "x[a", by decide⟩
      ⟨[asc '['].intercalate (texts ⟨asc '*', asc '[', asc '\\'⟩ [.any, .lit (lit "a")] false), by decide⟩
        ⟨asc '*', asc '[', asc '\\'⟩ 16 = .ok (0, [0])) ∧
    (Fits [] true ((lit "x").splitOn (asc '/')) ∧
      routeMatch some ⟨lit "x", by decide⟩
        ⟨[asc '/'].intercalate (texts ⟨asc '[', asc '/', asc '\\'⟩ [] true), by decide⟩
        ⟨asc '[', asc '/', asc '\\'⟩ 16 = .ok (0, [0])) := by
  decide

end JACLibc.Route
