import JACLibc.Match.Sound

/-!
# First-choice readings

`Tree.read` reads a tree from a position without ever coming back to a choice: a concatenation goes on from the end
that its first operand takes first, an alternation takes the first branch that can be read, a repetition takes copies
of its body as long as they get further, and then keeps that number.  Besides the end it counts what the limits of the
matcher are about: the nodes visited, the greatest depth count needed, and whether every group visited has a capture
slot.

On a tree without nested repetitions `matchfind` answers the first-choice reading, as long as the limits are not
reached (`matchfind_reads`).
-/

namespace JACLibc

/-- `stop`: the end of the reading; `visits`: how far it raises `depth`; `peak`: the highest value, from 0, that `depth`
has to reach for it; `slots`: every group visited has a capture slot. -/
structure Reading where
  stop : Option Nat
  visits : Nat
  peak : Nat
  slots : Bool
  deriving DecidableEq, Repr

/-- The copies that a repetition takes: their ends, and the cost. -/
structure Copies where
  ends : List Nat
  visits : Nat
  peak : Nat
  slots : Bool
  deriving DecidableEq, Repr

/-- The copies of a body from `pos` on, `k` copies being taken already. -/
def readCopies (body : Nat → Reading) (mx : Nat) : Nat → Nat → Nat → Copies
  | 0, _, _ => ⟨[], 0, 0, true⟩
  | fuel + 1, k, pos =>
    if k < MATCH_MAX_BACKTRACK - 1 ∧ (mx = 255 ∨ k < mx) then
      let r := body pos
      match r.stop with
      | none => ⟨[], r.visits, r.peak, r.slots⟩
      | some next =>
        if next = pos then ⟨[], r.visits, r.peak, r.slots⟩
        else
          let cs := readCopies body mx fuel (k + 1) next
          ⟨next :: cs.ends, r.visits + cs.visits, max r.peak (r.visits + cs.peak), r.slots && cs.slots⟩
    else ⟨[], 0, 0, true⟩

namespace Tree

variable (W : Wctype) (s : List UInt8) (ic : Bool)

/-- The first-choice reading of a tree. -/
def read : Tree → Nat → Reading
  | empty, pos => ⟨some pos, 0, 1, true⟩
  | char val, pos =>
    if pos < s.length ∧ matchFold W (utf8Next (s.drop pos)).1 val ic then
      ⟨some (pos + (utf8Next (s.drop pos)).2), 1, 2, true⟩
    else ⟨none, 1, 1, true⟩
  | any dotall, pos =>
    if pos < s.length ∧ (dotall ∨ s.getD pos 0 ≠ asc '\n') then
      ⟨some (if s.getD pos 0 ≥ 0x80 then pos + 1 + ((s.drop (pos + 1)).takeWhile utf8IsCont).length else pos + 1),
        1, 2, true⟩
    else ⟨none, 1, 1, true⟩
  | cap id a, pos =>
    let r := a.read pos
    let slots := r.slots && decide (id < MATCH_MAX_GROUPS)
    match r.stop with
    | none => ⟨none, 1 + r.visits, 1 + r.peak, slots⟩
    | some stop => ⟨some stop, 1 + r.visits, max (1 + r.peak) (2 + r.visits), slots⟩
  | seq a b, pos =>
    let r := a.read pos
    match r.stop with
    | none => ⟨none, 1 + r.visits, 1 + r.peak, r.slots⟩
    | some mid =>
      let r' := b.read mid
      ⟨r'.stop, 1 + r.visits + r'.visits, max (1 + r.peak) (1 + r.visits + r'.peak), r.slots && r'.slots⟩
  | alt a b, pos =>
    let r := a.read pos
    match r.stop with
    | some stop => ⟨some stop, 1 + r.visits, 1 + r.peak, r.slots⟩
    | none =>
      let r' := b.read pos
      ⟨r'.stop, 1 + r.visits + r'.visits, max (1 + r.peak) (1 + r.visits + r'.peak), r.slots && r'.slots⟩
  | rep mn mx lazy a, pos =>
    let cs := readCopies a.read mx MATCH_MAX_BACKTRACK 0 pos
    ⟨(if cs.ends.length < mn then none else (pos :: cs.ends)[if lazy then mn else cs.ends.length]?),
      1 + cs.visits, 1 + cs.peak, cs.slots⟩
  | atomic a, pos =>
    let r := a.read pos
    ⟨r.stop, 1 + r.visits, 1 + r.peak, r.slots⟩

end Tree

/-! ### The matcher follows the reading -/

/-- The answer is the end of the reading, `depth` has risen by its visits, and there is no error. -/
structure Follows (c : MatchCtx) (r : Reading) (res : Found) : Prop where
  stop : res.1 = r.stop
  depth : res.2.depth = c.depth + r.visits
  error : res.2.error = .success

/-- `matchfind` with this fuel follows the readings of `t` at index `i`, within the limits. -/
def FollowsAt (S : Subject) (ic : Bool) (fuel i : Nat) (t : Tree) : Prop :=
  ∀ (c : MatchCtx) (pos : Nat), c.ic = ic → pos ≤ S.s.length → c.error = .success →
    c.depth + (t.read S.W S.s ic pos).peak ≤ MATCH_MAX_DEPTH → (t.read S.W S.s ic pos).slots →
    MATCH_MAX_DEPTH < fuel + c.depth → Follows c (t.read S.W S.s ic pos) (matchfind S fuel c i pos)

attribute [local simp] Tree.read in
private theorem peak_pos (W : Wctype) (s : List UInt8) (ic : Bool) (t : Tree) (pos : Nat) :
    1 ≤ (t.read W s ic pos).peak := by
  cases t with
  | empty => simp
  | char | any => simp only [Tree.read]; split <;> simp
  | cap | seq | alt =>
    simp only [Tree.read]
    split
    · exact Nat.le_add_right _ _
    · exact le_trans (Nat.le_add_right _ _) (Nat.le_max_left _ _)
  | rep | atomic => exact Nat.le_add_right _ _

private theorem followsAt_zero (S : Subject) (ic : Bool) (fuel : Nat) : FollowsAt S ic fuel 0 .empty := by
  intro c pos _ _ herr hpeak _ hfuel
  simp only [Tree.read] at hpeak
  obtain ⟨fuel, rfl⟩ : ∃ k, fuel = k + 1 := ⟨fuel - 1, by omega⟩
  rw [matchfind, if_neg (by omega), if_pos rfl]
  exact ⟨rfl, rfl, herr⟩

/-- Past the depth check of a node; `c` has the raised count. -/
private theorem followsAt_of_node {S : Subject} {ic : Bool} {i : Nat} {t : Tree} (hi : 0 < i)
    (h : ∀ (fuel : Nat) (c c0 : MatchCtx) (pos : Nat), c.ic = ic → pos ≤ S.s.length → c.error = .success →
      c.depth = c0.depth + 1 → c0.depth + (t.read S.W S.s ic pos).peak ≤ MATCH_MAX_DEPTH →
      (t.read S.W S.s ic pos).slots → MATCH_MAX_DEPTH < fuel + c.depth →
      Follows c0 (t.read S.W S.s ic pos) (matchNode S (matchfind S fuel) c i pos)) (fuel : Nat) :
    FollowsAt S ic fuel i t := by
  intro c pos hic hpos herr hpeak hslots hfuel
  have h1 := peak_pos S.W S.s ic t pos
  obtain ⟨fuel, rfl⟩ : ∃ k, fuel = k + 1 := ⟨fuel - 1, by omega⟩
  rw [matchfind, if_neg (by omega), if_neg hi.ne']
  exact h fuel _ c pos hic hpos herr rfl hpeak hslots (by simp only; omega)

/-- A node that has done its own step goes on at index 0. -/
private theorem follows_of_zero {S : Subject} {ic : Bool} {fuel next visits peak : Nat} {slots : Bool} {c c0 : MatchCtx}
    (hic : c.ic = ic) (hnext : next ≤ S.s.length) (herr : c.error = .success) (hdepth : c.depth = c0.depth + visits)
    (hpeak : c.depth + 1 ≤ MATCH_MAX_DEPTH) (hfuel : MATCH_MAX_DEPTH < fuel + c.depth) :
    Follows c0 ⟨some next, visits, peak, slots⟩ (matchfind S fuel c 0 next) := by
  have h := followsAt_zero S ic fuel c next hic hnext herr hpeak rfl hfuel
  exact ⟨h.stop, h.depth.trans hdepth, h.error⟩

private theorem anyEnd_le {s : List UInt8} {pos : Nat} (hpos : pos < s.length) :
    (if s.getD pos 0 ≥ 0x80 then pos + 1 + ((s.drop (pos + 1)).takeWhile utf8IsCont).length else pos + 1) ≤
      s.length := by
  have hle := (List.takeWhile_prefix utf8IsCont (l := s.drop (pos + 1))).length_le
  rw [List.length_drop] at hle
  split <;> omega

private theorem char_follows {S : Subject} {ic : Bool} {fuel pos : Nat} {n : MatchNode} {c c0 : MatchCtx} (hb : n.b = 0)
    (hic : c.ic = ic) (herr : c.error = .success) (hdepth : c.depth = c0.depth + 1)
    (hpeak : c0.depth + ((Tree.char n.val).read S.W S.s ic pos).peak ≤ MATCH_MAX_DEPTH)
    (hfuel : MATCH_MAX_DEPTH < fuel + c.depth) :
    Follows c0 ((Tree.char n.val).read S.W S.s ic pos) (primChar S (matchfind S fuel) c n pos) := by
  rw [primChar_eq, hb, hic]
  simp only [Tree.read] at hpeak ⊢
  by_cases hpos : pos < S.s.length
  · have hge : ¬pos ≥ S.s.length := by omega
    cases hfold : matchFold S.W (utf8Next (S.s.drop pos)).1 n.val ic with
    | true =>
      simp only [hpos, hfold, and_self, if_true] at hpeak
      simp only [hpos, hfold, and_self, if_true, if_neg hge, Subject.from]
      have hread := @utf8Next_read (S.s.drop pos) (by simpa using hpos)
      rw [List.length_drop] at hread
      refine follows_of_zero hic ?_ herr hdepth ?_ hfuel
      · omega
      · omega
    | false =>
      simp only [hfold, Bool.false_eq_true, and_false, if_false, if_neg hge, Subject.from]
      exact ⟨rfl, hdepth, herr⟩
  · have hge : pos ≥ S.s.length := by omega
    simp only [hpos, false_and, if_false, if_pos hge]
    exact ⟨rfl, hdepth, herr⟩

private theorem any_follows {S : Subject} {ic : Bool} {fuel pos : Nat} {n : MatchNode} {c c0 : MatchCtx} (hb : n.b = 0)
    (hic : c.ic = ic) (herr : c.error = .success) (hdepth : c.depth = c0.depth + 1)
    (hpeak : c0.depth + ((Tree.any n.eflags.dotall).read S.W S.s ic pos).peak ≤ MATCH_MAX_DEPTH)
    (hfuel : MATCH_MAX_DEPTH < fuel + c.depth) :
    Follows c0 ((Tree.any n.eflags.dotall).read S.W S.s ic pos) (primAny S (matchfind S fuel) c n pos) := by
  simp only [primAny, hb]
  simp only [Tree.read] at hpeak ⊢
  by_cases hpos : pos < S.s.length
  · have hge : ¬pos ≥ S.s.length := by omega
    by_cases hdot : n.eflags.dotall = true ∨ S.s.getD pos 0 ≠ asc '\n'
    · have hcond := And.intro hpos hdot
      have hnl : ¬(¬n.eflags.dotall = true ∧ S.byte pos = asc '\n') := by
        rintro ⟨h1, h2⟩
        exact hdot.elim h1 fun h => h h2
      simp only [if_pos hcond] at hpeak
      simp only [if_pos hcond, if_neg hge, if_neg hnl]
      exact follows_of_zero hic (anyEnd_le hpos) herr hdepth (by omega) hfuel
    · have hcond : ¬(pos < S.s.length ∧ (n.eflags.dotall = true ∨ S.s.getD pos 0 ≠ asc '\n')) := fun h => hdot h.2
      have hnl : ¬n.eflags.dotall = true ∧ S.byte pos = asc '\n' := by
        rw [not_or, not_not] at hdot
        exact hdot
      simp only [if_neg hcond, if_neg hge, if_pos hnl]
      exact ⟨rfl, hdepth, herr⟩
  · have hge : pos ≥ S.s.length := by omega
    simp only [hpos, false_and, if_false, if_pos hge]
    exact ⟨rfl, hdepth, herr⟩

/-- A call of `matchfind` on an operand, with what its soundness says. -/
private theorem follows_operand {S : Subject} {ic : Bool} {fuel i pos : Nat} {t : Tree}
    (hsound : SoundFinder S (matchfind S fuel) i t) (h : FollowsAt S ic fuel i t) {c : MatchCtx} (hic : c.ic = ic)
    (hpos : pos ≤ S.s.length) (herr : c.error = .success)
    (hpeak : c.depth + (t.read S.W S.s ic pos).peak ≤ MATCH_MAX_DEPTH) (hslots : (t.read S.W S.s ic pos).slots)
    (hfuel : MATCH_MAX_DEPTH < fuel + c.depth) :
    ∃ c', matchfind S fuel c i pos = ((t.read S.W S.s ic pos).stop, c') ∧
      c'.depth = c.depth + (t.read S.W S.s ic pos).visits ∧ c'.error = .success ∧ c'.ic = ic ∧
      (t.repFree → c'.path = c.path) ∧ ∀ e, (t.read S.W S.s ic pos).stop = some e → pos ≤ e ∧ e ≤ S.s.length := by
  have h1 := h c pos hic hpos herr hpeak hslots hfuel
  have h2 := hsound c pos hpos
  refine ⟨(matchfind S fuel c i pos).2, Prod.ext h1.stop rfl, h1.depth, h1.error, h2.ic.trans hic, h2.path, ?_⟩
  intro e he
  obtain ⟨hle, hend, -⟩ := h2.span e (h1.stop.trans he)
  exact ⟨hle, hend⟩

private theorem cap_follows {S : Subject} {ic : Bool} {fuel pos : Nat} {n : MatchNode} {ta : Tree} (hb : n.b = 0)
    (hsound : SoundFinder S (matchfind S fuel) n.a ta) (ha : FollowsAt S ic fuel n.a ta) {c c0 : MatchCtx}
    (hic : c.ic = ic) (hpos : pos ≤ S.s.length) (herr : c.error = .success) (hdepth : c.depth = c0.depth + 1)
    (hpeak : c0.depth + ((Tree.cap n.capId ta).read S.W S.s ic pos).peak ≤ MATCH_MAX_DEPTH)
    (hslots : ((Tree.cap n.capId ta).read S.W S.s ic pos).slots) (hfuel : MATCH_MAX_DEPTH < fuel + c.depth) :
    Follows c0 ((Tree.cap n.capId ta).read S.W S.s ic pos) (primCap (matchfind S fuel) c n pos) := by
  have hslots' : (ta.read S.W S.s ic pos).slots ∧ n.capId < MATCH_MAX_GROUPS := by
    simp only [Tree.read] at hslots
    split at hslots <;> simpa using hslots
  have hidx : ¬n.capId * 2 + 1 ≥ MATCH_MAX_GROUPS * 2 := by omega
  have hpeak1 : c.depth + (ta.read S.W S.s ic pos).peak ≤ MATCH_MAX_DEPTH := by
    simp only [Tree.read] at hpeak
    split at hpeak <;> simp only at hpeak <;> omega
  obtain ⟨c1, hfind, hdep1, herr1, hic1, -, hend⟩ := follows_operand hsound ha
    (c := { c with caps := Function.update c.caps (n.capId * 2) pos }) hic hpos herr hpeak1 hslots'.1 hfuel
  simp only at hdep1
  simp only [primCap, hb, if_neg hidx, hfind]
  simp only [Tree.read] at hpeak ⊢
  cases hstop : (ta.read S.W S.s ic pos).stop with
  | none => exact ⟨rfl, by simp only [setCap]; omega, herr1⟩
  | some e =>
    simp only [hstop] at hpeak
    have hok : ¬c1.error ≠ .success := by simp [herr1]
    simp only [if_neg hok]
    have hzero := followsAt_zero S ic fuel { c1 with caps := Function.update c1.caps (n.capId * 2 + 1) e } e hic1
      (hend e hstop).2 herr1 (by simp only [Tree.read]; omega) rfl (by simp only; omega)
    generalize matchfind S fuel _ 0 e = res at hzero ⊢
    obtain ⟨stop, c2⟩ := res
    obtain ⟨hstop2, hdep2, herr2⟩ := hzero
    simp only [Tree.read] at hstop2 hdep2
    subst hstop2
    exact ⟨rfl, by simp only; omega, herr2⟩

private theorem seq_follows {S : Subject} {ic : Bool} {fuel pos a b : Nat} {ta tb : Tree}
    (hsound : SoundFinder S (matchfind S fuel) a ta) (ha : FollowsAt S ic fuel a ta)
    (hb : FollowsAt S ic fuel b tb) {c c0 : MatchCtx} (hic : c.ic = ic) (hpos : pos ≤ S.s.length)
    (herr : c.error = .success) (hdepth : c.depth = c0.depth + 1)
    (hpeak : c0.depth + ((Tree.seq ta tb).read S.W S.s ic pos).peak ≤ MATCH_MAX_DEPTH)
    (hslots : ((Tree.seq ta tb).read S.W S.s ic pos).slots) (hfuel : MATCH_MAX_DEPTH < fuel + c.depth) :
    Follows c0 ((Tree.seq ta tb).read S.W S.s ic pos) (match matchfind S fuel c a pos with
      | (none, c) => (none, c)
      | (some r, c) => if c.error ≠ .success then (none, c) else matchfind S fuel c b r) := by
  simp only [Tree.read] at hpeak hslots ⊢
  cases hstop : (ta.read S.W S.s ic pos).stop with
  | none =>
    simp only [hstop] at hpeak hslots
    obtain ⟨c1, hfind, hdep1, herr1, -⟩ := follows_operand hsound ha hic hpos herr (by omega) hslots hfuel
    simp only [hfind, hstop]
    exact ⟨rfl, by simp only; omega, herr1⟩
  | some mid =>
    simp only [hstop, Bool.and_eq_true] at hpeak hslots
    obtain ⟨c1, hfind, hdep1, herr1, hic1, -, hend⟩ :=
      follows_operand hsound ha hic hpos herr (by omega) hslots.1 hfuel
    have hok : ¬c1.error ≠ .success := by simp [herr1]
    simp only [hfind, hstop, if_neg hok]
    have h2 := hb c1 mid hic1 (hend mid hstop).2 herr1 (by omega) hslots.2 (by omega)
    have hdep2 := h2.depth
    exact ⟨h2.stop, by simp only; omega, h2.error⟩

private theorem alt_follows {S : Subject} {ic : Bool} {fuel pos : Nat} {n : MatchNode} {ta tb : Tree}
    (hsound : SoundFinder S (matchfind S fuel) n.a ta) (ha : FollowsAt S ic fuel n.a ta)
    (hb : FollowsAt S ic fuel n.b tb) {c c0 : MatchCtx} (hic : c.ic = ic) (hpos : pos ≤ S.s.length)
    (herr : c.error = .success) (hdepth : c.depth = c0.depth + 1)
    (hpeak : c0.depth + ((Tree.alt ta tb).read S.W S.s ic pos).peak ≤ MATCH_MAX_DEPTH)
    (hslots : ((Tree.alt ta tb).read S.W S.s ic pos).slots) (hfuel : MATCH_MAX_DEPTH < fuel + c.depth) :
    Follows c0 ((Tree.alt ta tb).read S.W S.s ic pos) (primAlt (matchfind S fuel) c n pos) := by
  simp only [Tree.read] at hpeak hslots ⊢
  unfold primAlt
  cases hstop : (ta.read S.W S.s ic pos).stop with
  | some stop =>
    simp only [hstop] at hpeak hslots
    obtain ⟨c1, hfind, hdep1, herr1, -⟩ := follows_operand hsound ha hic hpos herr (by omega) hslots hfuel
    simp only [hfind, hstop]
    exact ⟨rfl, by simp only; omega, herr1⟩
  | none =>
    simp only [hstop, Bool.and_eq_true] at hpeak hslots
    obtain ⟨c1, hfind, hdep1, herr1, hic1, -⟩ :=
      follows_operand hsound ha hic hpos herr (by omega) hslots.1 hfuel
    have hok : ¬c1.error = .edepth := by simp [herr1]
    simp only [hfind, hstop, if_neg hok]
    have h2 := hb { c1 with caps := c.caps } pos hic1 hpos herr1 (by simp only; omega) hslots.2 (by simp only; omega)
    have hdep2 := h2.depth
    simp only at hdep2
    exact ⟨h2.stop, by simp only; omega, h2.error⟩

private theorem atomic_follows {S : Subject} {ic : Bool} {fuel pos : Nat} {n : MatchNode} {ta : Tree} (hb : n.b = 0)
    (hsound : SoundFinder S (matchfind S fuel) n.a ta) (ha : FollowsAt S ic fuel n.a ta) {c c0 : MatchCtx}
    (hic : c.ic = ic) (hpos : pos ≤ S.s.length) (herr : c.error = .success) (hdepth : c.depth = c0.depth + 1)
    (hpeak : c0.depth + ((Tree.atomic ta).read S.W S.s ic pos).peak ≤ MATCH_MAX_DEPTH)
    (hslots : ((Tree.atomic ta).read S.W S.s ic pos).slots) (hfuel : MATCH_MAX_DEPTH < fuel + c.depth) :
    Follows c0 ((Tree.atomic ta).read S.W S.s ic pos) (primAtomic (matchfind S fuel) c n pos) := by
  simp only [Tree.read] at hpeak hslots ⊢
  obtain ⟨c1, hfind, hdep1, herr1, -⟩ := follows_operand hsound ha hic hpos herr (by omega) hslots hfuel
  simp only [primAtomic, hb, hfind]
  cases hstop : (ta.read S.W S.s ic pos).stop with
  | none => exact ⟨rfl, by simp only; omega, herr1⟩
  | some e =>
    have hok : ¬c1.error ≠ .success := by simp [herr1]
    simp only [if_neg hok, ne_eq, not_true, if_false]
    exact ⟨rfl, by simp only; omega, herr1⟩

/-- The first copy of a reading costs no more than all of them. -/
private theorem readCopies_first {body : Nat → Reading} {mx turns k pos : Nat}
    (hcond : k < MATCH_MAX_BACKTRACK - 1 ∧ (mx = 255 ∨ k < mx)) :
    (body pos).peak ≤ (readCopies body mx (turns + 1) k pos).peak ∧
      ((readCopies body mx (turns + 1) k pos).slots → (body pos).slots) := by
  simp only [readCopies, if_pos hcond]
  split
  · exact ⟨le_rfl, id⟩
  · split
    · exact ⟨le_rfl, id⟩
    · exact ⟨Nat.le_max_left _ _, fun h => (Bool.and_eq_true _ _ ▸ h).1⟩

/-- `path` holds the start and the ends of the copies from `k` on, and the entries up to `k` are those of `old`. -/
private def Stored (path old : Nat → Nat) (k : Nat) (ends : List Nat) : Prop :=
  (∀ j ≤ k, path j = old j) ∧ ∀ j ≤ ends.length, (old k :: ends)[j]? = some (path (k + j))

private theorem stored_nil {path old : Nat → Nat} (k : Nat) (h : path = old) : Stored path old k [] := by
  subst h
  refine ⟨fun _ _ => rfl, fun j hj => ?_⟩
  obtain rfl : j = 0 := Nat.le_zero.1 hj
  rfl

private theorem stored_cons {path old : Nat → Nat} {k next : Nat} {ends : List Nat}
    (h : Stored path (Function.update old (k + 1) next) (k + 1) ends) : Stored path old k (next :: ends) := by
  have hold : ∀ j ≤ k, path j = old j := by
    intro j hj
    rw [h.1 j (by omega), Function.update_of_ne (by omega)]
  refine ⟨hold, fun j hj => ?_⟩
  cases j with
  | zero => rw [Nat.add_zero, hold k le_rfl]; rfl
  | succ j =>
    have hj' := h.2 j (by simpa using hj)
    rw [Function.update_self] at hj'
    rw [List.getElem?_cons_succ, hj', show k + 1 + j = k + (j + 1) by omega]

/-- The first loop of a repetition takes the copies of the reading and stores their ends. -/
private theorem repLoop_follows {S : Subject} {ic : Bool} {fuel : Nat} {n : MatchNode} {ta : Tree}
    (hsound : SoundFinder S (matchfind S fuel) n.a ta) (ha : FollowsAt S ic fuel n.a ta) (hfree : ta.repFree)
    (turns k : Nat) {c : MatchCtx} (hic : c.ic = ic) (hpos : c.path k ≤ S.s.length) (herr : c.error = .success)
    (hpeak : c.depth + (readCopies (ta.read S.W S.s ic) n.max turns k (c.path k)).peak ≤ MATCH_MAX_DEPTH)
    (hslots : (readCopies (ta.read S.W S.s ic) n.max turns k (c.path k)).slots)
    (hfuel : MATCH_MAX_DEPTH < fuel + c.depth) :
    ∃ c', repLoop (matchfind S fuel) n turns k c =
        (k + (readCopies (ta.read S.W S.s ic) n.max turns k (c.path k)).ends.length, c') ∧
      c'.depth = c.depth + (readCopies (ta.read S.W S.s ic) n.max turns k (c.path k)).visits ∧
      c'.error = .success ∧
      Stored c'.path c.path k (readCopies (ta.read S.W S.s ic) n.max turns k (c.path k)).ends := by
  induction turns generalizing k c with
  | zero => exact ⟨c, rfl, rfl, herr, stored_nil k rfl⟩
  | succ turns ih =>
    by_cases hcond : k < MATCH_MAX_BACKTRACK - 1 ∧ (n.max = 255 ∨ k < n.max)
    · obtain ⟨hfirst, hfirst'⟩ := @readCopies_first (ta.read S.W S.s ic) n.max turns k (c.path k) hcond
      let c1 : MatchCtx := { c with cpath := Function.update c.cpath (k + 1) c.caps }
      obtain ⟨c2, hfind, hdep2, herr2, hic2, hpath2, hend⟩ :=
        follows_operand hsound ha (c := c1) hic hpos herr (by simp only [c1]; omega) (hfirst' hslots) hfuel
      have hpath2' : c2.path = c.path := hpath2 hfree
      simp only [c1] at hdep2 hfind
      unfold repLoop
      simp only [readCopies, if_pos hcond, hfind] at hpeak hslots ⊢
      cases hs : (ta.read S.W S.s ic (c.path k)).stop with
      | none => exact ⟨c2, rfl, hdep2, herr2, stored_nil k hpath2'⟩
      | some next =>
        simp only [hs] at hpeak hslots
        simp only [hpath2']
        by_cases hnext : next = c.path k
        · simp only [if_pos hnext] at hpeak hslots ⊢
          exact ⟨c2, rfl, hdep2, herr2, stored_nil k hpath2'⟩
        · simp only [if_neg hnext, Bool.and_eq_true] at hpeak hslots ⊢
          let c3 : MatchCtx := { c2 with
            path := Function.update c.path (k + 1) next, cpath := Function.update c2.cpath (k + 1) c2.caps }
          have hc3 : c3.path (k + 1) = next := Function.update_self _ _ _
          have hdep3 : c3.depth = c2.depth := rfl
          obtain ⟨c4, hloop, hdep4, herr4, hstored⟩ := @ih (k + 1) c3 hic2 (by rw [hc3]; exact (hend next hs).2) herr2
            (by rw [hc3]; omega) (by rw [hc3]; exact hslots.2) (by omega)
          rw [hc3] at hloop hdep4 hstored
          refine ⟨c4, ?_, by omega, herr4, stored_cons hstored⟩
          rw [show repLoop (matchfind S fuel) n turns (k + 1) _ = _ from hloop, List.length_cons]
          congr 1
          omega
    · simp only [readCopies, if_neg hcond, repLoop]
      exact ⟨c, rfl, rfl, herr, stored_nil k rfl⟩

private theorem head?_repOrder (lazy : Bool) {mn k : Nat} (h : mn ≤ k) :
    ∃ is, repOrder lazy mn k = (if lazy then mn else k) :: is := by
  obtain ⟨d, rfl⟩ := Nat.exists_eq_add_of_le h
  rw [repOrder, show mn + d + 1 - mn = d + 1 by omega]
  cases lazy with
  | true => exact ⟨_, List.range'_succ⟩
  | false =>
    rw [List.range'_concat]
    simp

private theorem rep_follows {S : Subject} {ic : Bool} {fuel pos : Nat} {n : MatchNode} {ta : Tree} (hb : n.b = 0)
    (hsound : SoundFinder S (matchfind S fuel) n.a ta) (ha : FollowsAt S ic fuel n.a ta) (hfree : ta.repFree)
    {c c0 : MatchCtx} (hic : c.ic = ic) (hpos : pos ≤ S.s.length) (herr : c.error = .success)
    (hdepth : c.depth = c0.depth + 1)
    (hpeak : c0.depth + ((Tree.rep n.min n.max n.lazy ta).read S.W S.s ic pos).peak ≤ MATCH_MAX_DEPTH)
    (hslots : ((Tree.rep n.min n.max n.lazy ta).read S.W S.s ic pos).slots)
    (hfuel : MATCH_MAX_DEPTH < fuel + c.depth) :
    Follows c0 ((Tree.rep n.min n.max n.lazy ta).read S.W S.s ic pos) (primRep (matchfind S fuel) c n pos) := by
  let c1 : MatchCtx := { c with path := Function.update c.path 0 pos, cpath := Function.update c.cpath 0 c.caps }
  have hc1 : c1.path 0 = pos := by simp only [c1, Function.update_self]
  simp only [Tree.read] at hpeak hslots ⊢
  obtain ⟨c2, hloop, hdep2, herr2, hold, hstored⟩ := repLoop_follows hsound ha hfree MATCH_MAX_BACKTRACK 0 (c := c1) hic
    (by rw [hc1]; exact hpos) herr (by rw [hc1]; simp only [c1]; omega) (by rw [hc1]; exact hslots) hfuel
  rw [hc1, Nat.zero_add] at hloop
  rw [hc1] at hdep2 hstored
  have heq : primRep (matchfind S fuel) c n pos = repTry (matchfind S fuel) n
      (repOrder n.lazy n.min (repLoop (matchfind S fuel) n MATCH_MAX_BACKTRACK 0 c1).1)
      (repLoop (matchfind S fuel) n MATCH_MAX_BACKTRACK 0 c1).2 := rfl
  rw [heq, hloop, repTry_eq hb]
  generalize readCopies (ta.read S.W S.s ic) n.max MATCH_MAX_BACKTRACK 0 pos = cs at *
  have hdep3 : c2.depth = c0.depth + (1 + cs.visits) := by
    simp only [c1] at hdep2
    omega
  by_cases hmin : cs.ends.length < n.min
  · have hnil : repOrder n.lazy n.min cs.ends.length = [] := by
      rw [List.eq_nil_iff_forall_not_mem]
      intro i hi
      rw [mem_repOrder] at hi
      omega
    simp only [hnil, if_pos hmin]
    exact ⟨rfl, hdep3, herr2⟩
  · obtain ⟨is, his⟩ := head?_repOrder n.lazy (Nat.not_lt.1 hmin)
    simp only [his, if_neg hmin]
    refine ⟨?_, hdep3, herr2⟩
    simp only
    rw [hstored (if n.lazy then n.min else cs.ends.length) (by split <;> omega), Nat.zero_add]

/-- Within the limits, `matchfind` answers the first-choice reading of a tree without nested repetitions. -/
theorem matchfind_reads {S : Subject} {lo i : Nat} {t : Tree} (h : Holds S.m.arena lo i t) (hun : t.unnested)
    (ic : Bool) (fuel : Nat) : FollowsAt S ic fuel i t := by
  induction h generalizing fuel with
  | empty => exact followsAt_zero S ic fuel
  | char hi _ hn htype _ hb =>
    refine followsAt_of_node hi (fun fuel c c0 pos hic hpos herr hdepth hpeak hslots hfuel => ?_) fuel
    simp only [matchNode, Matcher.node_eq hn, htype]
    exact char_follows hb hic herr hdepth hpeak hfuel
  | any hi _ hn htype _ hb =>
    refine followsAt_of_node hi (fun fuel c c0 pos hic hpos herr hdepth hpeak hslots hfuel => ?_) fuel
    simp only [matchNode, Matcher.node_eq hn, htype]
    exact any_follows hb hic herr hdepth hpeak hfuel
  | cap hi _ hn htype _ hb ha ih =>
    refine followsAt_of_node hi (fun fuel c c0 pos hic hpos herr hdepth hpeak hslots hfuel => ?_) fuel
    simp only [matchNode, Matcher.node_eq hn, htype]
    exact cap_follows hb (matchfind_sound ha hun fuel) (ih hun fuel) hic hpos herr hdepth hpeak hslots hfuel
  | seq hi _ hn htype _ ha hb hseq iha ihb =>
    rw [Tree.unnested, Bool.and_eq_true] at hun
    refine followsAt_of_node hi (fun fuel c c0 pos hic hpos herr hdepth hpeak hslots hfuel => ?_) fuel
    have hnode := Matcher.node_eq hn
    simp only [matchNode, hnode, htype]
    rw [primSeq_eq hi.ne' (by rw [hnode, htype]) (by rw [hnode]; exact hb.operand hseq), hnode]
    exact seq_follows (matchfind_sound ha hun.1 fuel) (iha hun.1 fuel) (ihb hun.2 fuel) hic hpos herr hdepth hpeak
      hslots hfuel
  | alt hi _ hn htype _ ha _ iha ihb =>
    rw [Tree.unnested, Bool.and_eq_true] at hun
    refine followsAt_of_node hi (fun fuel c c0 pos hic hpos herr hdepth hpeak hslots hfuel => ?_) fuel
    simp only [matchNode, Matcher.node_eq hn, htype]
    exact alt_follows (matchfind_sound ha hun.1 fuel) (iha hun.1 fuel) (ihb hun.2 fuel) hic hpos herr hdepth hpeak
      hslots hfuel
  | rep hi _ hn htype _ hb ha ih =>
    have hun' := Tree.unnested_of_repFree hun
    refine followsAt_of_node hi (fun fuel c c0 pos hic hpos herr hdepth hpeak hslots hfuel => ?_) fuel
    simp only [matchNode, Matcher.node_eq hn, htype]
    exact rep_follows hb (matchfind_sound ha hun' fuel) (ih hun' fuel) hun hic hpos herr hdepth hpeak hslots hfuel
  | atomic hi _ hn htype _ hb ha ih =>
    refine followsAt_of_node hi (fun fuel c c0 pos hic hpos herr hdepth hpeak hslots hfuel => ?_) fuel
    simp only [matchNode, Matcher.node_eq hn, htype]
    exact atomic_follows hb (matchfind_sound ha hun fuel) (ih hun fuel) hic hpos herr hdepth hpeak hslots hfuel

end JACLibc
