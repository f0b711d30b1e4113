import JACLibc.Match.Reading
import Mathlib.Algebra.BigOperators.Intervals

/-!
# Completeness of the matcher

Where `matchexec` finds the leftmost match.  The matcher does not come back to a choice inside an operand, so it finds a
match at an offset exactly when the first-choice reading from there gets to an end; and it gives up when the limits are
reached.  `FirstChoice` collects what is needed at the leftmost offset, and `matchexec_complete` is the result under
it.  `a*a` on `aa` is the smallest case in which a repetition would have to give something back.
-/

namespace JACLibc

open Language

/-- A match is found whenever there is one, and it begins at the smallest possible offset. -/
def FindsLeftmost (W : Wctype) (m : Matcher) (t : Tree) (s : List UInt8) (fl : ExecFlags) : Prop :=
  (∃ i j, Spans s (t.lang W fl.icase) i j) → ∀ (ws : Nat → Nat) (cws : Nat → Nat → Int),
    ∃ sp c, matchexec W m s fl ws cws = .ok (sp, c) ∧ Leftmost s (t.lang W fl.icase) sp.rm_so

/-- The search may try the offset `q` after all those from `g` on: the depth count and the groups stay in bounds. -/
def InBudget (W : Wctype) (t : Tree) (s : List UInt8) (ic : Bool) (g q : Nat) : Prop :=
  (∑ x ∈ Finset.Ico g q, (t.read W s ic x).visits) + (t.read W s ic q).peak ≤ MATCH_MAX_DEPTH ∧
    (t.read W s ic q).slots

/-- At the offset `p` no choice has to be taken back: the prefilter does not start behind it, the readings up to it
are in budget, and the one from it gets to an end. -/
structure FirstChoice (W : Wctype) (m : Matcher) (t : Tree) (s : List UInt8) (ic : Bool) (p : Nat) : Prop where
  reads : (t.read W s ic p).stop ≠ none
  gate : ∃ g ≤ p, matchgate m s ic (s.length + 1) 0 = some g ∧ ∀ q, g ≤ q → q ≤ p → InBudget W t s ic g q

/-- From `start`, the loop gets to `p` and finds the reading there. -/
private theorem execLoop_complete {S : Subject} {lo : Nat} {t : Tree} (h : Holds S.m.arena lo S.m.root t)
    (hun : t.unnested) {ic : Bool} {p stop : Nat} (hp : p ≤ S.s.length)
    (hleft : ∀ q < p, ∀ j, ¬Spans S.s (t.lang S.W ic) q j) (hstop : (t.read S.W S.s ic p).stop = some stop)
    (fuel start : Nat) {c : MatchCtx} (hstart : start ≤ p) (hfuel : p - start < fuel) (hic : c.ic = ic)
    (herr : c.error = .success)
    (hbudget : ∀ q, start ≤ q → q ≤ p → c.depth + ((∑ x ∈ Finset.Ico start q, (t.read S.W S.s ic x).visits) +
      (t.read S.W S.s ic q).peak) ≤ MATCH_MAX_DEPTH ∧ (t.read S.W S.s ic q).slots) :
    ∃ c', execLoop S false fuel start c = .ok (⟨p, stop⟩, c') := by
  induction fuel generalizing start c with
  | zero => omega
  | succ fuel ih =>
    obtain ⟨hpeak, hslots⟩ := hbudget start le_rfl hstart
    rw [Finset.Ico_self, Finset.sum_empty, Nat.zero_add] at hpeak
    let c1 : MatchCtx := { c with caps := fun _ => -1 }
    have hfollows := matchfind_reads h hun ic (MATCH_MAX_DEPTH + 1) c1 start hic (by omega) herr hpeak hslots
      (by simp only [c1]; omega)
    have hsound := matchfind_sound h hun (MATCH_MAX_DEPTH + 1) c1 start (by omega)
    have hdepth : ¬c.depth > MATCH_MAX_DEPTH := by omega
    unfold execLoop
    simp only [if_pos (show start ≤ S.s.length by omega), if_neg hdepth]
    rw [show ({ c with caps := fun _ => -1 } : MatchCtx) = c1 from rfl]
    generalize matchfind S (MATCH_MAX_DEPTH + 1) c1 S.m.root start = found at hfollows hsound ⊢
    obtain ⟨r, c2⟩ := found
    obtain ⟨hr, hdep2, herr2⟩ := hfollows
    simp only at hr hdep2 herr2
    have hok : ¬c2.error = .edepth := by simp [herr2]
    simp only [if_neg hok]
    rcases Nat.lt_or_eq_of_le hstart with hlt | rfl
    · cases r with
      | some e =>
        have hspan := hsound.span e rfl
        rw [show c1.ic = ic from hic] at hspan
        exact absurd hspan (hleft start hlt e)
      | none =>
        simp only [Bool.false_eq_true, if_false]
        refine ih (start + 1) hlt (by omega) (hsound.ic.trans hic) herr2 fun q hq hqp => ?_
        obtain ⟨hb, hs⟩ := hbudget q (by omega) hqp
        rw [Finset.sum_eq_sum_Ico_succ_bot (by omega)] at hb
        refine ⟨?_, hs⟩
        simp only [c1] at hdep2
        omega
    · rw [← hr] at hstop
      subst hstop
      exact ⟨c2, rfl⟩

/-- No node of a tree is an anchor. -/
private theorem Holds.not_bol {m : Matcher} {lo i : Nat} {t : Tree} (h : Holds m.arena lo i t) (hi : i ≠ 0) :
    (m.node i).type ≠ .BOL := by
  cases h with
  | empty => exact absurd rfl hi
  | char _ _ hn htype | any _ _ hn htype | cap _ _ hn htype | seq _ _ hn htype | alt _ _ hn htype
  | rep _ _ hn htype | atomic _ _ hn htype =>
    rw [Matcher.node_eq hn, htype]
    decide

/-- Completeness and the leftmost rule, for patterns without nested repetitions on subjects where the first choices
are good enough at the leftmost offset. -/
theorem matchexec_complete (pat : CString) (hpat : Plain pat.bytes) (m : Matcher)
    (hm : matchcomp pat MCOMP_EXTENDED = some (.ok m)) :
    (∃ t, Holds m.arena 1 m.root t) ∧ ∀ t, Holds m.arena 1 m.root t → t.unnested →
      ∀ (W : Wctype) (s : List UInt8) (fl : ExecFlags),
        (∀ p, Leftmost s (t.lang W fl.icase) p → FirstChoice W m t s fl.icase p) → FindsLeftmost W m t s fl := by
  obtain ⟨r, hr, htree⟩ := matchcomp_plain hpat
  rw [hm] at hr
  cases hr
  obtain ⟨hex, hicase⟩ := htree m rfl
  refine ⟨hex, fun t ht hun W s fl hfirst hsome ws cws => ?_⟩
  obtain ⟨p, hp⟩ := exists_leftmost hsome
  obtain ⟨hreads, g, hgp, hgate, hbudget⟩ := hfirst p hp
  obtain ⟨stop, hstop⟩ := Option.ne_none_iff_exists'.1 hreads
  have hanchored : decide (m.root ≠ 0 ∧ (m.node m.root).type = .BOL) = false := by
    rw [decide_eq_false_iff_not]
    exact fun h => ht.not_bol h.1 h.2
  obtain ⟨c, hc⟩ := execLoop_complete (S := ⟨W, m, s, m.eflags.newline || fl.newline, fl⟩) ht hun hp.le_length hp.2
    hstop (s.length + 1) g (c := .init fl.icase ws cws) hgp (by have := hp.le_length; omega) rfl rfl
    (fun q hgq hqp => by simpa [MatchCtx.init, InBudget] using hbudget q hgq hqp)
  refine ⟨⟨p, stop⟩, c, ?_, hp⟩
  unfold matchexec
  have hnot : ¬((m.root ≠ 0 ∧ (m.node m.root).type = .BOL) ∨ false = true) := by
    simpa using of_decide_eq_false hanchored
  simp only [hicase, Bool.false_or, if_neg hnot, hgate, hanchored]
  exact hc

/-- A pattern byte below 0x80 stands for itself. -/
private theorem ascii_mem_char (W : Wctype) (ic : Bool) {b : UInt8} (hb : b < 0x80) :
    [b] ∈ (Tree.char b.toNat).lang W ic := by
  have hnext : utf8Next [b] = (b.toNat, 1) := by rw [utf8Next, if_pos hb]
  refine ⟨List.cons_ne_nil _ _, by rw [hnext]; rfl, ?_⟩
  rw [hnext]
  simp [matchFold]

private theorem nil_mem_star (W : Wctype) (ic lazy : Bool) (mx : Nat) (t : Tree) :
    [] ∈ (Tree.rep 0 mx lazy t).lang W ic := by
  refine ⟨0, le_rfl, .inr (Nat.zero_le _), ?_⟩
  rw [pow_zero]
  exact Language.nil_mem_one

/-- `ab*` on `ab`. -/
example :
    Plain (['a', 'b', '*'].map asc) ∧ ∃ m, matchcomp ⟨['a', 'b', '*'].map asc, by decide⟩ MCOMP_EXTENDED =
    some (.ok m) ∧
      (∃ t, Holds m.arena 1 m.root t) ∧
      FindsLeftmost ⟨id, fun _ => false, fun _ _ => false⟩ m (.seq (.char 97) (.rep 0 255 false (.char 98)))
        [97, 98] MEXEC_DEFAULT := by
  have hplain : Plain (['a', 'b', '*'].map asc) := ⟨by decide +kernel, by decide⟩
  obtain ⟨m, hm, hval⟩ := exists_accepted ⟨['a', 'b', '*'].map asc, by decide⟩
    (f := fun m => (readTree m.arena 4 m.root, matchgate m [97, 98] false 3 0))
    (b := (some (.seq (.char 97) (.rep 0 255 false (.char 98))), some 0)) (by decide)
  obtain ⟨htree, hgate⟩ := Prod.mk.inj hval
  obtain ⟨hex, hcomplete⟩ := matchexec_complete ⟨['a', 'b', '*'].map asc, by decide⟩ hplain m hm
  refine ⟨hplain, m, hm, hex, hcomplete _ (readTree_holds htree) rfl _ _ _ fun p hp => ?_⟩
  have hspan : Spans [97, 98] ((Tree.seq (.char 97) (.rep 0 255 false (.char 98))).lang ⟨id, fun _ => false,
    fun _ _ => false⟩ false) 0 1 :=
    ⟨by decide, by decide,
      Language.append_mem_mul (ascii_mem_char _ _ (b := 97) (by decide)) (nil_mem_star _ _ _ _ _)⟩
  obtain rfl : p = 0 := by
    by_contra hne
    exact hp.2 0 (by omega) 1 hspan
  refine ⟨by decide, 0, le_rfl, hgate, fun q _ hq => ?_⟩
  obtain rfl : q = 0 := Nat.le_zero.1 hq
  exact ⟨by decide, by decide⟩

/-- `a*a` on `aa`: the repetition takes both bytes and gives none back. -/
theorem matchexec_incomplete_giveback :
    ∃ m, matchcomp ⟨['a', '*', 'a'].map asc, by decide⟩ MCOMP_EXTENDED = some (.ok m) ∧
      ∃ t, Holds m.arena 1 m.root t ∧
        ¬FindsLeftmost ⟨id, fun _ => false, fun _ _ => false⟩ m t [97, 97] MEXEC_DEFAULT := by
  obtain ⟨m, hm, hval⟩ := exists_accepted ⟨['a', '*', 'a'].map asc, by decide⟩
    (f := fun m => (readTree m.arena 4 m.root,
      (matchexec ⟨id, fun _ => false, fun _ _ => false⟩ m [97, 97] MEXEC_DEFAULT (fun _ => 0) (fun _ _ =>
      0)).toOption.map Prod.fst))
    (b := (some (.seq (.rep 0 255 false (.char 97)) (.char 97)), none)) (by decide)
  obtain ⟨htree, hexec⟩ := Prod.mk.inj hval
  refine ⟨m, hm, _, readTree_holds htree, fun hfinds => ?_⟩
  have hspan : Spans [97, 97] ((Tree.seq (.rep 0 255 false (.char 97)) (.char 97)).lang ⟨id, fun _ => false,
    fun _ _ => false⟩ false) 0 1 :=
    ⟨by decide, by decide,
      Language.append_mem_mul (nil_mem_star _ _ _ _ _) (ascii_mem_char _ _ (b := 97) (by decide))⟩
  obtain ⟨sp, c, hok, -⟩ := hfinds ⟨0, 1, hspan⟩ (fun _ => 0) (fun _ _ => 0)
  rw [hok] at hexec
  cases hexec

end JACLibc
