import JACLibc.Lib.Span
import JACLibc.Match.CompileSpec
import JACLibc.Match.Exec
import Mathlib.Data.List.TakeWhile

/-!
# Soundness of the matcher

When `matchfind` answers an end position on a tree in which no repetition stands inside another, the part of the
subject it walked over is in the language of the tree (`matchfind_sound`).  The repetitions all use one workspace, and
the body of an unnested repetition leaves it alone; a nested one overwrites the ends that the outer one goes back to,
and `matchexec_unsound_nested` shows a span that is not in the language.
-/

namespace JACLibc

open Language

/-- What a call on a node that holds `t` leaves and answers. -/
structure SoundAt (S : Subject) (t : Tree) (c : MatchCtx) (pos : Nat) (r : Found) : Prop where
  ic : r.2.ic = c.ic
  path : t.repFree → r.2.path = c.path
  span : ∀ stop, r.1 = some stop → Spans S.s (t.lang S.W c.ic) pos stop

/-- The same for a matcher at a node, whatever the context and the position. -/
def SoundFinder (S : Subject) (find : Finder) (n : Nat) (t : Tree) : Prop :=
  ∀ c pos, pos ≤ S.s.length → SoundAt S t c pos (find c n pos)

/-- An answer without a match that keeps the case flag and the workspace. -/
private theorem SoundAt.fail {S : Subject} {t : Tree} {c c' : MatchCtx} {pos : Nat} (hic : c'.ic = c.ic)
    (hpath : t.repFree → c'.path = c.path) : SoundAt S t c pos (none, c') :=
  ⟨hic, hpath, fun _ h => nomatch h⟩

/-- Nothing follows at index 0. -/
private theorem matchfind_zero (S : Subject) (fuel : Nat) : SoundFinder S (matchfind S fuel) 0 .empty := by
  intro c pos hpos
  cases fuel with
  | zero => exact .fail rfl fun _ => rfl
  | succ fuel =>
    unfold matchfind
    split
    · exact .fail rfl fun _ => rfl
    · refine ⟨rfl, fun _ => rfl, fun stop h => ?_⟩
      cases h
      exact Spans.one hpos

/-- After the last of its own steps a node goes on at index 0. -/
private theorem soundAt_of_zero {S : Subject} {find : Finder} {t : Tree} {c c' : MatchCtx} {pos next : Nat}
    (hzero : SoundFinder S find 0 .empty) (hic : c'.ic = c.ic) (hpath : t.repFree → c'.path = c.path)
    (hspan : Spans S.s (t.lang S.W c.ic) pos next) : SoundAt S t c pos (find c' 0 next) := by
  have h := hzero c' next hspan.2.1
  refine ⟨h.ic.trans hic, fun hfree => (h.path rfl).trans (hpath hfree), fun stop hstop => ?_⟩
  have hmul := hspan.mul (h.span stop hstop)
  rwa [Tree.lang, mul_one] at hmul

/-! ### Single characters -/

private theorem utf8Cont_take (cp len : Nat) (bs : List UInt8) :
    utf8Cont cp len (bs.take (utf8Cont cp len bs).2) = utf8Cont cp len bs := by
  induction bs generalizing cp len with
  | nil => simp
  | cons b bs ih =>
    cases len with
    | zero => simp [utf8Cont]
    | succ len => simp [utf8Cont, ih]

/-- The bytes the decoder reads are read in the same way when nothing follows them. -/
private theorem utf8Next_take {bs : List UInt8} : utf8Next (bs.take (utf8Next bs).2) = utf8Next bs := by
  cases bs with
  | nil => rfl
  | cons b bs =>
    by_cases h1 : b < 0x80
    · simp only [utf8Next, if_pos h1, List.take_succ_cons]
    by_cases h2 : b &&& 0xE0 = 0xC0
    · simp only [utf8Next, if_neg h1, if_pos h2, List.take_succ_cons, utf8Cont_take]
    by_cases h3 : b &&& 0xF0 = 0xE0
    · simp only [utf8Next, if_neg h1, if_neg h2, if_pos h3, List.take_succ_cons, utf8Cont_take]
    by_cases h4 : b &&& 0xF8 = 0xF0
    · simp only [utf8Next, if_neg h1, if_neg h2, if_neg h3, if_pos h4, List.take_succ_cons, utf8Cont_take]
    · simp only [utf8Next, if_neg h1, if_neg h2, if_neg h3, if_neg h4, List.take_succ_cons, List.take_length]

private theorem spans_from {S : Subject} {L : Language UInt8} {pos len : Nat} (hlen : pos + len ≤ S.s.length)
    (h : (S.from pos).take len ∈ L) : Spans S.s L pos (pos + len) := by
  refine ⟨Nat.le_add_right _ _, hlen, ?_⟩
  rwa [List.drop_take, Nat.add_sub_cancel_left]

private theorem from_ne_nil {S : Subject} {pos : Nat} (h : pos < S.s.length) : S.from pos ≠ [] := by
  intro hnil
  have hlen := congrArg List.length hnil
  simp only [Subject.from, List.length_drop, List.length_nil] at hlen
  omega

private theorem from_eq_cons {S : Subject} {pos : Nat} (h : pos < S.s.length) :
    S.from pos = S.byte pos :: S.from (pos + 1) := by
  rw [Subject.from, Subject.from, Subject.byte, List.drop_eq_getElem_cons h, List.getD_eq_getElem?_getD,
    List.getElem?_eq_getElem h, Option.getD_some]

/-- The ASCII branch of `__jacl_prim_CHAR` does what the decoder does. -/
theorem primChar_eq (S : Subject) (find : Finder) (c : MatchCtx) (n : MatchNode) (pos : Nat) :
    primChar S find c n pos = if pos ≥ S.s.length then (none, c)
      else if matchFold S.W (utf8Next (S.from pos)).1 n.val c.ic then find c n.b (pos + (utf8Next (S.from pos)).2)
      else (none, c) := by
  unfold primChar
  split
  · rfl
  · rename_i hpos
    split
    · rename_i hascii
      have hnext : utf8Next (S.from pos) = ((S.byte pos).toNat, 1) := by
        rw [from_eq_cons (by omega), utf8Next, if_pos hascii]
      rw [hnext]
    · rfl

private theorem primChar_sound {S : Subject} {find : Finder} (hzero : SoundFinder S find 0 .empty) {n : MatchNode}
    (hb : n.b = 0) {c c0 : MatchCtx} {pos : Nat} (hic : c.ic = c0.ic) (hpath : c.path = c0.path) :
    SoundAt S (.char n.val) c0 pos (primChar S find c n pos) := by
  rw [primChar_eq, hb]
  split
  · exact .fail hic fun _ => hpath
  · rename_i hpos
    have hne := @from_ne_nil S pos (by omega)
    obtain ⟨hread, hle⟩ := utf8Next_read hne
    split
    · rename_i hfold
      refine soundAt_of_zero hzero hic (fun _ => hpath) (spans_from ?_ ⟨?_, ?_, ?_⟩)
      · simp only [Subject.from, List.length_drop] at hle ⊢
        omega
      · rw [ne_eq, List.take_eq_nil_iff, not_or]
        exact ⟨by omega, hne⟩
      · rw [utf8Next_take, List.length_take, Nat.min_eq_left hle]
      · rw [utf8Next_take, ← hic]
        exact hfold
    · exact .fail hic fun _ => hpath

private theorem primAny_sound {S : Subject} {find : Finder} (hzero : SoundFinder S find 0 .empty) {n : MatchNode}
    (hb : n.b = 0) {c c0 : MatchCtx} {pos : Nat} (hic : c.ic = c0.ic) (hpath : c.path = c0.path) :
    SoundAt S (.any n.eflags.dotall) c0 pos (primAny S find c n pos) := by
  unfold primAny
  rw [hb]
  split
  · exact .fail hic fun _ => hpath
  · rename_i hpos
    split
    · exact .fail hic fun _ => hpath
    · rename_i hnl
      have hcons := @from_eq_cons S pos (by omega)
      have hlen : (S.from (pos + 1)).length = S.s.length - (pos + 1) := List.length_drop
      -- the bytes taken after the first
      let conts := if S.byte pos ≥ 0x80 then (S.from (pos + 1)).takeWhile utf8IsCont else []
      have hnext : (if S.byte pos ≥ 0x80 then pos + 1 + ((S.from (pos + 1)).takeWhile utf8IsCont).length
          else pos + 1) = pos + (conts.length + 1) := by
        simp only [conts]
        split
        · omega
        · rfl
      have hpre : conts <+: S.from (pos + 1) := by
        simp only [conts]
        split
        · exact List.takeWhile_prefix _
        · exact List.nil_prefix
      have htake : (S.from pos).take (conts.length + 1) = S.byte pos :: conts := by
        rw [hcons, List.take_succ_cons, ← List.prefix_iff_eq_take.1 hpre]
      simp only [hnext]
      refine soundAt_of_zero hzero hic (fun _ => hpath) (spans_from ?_ ⟨S.byte pos, conts, htake, ?_, ?_, ?_⟩)
      · have := hpre.length_le
        omega
      · intro hdot hbyte
        exact hnl ⟨hdot, hbyte⟩
      · intro hlt
        simp only [conts, if_neg (UInt8.not_le.2 hlt)]
      · intro x hx
        simp only [conts] at hx
        split at hx
        · exact List.mem_takeWhile_imp hx
        · cases hx

/-! ### Groups, concatenation, alternation -/

private theorem primCap_sound {S : Subject} {find : Finder} (hzero : SoundFinder S find 0 .empty) {n : MatchNode}
    {ta : Tree} (hb : n.b = 0) (ha : SoundFinder S find n.a ta) {c c0 : MatchCtx} {pos : Nat}
    (hpos : pos ≤ S.s.length) (hic : c.ic = c0.ic) (hpath : c.path = c0.path) :
    SoundAt S (.cap n.capId ta) c0 pos (primCap find c n pos) := by
  simp only [primCap, hb]
  split
  · exact .fail hic fun _ => hpath
  · have h1 := ha { c with caps := Function.update c.caps (n.capId * 2) pos } pos hpos
    split
    · rename_i c1 hr
      rw [hr] at h1
      exact .fail (h1.ic.trans hic) fun hfree => (h1.path hfree).trans hpath
    · rename_i r c1 hr
      rw [hr] at h1
      split
      · exact .fail (h1.ic.trans hic) fun hfree => (h1.path hfree).trans hpath
      · have hspan : Spans S.s ((Tree.cap n.capId ta).lang S.W c0.ic) pos r := by
          have := h1.span r rfl
          rwa [hic] at this
        have h2 : SoundAt S (.cap n.capId ta) c0 pos
            (find { c1 with caps := Function.update c1.caps (n.capId * 2 + 1) r } 0 r) :=
          soundAt_of_zero hzero (h1.ic.trans hic) (fun hfree => (h1.path hfree).trans hpath) hspan
        split
        · rename_i hr2
          rw [hr2] at h2
          exact .fail h2.ic h2.path
        · rename_i hr2
          rw [hr2] at h2
          exact h2

/-- A concatenation whose second operand is no concatenation goes through the loop once. -/
theorem primSeq_eq {S : Subject} {find : Finder} {n : Nat} (hn : n ≠ 0) (htype : (S.m.node n).type = .SEQ)
    (hb : (S.m.node n).b ≠ 0 → (S.m.node (S.m.node n).b).type ≠ .SEQ ∧
      (S.m.node (S.m.node n).b).eflags.icase = false) (c : MatchCtx) (pos : Nat) :
    primSeq S find c n pos =
      match find c (S.m.node n).a pos with
      | (none, c) => (none, c)
      | (some r, c) => if c.error ≠ .success then (none, c) else find c (S.m.node n).b r := by
  obtain ⟨k, rfl⟩ : ∃ k, n = k + 1 := ⟨n - 1, by omega⟩
  unfold primSeq seqLoop
  rw [if_pos ⟨hn, htype⟩]
  rcases find c (S.m.node (k + 1)).a pos with ⟨_ | r, c1⟩
  · rfl
  · by_cases herr : c1.error ≠ .success
    · simp only [if_pos herr]
    · simp only [if_neg herr]
      by_cases hb0 : (S.m.node (k + 1)).b = 0
      · simp [seqLoop, hb0]
      · obtain ⟨htb, hib⟩ := hb hb0
        simp [seqLoop, hb0, htb, hib]

private theorem seq_sound {S : Subject} {find : Finder} {a b : Nat} {ta tb : Tree} (ha : SoundFinder S find a ta)
    (hb : SoundFinder S find b tb) {c c0 : MatchCtx} {pos : Nat} (hpos : pos ≤ S.s.length) (hic : c.ic = c0.ic)
    (hpath : c.path = c0.path) : SoundAt S (.seq ta tb) c0 pos (match find c a pos with
      | (none, c) => (none, c)
      | (some r, c) => if c.error ≠ .success then (none, c) else find c b r) := by
  have h1 := ha c pos hpos
  have hfree1 : (Tree.seq ta tb).repFree → ta.repFree ∧ tb.repFree := by
    intro hfree
    simpa only [Tree.repFree, Bool.and_eq_true] using hfree
  split
  · rename_i c1 hr
    rw [hr] at h1
    exact .fail (h1.ic.trans hic) fun hfree => (h1.path (hfree1 hfree).1).trans hpath
  · rename_i r c1 hr
    rw [hr] at h1
    have hic1 : c1.ic = c0.ic := h1.ic.trans hic
    have hpath1 : (Tree.seq ta tb).repFree → c1.path = c0.path := fun hfree =>
      (h1.path (hfree1 hfree).1).trans hpath
    split
    · exact .fail hic1 hpath1
    · have hspan1 := h1.span r rfl
      have h2 := hb c1 r hspan1.2.1
      refine ⟨h2.ic.trans hic1, fun hfree => (h2.path (hfree1 hfree).2).trans (hpath1 hfree), fun stop hstop => ?_⟩
      have hspan2 := h2.span stop hstop
      rw [hic1] at hspan2
      rw [hic] at hspan1
      exact hspan1.mul hspan2

private theorem primAlt_sound {S : Subject} {find : Finder} {n : MatchNode} {ta tb : Tree}
    (ha : SoundFinder S find n.a ta) (hb : SoundFinder S find n.b tb) {c c0 : MatchCtx} {pos : Nat}
    (hpos : pos ≤ S.s.length) (hic : c.ic = c0.ic) (hpath : c.path = c0.path) :
    SoundAt S (.alt ta tb) c0 pos (primAlt find c n pos) := by
  have h1 := ha c pos hpos
  unfold primAlt
  split
  · rename_i r c1 hr
    rw [hr] at h1
    refine ⟨h1.ic.trans hic, fun hfree => ?_, fun stop hstop => ?_⟩
    · simp only [Tree.repFree, Bool.and_eq_true] at hfree
      exact (h1.path hfree.1).trans hpath
    · rw [← hic]
      exact (h1.span stop hstop).mono le_self_add
  · rename_i c1 hr
    rw [hr] at h1
    have hfree' : (Tree.alt ta tb).repFree → c1.path = c0.path ∧ tb.repFree := by
      intro hfree
      simp only [Tree.repFree, Bool.and_eq_true] at hfree
      exact ⟨(h1.path hfree.1).trans hpath, hfree.2⟩
    split
    · exact .fail (h1.ic.trans hic) fun hfree => (hfree' hfree).1
    · have h2 := hb { c1 with caps := c.caps } pos hpos
      have hic2 : c1.ic = c0.ic := h1.ic.trans hic
      refine ⟨h2.ic.trans hic2, fun hfree => (h2.path (hfree' hfree).2).trans (hfree' hfree).1, fun stop hstop => ?_⟩
      have hspan := h2.span stop hstop
      rw [show ({ c1 with caps := c.caps } : MatchCtx).ic = c0.ic from hic2] at hspan
      exact hspan.mono le_add_self

/-! ### Repetition -/

/-- The first loop of a repetition whose body leaves the workspace alone: `path i` is the end of `i` copies. -/
private theorem repLoop_sound {S : Subject} {find : Finder} {n : MatchNode} {ta : Tree}
    (ha : SoundFinder S find n.a ta) (hfree : ta.repFree) {ic : Bool} {pos : Nat} (fuel k : Nat) (c : MatchCtx)
    (hic : c.ic = ic) (hmax : n.max = 255 ∨ k ≤ n.max)
    (hpath : ∀ i ≤ k, Spans S.s (ta.lang S.W ic ^ i) pos (c.path i)) :
    (repLoop find n fuel k c).2.ic = ic ∧ (n.max = 255 ∨ (repLoop find n fuel k c).1 ≤ n.max) ∧
      ∀ i ≤ (repLoop find n fuel k c).1, Spans S.s (ta.lang S.W ic ^ i) pos ((repLoop find n fuel k c).2.path i) := by
  induction fuel generalizing k c with
  | zero => exact ⟨hic, hmax, hpath⟩
  | succ fuel ih =>
    unfold repLoop
    split
    · rename_i hcond
      have h1 := ha { c with cpath := Function.update c.cpath (k + 1) c.caps } (c.path k) (hpath k le_rfl).2.1
      split
      · rename_i c1 hr
        rw [hr] at h1
        refine ⟨h1.ic.trans hic, hmax, fun i hi => ?_⟩
        rw [show c1.path = c.path from h1.path hfree]
        exact hpath i hi
      · rename_i next c1 hr
        rw [hr] at h1
        have hpath1 : c1.path = c.path := h1.path hfree
        split
        · refine ⟨h1.ic.trans hic, hmax, fun i hi => ?_⟩
          rw [hpath1]
          exact hpath i hi
        · refine ih (k + 1) _ (h1.ic.trans hic) ?_ fun i hi => ?_
          · rcases hcond.2 with hmax | hlt
            · exact .inl hmax
            · exact .inr hlt
          · by_cases hik : i = k + 1
            · subst hik
              have hnext := h1.span next rfl
              simp only [hic] at hnext
              simp only [Function.update_self]
              rw [pow_succ]
              exact (hpath k le_rfl).mul hnext
            · simp only [Function.update_of_ne hik, hpath1]
              exact hpath i (by omega)
    · exact ⟨hic, hmax, hpath⟩

/-- Nothing follows a repetition inside the arena, so the first count tried is taken. -/
theorem repTry_eq {find : Finder} {n : MatchNode} (hb : n.b = 0) (is : List Nat) (c : MatchCtx) :
    repTry find n is c = match is with
      | [] => (none, c)
      | i :: _ => (some (c.path i), { c with caps := c.cpath i }) := by
  cases is with
  | nil => rfl
  | cons i is => simp [repTry, hb]

theorem mem_repOrder {lazy : Bool} {min k i : Nat} : i ∈ repOrder lazy min k ↔ min ≤ i ∧ i ≤ k := by
  cases lazy <;> simp only [repOrder, List.mem_reverse, List.mem_range'_1, if_true, if_false, Bool.false_eq_true] <;>
    omega

private theorem primRep_sound {S : Subject} {find : Finder} {n : MatchNode} {ta : Tree} (hb : n.b = 0)
    (ha : SoundFinder S find n.a ta) (hfree : ta.repFree) {c c0 : MatchCtx} {pos : Nat} (hpos : pos ≤ S.s.length)
    (hic : c.ic = c0.ic) : SoundAt S (.rep n.min n.max n.lazy ta) c0 pos (primRep find c n pos) := by
  let c1 : MatchCtx := { c with path := Function.update c.path 0 pos, cpath := Function.update c.cpath 0 c.caps }
  have hstart : ∀ i ≤ 0, Spans S.s (ta.lang S.W c0.ic ^ i) pos (c1.path i) := by
    intro i hi
    obtain rfl : i = 0 := by omega
    simp only [c1, Function.update_self, pow_zero]
    exact Spans.one hpos
  obtain ⟨hic2, hmax, hpath⟩ := repLoop_sound ha hfree MATCH_MAX_BACKTRACK 0 c1 hic (.inr (Nat.zero_le _)) hstart
  have heq : primRep find c n pos = repTry find n (repOrder n.lazy n.min (repLoop find n MATCH_MAX_BACKTRACK 0 c1).1)
      (repLoop find n MATCH_MAX_BACKTRACK 0 c1).2 := rfl
  rw [heq, repTry_eq hb]
  generalize repLoop find n MATCH_MAX_BACKTRACK 0 c1 = r at hic2 hmax hpath ⊢
  split
  · exact .fail hic2 fun h => nomatch h
  · rename_i i is hi
    have hmem : i ∈ repOrder n.lazy n.min r.1 := by rw [hi]; exact List.mem_cons_self
    rw [mem_repOrder] at hmem
    refine ⟨hic2, (fun h => nomatch h), fun stop hstop => ?_⟩
    cases hstop
    refine (hpath i hmem.2).mono fun w hw => ⟨i, hmem.1, ?_, hw⟩
    rcases hmax with h | h
    · exact .inl h
    · exact .inr (hmem.2.trans h)

private theorem primAtomic_sound {S : Subject} {find : Finder} {n : MatchNode} {ta : Tree} (hb : n.b = 0)
    (ha : SoundFinder S find n.a ta) {c c0 : MatchCtx} {pos : Nat} (hpos : pos ≤ S.s.length) (hic : c.ic = c0.ic)
    (hpath : c.path = c0.path) : SoundAt S (.atomic ta) c0 pos (primAtomic find c n pos) := by
  have h1 := ha c pos hpos
  simp only [primAtomic, hb]
  split
  · rename_i c1 hr
    rw [hr] at h1
    exact .fail (h1.ic.trans hic) fun hfree => (h1.path hfree).trans hpath
  · rename_i r c1 hr
    rw [hr] at h1
    split
    · exact .fail (h1.ic.trans hic) fun hfree => (h1.path hfree).trans hpath
    · refine ⟨h1.ic.trans hic, fun hfree => (h1.path hfree).trans hpath, fun stop hstop => ?_⟩
      rw [← hic]
      exact h1.span stop hstop

/-! ### The matcher -/

theorem Matcher.node_eq {m : Matcher} {i : Nat} {n : MatchNode} (h : m.arena[i]? = some n) : m.node i = n := by
  rw [Matcher.node, List.getD_eq_getElem?_getD, h, Option.getD_some]

/-- The second operand of a concatenation is no concatenation and does not change the case flag. -/
theorem Holds.operand {m : Matcher} {lo i : Nat} {t : Tree} (h : Holds m.arena lo i t) (hseq : t.isSeq = false)
    (hi : i ≠ 0) : (m.node i).type ≠ .SEQ ∧ (m.node i).eflags.icase = false := by
  obtain ⟨n, hn, hicase⟩ := h.node_icase hi
  rw [Matcher.node_eq hn]
  exact ⟨h.node_type hseq hn hi, hicase⟩

/-- The depth check and the count before the `switch`. -/
private theorem soundFinder_of_node {S : Subject} {i : Nat} {t : Tree} (hi : 0 < i)
    (h : ∀ (fuel : Nat) (c c0 : MatchCtx) (pos : Nat), pos ≤ S.s.length → c.ic = c0.ic → c.path = c0.path →
      SoundAt S t c0 pos (matchNode S (matchfind S fuel) c i pos)) (fuel : Nat) :
    SoundFinder S (matchfind S fuel) i t := by
  intro c pos hpos
  cases fuel with
  | zero => exact .fail rfl fun _ => rfl
  | succ fuel =>
    rw [matchfind, if_neg hi.ne']
    split
    · exact .fail rfl fun _ => rfl
    · exact h fuel _ c pos hpos rfl rfl

/-- An end that `matchfind` answers bounds a part of the subject in the language. -/
theorem matchfind_sound {S : Subject} {lo i : Nat} {t : Tree} (h : Holds S.m.arena lo i t) (hun : t.unnested)
    (fuel : Nat) : SoundFinder S (matchfind S fuel) i t := by
  induction h generalizing fuel with
  | empty => exact matchfind_zero S fuel
  | char hi _ hn htype _ hb =>
    refine soundFinder_of_node hi (fun fuel c c0 pos hpos hic hpath => ?_) fuel
    simp only [matchNode, Matcher.node_eq hn, htype]
    exact primChar_sound (matchfind_zero S fuel) hb hic hpath
  | any hi _ hn htype _ hb =>
    refine soundFinder_of_node hi (fun fuel c c0 pos hpos hic hpath => ?_) fuel
    simp only [matchNode, Matcher.node_eq hn, htype]
    exact primAny_sound (matchfind_zero S fuel) hb hic hpath
  | cap hi _ hn htype _ hb _ ih =>
    refine soundFinder_of_node hi (fun fuel c c0 pos hpos hic hpath => ?_) fuel
    simp only [matchNode, Matcher.node_eq hn, htype]
    exact primCap_sound (matchfind_zero S fuel) hb (ih hun fuel) hpos hic hpath
  | @seq i n ta tb hi _ hn htype _ ha hb hseq iha ihb =>
    rw [Tree.unnested, Bool.and_eq_true] at hun
    refine soundFinder_of_node hi (fun fuel c c0 pos hpos hic hpath => ?_) fuel
    have hnode := Matcher.node_eq hn
    simp only [matchNode, hnode, htype]
    rw [primSeq_eq hi.ne' (by rw [hnode, htype]) (by rw [hnode]; exact hb.operand hseq), hnode]
    exact seq_sound (iha hun.1 fuel) (ihb hun.2 fuel) hpos hic hpath
  | alt hi _ hn htype _ _ _ iha ihb =>
    rw [Tree.unnested, Bool.and_eq_true] at hun
    refine soundFinder_of_node hi (fun fuel c c0 pos hpos hic hpath => ?_) fuel
    simp only [matchNode, Matcher.node_eq hn, htype]
    exact primAlt_sound (iha hun.1 fuel) (ihb hun.2 fuel) hpos hic hpath
  | rep hi _ hn htype _ hb _ ih =>
    refine soundFinder_of_node hi (fun fuel c c0 pos hpos hic hpath => ?_) fuel
    simp only [matchNode, Matcher.node_eq hn, htype]
    exact primRep_sound hb (ih (Tree.unnested_of_repFree hun) fuel) hun hpos hic
  | atomic hi _ hn htype _ hb _ ih =>
    refine soundFinder_of_node hi (fun fuel c c0 pos hpos hic hpath => ?_) fuel
    simp only [matchNode, Matcher.node_eq hn, htype]
    exact primAtomic_sound hb (ih hun fuel) hpos hic hpath

/-- A span found by the loop over the start positions. -/
theorem execLoop_sound {S : Subject} {lo : Nat} {t : Tree} (h : Holds S.m.arena lo S.m.root t) (hun : t.unnested)
    {anchored : Bool} (fuel start : Nat) (c : MatchCtx) {sp : Span} {c' : MatchCtx}
    (hok : execLoop S anchored fuel start c = .ok (sp, c')) : Spans S.s (t.lang S.W c.ic) sp.rm_so sp.rm_eo := by
  induction fuel generalizing start c with
  | zero => cases hok
  | succ fuel ih =>
    unfold execLoop at hok
    split at hok
    · rename_i hstart
      have hfind := matchfind_sound h hun (MATCH_MAX_DEPTH + 1) { c with caps := fun _ => -1 } start hstart
      simp only at hok
      split at hok
      · cases hok
      generalize matchfind S (MATCH_MAX_DEPTH + 1) { c with caps := fun _ => -1 } S.m.root start = found at hfind hok
      obtain ⟨r, c1⟩ := found
      simp only at hok
      split at hok
      · cases hok
      · cases r with
        | none =>
          simp only at hok
          split at hok
          · cases hok
          · have hspan := ih (start + 1) c1 hok
            rwa [show c1.ic = c.ic from hfind.ic] at hspan
        | some stop =>
          cases hok
          exact hfind.span stop rfl
    · cases hok

/-- Every span that `matchexec` finds, in whatever subject, is in the language of the tree. -/
def MatchSound (m : Matcher) (t : Tree) : Prop :=
  ∀ (W : Wctype) (s : List UInt8) (fl : ExecFlags) (ws : Nat → Nat) (cws : Nat → Nat → Int) (sp : Span) (c : MatchCtx),
    matchexec W m s fl ws cws = .ok (sp, c) → Spans s (t.lang W fl.icase) sp.rm_so sp.rm_eo

/-- Soundness for the patterns in which no repetition stands inside another. -/
theorem matchexec_sound (pat : CString) (hpat : Plain pat.bytes) (m : Matcher)
    (hm : matchcomp pat MCOMP_EXTENDED = some (.ok m)) :
    (∃ t, Holds m.arena 1 m.root t) ∧ ∀ t, Holds m.arena 1 m.root t → t.unnested → MatchSound m t := by
  obtain ⟨r, hr, htree⟩ := matchcomp_plain hpat
  rw [hm] at hr
  cases hr
  obtain ⟨hex, hicase⟩ := htree m rfl
  refine ⟨hex, fun t ht hun W s fl ws cws sp c hok => ?_⟩
  unfold matchexec at hok
  simp only [hicase, Bool.false_or] at hok
  split at hok
  · cases hok
  · exact execLoop_sound (S := ⟨W, m, s, _, fl⟩) ht hun _ _ _ hok

/-- A pattern whose compilation gives a value of `f` is accepted. -/
theorem exists_accepted {β : Type} (pat : CString) {f : Matcher → β} {b : β}
    (h : ((matchcomp pat MCOMP_EXTENDED).bind Except.toOption).map f = some b) :
    ∃ m, matchcomp pat MCOMP_EXTENDED = some (.ok m) ∧ f m = b := by
  obtain ⟨m, hm, hf⟩ := Option.map_eq_some_iff.1 h
  obtain ⟨r, hr, hrm⟩ := Option.bind_eq_some_iff.1 hm
  cases r with
  | error e => cases hrm
  | ok m' => cases hrm; exact ⟨m, hr, hf⟩

/-- `ab*` has a tree without nested repetitions. -/
example :
    Plain (['a', 'b', '*'].map asc) ∧ ∃ m, matchcomp ⟨['a', 'b', '*'].map asc, by decide⟩ MCOMP_EXTENDED =
    some (.ok m) ∧
      (∃ t, Holds m.arena 1 m.root t) ∧ MatchSound m (.seq (.char 97) (.rep 0 255 false (.char 98))) := by
  have hplain : Plain (['a', 'b', '*'].map asc) := ⟨by decide +kernel, by decide +kernel⟩
  obtain ⟨m, hm, htree⟩ := exists_accepted ⟨['a', 'b', '*'].map asc, by decide⟩
    (f := fun m => readTree m.arena 4 m.root) (b := some (.seq (.char 97) (.rep 0 255 false (.char 98))))
    (by decide +kernel)
  obtain ⟨hex, hsound⟩ := matchexec_sound ⟨['a', 'b', '*'].map asc, by decide⟩ hplain m hm
  exact ⟨hplain, m, hm, hex, hsound _ (readTree_holds htree) rfl⟩

/-- The node tree of `(ba*c)*`. -/
private def nestedTree : Tree :=
  .rep 0 255 false (.cap 1 (.seq (.seq (.char 98) (.rep 0 255 false (.char 97))) (.char 99)))

/-- A copy of `ba*c` has at least two bytes, so that a single byte is no sequence of copies. -/
private theorem singleton_not_mem_nested (W : Wctype) (ic : Bool) (x : UInt8) : [x] ∉ nestedTree.lang W ic := by
  rintro ⟨k, -, -, hk⟩
  cases k with
  | zero => simp at hk
  | succ k =>
    rw [pow_succ', Language.mem_mul] at hk
    obtain ⟨u, hu, v, -, huv⟩ := hk
    obtain ⟨w, hw, z, hz, rfl⟩ := Language.mem_mul.1 hu
    obtain ⟨b, hb, a, -, rfl⟩ := Language.mem_mul.1 hw
    have hb1 := List.length_pos_of_ne_nil hb.1
    have hz1 := List.length_pos_of_ne_nil hz.1
    have hlen := congrArg List.length huv
    simp only [List.length_append, List.length_singleton] at hlen
    omega

/-- `(ba*c)*` on the subject `bx`: the inner repetition stores its start in `path[0]`, and the outer one answers it. -/
theorem matchexec_unsound_nested :
    ∃ m, matchcomp ⟨['(', 'b', 'a', '*', 'c', ')', '*'].map asc, by decide⟩ MCOMP_EXTENDED = some (.ok m) ∧
      ∃ t, Holds m.arena 1 m.root t ∧ ¬MatchSound m t := by
  let W : Wctype := ⟨id, fun _ => false, fun _ _ => false⟩
  obtain ⟨m, hm, hval⟩ := exists_accepted ⟨['(', 'b', 'a', '*', 'c', ')', '*'].map asc, by decide⟩
    (f := fun m => (readTree m.arena 9 m.root,
      (matchexec W m [98, 120] MEXEC_DEFAULT (fun _ => 0) (fun _ _ => 0)).toOption.map Prod.fst))
    (b := (some nestedTree, some ⟨0, 1⟩)) (by decide +kernel)
  obtain ⟨htree, hexec⟩ := Prod.mk.inj hval
  refine ⟨m, hm, nestedTree, readTree_holds htree, fun hsound => ?_⟩
  cases hr : matchexec W m [98, 120] MEXEC_DEFAULT (fun _ => 0) (fun _ _ => 0) with
  | error e => rw [hr] at hexec; cases hexec
  | ok r =>
    obtain ⟨sp, c⟩ := r
    rw [hr] at hexec
    obtain rfl : sp = ⟨0, 1⟩ := Option.some.inj hexec
    exact singleton_not_mem_nested W false 98 (hsound W _ _ _ _ _ c hr).2.2

end JACLibc
