import JACLibc.Match.Compile
import JACLibc.Match.Tree

/-!
# What `matchcomp` builds

For a pattern of literal bytes, `.`, plain groups, alternation and quantifiers (`Plain`), an accepted `matchcomp`
leaves an arena that holds a node tree at the root.  The parser is followed function by function: each keeps what is
in the arena, reads on in the pattern (`Extends`), and answers an index at which the arena holds a tree of new nodes
(`Holds`); and it does answer, the fuel being enough.
-/

namespace JACLibc

/-- No bracket, escape or anchor, and no group other than a plain one. -/
def Plain (pat : List UInt8) : Prop :=
  (∀ c ∈ pat, c ∉ [asc '[', asc '\\', asc '^', asc '$']) ∧ ¬[asc '(', asc '?'] <:+: pat

theorem Plain.suffix {pat rest : List UInt8} (h : Plain pat) (hs : rest <:+ pat) : Plain rest :=
  ⟨fun c hc => h.1 c (hs.subset hc), fun hin => h.2 (hin.trans hs.isInfix)⟩

/-- The later parser state `q` of a plain pattern: it has read on, kept its flags and added to the arena. -/
structure Extends (p q : Parser) : Prop where
  suffix : q.p <:+ p.p
  cflags : q.cflags = p.cflags
  icase : q.eflags.icase = p.eflags.icase
  dotall : q.eflags.dotall = p.eflags.dotall
  arena : p.m.arena <+: q.m.arena

namespace Extends

variable {p q r : Parser}

theorem refl (p : Parser) : Extends p p := ⟨List.suffix_refl _, rfl, rfl, rfl, List.prefix_refl _⟩

theorem trans (h : Extends p q) (h' : Extends q r) : Extends p r :=
  ⟨h'.suffix.trans h.suffix, h'.cflags.trans h.cflags, h'.icase.trans h.icase, h'.dotall.trans h.dotall,
    h.arena.trans h'.arena⟩

theorem count_le (h : Extends p q) : p.count ≤ q.count := h.arena.length_le

theorem length_le (h : Extends p q) : q.p.length ≤ p.p.length := h.suffix.length_le

theorem skip (p : Parser) (n : Nat) : Extends p (p.skip n) :=
  ⟨List.drop_suffix _ _, rfl, rfl, rfl, List.prefix_refl _⟩

theorem push (p : Parser) (n : MatchNode) : Extends p (p.push n) :=
  ⟨List.suffix_refl _, rfl, rfl, rfl, List.prefix_append _ _⟩

theorem fail (p : Parser) (err : MatchErr) : Extends p { p with err := err } :=
  ⟨List.suffix_refl _, rfl, rfl, rfl, List.prefix_refl _⟩

end Extends

/-- A parser state in a plain pattern compiled with `MCOMP_EXTENDED`. -/
structure Ready (p : Parser) : Prop where
  plain : Plain p.p
  cflags : p.cflags = MCOMP_EXTENDED
  icase : p.eflags.icase = false
  count : 0 < p.count

theorem Ready.extends {p q : Parser} (h : Ready p) (hq : Extends p q) : Ready q :=
  ⟨h.plain.suffix hq.suffix, hq.cflags.trans h.cflags, hq.icase.trans h.icase, h.count.trans_le hq.count_le⟩

/-- What a parsing function answers from `p`: unless there is an error, the arena holds a tree of new nodes at the
index. -/
structure Answers (p : Parser) (r : Parse) : Prop where
  ext : Extends p r.2
  tree : r.2.err = .success → ∃ t, Holds r.2.m.arena p.count r.1 t

/-- An atom moreover reads something and is no concatenation, unless it is nothing at all. -/
structure AtomAnswers (p : Parser) (r : Parse) : Prop where
  ext : Extends p r.2
  reads : r.1 ≠ 0 → r.2.p.length < p.p.length
  tree : r.2.err = .success → ∃ t : Tree, Holds r.2.m.arena p.count r.1 t ∧ t.isSeq = false

theorem AtomAnswers.answers {p : Parser} {r : Parse} (h : AtomAnswers p r) : Answers p r :=
  ⟨h.ext, fun herr => let ⟨t, ht, _⟩ := h.tree herr; ⟨t, ht⟩⟩

/-! ### Small facts -/

@[simp] theorem Parser.getElem?_push (p : Parser) (n : MatchNode) : (p.push n).m.arena[p.count]? = some n := by
  simp [Parser.push, Parser.count]

private theorem Ready.peek_ne {p : Parser} (h : Ready p) {c : UInt8}
    (hc : c ∈ [asc '[', asc '\\', asc '^', asc '$']) : p.peek ≠ c := by
  intro hp
  unfold Parser.peek at hp
  cases hpp : p.p with
  | nil =>
    rw [hpp] at hp
    rw [← hp] at hc
    exact absurd hc (by decide)
  | cons b bs =>
    rw [hpp, deref_cons] at hp
    exact h.plain.1 b (by simp [hpp]) (hp ▸ hc)

/-- A byte other than NUL at the read position is there. -/
private theorem exists_of_peek {p : Parser} {c : UInt8} (h : p.peek = c) (hc : c ≠ 0) : ∃ bs, p.p = c :: bs := by
  unfold Parser.peek at h
  cases hpp : p.p with
  | nil => rw [hpp] at h; exact absurd h.symm hc
  | cons b bs => rw [hpp, deref_cons] at h; exact ⟨bs, by rw [h]⟩

private theorem length_skip {p : Parser} {n : Nat} (h0 : 0 < n) (h : p.p ≠ []) : (p.skip n).p.length < p.p.length := by
  have hpos := List.length_pos_of_ne_nil h
  simp only [Parser.skip, List.length_drop]
  omega

private theorem readDecimal_suffix (val : Int) (bs : List UInt8) : (readDecimal val bs).2 <:+ bs := by
  induction bs generalizing val with
  | nil => exact List.suffix_refl _
  | cons c bs ih =>
    unfold readDecimal
    split
    · exact (ih _).trans (List.suffix_cons _ _)
    · exact List.suffix_refl _

private theorem Extends.decimal (p : Parser) (val : Int) : Extends p (p.decimal val).2 :=
  ⟨readDecimal_suffix _ _, rfl, rfl, rfl, List.prefix_refl _⟩

/-! ### Atoms -/

private theorem charNode_answers {p : Parser} (h : Ready p) (hp : p.p ≠ []) : AtomAnswers p (charNode p) := by
  refine ⟨(Extends.push _ _).trans (Extends.skip _ _), fun _ => ?_, fun _ => ?_⟩
  · exact length_skip (p := p) (utf8Next_read hp).1 hp
  · exact ⟨_, .char h.count le_rfl (p.getElem?_push _) rfl h.icase rfl, rfl⟩

private theorem atomSimple_answers {p : Parser} (h : Ready p) : AtomAnswers p (atomSimple p) := by
  have hbol := h.peek_ne (c := asc '^') (by decide)
  have heol := h.peek_ne (c := asc '$') (by decide)
  have haltern : p.cflags.altern = true := by rw [h.cflags]; rfl
  simp only [atomSimple, if_neg hbol, if_neg heol, haltern]
  split
  · rename_i hdot
    obtain ⟨bs, hbs⟩ := exists_of_peek hdot (by decide)
    refine ⟨(Extends.push _ _).trans (Extends.skip _ _), fun _ => ?_, fun _ => ?_⟩
    · exact length_skip (p := p) Nat.one_pos (by simp [hbs])
    · exact ⟨_, .any h.count le_rfl (p.getElem?_push _) rfl h.icase rfl, rfl⟩
  · rw [if_neg (by simp)]
    split
    · exact ⟨Extends.refl _, fun hne => absurd rfl hne, fun _ => ⟨_, .empty, rfl⟩⟩
    · rename_i hend
      refine charNode_answers h fun hnil => hend (.inr (.inl ?_))
      rw [Parser.peek, hnil]
      rfl

/-- A quantifier reads on and changes nothing else, not even the error. -/
private theorem quantBounds_extends {p q : Parser} {r : Option (Int × Int)} (h : quantBounds p = some (r, q)) :
    Extends p q ∧ q.err = p.err := by
  unfold quantBounds at h
  split at h
  · cases h; exact ⟨Extends.skip _ _, rfl⟩
  split at h
  · cases h; exact ⟨Extends.skip _ _, rfl⟩
  split at h
  · cases h; exact ⟨Extends.skip _ _, rfl⟩
  split at h
  · have h1 := (Extends.skip p 1).trans (Extends.decimal _ 0)
    have h2 := h1.trans (Extends.skip _ 1)
    simp only at h
    split at h
    · split at h
      · cases h; exact ⟨h2.trans (Extends.skip _ _), rfl⟩
      · split at h
        · cases h; exact ⟨(h2.trans (Extends.decimal _ 0)).trans (Extends.skip _ _), rfl⟩
        · cases h; exact ⟨h2.trans (Extends.decimal _ 0), rfl⟩
    · split at h
      · cases h; exact ⟨h2, rfl⟩
      · cases h; exact ⟨h1, rfl⟩
  · cases h

/-- The node of a repetition and, for a possessive one, the atomic node around it. -/
private theorem quantified_answers {p q : Parser} {n : Nat} (h : AtomAnswers p (n, q)) (hn : n ≠ 0) {q' : Parser}
    (hext : Extends q q') (herr : q'.err = q.err) (hcount : 0 < q'.count) (mn mx : Int) (lazy : Bool) :
    AtomAnswers p (matchRep q' n mn mx lazy) := by
  refine ⟨h.ext.trans (hext.trans (Extends.push _ _)), fun _ => ?_, fun hok => ?_⟩
  · exact hext.length_le.trans_lt (h.reads hn)
  · obtain ⟨t, ht, -⟩ := h.tree (herr ▸ hok)
    have ht' := ht.extend le_rfl hext.arena
    obtain ⟨node, hnode, hicase⟩ := ht'.node_icase hn
    have hbody : (q'.m.node n).eflags.icase = false := by
      rw [Matcher.node, List.getD_eq_getElem?_getD, hnode]
      exact hicase
    refine ⟨_, .rep hcount ?_ (q'.getElem?_push _) rfl hbody rfl (ht'.extend le_rfl (Extends.push _ _).arena), rfl⟩
    exact h.ext.count_le.trans hext.count_le

private theorem atomic_answers {p q : Parser} {n : Nat} (h : AtomAnswers p (n, q)) (hn : n ≠ 0) (hcount : 0 < q.count) :
    AtomAnswers p ((q.skip 1).count,
      (q.skip 1).push { MatchNode.fresh .ATOMIC with a := n, eflags := ((q.skip 1).m.node n).eflags }) := by
  have hext := Extends.skip q 1
  refine ⟨h.ext.trans (hext.trans (Extends.push _ _)), fun _ => ?_, fun hok => ?_⟩
  · exact hext.length_le.trans_lt (h.reads hn)
  · obtain ⟨t, ht, -⟩ := h.tree hok
    obtain ⟨node, hnode, hicase⟩ := ht.node_icase hn
    have hbody : ((q.skip 1).m.node n).eflags.icase = false := by
      rw [Matcher.node, List.getD_eq_getElem?_getD]
      show (Option.getD q.m.arena[n]? _).eflags.icase = false
      rw [hnode]
      exact hicase
    exact ⟨_, .atomic hcount h.ext.count_le ((q.skip 1).getElem?_push _) rfl hbody rfl
      (ht.extend le_rfl (Extends.push _ _).arena), rfl⟩

private theorem matchQuant_answers {p q : Parser} {n : Nat} (hp : Ready p) (h : AtomAnswers p (n, q)) (hn : n ≠ 0) :
    AtomAnswers p (matchQuant q n) := by
  have hq := hp.extends h.ext
  have hquant : q.cflags.quant = true := by rw [hq.cflags]; rfl
  rw [matchQuant, if_neg (by simp [hquant])]
  cases hb : quantBounds q with
  | none => exact h
  | some r =>
    obtain ⟨r, q'⟩ := r
    obtain ⟨hext, herr⟩ := quantBounds_extends hb
    cases r with
    | none =>
      exact ⟨h.ext.trans (hext.trans (Extends.fail _ _)), fun _ => hext.length_le.trans_lt (h.reads hn),
        fun hok => by cases hok⟩
    | some r =>
      obtain ⟨mn, mx⟩ := r
      have hungreedy : q'.cflags.ungreedy = true := by rw [(hq.extends hext).cflags]; rfl
      simp only [hungreedy, not_true, and_false, if_false]
      -- the state in which the repetition is made, after a `?` if there is one
      generalize hq'' : (if decide (q'.peek = asc '?') = true then
        { q'.skip 1 with eflags := { q'.eflags with ungreedy := true } } else q') = q''
      have hext' : Extends q q'' ∧ q''.err = q.err := by
        subst hq''
        split
        · exact ⟨hext.trans ⟨List.drop_suffix _ _, rfl, rfl, rfl, List.prefix_refl _⟩, herr⟩
        · exact ⟨hext, herr⟩
      have hcount : 0 < q''.count := (hq.extends hext'.1).count
      have hrep := quantified_answers h hn hext'.1 hext'.2 hcount mn mx (decide (q'.peek = asc '?'))
      split
      · exact atomic_answers hrep hcount.ne' (hcount.trans_le (Extends.push _ _).count_le)
      · exact hrep

/-! ### Terms, expressions and groups -/

/-- `atom` answers on every state with fewer than `N` bytes left. -/
def AtomSpec (atom : Parser → Option Parse) (N : Nat) : Prop :=
  ∀ q, Ready q → q.p.length < N → ∃ r, atom q = some r ∧ AtomAnswers q r

/-- The same for terms and expressions. -/
def ParseSpec (parse : Parser → Option Parse) (N : Nat) : Prop :=
  ∀ q, Ready q → q.p.length < N → ∃ r, parse q = some r ∧ Answers q r

private theorem termLoop_answers {atom : Parser → Option Parse} {N : Nat} (hatom : AtomSpec atom N) {p0 : Parser}
    (fuel : Nat) {a : Nat} {p : Parser} (hp : Ready p) (hext : Extends p0 p) (hfuel : p.p.length < fuel)
    (hN : p.p.length < N) (ha : p.err = .success → ∃ t, Holds p.m.arena p0.count a t) :
    ∃ r, termLoop atom fuel a p = some r ∧ Answers p0 r := by
  induction fuel generalizing a p with
  | zero => omega
  | succ fuel ih =>
    unfold termLoop
    split
    · exact ⟨_, rfl, hext, ha⟩
    rename_i hend
    split
    · exact ⟨_, rfl, hext, ha⟩
    obtain ⟨⟨b, q⟩, hb, hans⟩ := hatom p hp hN
    have herr : p.err = .success := by
      by_contra hne
      exact hend (.inr (.inr hne))
    obtain ⟨ta, hta⟩ := ha herr
    simp only [hb]
    split
    · exact ⟨_, rfl, hext.trans hans.ext, fun _ => ⟨ta, hta.extend le_rfl hans.ext.arena⟩⟩
    · rename_i hb0
      have hpush := Extends.push q { MatchNode.fresh .SEQ with eflags := q.eflags, a := a, b := b }
      have hread := hans.reads hb0
      have hq := hp.extends hans.ext
      refine ih (hq.extends hpush) (hext.trans (hans.ext.trans hpush)) ?_ ?_ fun hok => ?_
      · exact Nat.lt_of_lt_of_le hread (by omega)
      · exact Nat.lt_trans hread hN
      · obtain ⟨tb, htb, hseq⟩ := hans.tree hok
        exact ⟨_, .seq hq.count (hext.count_le.trans hans.ext.count_le) (q.getElem?_push _) rfl hq.icase
          (hta.extend le_rfl (hans.ext.trans hpush).arena) (htb.extend hext.count_le hpush.arena) hseq⟩

private theorem matchTerm_answers {atom : Parser → Option Parse} {N fuel : Nat} (hatom : AtomSpec atom N)
    (hfuel : N ≤ fuel) : ParseSpec (matchTerm atom fuel) N := by
  intro p hp hN
  obtain ⟨⟨a, q⟩, ha, hans⟩ := hatom p hp hN
  have hlen : q.p.length ≤ p.p.length := hans.ext.length_le
  simp only [matchTerm, ha]
  exact termLoop_answers hatom fuel (hp.extends hans.ext) hans.ext (by omega) (by omega) hans.answers.tree

private theorem exprLoop_answers {term : Parser → Option Parse} {N : Nat} (hterm : ParseSpec term N) {p0 : Parser}
    (fuel : Nat) {a : Nat} {p : Parser} (hp : Ready p) (hext : Extends p0 p) (hfuel : p.p.length < fuel)
    (hN : p.p.length < N) (ha : p.err = .success → ∃ t, Holds p.m.arena p0.count a t) :
    ∃ r, exprLoop term fuel a p = some r ∧ Answers p0 r := by
  induction fuel generalizing a p with
  | zero => omega
  | succ fuel ih =>
    unfold exprLoop
    split
    · rename_i hbar
      obtain ⟨bs, hbs⟩ := exists_of_peek hbar.1 (by decide)
      have hshort : (p.skip 1).p.length < p.p.length := length_skip Nat.one_pos (by simp [hbs])
      have hskip := Extends.skip p 1
      obtain ⟨⟨b, q⟩, hb, hans⟩ := hterm (p.skip 1) (hp.extends hskip) (by omega)
      have hext' := hskip.trans hans.ext
      have hlen := hans.ext.length_le
      obtain ⟨ta, hta⟩ := ha hbar.2
      simp only [hb]
      split
      · exact ⟨_, rfl, hext.trans hext', fun _ => ⟨ta, hta.extend le_rfl hext'.arena⟩⟩
      · have hpush := Extends.push q { MatchNode.fresh .ALT with eflags := q.eflags, a := a, b := b }
        have hq := hp.extends hext'
        refine ih (hq.extends hpush) (hext.trans (hext'.trans hpush)) ?_ ?_ fun hok => ?_
        · exact Nat.lt_of_le_of_lt hlen (by omega)
        · exact Nat.lt_of_le_of_lt hlen (by omega)
        · obtain ⟨tb, htb⟩ := hans.tree hok
          exact ⟨_, .alt hq.count (hext.count_le.trans hext'.count_le) (q.getElem?_push _) rfl hq.icase
            (hta.extend le_rfl (hext'.trans hpush).arena) (htb.extend hext.count_le hpush.arena)⟩
    · exact ⟨_, rfl, hext, ha⟩

private theorem matchExpr_answers {term : Parser → Option Parse} {N fuel : Nat} (hterm : ParseSpec term N)
    (hfuel : N ≤ fuel) : ParseSpec (matchExpr term fuel) N := by
  intro p hp hN
  obtain ⟨⟨a, q⟩, ha, hans⟩ := hterm p hp hN
  have hlen : q.p.length ≤ p.p.length := hans.ext.length_le
  have haltern : q.cflags.altern = true := by rw [(hp.extends hans.ext).cflags]; rfl
  simp only [matchExpr, ha, haltern, if_true]
  exact exprLoop_answers hterm fuel (hp.extends hans.ext) hans.ext (by omega) (by omega) hans.tree

@[simp] private theorem setGroup_arena (p : Parser) (cap n : Nat) : (p.setGroup cap n).m.arena = p.m.arena := by
  unfold Parser.setGroup
  split <;> rfl

private theorem Extends.setGroup (p : Parser) (cap n : Nat) : Extends p (p.setGroup cap n) := by
  unfold Parser.setGroup
  split
  · exact ⟨List.suffix_refl _, rfl, rfl, rfl, List.prefix_refl _⟩
  · exact Extends.refl p

/-- Setting a field of the node at `p.count` keeps what was in the arena before. -/
private theorem Extends.modify {p q : Parser} (h : Extends p q) (f : MatchNode → MatchNode) :
    Extends p (q.modify p.count f) := by
  refine ⟨h.suffix, h.cflags, h.icase, h.dotall, ?_⟩
  rw [List.prefix_iff_getElem?]
  intro i hi
  have hne : p.count ≠ i := Nat.ne_of_gt hi
  rw [Parser.modify, List.getElem?_modify_ne _ _ hne]
  exact List.prefix_iff_getElem?.1 h.arena i hi

private theorem parenBody_answers {expr : Parser → Option Parse} {N : Nat} (hexpr : ParseSpec expr N) {p : Parser}
    (hp : Ready p) (hN : p.p.length < N) (cap : Nat) :
    ∃ r, parenBody expr p cap = some r ∧ AtomAnswers p r := by
  let node : MatchNode := { MatchNode.fresh .CAP with eflags := p.eflags, capId := cap % 256 }
  let q1 := (p.push node).setGroup cap p.count
  have hext1 : Extends p q1 := (Extends.push p node).trans (Extends.setGroup _ _ _)
  have hcount1 : q1.count = p.count + 1 := by simp [q1, Parser.count, Parser.push]
  have hlen1 : q1.p.length ≤ p.p.length := hext1.length_le
  obtain ⟨⟨a, q⟩, hq, hans⟩ := hexpr q1 (hp.extends hext1) (by omega)
  have hext : Extends p q := hext1.trans hans.ext
  have hnode : q.m.arena[p.count]? = some node := by
    have h1 : q1.m.arena[p.count]? = some node := by simp [q1]
    obtain ⟨hlt, hget⟩ := List.getElem?_eq_some_iff.1 h1
    rw [List.prefix_iff_getElem?.1 hans.ext.arena _ hlt, hget]
  let q2 := q.modify p.count fun node => { node with a := a }
  have hext2 : Extends p q2 := hext.modify _
  refine ⟨q2.closeParen p.count, by simp [parenBody, Parser.nodeFlags, q1, node, q2] at hq ⊢; rw [hq], ?_⟩
  -- the body consists of nodes made after this one, which the assignment to `a` leaves alone
  have htree : q.err = .success → ∃ t, Holds q2.m.arena p.count p.count t ∧ t.isSeq = false := by
    intro hok
    obtain ⟨ta, hta⟩ := hans.tree hok
    rw [hcount1] at hta
    have hta2 : Holds q2.m.arena p.count a ta := by
      refine hta.frame (Nat.le_succ _) fun j n hj hn => ?_
      have hne : p.count ≠ j := by omega
      rw [← hn]
      exact List.getElem?_modify_ne _ _ hne
    have hnode2 : q2.m.arena[p.count]? = some { node with a := a } := by
      show (q.m.arena.modify _ _)[p.count]? = _
      rw [List.getElem?_modify_eq, hnode]
      rfl
    exact ⟨_, .cap hp.count le_rfl hnode2 rfl hp.icase rfl hta2, rfl⟩
  unfold Parser.closeParen
  split
  · rename_i hclose
    obtain ⟨bs, hbs⟩ := exists_of_peek hclose (by decide)
    have hshort : (q2.skip 1).p.length < q2.p.length := length_skip Nat.one_pos (by simp [hbs])
    exact ⟨hext2.trans (Extends.skip _ _), fun _ => Nat.lt_of_lt_of_le hshort hext2.length_le, htree⟩
  · exact ⟨hext2.trans (Extends.fail _ _), fun hne => absurd rfl hne, fun hok => by cases hok⟩

private theorem atomParen_answers {expr term : Parser → Option Parse} {N fuel : Nat} (hexpr : ParseSpec expr N)
    {p : Parser} (hp : Ready p) (hpeek : p.peek = asc '(') (hN : p.p.length ≤ N) :
    ∃ r, atomParen expr term fuel p = some r ∧ AtomAnswers p r := by
  obtain ⟨bs, hbs⟩ := exists_of_peek hpeek (by decide)
  have hext : Extends p { p.skip 1 with cap := p.cap + 1 } :=
    ⟨List.drop_suffix _ _, rfl, rfl, rfl, List.prefix_refl _⟩
  have hshort : (p.skip 1).p.length < p.p.length := length_skip Nat.one_pos (by simp [hbs])
  have hquestion : ({ p.skip 1 with cap := p.cap + 1 } : Parser).peek ≠ asc '?' := by
    intro h
    obtain ⟨cs, hcs⟩ := exists_of_peek h (by decide)
    have hbs' : bs = asc '?' :: cs := by simpa [Parser.skip, hbs] using hcs
    exact hp.plain.2 ⟨[], cs, by simp [hbs, hbs']⟩
  have hcapture : (p.skip 1).cflags.capture = true := by rw [(hp.extends (Extends.skip p 1)).cflags]; rfl
  obtain ⟨r, hr, hans⟩ := parenBody_answers hexpr (hp.extends hext) (by exact Nat.lt_of_lt_of_le hshort hN) (p.cap + 1)
  refine ⟨r, ?_, hext.trans hans.ext, fun h => (hans.reads h).trans hshort, fun hok => ?_⟩
  · simp only [atomParen, if_pos hquestion, parenCapture, hcapture, if_true]
    exact hr
  · obtain ⟨t, ht, hseq⟩ := hans.tree hok
    exact ⟨t, ht.frame hext.count_le fun _ _ _ hn => hn, hseq⟩

private theorem matchAtom_answers (fuel : Nat) : AtomSpec (matchAtom fuel) fuel := by
  induction fuel with
  | zero => intro q _ h; omega
  | succ fuel ih =>
    intro p hp hN
    have hterm := matchTerm_answers ih (le_refl fuel)
    have hexpr := matchExpr_answers hterm (le_refl fuel)
    have hatom : ∃ r, (if p.peek = asc '[' then atomBracket fuel p
        else if p.peek = asc '(' then
          atomParen (matchExpr (matchTerm (matchAtom fuel) fuel) fuel) (matchTerm (matchAtom fuel) fuel) fuel p
        else if p.peek = asc '\\' then atomEscape p
        else some (atomSimple p)) = some r ∧ AtomAnswers p r := by
      rw [if_neg (hp.peek_ne (by decide))]
      split
      · rename_i hpeek
        exact atomParen_answers hexpr hp hpeek (by omega)
      · rw [if_neg (hp.peek_ne (by decide))]
        exact ⟨_, rfl, atomSimple_answers hp⟩
    obtain ⟨⟨n, q⟩, hr, hans⟩ := hatom
    simp only [matchAtom, hr]
    split
    · rename_i hn
      subst hn
      exact ⟨_, rfl, hans⟩
    · rename_i hn
      exact ⟨_, rfl, matchQuant_answers hp hans hn⟩

/-! ### The whole pattern -/

/-- `matchcomp` answers on every plain pattern, and an accepted one has a tree at the root, without the case flag. -/
theorem matchcomp_plain {pat : CString} (hpat : Plain pat.bytes) :
    ∃ r, matchcomp pat MCOMP_EXTENDED = some r ∧ ∀ m, r = .ok m →
      (∃ t, Holds m.arena 1 m.root t) ∧ m.eflags.icase = false := by
  let fuel := pat.bytes.length + 2
  let p := Parser.start pat.bytes MCOMP_EXTENDED
  have hready : Ready p := ⟨hpat, rfl, rfl, Nat.one_pos⟩
  have hexpr := matchExpr_answers (matchTerm_answers (matchAtom_answers fuel) le_rfl) (le_refl fuel)
  obtain ⟨⟨root, q⟩, hr, hans⟩ := hexpr p hready (by simp [p, fuel, Parser.start])
  have hr' : matchExpr (matchTerm (matchAtom (pat.bytes.length + 2)) (pat.bytes.length + 2)) (pat.bytes.length + 2)
      (.start pat.bytes MCOMP_EXTENDED) = some (root, q) := hr
  simp only [matchcomp, hr']
  split
  · exact ⟨_, rfl, fun m hm => nomatch hm⟩
  · rename_i hok
    refine ⟨_, rfl, fun m hm => ?_⟩
    cases hm
    obtain ⟨t, ht⟩ := hans.tree (not_not.1 hok)
    exact ⟨⟨t, ht⟩, hans.ext.icase⟩

end JACLibc
