import JACLibc.Match.Compile
import JACLibc.Match.Exec

/-!
# The depth counter

`matchfind` raises `depth` at its entry and lowers it where it answers by itself; the arms of the `switch` return
without lowering it.  So the counter never falls during a match (`Climbs`), and it is the same after a call only if
the call ended in front of the `switch` (`matchfind_depth_iff`).  `matchexec` starts all its attempts with the one
counter: with more than `MATCH_MAX_DEPTH` of them it cannot answer that there is no match.
-/

namespace JACLibc

/-- No call of the matcher lowers the counter. -/
def Climbs (find : Finder) : Prop := ∀ c n pos, c.depth ≤ (find c n pos).2.depth

/-- A lookbehind works on a copy of the counter. -/
theorem lookBehind_depth (S : Subject) (find : Finder) (pos : Nat) (scap : Nat → Int) (a fuel cp : Nat) (c : MatchCtx) :
    (lookBehind S find scap a pos fuel cp c).2.depth = c.depth := by
  induction fuel generalizing cp c with
  | zero => rfl
  | succ fuel ih =>
    rw [lookBehind]
    dsimp only
    split_ifs
    · rfl
    · rfl
    · split
      · rfl
      · rw [ih]

namespace Climbs

variable {find : Finder} (hfind : Climbs find)

include hfind

theorem le {c c' : MatchCtx} {n pos : Nat} {r : Option Nat} (h : find c n pos = (r, c')) : c.depth ≤ c'.depth := by
  have hle := hfind c n pos
  rwa [h] at hle

/-! ### Primitives -/

variable (S : Subject) (c : MatchCtx) (n : MatchNode) (pos : Nat)

theorem char : c.depth ≤ (primChar S find c n pos).2.depth := by
  unfold primChar
  split_ifs
  · exact le_rfl
  · exact hfind _ _ _
  · exact le_rfl
  · dsimp only
    split_ifs
    · exact hfind _ _ _
    · exact le_rfl

theorem classNode : c.depth ≤ (primClass S find c n pos).2.depth := by
  unfold primClass
  dsimp only
  split_ifs
  · exact le_rfl
  · exact hfind _ _ _
  · exact le_rfl

theorem any : c.depth ≤ (primAny S find c n pos).2.depth := by
  unfold primAny
  split_ifs
  · exact le_rfl
  · exact le_rfl
  · exact hfind _ _ _
  · exact hfind _ _ _

theorem bol : c.depth ≤ (primBol S find c n pos).2.depth := by
  unfold primBol
  split_ifs
  · exact le_rfl
  · exact hfind _ _ _
  · exact le_rfl

theorem eol : c.depth ≤ (primEol S find c n pos).2.depth := by
  unfold primEol
  split_ifs
  · exact le_rfl
  · exact hfind _ _ _
  · exact le_rfl

theorem cap : c.depth ≤ (primCap find c n pos).2.depth := by
  unfold primCap
  dsimp only
  split_ifs
  · exact le_rfl
  · rcases ha : find { c with caps := Function.update c.caps (n.capId * 2) pos } n.a pos with ⟨_ | r, c1⟩
    · exact (hfind.le ha :)
    · have h1 : c.depth ≤ c1.depth := (hfind.le ha :)
      dsimp only
      split_ifs
      · exact h1
      · rcases hb : find { c1 with caps := Function.update c1.caps (n.capId * 2 + 1) r } n.b r with ⟨_ | res, c2⟩
        · exact h1.trans (hfind.le hb :)
        · exact h1.trans (hfind.le hb :)

theorem seq (fuel : Nat) (c : MatchCtx) (n pos : Nat) : c.depth ≤ (seqLoop S find fuel c n pos).2.depth := by
  induction fuel generalizing c n pos with
  | zero => exact hfind _ _ _
  | succ fuel ih =>
    rw [seqLoop]
    split_ifs
    · rcases ha : find c (S.m.node n).a pos with ⟨_ | r, c1⟩
      · exact (hfind.le ha :)
      · have h1 : c.depth ≤ c1.depth := (hfind.le ha :)
        dsimp only
        by_cases herr : c1.error ≠ .success
        · rw [if_pos herr]
          exact h1
        · rw [if_neg herr]
          refine h1.trans (le_trans (le_of_eq ?_) (ih _ _ _))
          split_ifs <;> rfl
    · exact hfind _ _ _

theorem alt : c.depth ≤ (primAlt find c n pos).2.depth := by
  unfold primAlt
  rcases ha : find c n.a pos with ⟨_ | r, c1⟩
  · have h1 : c.depth ≤ c1.depth := (hfind.le ha :)
    dsimp only
    split_ifs
    · exact h1
    · exact h1.trans (hfind { c1 with caps := c.caps } _ _)
  · exact (hfind.le ha :)

theorem repLoop (fuel k : Nat) (c : MatchCtx) : c.depth ≤ (repLoop find n fuel k c).2.depth := by
  induction fuel generalizing k c with
  | zero => exact le_rfl
  | succ fuel ih =>
    rw [JACLibc.repLoop]
    split_ifs
    · rcases ha : find { c with cpath := Function.update c.cpath (k + 1) c.caps } n.a (c.path k) with ⟨_ | next, c1⟩
      · exact (hfind.le ha :)
      · have h1 : c.depth ≤ c1.depth := (hfind.le ha :)
        dsimp only
        split_ifs
        · exact h1
        · exact h1.trans (ih (k + 1)
            { c1 with path := Function.update c1.path (k + 1) next, cpath := Function.update c1.cpath (k + 1) c1.caps })
    · exact le_rfl

theorem repTry (is : List Nat) (c : MatchCtx) : c.depth ≤ (repTry find n is c).2.depth := by
  induction is generalizing c with
  | nil => exact le_rfl
  | cons i is ih =>
    rw [JACLibc.repTry]
    dsimp only
    split_ifs with hb
    · rcases ha : find { c with caps := c.cpath i } n.b (c.path i) with ⟨_ | r, c1⟩
      · have h1 : c.depth ≤ c1.depth := (hfind.le ha :)
        dsimp only
        split_ifs
        · exact h1
        · exact h1.trans (ih _)
      · exact (hfind.le ha :)
    · exact le_rfl

theorem rep : c.depth ≤ (primRep find c n pos).2.depth := by
  unfold primRep
  dsimp only
  have h1 := hfind.repLoop n MATCH_MAX_BACKTRACK 0
    { c with path := Function.update c.path 0 pos, cpath := Function.update c.cpath 0 c.caps }
  exact h1.trans (hfind.repTry n _ _)

theorem look : c.depth ≤ (primLook S find c n pos).2.depth := by
  have hfrom : ∀ (found : Bool) (c' : MatchCtx), c'.depth = c.depth →
      c.depth ≤ (if (if n.neg = 1 then !found else found) = true then find c' n.b pos else (none, c')).2.depth := by
    intro found c' hc'
    split_ifs
    · exact hc' ▸ hfind _ _ _
    · exact hc'.ge
    · exact hc' ▸ hfind _ _ _
    · exact hc'.ge
  unfold primLook
  by_cases hlb : n.capId = 1
  · rw [if_pos hlb]
    exact hfrom _ _ (lookBehind_depth S find pos c.caps n.a (pos + 1) pos c)
  · rw [if_neg hlb]
    exact hfrom _ _ rfl

theorem backref : c.depth ≤ (primBackref S find c n pos).2.depth := by
  unfold primBackref
  dsimp only
  split_ifs
  · exact le_rfl
  · exact le_rfl
  · exact le_rfl
  · split
    · exact hfind _ _ _
    · exact le_rfl

theorem atomic : c.depth ≤ (primAtomic find c n pos).2.depth := by
  unfold primAtomic
  rcases ha : find c n.a pos with ⟨_ | r, c1⟩
  · exact (hfind.le ha :)
  · have h1 : c.depth ≤ c1.depth := (hfind.le ha :)
    dsimp only
    split_ifs
    · exact h1
    · exact h1.trans (hfind _ _ _)
    · exact h1

theorem cond : c.depth ≤ (primCond find c n pos).2.depth := by
  unfold primCond
  dsimp only
  split_ifs
  · exact hfind _ _ _
  · exact le_rfl
  · exact hfind _ _ _
  · exact le_rfl

theorem wb (neg : Bool) : c.depth ≤ (primWb S find neg c n pos).2.depth := by
  unfold primWb
  dsimp only
  split_ifs
  · exact le_rfl
  · exact hfind _ _ _
  · exact hfind _ _ _
  · exact le_rfl
  · exact hfind _ _ _
  · exact le_rfl

theorem call : c.depth ≤ (primCall S find c n pos).2.depth := by
  unfold primCall
  split_ifs
  · exact hfind _ _ _
  · exact hfind _ _ _
  · exact le_rfl

/-- No arm of the `switch` lowers the counter. -/
theorem node (n : Nat) : c.depth ≤ (matchNode S find c n pos).2.depth := by
  unfold matchNode
  dsimp only
  cases (S.m.node n).type with
  | END => exact le_rfl
  | CHAR => exact hfind.char S c _ pos
  | CLASS => exact hfind.classNode S c _ pos
  | ANY => exact hfind.any S c _ pos
  | BOL => exact hfind.bol S c _ pos
  | EOL => exact hfind.eol S c _ pos
  | CAP => exact hfind.cap c _ pos
  | ALT => exact hfind.alt c _ pos
  | SEQ => exact hfind.seq S _ c n pos
  | REP => exact hfind.rep c _ pos
  | LOOK => exact hfind.look S c _ pos
  | BACKREF => exact hfind.backref S c _ pos
  | WB => exact hfind.wb S c _ pos false
  | NWB => exact hfind.wb S c _ pos true
  | FLAGS => exact hfind _ _ _
  | ATOMIC => exact hfind.atomic c _ pos
  | COND => exact hfind.cond c _ pos
  | CALL => exact hfind.call S c _ pos

end Climbs

/-! ### The matcher -/

variable (S : Subject)

theorem matchfind_climbs (fuel : Nat) : Climbs (matchfind S fuel) := by
  induction fuel with
  | zero => exact fun _ _ _ => le_rfl
  | succ fuel ih =>
    intro c n pos
    rw [matchfind]
    split_ifs
    · exact le_rfl
    · exact le_rfl
    · exact (Nat.le_succ _).trans (ih.node S { c with depth := c.depth + 1 } pos n)

/-- Behind the check of the depth a call leaves the counter higher than it was. -/
theorem matchfind_lt (fuel : Nat) {c : MatchCtx} {n : Nat} (pos : Nat) (hn : n ≠ 0) (hc : c.depth < MATCH_MAX_DEPTH) :
    c.depth < (matchfind S (fuel + 1) c n pos).2.depth := by
  rw [matchfind, if_neg (by omega), if_neg hn]
  exact (matchfind_climbs S fuel).node S { c with depth := c.depth + 1 } pos n

theorem matchfind_deep (fuel : Nat) {c : MatchCtx} (n pos : Nat) (hc : MATCH_MAX_DEPTH ≤ c.depth) :
    matchfind S (fuel + 1) c n pos = (none, { c with error := .edepth }) := by
  rw [matchfind, if_pos (by omega)]

/-! ### The attempts of `matchexec` -/

/-- With more attempts left than the counter allows, the answer is a match or `M_EDEPTH`. -/
theorem execLoop_long (hroot : S.m.root ≠ 0) (fuel start : Nat) (c : MatchCtx) (hstart : start ≤ S.s.length)
    (hfuel : S.s.length < start + fuel) (hlong : start + MATCH_MAX_DEPTH ≤ S.s.length + c.depth) :
    execLoop S false fuel start c = .error .edepth ∨ ∃ r, execLoop S false fuel start c = .ok r := by
  induction fuel generalizing start c with
  | zero => omega
  | succ fuel ih =>
    rw [execLoop, if_pos hstart]
    dsimp only
    by_cases hdeep : c.depth > MATCH_MAX_DEPTH
    · exact .inl (if_pos hdeep)
    rw [if_neg hdeep]
    by_cases hlast : MATCH_MAX_DEPTH ≤ c.depth
    · rw [matchfind_deep S MATCH_MAX_DEPTH (c := { c with caps := fun _ => -1 }) S.m.root start hlast]
      exact .inl rfl
    · have hlt := matchfind_lt S MATCH_MAX_DEPTH start hroot
        (show ({ c with caps := fun _ => -1 } : MatchCtx).depth < _ by
        exact Nat.lt_of_not_le hlast)
      rcases hr : matchfind S (MATCH_MAX_DEPTH + 1) { c with caps := fun _ => -1 } S.m.root start with ⟨_ | r, c'⟩
      · rw [hr] at hlt
        dsimp only at hlt ⊢
        by_cases herr : c'.error = .edepth
        · exact .inl (if_pos herr)
        · rw [if_neg herr, if_neg Bool.false_ne_true]
          exact ih (start + 1) c' (by omega) (by omega) (by omega)
      · dsimp only
        by_cases herr : c'.error = .edepth
        · exact .inl (if_pos herr)
        · rw [if_neg herr]
          exact .inr ⟨_, rfl⟩

/-- Without an anchor and a literal every position is tried. -/
theorem matchexec_unanchored (W : Wctype) {m : Matcher} {s : List UInt8} {fl : ExecFlags} (ws : Nat → Nat)
    (cws : Nat → Nat → Int) (hbol : (m.node m.root).type ≠ .BOL) (hlit : m.lit = []) : matchexec W m s fl ws cws =
      execLoop ⟨W, m, s, m.eflags.newline || fl.newline, fl⟩ false (s.length + 1) 0
      (.init (m.eflags.icase || fl.icase) ws cws) := by
  have hanchored : ¬(m.root ≠ 0 ∧ (m.node m.root).type = .BOL) := fun h => hbol h.2
  have hstart : (if (m.root ≠ 0 ∧ (m.node m.root).type = .BOL) ∨ m.eflags.icase = true then some 0
      else matchgate m s (m.eflags.icase || fl.icase) (s.length + 1) 0) = some 0 := by
    split_ifs
    · rfl
    · rw [matchgate, if_pos hlit]
  rw [matchexec, decide_eq_false hanchored, hstart]

/-- `matchfind` leaves the counter as it was if and only if there is no node to match or the counter has reached its
bound at the entry. An unanchored search, without a literal, of a subject longer than that bound ends with a match or
with `M_EDEPTH`, whatever the nesting of the tree is. -/
theorem matchfind_depth_iff (S : Subject) (c : MatchCtx) (n pos : Nat) :
    ((matchfind S (MATCH_MAX_DEPTH + 1) c n pos).2.depth = c.depth ↔ n = 0 ∨ MATCH_MAX_DEPTH ≤ c.depth) ∧
    ∀ (fl : ExecFlags) (ws : Nat → Nat) (cws : Nat → Nat → Int),
      S.m.root ≠ 0 → (S.m.node S.m.root).type ≠ .BOL → S.m.lit = [] → MATCH_MAX_DEPTH ≤ S.s.length →
      matchexec S.W S.m S.s fl ws cws = .error .edepth ∨ ∃ r, matchexec S.W S.m S.s fl ws cws = .ok r := by
  constructor
  · constructor
    · intro heq
      by_contra hnot
      rw [not_or, not_le] at hnot
      exact (matchfind_lt S MATCH_MAX_DEPTH pos hnot.1 hnot.2).ne' heq
    · rintro (rfl | hdeep)
      · rw [matchfind]
        by_cases hdeep : c.depth + 1 > MATCH_MAX_DEPTH
        · rw [if_pos hdeep]
        · rw [if_neg hdeep, if_pos rfl]
      · rw [matchfind_deep S MATCH_MAX_DEPTH n pos hdeep]
  · intro fl ws cws hroot hbol hlit hlong
    rw [matchexec_unanchored S.W ws cws hbol hlit]
    have hlong' : MATCH_MAX_DEPTH ≤ (MatchCtx.init (S.m.eflags.icase || fl.icase) ws cws).depth + S.s.length := by
      simpa [MatchCtx.init] using hlong
    exact execLoop_long ⟨S.W, S.m, S.s, S.m.eflags.newline || fl.newline, fl⟩ hroot _ 0 _ (Nat.zero_le _)
      (by dsimp only; omega)
      (by dsimp only; omega)

/-- A lone `$` fails at every position in front of the end, each time with a higher counter. -/
theorem execLoop_eol (hroot : S.m.root ≠ 0) (htype : (S.m.node S.m.root).type = .EOL) (hnl : S.nl = false)
    (k fuel start : Nat) (c : MatchCtx) (hdepth : c.depth + k = MATCH_MAX_DEPTH) (hfuel : k < fuel)
    (hstart : start + k < S.s.length) (herr : c.error = .success) :
    execLoop S false fuel start c = .error .edepth := by
  induction k generalizing fuel start c with
  | zero =>
    obtain ⟨fuel, rfl⟩ : ∃ f, fuel = f + 1 := ⟨fuel - 1, by omega⟩
    have hdeep : MATCH_MAX_DEPTH ≤ ({ c with caps := fun _ => -1 } : MatchCtx).depth := hdepth.ge
    rw [execLoop, if_pos (by omega)]
    dsimp only
    rw [if_neg (by omega), matchfind_deep S MATCH_MAX_DEPTH S.m.root start hdeep]
    rfl
  | succ k ih =>
    obtain ⟨fuel, rfl⟩ : ∃ f, fuel = f + 1 := ⟨fuel - 1, by omega⟩
    have hfail : matchfind S (MATCH_MAX_DEPTH + 1) { c with caps := fun _ => -1 } S.m.root start =
        (none, { c with caps := fun _ => -1, depth := c.depth + 1 }) := by
      rw [matchfind, if_neg (show ¬c.depth + 1 > MATCH_MAX_DEPTH by omega), if_neg hroot, matchNode]
      simp only [htype, primEol, hnl]
      split_ifs with hnot hend
      · rfl
      · rcases hend with hend | hend
        · omega
        · simp at hend
      · rfl
    rw [execLoop, if_pos (by omega)]
    dsimp only
    rw [if_neg (by omega), hfail]
    simp only [herr]
    rw [if_neg (by decide), if_neg Bool.false_ne_true]
    exact ih fuel (start + 1) _ (show c.depth + 1 + k = MATCH_MAX_DEPTH by omega) (by omega) (by omega) rfl

theorem matchexec_eol (W : Wctype) {m : Matcher} {s : List UInt8} (ws : Nat → Nat) (cws : Nat → Nat → Int)
    (hroot : m.root ≠ 0) (htype : (m.node m.root).type = .EOL) (hlit : m.lit = []) (hnl : m.eflags.newline = false)
    (hlong : MATCH_MAX_DEPTH < s.length) :
    matchexec W m s MEXEC_DEFAULT ws cws = .error .edepth := by
  rw [matchexec_unanchored W ws cws (by rw [htype]; decide) hlit]
  exact execLoop_eol _ hroot htype (by rw [hnl]; rfl) MATCH_MAX_DEPTH _ 0 _ (Nat.zero_add _) (by omega)
    (by simpa using hlong) rfl

/-- The pattern `$` has one node and no literal; the match at the end of a long subject is not reached. -/
theorem matchexec_long_subject : ∃ m, matchcomp ⟨lit "$", by decide⟩ MCOMP_EXTENDED = some (.ok m) ∧
    m.arena.map (·.type) = [.END, .EOL] ∧ ∀ s : List UInt8, MATCH_MAX_DEPTH < s.length →
      matchexec ⟨id, fun _ => false, fun _ _ => false⟩ m s MEXEC_DEFAULT (fun _ => 0) (fun _ _ => 0) = .error .edepth :=
  ⟨_, rfl, rfl, fun _ hlong => matchexec_eol _ _ _ (by decide) rfl rfl rfl hlong⟩

end JACLibc
