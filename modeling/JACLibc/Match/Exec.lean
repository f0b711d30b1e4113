import JACLibc.Match.Matcher
import Mathlib.Logic.Function.Basic

/-!
# `matchfind` and `matchexec`

The backtracking matcher of `match.h`.  `MatchCtx` is the part of `match_ctx_t` that changes during a match; the
workspace of the repetitions, `path` and `cpath`, belongs to it, because all repetitions of a pattern share the one
that `rep_ws` points to.  Each primitive takes `find`, the matcher to call for other nodes, as an argument, and
`matchfind` ties the knot with fuel.  Each nested call raises `depth`, so that `MATCH_MAX_DEPTH + 1` calls deep the
depth check answers before the fuel is used up.
-/

namespace JACLibc

/-- The fields of `match_ctx_t` that stay the same during a match: the matcher, the subject, and the flags. -/
structure Subject where
  W : Wctype
  m : Matcher
  s : List UInt8
  nl : Bool
  ef : ExecFlags

/-- The fields of `match_ctx_t` that change, with the contents of `caps` and of `rep_ws`. -/
structure MatchCtx where
  caps : Nat → Int
  ic : Bool
  depth : Nat
  error : MatchErr
  path : Nat → Nat
  cpath : Nat → Nat → Int

/-- What a matcher answers: the end of the match, or nothing, and the new context. -/
abbrev Found := Option Nat × MatchCtx

abbrev Finder := MatchCtx → Nat → Nat → Found

/-- The bytes from a position to the end of the subject. -/
def Subject.from (S : Subject) (pos : Nat) : List UInt8 := S.s.drop pos

/-- `*pos` -/
def Subject.byte (S : Subject) (pos : Nat) : UInt8 := S.s.getD pos 0

/-! ### Primitives -/

section Primitives

variable (S : Subject) (find : Finder)

/-- `__jacl_prim_CHAR` -/
def primChar (c : MatchCtx) (n : MatchNode) (pos : Nat) : Found :=
  if pos ≥ S.s.length then (none, c)
  else if S.byte pos < 0x80 then
    if matchFold S.W (S.byte pos).toNat n.val c.ic then find c n.b (pos + 1) else (none, c)
  else
    let (cp, len) := utf8Next (S.from pos)
    if matchFold S.W cp n.val c.ic then find c n.b (pos + len) else (none, c)

/-- `__jacl_prim_CLASS`; for a byte below 0x80 the decoder answers what is read without it. -/
def primClass (c : MatchCtx) (n : MatchNode) (pos : Nat) : Found :=
  if pos ≥ S.s.length then (none, c)
  else
    let (cp, len) := utf8Next (S.from pos)
    if matchInClass S.W S.m.classes cp (n.val % 256) c.ic then find c n.b (pos + len) else (none, c)

/-- `__jacl_prim_ANY`; a byte from 0x80 on takes the continuation bytes that follow with it. -/
def primAny (c : MatchCtx) (n : MatchNode) (pos : Nat) : Found :=
  if pos ≥ S.s.length then (none, c)
  else if ¬n.eflags.dotall ∧ S.byte pos = asc '\n' then (none, c)
  else
    let next := if S.byte pos ≥ 0x80 then pos + 1 + ((S.from (pos + 1)).takeWhile utf8IsCont).length else pos + 1
    find c n.b next

/-- `__jacl_prim_BOL` -/
def primBol (c : MatchCtx) (n : MatchNode) (pos : Nat) : Found :=
  if S.ef.notbol then (none, c)
  else if pos = 0 ∨ (S.nl ∧ pos > 0 ∧ S.byte (pos - 1) = asc '\n') then find c n.b pos else (none, c)

/-- `__jacl_prim_EOL` -/
def primEol (c : MatchCtx) (n : MatchNode) (pos : Nat) : Found :=
  if S.ef.noteol then (none, c)
  else if pos = S.s.length ∨ (S.nl ∧ pos < S.s.length ∧ S.byte pos = asc '\n') then find c n.b pos else (none, c)

/-- `c->caps[idx] = so; c->caps[idx+1] = eo` -/
def setCap (c : MatchCtx) (idx : Nat) (so eo : Int) : MatchCtx :=
  { c with caps := Function.update (Function.update c.caps idx so) (idx + 1) eo }

/-- `__jacl_prim_CAP` -/
def primCap (c : MatchCtx) (n : MatchNode) (pos : Nat) : Found :=
  let idx := n.capId * 2
  if idx + 1 ≥ MATCH_MAX_GROUPS * 2 then (none, { c with error := .einternal })
  else
    let so := c.caps idx
    let eo := c.caps (idx + 1)
    match find { c with caps := Function.update c.caps idx pos } n.a pos with
    | (none, c) => (none, setCap c idx so eo)
    | (some r, c) =>
      if c.error ≠ .success then (none, setCap c idx so eo)
      else
        match find { c with caps := Function.update c.caps (idx + 1) r } n.b r with
        | (none, c) => (none, setCap c idx so eo)
        | (some res, c) => (some res, c)

/-- The `while` loop of `__jacl_prim_SEQ`.  A concatenation is made after its operands, so along the chain of second
operands the index falls, and `n + 1` turns are enough. -/
def seqLoop : Nat → MatchCtx → Nat → Nat → Found
  | 0, c, n, pos => find c n pos
  | fuel + 1, c, n, pos =>
    if n ≠ 0 ∧ (S.m.node n).type = .SEQ then
      match find c (S.m.node n).a pos with
      | (none, c) => (none, c)
      | (some r, c) =>
        if c.error ≠ .success then (none, c)
        else
          let b := (S.m.node n).b
          let c := if b ≠ 0 then { c with ic := if (S.m.node b).eflags.icase then true else c.ic } else c
          seqLoop fuel c b r
    else find c n pos

/-- `__jacl_prim_SEQ` -/
def primSeq (c : MatchCtx) (n pos : Nat) : Found := seqLoop S find (n + 1) c n pos

/-- `__jacl_prim_ALT` -/
def primAlt (c : MatchCtx) (n : MatchNode) (pos : Nat) : Found :=
  match find c n.a pos with
  | (some r, c') => (some r, c')
  | (none, c') => if c'.error = .edepth then (none, c') else find { c' with caps := c.caps } n.b pos

/-- The first loop of `__jacl_prim_REP`: the number of copies of the body found, with their ends in `path`. -/
def repLoop (n : MatchNode) : Nat → Nat → MatchCtx → Nat × MatchCtx
  | 0, k, c => (k, c)
  | fuel + 1, k, c =>
    if k < MATCH_MAX_BACKTRACK - 1 ∧ (n.max = 255 ∨ k < n.max) then
      match find { c with cpath := Function.update c.cpath (k + 1) c.caps } n.a (c.path k) with
      | (none, c) => (k, c)
      | (some next, c) =>
        if next = c.path k then (k, c)
        else
          repLoop n fuel (k + 1)
            { c with path := Function.update c.path (k + 1) next, cpath := Function.update c.cpath (k + 1) c.caps }
    else (k, c)

/-- The second loop of `__jacl_prim_REP`, over the numbers of copies in the order they are tried. -/
def repTry (n : MatchNode) : List Nat → MatchCtx → Found
  | [], c => (none, c)
  | i :: is, c =>
    let c := { c with caps := c.cpath i }
    match (if n.b ≠ 0 then find c n.b (c.path i) else (some (c.path i), c)) with
    | (some r, c) => (some r, c)
    | (none, c) => if c.error = .edepth then (none, c) else repTry n is c

/-- The numbers of copies from `min` to `k`, least first for a lazy repetition and largest first for a greedy one. -/
def repOrder (lazy : Bool) (min k : Nat) : List Nat :=
  let counts := List.range' min (k + 1 - min)
  if lazy then counts else counts.reverse

/-- `__jacl_prim_REP` -/
def primRep (c : MatchCtx) (n : MatchNode) (pos : Nat) : Found :=
  let c := { c with path := Function.update c.path 0 pos, cpath := Function.update c.cpath 0 c.caps }
  let (k, c) := repLoop find n MATCH_MAX_BACKTRACK 0 c
  repTry find n (repOrder n.lazy n.min k) c

/-- `while (cp > c->s && JACL_UTF8_CONT(cp)) cp--` -/
def backToLead : Nat → Nat
  | 0 => 0
  | cp + 1 => if utf8IsCont (S.byte (cp + 1)) then backToLead cp else cp + 1

/-- The loop of a lookbehind: starts from `cp` down that reach `pos`.  `sub` has its own `ic`, `depth` and `error`, and
shares the captures and the workspace.  `sizeof(c->caps)` is the size of a pointer, so that only the first of the
saved captures is put back. -/
def lookBehind (scap : Nat → Int) (a pos : Nat) : Nat → Nat → MatchCtx → Bool × MatchCtx
  | 0, _, c => (false, c)
  | fuel + 1, cp, c =>
    let (r, sub) := find { c with caps := Function.update c.caps 0 (scap 0) } a cp
    let c := { c with caps := sub.caps, path := sub.path, cpath := sub.cpath }
    if r = some pos then (true, c)
    else if cp = 0 then (false, c)
    else
      match backToLead S cp with
      | 0 => (false, c)
      | cp + 1 => lookBehind scap a pos fuel cp c

/-- `__jacl_prim_LOOK` -/
def primLook (c : MatchCtx) (n : MatchNode) (pos : Nat) : Found :=
  let (found, c) :=
    if n.capId = 1 then
      let (found, c') := lookBehind S find c.caps n.a pos (pos + 1) pos c
      (found, { c' with caps := c.caps })
    else
      let (r, sub) := find c n.a pos
      (r.isSome, { c with caps := sub.caps, path := sub.path, cpath := sub.cpath })
  if (if n.neg = 1 then !found else found) then find c n.b pos else (none, c)

/-- The loop of `__jacl_prim_BACKREF`: the position behind the copy, if `ref` is found at `curr`. -/
def backrefLoop (ic : Bool) : Nat → List UInt8 → Nat → Option Nat
  | 0, _, _ => none
  | fuel + 1, ref, curr =>
    if ref ≠ [] ∧ curr < S.s.length then
      let (x, lx) := utf8Next ref
      let (y, ly) := utf8Next (S.from curr)
      if matchFold S.W x y ic then backrefLoop ic fuel (ref.drop lx) (curr + ly) else none
    else if ref = [] then some curr
    else none

/-- `__jacl_prim_BACKREF` -/
def primBackref (c : MatchCtx) (n : MatchNode) (pos : Nat) : Found :=
  let idx := n.val * 2
  if idx + 1 ≥ MATCH_MAX_GROUPS * 2 then (none, { c with error := .einternal })
  else if c.caps idx = -1 then (none, c)
  -- the end of a group that is still open is in front of its start, and `ref_start` is not `ref_end`
  else if c.caps (idx + 1) < c.caps idx then (none, c)
  else
    let ref := (S.s.take (c.caps (idx + 1)).toNat).drop (c.caps idx).toNat
    match backrefLoop S c.ic (ref.length + 1) ref pos with
    | some curr => find c n.b curr
    | none => (none, c)

/-- `__jacl_prim_ATOMIC` -/
def primAtomic (c : MatchCtx) (n : MatchNode) (pos : Nat) : Found :=
  match find c n.a pos with
  | (none, c) => (none, c)
  | (some r, c) =>
    if c.error ≠ .success then (none, c)
    else if n.b ≠ 0 then find c n.b r
    else (some r, c)

/-- `__jacl_prim_COND` -/
def primCond (c : MatchCtx) (n : MatchNode) (pos : Nat) : Found :=
  let idx := n.val * 2
  let b := if idx < MATCH_MAX_GROUPS * 2 ∧ c.caps idx ≠ -1 then n.a else n.b
  if b ≠ 0 then find c b pos else (some pos, c)

/-- `__jacl_match_is_word` -/
def isWord (cp : Nat) : Bool := S.W.iswalnum cp || cp = (asc '_').toNat

/-- `__jacl_prim_WB`, and with `neg` `__jacl_prim_NWB`. -/
def primWb (neg : Bool) (c : MatchCtx) (n : MatchNode) (pos : Nat) : Found :=
  if pos = 0 ∨ pos = S.s.length then if neg then (none, c) else find c n.b pos
  else
    let prev := isWord S (utf8Next ((S.s.take pos).drop (backToLead S (pos - 1)))).1
    let curr := decide (pos < S.s.length) && isWord S (utf8Next (S.from pos)).1
    if (if neg then prev = curr else prev ≠ curr) then find c n.b pos else (none, c)

/-- `__jacl_prim_CALL` -/
def primCall (c : MatchCtx) (n : MatchNode) (pos : Nat) : Found :=
  if n.val = 0 then find c S.m.root pos
  else if n.val < 32 ∧ S.m.groups n.val ≠ 0 then find c (S.m.groups n.val) pos
  else (none, c)

end Primitives

/-! ### The matcher -/

/-- The `switch (n->type)` of `matchfind`. -/
def matchNode (S : Subject) (find : Finder) (c : MatchCtx) (n pos : Nat) : Found :=
  let node := S.m.node n
  match node.type with
  | .END => (some pos, c)
  | .CHAR => primChar S find c node pos
  | .CLASS => primClass S find c node pos
  | .ANY => primAny S find c node pos
  | .BOL => primBol S find c node pos
  | .EOL => primEol S find c node pos
  | .CAP => primCap find c node pos
  | .ALT => primAlt find c node pos
  | .SEQ => primSeq S find c n pos
  | .REP => primRep find c node pos
  | .LOOK => primLook S find c node pos
  | .BACKREF => primBackref S find c node pos
  | .WB => primWb S find false c node pos
  | .NWB => primWb S find true c node pos
  | .FLAGS => find c node.a pos
  | .ATOMIC => primAtomic find c node pos
  | .COND => primCond find c node pos
  | .CALL => primCall S find c node pos

/-- `matchfind` -/
def matchfind (S : Subject) : Nat → Finder
  | 0, c, _, _ => (none, { c with error := .edepth })
  | fuel + 1, c, n, pos =>
    if c.depth + 1 > MATCH_MAX_DEPTH then (none, { c with error := .edepth })
    else if n = 0 then (some pos, c)
    else matchNode S (matchfind S fuel) { c with depth := c.depth + 1 } n pos

/-- An ASCII capital as `matchgate` compares it. -/
def gateFold (ic : Bool) (b : UInt8) : UInt8 := if ic ∧ asc 'A' ≤ b ∧ b ≤ asc 'Z' then b + 32 else b

/-- `matchgate`, from position `p` on with `fuel` positions left to try: the first at which the literal stands. -/
def matchgate (m : Matcher) (s : List UInt8) (ic : Bool) : Nat → Nat → Option Nat
  | fuel, p =>
    if m.lit = [] then some p
    else
      match fuel with
      | 0 => none
      | fuel + 1 =>
        if p + m.lit.length ≤ s.length then
          if ((s.drop p).take m.lit.length).map (gateFold ic) = m.lit.map (gateFold ic) then some p
          else matchgate m s ic fuel (p + 1)
        else none

/-- `match_find_t` of the whole match. -/
structure Span where
  rm_so : Nat
  rm_eo : Nat
  deriving DecidableEq, Repr

/-- The loop of `matchexec` over the start positions. -/
def execLoop (S : Subject) (anchored : Bool) : Nat → Nat → MatchCtx → Except MatchErr (Span × MatchCtx)
  | 0, _, c => .error (if c.error ≠ .success then c.error else .nomatch)
  | fuel + 1, start, c =>
    if start ≤ S.s.length then
      let c := { c with caps := fun _ => -1 }
      if c.depth > MATCH_MAX_DEPTH then .error .edepth
      else match matchfind S (MATCH_MAX_DEPTH + 1) c S.m.root start with
      | (r, c) =>
        if c.error = .edepth then .error .edepth
        else
          match r with
          | none =>
            if anchored then .error (if c.error ≠ .success then c.error else .nomatch)
            else execLoop S anchored fuel (start + 1) c
          | some r => .ok (⟨start, r⟩, c)
    else .error (if c.error ≠ .success then c.error else .nomatch)

/-- The context at the start of `matchexec`; the workspace is not initialised, `ws` and `cws` are its contents. -/
def MatchCtx.init (ic : Bool) (ws : Nat → Nat) (cws : Nat → Nat → Int) : MatchCtx :=
  ⟨fun _ => -1, ic, 0, .success, ws, cws⟩

/-- `matchexec`: an error, or the span of the match and the context with the captures. -/
def matchexec (W : Wctype) (m : Matcher) (s : List UInt8) (fl : ExecFlags) (ws : Nat → Nat) (cws : Nat → Nat → Int) :
    Except MatchErr (Span × MatchCtx) :=
  let ic := m.eflags.icase || fl.icase
  let S : Subject := ⟨W, m, s, m.eflags.newline || fl.newline, fl⟩
  let anchored := m.root ≠ 0 ∧ (m.node m.root).type = .BOL
  let start := if anchored ∨ m.eflags.icase then some 0 else matchgate m s ic (s.length + 1) 0
  match start with
  | none => .error .nomatch
  | some start => execLoop S anchored (s.length + 1) start (.init ic ws cws)

end JACLibc
