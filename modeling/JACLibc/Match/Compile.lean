import JACLibc.Match.Matcher

/-!
# `matchcomp`

The recursive-descent parser of `match.h`.  `Parser` is `match_parser_t` with `p` as the unread rest of the pattern;
the recursion from an atom into the expression of a group is bounded by fuel, and every loop by the same fuel.  An
answer `none` means that the fuel ran out or that a merge of ranges tore up the pointers to the class names.

Nodes are always obtained: `M_ESPACE` is an error, and a pattern with an error is not accepted.
-/

namespace JACLibc

/-- `match_parser_t`; `m` holds the arena, the group table and the group names. -/
structure Parser where
  p : List UInt8
  m : Matcher
  err : MatchErr
  cap : Nat
  cflags : CompFlags
  eflags : ExecFlags

/-- The parsing functions answer an arena index (0 for none) and the new parser state. -/
abbrev Parse := Nat × Parser

namespace Parser

/-- `*p->p` -/
def peek (p : Parser) : UInt8 := deref p.p

/-- `p->p[1]` -/
def peek1 (p : Parser) : UInt8 := deref p.p.tail

/-- `p->p += n` -/
def skip (p : Parser) (n : Nat) : Parser := { p with p := p.p.drop n }

/-- `JACL_PARSE_FAIL` -/
def fail (p : Parser) (err : MatchErr) : Parse := (0, { p with err := err })

/-- `p->m->arena[i]` after an assignment to some of its fields. -/
def modify (p : Parser) (i : Nat) (f : MatchNode → MatchNode) : Parser :=
  { p with m := { p.m with arena := p.m.arena.modify i f } }

/-- The state after `__jacl_match_node`; the index is `count`, the length of the arena before. -/
def push (p : Parser) (n : MatchNode) : Parser := { p with m := { p.m with arena := p.m.arena ++ [n] } }

def count (p : Parser) : Nat := p.m.arena.length

/-- `JACL_NODE_FLAGS` and assignments to the other fields. -/
def nodeFlags (p : Parser) (type : Tok) (f : MatchNode → MatchNode) : Parse :=
  (p.count, p.push (f { MatchNode.fresh type with eflags := p.eflags }))

/-- `if (cap < 32) p->m->groups[cap] = n` -/
def setGroup (p : Parser) (cap n : Nat) : Parser :=
  if cap < 32 then { p with m := { p.m with groups := fun k => if k = cap then n else p.m.groups k } } else p

/-- `if (cap < 32) p->m->nsub_names[cap] = strdup(name)` -/
def setName (p : Parser) (cap : Nat) (name : List UInt8) : Parser :=
  if cap < 32 then { p with m := { p.m with names := fun k => if k = cap then some name else p.m.names k } } else p

/-- `JACL_PARSE_PAREN` followed by `return n`. -/
def closeParen (p : Parser) (n : Nat) : Parse := if p.peek = asc ')' then (n, p.skip 1) else p.fail .eparen

/-- `JACL_PARSE_NAME`: at most 31 bytes up to the closing delimiter. -/
def name (p : Parser) (close : UInt8) : List UInt8 × Parser :=
  let name := (p.p.takeWhile (· ≠ close)).take 31
  (name, p.skip name.length)

/-- The group with a name, searched from 1 on. -/
def findName (p : Parser) (name : List UInt8) : Option Nat :=
  (List.range' 1 31).find? fun k => p.m.names k = some name

/-- The decimal number at the read position. -/
def decimal (p : Parser) (val : Int) : Int × Parser :=
  ((readDecimal val p.p).1, { p with p := (readDecimal val p.p).2 })

end Parser

/-- `__jacl_match_rep` -/
def matchRep (p : Parser) (body : Nat) (min max : Int) (lazy : Bool) : Parse :=
  (p.count, p.push { MatchNode.fresh .REP with
    a := body, min := (min % 256).toNat, max := if max < 0 then 255 else (max % 256).toNat, lazy := lazy,
    eflags := (p.m.node body).eflags })

/-! ### Classes -/

/-- The loop of `__jacl_match_add_range`, and the entry that it adds. -/
def addLoop (cid neg : Nat) : Nat → Nat → Nat → Nat → ClassTable → Option ClassTable
  | 0, _, _, _, _ => none
  | fuel + 1, i, lo, hi, t =>
    if i < t.nr then
      if t.rcid i ≠ cid ∨ lo > (t.rhi i + 1) % 2 ^ 32 ∨ hi < (t.rlo i + (2 ^ 32 - 1)) % 2 ^ 32
        then addLoop cid neg fuel (i + 1) lo hi t
      else
        match t.remove i with
        | none => none
        | some t' => addLoop cid neg fuel i (min lo (t.rlo i)) (max hi (t.rhi i)) t'
    else some (t.append lo hi cid neg none)

/-- `__jacl_match_add_range` -/
def matchAddRange (t : ClassTable) (lo hi cid neg : Nat) : Option ClassTable :=
  if lo > hi ∨ t.nr ≥ 32 then some t else addLoop cid neg (t.nr + 1) 0 lo hi t

namespace Parser

/-- `__jacl_match_add_range(p->m, lo, hi, cid, neg)` -/
def addRange (p : Parser) (lo hi cid neg : Nat) : Option Parser :=
  (matchAddRange p.m.classes lo hi cid neg).map fun t => { p with m := { p.m with classes := t } }

/-- The loop of `__jacl_parse_collating` and its like: the first 15 characters up to `delim` or `]`, and the parser
there. -/
def elementName (p : Parser) (delim : UInt8) : List UInt8 × Parser :=
  let text := (p.skip 2).p.takeWhile fun c => c ≠ delim ∧ c ≠ asc ']'
  (text.take 15, p.skip (2 + text.length))

end Parser

/-- The names for which `wctype` does not answer `WCTYPE_UNKNOWN`. -/
def classNames : List (List UInt8) :=
  ["lower", "upper", "digit", "alpha", "alnum", "space", "cntrl", "print", "graph", "punct", "blank", "xdigit"].map lit

/-- What `__jacl_parse_collating` and `__jacl_parse_equivalence` share. -/
def parseElement (delim : UInt8) (p : Parser) (cid neg : Nat) : Option Parser :=
  let (name, p) := p.elementName delim
  if p.peek ≠ delim ∨ p.peek1 ≠ asc ']' then some (p.fail .ecollate).2
  else
    match name with
    | [] => some (p.fail .ecollate).2
    | c :: _ => (p.skip 2).addRange c.toNat c.toNat cid neg

/-- `__jacl_parse_collating` -/
def parseCollating (p : Parser) (cid neg : Nat) : Option Parser := parseElement (asc '.') p cid neg

/-- `__jacl_parse_equivalence` -/
def parseEquivalence (p : Parser) (cid neg : Nat) : Option Parser := parseElement (asc '=') p cid neg

/-- `__jacl_parse_posix_class` -/
def parsePosixClass (p : Parser) (cid neg : Nat) : Parser :=
  let (name, p) := p.elementName (asc ':')
  if p.peek ≠ asc ':' ∨ p.peek1 ≠ asc ']' then (p.fail .ectype).2
  else
    let p := p.skip 2
    if name ∉ classNames then (p.fail .ectype).2
    else if p.m.classes.nr < 32 then { p with m := { p.m with classes := p.m.classes.append 0 0 cid neg (some name) } }
    else p

/-- A character of a bracket expression, or a range. -/
def bracketRange (p : Parser) (cid neg : Nat) : Option Parser :=
  let p := if p.peek = asc '\\' ∧ p.peek1 ≠ 0 then p.skip 1 else p
  let lo := utf8Next p.p
  let p := p.skip lo.2
  if p.peek = asc '-' ∧ p.peek1 ≠ asc ']' then
    let p := p.skip 1
    let hi := utf8Next p.p
    (p.skip hi.2).addRange lo.1 hi.1 cid neg
  else p.addRange lo.1 lo.1 cid neg

/-- The loop of `__jacl_atom_bracket`. -/
def bracketLoop (cid neg : Nat) : Nat → Parser → Option Parser
  | 0, _ => none
  | fuel + 1, p =>
    if p.peek = 0 ∨ p.peek = asc ']' then some p
    else
      let next :=
        if p.peek = asc '[' ∧ p.peek1 = asc ':' then some (parsePosixClass p cid neg)
        else if p.peek = asc '[' ∧ p.peek1 = asc '.' then parseCollating p cid neg
        else if p.peek = asc '[' ∧ p.peek1 = asc '=' then parseEquivalence p cid neg
        else bracketRange p cid neg
      match next with
      | none => none
      | some p => bracketLoop cid neg fuel p

/-- `__jacl_atom_bracket` -/
def atomBracket (fuel : Nat) (p : Parser) : Option Parse :=
  let p := p.skip 1
  let neg := if p.peek = asc '^' then 1 else 0
  let p := if p.peek = asc '^' then p.skip 1 else p
  let cid := p.m.classes.nr % 256
  match bracketLoop cid neg fuel p with
  | none => none
  | some p =>
    if p.peek = asc ']' then some ((p.skip 1).nodeFlags .CLASS fun n => { n with val := cid, neg := neg })
    else some (p.fail .ebrack)

/-- A class escape: the node comes first, then the ranges. -/
def classEscape (p : Parser) (ranges : List (Nat × Nat)) : Option Parse :=
  let n := p.count
  let cid := p.m.classes.nr % 256
  let p := p.push (.fresh .CLASS)
  match ranges.foldlM (fun p r => p.addRange r.1 r.2 cid 0) p with
  | none => none
  | some p => some (n, (p.modify n fun node => { node with val := cid }).skip 1)

/-! ### Terms and expressions -/

/-- The characters of `strchr("*?+{", c)`. -/
def isQuant (c : UInt8) : Bool := c ∈ [asc '*', asc '?', asc '+', asc '{']

/-- The loop of `__jacl_match_term`. -/
def termLoop (atom : Parser → Option Parse) : Nat → Nat → Parser → Option Parse
  | 0, _, _ => none
  | fuel + 1, a, p =>
    if p.peek = 0 ∨ p.peek = asc ')' ∨ p.err ≠ .success then some (a, p)
    else if (p.cflags.altern ∧ p.peek = asc '|') ∨ isQuant p.peek then some (a, p)
    else
      match atom p with
      | none => none
      | some (b, p) =>
        if b = 0 then some (a, p)
        else
          let (seq, p) := p.nodeFlags .SEQ fun n => { n with a := a, b := b }
          termLoop atom fuel seq p

/-- `__jacl_match_term` -/
def matchTerm (atom : Parser → Option Parse) (fuel : Nat) (p : Parser) : Option Parse :=
  match atom p with
  | none => none
  | some (a, p) => termLoop atom fuel a p

/-- The loop of `__jacl_match_expr`. -/
def exprLoop (term : Parser → Option Parse) : Nat → Nat → Parser → Option Parse
  | 0, _, _ => none
  | fuel + 1, a, p =>
    if p.peek = asc '|' ∧ p.err = .success then
      match term (p.skip 1) with
      | none => none
      | some (b, p) =>
        if b = 0 then some (a, p)
        else
          let (alt, p) := p.nodeFlags .ALT fun n => { n with a := a, b := b }
          exprLoop term fuel alt p
    else some (a, p)

/-- `__jacl_match_expr` -/
def matchExpr (term : Parser → Option Parse) (fuel : Nat) (p : Parser) : Option Parse :=
  match term p with
  | none => none
  | some (a, p) => if p.cflags.altern then exprLoop term fuel a p else some (a, p)

/-! ### Groups -/

section Groups

variable (expr term : Parser → Option Parse)

/-- A `MTOK_CAP` node with number `cap`, its body, and the closing parenthesis. -/
def parenBody (p : Parser) (cap : Nat) : Option Parse :=
  let (n, p) := p.nodeFlags .CAP fun n => { n with capId := cap % 256 }
  match expr (p.setGroup cap n) with
  | none => none
  | some (a, p) => some ((p.modify n fun node => { node with a := a }).closeParen n)

/-- `__jacl_paren_capture` -/
def parenCapture (p : Parser) (cap : Nat) : Option Parse :=
  if p.cflags.capture then parenBody expr p cap else some (p.fail .badpat)

/-- `__jacl_paren_named_cap` -/
def parenNamedCap (p : Parser) (cap : Nat) : Option Parse :=
  if p.cflags.nameref then
    let (name, p) := (p.skip 1).name (asc '>')
    let p := if p.peek = asc '>' then p.skip 1 else p
    parenBody expr (p.setName cap name) cap
  else some (p.fail .badpat)

/-- `__jacl_paren_look` -/
def parenLook (p : Parser) (behind neg : Bool) : Option Parse :=
  if (if behind then p.cflags.lookback else p.cflags.lookfwd) then
    let (n, p) := p.nodeFlags .LOOK fun n => { n with capId := behind.toNat, neg := neg.toNat }
    match expr (p.skip (if behind then 2 else 1)) with
    | none => none
    | some (a, p) => some ((p.modify n fun node => { node with a := a }).closeParen n)
  else some (p.fail .badpat)

/-- `JACL_PARSE_PAREN`, then a `MTOK_CALL` node. -/
def callNode (p : Parser) (id : Int) : Parse := p.nodeFlags .CALL fun n => { n with val := (id % 2 ^ 32).toNat }

/-- `__jacl_paren_call` -/
def parenCall (p : Parser) (named : Bool) : Parse :=
  let p := p.skip 1
  if named then
    let (name, p) := p.name (asc ')')
    if p.peek = asc ')' then
      match (p.skip 1).findName name with
      | some id => callNode (p.skip 1) id
      | none => (p.skip 1).fail .esubmatch
    else p.fail .eparen
  else
    let (id, p) := p.decimal 0
    if p.peek = asc ')' then callNode (p.skip 1) id else p.fail .eparen

/-- `__jacl_paren_recursion` -/
def parenRecursion (p : Parser) : Parse :=
  if p.cflags.recurse then
    if p.peek1 = asc ')' ∨ p.peek1 = asc '0' then callNode (p.skip 2) 0 else p.fail .badpat
  else p.fail .badpat

/-- The reference of `__jacl_paren_cond`: a number, or a name between delimiters. -/
def condId (p : Parser) : Int × Parser :=
  if asc '0' ≤ p.peek ∧ p.peek ≤ asc '9' then p.decimal 0
  else if p.peek = asc '<' ∨ p.peek = asc '\'' then
    let delim := p.peek
    let (name, p) := (p.skip 1).name (if delim = asc '<' then asc '>' else delim)
    let p := if p.peek = delim ∨ p.peek = asc '>' then p.skip 1 else p
    (((p.findName name).getD 0 : Nat), p)
  else (0, p)

/-- `__jacl_paren_cond` -/
def parenCond (p : Parser) : Option Parse :=
  if p.cflags.cond then
    let (id, p) := condId (p.skip 1)
    if p.peek = asc ')' then
      match term (p.skip 1) with
      | none => none
      | some (yes, p) =>
        match (if p.peek = asc '|' then term (p.skip 1) else some (p.count, p.push (.fresh .END))) with
        | none => none
        | some (no, p) =>
          let (n, p) := p.nodeFlags .COND fun n => { n with val := (id % 2 ^ 32).toNat, a := yes, b := no }
          some ({ p with cap := p.cap - 1 }.closeParen n)
    else some (p.fail .eparen)
  else some (p.fail .badpat)

/-- The `do` loop of `__jacl_paren_branch_reset`; `head` is `none` before the first branch. -/
def branchLoop (reset : Nat) : Nat → Option Nat → Nat → Parser → Option (Option Nat × Nat × Parser)
  | 0, _, _, _ => none
  | fuel + 1, head, maxCap, p =>
    match term { p with cap := reset } with
    | none => none
    | some (t, p) =>
      if p.err ≠ .success then some (none, maxCap, p)
      else
        let maxCap := max maxCap p.cap
        let (head, p) :=
          match head with
          | none => (t, p)
          | some head => p.nodeFlags .ALT fun n => { n with a := head, b := t }
        if p.peek = asc '|' then branchLoop reset fuel (some head) maxCap (p.skip 1) else some (some head, maxCap, p)

/-- `__jacl_paren_branch_reset` -/
def parenBranchReset (fuel : Nat) (p : Parser) : Option Parse :=
  match branchLoop term (p.cap - 1) fuel none (p.cap - 1) (p.skip 1) with
  | none => none
  | some (none, _, p) => some (0, p)
  | some (some head, maxCap, p) => some ({ p with cap := maxCap }.closeParen head)

/-- `__jacl_paren_atomic` -/
def parenAtomic (p : Parser) : Option Parse :=
  if p.cflags.atomic then
    match expr (p.skip 1) with
    | none => none
    | some (inner, p) =>
      if inner = 0 then some (0, p)
      else
        let (n, p) := p.nodeFlags .ATOMIC fun n => { n with a := inner }
        some (p.closeParen n)
  else some (p.fail .badpat)

/-- The loop of `__jacl_paren_flags`: the new flags and whether a `:` ended it, or `none` at a character that is no
flag. -/
def flagsLoop : ExecFlags → List UInt8 → Option (ExecFlags × Bool) × List UInt8
  | fl, [] => (some (fl, false), [])
  | fl, c :: bs =>
    if c = asc 'i' ∨ c = asc 'I' then flagsLoop { fl with icase := true } bs
    else if c = asc 's' ∨ c = asc 'S' then flagsLoop { fl with dotall := true } bs
    else if c = asc '-' then
      match bs with
      | d :: bs =>
        if d = asc 'i' then flagsLoop { fl with icase := false } bs
        else if d = asc 's' then flagsLoop { fl with dotall := false } bs
        else (none, d :: bs)
      | [] => (none, [])
    else if c = asc ':' then (some (fl, true), bs)
    else if c = asc ')' then (some (fl, false), bs)
    else (none, c :: bs)

/-- `__jacl_paren_flags` -/
def parenFlags (p : Parser) : Option Parse :=
  match flagsLoop p.eflags p.p with
  | (none, rest) => some ({ p with p := rest }.fail .badpat)
  | (some (fl, scope), rest) =>
    if p.err ≠ .success then some (0, { p with p := rest })
    else if scope then
      match expr { p with p := rest, eflags := fl } with
      | none => none
      | some (n, q) =>
        let q := { q with eflags := p.eflags }
        if q.err ≠ .success then some (0, q) else some (q.closeParen n)
    else
      let p := { p with p := rest, eflags := fl }
      some (p.count, p.push (.fresh .END))

/-- `__jacl_atom_paren` -/
def atomParen (fuel : Nat) (p : Parser) : Option Parse :=
  let cap := p.cap + 1
  let p := { p.skip 1 with cap := cap }
  if p.peek ≠ asc '?' then parenCapture expr p cap
  else
    let p := p.skip 1
    if p.peek = asc '&' then some (parenCall p true)
    else if asc '1' ≤ p.peek ∧ p.peek ≤ asc '9' then some (parenCall p false)
    else if p.peek = asc '(' then parenCond term p
    else if p.peek = asc '|' then parenBranchReset term fuel p
    else if p.peek = asc '<' then
      if p.peek1 = asc '=' ∨ p.peek1 = asc '!' then parenLook expr p true (p.peek1 = asc '!')
      else parenNamedCap expr p cap
    else if p.peek = asc '>' then parenAtomic expr p
    else if p.peek = asc '=' then parenLook expr p false false
    else if p.peek = asc '!' then parenLook expr p false true
    else if p.peek = asc 'R' ∨ p.peek = asc '0' then some (parenRecursion p)
    else parenFlags expr p

end Groups

/-! ### Atoms -/

/-- A `MTOK_CHAR` node for the next character of the pattern. -/
def charNode (p : Parser) : Parse :=
  let r := p.nodeFlags .CHAR fun n => { n with val := (utf8Next p.p).1 }
  (r.1, r.2.skip (utf8Next p.p).2)

/-- A `MTOK_BACKREF` node. -/
def backrefNode (p : Parser) (id : Int) : Parse := p.nodeFlags .BACKREF fun n => { n with val := (id % 2 ^ 32).toNat }

/-- `__jacl_atom_escape` -/
def atomEscape (p : Parser) : Option Parse :=
  let p := p.skip 1
  if p.peek = asc 'k' then
    if p.cflags.backref ∨ p.cflags.nameref then
      let p := p.skip 1
      let delim := p.peek
      if delim ≠ asc '<' ∧ delim ≠ asc '\'' then some (p.fail .badpat)
      else
        let (name, p) := (p.skip 1).name (if delim = asc '<' then asc '>' else delim)
        let p := if p.peek = delim ∨ (delim = asc '<' ∧ p.peek = asc '>') then p.skip 1 else p
        match p.findName name with
        | some id => some (backrefNode p id)
        | none => some (p.fail .esubmatch)
    else some (p.fail .badpat)
  else if asc '1' ≤ p.peek ∧ p.peek ≤ asc '9' then
    if p.cflags.backref then
      let (id, p) := p.decimal 0
      some (backrefNode p id)
    else some (p.fail .badpat)
  else if p.peek = asc 'b' ∨ p.peek = asc 'B' then
    if p.cflags.boundary then
      let (n, q) := p.nodeFlags (if p.peek = asc 'b' then .WB else .NWB) id
      some (n, q.skip 1)
    else some (p.fail .badpat)
  else if p.peek = asc 's' then
    if p.cflags.escape then classEscape p [(0x20, 0x20), (0x09, 0x09), (0x0A, 0x0A), (0x0D, 0x0D)]
      else some (p.fail .badpat)
  else if p.peek = asc 'd' then
    if p.cflags.escape then classEscape p [(0x30, 0x39)] else some (p.fail .badpat)
  else if p.peek = asc 'w' then
    if p.cflags.escape then classEscape p [(0x30, 0x39), (0x41, 0x5A), (0x61, 0x7A), (0x5F, 0x5F)]
      else some (p.fail .badpat)
  else some (charNode p)

/-- `__jacl_atom_simple` -/
def atomSimple (p : Parser) : Parse :=
  let simple (type : Tok) : Parse := let (n, q) := p.nodeFlags type id; (n, q.skip 1)
  if p.peek = asc '.' then simple .ANY
  else if p.peek = asc '^' then if p.cflags.anchor then simple .BOL else p.fail .badpat
  else if p.peek = asc '$' then if p.cflags.anchor then simple .EOL else p.fail .badpat
  else if p.peek = asc '|' ∧ ¬p.cflags.altern then
    let (n, q) := p.nodeFlags .CHAR fun n => { n with val := (asc '|').toNat }
    (n, q.skip 1)
  else if p.peek = asc ')' ∨ p.peek = 0 ∨ p.peek = asc '|' then (0, p)
  else charNode p

/-- The bounds that a quantifier writes: `none` when there is no quantifier here, else the minimum and the maximum, or
nothing when the closing brace is missing, and the parser behind it. -/
def quantBounds (p : Parser) : Option (Option (Int × Int) × Parser) :=
  if p.peek = asc '*' then some (some (0, 255), p.skip 1)
  else if p.peek = asc '?' then some (some (0, 1), p.skip 1)
  else if p.peek = asc '+' then some (some (1, 255), p.skip 1)
  else if p.peek = asc '{' then
    let (mn, p) := (p.skip 1).decimal 0
    let (mx, p) :=
      if p.peek = asc ',' then
        let p := p.skip 1
        if p.peek = asc '}' then (255, p) else p.decimal 0
      else (mn, p)
    if p.peek = asc '}' then some (some (mn, mx), p.skip 1) else some (none, p)
  else none

/-- `__jacl_match_quant`: the index that the quantified atom has afterwards. -/
def matchQuant (p : Parser) (n : Nat) : Parse :=
  if ¬p.cflags.quant then (n, { p with err := .badpat })
  else
    match quantBounds p with
    | none => (n, p)
    | some (none, p) => (n, { p with err := .ebrace })
    | some (some (mn, mx), p) =>
      if p.peek = asc '?' ∧ ¬p.cflags.ungreedy then (n, { p with err := .badpat })
      else
        let lazy : Bool := p.peek = asc '?'
        let p := if lazy then { p.skip 1 with eflags := { p.eflags with ungreedy := true } } else p
        let (rep, p) := matchRep p n mn mx lazy
        if p.peek = asc '+' then
          let p := p.skip 1
          (p.count, p.push { MatchNode.fresh .ATOMIC with a := rep, eflags := (p.m.node rep).eflags })
        else (rep, p)

/-- `__jacl_match_atom` -/
def matchAtom : Nat → Parser → Option Parse
  | 0, _ => none
  | fuel + 1, p =>
    let term := matchTerm (matchAtom fuel) fuel
    let atom :=
      if p.peek = asc '[' then atomBracket fuel p
      else if p.peek = asc '(' then atomParen (matchExpr term fuel) term fuel p
      else if p.peek = asc '\\' then atomEscape p
      else some (atomSimple p)
    match atom with
    | none => none
    | some (n, p) => if n = 0 then some (0, p) else some (matchQuant p n)

/-! ### The whole pattern -/

/-- The bytes at which the literal prefix of a pattern ends. -/
def endsLiteral (c : UInt8) : Bool :=
  c ∈ [asc '.', asc '[', asc '(', asc '|', asc ')', asc '*', asc '+', asc '?', asc '{', asc '\\', asc '$']

/-- The literal prefix that `matchcomp` stores for `matchgate`. -/
def literalPrefix (pat : List UInt8) : List UInt8 :=
  let pp := if deref pat = asc '^' then pat.tail else pat
  let lit := (pp.takeWhile (!endsLiteral ·)).take 31
  if isQuant (deref (pp.drop lit.length)) then [] else lit

/-- The parser at the start of a pattern, after the first `__jacl_match_node`. -/
def Parser.start (pat : List UInt8) (fl : CompFlags) : Parser :=
  ⟨pat, ⟨0, fl, MEXEC_DEFAULT, [], 0, fun _ => none, fun _ => 0, [.fresh .END], .empty⟩, .success, 0, fl, MEXEC_DEFAULT⟩

/-- `matchcomp`: the error, or the compiled matcher. -/
def matchcomp (pat : CString) (fl : CompFlags) : Option (Except MatchErr Matcher) :=
  let fuel := pat.bytes.length + 2
  match matchExpr (matchTerm (matchAtom fuel) fuel) fuel (.start pat.bytes fl) with
  | none => none
  | some (root, p) =>
    if p.err ≠ .success then some (.error p.err)
    else
      let lit := if root ≠ 0 ∧ (p.m.node root).type = .ALT then [] else literalPrefix pat.bytes
      some (.ok { p.m with root := root, nsub := p.cap, eflags := p.eflags, lit := lit })

end JACLibc
