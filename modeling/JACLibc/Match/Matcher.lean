import JACLibc.CString

/-!
# The data of `match.h`

Nodes live in an arena and refer to each other by index; index 0 is the `MTOK_END` node that `matchcomp` makes first,
and as a reference it means "nothing here".  Positions in a subject are offsets from its start.

`utf8Next` is the decoder shared by the parser and the matcher.  It takes the bytes from the read position up to
`end` and answers the code point and the number of bytes read.
-/

namespace JACLibc

/-- `match_err_t`, as far as the parser and the matcher store or return it. -/
inductive MatchErr where
  | success | nomatch | badpat | ecollate | ectype | esubmatch | ebrack | eparen | ebrace | espace | edepth | einternal
  deriving DecidableEq, Repr

/-- `match_tok_t` -/
inductive Tok where
  | END | CHAR | CLASS | ANY | BOL | EOL | CAP | ALT | SEQ | REP | LOOK | BACKREF | WB | NWB | FLAGS | ATOMIC | COND
  | CALL
  deriving DecidableEq, Repr

/-- The bits of `mcomp_flag_t` that the parser reads. -/
structure CompFlags where
  anchor : Bool
  altern : Bool
  quant : Bool
  escape : Bool
  boundary : Bool
  ungreedy : Bool
  capture : Bool
  backref : Bool
  nameref : Bool
  recurse : Bool
  lookfwd : Bool
  lookback : Bool
  atomic : Bool
  cond : Bool
  deriving DecidableEq, Repr

def MCOMP_EXTENDED : CompFlags :=
  ⟨true, true, true, true, true, true, true, false, false, false, false, false, false, false⟩

def MCOMP_PCRE2 : CompFlags :=
  ⟨true, true, true, true, true, true, true, true, true, true, true, true, true, true⟩

/-- The bits of `mexec_flag_t` that the parser and the matcher read or set. -/
structure ExecFlags where
  icase : Bool
  newline : Bool
  notbol : Bool
  noteol : Bool
  dotall : Bool
  ungreedy : Bool
  deriving DecidableEq, Repr

def MEXEC_DEFAULT : ExecFlags := ⟨false, false, false, false, false, false⟩

/-- `match_node_t` -/
structure MatchNode where
  type : Tok
  val : Nat
  a : Nat
  b : Nat
  neg : Nat
  capId : Nat
  min : Nat
  max : Nat
  lazy : Bool
  eflags : ExecFlags
  deriving DecidableEq, Repr

/-- A node as `__jacl_match_node` leaves it. -/
def MatchNode.fresh (type : Tok) : MatchNode := ⟨type, 0, 0, 0, 0, 0, 0, 255, false, MEXEC_DEFAULT⟩

/-- The tables of the classes: `nr`, the 80 words of `rlo`, `rhi`, `rcid` and `rneg` as they lie in memory, and the
names. -/
structure ClassTable where
  nr : Nat
  words : Nat → Nat
  cname : Nat → Option (List UInt8)

/-- `matcher_t`; `has_unicode`, on which no answer depends, is left out. -/
structure Matcher where
  nsub : Int
  cflags : CompFlags
  eflags : ExecFlags
  lit : List UInt8
  root : Nat
  names : Nat → Option (List UInt8)
  groups : Nat → Nat
  arena : List MatchNode
  classes : ClassTable

/-- The node at an index. -/
def Matcher.node (m : Matcher) (i : Nat) : MatchNode := m.arena.getD i (.fresh .END)

def MATCH_MAX_GROUPS : Nat := 32

def MATCH_MAX_DEPTH : Nat := 2000

def MATCH_MAX_BACKTRACK : Nat := 255

/-! ### Characters -/

/-- `while (len-- && *p < end)` of the decoder: at most `len` more bytes, six bits of each; the second number is how
many bytes were read. -/
def utf8Cont : Nat → Nat → List UInt8 → Nat × Nat
  | cp, len + 1, b :: bs =>
    let r := utf8Cont (cp * 64 + b.toNat % 64) len bs
    (r.1, r.2 + 1)
  | cp, _, _ => (cp, 0)

/-- `__jacl_match_utf8_next` -/
def utf8Next : List UInt8 → Nat × Nat
  | [] => (0xFFFD, 0)
  | b :: bs =>
    let more (cp len : Nat) : Nat × Nat := ((utf8Cont cp len bs).1, (utf8Cont cp len bs).2 + 1)
    if b < 0x80 then (b.toNat, 1)
    else if b &&& 0xE0 = 0xC0 then more (b &&& 0x1F).toNat 1
    else if b &&& 0xF0 = 0xE0 then more (b &&& 0x0F).toNat 2
    else if b &&& 0xF8 = 0xF0 then more (b &&& 0x07).toNat 3
    else (0xFFFD, bs.length + 1)

/-- `JACL_UTF8_CONT` -/
def utf8IsCont (b : UInt8) : Bool := b &&& 0xC0 = 0x80

/-- The functions of `wctype.h` that the matcher calls; `iswctype` is given the name that `wctype` is called with. -/
structure Wctype where
  towlower : Nat → Nat
  iswalnum : Nat → Bool
  iswctype : List UInt8 → Nat → Bool

/-- `__jacl_match_fold` -/
def matchFold (W : Wctype) (cp m : Nat) (ic : Bool) : Bool :=
  cp = m || (ic && W.towlower cp = W.towlower m)

/-! ### Classes -/

namespace ClassTable

def empty : ClassTable := ⟨0, fun _ => 0, fun _ => none⟩

def rlo (t : ClassTable) (i : Nat) : Nat := t.words i

def rhi (t : ClassTable) (i : Nat) : Nat := t.words (32 + i)

/-- The byte `i` of the table of bytes that begins at the word `base`. -/
def byte (t : ClassTable) (base i : Nat) : Nat := t.words (base + i / 4) / 256 ^ (i % 4) % 256

def rcid (t : ClassTable) (i : Nat) : Nat := t.byte 64 i

def rneg (t : ClassTable) (i : Nat) : Nat := t.byte 72 i

/-- `words` with another byte there. -/
def setByte (words : Nat → Nat) (base i b : Nat) : Nat → Nat := fun j =>
  if j = base + i / 4 then words j - words j / 256 ^ (i % 4) % 256 * 256 ^ (i % 4) + b * 256 ^ (i % 4) else words j

/-- The entry behind the last one. -/
def append (t : ClassTable) (lo hi cid neg : Nat) (name : Option (List UInt8)) : ClassTable :=
  let words := fun j => if j = t.nr then lo else if j = 32 + t.nr then hi else t.words j
  ⟨t.nr + 1, setByte (setByte words 64 t.nr cid) 72 t.nr neg, fun i => if i = t.nr then name else t.cname i⟩

/-- `if (m->cname[i]) free(m->cname[i]); memmove(&m->rlo[i], &m->rlo[i+1], (m->nr-1-i)*16); m->nr--`: the words behind
`rlo[i]` move down, four for each entry behind the entry `i`.  Nothing where the pointers in `cname` move too, or a
freed one stays there. -/
def remove (t : ClassTable) (i : Nat) : Option ClassTable :=
  let moved := 4 * (t.nr - 1 - i)
  if t.cname i = none ∧ (i + moved < 80 ∨ ∀ j < 32, t.cname j = none) then
    some ⟨t.nr - 1, fun j => if i ≤ j ∧ j < i + moved then (if j + 1 < 80 then t.words (j + 1) else 0) else t.words j,
      t.cname⟩
  else none

/-- The entries of a class. -/
def entries (t : ClassTable) (cid : Nat) : List Nat := (List.range t.nr).filter (t.rcid · = cid)

end ClassTable

/-- The other case of an ASCII letter. -/
def otherCase (cp : Nat) : Nat :=
  if (asc 'A').toNat ≤ cp ∧ cp ≤ (asc 'Z').toNat then cp + 32
  else if (asc 'a').toNat ≤ cp ∧ cp ≤ (asc 'z').toNat then cp - 32
  else cp

/-- `__jacl_match_in_class` -/
def matchInClass (W : Wctype) (t : ClassTable) (cp cid : Nat) (ic : Bool) : Bool :=
  let entries := t.entries cid
  let inRange := entries.any fun i =>
    match t.cname i with
    | some name => W.iswctype name cp
    | none => t.rlo i ≤ cp ∧ cp ≤ t.rhi i
  match entries.getLast? with
  | none => false
  | some last =>
    if t.rneg last ≠ 0 then !inRange
    else inRange || (ic && cp < 0x80 &&
      entries.any fun i => t.cname i = none ∧ t.rlo i ≤ otherCase cp ∧ otherCase cp ≤ t.rhi i)

theorem utf8Cont_read (cp len : Nat) (bs : List UInt8) : (utf8Cont cp len bs).2 ≤ bs.length := by
  induction bs generalizing cp len with
  | nil => cases len <;> simp [utf8Cont]
  | cons b bs ih =>
    cases len with
    | zero => simp [utf8Cont]
    | succ len => simpa [utf8Cont] using ih _ _

/-- The decoder reads at least one byte and not past the end. -/
theorem utf8Next_read {bs : List UInt8} (h : bs ≠ []) : 0 < (utf8Next bs).2 ∧ (utf8Next bs).2 ≤ bs.length := by
  cases bs with
  | nil => exact absurd rfl h
  | cons b bs =>
    have hcont := fun cp len => utf8Cont_read cp len bs
    simp only [utf8Next]
    repeat' split
    all_goals simp_all

end JACLibc
