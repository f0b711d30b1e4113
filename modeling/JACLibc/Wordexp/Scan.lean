import JACLibc.CString

/-!
# The word parser of `wordexp`

A run of the parser asks for memory and runs commands (`St`), and stops at the first error.  The cursor is what is
left of the words string; a scanner gives back a cursor that is behind its own (`After`).  The buffer of a word
carries the fact that its bytes fit.

In double quotes the parser steps past the `$` before it calls the scanners, which expect it.  Where the string ends
there, `__we_scan_var` steps past its NUL: the model stops with the error `overrun`.
-/

namespace JACLibc.Wordexp

def WRDE_APPEND : BitVec 32 := 1
def WRDE_DOOFFS : BitVec 32 := 2
def WRDE_NOCMD : BitVec 32 := 4
def WRDE_REUSE : BitVec 32 := 8
def WRDE_UNDEF : BitVec 32 := 32

def HasFlag (flags f : BitVec 32) : Prop := flags &&& f ≠ 0

instance (flags f : BitVec 32) : Decidable (HasFlag flags f) := inferInstanceAs (Decidable (_ ≠ _))

/-- The error codes, and a read past the end of the words string. -/
inductive Err where
  | WRDE_BADCHAR
  | WRDE_BADVAL
  | WRDE_CMDSUB
  | WRDE_NOSPACE
  | WRDE_SYNTAX
  | overrun
  deriving DecidableEq, Repr

/-- What the functions call: `getenv`, the output of a command that `popen` runs after others (nothing where it
fails), and the answers to the requests for memory by number, of the parser and for the word vector. -/
structure World where
  getenv : List UInt8 → Option CString
  popen : List (List UInt8) → List UInt8 → Option (List UInt8)
  mem : ℕ → Bool
  vecMem : ℕ → Bool

/-- The requests for memory so far, how often `__we_scan_cmd` was entered, and the commands that `popen` was called
with. -/
structure St where
  allocs : ℕ
  scans : ℕ
  ran : List (List UInt8)
  deriving DecidableEq

def Run (α : Type) : Type := St → Except Err α × St

namespace Run

variable {α β : Type}

def fail (e : Err) : Run α := fun s => (.error e, s)

instance : Monad Run where
  pure a := fun s => (.ok a, s)
  bind x f := fun s =>
    match x s with
    | (.ok a, s') => f a s'
    | (.error e, s') => (.error e, s')

@[simp]
theorem pure_run (a : α) (s : St) : (pure a : Run α) s = (.ok a, s) := rfl

@[simp]
theorem fail_run (e : Err) (s : St) : (fail e : Run α) s = (.error e, s) := rfl

theorem bind_run (x : Run α) (f : α → Run β) (s : St) :
    (x >>= f) s = match x s with
      | (.ok a, s') => f a s'
      | (.error e, s') => (.error e, s') := rfl

theorem bind_ok {x : Run α} {f : α → Run β} {s s' : St} {a : α} (h : x s = (.ok a, s')) : (x >>= f) s = f a s' := by
  rw [bind_run, h]

theorem bind_error {x : Run α} {f : α → Run β} {s s' : St} {e : Err} (h : x s = (.error e, s')) :
    (x >>= f) s = (.error e, s') := by
  rw [bind_run, h]

end Run

/-! ### The buffer -/

/-- `__we_buf_t`; `id` is the number of the request that gave its memory. -/
structure Buf where
  id : ℕ
  data : List UInt8
  cap : ℕ
  fits : data.length ≤ cap

variable (W : World)

/-- A request for memory, and its number. -/
def request : Run ℕ := fun s => (if W.mem s.allocs then .ok s.allocs else .error .WRDE_NOSPACE,
    { s with allocs := s.allocs + 1 })

/-- `__we_buf_init` -/
def bufInit : Run Buf := do
  let id ← request W
  pure ⟨id, [], 64, Nat.zero_le _⟩

/-- `__we_buf_put` -/
def bufPut (b : Buf) (c : UInt8) : Run Buf :=
  if h : b.cap < b.data.length + 2 then do
    let _ ← request W
    pure ⟨b.id, b.data ++ [c], (b.data.length + 2) * 2, by rw [List.length_append, List.length_singleton]; omega⟩
  else pure ⟨b.id, b.data ++ [c], b.cap, by rw [List.length_append, List.length_singleton]; omega⟩

/-- `__we_buf_str` -/
def bufStr (b : Buf) : List UInt8 → Run Buf
  | [] => pure b
  | c :: s => do
    let b ← bufPut W b c
    bufStr b s

/-! ### The expansion handlers -/

/-- The pieces that `fgets` reads with room for `room` characters more, behind those that it has read. -/
def fgetsPieces : ℕ → List UInt8 → List UInt8 → List (List UInt8)
  | _, piece, [] => if piece = [] then [] else [piece]
  | room, piece, c :: out =>
    if c = asc '\n' ∨ room ≤ 1 then (piece ++ [c]) :: fgetsPieces 4095 [] out
      else fgetsPieces (room - 1) (piece ++ [c]) out

/-- What is kept of a piece: the characters in front of its first NUL, without a newline at the end. -/
def pieceText (piece : List UInt8) : List UInt8 :=
  let text := (CString.of piece).bytes
  if text.getLast? = some (asc '\n') then text.dropLast else text

/-- The loop of `__we_exec_cmd` over the output. -/
def readOutput (b : Buf) : List (List UInt8) → Run Buf
  | [] => pure b
  | piece :: pieces => do
    let b ← bufStr W b (pieceText piece)
    readOutput b pieces

/-- A call of `popen`: the output of the command, unless it fails. -/
def popen (cmd : List UInt8) : Run (Option (List UInt8)) :=
  fun s => (.ok (W.popen s.ran cmd), { s with ran := s.ran ++ [cmd] })

/-- `__we_exec_cmd` -/
def execCmd (cmd : List UInt8) (b : Buf) : Run Buf :=
  if cmd = [] then pure b
  else do
    match ← popen W cmd with
    | none => pure b
    | some out => readOutput W b (fgetsPieces 4095 [] out)

/-- A cursor behind another one. -/
abbrev After (p : List UInt8) : Type := { r : List UInt8 // r.length < p.length }

/-- `__we_scan_tilde`, without the step of the cursor. -/
def scanTilde (b : Buf) : Run Buf :=
  match W.getenv (lit "HOME") with
  | some home => bufStr W b home.bytes
  | none => bufPut W b (asc '~')

/-- A character of a variable name. -/
def isName (c : UInt8) : Prop :=
  (asc 'A' ≤ c ∧ c ≤ asc 'Z') ∨ (asc 'a' ≤ c ∧ c ≤ asc 'z') ∨ (asc '0' ≤ c ∧ c ≤ asc '9') ∨ c = asc '_'

instance (c : UInt8) : Decidable (isName c) := inferInstanceAs (Decidable (_ ∨ _ ∨ _ ∨ _))

/-- The loop of `__we_scan_var`: the name in `var`, of at most `room` characters, and the cursor behind it. -/
def nameLoop : ℕ → List UInt8 → List UInt8 × List UInt8
  | 0, p => ([], p)
  | _ + 1, [] => ([], [])
  | room + 1, c :: p => if isName c then (c :: (nameLoop room p).1, (nameLoop room p).2) else ([], c :: p)

theorem nameLoop_length (room : ℕ) (p : List UInt8) : (nameLoop room p).2.length ≤ p.length := by
  induction room generalizing p with
  | zero => exact Nat.le_refl _
  | succ room ih =>
    rcases p with _ | ⟨c, p⟩
    · exact Nat.le_refl _
    · rw [nameLoop]
      split
      · exact (ih p).trans (Nat.le_succ _)
      · exact Nat.le_refl _

/-- What a name stands for. -/
def varValue (flags : BitVec 32) (b : Buf) (var : List UInt8) : Run Buf :=
  if var = [] then bufPut W b (asc '$')
  else
    match W.getenv var with
    | some val => bufStr W b val.bytes
    | none => if HasFlag flags WRDE_UNDEF then Run.fail .WRDE_BADVAL else pure b

/-- `__we_scan_var` -/
def scanVar (flags : BitVec 32) (b : Buf) : (p : List UInt8) → Run (Buf × After p)
  | [] => Run.fail .overrun
  | _ :: p => do
    let b ← varValue W flags b (nameLoop 63 p).1
    pure (b, ⟨(nameLoop 63 p).2, Nat.lt_succ_of_le (nameLoop_length 63 p)⟩)

/-- The quote behind a character of a command. -/
def quoteAfter (q c : UInt8) : UInt8 := if q ≠ 0 then (if c = q then 0 else q) else if c = asc '\'' ∨
    c = asc '"' then c else 0

/-- The depth behind a character of a command. -/
def depthAfter (paren : Bool) (q : UInt8) (depth : ℕ) (c : UInt8) : ℕ :=
  if q ≠ 0 ∨ c = asc '\'' ∨ c = asc '"' then depth
  else if paren then (if c = asc '(' then depth + 1 else if c = asc ')' then depth - 1 else depth)
  else if c = asc '`' then depth - 1 else depth

/-- The loop of `__we_scan_cmd`: the command, and the cursor at the character that closes it. -/
def cmdLoop (paren : Bool) : ℕ → UInt8 → List UInt8 → Option (List UInt8 × List UInt8)
  | _, _, [] => none
  | depth, q, c :: p =>
    if depthAfter paren q depth c = 0 then some ([], c :: p)
    else (cmdLoop paren (depthAfter paren q depth c) (quoteAfter q c) p).map fun r => (c :: r.1, r.2)

theorem cmdLoop_length {paren : Bool} {depth : ℕ} {q : UInt8} {p : List UInt8} {r : List UInt8 × List UInt8}
    (h : cmdLoop paren depth q p = some r) : r.2.length ≤ p.length := by
  induction p generalizing depth q r with
  | nil => cases h
  | cons c p ih =>
    rw [cmdLoop] at h
    split at h
    · rw [← Option.some.inj h]
    · obtain ⟨r', hr', rfl⟩ := Option.map_eq_some_iff.1 h
      exact (ih hr').trans (Nat.le_succ _)

/-- `*p == '$' && *(p + 1) == '('` -/
def atParen (p : List UInt8) : Bool := p.head? = some (asc '$') && p.tail.head? = some (asc '(')

/-- The part of `__we_scan_cmd` that finds the command at a cursor that is not at the end of the string, and the
cursor behind it. -/
def findCmd (c : UInt8) (p : List UInt8) : Option (List UInt8 × After (c :: p)) :=
  match h : cmdLoop (atParen (c :: p)) 1 0 (if atParen (c :: p) then p.tail else p) with
  | none => none
  | some (cmd, r) =>
    some (cmd, ⟨r.tail, by
      have hle := cmdLoop_length h
      have htail : (if atParen (c :: p) then p.tail else p).length ≤ p.length := by
        split
        · exact List.length_tail.trans_le (Nat.sub_le _ _)
        · exact Nat.le_refl _
      exact Nat.lt_succ_of_le ((List.length_tail.trans_le (Nat.sub_le _ _)).trans (hle.trans htail))⟩)

/-- The command that was found, in `__we_scan_cmd`. -/
def runCmd {c : UInt8} {p : List UInt8} (b : Buf) : Option (List UInt8 × After (c :: p)) → Run (Buf × After (c :: p))
  | none => Run.fail .WRDE_SYNTAX
  | some (cmd, r) => do
    let _ ← request W
    let b ← execCmd W cmd b
    pure (b, r)

/-- `__we_scan_cmd` is entered. -/
def enterScan : Run Unit := fun s => (.ok (), { s with scans := s.scans + 1 })

/-- `__we_scan_cmd` -/
def scanCmd (flags : BitVec 32) (b : Buf) (c : UInt8) (p : List UInt8) : Run (Buf × After (c :: p)) := do
  enterScan
  if HasFlag flags WRDE_NOCMD then Run.fail .WRDE_CMDSUB else runCmd W b (findCmd c p)

/-! ### The word parser -/

def isBlank (c : UInt8) : Bool := c = asc ' ' || c = asc '\t'

/-- The characters that end the parser with `WRDE_BADCHAR`. -/
def badChars : List UInt8 := lit "|&;<>#\n()\x7b\x7d"

/-- One round of the loop of `__we_parse_word` at a character: the quote, the buffer and the cursor after it. -/
def step (flags : BitVec 32) (q : UInt8) (b : Buf) (c : UInt8) (p : List UInt8) : Run (UInt8 × Buf × After (c :: p)) :=
  if q ≠ 0 then
    if c = q then pure (0, b, ⟨p, Nat.lt_succ_self _⟩)
    else if q = asc '"' ∧ c = asc '$' then
      -- the cursor is behind the `$` already
      match p with
      | d :: p =>
        if d = asc '(' then do
          let r ← scanCmd W flags b d p
          pure (q, r.1, ⟨r.2.1, Nat.lt_succ_of_lt r.2.2⟩)
        else do
          let r ← scanVar W flags b (d :: p)
          pure (q, r.1, ⟨r.2.1, Nat.lt_succ_of_lt r.2.2⟩)
      | [] => Run.fail .overrun
    else do
      let b ← bufPut W b c
      pure (q, b, ⟨p, Nat.lt_succ_self _⟩)
  else if c = asc '\\' then
    match p with
    | [] => Run.fail .WRDE_SYNTAX
    | d :: p => do
      let b ← bufPut W b d
      pure (0, b, ⟨p, Nat.lt_succ_of_lt (Nat.lt_succ_self _)⟩)
  else if c = asc '\'' ∨ c = asc '"' then pure (c, b, ⟨p, Nat.lt_succ_self _⟩)
  else if c ∈ badChars then Run.fail .WRDE_BADCHAR
  else if c = asc '~' ∧ b.data = [] then do
    let b ← scanTilde W b
    pure (0, b, ⟨p, Nat.lt_succ_self _⟩)
  else if c = asc '`' ∨ (c = asc '$' ∧ p.head? = some (asc '(')) then do
    let r ← scanCmd W flags b c p
    pure (0, r)
  else if c = asc '$' then do
    let r ← scanVar W flags b (c :: p)
    pure (0, r)
  else do
    let b ← bufPut W b c
    pure (0, b, ⟨p, Nat.lt_succ_self _⟩)

/-- The loop goes on at the cursor: it does not end at the NUL, or at a blank that is not quoted. -/
def Starts (q : UInt8) (p : List UInt8) : Prop := ∃ c ∈ p.head?, q = 0 → isBlank c = false

/-- A word with the number of the request that gave its memory. -/
structure Word where
  id : ℕ
  text : List UInt8
  deriving DecidableEq

/-- The loop of `__we_parse_word`: the word, and the cursor behind it. -/
def parseLoop (flags : BitVec 32) (q : UInt8) (b : Buf) (p : List UInt8) :
    Run (Word × { r : List UInt8 // r.length ≤ p.length ∧ (Starts q p → r.length < p.length) }) :=
  match p with
  | [] =>
    if q ≠ 0 then Run.fail .WRDE_SYNTAX
    else do
      let e ← bufPut W b 0
      pure (⟨e.id, b.data⟩, ⟨[], Nat.le_refl _, fun h => nomatch h⟩)
  | c :: p =>
    if h : q = 0 ∧ isBlank c = true then do
      let e ← bufPut W b 0
      pure (⟨e.id, b.data⟩, ⟨c :: p, Nat.le_refl _, by
        rintro ⟨d, hd, hblank⟩
        obtain rfl := Option.some.inj hd
        exact absurd h.2 (by rw [hblank h.1]; decide)⟩)
    else do
      let s ← step W flags q b c p
      let r ← parseLoop flags s.1 s.2.1 s.2.2.1
      pure (r.1, ⟨r.2.1, r.2.2.1.trans s.2.2.2.le, fun _ => r.2.2.1.trans_lt s.2.2.2⟩)
termination_by p.length
decreasing_by exact s.2.2.2

/-- `__we_parse_word` -/
def parseWord (flags : BitVec 32) (p : List UInt8) :
    Run (Word × { r : List UInt8 // r.length ≤ p.length ∧ (Starts 0 p → r.length < p.length) }) := do
  let b ← bufInit W
  parseLoop W flags 0 b p

end JACLibc.Wordexp
