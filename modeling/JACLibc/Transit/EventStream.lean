import JACLibc.Format.Number
import Mathlib.Data.FinEnum

/-!
# Event streams

What a reader makes of a stream of server-sent events: lines that end with LF, CR LF or CR, fields that a colon parts
from their values, and a blank line that dispatches what has been collected.  The bytes are the characters, since all
that matters to the reader is ASCII.
-/

namespace JACLibc.Sse

/-- An event that was dispatched; without a name it is a `message`. -/
structure Message where
  event : List UInt8
  data : List UInt8
  id : List UInt8
  deriving DecidableEq

/-- A reader: the data and the name of the event that is being read, the last id, the reconnection time and what was
dispatched. -/
structure Stream where
  data : List UInt8
  event : List UInt8
  id : List UInt8
  retry : Option Nat
  messages : List Message
  deriving DecidableEq

/-- A reader that has read nothing. -/
def Stream.fresh : Stream := ⟨[], [], [], none, []⟩

/-- The lines; `cr` says whether a CR has just ended one, and what is behind the last line end is no line. -/
def streamLines : Bool → List UInt8 → List UInt8 → List (List UInt8)
  | _, _, [] => []
  | cr, line, c :: cs =>
    if c = asc '\n' then (if cr then streamLines false line cs else line :: streamLines false [] cs)
    else if c = asc '\r' then line :: streamLines true [] cs
    else streamLines false (line ++ [c]) cs

/-- The number that ASCII digits are. -/
def decimal (value : List UInt8) : Option Nat :=
  if value ≠ [] ∧ ∀ c ∈ value, asc '0' ≤ c ∧
    c ≤ asc '9' then some (value.foldl (fun v c => v * 10 + (c.toNat - 48)) 0) else none

/-- A field; a name that is not known is ignored, and so is an id with a NUL in it. -/
def Stream.field (s : Stream) (name value : List UInt8) : Stream :=
  if name = lit "event" then { s with event := value }
  else if name = lit "data" then { s with data := s.data ++ value ++ [asc '\n'] }
  else if name = lit "id" then (if 0 ∈ value then s else { s with id := value })
  else if name = lit "retry" then { s with retry := decimal value <|> s.retry }
  else s

/-- A blank line: without data nothing is dispatched, and the line end behind the last line of the data is not part of
it. -/
def Stream.dispatch (s : Stream) : Stream :=
  if s.data = [] then { s with event := [] }
  else { s with data := [], event := [], messages := s.messages ++ [⟨s.event, s.data.dropLast, s.id⟩] }

/-- A line; one that starts with a colon is a comment, and of the blanks behind the first colon one is skipped. -/
def Stream.line (s : Stream) (l : List UInt8) : Stream :=
  if l = [] then s.dispatch
  else if deref l = asc ':' then s
  else
    let value := (l.dropWhile (· ≠ asc ':')).tail
    s.field (l.takeWhile (· ≠ asc ':')) (if deref value = asc ' ' then value.tail else value)

/-- The reader after these bytes. -/
def Stream.read (s : Stream) (bytes : List UInt8) : Stream := (streamLines false [] bytes).foldl Stream.line s

/-! ### Lines and fields -/

/-- Characters that do not end a line. -/
def NoBreak (l : List UInt8) : Prop := asc '\n' ∉ l ∧ asc '\r' ∉ l

instance (l : List UInt8) : Decidable (NoBreak l) := inferInstanceAs (Decidable (_ ∧ _))

theorem NoBreak.append {l m : List UInt8} (hl : NoBreak l) (hm : NoBreak m) : NoBreak (l ++ m) :=
  ⟨fun h => (List.mem_append.1 h).elim hl.1 hm.1, fun h => (List.mem_append.1 h).elim hl.2 hm.2⟩

theorem streamLines_line {l : List UInt8} (hl : NoBreak l) (line rest : List UInt8) :
    streamLines false line (l ++ lit "\r\n" ++ rest) = (line ++ l) :: streamLines false [] rest := by
  induction l generalizing line with
  | nil =>
    rw [List.append_nil]
    rfl
  | cons c l ih =>
    obtain ⟨hn, hr⟩ := hl
    simp only [List.mem_cons, not_or] at hn hr
    rw [List.cons_append, List.cons_append, streamLines, if_neg (Ne.symm hn.1), if_neg (Ne.symm hr.1), ih ⟨hn.2, hr.2⟩,
      List.append_assoc]
    rfl

/-- The line of a field. -/
def fieldLine (name value : List UInt8) : List UInt8 := name ++ lit ": " ++ value ++ lit "\r\n"

theorem read_blank (s : Stream) (rest : List UInt8) : s.read (lit "\r\n" ++ rest) = s.dispatch.read rest := by
  rw [Stream.read, ← List.nil_append (lit "\r\n"), streamLines_line ⟨List.not_mem_nil, List.not_mem_nil⟩]
  rfl

/-- The line of a field is read as the field, and what follows is read after it. -/
theorem read_field (s : Stream) {name value : List UInt8} (hname : NoBreak name) (hne : name ≠ [])
    (hcolon : asc ':' ∉ name) (hvalue : NoBreak value) (rest : List UInt8) :
    s.read (fieldLine name value ++ rest) = (s.field name value).read rest := by
  have hline : NoBreak (name ++ lit ": " ++ value) := (hname.append (show NoBreak (lit ": ") by decide)).append hvalue
  have hall : ∀ c ∈ name, decide (c ≠ asc ':') = true := by
    intro c hc
    rw [decide_eq_true_iff]
    rintro rfl
    exact hcolon hc
  have hfield : s.line (name ++ lit ": " ++ value) = s.field name value := by
    obtain ⟨c, cs, rfl⟩ := List.exists_cons_of_ne_nil hne
    have hc : c ≠ asc ':' := fun h => hcolon (by rw [h]; exact List.mem_cons_self)
    have htake : ((c :: cs) ++ (lit ": " ++ value)).takeWhile (· ≠ asc ':') = c :: cs := by
      rw [List.takeWhile_append_of_pos hall]
      exact List.append_nil _
    have hdrop : ((c :: cs) ++ (lit ": " ++ value)).dropWhile (· ≠ asc ':') = lit ": " ++ value := by
      rw [List.dropWhile_append_of_pos hall]
      rfl
    rw [Stream.line, if_neg (by simp), if_neg (by exact hc), List.append_assoc, htake, hdrop]
    rfl
  rw [Stream.read, fieldLine, streamLines_line hline, List.foldl_cons, List.nil_append, hfield]
  rfl

theorem decimal_numText (v : Nat) : decimal (numText 10 v) = some v := by
  have hdigit : ∀ c ∈ numText 10 v, (asc '0' ≤ c ∧ c ≤ asc '9') ∧ c.toNat - 48 = (digitVal (charVal c)).toNat := by
    intro c hc
    obtain ⟨d, hd, rfl⟩ := mem_numText (by decide) hc
    clear hc
    revert d
    decide
  have hfold : ∀ (cs : List UInt8) (n : Nat), (∀ c ∈ cs, c.toNat - 48 = (digitVal (charVal c)).toNat) →
      cs.foldl (fun v c => v * 10 + (c.toNat - 48)) n = horner 10 n cs := by
    intro cs
    induction cs with
    | nil => exact fun _ _ => rfl
    | cons c cs ih =>
      intro n hcs
      rw [List.foldl_cons, hcs c List.mem_cons_self, ih _ fun x hx => hcs x (List.mem_cons_of_mem _ hx)]
      rfl
  rw [decimal, if_pos ⟨numText_ne_nil 10 v, fun c hc => (hdigit c hc).1⟩, hfold _ _ fun c hc => (hdigit c hc).2,
    horner_numText (by decide) (by decide)]

theorem numText_noBreak (v : Nat) : NoBreak (numText 10 v) := by
  have hdigit : ∀ c ∈ numText 10 v, c ≠ asc '\n' ∧ c ≠ asc '\r' := by
    intro c hc
    obtain ⟨d, hd, rfl⟩ := mem_numText (by decide) hc
    clear hc
    revert d
    decide
  exact ⟨fun h => (hdigit _ h).1 rfl, fun h => (hdigit _ h).2 rfl⟩

end JACLibc.Sse
