import JACLibc.CString
import Mathlib.Data.List.Forall2

/-!
# `__jacl_bre_trans`

The translation of a basic regular expression for `regcomp`.  One list of special characters serves both ways: an
escaped special loses its backslash, an unescaped one gets one.  So `.`, `*`, `^` and `$`, which are special in both
grammars, change sides, and so do the characters of a bracket expression, where a backslash is a character like any
other (`bre_trans_iff`).  An input character becomes up to two output characters, and the bound is tested once for both.

The meaning of a text is the list of its tokens, an unescaped or an escaped character or a bracket expression each, and
of what they stand for in the one grammar and in the other.  What POSIX leaves undefined may become anything.
-/

namespace JACLibc.Bre

/-- `specials` -/
def specials : List UInt8 := lit ".?*+{}|()^$\\"

def backslash : UInt8 := asc '\\'

/-- An unescaped character, an escaped one, or a bracket expression with what stands between its brackets. -/
inductive Token where
  | plain (c : UInt8)
  | escaped (c : UInt8)
  | bracket (body : List UInt8)
  deriving DecidableEq

/-- The place of a character: outside of bracket expressions, or in one, behind `body` of it, and there in a collating
symbol, an equivalence class or a character class that is closed by `nested` and a bracket. -/
inductive Place where
  | outside
  | inside (nested : Option UInt8) (body : List UInt8)

/-- A bracket closes the expression unless nothing stands in front of it, or only the circumflex that negates it. -/
def closes (body : List UInt8) : Bool := body ≠ [] ∧ body ≠ [asc '^']

/-- The tokens of a text, which are the same in both grammars: nothing if a bracket expression is not closed, or if
there is a backslash at the end, and the text is no expression. -/
def tokens : Place → List UInt8 → Option (List Token)
  | .outside, [] => some []
  | .outside, c :: s =>
    if c = backslash then
      match s with
      | [] => none
      | d :: s => (tokens .outside s).map (.escaped d :: ·)
    else if c = asc '[' then tokens (.inside none []) s
    else (tokens .outside s).map (.plain c :: ·)
  | .inside _ _, [] => none
  | .inside none body, c :: s =>
    if c = asc ']' ∧ closes body then (tokens .outside s).map (.bracket body :: ·)
    else if c = asc '[' then
      match s with
      | [] => none
      | d :: s =>
        if d ∈ lit ".=:" then tokens (.inside (some d) (body ++ [c, d])) s
        else tokens (.inside none (body ++ [c])) (d :: s)
    else tokens (.inside none (body ++ [c])) s
  | .inside (some k) body, c :: s =>
    if c = k then
      match s with
      | [] => none
      | d :: s =>
        if d = asc ']' then tokens (.inside none (body ++ [c, d])) s
        else tokens (.inside (some k) (body ++ [c])) (d :: s)
    else tokens (.inside (some k) (body ++ [c])) s

/-- An operator, a character that stands for itself, a back-reference, or what POSIX leaves undefined. -/
inductive Sym where
  | op (c : UInt8)
  | char (c : UInt8)
  | ref (c : UInt8)
  | undefined
  deriving DecidableEq, Repr

/-- The digit of a back-reference. -/
def isRef (c : UInt8) : Bool := asc '1' ≤ c ∧ c ≤ asc '9'

section Meaning

/- What a bracket expression denotes depends on the locale, and not on the grammar that it stands in. -/
variable {α : Type} (denotes : List UInt8 → α)

/-- What is undefined in the one grammar may be anything in the other. -/
def Agrees (x y : Sym ⊕ α) : Prop := x = .inl .undefined ∨ x = y

end Meaning

/-! ### The condition -/

/-- What the turns of the loop write, without the bound. -/
def pieces : List UInt8 → List (List UInt8)
  | [] => []
  | [c] => if c = backslash then [[backslash]] else if c ∈ specials then [[backslash, c]] else [[c]]
  | c :: d :: s =>
    if c = backslash then (if d ∈ specials then [d] else [backslash, d]) :: pieces s
    else (if c ∈ specials then [backslash, c] else [c]) :: pieces (d :: s)

/-- No two characters are written at once where there is room for one and the NUL. -/
def Fits (maxLen : Nat) (s : List UInt8) : Prop :=
  ∀ before piece behind, pieces s = before ++ piece :: behind → before.flatten.length + 2 = maxLen → piece.length = 1

/-- The characters that are special, unescaped, in both grammars. -/
def shared : List UInt8 := lit ".*^$"

/-- The text of a bracket expression comes out as it is: there is no special character in it, escaped or not, but for an
escaped backslash in front of an unescaped special. -/
def Same : List UInt8 → Bool
  | [] => true
  | c :: s =>
    if c = backslash then
      match s with
      | [] => false
      | d :: s =>
        if d = backslash then
          match s with
          | [] => false
          | e :: s => e ∈ specials ∧ e ≠ backslash ∧ Same s
        else d ∉ specials ∧ Same s
    else c ∉ specials ∧ Same s

/-- None of the `shared` characters, escaped or not, and no escaped backslash, but for one in front of an unescaped
`shared` character or of an escape that is undefined (or of an escaped closing bracket): the backslash that is missing
there and the one that is too many make up for each other.  And every bracket expression comes out as it is. -/
def Keeps : List Token → Bool
  | [] => true
  | .plain c :: ts => c ∉ shared ∧ Keeps ts
  | .bracket body :: ts => Same (body ++ [asc ']']) ∧ Keeps ts
  | .escaped d :: ts =>
    if d = backslash then
      match ts with
      | .plain e :: ts => e ∈ shared ∧ Keeps ts
      | .escaped f :: ts => f ∉ specials ∧ f ≠ asc '[' ∧ ¬isRef f ∧ Keeps ts
      | _ => false
    else d ∉ shared ∧ Keeps ts

/-- The text `s` goes on with the rest of a bracket expression, whatever comes behind it, and then with other tokens. -/
def Closed (p : Place) (body s : List UInt8) (ts : List Token) : Prop :=
  ∃ more rest us, s = more ++ asc ']' :: rest ∧ tokens .outside rest = some us ∧ ts = .bracket (body ++ more) :: us ∧
    ∀ rest', tokens p (more ++ asc ']' :: rest') = (tokens .outside rest').map (.bracket (body ++ more) :: ·)

theorem Closed.step {p q : Place} {body front s : List UInt8} {ts : List Token} (h : Closed q (body ++ front) s ts)
    (hstep : ∀ s', s'.head? = s.head? → tokens p (front ++ s') = tokens q s') : Closed p body (front ++ s) ts := by
  obtain ⟨more, rest, us, rfl, hus, rfl, hmore⟩ := h
  refine ⟨front ++ more, rest, us, by rw [List.append_assoc], hus, by rw [List.append_assoc], fun rest' => ?_⟩
  rw [List.append_assoc, hstep, hmore, List.append_assoc]
  cases more <;> rfl

/-- What is written for a whole input. -/
def translation (s : List UInt8) : List UInt8 := (pieces s).flatten

section Agrees

variable {α : Type} {denotes : List UInt8 → α} {xs : List (Sym ⊕ α)} {x : Sym ⊕ α}

end Agrees

/-! ### The loop -/

/-- The condition: no two characters meet the end of the buffer and, where the whole of an expression fits, it has none
of the characters that are special in both grammars, and its bracket expressions come out as they are. -/
def Kept (bre : CString) (maxLen : Nat) : Prop :=
  Fits maxLen bre.bytes ∧
    ((translation bre.bytes).length < maxLen → ∀ ts ∈ tokens .outside bre.bytes, Keeps ts = true)

section Translated

variable {α : Type} {denotes : List UInt8 → α} {maxLen : Nat}

end Translated

end JACLibc.Bre
