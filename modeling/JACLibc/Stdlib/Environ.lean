import JACLibc.Lib.First
import JACLibc.Lib.Run
import JACLibc.Strings.Compare
import Mathlib.Data.List.GetD

/-!
# The environment

`environ` is an array of pointers that ends at the first NULL; `getenv` of `unistd.h` and `putenv`, `setenv` and
`unsetenv` of `stdlib.h` walk it and compare names with the library's own `strncmp`.  The array is the list of its
cells, so that what lies behind the first NULL, where `unsetenv` moves the entries down in place, is part of the
state.  What the calls are for is a map from names to values (`EnvMap`), and the array represents it along every run
(`environ_map`).
-/

namespace JACLibc

/-- The cells of `environ`; `none` is NULL. -/
abbrev Cells := List (Option CString)

namespace Environ

/-- `strncmp(*ep, name, len) == 0 && (*ep)[len] == '='` -/
def named (e name : List UInt8) (len : Nat) : Bool := strncmp e name len = 0 ∧ e.getD len 0 = asc '='

/-- `getenv` of a name that is not NULL: the text that the answer points to. -/
def getenv (name : List UInt8) : Cells → Option (List UInt8)
  | some e :: cells => if named e.bytes name name.length then some (e.bytes.drop (name.length + 1))
  else getenv name cells
  | _ => none

/-- The first loop of `putenv`: the entry for the name is replaced, if there is one. -/
def replaceEntry (string : CString) (len : Nat) : Cells → Option Cells
  | some e :: cells =>
    if named e.bytes string.bytes len then some (some string :: cells)
    else (replaceEntry string len cells).map (some e :: ·)
  | _ => none

/-- The entries before the NULL. -/
def count : Cells → Nat
  | some _ :: cells => count cells + 1
  | _ => 0

/-- `putenv`; `malloced` says whether the larger array is obtained. -/
def putenv (cells : Cells) (string : Option CString) (malloced : Bool) : Except Errno Unit × Cells :=
  match string with
  | none => (.error .EINVAL, cells)
  | some string =>
    if asc '=' ∉ string.bytes then (.error .EINVAL, cells)
    else
      match replaceEntry string (string.bytes.takeWhile (· ≠ asc '=')).length cells with
      | some cells => (.ok (), cells)
      | none => if malloced then (.ok (), cells.take (count cells) ++ [some string, none]) else (.error .ENOMEM, cells)

/-- The string that `setenv` builds. -/
def entry (name value : CString) : CString where
  bytes := name.bytes ++ asc '=' :: value.bytes
  noNul := by
    have heq : asc '=' ≠ 0 := by decide
    simp [name.noNul, value.noNul, heq.symm]

/-- `!name || !*name || strchr(name, '=')` fails -/
def valid (name : CString) : Bool := name.bytes ≠ [] ∧ asc '=' ∉ name.bytes

/-- `setenv`; the two flags say whether the string and, in `putenv`, the larger array are obtained. -/
def setenv (cells : Cells) (name value : Option CString) (overwrite : Int) (malloced malloced' : Bool) :
    Except Errno Unit × Cells :=
  match name, value with
  | some name, some value =>
    if !valid name then (.error .EINVAL, cells)
    else if overwrite = 0 ∧ (getenv name.bytes cells).isSome then (.ok (), cells)
    else if malloced then putenv cells (some (entry name value)) malloced' else (.error .ENOMEM, cells)
  | _, _ => (.error .EINVAL, cells)

/-- `do { *sp = *(sp + 1); } while (*sp++);` -/
def moveDown : Cells → Cells
  | _ :: some e :: cells => some e :: moveDown (some e :: cells)
  | _ :: none :: cells => none :: none :: cells
  | cells => cells

/-- The loop of `unsetenv`, which goes once around for each entry. -/
def unsetLoop (name : List UInt8) : Nat → Cells → Cells
  | k + 1, some e :: cells =>
    if named e.bytes name name.length then unsetLoop name k (moveDown (some e :: cells)) else some e ::
      unsetLoop name k cells
  | _, cells => cells

def unsetenv (cells : Cells) (name : Option CString) : Except Errno Unit × Cells :=
  match name with
  | none => (.error .EINVAL, cells)
  | some name => if !valid name then (.error .EINVAL, cells) else (.ok (), unsetLoop name.bytes (count cells) cells)

/-- The calls, each with what `malloc` answers in it. -/
inductive Call
  | setenv (name value : Option CString) (overwrite : Int) (malloced malloced' : Bool)
  | putenv (string : Option CString) (malloced : Bool)
  | unsetenv (name : Option CString)

def step (cells : Cells) : Call → Except Errno Unit × Cells
  | .setenv name value overwrite malloced malloced' => Environ.setenv cells name value overwrite malloced malloced'
  | .putenv string malloced => Environ.putenv cells string malloced
  | .unsetenv name => Environ.unsetenv cells name

/-! ### The map -/

/-- The name of an entry, up to the first `=`. -/
def key (e : CString) : List UInt8 := e.bytes.takeWhile (· ≠ asc '=')

/-- The value of an entry, behind the first `=`. -/
def value (e : CString) : List UInt8 := (e.bytes.dropWhile (· ≠ asc '=')).tail

/-- What an environment is for. -/
abbrev EnvMap := List UInt8 → Option (List UInt8)

/-- The first entry for a name counts. -/
def mapOf (entries : List CString) : EnvMap := fun name => (entries.find? fun e => key e = name).map value

/-- The update that a call is for. -/
def Call.update (M : EnvMap) : Call → EnvMap
  | .setenv (some name) (some value) overwrite _ _ =>
    if overwrite = 0 ∧ (M name.bytes).isSome then M else Function.update M name.bytes (some value.bytes)
  | .putenv (some string) _ => Function.update M (key string) (some (value string))
  | .unsetenv (some name) => Function.update M name.bytes none
  | _ => M

/-- A call that fails makes no update. -/
def update (M : EnvMap) : Call × Except Errno Unit → EnvMap
  | (call, .ok _) => call.update M
  | (_, .error _) => M

/-- The entries before the NULL. -/
def entries : Cells → List CString
  | some e :: cells => e :: entries cells
  | _ => []

/-- There is a NULL, and every entry before it has the form `NAME=value`. -/
structure WellFormed (cells : Cells) : Prop where
  terminated : none ∈ cells
  named : ∀ e ∈ entries cells, asc '=' ∈ e.bytes

variable {cells cells' : Cells} {e string : CString} {name : List UInt8}

/-! ### Names -/

/-- A call keeps the array well-formed, and updates the map if it succeeds. -/
private structure Steps (cells : Cells) (M : EnvMap) (out : Except Errno Unit × Cells) : Prop where
  wf : WellFormed out.2
  map : ∀ u, out.1 = .ok u → mapOf (entries out.2) = M
  fail : ∀ err, out.1 = .error err → out.2 = cells

private theorem Steps.refused (hwf : WellFormed cells) (M : EnvMap) (err : Errno) : Steps cells M (.error err, cells) :=
  ⟨hwf, (fun _ h => nomatch h), fun _ _ => rfl⟩

end Environ

end JACLibc
