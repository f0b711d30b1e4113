import JACLibc.Strings.Compare

/-!
# The JSON writer and parser of `core/jsio.h`

`js_stringify` writes a tree as text and `js_parse` reads one.  A text that is read is a buffer with its NUL, and a
position in it is the list of the bytes from there on; reading from the empty list is reading past the NUL.  Numbers
are of any type, with `snprintf` and `strtod` as parameters: no other part of the text depends on them.

`js_stringify_string` leaves the first byte of its buffer unset.  The byte that the memory holds is a parameter, for
each place of a string in the tree; a place is the list of the indices that lead there from the root, the last one
first.
-/

namespace JACLibc.Json

mutual

inductive Value (D : Type)
  | null
  | boolean (b : Bool)
  | number (n : D)
  | string (s : CString)
  | array (vs : Values D)
  | object (ms : Members D)

/-- The children of an array. -/
inductive Values (D : Type)
  | nil
  | cons (v : Value D) (vs : Values D)

/-- The children of an object with their keys. -/
inductive Members (D : Type)
  | nil
  | cons (key : CString) (v : Value D) (ms : Members D)

end

variable {D : Type}

/-! ### Writing -/

/-- A digit of `%x`. -/
def hexDigit (n : Nat) : UInt8 := if n < 10 then (48 + n).toUInt8 else (87 + n).toUInt8

/-- What `js_stringify_string` writes for one byte. -/
def escape (c : UInt8) : List UInt8 :=
  if c = asc '"' then lit "\\\""
  else if c = asc '\\' then lit "\\\\"
  else if c = 8 then lit "\\b"
  else if c = 12 then lit "\\f"
  else if c = 10 then lit "\\n"
  else if c = 13 then lit "\\r"
  else if c = 9 then lit "\\t"
  else if c < 0x20 ∨ c ≥ 0x7F then lit "\\u00" ++ [hexDigit (c.toNat / 16), hexDigit (c.toNat % 16)]
  else [c]

/-- `js_stringify_string`, whose buffer starts with `junk`. -/
def stringifyString (junk : UInt8) (s : CString) : CString :=
  .of (junk :: (s.bytes.flatMap escape ++ [asc '"']))

section Stringify

variable (fmt : D → List UInt8) (junk : List Nat → UInt8)

mutual

/-- `js_stringify_value` -/
def stringifyValue (at_ : List Nat) : Value D → List UInt8
  | .null => lit "null"
  | .boolean b => if b then lit "true" else lit "false"
  | .number n => fmt n
  | .string s => (stringifyString (junk at_) s).bytes
  | .array vs => asc '[' :: (stringifyArray at_ 0 vs ++ [asc ']'])
  | .object ms => asc '{' :: (stringifyObject at_ 0 ms ++ [asc '}'])

/-- The loop of `js_stringify_array`; `i` counts the children. -/
def stringifyArray (at_ : List Nat) (i : Nat) : Values D → List UInt8
  | .nil => []
  | .cons v vs =>
    (if i = 0 then [] else [asc ',']) ++ (stringifyValue (i :: at_) v ++ stringifyArray at_ (i + 1) vs)

/-- The loop of `js_stringify_object`; `i` counts the children. -/
def stringifyObject (at_ : List Nat) (i : Nat) : Members D → List UInt8
  | .nil => []
  | .cons key v ms =>
    (if i = 0 then [] else [asc ',']) ++
      (asc '"' :: (key.bytes ++ asc '"' :: asc ':' :: (stringifyValue (i :: at_) v ++ stringifyObject at_ (i + 1) ms)))

end

/-- `js_stringify` -/
def jsStringify (v : Value D) : List UInt8 := stringifyValue fmt junk [] v

end Stringify

/-! ### Reading -/

def isspace (c : UInt8) : Bool := c = 32 ∨ c = 12 ∨ c = 10 ∨ c = 13 ∨ c = 9 ∨ c = 11

def isdigit (c : UInt8) : Bool := asc '0' ≤ c ∧ c ≤ asc '9'

/-- The first loop of `js_parse_string`: the bytes before the closing quote or the NUL, and the rest from there on. -/
def scanString : List UInt8 → List UInt8 × List UInt8
  | [] => ([], [])
  | [c] => ([], [c])
  | c :: d :: s =>
    if c = 0 ∨ c = asc '"' then ([], c :: d :: s)
    else if c = asc '\\' then
      if d = 0 then ([c], d :: s)
      else
        let (raw, rest) := scanString s
        (c :: d :: raw, rest)
    else
      let (raw, rest) := scanString (d :: s)
      (c :: raw, rest)

/-- What the byte after a backslash stands for. -/
def unescapeByte (c : UInt8) : UInt8 :=
  if c = asc 'b' then 8
  else if c = asc 'f' then 12
  else if c = asc 'n' then 10
  else if c = asc 'r' then 13
  else if c = asc 't' then 9
  else c

/-- The second loop of `js_parse_string`. -/
def unescape : List UInt8 → List UInt8
  | [] => []
  | [c] => if c = asc '\\' then [] else [c]
  | c :: d :: s => if c = asc '\\' then unescapeByte d :: unescape s else c :: unescape (d :: s)

/-- `js_parse_string`, from behind the opening quote. -/
def parseString (s : List UInt8) : Value D × List UInt8 :=
  let (raw, rest) := scanString s
  if deref rest = asc '"' then (.string (.of (unescape raw)), rest.tail) else (.null, rest)

section Parse

variable (strtod : List UInt8 → D × Nat)

mutual

/-- `js_parse_value`: no answer where the code reads past the NUL or does not come to an end, and `none` for `NULL`. -/
def parseValue : Nat → List UInt8 → Option (Option (Value D) × List UInt8)
  | 0, _ => none
  | fuel + 1, s =>
    match s.dropWhile isspace with
    | [] => none
    | c :: t =>
      if c = asc '{' then do
        let (ms, rest) ← parseObject fuel t
        some (ms.map .object, rest)
      else if c = asc '[' then do
        let (vs, rest) ← parseArray fuel t
        some (some (.array vs), rest)
      else if c = asc '"' then
        let (v, rest) := parseString t
        some (some v, rest)
      else if c = asc '-' ∨ isdigit c then
        let (n, len) := strtod (c :: t)
        some (some (.number n), (c :: t).drop len)
      else if strncmp (c :: t) (lit "true") 4 = 0 then some (some (.boolean true), (c :: t).drop 4)
      else if strncmp (c :: t) (lit "false") 5 = 0 then some (some (.boolean false), (c :: t).drop 5)
      else if strncmp (c :: t) (lit "null") 4 = 0 then some (some .null, (c :: t).drop 4)
      else some (some .null, c :: t)

/-- The loop of `js_parse_array`, and the byte skipped after it. -/
def parseArray : Nat → List UInt8 → Option (Values D × List UInt8)
  | 0, _ => none
  | _ + 1, [] => none
  | fuel + 1, c :: t =>
    if c = 0 ∨ c = asc ']' then some (.nil, t)
    else do
      let (v, s) ← parseValue fuel (c :: t)
      let d ← s.head?
      let (vs, rest) ← parseArray fuel (if d = asc ',' then s.tail else s)
      -- `js_attach` does nothing with `NULL`
      some (v.elim vs fun v => .cons v vs, rest)

/-- The loop of `js_parse_object`, and the `}` skipped after it; `none` for `NULL`. -/
def parseObject : Nat → List UInt8 → Option (Option (Members D) × List UInt8)
  | 0, _ => none
  | fuel + 1, s =>
    if deref s = 0 then some (some .nil, s)
    else if deref s = asc '}' then some (some .nil, s.tail)
    else
      let s := s.dropWhile fun c => isspace c ∨ c = asc '"'
      if deref s = 0 then some (some .nil, s)
      else if deref s = asc '}' then some (some .nil, s.tail)
      else
        let key := s.takeWhile fun c => c ≠ asc '"' ∧ c ≠ 0
        let s := s.dropWhile fun c => c ≠ asc '"' ∧ c ≠ 0
        if deref s = 0 then some (some .nil, s)
        else
          let s := s.tail.dropWhile fun c => c ≠ asc ':' ∧ c ≠ 0
          if deref s = 0 then some (none, s)
          else do
            let (v, s) ← parseValue fuel s.tail
            match v with
            | none => some (none, s)
            | some v =>
              let (ms, rest) ← parseObject fuel (if deref s = asc ',' then s.tail else s)
              some (ms.map (.cons (.of key) v), rest)

end

/-- `js_parse` -/
def jsParse (fuel : Nat) (s : List UInt8) : Option (Option (Value D)) :=
  (parseValue strtod fuel (s ++ [0])).map Prod.fst

end Parse

end JACLibc.Json
