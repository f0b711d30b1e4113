import JACLibc.Format.StrtoSpec
import Mathlib.Logic.Function.Basic

/-!
# Scansets

`__jacl_input_scan` builds a set of bytes from the text behind `%[` and reads the characters that lie in it.  `listed`
says how often the text lists a byte, alone or in a range; the set of the code is built by flipping, so that it has
the bytes listed an odd number of times.

A range that ends with the byte 255 is never done, white space in front is skipped, and a byte 255 of the input reads
as its end; the characters stored are those of the standard if none of this matters (`scanset_iff`).
-/

namespace JACLibc.Scanset

/-! ### The code -/

/-- `cset`, the bit of each byte. -/
abbrev CharSet := UInt8 → Bool

/-- `BITFLIP(cset, c)` -/
def bitFlip (cset : CharSet) (c : UInt8) : CharSet := Function.update cset c (!cset c)

/-- `for (c = start; c <= end; c++) BITFLIP(cset, c)`, where `c` is an `unsigned char`. -/
def flipRange : Nat → UInt8 → UInt8 → CharSet → Option CharSet
  | 0, _, _, _ => none
  | fuel + 1, c, stop, cset => if c ≤ stop then flipRange fuel (c + 1) stop (bitFlip cset c) else some cset

/-- A range stands here: `(*fmt)[1] == '-' && (*fmt)[2] != ']' && (*fmt)[2] != '\0'`. -/
def isRange (fmt : List UInt8) : Bool := deref fmt.tail = asc '-' ∧ deref fmt.tail.tail ≠ asc ']' ∧
    deref fmt.tail.tail ≠ 0

/-- `while (**fmt && **fmt != ']')` -/
def buildSet (fuel : Nat) (fmt : List UInt8) (cset : CharSet) : Option (CharSet × List UInt8) :=
  match fmt with
  | [] => some (cset, [])
  | c :: rest =>
    if c = asc ']' then some (cset, c :: rest)
    else if isRange (c :: rest) then
      -- `start` is `c`, and `end` the character behind the hyphen
      match if c ≤ deref rest.tail then flipRange fuel c (deref rest.tail) cset else some cset with
      | none => none
      | some cset => buildSet fuel (rest.drop 2) cset
    else buildSet fuel rest (bitFlip cset c)
termination_by fmt.length
decreasing_by all_goals simp

/-- The set of `__jacl_input_scan`, and the rest of the format; `fmt` stands behind the bracket. -/
def scanset (fuel : Nat) (fmt : List UInt8) : Option (CharSet × List UInt8) :=
  let start := if deref fmt = asc '^' then ((fun _ => true : CharSet), fmt.tail) else ((fun _ => false : CharSet), fmt)
  if deref start.2 = asc ']' then buildSet fuel start.2.tail (bitFlip start.1 (asc ']'))
    else buildSet fuel start.2 start.1

/-- `(unsigned char)ch` -/
def toByte (ch : Int) : UInt8 := (ch % 256).toNat.toUInt8

/-- `while (i < width)`: what is stored in `buf`, and the reader. -/
def readSet (cset : CharSet) (width : Int) (buf : List UInt8) (r : Reader) : List UInt8 × Reader :=
  if buf.length < width then
    if _h : (readNext r).1 = EOF then (buf, (readNext r).2)
    else if cset (toByte (readNext r).1) then readSet cset width (buf ++ [toByte (readNext r).1]) (readNext r).2
    else (buf, readBack (readNext r).2)
  else (buf, r)
termination_by r.rest.length
decreasing_by exact readNext_rest_lt _h

/-- `__jacl_input_scan`: the characters stored in front of the NUL, the reader and the rest of the format.  The set is
built before anything is read; with too little fuel, for a loop that does not end, there is no answer. -/
def inputScan (fuel : Nat) (fmt : List UInt8) (width : Int) (r : Reader) : Option (List UInt8 × Reader × List UInt8) :=
  (scanset fuel fmt).map fun cset =>
    let n := readSet cset.1 (if width = 0 then INT_MAX else width) [] (readSkip r)
    (n.1, n.2, cset.2)

/-! ### The set that is written -/

/-- A character or a range. -/
inductive Item where
  | one (c : UInt8)
  | range (start stop : UInt8)
  deriving DecidableEq, Repr

def Item.has (c : UInt8) : Item → Bool
  | .one x => c = x
  | .range start stop => start ≤ c ∧ c ≤ stop

/-- The items up to the closing bracket. -/
def itemsOf (fmt : List UInt8) : List Item :=
  match fmt with
  | [] => []
  | c :: rest =>
    if c = asc ']' then []
    else if isRange (c :: rest) then .range c (deref rest.tail) :: itemsOf (rest.drop 2)
    else .one c :: itemsOf rest
termination_by fmt.length
decreasing_by all_goals simp

/-- A `^` in front. -/
def negated (fmt : List UInt8) : Bool := deref fmt = asc '^'

/-- A bracket right behind the opening one, or behind the `^`, is a member. -/
def items (fmt : List UInt8) : List Item :=
  let fmt := if negated fmt then fmt.tail else fmt
  if deref fmt = asc ']' then .one (asc ']') :: itemsOf fmt.tail else itemsOf fmt

/-- How often a character is listed. -/
def listed (items : List Item) (c : UInt8) : Nat := items.countP (·.has c)

/-- The characters that are to be stored. -/
def accepts (fmt : List UInt8) (c : UInt8) : Bool := decide (0 < listed (items fmt) c) != negated fmt

/-- The longest prefix of the input of characters to be stored, up to the width. -/
def reference (fmt : List UInt8) (width : Int) (input : List UInt8) : List UInt8 :=
  (input.takeWhile (accepts fmt)).take (if width = 0 then INT_MAX else width).toNat

/-! ### Where the code agrees -/

/-- The characters that the code stores. -/
def stores (fmt : List UInt8) (c : UInt8) : Bool :=
  (decide (listed (items fmt) c % 2 = 1) != negated fmt) && decide (c ≠ 255)

/-- No range ends with the byte 255. -/
def Ends (fmt : List UInt8) : Prop := ∀ start, Item.range start 255 ∉ items fmt

/-- The characters stored are the right ones: behind white space and a byte 255 by chance, behind other white space
where there are none, and otherwise where the two sets agree on the characters up to the first that is not to be
stored. -/
def Agrees (fmt : List UInt8) (width : Int) (input : List UInt8) : Prop :=
  let w := (if width = 0 then INT_MAX else width).toNat
  if (Strto.body input).head? = some 255 then ((Strto.body input).tail.takeWhile (stores fmt)).take w =
    reference fmt width input
  else if ∃ c ∈ input.head?, Strto.isWhite c then
    w = 0 ∨ ((∀ c ∈ input.head?, accepts fmt c = false) ∧ ∀ c ∈ (Strto.body input).head?, stores fmt c = false)
  else ∀ c ∈ input.take (min ((input.takeWhile (accepts fmt)).length + 1) w), stores fmt c = accepts fmt c

end JACLibc.Scanset
