import JACLibc.Format.ReadDigits

/-!
# `strtol` and `strtoul`

`reference` is what the C standard says of `strtol` and `strtoul`: white space, a sign, the prefix that the base
allows, the longest run of digits, and a value clamped to the type.

The code reads a byte of value 255 as the end of the string and passes it, puts nothing back where it found no digit
behind a zero or in base 8, gives up a zero in front of an `x` that no digit follows, clamps signed values in base 10
only and forgets that a negated value was clamped; `Fits` excludes just that (`strtoInt_iff`).
-/

namespace JACLibc

/-- `strtol` -/
def strtol (str : List UInt8) (base : Nat) : Converted := strtoInt .l false str base

namespace Strto

/-! ### The functions of the standard -/

/-- `isspace` in the C locale. -/
def isWhite (c : UInt8) : Bool := c ∈ [32, 9, 10, 11, 12, 13]

/-- The value of a digit or a letter; 36 for any other character. -/
def digitOf (c : UInt8) : Nat :=
  if asc '0' ≤ c ∧ c ≤ asc '9' then c.toNat - 48
  else if asc 'a' ≤ c ∧ c ≤ asc 'z' then c.toNat - 87
  else if asc 'A' ≤ c ∧ c ≤ asc 'Z' then c.toNat - 55
  else 36

def isX (c : UInt8) : Bool := c = asc 'x' ∨ c = asc 'X'

/-- Whether there is a `-`, and how many characters the sign has. -/
def signOf (s : List UInt8) : Bool × Nat :=
  if deref s = asc '-' then (true, 1) else if deref s = asc '+' then (false, 1) else (false, 0)

/-- A zero and an `x`. -/
def startsHex (t : List UInt8) : Bool := deref t = asc '0' ∧ isX (deref t.tail)

/-- A zero and an `x` are a prefix if a hexadecimal digit follows. -/
def hexAhead (t : List UInt8) : Bool := startsHex t ∧ digitOf (deref t.tail.tail) < 16

/-- The base of the digits, and the length of the prefix in front of them. -/
def baseOf (base : Nat) (t : List UInt8) : Nat × Nat :=
  if (base = 0 ∨ base = 16) ∧ hexAhead t then (16, 2)
  else (if base ≠ 0 then base else if deref t = asc '0' then 8 else 10, 0)

/-- The longest run of digits. -/
def digitsOf (base : Nat) (t : List UInt8) : List UInt8 :=
  (t.drop (baseOf base t).2).takeWhile fun c => digitOf c < (baseOf base t).1

/-- What follows the digits. -/
def afterDigits (base : Nat) (t : List UInt8) : List UInt8 :=
  (t.drop (baseOf base t).2).dropWhile fun c => digitOf c < (baseOf base t).1

/-- The number that the digits stand for. -/
def valueOf (base : Nat) (t : List UInt8) : Nat :=
  (digitsOf base t).foldl (fun v c => v * (baseOf base t).1 + digitOf c) 0

/-- The value clamped to `unsigned long` or `long`, as 64 bits, and whether it was. -/
def clamp (usig neg : Bool) (v : Nat) : Nat × Bool :=
  if usig then if 2 ^ 64 ≤ v then (2 ^ 64 - 1, true) else (if neg then negate v else v, false)
  else if neg then if 2 ^ 63 < v then (2 ^ 63, true) else (negate v, false)
  else if 2 ^ 63 ≤ v then (2 ^ 63 - 1, true) else (v, false)

/-- The string behind its white space. -/
def body (str : List UInt8) : List UInt8 := str.dropWhile isWhite

/-- The string behind its sign. -/
def unsigned (s : List UInt8) : List UInt8 := s.drop (signOf s).2

/-- What `strtol` and `strtoul` return, where they leave `*endptr`, and whether they store `ERANGE`. -/
def reference (usig : Bool) (str : List UInt8) (base : Nat) : Converted :=
  let s := body str
  let t := unsigned s
  if digitsOf base t = [] then ⟨0, 0, false⟩
  else
    let v := clamp usig (signOf s).1 (valueOf base t)
    ⟨v.1, (str.takeWhile isWhite).length + ((signOf s).2 + ((baseOf base t).2 + (digitsOf base t).length)), v.2⟩

/-! ### Where the code agrees -/

/-- The base that the code takes, and how much it has gone over before its digits: a zero that says that the base is 8
is no digit. -/
def codeBase (base : Nat) (t : List UInt8) : Nat × Nat :=
  if (base = 0 ∨ base = 16) ∧ startsHex t then (16, 2)
  else if base = 0 ∧ deref t = asc '0' then (8, 1) else (if base = 0 then 10 else base, 0)

/-- A zero and an `x` where they could be a prefix, but are none. -/
def LoneX (base : Nat) (t : List UInt8) : Prop := (base = 0 ∨ base = 16) ∧ startsHex t ∧ ¬hexAhead t

/-- The code takes what follows for a number. -/
def Starts (base : Nat) (t : List UInt8) : Prop := base = 8 ∨ digitsOf base t ≠ [] ∧ ¬LoneX base t

/-- The number has fewer characters than `INT_MAX`, or as many with something in front of its digits. -/
def Short (base : Nat) (s : List UInt8) : Prop :=
  let t := unsigned s
  let size := (signOf s).2 + ((baseOf base t).2 + (digitsOf base t).length)
  (size : Int) < INT_MAX ∨ (size : Int) = INT_MAX ∧ ((signOf s).2 = 1 ∨ (codeBase base t).2 ≠ 0)

/-- The value needs no clamping that the code does not do. -/
def InRange (usig neg : Bool) (base v : Nat) : Prop :=
  if usig then neg → v < 2 ^ 64 else base = 0 ∨ base = 10 ∨ (if neg then v ≤ 2 ^ 63 else v < 2 ^ 63)

/-- When `strtol` and `strtoul` do what the standard says. -/
def Fits (usig : Bool) (str : List UInt8) (base : Nat) : Prop :=
  let s := body str
  let t := unsigned s
  if s.head? = some 255 then ¬Starts base (unsigned s.tail)
  else if digitsOf base t = [] then base = 8 → str = []
  else ¬LoneX base t ∧ (base = 0 → digitsOf base t = [asc '0'] → (baseOf base t).2 = 0 → afterDigits base t = []) ∧
    (afterDigits base t).head? ≠ some 255 ∧ Short base s ∧ InRange usig (signOf s).1 base (valueOf base t)

instance (base : Nat) (t : List UInt8) : Decidable (LoneX base t) := inferInstanceAs (Decidable (_ ∧ _))

instance (base : Nat) (t : List UInt8) : Decidable (Starts base t) := inferInstanceAs (Decidable (_ ∨ _))

instance (base : Nat) (s : List UInt8) : Decidable (Short base s) := inferInstanceAs (Decidable (_ ∨ _))

instance (usig neg : Bool) (base v : Nat) : Decidable (InRange usig neg base v) :=
  inferInstanceAs (Decidable (ite _ _ _))

instance (usig : Bool) (str : List UInt8) (base : Nat) : Decidable (Fits usig str base) :=
  inferInstanceAs (Decidable (ite _ _ _))

end Strto

end JACLibc
