import JACLibc.Format.Printf

/-!
# Reading integers: `strtoul`, `strtol` and `sscanf`

The read primitives of `format.h` on a string, `__jacl_input_int` above them, and its callers: `__jacl_strto_int` of
`stdlib.h` and the loop of `__jacl_scanf` for literal text, white space and the conversions `d i u o x X`.  Another
conversion makes the model answer `none`.

A reader stands somewhere in a string: `back` holds the bytes it went over, last one first, and `rest` those to come.
Characters are read as `char`, so that the byte `0xFF` reads as `EOF`.
-/

namespace JACLibc

def EOF : Int := -1

def UINTMAX_MAX : Nat := 2 ^ 64 - 1

/-- `*in` and `*read`. -/
structure Reader where
  back : List UInt8
  rest : List UInt8
  read : Int
  deriving DecidableEq, Repr

/-- `__jacl_isspace` -/
def isSpace (ch : Int) : Bool := ch ∈ [32, 9, 10, 13, 12, 11]

/-- `__jacl_read_next`: the character and the reader behind it. -/
def readNext (r : Reader) : Int × Reader :=
  match r.rest with
  | [] => (EOF, r)
  | c :: rest => (charVal c, ⟨c :: r.back, rest, if charVal c ≠ EOF then r.read + 1 else r.read⟩)

/-- `__jacl_read_back` -/
def readBack (r : Reader) : Reader :=
  match r.back with
  | [] => { r with read := r.read - 1 }
  | c :: back => ⟨back, c :: r.rest, r.read - 1⟩

theorem readNext_rest_lt {r : Reader} (h : (readNext r).1 ≠ EOF) : (readNext r).2.rest.length < r.rest.length := by
  unfold readNext at h ⊢
  split
  · rename_i heq
    simp [heq] at h
  · rename_i heq
    simp [heq]

theorem readNext_rest_le (r : Reader) : (readNext r).2.rest.length ≤ r.rest.length := by
  unfold readNext
  split
  · exact Nat.le_refl _
  · rename_i heq
    simp [heq]

/-- The `do .. while` loop of `__jacl_read_skip`. -/
def readSpaces (r : Reader) : Int × Reader :=
  if (readNext r).1 ≠ EOF ∧ isSpace (readNext r).1 then readSpaces (readNext r).2 else readNext r
termination_by r.rest.length
decreasing_by exact readNext_rest_lt (And.left ‹_›)

/-- `__jacl_read_skip` -/
def readSkip (r : Reader) : Reader :=
  if (readSpaces r).1 ≠ EOF then readBack (readSpaces r).2 else (readSpaces r).2

/-- The `dval` of a character, `-1` where it has none. -/
def digitVal (ch : Int) : Int :=
  if 48 ≤ ch ∧ ch ≤ 57 then ch - 48
  else if 97 ≤ ch then ch - 97 + 10
  else if 65 ≤ ch then ch - 65 + 10
  else -1

/-- What `__jacl_read_digits` works on: the character read last, the reader, the number of digits, the value and
whether `ERANGE` was stored. -/
structure Digits where
  ch : Int
  reader : Reader
  count : Int
  val : Nat
  erange : Bool
  deriving DecidableEq, Repr

/-- The value with one more digit, and whether it left the range. -/
def pushDigit (base : Nat) (val dval : Nat) : Nat × Bool :=
  if val > (UINTMAX_MAX - dval) / base then (UINTMAX_MAX, true) else (val * base + dval, false)

/-- `__jacl_read_digits` -/
def readDigits (width limit : Int) (base : Nat) (d : Digits) : Digits :=
  if d.reader.read < width ∧ d.ch ≠ EOF ∧ 0 ≤ digitVal d.ch ∧ digitVal d.ch < base then
    let pushed := pushDigit base d.val (digitVal d.ch).toNat
    let d' : Digits := { d with count := d.count + 1, val := pushed.1, erange := d.erange || pushed.2 }
    if limit ≤ d'.count then d'
    else
      let next := readNext d.reader
      readDigits width limit base { d' with ch := next.1, reader := next.2 }
  else d
termination_by 2 * d.reader.rest.length + if d.ch = EOF then 0 else 1
decreasing_by
  rename_i hch _
  rw [if_neg hch.2.1]
  split
  · have := readNext_rest_le d.reader
    omega
  · rename_i hnext
    have := readNext_rest_lt hnext
    omega

/-- The number of bits of the type a length modifier names. -/
def Length.bits : Length → Nat
  | .none => 32
  | .hh => 8
  | .h => 16
  | _ => 64

/-- `(uintmax_t)(-(intmax_t)val)` -/
def negate (val : Nat) : Nat := (2 ^ 64 - val) % 2 ^ 64

/-- The `switch` of `__jacl_input_int`: the sign, and for a signed decimal conversion the limits of its type. -/
def applySign (spec : Spec) (neg : Bool) (val : Nat) : Nat × Bool :=
  let half := 2 ^ (spec.length.bits - 1)
  if spec.sign ∧ (spec.base = 10 ∨ spec.base = 0) then
    if neg ∧ half < val then (negate half, true)
    else if ¬neg ∧ half - 1 < val then (half - 1, true)
    else if neg then (negate val, false)
    else (val, false)
  else if neg then (negate val, false)
  else (val, false)

/-- The sign of `__jacl_input_int`: whether it is `-`, and the character behind it. -/
def inputSign (ch : Int) (r : Reader) : Bool × Int × Reader :=
  if ch = 45 then (true, readNext r)
  else if ch = 43 then (false, readNext r)
  else (false, ch, r)

/-- The base of `__jacl_input_int`, with the prefix that a base of 0 or 16 allows.  Where no `x` follows the zero of
base 16, the character behind the zero is put back; at the end of the string there is none, and the zero itself is. -/
def inputBase (base : Nat) (ch : Int) (r : Reader) : Nat × Int × Reader :=
  if base = 0 then
    if ch = 48 then
      let next := readNext r
      if next.1 = 120 ∨ next.1 = 88 then (16, readNext next.2) else (8, next)
    else (10, ch, r)
  else if base = 16 ∧ ch = 48 then
    let next := readNext r
    if next.1 = 120 ∨ next.1 = 88 then (base, readNext next.2) else (base, 48, readBack next.2)
  else (base, ch, r)

/-- What `__jacl_input_int` did: whether it found a number, its value, the reader, and whether `ERANGE` was stored. -/
structure Scanned where
  found : Bool
  val : Nat
  reader : Reader
  erange : Bool
  deriving DecidableEq, Repr

/-- `__jacl_input_int`; behind the first character the reader counts in `pos`. -/
def inputInt (spec : Spec) (width : Int) (r : Reader) : Scanned :=
  let first := readNext r
  let sign := inputSign first.1 { first.2 with read := 0 }
  let start := inputBase spec.base sign.2.1 sign.2.2
  let d := readDigits width width start.1 ⟨start.2.1, start.2.2, 0, 0, false⟩
  let pos := if 0 < d.count ∧ d.ch ≠ EOF then readBack d.reader else d.reader
  let signed := applySign spec sign.1 d.val
  let found := decide (0 < d.count) || (start.1 == 8 && signed.1 == 0)
  ⟨found, signed.1, { pos with read := if found then first.2.read + pos.read else first.2.read }, d.erange || signed.2⟩

/-- What a `strto` function did: the value before the cast to the returned type, `*endptr` as the number of bytes in
front of it, and whether `ERANGE` was stored. -/
structure Converted where
  val : Nat
  endptr : Nat
  erange : Bool
  deriving DecidableEq, Repr

/-- `__jacl_strto_int` for a base of 0 or 2 to 36. -/
def strtoInt (length : Length) (usig : Bool) (str : List UInt8) (base : Nat) : Converted :=
  let n := inputInt { Spec.zero with base := base, length := length, sign := !usig } INT_MAX (readSkip ⟨[], str, 0⟩)
  if n.found then ⟨n.val, n.reader.back.length, n.erange⟩ else ⟨0, 0, n.erange⟩

/-- `strtoul` -/
def strtoul (str : List UInt8) (base : Nat) : Converted := strtoInt .l true str base

/-- `__jacl_ato_int`: the value before the cast to the returned type. -/
def atoInt (length : Length) (usig : Bool) (str : List UInt8) : Nat :=
  let n := inputInt { Spec.zero with base := 10, length := length, sign := !usig } INT_MAX (readSkip ⟨[], str, 0⟩)
  if n.found then n.val else 0

/-- `atoi` -/
def atoi (str : List UInt8) : Int := wrapInt (atoInt .none false str)

/-! ### `sscanf` -/

/-- What `__jacl_spec_scanf` hands back: the directive and the rest of the format from the conversion character on. -/
structure ScanDirective where
  spec : Spec
  width : Int
  fmt : List UInt8
  deriving DecidableEq, Repr

def ScanDirective.type (d : ScanDirective) : UInt8 := deref d.fmt

/-- `__jacl_spec_scanf`; the flag `noout` is the flag `left`. -/
def specScanf (fmt : List UInt8) : ScanDirective :=
  let noout := deref fmt = asc '*'
  let fmt := if noout then fmt.tail else fmt
  let width := readDecimal 0 fmt
  let length := specLength width.2
  let type := deref length.2
  ⟨{ Spec.zero with length := length.1, left := noout, spad := type ≠ asc 'c', sign := type ≠ asc 'u',
                    upper := asc 'A' ≤ type ∧ type ≤ asc 'Z' }, width.1, length.2⟩

/-- The base of a conversion character; `none` for a conversion that is not modelled. -/
def scanBase (type : UInt8) : Option Nat :=
  if type = asc 'i' then some 0
  else if type = asc 'd' ∨ type = asc 'u' then some 10
  else if type = asc 'o' then some 8
  else if type = asc 'x' ∨ type = asc 'X' then some 16
  else none

/-- `__jacl_scanf_int`, `__jacl_scanf_dec`, `__jacl_scanf_oct`, `__jacl_scanf_hex` without the store. -/
def scanfBase (base : Nat) (d : ScanDirective) (r : Reader) : Scanned :=
  inputInt { d.spec with base := base } (if d.width = 0 then INT_MAX else d.width) (readSkip r)

/-- The values stored so far, as the bits of the objects they went to, in the order of the arguments. -/
structure ScanState where
  reader : Reader
  count : Int
  matched : Bool
  stored : List Nat
  deriving DecidableEq, Repr

/-- The `while (*fmt)` loop of `__jacl_scanf` on a string: the returned `int` and what was stored. -/
def scanfLoop : Nat → List UInt8 → ScanState → Option (Int × List Nat)
  | 0, _, _ => none
  | _ + 1, [], s => some (s.count, s.stored)
  | fuel + 1, c :: fmt, s =>
    if c ≠ asc '%' then
      if isSpace (charVal c) then scanfLoop fuel fmt { s with reader := readSkip s.reader }
      else
        let next := readNext s.reader
        if next.1 ≠ charVal c then some (if next.1 = EOF ∧ s.count = 0 then EOF else s.count, s.stored)
        else scanfLoop fuel fmt { s with reader := next.2 }
    else
      let d := specScanf fmt
      match scanBase d.type with
      | none => none
      | some base =>
        let n := scanfBase base d s.reader
        if ¬n.found then some (if s.matched then s.count else EOF, s.stored)
        else if d.spec.left then scanfLoop fuel d.fmt.tail { s with reader := n.reader, matched := true }
        else
          scanfLoop fuel d.fmt.tail
            ⟨n.reader, s.count + 1, true, s.stored ++ [n.val % 2 ^ d.spec.length.bits]⟩

/-- `sscanf`: the returned `int` and the values stored through the arguments. -/
def sscanf (str fmt : List UInt8) : Option (Int × List Nat) :=
  scanfLoop (fmt.length + 1) fmt ⟨⟨[], str, 0⟩, 0, false, []⟩

end JACLibc
