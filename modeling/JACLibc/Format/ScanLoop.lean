import JACLibc.Format.Scanset
import JACLibc.Lib.Checked

/-!
# `__jacl_scanf`, with every read of the format checked

A pointer into the format is what is left of it, its NUL included; behind the NUL nothing is left, and a read there is
a fault.  The loop has all its conversions but the floating-point ones, which are a parameter: they are given the
reader and say whether they found a number, and which.  The range loop of a scanset may not end, so that everything
takes fuel.
-/

namespace JACLibc.Scan

/-- Why there is no result: a read of the format behind its NUL, or a loop that is still not done. -/
inductive Fault where
  | overread | forever
  deriving DecidableEq, Repr

/-- `*fmt` -/
def peek : List UInt8 → Except Fault UInt8
  | [] => .error .overread
  | c :: _ => .ok c

@[simp] theorem peek_cons (c : UInt8) (fmt : List UInt8) : peek (c :: fmt) = .ok c := rfl

@[simp] theorem peek_nil : peek [] = .error .overread := rfl

/-! ### The parts of a directive -/

/-- `__jacl_spec_length` -/
def specLength (fmt : List UInt8) : Except Fault (Length × List UInt8) := do
  let c ← peek fmt
  if c = asc 'l' then
    let d ← peek fmt.tail
    return if d = asc 'l' then (.ll, fmt.tail.tail) else (.l, fmt.tail)
  else if c = asc 'h' then
    let d ← peek fmt.tail
    return if d = asc 'h' then (.hh, fmt.tail.tail) else (.h, fmt.tail)
  else if c = asc 'z' then return (.z, fmt.tail)
  else if c = asc 't' then return (.t, fmt.tail)
  else if c = asc 'j' then return (.j, fmt.tail)
  else if c = asc 'L' then return (.ll, fmt.tail)
  else return (.none, fmt)

/-- `while (**fmt >= '0' && **fmt <= '9')` -/
def readDecimal : Int → List UInt8 → Except Fault (Int × List UInt8)
  | _, [] => .error .overread
  | val, c :: fmt =>
    if asc '0' ≤ c ∧ c ≤ asc '9' then readDecimal (wrapInt (val * 10 + ((c.toNat : Int) - 48))) fmt
    else .ok (val, c :: fmt)

/-- `__jacl_spec_scanf`, where there are no arguments for a `*`. -/
def specScanf (fmt : List UInt8) : Except Fault ScanDirective := do
  let c ← peek fmt
  let noout := decide (c = asc '*')
  let width ← readDecimal 0 (if noout then fmt.tail else fmt)
  let length ← specLength width.2
  let type ← peek length.2
  return ⟨{ Spec.zero with length := length.1, left := noout, spad := type ≠ asc 'c', sign := type ≠ asc 'u',
                           upper := asc 'A' ≤ type ∧ type ≤ asc 'Z' }, width.1, length.2⟩

/-- `fmt[1] == '-' && fmt[2] != ']' && fmt[2] != '\0'`, with the characters at the first of these places. -/
def isRange (fmt : List UInt8) : Except Fault Bool := do
  let hyphen ← peek fmt
  if hyphen = asc '-' then (peek fmt.tail).map fun stop => decide (stop ≠ asc ']' ∧ stop ≠ 0) else .ok false

/-- The loop of `__jacl_input_scan` over the scanset. -/
def buildSet (fuel : Nat) (fmt : List UInt8) (cset : Scanset.CharSet) : Except Fault (Scanset.CharSet × List UInt8) :=
  match fmt with
  | [] => .error .overread
  | c :: rest =>
    if c = 0 ∨ c = asc ']' then .ok (cset, c :: rest)
    else do
      let range ← isRange rest
      if range then
        let stop ← peek rest.tail
        match if c ≤ stop then Scanset.flipRange fuel c stop cset else some cset with
        | none => .error .forever
        | some cset => buildSet fuel (rest.drop 2) cset
      else buildSet fuel rest (Scanset.bitFlip cset c)
termination_by fmt.length
decreasing_by all_goals simp

/-- The part of `__jacl_input_scan` that goes over the format, behind the opening bracket. -/
def scanset (fuel : Nat) (fmt : List UInt8) : Except Fault (Scanset.CharSet × List UInt8) := do
  let c ← peek fmt
  let start := if c = asc '^' then ((fun _ => true : Scanset.CharSet), fmt.tail)
    else ((fun _ => false : Scanset.CharSet), fmt)
  let d ← peek start.2
  if d = asc ']' then buildSet fuel start.2.tail (Scanset.bitFlip start.1 (asc ']')) else buildSet fuel start.2 start.1

/-! ### Conversions -/

/-- `__jacl_input_str`: the characters stored, and the reader. -/
def readStr (pad : Bool) (width : Int) (buf : List UInt8) (r : Reader) : List UInt8 × Reader :=
  if buf.length < width then
    if _h : (readNext r).1 = EOF then (buf, (readNext r).2)
    else if pad && isSpace (readNext r).1 then (buf, (readNext r).2)
    else readStr pad width (buf ++ [Scanset.toByte (readNext r).1]) (readNext r).2
  else (buf, r)
termination_by r.rest.length
decreasing_by exact readNext_rest_lt _h

/-- What is stored through an argument: an integer, or characters. -/
inductive Value where
  | int (val : Nat)
  | text (chars : List UInt8)
  deriving DecidableEq, Repr

/-- What a conversion did: whether it found something, what it stores, and the reader. -/
structure Input where
  found : Bool
  value : Value
  reader : Reader
  deriving DecidableEq, Repr

/-- `__jacl_scanf_char`, `__jacl_scanf_str` -/
def scanfStr (d : ScanDirective) (r : Reader) : Input :=
  let width := if d.width = 0 then (if d.type = asc 'c' then 1 else INT_MAX) else d.width
  let n := readStr d.spec.spad width [] (if d.spec.spad then readSkip r else r)
  ⟨!(d.spec.spad && n.1.isEmpty), .text n.1, n.2⟩

/-- `__jacl_scanf_int`, `__jacl_scanf_dec`, `__jacl_scanf_oct`, `__jacl_scanf_hex` -/
def scanfInt (base : Nat) (d : ScanDirective) (r : Reader) : Input :=
  let n := scanfBase base d r
  ⟨n.found, .int (n.val % 2 ^ d.spec.length.bits), n.reader⟩

/-- The conversion characters of `__jacl_scanf_float`. -/
def isFloat (type : UInt8) : Bool := type ∈ lit "eEgGfFpaA"

/-! ### The loop -/

/-- The variables of `__jacl_scanf`, and the values stored so far. -/
structure State where
  reader : Reader
  count : Int
  matched : Bool
  stored : List Value
  deriving DecidableEq, Repr

/-- A turn of the loop returns, or goes on behind a part of the format. -/
inductive Turn where
  | ret (value : Int) (s : State)
  | next (fmt : List UInt8) (s : State)

/-- The `CASE` of `__jacl_scanf`. -/
def convert (d : ScanDirective) (s : State) (n : Input) : Turn :=
  if !n.found then .ret (if s.matched then s.count else EOF) { s with reader := n.reader }
  else if d.spec.left then .next d.fmt.tail { s with reader := n.reader, matched := true }
  else .next d.fmt.tail ⟨n.reader, s.count + 1, true, s.stored ++ [n.value]⟩

/-- `case '['` of `__jacl_scanf` with what `__jacl_input_scan` reads, where the set and the rest of the format are
known. -/
def convertSet (d : ScanDirective) (s : State) (cset : Scanset.CharSet × List UInt8) : Turn :=
  let n := Scanset.readSet cset.1 (if d.width = 0 then INT_MAX else d.width) [] (readSkip s.reader)
  if n.1.isEmpty then .ret (if s.matched then s.count else EOF) { s with reader := n.2 }
  else if d.spec.left then .next cset.2.tail { s with reader := n.2 }
  else .next cset.2.tail { s with reader := n.2, count := s.count + 1, stored := s.stored ++ [.text n.1] }

/-- The `switch (type)` of `__jacl_scanf`, and the `fmt++` behind it. -/
def directive (float : ScanDirective → Reader → Input) (fuel : Nat) (d : ScanDirective) (s : State) :
    Except Fault Turn :=
  if d.type = asc '%' then
    let next := readNext s.reader
    if next.1 ≠ 37 then .ok (.ret (if next.1 = EOF ∧ ¬s.matched then EOF else s.count) { s with reader := next.2 })
    else .ok (.next d.fmt.tail { s with reader := next.2 })
  else if d.type = asc 'n' then
    let read := (s.reader.read % 2 ^ d.spec.length.bits).toNat
    .ok (.next d.fmt.tail (if d.spec.left then s else { s with stored := s.stored ++ [.int read] }))
  else if d.type = asc '[' then (scanset fuel d.fmt.tail).map (convertSet d s)
  else if d.type = asc 'c' ∨ d.type = asc 's' then .ok (convert d s (scanfStr d s.reader))
  else if isFloat d.type then .ok (convert d s (float d s.reader))
  else match scanBase d.type with
    | some base => .ok (convert d s (scanfInt base d s.reader))
    | none => .ok (.next d.fmt.tail s)

/-- A turn of `while (*fmt)`. -/
def turn (float : ScanDirective → Reader → Input) (fuel : Nat) (c : UInt8) (fmt : List UInt8) (s : State) :
    Except Fault Turn :=
  if c ≠ asc '%' then
    if isSpace (charVal c) then .ok (.next fmt { s with reader := readSkip s.reader })
    else
      let next := readNext s.reader
      if next.1 ≠ charVal c then
        .ok (.ret (if next.1 = EOF ∧ s.count = 0 then EOF else s.count)
          { s with reader := if next.1 ≠ EOF then readBack next.2 else next.2 })
      else .ok (.next fmt { s with reader := next.2 })
  else do
    let d ← specScanf fmt
    directive float fuel d s

/-- `__jacl_scanf`: the returned `int` and the variables at the return. -/
def scanf (float : ScanDirective → Reader → Input) : Nat → List UInt8 → State → Except Fault (Int × State)
  | 0, _, _ => .error .forever
  | fuel + 1, fmt, s => do
    let c ← peek fmt
    if c = 0 then return (s.count, s)
    else
      match ← turn float fuel c fmt.tail s with
      | .ret value s => return (value, s)
      | .next fmt s => scanf float fuel fmt s

/-- A string that is to be read, from its start. -/
def State.start (str : CString) : State := ⟨⟨[], str.bytes, 0⟩, 0, false, []⟩

end JACLibc.Scan
