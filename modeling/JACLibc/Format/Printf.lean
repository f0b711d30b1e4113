import JACLibc.CString
import JACLibc.Format.Sink
import Mathlib.Data.Nat.Digits.Defs

/-!
# `__jacl_printf` and the functions on top of it

The formatter of `format.h` for literal text, `%%` and the conversions `d i u o x X c s p`, with flags, width,
precision (both possibly `*`) and length modifiers, and `vsnprintf`, `vfprintf` and `vasprintf` of `stdio.h`.  A
conversion outside this set (`%n`, the floating-point ones) makes the model answer `none`; so does a format that ends
inside a directive, where the source reads past its NUL, and a call that never returns, which a string without room for
all its characters leads to (`strLoop`).

Arguments are the 64-bit slots of the `va_list`, in order; a called function that takes one leaves the next to its
caller.  The strings `%s` prints are read through `str`, apart from the buffer written to, as `restrict` says.  `int`
arithmetic that can leave the range of `int` wraps.
-/

namespace JACLibc

/-- The unread arguments, one 64-bit slot each. -/
abbrev VaList := List (BitVec 64)

/-- `va_arg` of a 64-bit type. -/
def vaArg (ap : VaList) : BitVec 64 × VaList := (ap.headD 0, ap.tail)

/-- `va_arg(ap, int)` -/
def vaInt (ap : VaList) : Int × VaList := (((vaArg ap).1.setWidth 32).toInt, (vaArg ap).2)

/-! ### Directives -/

/-- The length modifiers; `L` counts as `ll`. -/
inductive Length where
  | none | hh | h | l | ll | z | t | j
  deriving DecidableEq, Repr

/-- `__jacl_fmt_t`: the base, the length modifier and the flag bits. -/
structure Spec where
  base : Nat
  length : Length
  sign : Bool
  upper : Bool
  left : Bool
  pref : Bool
  plus : Bool
  spad : Bool
  zpad : Bool
  ksep : Bool
  deriving DecidableEq, Repr

def Spec.zero : Spec := ⟨0, .none, false, false, false, false, false, false, false, false⟩

/-- `__jacl_spec_length` -/
def specLength (fmt : List UInt8) : Length × List UInt8 :=
  if deref fmt = asc 'l' then
    if deref fmt.tail = asc 'l' then (.ll, fmt.tail.tail) else (.l, fmt.tail)
  else if deref fmt = asc 'h' then
    if deref fmt.tail = asc 'h' then (.hh, fmt.tail.tail) else (.h, fmt.tail)
  else if deref fmt = asc 'z' then (.z, fmt.tail)
  else if deref fmt = asc 't' then (.t, fmt.tail)
  else if deref fmt = asc 'j' then (.j, fmt.tail)
  else if deref fmt = asc 'L' then (.ll, fmt.tail)
  else (.none, fmt)

/-- `__jacl_spec_value` -/
def specValue (fmt : List UInt8) (ap : VaList) : Int × List UInt8 × VaList :=
  if deref fmt = asc '*' then ((vaInt ap).1, fmt.tail, (vaInt ap).2)
  else ((readDecimal 0 fmt).1, (readDecimal 0 fmt).2, ap)

/-- The loop over the flags at the start of `__jacl_spec_printf`. -/
def specFlags : Spec → List UInt8 → Spec × List UInt8
  | spec, c :: fmt =>
    if c = asc '-' then specFlags { spec with left := true } fmt
    else if c = asc '+' then specFlags { spec with plus := true } fmt
    else if c = asc ' ' then specFlags { spec with spad := true } fmt
    else if c = asc '#' then specFlags { spec with pref := true } fmt
    else if c = asc '0' then specFlags { spec with zpad := true } fmt
    else if c = asc '\'' then specFlags { spec with ksep := true } fmt
    else (spec, c :: fmt)
  | spec, [] => (spec, [])

/-- What `__jacl_spec_printf` hands back: the directive, the rest of the format from the conversion character on,
and the arguments left. -/
structure Directive where
  spec : Spec
  prec : Int
  width : Int
  fmt : List UInt8
  ap : VaList

/-- The conversion character. -/
def Directive.type (d : Directive) : UInt8 := deref d.fmt

/-- `__jacl_spec_printf` -/
def specPrintf (ap : VaList) (fmt : List UInt8) : Directive :=
  let (spec, fmt) := specFlags .zero fmt
  let (width, fmt, ap) := specValue fmt ap
  let spec := if width < 0 then { spec with left := true } else spec
  let width := if width < 0 then wrapInt (-width) else width
  let (prec, fmt, ap) := if deref fmt = asc '.' then specValue fmt.tail ap else (-1, fmt, ap)
  let (length, fmt) := specLength fmt
  let upper := asc 'A' ≤ deref fmt ∧ deref fmt ≤ asc 'Z'
  let sign := deref fmt = asc 'd' ∨ deref fmt = asc 'i'
  ⟨{ spec with length := length, upper := upper, sign := sign }, prec, width, fmt, ap⟩

/-- `__jacl_get_signed` -/
def getSigned (spec : Spec) (ap : VaList) : BitVec 64 × VaList :=
  match spec.length with
  | .l | .ll | .z | .t | .j => vaArg ap
  | _ => (((vaArg ap).1.setWidth 32).signExtend 64, (vaArg ap).2)

/-- `__jacl_get_unsigned` -/
def getUnsigned (spec : Spec) (ap : VaList) : BitVec 64 × VaList :=
  match spec.length with
  | .l | .ll | .z | .t | .j => vaArg ap
  | _ => (((vaArg ap).1.setWidth 32).setWidth 64, (vaArg ap).2)

/-! ### Output functions -/

/-- A loop of `__jacl_write_char` over characters already computed. -/
def writeChars (cs : List UInt8) (w : Counted) : Counted := cs.foldl (fun w c => putChar c w) w

/-- `while (s[slen] && slen < prec) slen++` -/
def strSpan (prec : Int) : List UInt8 → Nat → Nat
  | [], slen => slen
  | c :: s, slen => if c ≠ 0 ∧ (slen : Int) < prec then strSpan prec s (slen + 1) else slen

/-- `while (pos < slen) __jacl_write_char(stream, out, rem, len, str[pos++])`, over the characters from `pos` on.  The
macro evaluates `str[pos++]` only where it sends or stores the character: without room a turn counts, and `pos` stays
where it is. -/
def strLoop : Nat → List UInt8 → Counted → Option Counted
  | _, [], w => some w
  | 0, _ :: _, _ => none
  | fuel + 1, c :: str, w =>
    if w.2.takes then strLoop fuel str (putChar c w) else strLoop fuel (c :: str) (w.1 + 1, w.2)

/-- `__jacl_output_str`; a loop that ends makes `slen` turns. -/
def outputStr (k : Sink) (spec : Spec) (str : List UInt8) (prec width : Int) : Option Counted :=
  let prec := if prec < 0 then INT_MAX else prec
  let slen := strSpan prec str 0
  let pad := if width > slen then width - slen else 0
  (strLoop slen (str.take slen) (doIf (!spec.left) (writePad (asc ' ') pad) (0, k))).map
    (doIf spec.left (writePad (asc ' ') pad))

/-- `LD` and `UD` -/
def digitChar (upper : Bool) (d : Nat) : UInt8 :=
  if d < 10 then asc '0' + d.toUInt8 else (if upper then asc 'A' else asc 'a') + (d - 10).toUInt8

/-- The table `D100` of the two digits of the numbers below 100. -/
def D100 (i : Nat) : UInt8 := asc '0' + (if i % 2 = 0 then i / 2 / 10 else i / 2 % 10).toUInt8

/-- The decimal digits, two at a time, last digit first. -/
def decDigits (val : Nat) : List UInt8 :=
  if 100 ≤ val then D100 (val % 100 * 2 + 1) :: D100 (val % 100 * 2) :: decDigits (val / 100)
  else if 10 ≤ val then [D100 (val * 2 + 1), D100 (val * 2)]
  else [asc '0' + val.toUInt8]
termination_by val
decreasing_by omega

/-- The contents of `buf[0 .. pos)`: the digits, last one first, then zeros up to the precision.  For the bases 16, 8
and 2 the loop stores `val & mask` and shifts until nothing is left, which is `Nat.digits`. -/
def intBuf (spec : Spec) (val : Nat) (prec : Int) : List UInt8 :=
  let buf :=
    if prec = 0 ∧ val = 0 then []
    else if val = 0 then [asc '0']
    else if spec.base = 16 ∨ spec.base = 8 ∨ spec.base = 2 then (Nat.digits spec.base val).map (digitChar spec.upper)
    else decDigits val
  buf ++ List.replicate (min prec 64 - buf.length).toNat (asc '0')

/-- `__jacl_write_sign` -/
def writeSign (spec : Spec) (neg : Bool) (w : Counted) : Counted :=
  if neg then putChar (asc '-') w
  else if spec.plus then putChar (asc '+') w
  else if spec.spad then putChar (asc ' ') w
  else w

/-- `__jacl_output_int` -/
def outputInt (k : Sink) (spec : Spec) (val : BitVec 64) (prec width : Int) : Counted :=
  let neg := spec.sign && decide (val.toInt < 0)
  let sign := spec.sign && (neg || spec.plus || spec.spad)
  let val := (if neg then -val else val).toNat
  let prefx : Nat :=
    if spec.pref ∧ val ≠ 0 then
      if spec.base = 16 ∨ spec.base = 2 then 2 else if spec.base = 8 then 1 else 0
    else 0
  let buf := intBuf spec val prec
  let pos := buf.length
  let used : Int := pos + sign.toNat + prefx
  let pad := if width > used then width - used else 0
  if k.stream.isNone ∧ k.ptr.isNone then ((used + pad).toNat, k)
  else
    let zeros := spec.zpad && decide (prec < 0)
    let letter := if spec.upper then (if spec.base = 16 then asc 'X' else asc 'B')
      else (if spec.base = 16 then asc 'x' else asc 'b')
    doIf spec.left (writePad (asc ' ') pad)
      (writeChars buf.reverse
        (doIf (!spec.left && zeros) (writePad (asc '0') pad)
          (doIf (prefx == 2) (putChar letter)
            (doIf (prefx != 0) (putChar (asc '0'))
              (doIf sign (writeSign spec neg)
                (doIf (!spec.left && !zeros) (writePad (asc ' ') pad) (0, k)))))))

/-! ### The conversions and the loop -/

/-- `__jacl_printf_dec`, `__jacl_printf_oct`, `__jacl_printf_hex` -/
def printfBase (base : Nat) (k : Sink) (d : Directive) : Counted × VaList :=
  let (val, ap) := if d.spec.sign then getSigned d.spec d.ap else getUnsigned d.spec d.ap
  (outputInt k { d.spec with base := base } val d.prec d.width, ap)

/-- `__jacl_printf_char` -/
def printfChar (k : Sink) (d : Directive) : Counted × VaList :=
  let pad := if d.width > 1 then d.width - 1 else 0
  (doIf d.spec.left (writePad (asc ' ') pad)
    (putChar (UInt8.ofBitVec ((vaArg d.ap).1.setWidth 8))
      (doIf (!d.spec.left) (writePad (asc ' ') pad) (0, k))), (vaArg d.ap).2)

/-- `__jacl_printf_str`; `str` reads the string at an address. -/
def printfStr (str : Nat → CString) (k : Sink) (d : Directive) : Option (Counted × VaList) :=
  let p := (vaArg d.ap).1.toNat
  let s := if p = 0 then "(null)".toUTF8.toList else (str p).bytes
  (outputStr k d.spec s d.prec d.width).map fun w => (w, (vaArg d.ap).2)

/-- `__jacl_printf_ptr` -/
def printfPtr (k : Sink) (d : Directive) : Option (Counted × VaList) :=
  let p := (vaArg d.ap).1
  if p ≠ 0 then some (outputInt k { d.spec with base := 16, pref := true } p (-1) d.width, (vaArg d.ap).2)
  else (outputStr k d.spec "0x0".toUTF8.toList 3 d.width).map fun w => (w, (vaArg d.ap).2)

/-- The characters whose conversions are not modelled: `n`, the floating-point ones and, for C23, `b` and `B`. -/
def unmodelled (c : UInt8) : Bool :=
  c ∈ [asc 'n', asc 'f', asc 'F', asc 'e', asc 'E', asc 'g', asc 'G', asc 'a', asc 'A', asc 'b', asc 'B']

/-- The `switch (type)` of `__jacl_printf`: what the directive writes and counts, and the arguments left, where it
returns. -/
def printfConv (str : Nat → CString) (k : Sink) (d : Directive) : Option (Counted × VaList) :=
  if d.type = 0 ∨ unmodelled d.type then none
  else if d.type = asc 'c' then some (printfChar k d)
  else if d.type = asc 's' then printfStr str k d
  else if d.type = asc 'd' ∨ d.type = asc 'i' ∨ d.type = asc 'u' then some (printfBase 10 k d)
  else if d.type = asc 'o' then some (printfBase 8 k d)
  else if d.type = asc 'x' ∨ d.type = asc 'X' then some (printfBase 16 k d)
  else if d.type = asc 'p' then printfPtr k d
  else some (putChar d.type (putChar (asc '%') (0, k)), d.ap)

/-- The `while (*fmt)` loop of `__jacl_printf`. -/
def printfLoop (str : Nat → CString) : Nat → Counted → List UInt8 → VaList → Option Counted
  | 0, _, _, _ => none
  | _ + 1, w, [], _ => some w
  | fuel + 1, w, c :: fmt, ap =>
    if c ≠ asc '%' then printfLoop str fuel (putChar c w) fmt ap
    else if deref fmt = asc '%' then printfLoop str fuel (putChar (asc '%') w) fmt.tail ap
    else
      let d := specPrintf ap fmt
      match printfConv str w.2 d with
      | none => none
      | some ((len, k), ap) => printfLoop str fuel (w.1 + len, k) d.fmt.tail ap

/-- `__jacl_printf`: the returned `int` and the state of the sink. -/
def jaclPrintf (str : Nat → CString) (stream : Option (List UInt8)) (mem : Nat → UInt8) (out : Option Nat) (n : Nat)
    (fmt : List UInt8) (ap : VaList) : Option (Int × Sink) :=
  let k : Sink := ⟨stream, mem, out, if out.isSome ∧ n > 0 then n - 1 else 0⟩
  (printfLoop str (fmt.length + 1) (0, k) fmt ap).map fun w =>
    (wrapInt w.1,
      match out, w.2.ptr with
      | some _, some p => if n > 0 then { w.2 with mem := Function.update w.2.mem p 0 } else w.2
      | _, _ => w.2)

/-- `vsnprintf`: the returned `int` and the memory. -/
def vsnprintf (str : Nat → CString) (mem : Nat → UInt8) (s : Option Nat) (n : Nat) (fmt : CString) (ap : VaList) :
    Option (Int × (Nat → UInt8)) :=
  (jaclPrintf str none mem s n fmt.bytes ap).map fun r => (r.1, r.2.mem)

/-- `vfprintf`: the returned `int` and the characters given to `fputc`. -/
def vfprintf (str : Nat → CString) (mem : Nat → UInt8) (fmt : CString) (ap : VaList) : Option (Int × List UInt8) :=
  (jaclPrintf str (some []) mem none 0 fmt.bytes ap).map fun r => (r.1, r.2.stream.getD [])

/-- The conversion of an `int` to `size_t`. -/
def toSize (x : Int) : Nat := (x % 2 ^ 64).toNat

/-- `vasprintf`, with `malloc` as it answers the one request made.  The answer is the returned `int`, the pointer
stored in `*strp` when there is one, and the memory. -/
def vasprintf (str : Nat → CString) (mem : Nat → UInt8) (malloc : Nat → Option Nat) (fmt : CString) (ap : VaList) :
    Option (Int × Option Nat × (Nat → UInt8)) :=
  match vsnprintf str mem none 0 fmt ap with
  | none => none
  | some (len, mem) =>
    if len < 0 then some (-1, none, mem)
    else
      match malloc (toSize (wrapInt (len + 1))) with
      | none => some (-1, none, mem)
      | some p => (vsnprintf str mem (some p) (toSize (wrapInt (len + 1))) fmt ap).map fun r => (r.1, some p, r.2)

end JACLibc
