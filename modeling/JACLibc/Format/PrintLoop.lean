import JACLibc.Format.ScanLoop

/-!
# `__jacl_printf`, with every read of the format checked

The conversions are a parameter: they are given what `__jacl_spec_printf` made of the directive, and print and take
arguments as they like, or never come back, as `%s` does where there is no room.
-/

namespace JACLibc.Print

open Scan (Fault peek)

/-- The loop over the flags at the start of `__jacl_spec_printf`. -/
def specFlags : Spec → List UInt8 → Except Fault (Spec × List UInt8)
  | _, [] => .error .overread
  | spec, c :: fmt =>
    if c = asc '-' then specFlags { spec with left := true } fmt
    else if c = asc '+' then specFlags { spec with plus := true } fmt
    else if c = asc ' ' then specFlags { spec with spad := true } fmt
    else if c = asc '#' then specFlags { spec with pref := true } fmt
    else if c = asc '0' then specFlags { spec with zpad := true } fmt
    else if c = asc '\'' then specFlags { spec with ksep := true } fmt
    else .ok (spec, c :: fmt)

/-- `__jacl_spec_value` -/
def specValue (fmt : List UInt8) (ap : VaList) : Except Fault (Int × List UInt8 × VaList) := do
  let c ← peek fmt
  if c = asc '*' then return ((vaInt ap).1, fmt.tail, (vaInt ap).2)
  else
    let val ← Scan.readDecimal 0 fmt
    return (val.1, val.2, ap)

/-- `__jacl_spec_printf` -/
def specPrintf (ap : VaList) (fmt : List UInt8) : Except Fault Directive := do
  let flags ← specFlags .zero fmt
  let width ← specValue flags.2 ap
  let spec := if width.1 < 0 then { flags.1 with left := true } else flags.1
  let c ← peek width.2.1
  let prec ← if c = asc '.' then specValue width.2.1.tail width.2.2 else .ok (-1, width.2.1, width.2.2)
  let length ← Scan.specLength prec.2.1
  let type ← peek length.2
  let upper := asc 'A' ≤ type ∧ type ≤ asc 'Z'
  let sign := type = asc 'd' ∨ type = asc 'i'
  return ⟨{ spec with length := length.1, upper := upper, sign := sign }, prec.1,
    if width.1 < 0 then wrapInt (-width.1) else width.1, length.2, prec.2.2⟩

end JACLibc.Print
