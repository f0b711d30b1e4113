import JACLibc.Lib.Bytes
import JACLibc.CString

/-!
# Character set conversion

`iconv` of `iconv.h` reads one code point after another and writes each in the other encoding, up to the end of the
input or of the output. The decoder of UTF-8 keeps how many bytes of a character are still to come in the handle, but
the bits it has read so far are a local of `iconv`.  The arguments are not NULL; an input pointer is the list of the
bytes that are left, and an output pointer what was written.
-/

namespace JACLibc.Iconv

/-- The encodings, by their numbers in `struct iconv_t`. -/
inductive Enc
  | ascii | utf8 | utf16le | utf32le
  deriving DecidableEq

/-- The error numbers of `iconv`. -/
inductive Err
  | E2BIG | EILSEQ
  deriving DecidableEq

/-! ### Code points -/

/-- What `__iconv_codepoint_from` answers and leaves in `*in`, `*cp` and `*state`. -/
structure From where
  r : Int
  inp : List UInt8
  cp : Nat
  state : Nat
  deriving DecidableEq

def fromUtf8 (inp : List UInt8) (cp state : Nat) : From :=
  match inp with
  | [] => ⟨0, inp, cp, state⟩
  | b :: rest =>
    if state ≠ 0 then
      if b &&& 0xC0 ≠ 0x80 then ⟨-1, inp, cp, 0⟩
      else ⟨if state - 1 = 0 then 1 else 0, rest, (cp <<< 6) % 2 ^ 32 ||| (b &&& 0x3F).toNat, state - 1⟩
    else if b ≤ 0x7F then ⟨1, rest, b.toNat, state⟩
    else if b &&& 0xE0 = 0xC0 then ⟨0, rest, (b &&& 0x1F).toNat, 1⟩
    else if b &&& 0xF0 = 0xE0 then ⟨0, rest, (b &&& 0x0F).toNat, 2⟩
    else if b &&& 0xF8 = 0xF0 then ⟨0, rest, (b &&& 0x07).toNat, 3⟩
    else ⟨-1, inp, cp, state⟩

/-- `(unsigned char)in[0] | ((unsigned char)in[1] << 8)` -/
def unit (b0 b1 : UInt8) : Nat := b0.toNat ||| b1.toNat <<< 8

def fromUtf16le (inp : List UInt8) (cp state : Nat) : From :=
  match inp with
  | b0 :: b1 :: rest =>
    let u := unit b0 b1
    if u ≥ 0xD800 ∧ u ≤ 0xDBFF then
      match rest with
      | b2 :: b3 :: rest =>
        let l := unit b2 b3
        if l < 0xDC00 ∨ l > 0xDFFF then ⟨-1, inp, cp, state⟩
        else ⟨1, rest, 0x10000 + ((u - 0xD800) <<< 10) + (l - 0xDC00), state⟩
      | _ => ⟨0, inp, cp, state⟩
    else if u ≥ 0xDC00 ∧ u ≤ 0xDFFF then ⟨-1, inp, cp, state⟩
    else ⟨1, rest, u, state⟩
  | _ => ⟨0, inp, cp, state⟩

def fromUtf32le (inp : List UInt8) (cp state : Nat) : From :=
  match inp with
  | b0 :: b1 :: b2 :: b3 :: rest => ⟨1, rest, unit b0 b1 ||| b2.toNat <<< 16 ||| b3.toNat <<< 24, state⟩
  | _ => ⟨0, inp, cp, state⟩

/-- `__iconv_codepoint_from` -/
def codepointFrom (enc : Enc) (inp : List UInt8) (cp state : Nat) : From :=
  match inp with
  | [] => ⟨0, [], cp, state⟩
  | b :: rest =>
    match enc with
    | .ascii => ⟨1, rest, b.toNat, state⟩
    | .utf8 => fromUtf8 (b :: rest) cp state
    | .utf16le => fromUtf16le (b :: rest) cp state
    | .utf32le => fromUtf32le (b :: rest) cp state

/-- What `__iconv_codepoint_to` answers, and the bytes that it stores. -/
structure To where
  r : Int
  bytes : List UInt8
  deriving DecidableEq

/-- `if (*outlen < need) return 0;`, else the bytes are stored. -/
def To.fit (outlen : Nat) (bytes : List UInt8) : To := if outlen < bytes.length then ⟨0, []⟩ else ⟨1, bytes⟩

/-- `__iconv_codepoint_to` -/
def codepointTo (enc : Enc) (outlen : Nat) (cp : Nat) : To :=
  match enc with
  | .ascii => To.fit outlen [cp.toUInt8]
  | .utf8 =>
    if cp ≤ 0x7F then To.fit outlen [cp.toUInt8]
    else if cp ≤ 0x7FF then To.fit outlen [(0xC0 ||| cp >>> 6).toUInt8, (0x80 ||| (cp &&& 0x3F)).toUInt8]
    else if cp ≤ 0xFFFF then
      To.fit outlen [(0xE0 ||| cp >>> 12).toUInt8, (0x80 ||| (cp >>> 6 &&& 0x3F)).toUInt8,
        (0x80 ||| (cp &&& 0x3F)).toUInt8]
    else if cp ≤ 0x10FFFF then
      To.fit outlen [(0xF0 ||| cp >>> 18).toUInt8, (0x80 ||| (cp >>> 12 &&& 0x3F)).toUInt8,
        (0x80 ||| (cp >>> 6 &&& 0x3F)).toUInt8, (0x80 ||| (cp &&& 0x3F)).toUInt8]
    else ⟨-1, []⟩
  | .utf16le =>
    if cp ≥ 0x10000 ∧ cp ≤ 0x10FFFF then
      let c := cp - 0x10000
      let hi := 0xD800 ||| c >>> 10
      let lo := 0xDC00 ||| (c &&& 0x3FF)
      To.fit outlen [(hi &&& 0xFF).toUInt8, (hi >>> 8).toUInt8, (lo &&& 0xFF).toUInt8, (lo >>> 8).toUInt8]
    else if cp > 0xFFFF then ⟨-1, []⟩
    else To.fit outlen [(cp &&& 0xFF).toUInt8, (cp >>> 8).toUInt8]
  | .utf32le => To.fit outlen [(cp &&& 0xFF).toUInt8, (cp >>> 8 &&& 0xFF).toUInt8, (cp >>> 16 &&& 0xFF).toUInt8,
    (cp >>> 24 &&& 0xFF).toUInt8]

/-! ### Calls -/

/-- `struct iconv_t` -/
structure Handle where
  fromEnc : Enc
  toEnc : Enc
  state : Nat

/-- What the loop of `iconv` works on: the input that is left, the room that is left, what was written, and its
locals; the state is that of the handle. -/
structure Conv where
  inp : List UInt8
  room : Nat
  out : List UInt8
  cp : Nat
  state : Nat
  converted : Nat
  deriving DecidableEq

/-- The end of a call: the answer, which is nothing for `(size_t)-1`, the error number if one was set, and what the
call leaves. -/
structure Answer where
  ret : Option Nat
  err : Option Err
  conv : Conv
  deriving DecidableEq

/-- The second half of the loop, in which the code point is written or the call ends. -/
def putCodepoint (enc : Enc) (c : Conv) : Except Answer Conv :=
  let t := codepointTo enc c.room c.cp
  if t.r = 0 then .error ⟨some c.converted, some .E2BIG, c⟩
  else if t.r < 0 then .error ⟨none, some .EILSEQ, c⟩
  else .ok { c with room := c.room - t.bytes.length, out := c.out ++ t.bytes, converted := c.converted + 1 }

/-- The loop of `iconv`, which does not end where an incomplete character is all that is left of UTF-16 or UTF-32. -/
def iconvLoop (src dst : Enc) : Nat → Conv → Option Answer
  | 0, _ => none
  | fuel + 1, c =>
    if c.inp = [] then some ⟨some c.converted, none, c⟩
    else
      let f := codepointFrom src c.inp c.cp c.state
      let c := { c with inp := f.inp, cp := f.cp, state := f.state }
      if f.r = 0 then iconvLoop src dst fuel c
      else if f.r < 0 then some ⟨none, some .EILSEQ, c⟩
      else
        match putCodepoint dst c with
        | .error a => some a
        | .ok c => iconvLoop src dst fuel c

/-- `iconv` -/
def iconv (fuel : Nat) (h : Handle) (inp : List UInt8) (room : Nat) : Option Answer :=
  iconvLoop h.fromEnc h.toEnc fuel ⟨inp, room, [], 0, h.state, 0⟩

/-- One call after another with the same handle, each for so many bytes of what is left of the input and with so much
room: the output of them all, and what is left. -/
def iconvCalls (fuel : Nat) : Handle → List UInt8 → List (Nat × Nat) → Option (List UInt8 × List UInt8)
  | _, rest, [] => some ([], rest)
  | h, rest, (n, room) :: calls =>
    (iconv fuel h (rest.take n) room).bind fun a =>
      (iconvCalls fuel { h with state := a.conv.state } (a.conv.inp ++ rest.drop n) calls).map fun r =>
        (a.conv.out ++ r.1, r.2)

end JACLibc.Iconv
