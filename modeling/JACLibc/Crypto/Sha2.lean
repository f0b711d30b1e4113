import JACLibc.Lib.Blocks
import JACLibc.Lib.Buffer
import JACLibc.Lib.Bytes
import Mathlib.Order.Bounds.Basic
import Mathlib.Tactic.Ring

/-!
# SHA-2

The two cores of `crypto/sha2.h` differ in the size of a block and in how they count the bits of the message: one
word, or two with a carry between them.  Everything else is the same code, `Core`, and a variant is a core with an
initial state and the number of bytes of its digest.  The compression function is a parameter, of the state and the
bytes of the block; the words of the state and the length are stored highest byte first.
-/

namespace JACLibc.Sha2

/-- The words of `state`. -/
abbrev words : Nat := 8

abbrev State (w : Nat) := Vector (BitVec w) words

/-- A core: `C` is the type of `bitlen`. -/
structure Core (w : Nat) (C : Type) where
  /-- The size of `buf`. -/
  block : Nat
  /-- The place of the length in the last block. -/
  last : Nat
  /-- The bits of a block. -/
  blockBits : BitVec 64
  zero : C
  /-- `ctx->bitlen += n`, with the carry. -/
  add : C → BitVec 64 → C
  /-- The bytes of `bitlen` as they are stored at `buf + last`. -/
  store : C → List UInt8
  /-- The transform, a function of the state and the block. -/
  transform : State w → List UInt8 → State w

structure Ctx {w : Nat} {C : Type} (core : Core w C) where
  state : State w
  bitlen : C
  buf : List UInt8
  len : Nat
  length_buf : buf.length = core.block

section Core

variable {w : Nat} {C : Type} {core : Core w C}

/-- `__jacl_sha2_init32`, `__jacl_sha2_init64`: the buffer keeps what it holds. -/
def init (ctx : Ctx core) (iv : State w) : Ctx core := { ctx with state := iv, bitlen := core.zero, len := 0 }

/-- The bytes `bs` stored at `ctx->buf + i`, one after another. -/
def Ctx.write (ctx : Ctx core) (i : Nat) (bs : List UInt8) : Ctx core :=
  { ctx with buf := Buffer.write ctx.buf i bs, length_buf := by rw [Buffer.length_write, ctx.length_buf] }

/-- `while (i < n) ctx->buf[i++] = 0;` -/
def Ctx.zeros (ctx : Ctx core) (i n : Nat) : Ctx core := ctx.write i (List.replicate (n - i) 0)

/-- The transform of the core on the buffer. -/
def transform (ctx : Ctx core) : Ctx core := { ctx with state := core.transform ctx.state ctx.buf }

/-- One turn of the loop of the update. -/
def turn (ctx : Ctx core) (b : UInt8) : Ctx core :=
  let ctx := { ctx.write ctx.len [b] with len := ctx.len + 1 }
  if ctx.len = core.block then
    let ctx := transform ctx
    { ctx with bitlen := core.add ctx.bitlen core.blockBits, len := 0 }
  else ctx

/-- `__jacl_sha2_update32`, `__jacl_sha2_update64` -/
def update (ctx : Ctx core) (data : List UInt8) : Ctx core := data.foldl turn ctx

/-- The padding up to the length. -/
def pad (ctx : Ctx core) : Ctx core :=
  let i := ctx.len
  let ctx := ctx.write i [0x80]
  let i := i + 1
  if i > core.last then
    let ctx := transform (ctx.zeros i core.block)
    ctx.zeros 0 core.last
  else ctx.zeros i core.last

/-- `ctx->bitlen += ctx->len * 8;` -/
def Ctx.addTail (ctx : Ctx core) : Ctx core :=
  { ctx with bitlen := core.add ctx.bitlen (BitVec.ofNat 64 (ctx.len * 8)) }

/-- The words of the state, each highest byte first. -/
def stateBytes (s : State w) : List UInt8 := s.toList.flatMap fun x => Bytes.be (w / 8) x.toNat

/-- `__jacl_sha2_final32`, `__jacl_sha2_final64`: the bytes of `out`. -/
def final (ctx : Ctx core) : List UInt8 :=
  let ctx := (pad ctx).addTail
  let ctx := transform (ctx.write core.last (core.store ctx.bitlen))
  stateBytes ctx.state

end Core

/-! ### The compression functions -/

/-- What the two transforms differ in: the round constants and the functions `s0`, `s1`, `S0`, `S1`. -/
structure Rounds (w : Nat) where
  k : List (BitVec w)
  s0 : BitVec w → BitVec w
  s1 : BitVec w → BitVec w
  S0 : BitVec w → BitVec w
  S1 : BitVec w → BitVec w

section Rounds

variable {w : Nat} (rounds : Rounds w)

/-- `__jacl_load32_be`, `__jacl_load64_be` -/
def loadBe (bs : List UInt8) : BitVec w := bs.foldl (fun x b => x <<< 8 ||| BitVec.ofNat w b.toNat) 0

/-- The message schedule: sixteen words of the block, and one after another from the words before it. -/
def schedule (buf : List UInt8) : List (BitVec w) :=
  let words := (List.range 16).map fun i => loadBe ((buf.drop (i * (w / 8))).take (w / 8))
  (List.range (rounds.k.length - 16)).foldl
    (fun ws _ =>
      let i := ws.length
      ws ++ [ws.getD (i - 16) 0 + rounds.s0 (ws.getD (i - 15) 0) + ws.getD (i - 7) 0 + rounds.s1 (ws.getD (i - 2) 0)])
    words

def round (s : State w) (kw : BitVec w × BitVec w) : State w :=
  let ch := (s[4] &&& s[5]) ^^^ (~~~s[4] &&& s[6])
  let temp1 := s[7] + rounds.S1 s[4] + ch + kw.1 + kw.2
  let maj := (s[0] &&& s[1]) ^^^ (s[0] &&& s[2]) ^^^ (s[1] &&& s[2])
  let temp2 := rounds.S0 s[0] + maj
  #v[temp1 + temp2, s[0], s[1], s[2], s[3] + temp1, s[4], s[5], s[6]]

def compress (state : State w) (buf : List UInt8) : State w :=
  Vector.zipWith (· + ·) state ((rounds.k.zip (schedule rounds buf)).foldl (round rounds) state)

end Rounds

def K256 : List (BitVec 32) := [
  0x428a2f98, 0x71374491, 0xb5c0fbcf, 0xe9b5dba5, 0x3956c25b, 0x59f111f1, 0x923f82a4, 0xab1c5ed5,
  0xd807aa98, 0x12835b01, 0x243185be, 0x550c7dc3, 0x72be5d74, 0x80deb1fe, 0x9bdc06a7, 0xc19bf174,
  0xe49b69c1, 0xefbe4786, 0x0fc19dc6, 0x240ca1cc, 0x2de92c6f, 0x4a7484aa, 0x5cb0a9dc, 0x76f988da,
  0x983e5152, 0xa831c66d, 0xb00327c8, 0xbf597fc7, 0xc6e00bf3, 0xd5a79147, 0x06ca6351, 0x14292967,
  0x27b70a85, 0x2e1b2138, 0x4d2c6dfc, 0x53380d13, 0x650a7354, 0x766a0abb, 0x81c2c92e, 0x92722c85,
  0xa2bfe8a1, 0xa81a664b, 0xc24b8b70, 0xc76c51a3, 0xd192e819, 0xd6990624, 0xf40e3585, 0x106aa070,
  0x19a4c116, 0x1e376c08, 0x2748774c, 0x34b0bcb5, 0x391c0cb3, 0x4ed8aa4a, 0x5b9cca4f, 0x682e6ff3,
  0x748f82ee, 0x78a5636f, 0x84c87814, 0x8cc70208, 0x90befffa, 0xa4506ceb, 0xbef9a3f7, 0xc67178f2]

def K512 : List (BitVec 64) := [
  0x428a2f98d728ae22, 0x7137449123ef65cd, 0xb5c0fbcfec4d3b2f, 0xe9b5dba58189dbbc,
  0x3956c25bf348b538, 0x59f111f1b605d019, 0x923f82a4af194f9b, 0xab1c5ed5da6d8118,
  0xd807aa98a3030242, 0x12835b0145706fbe, 0x243185be4ee4b28c, 0x550c7dc3d5ffb4e2,
  0x72be5d74f27b896f, 0x80deb1fe3b1696b1, 0x9bdc06a725c71235, 0xc19bf174cf692694,
  0xe49b69c19ef14ad2, 0xefbe4786384f25e3, 0x0fc19dc68b8cd5b5, 0x240ca1cc77ac9c65,
  0x2de92c6f592b0275, 0x4a7484aa6ea6e483, 0x5cb0a9dcbd41fbd4, 0x76f988da831153b5,
  0x983e5152ee66dfab, 0xa831c66d2db43210, 0xb00327c898fb213f, 0xbf597fc7beef0ee4,
  0xc6e00bf33da88fc2, 0xd5a79147930aa725, 0x06ca6351e003826f, 0x142929670a0e6e70,
  0x27b70a8546d22ffc, 0x2e1b21385c26c926, 0x4d2c6dfc5ac42aed, 0x53380d139d95b3df,
  0x650a73548baf63de, 0x766a0abb3c77b2a8, 0x81c2c92e47edaee6, 0x92722c851482353b,
  0xa2bfe8a14cf10364, 0xa81a664bbc423001, 0xc24b8b70d0f89791, 0xc76c51a30654be30,
  0xd192e819d6ef5218, 0xd69906245565a910, 0xf40e35855771202a, 0x106aa07032bbd1b8,
  0x19a4c116b8d2d0c8, 0x1e376c085141ab53, 0x2748774cdf8eeb99, 0x34b0bcb5e19b48a8,
  0x391c0cb3c5c95a63, 0x4ed8aa4ae3418acb, 0x5b9cca4f7763e373, 0x682e6ff3d6b2b8a3,
  0x748f82ee5defb2fc, 0x78a5636f43172f60, 0x84c87814a1f0ab72, 0x8cc702081a6439ec,
  0x90befffa23631e28, 0xa4506cebde82bde9, 0xbef9a3f7b2c67915, 0xc67178f2e372532b,
  0xca273eceea26619c, 0xd186b8c721c0c207, 0xeada7dd6cde0eb1e, 0xf57d4f7fee6ed178,
  0x06f067aa72176fba, 0x0a637dc5a2c898a6, 0x113f9804bef90dae, 0x1b710b35131c471b,
  0x28db77f523047d84, 0x32caab7b40c72493, 0x3c9ebe0a15c9bebc, 0x431d67c49c100d4c,
  0x4cc5d4becb3e42b6, 0x597f299cfc657e2a, 0x5fcb6fab3ad6faec, 0x6c44198c4a475817]

/-- `__jacl_sha2_transform32` -/
def transform32 : State 32 → List UInt8 → State 32 :=
  compress
    { k := K256
      s0 := fun x => x.rotateLeft 25 ^^^ x.rotateLeft 14 ^^^ x >>> 3
      s1 := fun x => x.rotateLeft 15 ^^^ x.rotateLeft 13 ^^^ x >>> 10
      S0 := fun x => x.rotateLeft 30 ^^^ x.rotateLeft 19 ^^^ x.rotateLeft 10
      S1 := fun x => x.rotateLeft 26 ^^^ x.rotateLeft 21 ^^^ x.rotateLeft 7 }

/-- `__jacl_sha2_transform64` -/
def transform64 : State 64 → List UInt8 → State 64 :=
  compress
    { k := K512
      s0 := fun x => x.rotateLeft 63 ^^^ x.rotateLeft 56 ^^^ x >>> 7
      s1 := fun x => x.rotateLeft 45 ^^^ x.rotateLeft 3 ^^^ x >>> 6
      S0 := fun x => x.rotateLeft 36 ^^^ x.rotateLeft 30 ^^^ x.rotateLeft 25
      S1 := fun x => x.rotateLeft 50 ^^^ x.rotateLeft 46 ^^^ x.rotateLeft 23 }

/-- The core of SHA-224 and SHA-256. -/
def core32 (transform32 : State 32 → List UInt8 → State 32) : Core 32 (BitVec 64) where
  block := 64
  last := 56
  blockBits := 512
  zero := 0
  add bitlen n := bitlen + n
  store bitlen := Bytes.be 8 bitlen.toNat
  transform := transform32

/-- The core of the others; `bitlen` is `bitlen[0]` and `bitlen[1]`. -/
def core64 (transform64 : State 64 → List UInt8 → State 64) : Core 64 (BitVec 64 × BitVec 64) where
  block := 128
  last := 112
  blockBits := 1024
  zero := (0, 0)
  add bitlen n := (bitlen.1 + n, if bitlen.1 + n < n then bitlen.2 + 1 else bitlen.2)
  store bitlen := Bytes.be 8 bitlen.2.toNat ++ Bytes.be 8 bitlen.1.toNat
  transform := transform64

/-! ### Variants -/

/-- What the macros `__jacl_sha2_make32` and `__jacl_sha2_make64` are given. -/
structure Variant (w : Nat) where
  digestBytes : Nat
  iv : State w

namespace Variant

variable {w : Nat} {C : Type} {core : Core w C} (v : Variant w)

/-- `NAME_init` -/
def init (ctx : Ctx core) : Ctx core := Sha2.init ctx v.iv

/-- `NAME_final` -/
def final (ctx : Ctx core) : List UInt8 := (Sha2.final ctx).take v.digestBytes

/-- `NAME`, with the context it has on the stack. -/
def digest (ctx : Ctx core) (data : List UInt8) : List UInt8 := v.final (update (v.init ctx) data)

end Variant

def sha224 : Variant 32 where
  digestBytes := 28
  iv := #v[0xc1059ed8, 0x367cd507, 0x3070dd17, 0xf70e5939, 0xffc00b31, 0x68581511, 0x64f98fa7, 0xbefa4fa4]

def sha256 : Variant 32 where
  digestBytes := 32
  iv := ⟨#[0x6a09e667, 0xbb67ae85, 0x3c6ef372, 0xa54ff53a, 0x510e527f, 0x9b05688c, 0x1f83d9ab, 0x5be0cd19], by decide⟩

def sha384 : Variant 64 where
  digestBytes := 48
  iv := #v[0xcbbb9d5dc1059ed8, 0x629a292a367cd507, 0x9159015a3070dd17, 0x152fecd8f70e5939, 0x67332667ffc00b31,
    0x8eb44a8768581511, 0xdb0c2e0d64f98fa7, 0x47b5481dbefa4fa4]

def sha512 : Variant 64 where
  digestBytes := 64
  iv := ⟨#[0x6a09e667f3bcc908, 0xbb67ae8584caa73b, 0x3c6ef372fe94f82b, 0xa54ff53a5f1d36f1, 0x510e527fade682d1,
    0x9b05688c2b3e6c1f, 0x1f83d9abfb41bd6b, 0x5be0cd19137e2179], by decide⟩

def sha512_224 : Variant 64 where
  digestBytes := 28
  iv := #v[0x8c3d37c819544da2, 0x73e1996689dcd4d6, 0x1dfab7ae32ff9c82, 0x679dd514582f9fcf, 0x0f6d2b697bd44da8,
    0x77e36f7304c48942, 0x3f9d85a86a1d36c8, 0x1112e6ad91d692a1]

def sha512_256 : Variant 64 where
  digestBytes := 32
  iv := #v[0x22312194fc2bf72c, 0x9f555fa3c84c64c2, 0x2393b86b6f53b151, 0x963877195940eabd, 0x96283ee2a88effe3,
    0xbe5e1e2553863992, 0x2b0199fc2c85b8aa, 0x0eb72ddc81c52ca2]

end JACLibc.Sha2
