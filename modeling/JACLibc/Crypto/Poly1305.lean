import JACLibc.Lib.Buffer
import JACLibc.Lib.Bytes

/-!
# Poly1305

`crypto/poly1305.h` with the load it takes from `crypto/base.h`: the accumulator and the key are five words, blocks of
sixteen bytes are collected in `buf`.  Words and double words are bit vectors, so that every operation wraps as the
code's does.
-/

namespace JACLibc.Poly1305

/-- `__jacl_load32_le(p + i)` -/
def load32Le (p : List UInt8) (i : Nat) : BitVec 32 :=
  BitVec.ofNat 32 (p.getD (i + 3) 0).toNat <<< 24 ||| BitVec.ofNat 32 (p.getD (i + 2) 0).toNat <<< 16 |||
    BitVec.ofNat 32 (p.getD (i + 1) 0).toNat <<< 8 ||| BitVec.ofNat 32 (p.getD i 0).toNat

/-- A key of `POLY1305_KEY_SIZE` bytes. -/
abbrev Key := { key : List UInt8 // key.length = 32 }

abbrev Limbs := Vector (BitVec 32) 5

/-- The words of the pad. -/
abbrev padWords : Nat := 4

structure Ctx where
  r : Limbs
  h : Limbs
  pad : Vector (BitVec 32) padWords
  buf : List UInt8
  len : Nat
  length_buf : buf.length = 16
  len_lt : len < 16

/-- A word as a double word. -/
def wide (x : BitVec 32) : BitVec 64 := x.setWidth 64

/-- A double word as a word. -/
def narrow (x : BitVec 64) : BitVec 32 := x.setWidth 32

/-- The limbs of a block, added to the accumulator. -/
def addBlock (h : Limbs) (m : List UInt8) : Limbs :=
  let t0 := load32Le m 0
  let t1 := load32Le m 4
  let t2 := load32Le m 8
  let t3 := load32Le m 12
  #v[h[0] + (t0 &&& 0x3ffffff#32), h[1] + ((t0 >>> 26 ||| t1 <<< 6) &&& 0x3ffffff#32),
    h[2] + ((t1 >>> 20 ||| t2 <<< 12) &&& 0x3ffffff#32), h[3] + ((t2 >>> 14 ||| t3 <<< 18) &&& 0x3ffffff#32),
    h[4] + (t3 >>> 8 ||| 0x01000000#32)]

/-- The products `d[0]` to `d[4]`. -/
def products (h r : Limbs) : Vector (BitVec 64) 5 :=
  let h0 := wide h[0]
  let h1 := wide h[1]
  let h2 := wide h[2]
  let h3 := wide h[3]
  let h4 := wide h[4]
  let r0 := wide r[0]
  let r1 := wide r[1]
  let r2 := wide r[2]
  let r3 := wide r[3]
  let r4 := wide r[4]
  let r1_5 := r1 * 5
  let r2_5 := r2 * 5
  let r3_5 := r3 * 5
  let r4_5 := r4 * 5
  #v[h0 * r0 + h1 * r4_5 + h2 * r3_5 + h3 * r2_5 + h4 * r1_5, h0 * r1 + h1 * r0 + h2 * r4_5 + h3 * r3_5 + h4 * r2_5,
    h0 * r2 + h1 * r1 + h2 * r0 + h3 * r4_5 + h4 * r3_5, h0 * r3 + h1 * r2 + h2 * r1 + h3 * r0 + h4 * r4_5,
    h0 * r4 + h1 * r3 + h2 * r2 + h3 * r1 + h4 * r0]

/-- The carries of a block; `c` is a word. -/
def carryBlock (d : Vector (BitVec 64) 5) : Limbs :=
  let c := narrow (d[0] >>> 26)
  let h0 := narrow d[0] &&& 0x3ffffff#32
  let d1 := d[1] + wide c
  let c := narrow (d1 >>> 26)
  let h1 := narrow d1 &&& 0x3ffffff#32
  let d2 := d[2] + wide c
  let c := narrow (d2 >>> 26)
  let h2 := narrow d2 &&& 0x3ffffff#32
  let d3 := d[3] + wide c
  let c := narrow (d3 >>> 26)
  let h3 := narrow d3 &&& 0x3ffffff#32
  let d4 := d[4] + wide c
  let c := narrow (d4 >>> 26)
  let h4 := narrow d4 &&& 0x3ffffff#32
  let h0 := h0 + c * 5
  let c := h0 >>> 26
  #v[h0 &&& 0x3ffffff#32, h1 + c, h2, h3, h4]

/-- `__jacl_poly1305_block` with the key `r`: the accumulator after the block. -/
def block (r h : Limbs) (m : List UInt8) : Limbs := carryBlock (products (addBlock h m) r)

/-- `poly1305_init` -/
def init (key : Key) : Ctx where
  r :=
    let t0 := load32Le key.1 0
    let t1 := load32Le key.1 4
    let t2 := load32Le key.1 8
    let t3 := load32Le key.1 12
    #v[t0 &&& 0x0fffffff#32, (t0 >>> 28 ||| t1 <<< 4) &&& 0x0ffffffc#32, (t1 >>> 24 ||| t2 <<< 8) &&& 0x0ffffffc#32,
      (t2 >>> 20 ||| t3 <<< 12) &&& 0x0ffffffc#32, t3 >>> 16 &&& 0x0ffffffc#32]
  h := #v[0, 0, 0, 0, 0]
  pad := #v[load32Le key.1 16, load32Le key.1 20, load32Le key.1 24, load32Le key.1 28]
  buf := List.replicate 16 0
  len := 0
  length_buf := rfl
  len_lt := by decide

/-- `memcpy(ctx->buf + ctx->len, data, take)` -/
def Ctx.fill (ctx : Ctx) (chunk : List UInt8) : Ctx :=
  { ctx with buf := Buffer.write ctx.buf ctx.len chunk, length_buf := by rw [Buffer.length_write, ctx.length_buf] }

/-- A turn of the loop of `poly1305_update`, which takes the bytes `chunk`. -/
def turn (ctx : Ctx) (chunk : List UInt8) : Ctx :=
  let ctx' := ctx.fill chunk
  if h : ctx.len + chunk.length < 16 then { ctx' with len := ctx.len + chunk.length, len_lt := h }
  else { ctx' with h := block ctx.r ctx.h ctx'.buf, len := 0, len_lt := by decide }

def updateLoop : Nat → Ctx → List UInt8 → Ctx
  | 0, ctx, _ => ctx
  | fuel + 1, ctx, data =>
    if data = [] then ctx else updateLoop fuel (turn ctx (data.take (16 - ctx.len))) (data.drop (16 - ctx.len))

/-- `poly1305_update`; every turn takes a byte. -/
def update (ctx : Ctx) (data : List UInt8) : Ctx := updateLoop data.length ctx data

/-- The rest in the buffer with a one behind it, as a block. -/
def lastBlock (ctx : Ctx) : Limbs :=
  if ctx.len ≠ 0 then
    let buf := Buffer.write ctx.buf ctx.len [1]
    let buf := Buffer.write buf (ctx.len + 1) (List.replicate (16 - (ctx.len + 1)) 0)
    block ctx.r ctx.h buf
  else ctx.h

/-- "Fully carry h" -/
def carryFinal (h : Limbs) : Limbs :=
  let c := h[1] >>> 26
  let h1 := h[1] &&& 0x3ffffff#32
  let h2 := h[2] + c
  let c := h2 >>> 26
  let h2 := h2 &&& 0x3ffffff#32
  let h3 := h[3] + c
  let c := h3 >>> 26
  let h3 := h3 &&& 0x3ffffff#32
  let h4 := h[4] + c
  let c := h4 >>> 26
  let h4 := h4 &&& 0x3ffffff#32
  let h0 := h[0] + c * 5
  let c := h0 >>> 26
  #v[h0 &&& 0x3ffffff#32, h1 + c, h2, h3, h4]

/-- `h + 5`, whose last limb is not masked. -/
def plusFive (h : Limbs) : Limbs :=
  let g0 := h[0] + 5
  let g1 := h[1] + g0 >>> 26
  let g2 := h[2] + g1 >>> 26
  let g3 := h[3] + g2 >>> 26
  let g4 := h[4] + g3 >>> 26
  #v[g0 &&& 0x3ffffff#32, g1 &&& 0x3ffffff#32, g2 &&& 0x3ffffff#32, g3 &&& 0x3ffffff#32, g4]

/-- The selection between `h` and `h + 5`. -/
def select (h g : Limbs) : Limbs :=
  let mask := g[4] >>> 2 - 1
  Vector.zipWith (fun x y => x &&& ~~~mask ||| y &&& mask) h g

/-- The low half of the tag before the pad is added. -/
def lowHalf (h : Limbs) : BitVec 64 := wide h[0] ||| wide h[1] <<< 26

def highHalf (h : Limbs) : BitVec 64 := wide h[2] ||| wide h[3] <<< 26 ||| wide h[4] <<< 52

/-- The pad added to the halves, and the bytes of the tag. -/
def tagBytes (h : Limbs) (pad : Vector (BitVec 32) padWords) : List UInt8 :=
  let f0 := lowHalf h + (wide pad[0] + wide pad[1] <<< 32)
  let f1 := highHalf h + (wide pad[2] + wide pad[3] <<< 32)
  Bytes.le 4 (narrow f0).toNat ++ Bytes.le 4 (narrow (f0 >>> 32)).toNat ++ Bytes.le 4 (narrow f1).toNat ++
    Bytes.le 4 (narrow (f1 >>> 32)).toNat

/-- `poly1305_final`: the sixteen bytes of the tag. -/
def final (ctx : Ctx) : List UInt8 :=
  let h := carryFinal (lastBlock ctx)
  tagBytes (select h (plusFive h)) ctx.pad

/-- `poly1305` -/
def poly1305 (key : Key) (data : List UInt8) : List UInt8 := final (update (init key) data)

/-- The calls `poly1305_init`, `poly1305_update` on each piece in turn, `poly1305_final`. -/
def mac (key : Key) (pieces : List (List UInt8)) : List UInt8 := final (pieces.foldl update (init key))

end JACLibc.Poly1305
