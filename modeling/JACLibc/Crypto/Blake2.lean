import JACLibc.Lib.Buffer

/-!
# BLAKE2

`crypto/blake2.h` has the same code twice, for words of 64 bits (BLAKE2b) and of 32 bits (BLAKE2s); `Variant` has what
the two differ in.  The compression function is a parameter, of the state, the counter, the flags and the bytes of the
block, and a context keeps a list of the compressions it has made.
-/

namespace JACLibc.Blake2

/-- The eight words of `h`. -/
abbrev State (w : Nat) := Vector (BitVec w) 8

/-- A pair of words, `t` or `f`. -/
abbrev Pair (w : Nat) := BitVec w × BitVec w

structure Variant (w : Nat) where
  /-- `BLAKE2B_BLOCKBYTES`, `BLAKE2S_BLOCKBYTES` -/
  block : Nat
  block_pos : 0 < block
  /-- `BLAKE2B_OUTBYTES`, `BLAKE2S_OUTBYTES` -/
  outBytes : Nat
  /-- `BLAKE2B_KEYBYTES`, `BLAKE2S_KEYBYTES` -/
  keyBytes : Nat
  key_fits : keyBytes ≤ block
  iv : State w
  /-- The compression, a function of `h`, `t`, `f` and the block. -/
  compress : State w → Pair w → Pair w → List UInt8 → State w

/-- What a call of the compression function is given besides `h`. -/
structure Call (w : Nat) where
  t : Pair w
  f : Pair w
  block : List UInt8
  deriving DecidableEq

/-- `blake2b_ctx`, `blake2s_ctx`; `calls` are the compressions since the init, oldest first. -/
structure Ctx {w : Nat} (v : Variant w) where
  h : State w
  t : Pair w
  f : Pair w
  buf : List UInt8
  buflen : Nat
  outlen : Nat
  length_buf : buf.length = v.block
  calls : List (Call w)

section Streaming

variable {w : Nat} {v : Variant w}

/-- `memcpy(ctx->buf + i, bs, ..)` -/
def Ctx.write (ctx : Ctx v) (i : Nat) (bs : List UInt8) : Ctx v :=
  { ctx with buf := Buffer.write ctx.buf i bs, length_buf := by rw [Buffer.length_write, ctx.length_buf] }

/-- `ctx->t[0] += n; if (ctx->t[0] < n) ctx->t[1]++;` -/
def Ctx.count (ctx : Ctx v) (n : Nat) : Ctx v :=
  let t0 := ctx.t.1 + BitVec.ofNat w n
  { ctx with t := (t0, if t0.toNat < n then ctx.t.2 + 1 else ctx.t.2) }

/-- `__jacl_blake2b_compress`, `__jacl_blake2s_compress` -/
def Ctx.compress (ctx : Ctx v) (block : List UInt8) : Ctx v :=
  { ctx with h := v.compress ctx.h ctx.t ctx.f block, calls := ctx.calls ++ [⟨ctx.t, ctx.f, block⟩] }

/-- `while (inlen > BLOCKBYTES)`, with a bound on the number of turns: the context and what is left of the input. -/
def bulk : Nat → Ctx v → List UInt8 → Ctx v × List UInt8
  | 0, ctx, pin => (ctx, pin)
  | turns + 1, ctx, pin =>
    if pin.length > v.block then bulk turns ((ctx.count v.block).compress (pin.take v.block)) (pin.drop v.block)
      else (ctx, pin)

/-- The part of `blake2b_update` for an input that does not fit behind what is in the buffer: `fill` bytes of it
complete the buffer, which is compressed, and whole blocks follow. -/
def overflow (ctx : Ctx v) (pin : List UInt8) : Ctx v × List UInt8 :=
  let left := ctx.buflen
  let fill := v.block - left
  let ctx := ({ ctx with buflen := 0 }.write left (pin.take fill)).count v.block
  bulk pin.length (ctx.compress ctx.buf) (pin.drop fill)

/-- `memcpy(ctx->buf + ctx->buflen, pin, inlen); ctx->buflen += inlen;` -/
def Ctx.append (ctx : Ctx v) (pin : List UInt8) : Ctx v :=
  { ctx.write ctx.buflen pin with buflen := ctx.buflen + pin.length }

/-- `blake2b_update`, `blake2s_update` -/
def update (ctx : Ctx v) (pin : List UInt8) : Ctx v :=
  if pin.length > 0 then
    if pin.length > v.block - ctx.buflen then (overflow ctx pin).1.append (overflow ctx pin).2 else ctx.append pin
  else ctx

/-- `blake2b_init`, `blake2s_init`; `key` is the memory behind the pointer, when it is not NULL.  The buffer keeps
what it holds. -/
def init (ctx : Ctx v) (outlen : Nat) (key : Option (Nat → UInt8)) (keylen : Nat) : Option (Ctx v) :=
  if outlen = 0 ∨ outlen > v.outBytes then none
  else if keylen > v.keyBytes then none
  else if keylen ≠ 0 ∧ key = none then none
  else
    let h := v.iv.set 0 (v.iv[0] ^^^ BitVec.ofNat w (0x01010000 ^^^ (keylen <<< 8) ^^^ outlen))
    let ctx : Ctx v := { ctx with h, t := (0, 0), f := (0, 0), buflen := 0, outlen, calls := [] }
    match key with
    | some key =>
      if keylen > 0 then some (update ctx ((List.range keylen).map key ++ List.replicate (v.block - keylen) 0))
        else some ctx
    | none => some ctx

/-- The first chaining value: the parameters are in the first word. -/
def firstState (v : Variant w) (outlen keylen : Nat) : State w :=
  v.iv.set 0 (v.iv[0] ^^^ BitVec.ofNat w (0x01010000 ^^^ (keylen <<< 8) ^^^ outlen))

/-- `pout[i] = (h[i / (w / 8)] >> (8 * (i % (w / 8)))) & 0xFF` for the bytes of `out`. -/
def digest (h : State w) (outlen : Nat) : List UInt8 :=
  (List.range outlen).map fun i => (h.toList.getD (i / (w / 8)) 0 >>> (8 * (i % (w / 8)))).toNat.toUInt8

/-- `blake2b_final`, `blake2s_final`, but for the wiping of the context: the bytes of `out` and the compressions made.
-/
def final (ctx : Ctx v) : List UInt8 × List (Call w) :=
  let ctx := ctx.count ctx.buflen
  let ctx := { ctx with f := (-1, ctx.f.2) }
  let ctx := ctx.write ctx.buflen (List.replicate (v.block - ctx.buflen) 0)
  let ctx := ctx.compress ctx.buf
  (digest ctx.h ctx.outlen, ctx.calls)

end Streaming

/-! ### The compression functions -/

/-- What the two compression functions differ in: the rotations of `g` and the rows of `sigma`, one for each round. -/
structure Rounds where
  rot : Vector Nat 4
  sigma : List (Vector (Fin 16) 16)

section Rounds

variable {w : Nat} (rounds : Rounds)

/-- `__jacl_load32_le`, `__jacl_load64_le` -/
def loadLe (bs : List UInt8) : BitVec w := bs.foldr (fun b x => x <<< 8 ||| BitVec.ofNat w b.toNat) 0

/-- `__jacl_blake2b_g`, `__jacl_blake2s_g`, with the two words of the message -/
def g (v : Vector (BitVec w) 16) (q : Fin 16 × Fin 16 × Fin 16 × Fin 16) (x y : BitVec w) : Vector (BitVec w) 16 :=
  let (ia, ib, ic, id) := q
  let a := v[ia] + v[ib] + x
  let d := (v[id] ^^^ a).rotateRight rounds.rot[0]
  let c := v[ic] + d
  let b := (v[ib] ^^^ c).rotateRight rounds.rot[1]
  let a := a + b + y
  let d := (d ^^^ a).rotateRight rounds.rot[2]
  let c := c + d
  let b := (b ^^^ c).rotateRight rounds.rot[3]
  (((v.set ia a).set ib b).set ic c).set id d

/-- The columns and the diagonals that a round mixes. -/
def quarters : List (Fin 16 × Fin 16 × Fin 16 × Fin 16) :=
  [(0, 4, 8, 12), (1, 5, 9, 13), (2, 6, 10, 14), (3, 7, 11, 15), (0, 5, 10, 15), (1, 6, 11, 12), (2, 7, 8, 13),
    (3, 4, 9, 14)]

/-- `__jacl_blake2b_round`, `__jacl_blake2s_round` -/
def round (m : Vector (BitVec w) 16) (v : Vector (BitVec w) 16) (sigma : Vector (Fin 16) 16) : Vector (BitVec w) 16 :=
  quarters.zipIdx.foldl
    (fun v q => g rounds v q.1 m[sigma.toList.getD (2 * q.2) 0] m[sigma.toList.getD (2 * q.2 + 1) 0]) v

def compressWith (iv : State w) (h : State w) (t f : Pair w) (block : List UInt8) : State w :=
  let m : Vector (BitVec w) 16 := Vector.ofFn fun i => loadLe ((block.drop (i * (w / 8))).take (w / 8))
  let v : Vector (BitVec w) 16 :=
    h ++ #v[iv[0], iv[1], iv[2], iv[3], iv[4] ^^^ t.1, iv[5] ^^^ t.2, iv[6] ^^^ f.1, iv[7] ^^^ f.2]
  let v := rounds.sigma.foldl (round rounds m) v
  Vector.ofFn fun i => h[i] ^^^ (v[i.val] ^^^ v[i.val + 8])

end Rounds

def sigma : List (Vector (Fin 16) 16) := [
  #v[0, 1, 2, 3, 4, 5, 6, 7, 8, 9, 10, 11, 12, 13, 14, 15],
  #v[14, 10, 4, 8, 9, 15, 13, 6, 1, 12, 0, 2, 11, 7, 5, 3],
  #v[11, 8, 12, 0, 5, 2, 15, 13, 10, 14, 3, 6, 7, 1, 9, 4],
  #v[7, 9, 3, 1, 13, 12, 11, 14, 2, 6, 5, 10, 4, 0, 15, 8],
  #v[9, 0, 5, 7, 2, 4, 10, 15, 14, 1, 11, 12, 6, 8, 3, 13],
  #v[2, 12, 6, 10, 0, 11, 8, 3, 4, 13, 7, 5, 15, 14, 1, 9],
  #v[12, 5, 1, 15, 14, 13, 4, 10, 0, 7, 6, 3, 9, 2, 8, 11],
  #v[13, 11, 7, 14, 12, 1, 3, 9, 5, 0, 15, 4, 8, 6, 2, 10],
  #v[6, 15, 14, 9, 11, 3, 0, 8, 12, 2, 13, 7, 1, 4, 10, 5],
  #v[10, 2, 8, 4, 7, 6, 1, 5, 15, 11, 9, 14, 3, 12, 13, 0]]

/-- `__jacl_blake2b_iv` -/
def blake2bIv : State 64 := #v[0x6a09e667f3bcc908, 0xbb67ae8584caa73b, 0x3c6ef372fe94f82b, 0xa54ff53a5f1d36f1,
  0x510e527fade682d1, 0x9b05688c2b3e6c1f, 0x1f83d9abfb41bd6b, 0x5be0cd19137e2179]

/-- `__jacl_blake2s_iv` -/
def blake2sIv : State 32 :=
  #v[0x6A09E667, 0xBB67AE85, 0x3C6EF372, 0xA54FF53A, 0x510E527F, 0x9B05688C, 0x1F83D9AB, 0x5BE0CD19]

/-- `__jacl_blake2b_compress`: twelve rounds, the last two with the first two rows again. -/
def blake2bCompress : State 64 → Pair 64 → Pair 64 → List UInt8 → State 64 :=
  compressWith ⟨#v[32, 24, 16, 63], sigma ++ sigma.take 2⟩ blake2bIv

/-- `__jacl_blake2s_compress`: ten rounds. -/
def blake2sCompress : State 32 → Pair 32 → Pair 32 → List UInt8 → State 32 :=
  compressWith ⟨#v[16, 12, 8, 7], sigma⟩ blake2sIv

/-- BLAKE2b over any compression function. -/
def blake2b (compress : State 64 → Pair 64 → Pair 64 → List UInt8 → State 64) : Variant 64 where
  block := 128
  block_pos := by decide
  outBytes := 64
  keyBytes := 64
  key_fits := by decide
  iv := blake2bIv
  compress

/-- BLAKE2s over any compression function. -/
def blake2s (compress : State 32 → Pair 32 → Pair 32 → List UInt8 → State 32) : Variant 32 where
  block := 64
  block_pos := by decide
  outBytes := 32
  keyBytes := 32
  key_fits := by decide
  iv := blake2sIv
  compress

end JACLibc.Blake2
