import JACLibc.Crypto.Blake2
import JACLibc.Lib.Bytes

/-!
# The Keccak sponge

One buffer and one count serve both phases of `crypto/keccak.h`: while absorbing `buf_len` bytes of a block have come,
while squeezing `buf_len` bytes are left.  The permutation is a parameter; `keccakF1600` is the one of the source.
-/

namespace JACLibc.Keccak

abbrev State := Vector (BitVec 64) 25

/-- A rate in bytes: whole lanes, no more than the state has. -/
structure Rate where
  bytes : Nat
  pos : 0 < bytes
  dvd : 8 ∣ bytes
  le : bytes ≤ 200

/-- `keccak_ctx` -/
structure Ctx where
  st : State
  buf : List UInt8
  buf_len : Nat
  rate : Rate
  absorbing : Bool
  length_buf : buf.length = 200

def Ctx.write (ctx : Ctx) (i : Nat) (bs : List UInt8) : Ctx :=
  { ctx with buf := Buffer.write ctx.buf i bs, length_buf := by rw [Buffer.length_write, ctx.length_buf] }

/-- `ctx->buf[ctx->buf_len++] = b;` -/
def Ctx.put (ctx : Ctx) (b : UInt8) : Ctx := { ctx.write ctx.buf_len [b] with buf_len := ctx.buf_len + 1 }

/-- `for (size_t j = 0; j < ctx->rate / 8; j++) ctx->st[j] ^= __jacl_load64_le(ctx->buf + j * 8);` -/
def xorBlock (rate : Rate) (st : State) (buf : List UInt8) : State :=
  Vector.ofFn fun j => if j.val < rate.bytes / 8 then st[j] ^^^ Blake2.loadLe ((buf.drop (j * 8)).take 8) else st[j]

/-- The bytes of the first lanes, as `__jacl_store64_le` puts them. -/
def block (rate : Rate) (st : State) : List UInt8 := (st.toList.take (rate.bytes / 8)).flatMap fun x =>
    Bytes.le 8 x.toNat

/-- `keccak_init` -/
def keccakInit (rate : Rate) : Ctx := ⟨Vector.replicate 25 0, List.replicate 200 0, 0, rate, true,
    List.length_replicate⟩

section Sponge

variable (f1600 : State → State)

/-- `keccak_f1600(ctx->st);` -/
def Ctx.permute (ctx : Ctx) : Ctx := { ctx with st := f1600 ctx.st }

/-- The block in the buffer goes into the state. -/
def Ctx.take (ctx : Ctx) : Ctx := Ctx.permute f1600 { ctx with st := xorBlock ctx.rate ctx.st ctx.buf }

/-- A turn of the loop of `keccak_absorb`. -/
def absorbByte (ctx : Ctx) (b : UInt8) : Ctx :=
  let ctx := ctx.put b
  if ctx.buf_len = ctx.rate.bytes then { ctx.take f1600 with buf_len := 0 } else ctx

/-- `keccak_absorb` -/
def keccakAbsorb (ctx : Ctx) (data : List UInt8) : Ctx := data.foldl (absorbByte f1600) ctx

/-- `ctx->buf[ctx->rate - 1] |= 0x80;` -/
def Ctx.setLast (ctx : Ctx) : Ctx := ctx.write (ctx.rate.bytes - 1) [ctx.buf.getD (ctx.rate.bytes - 1) 0 ||| 0x80]

/-- `while (ctx->buf_len < ctx->rate) ctx->buf[ctx->buf_len++] = 0;` -/
def Ctx.zeros (ctx : Ctx) : Ctx :=
  { ctx.write ctx.buf_len (List.replicate (ctx.rate.bytes - ctx.buf_len) 0)
    with buf_len := max ctx.buf_len ctx.rate.bytes }

/-- `keccak_pad` -/
def keccakPad (ctx : Ctx) (delim : UInt8) : Ctx :=
  { (ctx.put delim).zeros.setLast.take f1600 with absorbing := false, buf_len := 0 }

/-- The refill of an empty buffer in turn `i` of `keccak_squeeze`. -/
def Ctx.refill (ctx : Ctx) (i : Nat) : Ctx :=
  let ctx := if i > 0 then ctx.permute f1600 else ctx
  { ctx.write 0 (block ctx.rate ctx.st) with buf_len := ctx.rate.bytes }

/-- What a turn of the loop reads from: a buffer that is not empty. -/
def Ctx.filled (ctx : Ctx) (i : Nat) : Ctx := if ctx.buf_len = 0 then ctx.refill f1600 i else ctx

/-- Turn `i` of the loop of `keccak_squeeze`. -/
def squeezeByte (ctx : Ctx) (i : Nat) : Ctx × UInt8 :=
  let ctx := ctx.filled f1600 i
  ({ ctx with buf_len := ctx.buf_len - 1 }, ctx.buf.getD (ctx.rate.bytes - ctx.buf_len) 0)

/-- The loop of `keccak_squeeze` from turn `i` on, for `n` bytes. -/
def squeezeFrom : Nat → Nat → Ctx → Ctx × List UInt8
  | _, 0, ctx => (ctx, [])
  | i, n + 1, ctx =>
    let (ctx, b) := squeezeByte f1600 ctx i
    let (ctx, out) := squeezeFrom (i + 1) n ctx
    (ctx, b :: out)

/-- `keccak_squeeze` -/
def keccakSqueeze (ctx : Ctx) (outlen : Nat) : Ctx × List UInt8 := squeezeFrom f1600 0 outlen ctx

/-- Calls of `keccak_squeeze` one after the other, and all they put out. -/
def squeezes : Ctx → List Nat → List UInt8
  | _, [] => []
  | ctx, outlen :: outlens =>
    let (ctx, out) := keccakSqueeze f1600 ctx outlen
    out ++ squeezes ctx outlens

/-- A whole run: the message in `pieces`, the output in calls of `outlens` bytes. -/
def run (rate : Rate) (pieces : List (List UInt8)) (delim : UInt8) (outlens : List Nat) : List UInt8 :=
  squeezes f1600 (keccakPad f1600 (pieces.foldl (keccakAbsorb f1600) (keccakInit rate)) delim) outlens

end Sponge

/-! ### The permutation -/

/-- `__jacl_keccak_rc` -/
def rc : List (BitVec 64) := [
  0x0000000000000001, 0x0000000000008082, 0x800000000000808a, 0x8000000080008000, 0x000000000000808b,
  0x0000000080000001, 0x8000000080008081, 0x8000000000008009, 0x000000000000008a, 0x0000000000000088,
  0x0000000080008009, 0x000000008000000a, 0x000000008000808b, 0x800000000000008b, 0x8000000000008089,
  0x8000000000008003, 0x8000000000008002, 0x8000000000000080, 0x000000000000800a, 0x800000008000000a,
  0x8000000080008081, 0x8000000080008080, 0x0000000080000001, 0x8000000080008008]

/-- `__jacl_keccak_rotc` -/
def rotc : List Nat := [1, 3, 6, 10, 15, 21, 28, 36, 45, 55, 2, 14, 27, 41, 56, 8, 25, 43, 62, 18, 39, 61, 20, 44]

/-- `__jacl_keccak_piln` -/
def piln : List (Fin 25) := [10, 7, 11, 17, 18, 3, 5, 16, 8, 21, 24, 4, 15, 23, 19, 13, 12, 2, 20, 14, 22, 9, 6, 1]

/-- The lane `i` places further in the row of lane `j`. -/
def inRow (j : Fin 25) (i : Nat) : Fin 25 := ⟨j / 5 * 5 + (j + i) % 5, by omega⟩

def theta (st : State) : State :=
  let bc : Vector (BitVec 64) 5 :=
    Vector.ofFn fun i => st[i.val] ^^^ st[i.val + 5] ^^^ st[i.val + 10] ^^^ st[i.val + 15] ^^^ st[i.val + 20]
  Vector.ofFn fun j => st[j] ^^^ (bc.get (Fin.ofNat 5 (j.val + 4)) ^^^ (bc.get (Fin.ofNat 5 (j.val + 1))).rotateLeft 1)

/-- ρ and π: every lane of `piln` takes the one before it, turned. -/
def rhoPi (st : State) : State :=
  ((piln.zip rotc).foldl (fun (p : State × BitVec 64) jr => (p.1.set jr.1 (p.2.rotateLeft jr.2), p.1[jr.1]))
    (st, st[1])).1

def chi (st : State) : State := Vector.ofFn fun j => st[j] ^^^ (~~~st[inRow j 1] &&& st[inRow j 2])

/-- `keccak_f1600` -/
def keccakF1600 (st : State) : State :=
  rc.foldl (fun st rc =>
    let st := chi (rhoPi (theta st))
    st.set 0 (st[0] ^^^ rc)) st

/-- A permutation with which no block is like the one before it: one is added to the first lane. -/
def addOne : Equiv.Perm State where
  toFun st := st.set 0 (st[0] + 1)
  invFun st := st.set 0 (st[0] - 1)
  left_inv st := by
    simp only [BitVec.ofNat_eq_ofNat, Vector.getElem_set_self, BitVec.add_sub_cancel, Vector.set_set,
      Vector.set_getElem_self]
  right_inv st := by
    simp only [BitVec.ofNat_eq_ofNat, Vector.getElem_set_self, BitVec.sub_add_cancel, Vector.set_set,
      Vector.set_getElem_self]

theorem block_head (rate : Rate) (st : State) : (block rate st).getD 0 0 = st[0].toNat.toUInt8 := by
  obtain ⟨k, hk⟩ := rate.dvd
  have hpos := rate.pos
  obtain ⟨n, hn⟩ : ∃ n, rate.bytes / 8 = n + 1 := ⟨rate.bytes / 8 - 1, by omega⟩
  obtain ⟨x, xs, hxs⟩ := List.exists_cons_of_length_pos (show 0 < st.toList.length by simp)
  have hx : x = st[0] := by
    have := congrArg (·[0]?) hxs
    simpa using this.symm
  rw [block, hn, hxs, hx]
  rfl

end JACLibc.Keccak
