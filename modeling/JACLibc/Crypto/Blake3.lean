import JACLibc.Crypto.Blake2
import JACLibc.Lib.Bytes
import JACLibc.Lib.Carry

/-!
# BLAKE3

The compression function of `crypto/blake3.h` is a parameter of everything else, a function of the chaining value, the
block, its length, the counter and the flags; `compress` is the one of the source.  The stack of chaining values is
the list of its entries, the last one first.  A context starts as memory that nobody has written, and `blake3_init`
leaves the buffer in it as it is.
-/

namespace JACLibc.Blake3

def BLAKE3_BLOCK_LEN : Nat := 64

def BLAKE3_CHUNK_LEN : Nat := 1024

def CHUNK_START : BitVec 32 := 1 <<< 0

def CHUNK_END : BitVec 32 := 1 <<< 1

def PARENT : BitVec 32 := 1 <<< 2

def ROOT : BitVec 32 := 1 <<< 3

def KEYED_HASH : BitVec 32 := 1 <<< 4

/-- The eight words of `cv` and `key`. -/
abbrev CV := Vector (BitVec 32) 8

/-- A compression, of `cv`, `block`, `block_len`, `counter` and `flags`. -/
abbrev Compress := CV → List UInt8 → Nat → BitVec 64 → BitVec 32 → Vector (BitVec 32) 16

/-- `for (int i = 0; i < 8; i++) cv[i] = out[i];` -/
def words (out : Vector (BitVec 32) 16) : CV := Vector.ofFn fun i => out[i.castLE (by decide : 8 ≤ 16)]

/-- `for (int i = 0; i < 8; i++) __jacl_store32_le(out + i * 4, out_full[i]);` -/
def bytes (out : Vector (BitVec 32) 16) : List UInt8 := (words out).toList.flatMap fun x => Bytes.le 4 x.toNat

/-! ### Chunks -/

/-- `blake3_chunk_state` -/
structure ChunkState where
  cv : CV
  chunk_counter : BitVec 64
  buf : List UInt8
  buf_len : Nat
  blocks_compressed : Nat
  flags : BitVec 32
  length_buf : buf.length = BLAKE3_BLOCK_LEN
  buf_len_le : buf_len ≤ BLAKE3_BLOCK_LEN

/-- `__jacl_blake3_chunk_state_init` -/
def chunkStateInit (self : ChunkState) (key : CV) (flags : BitVec 32) : ChunkState :=
  { self with cv := key, chunk_counter := 0, buf_len := 0, blocks_compressed := 0, flags, buf_len_le := Nat.zero_le _ }

/-- `self->blocks_compressed == 0 ? BLAKE3_CHUNK_START : 0` -/
def ChunkState.start (self : ChunkState) : BitVec 32 := if self.blocks_compressed = 0 then CHUNK_START else 0

section Chunk

variable (compress : Compress)

/-- The compression of a full buffer. -/
def ChunkState.flush (self : ChunkState) : ChunkState :=
  let out := compress self.cv self.buf BLAKE3_BLOCK_LEN self.chunk_counter (self.flags ||| self.start)
  { self with
    cv := words out
    blocks_compressed := self.blocks_compressed + 1
    buf_len := 0
    buf_len_le := Nat.zero_le _ }

/-- `memcpy(self->buf + self->buf_len, input, take); self->buf_len += take;` -/
def ChunkState.append (self : ChunkState) (input : List UInt8) (h : self.buf_len + input.length ≤ BLAKE3_BLOCK_LEN) :
    ChunkState :=
  { self with
    buf := Buffer.write self.buf self.buf_len input
    buf_len := self.buf_len + input.length
    length_buf := by rw [Buffer.length_write, self.length_buf]
    buf_len_le := h }

/-- The turn of the loop in which a full buffer is compressed. -/
def ChunkState.ready (self : ChunkState) : ChunkState :=
  if self.buf_len = BLAKE3_BLOCK_LEN then self.flush compress else self

theorem ChunkState.ready_lt (self : ChunkState) : (self.ready compress).buf_len < BLAKE3_BLOCK_LEN := by
  rw [ready]
  split
  · exact Nat.zero_lt_succ _
  · next h => exact Nat.lt_of_le_of_ne self.buf_len_le h

theorem ChunkState.take_le (self : ChunkState) (input : List UInt8) :
    self.buf_len + (input.take (BLAKE3_BLOCK_LEN - self.buf_len)).length ≤ BLAKE3_BLOCK_LEN := by
  have := self.buf_len_le
  rw [List.length_take]
  omega

/-- `__jacl_blake3_chunk_state_update` -/
def chunkStateUpdate (self : ChunkState) (input : List UInt8) : ChunkState :=
  if input = [] then self
  else
    let ready := self.ready compress
    let want := BLAKE3_BLOCK_LEN - ready.buf_len
    chunkStateUpdate (ready.append (input.take want) (ready.take_le input)) (input.drop want)
termination_by input.length
decreasing_by
  have hlt := self.ready_lt compress
  have hpos := List.length_pos_iff.2 (by assumption : ¬input = [])
  rw [List.length_drop]
  omega

/-- `__jacl_blake3_chunk_state_output` -/
def chunkStateOutput (self : ChunkState) : List UInt8 :=
  bytes (compress self.cv self.buf self.buf_len self.chunk_counter (self.flags ||| self.start ||| CHUNK_END))

/-- `__jacl_blake3_parent_cv` -/
def parentCv (left right : List UInt8) (key : CV) (flags : BitVec 32) : List UInt8 :=
  bytes (compress key (left ++ right) BLAKE3_BLOCK_LEN 0 (flags ||| PARENT))

end Chunk

/-! ### The tree -/

/-- `blake3_ctx` -/
structure Ctx where
  key : CV
  chunk : ChunkState
  cv_stack : List (List UInt8)

/-- What `blake3_init` and `blake3_init_keyed` share. -/
def initWith (ctx : Ctx) (key : CV) (flags : BitVec 32) : Ctx := ⟨key, chunkStateInit ctx.chunk key flags, []⟩

/-- `blake3_init` -/
def blake3Init (ctx : Ctx) : Ctx := initWith ctx Blake2.blake2sIv 0

/-- `blake3_init_keyed`; the 32 bytes of the key are those of its words. -/
def blake3InitKeyed (ctx : Ctx) (key : CV) : Ctx := initWith ctx key KEYED_HASH

section Tree

variable (compress : Compress)

/-- `__jacl_blake3_add_chunk_cv`, with `while (ctx->cv_stack_len >= 2 && total_chunks % 2 == 0)`. -/
def addChunkCv (ctx : Ctx) (cv : List UInt8) (total : BitVec 64) : Ctx :=
  let parent := fun left right => parentCv compress left right ctx.key ctx.chunk.flags
  { ctx with cv_stack := Carry.merge parent (cv :: ctx.cv_stack) total.toNat }

/-- `blake3_update`, with a bound on the number of turns of its loop; `tmp` is the memory of the local variable. -/
def blake3Update (tmp : ChunkState) : Nat → Ctx → List UInt8 → Option Ctx
  | 0, _, _ => none
  | fuel + 1, ctx, input =>
    if input = [] then some ctx
    else if ctx.chunk.buf_len = 0 ∧ ctx.chunk.blocks_compressed = 0 ∧ input.length ≥ BLAKE3_CHUNK_LEN then
      let tmp := { chunkStateInit tmp ctx.key ctx.chunk.flags with chunk_counter := ctx.chunk.chunk_counter }
      let tmp := chunkStateUpdate compress tmp (input.take BLAKE3_CHUNK_LEN)
      let ctx := addChunkCv compress ctx (chunkStateOutput compress tmp) (ctx.chunk.chunk_counter + 1)
      let ctx := { ctx with chunk := { ctx.chunk with chunk_counter := ctx.chunk.chunk_counter + 1 } }
      blake3Update tmp fuel ctx (input.drop BLAKE3_CHUNK_LEN)
    else
      let want := BLAKE3_CHUNK_LEN - (ctx.chunk.blocks_compressed * BLAKE3_BLOCK_LEN + ctx.chunk.buf_len)
      let ctx := { ctx with chunk := chunkStateUpdate compress ctx.chunk (input.take want) }
      let ctx :=
        if ctx.chunk.buf_len = 0 ∧ ctx.chunk.blocks_compressed = 16 then
          let ctx := addChunkCv compress ctx (chunkStateOutput compress ctx.chunk) (ctx.chunk.chunk_counter + 1)
          { ctx with
            chunk := chunkStateInit { ctx.chunk with chunk_counter := ctx.chunk.chunk_counter + 1 } ctx.key
              ctx.chunk.flags }
        else ctx
      blake3Update tmp fuel ctx (input.drop want)

/-- `blake3_final`, but for the wiping of the context. -/
def blake3Final (ctx : Ctx) : List UInt8 :=
  if ctx.cv_stack = [] then
    let flags := ctx.chunk.flags ||| ctx.chunk.start ||| CHUNK_END ||| ROOT
    bytes (compress ctx.chunk.cv ctx.chunk.buf ctx.chunk.buf_len 0 flags)
  else
    ctx.cv_stack.foldl (fun cv left => parentCv compress left cv ctx.key (ctx.chunk.flags ||| ROOT))
      (chunkStateOutput compress ctx.chunk)

/-- `blake3`; `ctx` and `tmp` are the memory of the local variables. -/
def blake3 (ctx : Ctx) (tmp : ChunkState) (fuel : Nat) (input : List UInt8) : Option (List UInt8) :=
  (blake3Update compress tmp fuel (blake3Init ctx) input).map (blake3Final compress)

end Tree

/-! ### The compression function -/

/-- The words of a block. -/
abbrev blockWords : Nat := 16

local instance : NeZero blockWords := ⟨by decide⟩

/-- The words of a chaining value. -/
abbrev cvWords : Nat := 8

/-- `__jacl_blake3_schedule` -/
def schedule : List (Vector (Fin blockWords) blockWords) := [
  #v[0, 1, 2, 3, 4, 5, 6, 7, 8, 9, 10, 11, 12, 13, 14, 15],
  #v[2, 6, 3, 10, 7, 0, 4, 13, 1, 11, 12, 5, 9, 14, 15, 8],
  #v[3, 4, 10, 12, 13, 2, 7, 14, 6, 5, 9, 0, 11, 15, 8, 1],
  #v[10, 7, 12, 9, 14, 3, 13, 15, 4, 0, 11, 2, 5, 8, 1, 6],
  #v[12, 13, 9, 11, 15, 10, 14, 8, 7, 2, 5, 3, 0, 1, 6, 4],
  #v[9, 14, 11, 5, 8, 12, 15, 1, 13, 3, 0, 10, 2, 6, 4, 7],
  #v[11, 15, 5, 0, 1, 9, 8, 6, 14, 10, 2, 12, 3, 4, 7, 13]]

/-- `__jacl_blake3_compress`; a round is that of BLAKE2s with a row of the schedule. -/
def compress : Compress := fun cv block block_len counter flags =>
  let rounds : Blake2.Rounds := ⟨⟨#[16, 12, 8, 7], by decide⟩, schedule⟩
  let m : Vector (BitVec 32) 16 := Vector.ofFn fun i => Blake2.loadLe ((block.drop (i * 4)).take 4)
  let iv : Vector (BitVec 32) cvWords := Blake2.blake2sIv
  let v : Vector (BitVec 32) 16 := cv ++ #v[iv[0], iv[1], iv[2], iv[3], counter.setWidth 32,
    (counter >>> 32).setWidth 32, BitVec.ofNat 32 block_len, flags]
  let v := rounds.sigma.foldl (Blake2.round rounds m) v
  Vector.ofFn fun i => if h : i.val < 8 then v[i.val] ^^^ v[i.val + 8] else v[i.val] ^^^ cv[i.val - 8]

end JACLibc.Blake3
