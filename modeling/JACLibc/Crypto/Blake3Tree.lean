import JACLibc.Crypto.Blake3Chunk
import Mathlib.Data.FinEnum

/-!
# The tree of BLAKE3

`treeHash` is the hash of the whole message as BLAKE3 defines it, over any compression function.  `blake3` agrees with
it for every compression function exactly for the messages of `blake3_tree`: a whole last chunk is followed by an
empty one, every merge of `blake3_final` has the flag of the root, and what stands in the buffer behind the last block
is not zero but what was there before.
-/

namespace JACLibc.Blake3

/-- A compression that gives a chaining value, or the hash. -/
structure Node where
  cv : CV
  block : List UInt8
  block_len : Nat
  counter : BitVec 64
  flags : BitVec 32

def Node.out (compress : Compress) (n : Node) : List UInt8 :=
  bytes (compress n.cv n.block n.block_len n.counter n.flags)

def Node.root (n : Node) : Node := { n with flags := n.flags ||| ROOT }

/-- The last block of a chunk, behind the compressions of the ones before it; `start` is the flag of the first block. -/
def chunkNode (compress : Compress) (counter : BitVec 64) (flags : BitVec 32) (cv : CV) (start : BitVec 32)
    (chunk : List UInt8) : Node :=
  if chunk.length ≤ 64 then
    ⟨cv, chunk ++ List.replicate (64 - chunk.length) 0, chunk.length, counter, flags ||| start ||| CHUNK_END⟩
  else
    chunkNode compress counter flags (words (compress cv (chunk.take 64) 64 counter (flags ||| start))) 0
      (chunk.drop 64)
termination_by chunk.length
decreasing_by
  rw [List.length_drop]
  omega

/-- Chunk `i` of a message. -/
def chunk (msg : List UInt8) (i : Nat) : List UInt8 := (msg.drop (1024 * i)).take 1024

section Spec

variable (compress : Compress) (msg : List UInt8)

def leafNode (i : Nat) : Node := chunkNode compress (BitVec.ofNat 64 i) 0 Blake2.blake2sIv CHUNK_START (chunk msg i)

def parentNode (left right : List UInt8) : Node := ⟨Blake2.blake2sIv, left ++ right, 64, 0, PARENT⟩

def leaf (i : Nat) : List UInt8 := (leafNode compress msg i).out compress

def parent (left right : List UInt8) : List UInt8 := (parentNode left right).out compress

/-- The node at the root of the tree over `n` chunks. -/
def rootNode (n : Nat) : Node :=
  if n ≤ 1 then leafNode compress msg 0
  else
    parentNode (Carry.tree (parent compress) (leaf compress msg) 0 (2 ^ (n - 1).log2))
      (Carry.tree (parent compress) (leaf compress msg) (2 ^ (n - 1).log2) (n - 2 ^ (n - 1).log2))

/-- The hash of a message: the root of the tree over its chunks, the last of which has at least one byte if there is
one. -/
def treeHash : List UInt8 := (rootNode compress msg ((msg.length + 1023) / 1024)).root.out compress

end Spec

/-! ### What a chunk state holds -/

/-- The last block of a chunk, without padding. -/
def lastBlock (chunk : List UInt8) : List UInt8 := if chunk.length ≤ 64 then chunk else lastBlock (chunk.drop 64)
termination_by chunk.length
decreasing_by
  rw [List.length_drop]
  omega

/-- What stands in the buffer behind the last block: bytes of the block before it, or of what was in the buffer at
first. -/
def stale (buf chunk : List UInt8) : List UInt8 :=
  if chunk.length ≤ 64 then buf.drop chunk.length else stale (chunk.take 64) (chunk.drop 64)
termination_by chunk.length
decreasing_by
  rw [List.length_drop]
  omega

/-- What `__jacl_blake3_chunk_state_output` compresses. -/
def ChunkState.node (self : ChunkState) : Node :=
  ⟨self.cv, self.buf, self.buf_len, self.chunk_counter, self.flags ||| self.start ||| CHUNK_END⟩

section Chunk

variable {compress : Compress} {self : ChunkState}

theorem ready_of_empty (h : self.buf_len = 0) : self.ready compress = self := by
  rw [ChunkState.ready, if_neg (by rw [h]; decide)]

theorem append_empty (h : self.buf_len = 0) {input : List UInt8}
    (hlen : self.buf_len + input.length ≤ BLAKE3_BLOCK_LEN) :
    (self.append input hlen).buf = input ++ self.buf.drop input.length ∧
    (self.append input hlen).buf_len = input.length := by
  have hfits : input.length ≤ self.buf.length := by
    rw [self.length_buf]
    omega
  have hwrite : Buffer.write ([] ++ self.buf) ([] : List UInt8).length input = _ := Buffer.write_front hfits
  rw [List.nil_append, List.nil_append, List.length_nil] at hwrite
  simp only [ChunkState.append, h, hwrite, Nat.zero_add, and_self]

/-- The first turn with an empty buffer. -/
theorem update_empty (compress : Compress) (h : self.buf_len = 0) {input : List UInt8} (hne : input ≠ []) :
    ∃ next : ChunkState, chunkStateUpdate compress self input = chunkStateUpdate compress next (input.drop 64) ∧
      next.cv = self.cv ∧ next.chunk_counter = self.chunk_counter ∧ next.blocks_compressed = self.blocks_compressed ∧
      next.flags = self.flags ∧ next.buf = input.take 64 ++ self.buf.drop (input.take 64).length ∧
      next.buf_len = (input.take 64).length := by
  have hstep : chunkStateUpdate compress self input = _ := chunkStateUpdate_step hne
  simp only [ready_of_empty h, h, Nat.sub_zero] at hstep
  obtain ⟨hbuf, hlen⟩ := append_empty h (self.take_le input)
  simp only [h, Nat.sub_zero] at hbuf hlen
  exact ⟨_, hstep, rfl, rfl, rfl, rfl, hbuf, hlen⟩

/-- A full buffer is compressed when more comes. -/
theorem update_full (h : self.buf_len = BLAKE3_BLOCK_LEN) {input : List UInt8} (hne : input ≠ []) :
    chunkStateUpdate compress self input = chunkStateUpdate compress (self.flush compress) input := by
  have hready : self.ready compress = self.flush compress := if_pos h
  have hready' : (self.flush compress).ready compress = self.flush compress := ready_of_empty rfl
  rw [chunkStateUpdate_step hne, chunkStateUpdate_step hne]
  simp only [hready, hready']

theorem ChunkState.start_of_pos (h : self.blocks_compressed ≠ 0) : self.start = 0 := if_neg h

/-- What is compressed behind the input is the node of the chunk, but for what stands behind the last block. -/
theorem node_update (compress : Compress) (h : self.buf_len = 0) (input : List UInt8) :
    (chunkStateUpdate compress self input).node =
      { chunkNode compress self.chunk_counter self.flags self.cv self.start input with
        block := lastBlock input ++ stale self.buf input } := by
  obtain ⟨n, hn⟩ : ∃ n, input.length = n := ⟨_, rfl⟩
  induction n using Nat.strong_induction_on generalizing self input with
  | _ n ih =>
    by_cases hempty : input = []
    · subst hempty
      rw [chunkStateUpdate_nil, chunkNode, lastBlock, stale]
      simp [ChunkState.node, h]
    · obtain ⟨next, hnext, hcv, hcounter, hblocks, hflags, hbuf, hlen⟩ := update_empty compress h hempty
      have hstart : next.start = self.start := by
        rw [ChunkState.start, ChunkState.start, hblocks]
      rw [hnext]
      by_cases hshort : input.length ≤ 64
      · rw [List.drop_eq_nil_of_le hshort, chunkStateUpdate_nil, ChunkState.node, hcv, hcounter, hflags, hstart, hbuf,
          hlen, chunkNode, if_pos hshort, lastBlock, if_pos hshort, stale, if_pos hshort, List.take_of_length_le hshort]
      · have htake : (input.take 64).length = 64 := List.length_take_of_le (Nat.le_of_not_le hshort)
        have hrest : input.drop 64 ≠ [] := by
          rw [Ne, List.drop_eq_nil_iff]
          exact hshort
        have hless : (input.drop 64).length < n := by
          rw [List.length_drop]
          omega
        have hfull : next.buf = input.take 64 := by
          have hbehind : self.buf.drop 64 = [] := List.drop_eq_nil_of_le (Nat.le_of_eq self.length_buf)
          rw [hbuf, htake, hbehind, List.append_nil]
        have hempty' : (next.flush compress).buf_len = 0 := rfl
        have hnode := ih _ hless hempty' (input.drop 64) rfl
        have hflushed : (next.flush compress).start = 0 := ChunkState.start_of_pos (Nat.succ_ne_zero _)
        rw [update_full (hlen.trans htake) hrest, hnode, hflushed]
        conv_rhs => rw [chunkNode, if_neg hshort, lastBlock, if_neg hshort, stale, if_neg hshort]
        simp only [ChunkState.flush, hcv, hcounter, hflags, hstart, hfull]
        rfl

theorem length_stale {buf : List UInt8} (hbuf : buf.length = 64) (chunk : List UInt8) :
    (stale buf chunk).length = 64 - (lastBlock chunk).length := by
  induction buf, chunk using stale.induct with
  | case1 buf chunk h => rw [stale, if_pos h, lastBlock, if_pos h, List.length_drop, hbuf]
  | case2 buf chunk h ih =>
    rw [stale, if_neg h, lastBlock, if_neg h]
    exact ih (List.length_take_of_le (Nat.le_of_not_le h))

theorem length_lastBlock {chunk : List UInt8} {m : Nat} (hm : 0 < m) (h : chunk.length = 64 * m) :
    (lastBlock chunk).length = 64 := by
  induction m generalizing chunk with
  | zero => exact absurd hm (Nat.lt_irrefl 0)
  | succ m ih =>
    rw [lastBlock]
    split
    · omega
    · exact ih (by omega) (by rw [List.length_drop]; omega)

theorem chunkNode_block (compress : Compress) (counter : BitVec 64) (flags : BitVec 32) (cv : CV) (start : BitVec 32)
    (chunk : List UInt8) :
    (chunkNode compress counter flags cv start chunk).block = lastBlock chunk ++
    List.replicate (64 - (lastBlock chunk).length) 0 ∧
      (chunkNode compress counter flags cv start chunk).block_len = (lastBlock chunk).length := by
  induction cv, start, chunk using chunkNode.induct compress counter flags with
  | case1 cv start chunk h =>
    rw [chunkNode, if_pos h, lastBlock, if_pos h]
    exact ⟨rfl, rfl⟩
  | case2 cv start chunk h ih =>
    rw [chunkNode, if_neg h, lastBlock, if_neg h]
    exact ih

theorem chunkNode_counter (counter : BitVec 64) (flags : BitVec 32) (cv : CV) (start : BitVec 32) (chunk : List UInt8) :
    (chunkNode compress counter flags cv start chunk).counter = counter := by
  induction cv, start, chunk using chunkNode.induct compress counter flags with
  | case1 cv start chunk h => rw [chunkNode, if_pos h]
  | case2 cv start chunk h ih =>
    rw [chunkNode, if_neg h]
    exact ih

/-- Where the bytes behind the last block are zero, they are the padding. -/
theorem padded {buf : List UInt8} (hbuf : buf.length = 64) {chunk : List UInt8} (h : ∀ b ∈ stale buf chunk, b = 0)
    (counter : BitVec 64) (flags : BitVec 32) (cv : CV) (start : BitVec 32) :
    { chunkNode compress counter flags cv start chunk with block := lastBlock chunk ++ stale buf chunk } =
      chunkNode compress counter flags cv start chunk := by
  rw [List.eq_replicate_of_mem h, length_stale hbuf, ← (chunkNode_block compress counter flags cv start chunk).1]

end Chunk

/-! ### One call over the whole message -/

section OneShot

variable (compress : Compress) (msg : List UInt8)

/-- The context behind `j` chunks; `start` is the chunk state that `blake3_init` leaves. -/
def atChunk (start : ChunkState) (j : Nat) : Ctx :=
  ⟨Blake2.blake2sIv, { start with chunk_counter := BitVec.ofNat 64 j },
    Carry.stack (parent compress) (leaf compress msg) 0 j⟩

/-- The bytes behind the whole chunks. -/
def tail : List UInt8 := msg.drop (1024 * (msg.length / 1024))

/-- What is compressed for the last bytes of the message. -/
def heldNode (buf : List UInt8) : Node :=
  { leafNode compress msg (msg.length / 1024) with block := lastBlock (tail msg) ++ stale buf (tail msg) }

/-- What `blake3` answers. -/
def digest (buf : List UInt8) : List UInt8 :=
  if msg.length / 1024 = 0 then (heldNode compress msg buf).root.out compress
  else
    (Carry.stack (parent compress) (leaf compress msg) 0 (msg.length / 1024)).foldl
      (fun cv left => (parentNode left cv).root.out compress) ((heldNode compress msg buf).out compress)

variable {compress msg}

theorem parentCv_eq : (fun left right => parentCv compress left right Blake2.blake2sIv 0) = parent compress := by
  funext left right
  rw [parentCv, show (0 : BitVec 32) ||| PARENT = PARENT by decide]
  rfl

theorem chunk_whole {j : Nat} (hj : 1024 * (j + 1) ≤ msg.length) : (chunk msg j).length = 1024 :=
  List.length_take_of_le (by rw [List.length_drop]; omega)

theorem tail_lt : (tail msg).length < 1024 := by
  rw [tail, List.length_drop]
  omega

theorem chunk_tail : chunk msg (msg.length / 1024) = tail msg := List.take_of_length_le (Nat.le_of_lt tail_lt)

/-- The chaining value of a whole chunk. -/
theorem wholeChunk_output (tmp start : ChunkState) (hflags : start.flags = 0) {j : Nat}
    (hj : 1024 * (j + 1) ≤ msg.length) :
    chunkStateOutput compress (wholeChunk compress tmp (atChunk compress msg start j) (msg.drop (1024 * j))) =
    leaf compress msg j := by
  have hlast : (lastBlock (chunk msg j)).length = 64 := length_lastBlock (m := 16) (by decide) (chunk_whole hj)
  have hstale : stale tmp.buf (chunk msg j) = [] := by
    rw [← List.length_eq_zero_iff, length_stale tmp.length_buf, hlast]
  have hempty : ({ chunkStateInit tmp Blake2.blake2sIv start.flags with chunk_counter := BitVec.ofNat 64 j } :
    ChunkState).buf_len = 0 := rfl
  have hnode := node_update compress hempty (chunk msg j)
  refine (congrArg (Node.out compress) hnode).trans ?_
  refine (congrArg (Node.out compress) (padded tmp.length_buf (by rw [hstale]; simp) _ _ _ _)).trans ?_
  rw [leaf, leafNode, ← hflags]
  rfl

theorem afterChunk_eq (tmp start : ChunkState) (hflags : start.flags = 0) (hlen : msg.length < 2 ^ 64) {j : Nat}
    (hj : 1024 * (j + 1) ≤ msg.length) :
    afterChunk compress tmp (atChunk compress msg start j) (msg.drop (1024 * j)) =
    atChunk compress msg start (j + 1) := by
  have hcount : BitVec.ofNat 64 j + 1 = BitVec.ofNat 64 (j + 1) := (BitVec.ofNat_add j 1).symm
  have hcount' : (BitVec.ofNat 64 (j + 1)).toNat = j + 1 := by
    rw [BitVec.toNat_ofNat, Nat.mod_eq_of_lt (by omega)]
  have hmerge := @Carry.merge_stack _ (parent compress) (leaf compress msg) 0 j
  rw [afterChunk, wholeChunk_output tmp start hflags hj]
  simp only [atChunk, addChunkCv, hflags, parentCv_eq, hcount, hcount']
  rw [← hmerge]
  rfl

/-- The loop goes over the whole chunks, and takes the rest in one turn. -/
theorem update_eq (start : ChunkState) (hfilled : start.filled = 0) (hwithin : start.Within) (hflags : start.flags = 0)
    (hlen : msg.length < 2 ^ 64) {j d : Nat} (hj : j + d = msg.length / 1024) (tmp : ChunkState) :
    blake3Update compress tmp (d + 2) (atChunk compress msg start j) (msg.drop (1024 * j)) =
      some { atChunk compress msg start (msg.length / 1024) with
        chunk := chunkStateUpdate compress (atChunk compress msg start (msg.length / 1024)).chunk (tail msg) } := by
  induction d generalizing j tmp with
  | zero =>
    rw [Nat.add_zero] at hj
    subst hj
    have hlt : (tail msg).length < BLAKE3_CHUNK_LEN := tail_lt
    have hfits : start.filled + (tail msg).length ≤ BLAKE3_CHUNK_LEN := by omega
    have hat : (atChunk compress msg start (msg.length / 1024)).chunk.Within := ⟨hwithin.filled_le, hwithin.begun⟩
    exact update_within hat hfits fun hpart => absurd hpart.2 (Nat.not_le.2 hlt)
  | succ d ih =>
    have hmore : 1024 * (j + 1) ≤ msg.length := by omega
    have hinput : BLAKE3_CHUNK_LEN ≤ (msg.drop (1024 * j)).length := by
      rw [List.length_drop]
      exact Nat.le_sub_of_add_le (by rw [Nat.mul_succ] at hmore; exact (Nat.add_comm _ _).trans_le hmore)
    rw [update_whole (d + 2) (hwithin.begins.1 hfilled) hinput, afterChunk_eq tmp start hflags hlen hmore,
      List.drop_drop]
    exact ih (by omega) _

theorem blake3Update_mono {tmp : ChunkState} {fuel : Nat} {ctx ctx' : Ctx} {input : List UInt8}
    (h : blake3Update compress tmp fuel ctx input = some ctx') :
    blake3Update compress tmp (fuel + 1) ctx input = some ctx' := by
  induction fuel generalizing tmp ctx input with
  | zero => exact absurd h (by simp [blake3Update])
  | succ fuel ih =>
    rw [blake3Update] at h ⊢
    by_cases hnil : input = []
    · rw [if_pos hnil] at h ⊢
      exact h
    · rw [if_neg hnil] at h ⊢
      by_cases hwhole : ctx.chunk.buf_len = 0 ∧ ctx.chunk.blocks_compressed = 0 ∧ input.length ≥ BLAKE3_CHUNK_LEN
      · rw [if_pos hwhole] at h ⊢
        exact ih h
      · rw [if_neg hwhole] at h ⊢
        exact ih h

/-- Every bound on the number of turns with which a call returns gives the same. -/
theorem blake3_unique {ctx : Ctx} {tmp : ChunkState} {fuel fuel' : Nat} {out out' : List UInt8}
    (h : blake3 compress ctx tmp fuel msg = some out) (h' : blake3 compress ctx tmp fuel' msg = some out') :
    out = out' := by
  obtain ⟨c, hc, rfl⟩ := Option.map_eq_some_iff.1 h
  obtain ⟨c', hc', rfl⟩ := Option.map_eq_some_iff.1 h'
  have hmono : ∀ {n : Nat} {d : Ctx} (k : Nat), blake3Update compress tmp n (blake3Init ctx) msg = some d →
      blake3Update compress tmp (n + k) (blake3Init ctx) msg = some d := by
    intro n d k hd
    induction k with
    | zero => exact hd
    | succ k ih => exact blake3Update_mono ih
  have hmore := hmono fuel hc'
  rw [Nat.add_comm, hmono fuel' hc] at hmore
  rw [Option.some.inj hmore]

theorem flags_update (self : ChunkState) (input : List UInt8) :
    (chunkStateUpdate compress self input).flags = self.flags := by
  induction self, input using chunkStateUpdate.induct compress with
  | case1 self => rw [chunkStateUpdate_nil]
  | case2 self input h ready want ih =>
    rw [chunkStateUpdate_step h]
    refine ih.trans ?_
    change (self.ready compress).flags = self.flags
    rw [ChunkState.ready]
    split
    · rfl
    · rfl

/-- The chunk state behind the whole message. -/
def held (compress : Compress) (msg : List UInt8) (start : ChunkState) : ChunkState :=
  chunkStateUpdate compress (atChunk compress msg start (msg.length / 1024)).chunk (tail msg)

theorem held_node {start : ChunkState} (hlen : start.buf_len = 0) (hblocks : start.blocks_compressed = 0)
    (hflags : start.flags = 0) (hcv : start.cv = Blake2.blake2sIv) :
    (held compress msg start).node = heldNode compress msg start.buf := by
  have hstart : start.start = CHUNK_START := if_pos hblocks
  have hempty : (atChunk compress msg start (msg.length / 1024)).chunk.buf_len = 0 := hlen
  have hnode := node_update compress hempty (tail msg)
  refine hnode.trans ?_
  rw [heldNode, leafNode, chunk_tail, ← hstart, ← hcv, ← hflags]
  rfl

/-- What `blake3_final` answers behind the whole message. -/
theorem final_eq {start : ChunkState} (hlen : start.buf_len = 0) (hblocks : start.blocks_compressed = 0)
    (hflags : start.flags = 0) (hcv : start.cv = Blake2.blake2sIv) :
    blake3Final compress ⟨Blake2.blake2sIv, held compress msg start,
      Carry.stack (parent compress) (leaf compress msg) 0 (msg.length / 1024)⟩ = digest compress msg start.buf := by
  have hnode : (held compress msg start).node = _ := held_node hlen hblocks hflags hcv
  rw [blake3Final, digest]
  by_cases hk : msg.length / 1024 = 0
  · have hcounter : (heldNode compress msg start.buf).counter = 0 := by
      rw [heldNode, leafNode, chunkNode_counter, hk]
      rfl
    rw [if_pos ((Carry.stack_eq_nil 0 _).2 hk), if_pos hk, ← hnode]
    rw [← hnode] at hcounter
    generalize held compress msg start = self at hcounter
    exact congrArg (fun c => bytes (compress self.cv self.buf self.buf_len c
      (self.flags ||| self.start ||| CHUNK_END ||| ROOT)))
      hcounter.symm
  · rw [if_neg (mt (Carry.stack_eq_nil 0 _).1 hk), if_neg hk, ← hnode]
    have hflags' : (held compress msg start).flags = 0 := (flags_update _ _).trans hflags
    have hparent : ∀ left cv, parentCv compress left cv Blake2.blake2sIv (0 ||| ROOT) =
      (parentNode left cv).root.out compress := by
      intro left cv
      rw [parentCv, show (0 : BitVec 32) ||| ROOT ||| PARENT = PARENT ||| ROOT by decide]
      rfl
    simp only [hflags', hparent]
    generalize held compress msg start = self
    rfl

/-- What one call on the whole message answers. -/
theorem blake3_eq (compress : Compress) (ctx : Ctx) (tmp : ChunkState) (hlen : msg.length < 2 ^ 64) :
    ∃ fuel, blake3 compress ctx tmp fuel msg = some (digest compress msg ctx.chunk.buf) := by
  have hinit : blake3Init ctx = atChunk compress msg (blake3Init ctx).chunk 0 := by
    rw [atChunk, Carry.stack_zero]
    rfl
  have hrun := @update_eq compress msg (blake3Init ctx).chunk rfl ⟨Nat.zero_le _, fun _ => rfl⟩ rfl hlen 0
    (msg.length / 1024)
    (Nat.zero_add _) tmp
  rw [Nat.mul_zero, List.drop_zero, ← hinit] at hrun
  refine ⟨msg.length / 1024 + 2, ?_⟩
  rw [blake3, hrun, Option.map_some]
  exact congrArg some (final_eq rfl rfl rfl rfl)

end OneShot

/-! ### Where the two hashes agree -/

/-- The whole message is one chunk that is not full, or a power of two of chunks and a rest, and nothing but zero
bytes are behind the last block. -/
def Hashed (buf msg : List UInt8) : Prop :=
  (msg.length % 1024 = 0 → msg = []) ∧ (msg.length / 1024 = 0 ∨ ∃ a, msg.length / 1024 = 2 ^ a) ∧
    ∀ b ∈ stale buf (tail msg), b = 0

theorem digest_eq {compress : Compress} {buf msg : List UInt8} (hbuf : buf.length = 64) (h : Hashed buf msg) :
    digest compress msg buf = treeHash compress msg := by
  obtain ⟨hrest, hpow, hzero⟩ := h
  have hheld : heldNode compress msg buf = leafNode compress msg (msg.length / 1024) := by
    rw [heldNode, leafNode, chunk_tail]
    exact padded hbuf hzero _ _ _ _
  rw [digest, treeHash, rootNode]
  rcases hpow with hk | ⟨a, hk⟩
  · have hn : (msg.length + 1023) / 1024 ≤ 1 := by omega
    rw [if_pos hk, if_pos hn, hheld, hk]
  · have hpos := Nat.two_pow_pos a
    have hne : msg.length % 1024 ≠ 0 := by
      intro hmod
      rw [hrest hmod] at hk
      exact absurd hk (Nat.ne_of_lt hpos)
    have hn : (msg.length + 1023) / 1024 = 2 ^ a + 1 := by omega
    have hleft : Carry.tree (parent compress) (leaf compress msg) 0 (2 ^ a) =
      Carry.block (parent compress) (leaf compress msg) a 0 :=
      Carry.tree_two_pow a 0
    rw [if_neg (by omega), hn, if_neg (by omega), Nat.add_sub_cancel, Nat.log2_two_pow, Nat.add_sub_cancel_left,
      Carry.tree_one, hleft, hheld, hk, Carry.stack_two_pow, Nat.zero_add]
    rfl

/-! ### Compressions that show what they were given -/

/-- A compression that marks a chunk by its last block, and a parent by the mark of its right child and whether it is
the root. -/
def spot (onChunk : List UInt8 → Nat → UInt8) (onParent : Bool → UInt8 → UInt8) : Compress :=
  fun _ block block_len _ flags =>
  let mark := if flags &&& PARENT = 0 then onChunk block block_len else onParent (flags &&& ROOT != 0) (block.getD 32 0)
  Vector.replicate 16 (BitVec.ofNat 32 mark.toNat)

theorem length_bytes (out : Vector (BitVec 32) 16) : (bytes out).length = 32 := by
  rw [bytes, List.length_flatMap]
  simp

/-- The first byte of a hash or chaining value. -/
def mark (cv : List UInt8) : UInt8 := cv.getD 0 0

theorem mark_replicate (b : UInt8) : mark (bytes (Vector.replicate 16 (BitVec.ofNat 32 b.toNat))) = b := by
  have hwords : (words (Vector.replicate 16 (BitVec.ofNat 32 b.toNat))).toList =
    List.replicate 8 (BitVec.ofNat 32 b.toNat) := by
    rfl
  rw [mark, bytes, hwords]
  simp [List.replicate, Bytes.le]

theorem mark_right {left : List UInt8} (hleft : left.length = 32) (right : List UInt8) :
    (left ++ right).getD 32 0 = mark right := by
  rw [List.getD_eq_getElem?_getD, List.getElem?_append_right (Nat.le_of_eq hleft), hleft, mark,
    List.getD_eq_getElem?_getD]

section Spot

variable {onChunk : List UInt8 → Nat → UInt8} {onParent : Bool → UInt8 → UInt8} {msg buf : List UInt8}

theorem mark_out (n : Node) : mark (n.out (spot onChunk onParent)) =
    if n.flags &&& PARENT = 0 then onChunk n.block n.block_len else onParent (n.flags &&& ROOT != 0)
    (n.block.getD 32 0) :=
  mark_replicate _

theorem mark_parent {left : List UInt8} (hleft : left.length = 32) (right : List UInt8) :
    mark ((parentNode left right).out (spot onChunk onParent)) = onParent false (mark right) ∧
      mark ((parentNode left right).root.out (spot onChunk onParent)) = onParent true (mark right) := by
  have hflags : ¬PARENT &&& PARENT = 0 ∧ ¬(PARENT ||| ROOT) &&& PARENT = 0 := by decide
  rw [mark_out, mark_out, ← mark_right hleft]
  rw [if_neg (show ¬(parentNode left right).flags &&& PARENT = 0 from hflags.1),
    if_neg (show ¬(parentNode left right).root.flags &&& PARENT = 0 from hflags.2)]
  have hroot : (PARENT &&& ROOT != 0) = false ∧ ((PARENT ||| ROOT) &&& ROOT != 0) = true := by decide
  exact ⟨congrArg (onParent · ((left ++ right).getD 32 0)) hroot.1,
    congrArg (onParent · ((left ++ right).getD 32 0)) hroot.2⟩

theorem chunkNode_flags (compress : Compress) (counter : BitVec 64) (flags : BitVec 32) (cv : CV) (start : BitVec 32)
    (chunk : List UInt8) : (chunkNode compress counter flags cv start chunk).flags = flags ||| start ||| CHUNK_END ∨
      (chunkNode compress counter flags cv start chunk).flags = flags ||| 0 ||| CHUNK_END := by
  induction cv, start, chunk using chunkNode.induct compress counter flags with
  | case1 cv start chunk h =>
    rw [chunkNode, if_pos h]
    exact .inl rfl
  | case2 cv start chunk h ih =>
    rw [chunkNode, if_neg h]
    exact .inr (ih.elim id id)

/-- A compression of a chunk has no flag of a parent. -/
theorem leafNode_flags (compress : Compress) (msg : List UInt8) (i : Nat) :
    (leafNode compress msg i).flags &&& PARENT = 0 ∧ (leafNode compress msg i).root.flags &&& PARENT = 0 := by
  have hroot : (leafNode compress msg i).root.flags = (leafNode compress msg i).flags ||| ROOT := rfl
  rw [hroot, leafNode]
  rcases chunkNode_flags compress (BitVec.ofNat 64 i) 0 Blake2.blake2sIv CHUNK_START (chunk msg i) with h | h
  · rw [h]
    decide
  · rw [h]
    decide

theorem mark_chunk {n : Node} (h : n.flags &&& PARENT = 0) :
    mark (n.out (spot onChunk onParent)) = onChunk n.block n.block_len := by
  rw [mark_out, if_pos h]

theorem mark_foldl {trees : List (List UInt8)} (h : ∀ t ∈ trees, t.length = 32) (cv : List UInt8) :
    mark (trees.foldl (fun cv left => (parentNode left cv).root.out (spot onChunk onParent)) cv) =
      (onParent true)^[trees.length] (mark cv) := by
  induction trees generalizing cv with
  | nil => rfl
  | cons left trees ih =>
    rw [List.foldl_cons, ih fun t ht => h t (List.mem_cons_of_mem _ ht), (mark_parent (h left List.mem_cons_self) cv).2]
    rfl

/-- The mark of what `blake3` answers goes through all merges of `blake3_final`. -/
theorem mark_digest (onChunk : List UInt8 → Nat → UInt8) (onParent : Bool → UInt8 → UInt8) (msg buf : List UInt8) :
    mark (digest (spot onChunk onParent) msg buf) =
    (onParent true)^[(Carry.stack (parent (spot onChunk onParent)) (leaf (spot onChunk onParent) msg) 0
    (msg.length / 1024)).length]
      (onChunk (lastBlock (tail msg) ++ stale buf (tail msg)) (lastBlock (tail msg)).length) := by
  have hheld : (heldNode (spot onChunk onParent) msg buf).block_len = (lastBlock (tail msg)).length := by
    rw [heldNode, leafNode, chunk_tail]
    exact (chunkNode_block _ _ _ _ _ _).2
  obtain ⟨hflags, hroot⟩ := leafNode_flags (spot onChunk onParent) msg (msg.length / 1024)
  rw [digest, ← hheld]
  by_cases hk : msg.length / 1024 = 0
  · rw [if_pos hk, hk, Carry.stack_zero]
    exact mark_chunk hroot
  · have hlen : ∀ t ∈ Carry.stack (parent (spot onChunk onParent)) (leaf (spot onChunk onParent) msg) 0
      (msg.length / 1024),
        t.length = 32 :=
      Carry.forall_stack (p := fun t : List UInt8 => t.length = 32) (fun i => length_bytes _) (fun x y =>
        length_bytes _) _ _
    rw [if_neg hk, mark_foldl hlen]
    exact congrArg _ (mark_chunk hflags)

/-- The mark of the right child goes through the parents of the tree. -/
theorem mark_rootNode (hchild : onParent false 0 = 0) {n : Nat}
    (hleaf : ∀ i ≤ n - 1, onChunk (leafNode (spot onChunk onParent) msg i).block
    (leafNode (spot onChunk onParent) msg i).block_len = 0) :
    mark ((rootNode (spot onChunk onParent) msg n).root.out (spot onChunk onParent)) = if n ≤ 1 then 0
    else onParent true 0 := by
  have hmark : ∀ i ≤ n - 1, mark (leaf (spot onChunk onParent) msg i) = 0 := by
    intro i hi
    rw [leaf, mark_chunk (leafNode_flags _ _ _).1]
    exact hleaf i hi
  rw [rootNode]
  by_cases hone : n ≤ 1
  · rw [if_pos hone, if_pos hone, mark_chunk (leafNode_flags _ _ _).2]
    exact hleaf 0 (Nat.zero_le _)
  · have hle := Nat.log2_self_le (n := n - 1) (by omega)
    have hright : mark (Carry.tree (parent (spot onChunk onParent)) (leaf (spot onChunk onParent) msg)
      (2 ^ (n - 1).log2)
        (n - 2 ^ (n - 1).log2)) = 0 := by
      refine (Carry.tree_of (p := fun t : List UInt8 => t.length = 32 ∧ mark t = 0) ?_ (by omega) ?_).2
      · rintro x y ⟨hx, -⟩ ⟨-, hy⟩
        refine ⟨length_bytes _, ?_⟩
        rw [parent, (mark_parent hx y).1, hy, hchild]
      · exact fun i hi => ⟨length_bytes _, hmark i (by omega)⟩
    have hleft : (Carry.tree (parent (spot onChunk onParent)) (leaf (spot onChunk onParent) msg) 0
      (2 ^ (n - 1).log2)).length = 32 :=
      Carry.tree_of (p := fun t : List UInt8 => t.length = 32) (fun x y _ _ => length_bytes _) (Nat.two_pow_pos _)
        fun i _ => length_bytes _
    rw [if_neg hone, if_neg hone, (mark_parent hleft _).2, hright]

end Spot

/-- For the mark of a chunk that goes through every parent. -/
def pass : Bool → UInt8 → UInt8 := fun _ right => right

theorem pass_iterate (n : Nat) (b : UInt8) : (pass true)^[n] b = b := Function.iterate_id n ▸ rfl

/-- A parent other than the root has mark 0, and the root shows whether its right child has. -/
def rooted (root : Bool) (right : UInt8) : UInt8 := if root then if right = 0 then 1 else 2 else 0

section Differs

variable {msg buf : List UInt8}

/-- An empty last block. -/
def emptied (_ : List UInt8) (block_len : Nat) : UInt8 := if block_len = 0 then 1 else 0

/-- Behind a whole last chunk there is an empty one. -/
theorem digest_whole (hmod : msg.length % 1024 = 0) (hne : msg ≠ []) :
    ∃ compress, digest compress msg buf ≠ treeHash compress msg := by
  refine ⟨spot emptied pass, fun heq => ?_⟩
  have hlen := List.length_pos_iff.2 hne
  have htail : tail msg = [] := List.drop_eq_nil_of_le (by omega)
  have hempty : lastBlock [] = [] := by
    rw [lastBlock]
    rfl
  have hmark : emptied ([] ++ stale buf []) ([] : List UInt8).length = 1 := rfl
  have hcode := mark_digest emptied pass msg buf
  rw [heq, treeHash, mark_rootNode rfl, pass_iterate, htail, hempty, hmark] at hcode
  · exact absurd hcode (by split <;> decide)
  · intro i hi
    have hblock := (chunkNode_block (spot emptied pass) (BitVec.ofNat 64 i) 0 Blake2.blake2sIv CHUNK_START
      (chunk msg i)).2
    have hwhole : (lastBlock (chunk msg i)).length = 64 :=
      length_lastBlock (m := 16) (by decide) (chunk_whole (by omega))
    rw [leafNode, hblock, hwhole]
    rfl

/-- A marked byte behind the last block. -/
def unpadded (block : List UInt8) (block_len : Nat) : UInt8 := if ∀ b ∈ block.drop block_len, b = 0 then 0 else 1

theorem digest_stale (hstale : ¬∀ b ∈ stale buf (tail msg), b = 0) :
    ∃ compress, digest compress msg buf ≠ treeHash compress msg := by
  refine ⟨spot unpadded pass, fun heq => ?_⟩
  have hcode := mark_digest unpadded pass msg buf
  have hdrop : (lastBlock (tail msg) ++ stale buf (tail msg)).drop (lastBlock (tail msg)).length =
    stale buf (tail msg) :=
    List.drop_left
  rw [heq, treeHash, mark_rootNode rfl, pass_iterate, unpadded, hdrop, if_neg hstale] at hcode
  · exact absurd hcode (by split <;> decide)
  · intro i _
    obtain ⟨hblock, hlen⟩ := chunkNode_block (spot unpadded pass) (BitVec.ofNat 64 i) 0 Blake2.blake2sIv CHUNK_START
      (chunk msg i)
    rw [leafNode, hblock, hlen, unpadded, List.drop_left]
    exact if_pos fun b hb => List.eq_of_mem_replicate hb

theorem rooted_iterate (n : Nat) : (rooted true)^[n + 2] 0 = 2 := by
  have hpos : ∀ b, rooted true b ≠ 0 := by
    intro b
    rw [rooted, if_pos rfl]
    split <;> decide
  rw [Function.iterate_succ_apply', Function.iterate_succ_apply', rooted, if_pos rfl, if_neg (hpos _)]

/-- With more than one tree on the stack, a parent below the root has the flag of the root. -/
theorem digest_merged (hpos : msg.length / 1024 ≠ 0) (hpow : ¬∃ a, msg.length / 1024 = 2 ^ a) :
    ∃ compress, digest compress msg buf ≠ treeHash compress msg := by
  refine ⟨spot (fun _ _ => 0) rooted, fun heq => ?_⟩
  have hcode := mark_digest (fun _ _ => 0) rooted msg buf
  obtain ⟨m, hm⟩ : ∃ m, (Carry.stack (parent (spot (fun _ _ => 0) rooted)) (leaf (spot (fun _ _ => 0) rooted) msg) 0
      (msg.length / 1024)).length = m + 2 := by
    cases hstack : Carry.stack (parent (spot (fun _ _ => 0) rooted)) (leaf (spot (fun _ _ => 0) rooted) msg) 0
      (msg.length / 1024) with
    | nil => exact absurd ((Carry.stack_eq_nil 0 _).1 hstack) hpos
    | cons x trees =>
      cases trees with
      | nil => exact absurd (Carry.two_pow_of_stack hstack) hpow
      | cons y trees => exact ⟨trees.length, rfl⟩
  have hmany : ¬(msg.length + 1023) / 1024 ≤ 1 := by
    intro hone
    exact hpow ⟨0, by omega⟩
  rw [heq, treeHash, mark_rootNode rfl fun i _ => rfl, hm, rooted_iterate, if_neg hmany] at hcode
  exact absurd hcode (by decide)

end Differs

/-- Over every compression function the answer is the hash of the message, exactly for the messages of `Hashed`. -/
theorem blake3_tree (ctx : Ctx) (tmp : ChunkState) (msg : List UInt8) (hlen : msg.length < 2 ^ 64) :
    (∀ compress, ∃ fuel, blake3 compress ctx tmp fuel msg = some (treeHash compress msg)) ↔
    Hashed ctx.chunk.buf msg := by
  constructor
  · intro hall
    have hsame : ¬∃ compress, digest compress msg ctx.chunk.buf ≠ treeHash compress msg := by
      rintro ⟨compress, hne⟩
      obtain ⟨fuel, hrun⟩ := blake3_eq compress ctx tmp hlen
      obtain ⟨fuel', hrun'⟩ := hall compress
      exact hne (blake3_unique hrun hrun')
    refine ⟨?_, ?_, ?_⟩
    · intro hmod
      by_contra hne
      exact hsame (digest_whole hmod hne)
    · by_contra hpow
      obtain ⟨hpos, hpow⟩ := not_or.1 hpow
      exact hsame (digest_merged hpos hpow)
    · by_contra hstale
      exact hsame (digest_stale hstale)
  · intro h compress
    obtain ⟨fuel, hrun⟩ := blake3_eq compress ctx tmp hlen
    exact ⟨fuel, by rw [hrun, digest_eq ctx.chunk.length_buf h]⟩

/-- A chunk and one byte, with a buffer that was zero. -/
theorem blake3_tree_two_chunks : ∃ fuel,
    blake3 compress blank blank.chunk fuel (List.replicate 1025 0x61) =
    some (treeHash compress (List.replicate 1025 0x61)) := by
  refine (blake3_tree blank blank.chunk _ (by rw [List.length_replicate]; decide)).2 ⟨?_, .inr ⟨0, ?_⟩, ?_⟩ compress
  · rw [List.length_replicate]
    exact fun h => absurd h (by decide)
  · rw [List.length_replicate]
    rfl
  · have htail : tail (List.replicate 1025 0x61) = [0x61] := by
      rw [tail, List.length_replicate, List.drop_replicate]
      rfl
    rw [htail, stale, if_pos (by decide)]
    exact fun b hb => List.eq_of_mem_replicate (List.mem_of_mem_drop hb)

/-- One whole chunk is not hashed right. -/
theorem blake3_tree_whole_chunk : ∃ compress out,
    (∃ fuel, blake3 compress blank blank.chunk fuel (List.replicate 1024 0x61) = some out) ∧
    out ≠ treeHash compress (List.replicate 1024 0x61) := by
  have hwhole : (List.replicate 1024 (0x61 : UInt8)).length % 1024 = 0 := by
    rw [List.length_replicate]
  have hne : List.replicate 1024 (0x61 : UInt8) ≠ [] := List.replicate_succ ▸ List.cons_ne_nil _ _
  obtain ⟨compress, hne⟩ := digest_whole hwhole hne
  exact ⟨compress, _, blake3_eq compress blank blank.chunk (by rw [List.length_replicate]; decide), hne⟩

end JACLibc.Blake3
