import JACLibc.Crypto.Blake3

/-!
# Filling a chunk

A chunk state has read `filled` bytes of its chunk.  It compresses a full buffer when the next byte comes, and so a
chunk of 1024 bytes has 15 compressed blocks and a full buffer, which is not the state that `blake3_update` waits for.
A call that has to go past the end of a chunk that was begun in an earlier call does not return
(`blake3_update_terminates`).
-/

namespace JACLibc.Blake3

/-- The number of bytes of the chunk that were read. -/
def ChunkState.filled (self : ChunkState) : Nat := self.blocks_compressed * BLAKE3_BLOCK_LEN + self.buf_len

/-- The buffer is empty only at the start of a chunk, and there are no more bytes than a chunk has. -/
structure ChunkState.Within (s : ChunkState) : Prop where
  filled_le : s.filled ≤ BLAKE3_CHUNK_LEN
  begun : s.buf_len = 0 → s.blocks_compressed = 0

/-- A context that calls of `blake3_update` lead to. -/
inductive Reached (compress : Compress) : Ctx → Prop
  | init (ctx : Ctx) : Reached compress (blake3Init ctx)
  | initKeyed (ctx : Ctx) (key : CV) : Reached compress (blake3InitKeyed ctx key)
  | update {ctx ctx' : Ctx} (h : Reached compress ctx) (tmp : ChunkState) (fuel : Nat) (input : List UInt8)
      (hrun : blake3Update compress tmp fuel ctx input = some ctx') : Reached compress ctx'

section Chunk

variable {compress : Compress} {self : ChunkState} {input : List UInt8}

@[simp] theorem chunkStateUpdate_nil : chunkStateUpdate compress self [] = self := by
  rw [chunkStateUpdate, if_pos rfl]

theorem chunkStateUpdate_step (h : input ≠ []) : chunkStateUpdate compress self input =
    chunkStateUpdate compress ((self.ready compress).append _ ((self.ready compress).take_le input))
      (input.drop (BLAKE3_BLOCK_LEN - (self.ready compress).buf_len)) := by
  rw [chunkStateUpdate, if_neg h]

theorem ChunkState.filled_ready : (self.ready compress).filled = self.filled := by
  rw [ready]
  split
  · next h =>
    rw [filled, filled, h]
    exact Nat.succ_mul _ _
  · rfl

theorem filled_update : (chunkStateUpdate compress self input).filled = self.filled + input.length := by
  induction self, input using chunkStateUpdate.induct compress with
  | case1 self => rw [chunkStateUpdate_nil, List.length_nil, Nat.add_zero]
  | case2 self input h ready want ih =>
    have hready : ready.filled = self.filled := ChunkState.filled_ready
    have happend : (ready.append _ (ready.take_le input)).filled = ready.filled + (input.take want).length :=
      (Nat.add_assoc _ _ _).symm
    have hlen := congrArg List.length (List.take_append_drop want input)
    rw [List.length_append] at hlen
    rw [chunkStateUpdate_step h]
    refine ih.trans ?_
    rw [happend, hready, Nat.add_assoc, hlen]

/-- Whoever has read something has something in the buffer. -/
theorem buf_len_update (h : input ≠ []) : 0 < (chunkStateUpdate compress self input).buf_len := by
  induction self, input using chunkStateUpdate.induct compress with
  | case1 self => exact absurd rfl h
  | case2 self input hne ready want ih =>
    have hlt : ready.buf_len < BLAKE3_BLOCK_LEN := self.ready_lt compress
    have hpos := List.length_pos_iff.2 hne
    rw [chunkStateUpdate_step hne]
    by_cases hrest : input.drop want = []
    · refine Nat.lt_of_lt_of_eq ?_ (congrArg ChunkState.buf_len (hrest ▸ chunkStateUpdate_nil)).symm
      change 0 < ready.buf_len + (input.take want).length
      rw [List.length_take]
      omega
    · exact ih hrest

theorem ChunkState.Within.update (h : self.Within) (hfits : self.filled + input.length ≤ BLAKE3_CHUNK_LEN) :
    (chunkStateUpdate compress self input).Within := by
  refine ⟨by rw [filled_update]; exact hfits, fun hbuf => ?_⟩
  by_cases hne : input = []
  · subst hne
    rw [chunkStateUpdate_nil] at hbuf ⊢
    exact h.begun hbuf
  · exact absurd hbuf (Nat.ne_of_gt (buf_len_update hne))

theorem ChunkState.Within.begins (h : self.Within) : self.filled = 0 ↔ self.buf_len = 0 ∧
    self.blocks_compressed = 0 := by
  constructor
  · intro hzero
    have hbuf := (Nat.add_eq_zero_iff.1 hzero).2
    exact ⟨hbuf, h.begun hbuf⟩
  · rintro ⟨hbuf, hblocks⟩
    rw [filled, hbuf, hblocks]
    rfl

theorem ChunkState.Within.open (h : self.Within) : ¬(self.buf_len = 0 ∧ self.blocks_compressed = 16) := by
  rintro ⟨hbuf, hblocks⟩
  rw [h.begun hbuf] at hblocks
  exact absurd hblocks (by decide)

end Chunk

/-! ### The loop of `blake3_update` -/

section Update

variable {compress : Compress} {tmp : ChunkState} {ctx ctx' : Ctx} {input : List UInt8}

/-- What a turn does with a full chunk of input. -/
def wholeChunk (compress : Compress) (tmp : ChunkState) (ctx : Ctx) (input : List UInt8) : ChunkState :=
  chunkStateUpdate compress { chunkStateInit tmp ctx.key ctx.chunk.flags with chunk_counter := ctx.chunk.chunk_counter }
    (input.take BLAKE3_CHUNK_LEN)

/-- The context behind it. -/
def afterChunk (compress : Compress) (tmp : ChunkState) (ctx : Ctx) (input : List UInt8) : Ctx :=
  let ctx := addChunkCv compress ctx (chunkStateOutput compress (wholeChunk compress tmp ctx input))
    (ctx.chunk.chunk_counter + 1)
  { ctx with chunk := { ctx.chunk with chunk_counter := ctx.chunk.chunk_counter + 1 } }

theorem update_whole (fuel : Nat) (hbegins : ctx.chunk.buf_len = 0 ∧ ctx.chunk.blocks_compressed = 0)
    (hlen : BLAKE3_CHUNK_LEN ≤ input.length) : blake3Update compress tmp (fuel + 1) ctx input =
      blake3Update compress (wholeChunk compress tmp ctx input) fuel (afterChunk compress tmp ctx input)
      (input.drop BLAKE3_CHUNK_LEN) := by
  have hne : input ≠ [] := by
    rintro rfl
    exact absurd hlen (by decide)
  rw [blake3Update, if_neg hne, if_pos ⟨hbegins.1, hbegins.2, hlen⟩]
  rfl

/-- What a turn adds to the chunk in progress stays in it. -/
theorem update_part (fuel : Nat) (h : ctx.chunk.Within) (hne : input ≠ [])
    (hpart : ¬(ctx.chunk.filled = 0 ∧ BLAKE3_CHUNK_LEN ≤ input.length)) :
    blake3Update compress tmp (fuel + 1) ctx input =
      blake3Update compress tmp fuel
        { ctx with chunk := chunkStateUpdate compress ctx.chunk (input.take (BLAKE3_CHUNK_LEN - ctx.chunk.filled)) }
        (input.drop (BLAKE3_CHUNK_LEN - ctx.chunk.filled)) := by
  have hfits : ctx.chunk.filled + (input.take (BLAKE3_CHUNK_LEN - ctx.chunk.filled)).length ≤ BLAKE3_CHUNK_LEN := by
    have := h.filled_le
    rw [List.length_take]
    omega
  have hpart' : ¬(ctx.chunk.buf_len = 0 ∧ ctx.chunk.blocks_compressed = 0 ∧ input.length ≥ BLAKE3_CHUNK_LEN) := by
    rintro ⟨hbuf, hblocks, hlen⟩
    exact hpart ⟨h.begins.2 ⟨hbuf, hblocks⟩, hlen⟩
  rw [blake3Update, if_neg hne, if_neg hpart']
  exact congrArg (blake3Update compress tmp fuel · _) (if_neg (h.update hfits).open)

theorem update_nil (fuel : Nat) : blake3Update compress tmp (fuel + 1) ctx [] = some ctx := by
  rw [blake3Update, if_pos rfl]

/-- An input that ends in the chunk in progress is taken in one turn. -/
theorem update_within (h : ctx.chunk.Within) (hfits : ctx.chunk.filled + input.length ≤ BLAKE3_CHUNK_LEN)
    (hpart : ¬(ctx.chunk.filled = 0 ∧ BLAKE3_CHUNK_LEN ≤ input.length)) :
    blake3Update compress tmp 2 ctx input = some { ctx with chunk := chunkStateUpdate compress ctx.chunk input } := by
  by_cases hne : input = []
  · subst hne
    rw [update_nil, chunkStateUpdate_nil]
  · rw [update_part 1 h hne hpart, List.take_of_length_le (by omega), List.drop_eq_nil_of_le (by omega), update_nil]

/-- With a full chunk in progress, a turn changes nothing. -/
theorem update_stuck (h : ctx.chunk.Within) (hfull : ctx.chunk.filled = BLAKE3_CHUNK_LEN) (hne : input ≠ [])
    (fuel : Nat) :
    blake3Update compress tmp fuel ctx input = none := by
  induction fuel with
  | zero => rfl
  | succ fuel ih =>
    have hpart : ¬(ctx.chunk.filled = 0 ∧ BLAKE3_CHUNK_LEN ≤ input.length) := by
      rintro ⟨hzero, -⟩
      exact absurd (hfull.symm.trans hzero) (by decide)
    rw [update_part fuel h hne hpart, hfull, Nat.sub_self, List.take_zero, List.drop_zero, chunkStateUpdate_nil]
    exact ih

/-- From the start of a chunk, every input is read to its end. -/
theorem update_returns (h : ctx.chunk.Within) (hzero : ctx.chunk.filled = 0) :
    ∃ fuel ctx', blake3Update compress tmp fuel ctx input = some ctx' := by
  obtain ⟨n, hn⟩ : ∃ n, input.length = n := ⟨_, rfl⟩
  induction n using Nat.strong_induction_on generalizing ctx tmp input with
  | _ n ih =>
    by_cases hlen : BLAKE3_CHUNK_LEN ≤ input.length
    · have hless : (input.drop BLAKE3_CHUNK_LEN).length < n := by
        rw [List.length_drop, ← hn]
        exact Nat.sub_lt (Nat.lt_of_lt_of_le (by decide) hlen) (by decide)
      have hafter : (afterChunk compress tmp ctx input).chunk.Within := ⟨h.filled_le, h.begun⟩
      obtain ⟨fuel, ctx', hrun⟩ := ih _ hless hafter hzero rfl
      exact ⟨fuel + 1, ctx', by rw [update_whole fuel (h.begins.1 hzero) hlen]; exact hrun⟩
    · exact ⟨2, _, update_within h (by omega) fun hpart => hlen hpart.2⟩

/-- What a call returns has again a chunk in progress that is within bounds. -/
theorem within_update (fuel : Nat) (h : ctx.chunk.Within)
    (hrun : blake3Update compress tmp fuel ctx input = some ctx') :
    ctx'.chunk.Within := by
  induction fuel generalizing ctx tmp input with
  | zero => exact absurd hrun (by simp [blake3Update])
  | succ fuel ih =>
    by_cases hne : input = []
    · subst hne
      rw [update_nil] at hrun
      obtain rfl := Option.some.inj hrun
      exact h
    · by_cases hwhole : ctx.chunk.filled = 0 ∧ BLAKE3_CHUNK_LEN ≤ input.length
      · rw [update_whole fuel (h.begins.1 hwhole.1) hwhole.2] at hrun
        have hafter : (afterChunk compress tmp ctx input).chunk.Within := ⟨h.filled_le, h.begun⟩
        exact ih hafter hrun
      · rw [update_part fuel h hne hwhole] at hrun
        refine ih (h.update ?_) hrun
        have := h.filled_le
        rw [List.length_take]
        omega

/-- An input that goes past the end of a chunk in progress: one turn fills the chunk, and all later ones find it full.
-/
theorem update_past (h : ctx.chunk.Within) (hbegun : ctx.chunk.filled ≠ 0)
    (hover : BLAKE3_CHUNK_LEN < ctx.chunk.filled + input.length) (fuel : Nat) :
    blake3Update compress tmp fuel ctx input = none := by
  have hle := h.filled_le
  cases fuel with
  | zero => rfl
  | succ fuel =>
    have hne : input ≠ [] := by
      rintro rfl
      exact absurd hover (Nat.not_lt.2 hle)
    have htake : (input.take (BLAKE3_CHUNK_LEN - ctx.chunk.filled)).length = BLAKE3_CHUNK_LEN - ctx.chunk.filled :=
      List.length_take_of_le (by omega)
    have hrest : input.drop (BLAKE3_CHUNK_LEN - ctx.chunk.filled) ≠ [] := by
      intro hnil
      have := List.drop_eq_nil_iff.1 hnil
      omega
    rw [update_part fuel h hne fun hpart => hbegun hpart.1]
    exact update_stuck (h.update (by omega)) (by rw [filled_update]; omega) hrest fuel

theorem Reached.within (h : Reached compress ctx) : ctx.chunk.Within := by
  induction h with
  | init ctx => exact ⟨Nat.zero_le _, fun _ => rfl⟩
  | initKeyed ctx key => exact ⟨Nat.zero_le _, fun _ => rfl⟩
  | update h tmp fuel input hrun ih => exact within_update fuel ih hrun

end Update

/-- In every context that calls lead to, a further call returns exactly if no chunk is in progress or the input ends
in it. -/
theorem blake3_update_terminates {compress : Compress} {ctx : Ctx} (h : Reached compress ctx) (tmp : ChunkState)
    (input : List UInt8) :
    (∃ fuel ctx', blake3Update compress tmp fuel ctx input = some ctx') ↔
      ctx.chunk.filled = 0 ∨ ctx.chunk.filled + input.length ≤ BLAKE3_CHUNK_LEN := by
  have hwithin := h.within
  constructor
  · rintro ⟨fuel, ctx', hrun⟩
    by_contra hover
    obtain ⟨hbegun, hlong⟩ := not_or.1 hover
    rw [update_past hwithin hbegun (Nat.lt_of_not_le hlong)] at hrun
    exact absurd hrun (by simp)
  · rintro (hzero | hfits)
    · exact update_returns hwithin hzero
    · by_cases hzero : ctx.chunk.filled = 0
      · exact update_returns hwithin hzero
      · exact ⟨2, _, update_within hwithin hfits fun hpart => hzero hpart.1⟩

/-- A context that was zero before `blake3_init`. -/
def blank : Ctx := blake3Init ⟨Vector.replicate 8 0, ⟨Vector.replicate 8 0, 0, List.replicate 64 0, 0, 0, 0, rfl,
    Nat.zero_le _⟩, []⟩

/-- A context in which one byte was read. -/
def oneByte : Ctx := { blank with chunk := chunkStateUpdate compress blank.chunk [0x61] }

theorem oneByte_reached : Reached compress oneByte := by
  refine .update (.init _) blank.chunk 2 [0x61] (update_within ⟨Nat.zero_le _, fun _ => rfl⟩ ?_ fun h =>
    absurd h.2 (by decide))
  exact (show (1 : Nat) ≤ 1024 by decide)

theorem blake3_update_one_byte : ∃ fuel ctx', blake3Update compress blank.chunk fuel oneByte (List.replicate 1023 0) =
    some ctx' :=
  (blake3_update_terminates oneByte_reached blank.chunk _).2 (.inr (by
    have hfilled : oneByte.chunk.filled = 1 := filled_update
    rw [hfilled, List.length_replicate]
    decide))

/-- After one byte, a call with a whole chunk does not return. -/
theorem blake3_update_past_end :
    Reached compress oneByte ∧ ¬∃ fuel ctx', blake3Update compress blank.chunk fuel oneByte (List.replicate 1024 0) =
    some ctx' := by
  have hfilled : oneByte.chunk.filled = 1 := filled_update
  refine ⟨oneByte_reached, ?_⟩
  rintro ⟨fuel, ctx', hrun⟩
  rw [update_past oneByte_reached.within (by rw [hfilled]; decide) (by rw [hfilled, List.length_replicate]; decide)]
    at hrun
  exact absurd hrun (by simp)

end JACLibc.Blake3
