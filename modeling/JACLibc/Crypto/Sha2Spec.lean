import JACLibc.Crypto.Sha2

/-!
# SHA-2 of a message in pieces

While a message is read, the context holds its whole blocks in `state`, the bytes after them at the front of `buf` and
the bits of the blocks in `bitlen`.  `final` then runs the one or two blocks that are left of the padded message.
-/

namespace JACLibc.Sha2

open Blocks

/-- `p` is the message `m` with its padding, for blocks of `n` bytes and a length of `k`: the byte 0x80, the least
number of zeros, and the length in bits. -/
def Padded (n k : Nat) (m p : List UInt8) : Prop :=
  ∃ z, IsLeast {z | n ∣ m.length + 1 + z + k} z ∧ p = m ++ 0x80 :: List.replicate z 0 ++ Bytes.be k (8 * m.length)

theorem Padded.unique {n k : Nat} {m p q : List UInt8} (hp : Padded n k m p) (hq : Padded n k m q) : p = q := by
  obtain ⟨y, hy, rfl⟩ := hp
  obtain ⟨z, hz, rfl⟩ := hq
  rw [hy.unique hz]

/-- The counter of a core counts the bits modulo `256^k`, and is stored in `k` bytes at the end of a block. -/
structure Core.Counts {w : Nat} {C : Type} (core : Core w C) (k : Nat) (value : C → Nat) : Prop where
  last : core.last + k = core.block
  pos : 0 < core.last
  blockBits : core.blockBits.toNat = 8 * core.block
  zero : value core.zero = 0
  add : ∀ c n, value (core.add c n) = (value c + n.toNat) % 256 ^ k
  store : ∀ c, core.store c = Bytes.be k (value c)

theorem counts32 (transform32 : State 32 → List UInt8 → State 32) : (core32 transform32).Counts 8 BitVec.toNat where
  last := rfl
  pos := Nat.succ_pos _
  blockBits := rfl
  zero := rfl
  add c n := BitVec.toNat_add c n
  store _ := rfl

/-- The two words of `bitlen` as one number. -/
def bitlenValue (bitlen : BitVec 64 × BitVec 64) : Nat := bitlen.1.toNat + 2 ^ 64 * bitlen.2.toNat

theorem counts64 (transform64 : State 64 → List UInt8 → State 64) : (core64 transform64).Counts 16 bitlenValue where
  last := rfl
  pos := Nat.succ_pos _
  blockBits := rfl
  zero := rfl
  add := by
    intro c n
    have h1 := c.1.isLt
    have h2 := c.2.isLt
    have hn := n.isLt
    simp only [core64, bitlenValue, BitVec.lt_def]
    split
    · rw [BitVec.toNat_add] at *
      rw [BitVec.toNat_add, show (1 : BitVec 64).toNat = 1 from rfl]
      omega
    · rw [BitVec.toNat_add] at *
      omega
  store := by
    intro c
    have h1 := c.1.isLt
    change _ = Bytes.be (8 + 8) _
    rw [Bytes.be_add, ← Bytes.be_mod 8 (bitlenValue c)]
    have hhi : bitlenValue c / 256 ^ 8 = c.2.toNat := by
      unfold bitlenValue
      omega
    have hlo : bitlenValue c % 256 ^ 8 = c.1.toNat := by
      unfold bitlenValue
      omega
    rw [hhi, hlo]
    rfl

section Core

variable {w : Nat} {C : Type} {core : Core w C}

theorem zeros_spec (ctx : Ctx core) {pre rest : List UInt8} {i n : Nat} (hbuf : ctx.buf = pre ++ rest)
    (hi : pre.length = i) (hn : n ≤ core.block) :
    (ctx.zeros i n).buf = pre ++ List.replicate (n - i) 0 ++ rest.drop (n - i) := by
  have hlength : pre.length + rest.length = core.block := by
    rw [← ctx.length_buf, hbuf, List.length_append]
  change Buffer.write ctx.buf i (List.replicate (n - i) 0) = _
  rw [hbuf, ← hi, Buffer.write_front (by rw [List.length_replicate]; omega), List.length_replicate]

/-! ### The message so far -/

variable {k : Nat} {value : C → Nat} (iv : State w)

/-- The context after the message `whole ++ tail`. -/
structure Absorbed (k : Nat) (value : C → Nat) (ctx : Ctx core) (whole tail : List UInt8) : Prop where
  blocks : core.block ∣ whole.length
  short : tail.length < core.block
  len : ctx.len = tail.length
  front : tail <+: ctx.buf
  state : ctx.state = foldBlocks core.transform core.block iv whole
  bits : value ctx.bitlen = 8 * whole.length % 256 ^ k

variable {iv} {ctx : Ctx core} {whole tail : List UInt8}

theorem absorbed_init (hcore : core.Counts k value) (ctx : Ctx core) : Absorbed iv k value (init ctx iv) [] [] where
  blocks := Nat.dvd_zero _
  short := by
    have := hcore.last
    have := hcore.pos
    rw [List.length_nil]
    omega
  len := rfl
  front := List.nil_prefix
  state := (foldBlocks_nil _ _ _).symm
  bits := by
    rw [List.length_nil, Nat.mul_zero, Nat.zero_mod]
    exact hcore.zero

/-- A byte goes behind the tail, which becomes a block when it is full. -/
theorem Absorbed.turn (hcore : core.Counts k value) (h : Absorbed iv k value ctx whole tail) (b : UInt8) :
    ∃ whole' tail', whole' ++ tail' = whole ++ tail ++ [b] ∧ Absorbed iv k value (turn ctx b) whole' tail' := by
  obtain ⟨rest, hrest⟩ := h.front
  have hshort := h.short
  have hlength : tail.length + rest.length = core.block := by
    rw [← ctx.length_buf, ← hrest, List.length_append]
  obtain ⟨c, rest, rfl⟩ := List.exists_cons_of_ne_nil (show rest ≠ [] by rintro rfl; simp at hlength; omega)
  have hput : (ctx.write ctx.len [b]).buf = tail ++ [b] ++ rest := by
    change Buffer.write ctx.buf ctx.len [b] = _
    rw [h.len, ← hrest, Buffer.write_front (Nat.le_add_left 1 _)]
    rfl
  rw [List.length_cons] at hlength
  unfold Sha2.turn
  by_cases hfull : tail.length + 1 = core.block
  · have hnil : rest = [] := List.length_eq_zero_iff.1 (by omega)
    subst hnil
    rw [List.append_nil] at hput
    have hblock : (tail ++ [b]).length = core.block := by simpa using hfull
    refine ⟨whole ++ (tail ++ [b]), [], by simp, ?_⟩
    rw [if_pos (show ctx.len + 1 = core.block by rw [h.len]; exact hfull)]
    refine ⟨?_, by simpa using (by omega : 0 < core.block), rfl, List.nil_prefix, ?_, ?_⟩
    · rw [List.length_append, hblock]
      exact Nat.dvd_add_self_right.2 h.blocks
    · change core.transform ctx.state (ctx.write ctx.len [b]).buf = _
      rw [hput, h.state, foldBlocks_concat _ (by omega) h.blocks _ hblock]
    · change value (core.add ctx.bitlen core.blockBits) = _
      rw [hcore.add, hcore.blockBits, h.bits, List.length_append, hblock, Nat.mod_add_mod, Nat.mul_add]
  · refine ⟨whole, tail ++ [b], by simp, ?_⟩
    rw [if_neg (show ¬ctx.len + 1 = core.block by rw [h.len]; exact hfull)]
    refine ⟨h.blocks, by simp; omega, by simp [h.len], ?_, h.state, h.bits⟩
    exact ⟨rest, hput.symm⟩

theorem Absorbed.update (hcore : core.Counts k value) (data : List UInt8) :
    ∀ {ctx : Ctx core} {whole tail}, Absorbed iv k value ctx whole tail →
      ∃ whole' tail', whole' ++ tail' = whole ++ tail ++ data ∧ Absorbed iv k value (update ctx data) whole' tail' := by
  induction data with
  | nil =>
    intro ctx whole tail h
    exact ⟨whole, tail, by simp, h⟩
  | cons b data ih =>
    intro ctx whole tail h
    obtain ⟨whole₁, tail₁, heq₁, h₁⟩ := h.turn hcore b
    obtain ⟨whole₂, tail₂, heq₂, h₂⟩ := ih h₁
    exact ⟨whole₂, tail₂, by rw [heq₂, heq₁]; simp, h₂⟩

/-! ### The padding -/

/-- The least number of zeros after `t` bytes of the last block, for a length of `k` bytes. -/
theorem isLeast_zeros {n k last t a : Nat} (hlast : last + k = n) (ha : n ∣ a) (ht : t < n) :
    IsLeast {z | n ∣ a + t + 1 + z + k} (if t + 1 > last then n - (t + 1) + last else last - (t + 1)) := by
  have hmem : ∀ z, n ∣ a + t + 1 + z + k ↔ n ∣ t + 1 + z + k := by
    intro z
    rw [show a + t + 1 + z + k = a + (t + 1 + z + k) by omega]
    exact Nat.dvd_add_right ha
  constructor
  · rw [Set.mem_ofPred_eq, hmem]
    split
    · exact ⟨2, by omega⟩
    · exact ⟨1, by omega⟩
  · intro z hz
    rw [Set.mem_ofPred_eq, hmem] at hz
    obtain ⟨c, hc⟩ := hz
    -- the bytes from the start of the block on are one block where they fit, and two otherwise
    split
    · have hc2 : 2 ≤ c := by
        by_contra hlt
        have := Nat.mul_le_mul_left n (show c ≤ 1 by omega)
        omega
      have := Nat.mul_le_mul_left n hc2
      omega
    · have hc1 : 1 ≤ c := by
        by_contra hlt
        have := Nat.mul_le_mul_left n (show c ≤ 0 by omega)
        omega
      have := Nat.mul_le_mul_left n hc1
      omega

/-- What `pad` leaves: `front` up to the length, and every block before it in `state`. -/
theorem Absorbed.pad (hcore : core.Counts k value) (h : Absorbed iv k value ctx whole tail) :
    ∃ z blocks front post, IsLeast {z | core.block ∣ (whole ++ tail).length + 1 + z + k} z ∧
      whole ++ tail ++ 0x80 :: List.replicate z 0 = blocks ++ front ∧ core.block ∣ blocks.length ∧
      front.length = core.last ∧ (pad ctx).buf = front ++ post ∧
      (pad ctx).state = foldBlocks core.transform core.block iv blocks ∧ (pad ctx).bitlen = ctx.bitlen ∧
      (pad ctx).len = tail.length := by
  obtain ⟨rest, hrest⟩ := h.front
  have hshort := h.short
  have hlast := hcore.last
  have hlength : tail.length + rest.length = core.block := by
    rw [← ctx.length_buf, ← hrest, List.length_append]
  obtain ⟨c, rest, rfl⟩ := List.exists_cons_of_ne_nil (show rest ≠ [] by rintro rfl; simp at hlength; omega)
  rw [List.length_cons] at hlength
  have hput : (ctx.write ctx.len [0x80]).buf = tail ++ [0x80] ++ rest := by
    change Buffer.write ctx.buf ctx.len [0x80] = _
    rw [h.len, ← hrest, Buffer.write_front (Nat.le_add_left 1 _)]
    rfl
  have hleast := isLeast_zeros hlast h.blocks hshort
  rw [← List.length_append] at hleast
  have hpre : (tail ++ [(0x80 : UInt8)]).length = ctx.len + 1 := by simp [h.len]
  unfold Sha2.pad
  by_cases htwo : tail.length + 1 > core.last
  · -- the length does not fit behind the tail, which is a block of its own with its zeros
    rw [if_pos htwo] at hleast
    rw [if_pos (show ctx.len + 1 > core.last by rw [h.len]; exact htwo)]
    have hbuf₁ := zeros_spec (ctx.write ctx.len [0x80]) hput hpre (Nat.le_refl _)
    rw [h.len, List.drop_of_length_le (by omega), List.append_nil] at hbuf₁
    have hblock : (tail ++ [0x80] ++ List.replicate (core.block - (tail.length + 1)) (0 : UInt8)).length =
      core.block := by
      simp
      omega
    have hbuf₂ := zeros_spec (transform ((ctx.write ctx.len [0x80]).zeros (ctx.len + 1) core.block))
      (List.nil_append _).symm
      List.length_nil (show core.last ≤ core.block by omega)
    rw [List.nil_append, Nat.sub_zero] at hbuf₂
    refine ⟨_, whole ++ (tail ++ [0x80] ++ List.replicate (core.block - (tail.length + 1)) 0), _, _, hleast, ?_, ?_,
      ?_, hbuf₂, ?_, rfl, h.len⟩
    · simp
    · rw [List.length_append, hblock]
      exact Nat.dvd_add_self_right.2 h.blocks
    · simp
    · rw [foldBlocks_concat _ (by omega) h.blocks _ hblock, ← h.state, ← hbuf₁, ← h.len]
      rfl
  · rw [if_neg htwo] at hleast
    rw [if_neg (show ¬ctx.len + 1 > core.last by rw [h.len]; exact htwo)]
    have hbuf₁ := zeros_spec (ctx.write ctx.len [0x80]) hput hpre (show core.last ≤ core.block by omega)
    rw [← h.len] at hleast
    refine ⟨_, whole, _, _, hleast, ?_, h.blocks, ?_, hbuf₁, h.state, rfl, h.len⟩
    · simp
    · rw [List.length_append, hpre, List.length_replicate, h.len]
      omega

/-- `final` answers with the fold over the blocks of the padded message. -/
theorem Absorbed.final (hcore : core.Counts k value) (h : Absorbed iv k value ctx whole tail) :
    ∃ p, Padded core.block k (whole ++ tail) p ∧
    final ctx = stateBytes (foldBlocks core.transform core.block iv p) := by
  obtain ⟨z, blocks, front, post, hleast, hp, hblocks, hfront, hbuf, hstate, hbits, hlen⟩ := h.pad hcore
  have hshort := h.short
  have hlast := hcore.last
  have hpost : post.length = k := by
    have hsize := (Sha2.pad ctx).length_buf
    rw [hbuf, List.length_append] at hsize
    omega
  -- the bits of the whole blocks and of the tail, as the core counts them
  have hcount : core.store (Sha2.pad ctx).addTail.bitlen = Bytes.be k (8 * (whole ++ tail).length) := by
    have hmod : (BitVec.ofNat 64 (tail.length * 8)).toNat = tail.length * 8 := by
      have hbb := hcore.blockBits
      have hlt := core.blockBits.isLt
      rw [BitVec.toNat_ofNat, Nat.mod_eq_of_lt (by omega)]
    rw [hcore.store, Ctx.addTail, hcore.add, hlen, hbits, h.bits, hmod, Nat.mod_add_mod, Bytes.be_mod,
      List.length_append, Nat.mul_add, Nat.mul_comm tail.length]
  refine ⟨_, ⟨z, hleast, rfl⟩, ?_⟩
  have hbuf' : ((Sha2.pad ctx).addTail.write core.last (Bytes.be k (8 * (whole ++ tail).length))).buf =
      front ++ Bytes.be k (8 * (whole ++ tail).length) := by
    change Buffer.write (Sha2.pad ctx).buf _ _ = _
    rw [hbuf, ← hfront, Buffer.write_front (by rw [Bytes.length_be, hpost]), Bytes.length_be,
      List.drop_of_length_le (Nat.le_of_eq hpost), List.append_nil]
  have hblock : (front ++ Bytes.be k (8 * (whole ++ tail).length)).length = core.block := by
    rw [List.length_append, Bytes.length_be]
    omega
  rw [hp, List.append_assoc blocks, foldBlocks_concat _ (by omega) hblocks _ hblock, ← hstate, ← hbuf']
  simp only [Sha2.final, hcount]
  rfl

/-- The calls `NAME_init`, `NAME_update` on each piece in turn, `NAME_final`. -/
def stream (ctx : Ctx core) (v : Variant w) (pieces : List (List UInt8)) : List UInt8 :=
  v.final (pieces.foldl update (v.init ctx))

theorem update_flatten (pieces : List (List UInt8)) (ctx : Ctx core) :
    pieces.foldl update ctx = update ctx pieces.flatten := by
  unfold update
  rw [List.foldl_flatten]

theorem digest_spec (hcore : core.Counts k value) (v : Variant w) (ctx : Ctx core) (m : List UInt8) :
    ∃ p, Padded core.block k m p ∧
      v.digest ctx m = (stateBytes (foldBlocks core.transform core.block v.iv p)).take v.digestBytes := by
  obtain ⟨whole, tail, heq, h⟩ :=
    (show Absorbed v.iv k value (init ctx v.iv) [] [] from absorbed_init hcore ctx).update hcore m
  obtain ⟨p, hp, hfinal⟩ := h.final hcore
  rw [heq] at hp
  exact ⟨p, hp, by rw [← hfinal]; rfl⟩

theorem stream_spec (hcore : core.Counts k value) (v : Variant w) (ctx ctx' : Ctx core) (pieces : List (List UInt8)) :
    ∃ p, Padded core.block k pieces.flatten p ∧
      stream ctx v pieces = (stateBytes (foldBlocks core.transform core.block v.iv p)).take v.digestBytes ∧
      stream ctx v pieces = v.digest ctx' pieces.flatten := by
  have hstream : stream ctx v pieces = v.digest ctx pieces.flatten := by
    unfold stream
    rw [update_flatten]
    rfl
  obtain ⟨p, hp, hdigest⟩ := digest_spec hcore v ctx pieces.flatten
  obtain ⟨p', hp', hdigest'⟩ := digest_spec hcore v ctx' pieces.flatten
  refine ⟨p, hp, ?_, ?_⟩
  · rw [hstream, hdigest]
  · rw [hstream, hdigest, hdigest', hp.unique hp']

end Core

/-- Every variant, on every message in any pieces, whatever the context held before: the digest is that of the whole
message, the first bytes of the compression function folded over the blocks of the padded message.  (A message too
long for the length field has the low bytes of its length there.) -/
theorem sha2_streaming :
    (∀ (transform32 : State 32 → List UInt8 → State 32), ∀ v ∈ [sha224, sha256], ∀ (ctx ctx' : Ctx (core32 transform32))
      (pieces : List (List UInt8)), ∃ p, Padded 64 8 pieces.flatten p ∧
        stream ctx v pieces = (stateBytes (foldBlocks transform32 64 v.iv p)).take v.digestBytes ∧
        stream ctx v pieces = v.digest ctx' pieces.flatten) ∧
    (∀ (transform64 : State 64 → List UInt8 → State 64), ∀ v ∈ [sha384, sha512, sha512_224, sha512_256],
      ∀ (ctx ctx' : Ctx (core64 transform64)) (pieces : List (List UInt8)), ∃ p, Padded 128 16 pieces.flatten p ∧
        stream ctx v pieces = (stateBytes (foldBlocks transform64 128 v.iv p)).take v.digestBytes ∧
        stream ctx v pieces = v.digest ctx' pieces.flatten) := by
  constructor
  · intro transform32 v _ ctx ctx' pieces
    exact stream_spec (counts32 transform32) v ctx ctx' pieces
  · intro transform64 v _ ctx ctx' pieces
    exact stream_spec (counts64 transform64) v ctx ctx' pieces

/-- A context on the stack, and the message `abc` in three pieces. -/
theorem sha2_streaming_abc :
    let ctx : Ctx (core32 transform32) := ⟨sha224.iv, 7, List.replicate 64 0xAA, 9, rfl⟩
    ∃ p, Padded 64 8 [0x61, 0x62, 0x63] p ∧
      stream ctx sha256 [[0x61], [], [0x62, 0x63]] = (stateBytes (foldBlocks transform32 64 sha256.iv p)).take 32 ∧
      stream ctx sha256 [[0x61], [], [0x62, 0x63]] = sha256.digest ctx [0x61, 0x62, 0x63] ∧
      sha256.digest ctx [0x61, 0x62, 0x63] =
      Bytes.be 32 0xba7816bf8f01cfea414140de5dae2223b00361a396177a9cb410ff61f20015ad := by
  intro ctx
  obtain ⟨p, hp, hdigest, hwhole⟩ := sha2_streaming.1 transform32 sha256 (by simp) ctx ctx [[0x61], [], [0x62, 0x63]]
  exact ⟨p, hp, hdigest, hwhole, by decide +kernel⟩

end JACLibc.Sha2
