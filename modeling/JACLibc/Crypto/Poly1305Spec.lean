import JACLibc.Crypto.Poly1305
import JACLibc.Lib.Blocks
import Mathlib.Data.List.GetD

/-!
# Poly1305 against its definition

The code reads a message in pieces as it reads it whole (`mac_eq`).  Its tag is not the one RFC 8439 defines: `select`
takes `h + 5` where `h` is meant whenever the last limb is below four, so a message whose accumulator is zero gets a
tag that is five too high; and the two halves of the tag are packed from 52 bits, so that a right tag has zeros above
them.
-/

namespace JACLibc.Poly1305

open Blocks

/-! ### The definition of RFC 8439 -/

/-- The modulus. -/
def prime : Nat := 2 ^ 130 - 5

/-- `r`, clamped. -/
def rOf (key : Key) : Nat := Bytes.ofLe (key.1.take 16) &&& 0x0ffffffc0ffffffc0ffffffc0fffffff

/-- `s` -/
def sOf (key : Key) : Nat := Bytes.ofLe (key.1.drop 16)

/-- The blocks `c_1, ..., c_q`, each with a one behind its last byte, times `r^q, ..., r^1`. -/
def blockSum (r : Nat) : List (List UInt8) → Nat
  | [] => 0
  | c :: cs => Bytes.ofLe (c ++ [1]) * r ^ (cs.length + 1) + blockSum r cs

/-- The accumulator after the last block. -/
def accumulator (key : Key) (m : List UInt8) : Nat := blockSum (rOf key) (m.toChunks 16) % prime

def rfcTag (key : Key) (m : List UInt8) : List UInt8 := Bytes.le 16 (accumulator key m + sOf key)

/-! ### Reading in pieces -/

section Pieces

/-- The context after the message `whole ++ tail`. -/
structure Absorbed (key : Key) (ctx : Ctx) (whole tail : List UInt8) : Prop where
  r : ctx.r = (init key).r
  pad : ctx.pad = (init key).pad
  blocks : 16 ∣ whole.length
  short : tail.length < 16
  len : ctx.len = tail.length
  front : tail <+: ctx.buf
  h : ctx.h = foldBlocks (block (init key).r) 16 (init key).h whole

variable {key : Key} {ctx : Ctx} {whole tail : List UInt8}

theorem absorbed_init (key : Key) : Absorbed key (init key) [] [] where
  r := rfl
  pad := rfl
  blocks := Nat.dvd_zero _
  short := Nat.succ_pos _
  len := rfl
  front := List.nil_prefix
  h := (foldBlocks_nil _ _ _).symm

/-- A chunk goes behind the tail, which becomes a block when it is full. -/
theorem Absorbed.turn (h : Absorbed key ctx whole tail) {chunk : List UInt8}
    (hchunk : tail.length + chunk.length ≤ 16) :
    ∃ whole' tail', whole' ++ tail' = whole ++ tail ++ chunk ∧ Absorbed key (turn ctx chunk) whole' tail' := by
  obtain ⟨rest, hrest⟩ := h.front
  have hlength : tail.length + rest.length = 16 := by
    rw [← ctx.length_buf, ← hrest, List.length_append]
  have hfill : (ctx.fill chunk).buf = tail ++ chunk ++ rest.drop chunk.length := by
    change Buffer.write ctx.buf ctx.len chunk = _
    rw [h.len, ← hrest, Buffer.write_front (by omega)]
  unfold Poly1305.turn
  by_cases hfull : ctx.len + chunk.length < 16
  · rw [dif_pos hfull]
    have hlen : ctx.len + chunk.length = (tail ++ chunk).length := by rw [List.length_append, h.len]
    exact ⟨whole, tail ++ chunk, by simp, h.r, h.pad, h.blocks, by omega, hlen, ⟨_, hfill.symm⟩, h.h⟩
  · rw [dif_neg hfull]
    rw [h.len] at hfull
    have hblock : (tail ++ chunk).length = 16 := by
      rw [List.length_append]
      omega
    refine ⟨whole ++ (tail ++ chunk), [], by simp, h.r, h.pad, ?_, Nat.succ_pos _, rfl, List.nil_prefix, ?_⟩
    · rw [List.length_append, hblock]
      exact Nat.dvd_add_self_right.2 h.blocks
    · rw [List.drop_of_length_le (by omega), List.append_nil] at hfill
      change block ctx.r ctx.h (ctx.fill chunk).buf = _
      rw [hfill, h.r, h.h, foldBlocks_concat _ (by decide) h.blocks _ hblock]

theorem Absorbed.updateLoop (fuel : Nat) : ∀ {ctx : Ctx} {whole tail : List UInt8} (data : List UInt8),
    data.length ≤ fuel → Absorbed key ctx whole tail →
    ∃ whole' tail', whole' ++ tail' = whole ++ tail ++ data ∧ Absorbed key (updateLoop fuel ctx data) whole' tail' := by
  induction fuel with
  | zero =>
    intro ctx whole tail data hfuel h
    obtain rfl := List.length_eq_zero_iff.1 (Nat.le_zero.1 hfuel)
    exact ⟨whole, tail, by simp, h⟩
  | succ fuel ih =>
    intro ctx whole tail data hfuel h
    unfold Poly1305.updateLoop
    by_cases hdata : data = []
    · subst hdata
      exact ⟨whole, tail, by simp, by rw [if_pos rfl]; exact h⟩
    · rw [if_neg hdata]
      have hlt := ctx.len_lt
      have hpos := List.length_pos_of_ne_nil hdata
      have hchunk : tail.length + (data.take (16 - ctx.len)).length ≤ 16 := by
        rw [List.length_take, ← h.len]
        omega
      obtain ⟨whole₁, tail₁, heq₁, h₁⟩ := h.turn hchunk
      obtain ⟨whole₂, tail₂, heq₂, h₂⟩ := ih (data.drop (16 - ctx.len)) (by rw [List.length_drop]; omega) h₁
      exact ⟨whole₂, tail₂, by rw [heq₂, heq₁, List.append_assoc, List.take_append_drop], h₂⟩

theorem Absorbed.updates (pieces : List (List UInt8)) : ∀ {ctx : Ctx} {whole tail : List UInt8},
    Absorbed key ctx whole tail → ∃ whole' tail', whole' ++ tail' = whole ++ tail ++ pieces.flatten ∧
    Absorbed key (pieces.foldl update ctx) whole' tail' := by
  induction pieces with
  | nil =>
    intro ctx whole tail h
    exact ⟨whole, tail, by simp, h⟩
  | cons data pieces ih =>
    intro ctx whole tail h
    obtain ⟨whole₁, tail₁, heq₁, h₁⟩ := h.updateLoop data.length data (Nat.le_refl _)
    obtain ⟨whole₂, tail₂, heq₂, h₂⟩ := ih h₁
    exact ⟨whole₂, tail₂, by rw [heq₂, heq₁]; simp, h₂⟩

/-- The block made of the rest does not depend on what stood behind it. -/
theorem Absorbed.lastBlock (h : Absorbed key ctx whole tail) :
    lastBlock ctx =
      if tail ≠ [] then block (init key).r (foldBlocks (block (init key).r) 16 (init key).h whole)
        (tail ++ [1] ++ List.replicate (16 - (tail.length + 1)) 0)
      else foldBlocks (block (init key).r) 16 (init key).h whole := by
  unfold Poly1305.lastBlock
  by_cases htail : tail = []
  · rw [if_neg (by rw [h.len, htail]; simp), if_neg (by simp [htail]), h.h]
  · have hpos := List.length_pos_of_ne_nil htail
    rw [if_pos (by rw [h.len]; omega), if_pos htail, h.r, h.h]
    obtain ⟨rest, hrest⟩ := h.front
    have hshort := h.short
    have hlength : tail.length + rest.length = 16 := by
      rw [← ctx.length_buf, ← hrest, List.length_append]
    have hone : tail.length + 1 = (tail ++ [(1 : UInt8)]).length := by simp
    simp only
    congr 1
    rw [h.len, ← hrest, Buffer.write_front (by simp; omega), hone, Buffer.write_front (by simp; omega), List.drop_drop,
      List.drop_of_length_le (by simp; omega), List.append_nil]

theorem Absorbed.final_eq {ctx' : Ctx} (h : Absorbed key ctx whole tail) (h' : Absorbed key ctx' whole tail) :
    final ctx = final ctx' := by
  unfold final
  rw [h.lastBlock, h'.lastBlock, h.pad, h'.pad]

/-- The tag of a message does not depend on how it is cut into pieces. -/
theorem mac_eq (key : Key) (pieces : List (List UInt8)) : mac key pieces = poly1305 key pieces.flatten := by
  obtain ⟨whole, tail, heq, h⟩ := (absorbed_init key).updates pieces
  obtain ⟨whole', tail', heq', h'⟩ := (absorbed_init key).updates [pieces.flatten]
  have hcut : whole = whole' ∧ tail = tail' := by
    have hsame : whole ++ tail = whole' ++ tail' := by rw [heq, heq']; simp
    have hlength : whole.length = whole'.length := by
      have hsum := congrArg List.length hsame
      have h1 := h.blocks
      have h2 := h'.blocks
      have h3 := h.short
      have h4 := h'.short
      rw [List.length_append, List.length_append] at hsum
      omega
    exact List.append_inj hsame hlength
  obtain ⟨rfl, rfl⟩ := hcut
  exact h.final_eq h'

end Pieces

/-! ### The low half of the tag -/

theorem toNat_load32Le {p : List UInt8} {i : Nat} (h : i + 4 ≤ p.length) :
    (load32Le p i).toNat = Bytes.ofLe ((p.drop i).take 4) := by
  have hbyte : ∀ (b : UInt8) (k : Nat), k ≤ 24 → (BitVec.ofNat 32 b.toNat <<< k).toNat = b.toNat <<< k := by
    intro b k hk
    have hb := b.toNat_lt
    have hlt : b.toNat <<< k < 2 ^ 32 := by
      rw [Nat.shiftLeft_eq]
      calc b.toNat * 2 ^ k < 2 ^ 8 * 2 ^ k := Nat.mul_lt_mul_of_pos_right hb (Nat.two_pow_pos k)
        _ ≤ 2 ^ 8 * 2 ^ 24 := Nat.mul_le_mul_left _ (Nat.pow_le_pow_right (by decide) hk)
    rw [BitVec.toNat_shiftLeft, BitVec.toNat_ofNat, Nat.mod_eq_of_lt (show b.toNat < 2 ^ 32 by omega),
      Nat.mod_eq_of_lt hlt]
  have hlist : (p.drop i).take 4 = [p.getD i 0, p.getD (i + 1) 0, p.getD (i + 2) 0, p.getD (i + 3) 0] := by
    rw [List.drop_eq_getElem_cons (by omega), List.drop_eq_getElem_cons (by omega),
      List.drop_eq_getElem_cons (by omega), List.drop_eq_getElem_cons (by omega), List.getD_eq_getElem _ _ (by omega),
      List.getD_eq_getElem _ _ (by omega), List.getD_eq_getElem _ _ (by omega), List.getD_eq_getElem _ _ (by omega)]
    rfl
  unfold load32Le
  rw [hlist]
  generalize p.getD i 0 = a, p.getD (i + 1) 0 = b, p.getD (i + 2) 0 = c, p.getD (i + 3) 0 = d
  have ha := a.toNat_lt
  have hb := b.toNat_lt
  have hc := c.toNat_lt
  have h1 : d.toNat <<< 24 ||| c.toNat <<< 16 = (d.toNat * 2 ^ 8 + c.toNat) <<< 16 := by
    rw [show 24 = 8 + 16 from rfl, Nat.shiftLeft_add, ← Nat.shiftLeft_or_distrib, Bytes.shift_or hc]
  have h2 : (d.toNat * 2 ^ 8 + c.toNat) <<< 16 ||| b.toNat <<< 8 =
    ((d.toNat * 2 ^ 8 + c.toNat) * 2 ^ 8 + b.toNat) <<< 8 := by
    rw [show 16 = 8 + 8 from rfl, Nat.shiftLeft_add, ← Nat.shiftLeft_or_distrib, Bytes.shift_or hb]
  rw [BitVec.toNat_or, BitVec.toNat_or, BitVec.toNat_or, hbyte d 24 (by decide), hbyte c 16 (by decide),
    hbyte b 8 (by decide), BitVec.toNat_ofNat, Nat.mod_eq_of_lt (show a.toNat < 2 ^ 32 by omega), h1, h2,
    Bytes.shift_or ha]
  simp only [Bytes.ofLe]
  omega

/-- The pad of the low half is `s` modulo `2^64`. -/
theorem toNat_pad (key : Key) : (wide (init key).pad[0] + wide (init key).pad[1] <<< 32).toNat = sOf key % 2 ^ 64 := by
  have hkey := key.2
  have hlow : ∀ x y : BitVec 32, (wide x + wide y <<< 32).toNat = x.toNat + 2 ^ 32 * y.toNat := by
    intro x y
    have hx := x.isLt
    have hy := y.isLt
    rw [wide, wide, BitVec.toNat_add, BitVec.toNat_shiftLeft, BitVec.toNat_setWidth, BitVec.toNat_setWidth,
      Nat.shiftLeft_eq]
    omega
  have hs : sOf key = Bytes.ofLe ((key.1.drop 16).take 4) + 256 ^ 4 * (Bytes.ofLe ((key.1.drop 20).take 4) + 256 ^ 4 *
      Bytes.ofLe (key.1.drop 24)) := by
    unfold sOf
    rw [← List.take_append_drop 4 (key.1.drop 16), Bytes.ofLe_append,
      List.drop_drop, ← List.take_append_drop 4 (key.1.drop (16 + 4)), Bytes.ofLe_append, List.drop_drop]
    simp [hkey]
  change (wide (load32Le key.1 16) + wide (load32Le key.1 20) <<< 32).toNat = _
  rw [hlow, toNat_load32Le (by omega), toNat_load32Le (by omega), hs]
  have h1 : Bytes.ofLe ((key.1.drop 16).take 4) < 256 ^ 4 := by
    simpa [hkey] using Bytes.ofLe_lt ((key.1.drop 16).take 4)
  have h2 : Bytes.ofLe ((key.1.drop 20).take 4) < 256 ^ 4 := by
    simpa [hkey] using Bytes.ofLe_lt ((key.1.drop 20).take 4)
  omega

/-- The first eight bytes of the tag. -/
theorem take_tagBytes (h : Limbs) (pad : Vector (BitVec 32) padWords) :
    (tagBytes h pad).take 8 = Bytes.le 8 (lowHalf h + (wide pad[0] + wide pad[1] <<< 32)).toNat := by
  unfold tagBytes
  generalize lowHalf h + (wide pad[0] + wide pad[1] <<< 32) = f0
  have hlow : (narrow f0).toNat = f0.toNat % 256 ^ 4 := BitVec.toNat_setWidth 32 f0
  have hhigh : (narrow (f0 >>> 32)).toNat = f0.toNat / 256 ^ 4 % 256 ^ 4 := by
    rw [narrow, BitVec.toNat_setWidth, BitVec.toNat_ushiftRight, Nat.shiftRight_eq_div_pow]
    rfl
  rw [List.append_assoc, List.take_left' (by simp), hlow, hhigh, Bytes.le_mod, Bytes.le_mod]
  exact (Bytes.le_add 4 4 _).symm

/-- A right tag gives the accumulator modulo `2^64`. -/
theorem lowHalf_of_eq {key : Key} {h : Limbs} {m : List UInt8} (heq : tagBytes h (init key).pad = rfcTag key m) :
    (lowHalf h).toNat = accumulator key m % 2 ^ 64 := by
  have htake : (rfcTag key m).take 8 = Bytes.le 8 (accumulator key m + sOf key) := by
    unfold rfcTag
    rw [show 16 = 8 + 8 from rfl, Bytes.le_add, List.take_left' (by simp)]
  rw [← heq, take_tagBytes] at htake
  have hlt := (lowHalf h).isLt
  have hval := congrArg Bytes.ofLe htake
  rw [Bytes.ofLe_le, Bytes.ofLe_le, BitVec.toNat_add, toNat_pad] at hval
  omega

/-! ### Where the tag is wrong -/

/-- The limbs of the low half have 26 and 27 bits. -/
theorem lowHalf_lt (h : Limbs) : (lowHalf (select (carryFinal h) (plusFive (carryFinal h)))).toNat < 2 ^ 53 := by
  have hmask : ∀ x : BitVec 32, (x &&& 0x3ffffff#32).toNat < 2 ^ 26 := by
    intro x
    rw [BitVec.toNat_and]
    exact Nat.and_lt_two_pow _ (by decide)
  have hselect : ∀ (x y mask : BitVec 32) (k : Nat), x.toNat < 2 ^ k → y.toNat < 2 ^ k →
    (x &&& ~~~mask ||| y &&& mask).toNat < 2 ^ k := by
    intro x y mask k hx hy
    rw [BitVec.toNat_or, BitVec.toNat_and, BitVec.toNat_and]
    exact Nat.or_lt_two_pow (lt_of_le_of_lt Nat.and_le_left hx) (lt_of_le_of_lt Nat.and_le_left hy)
  -- the carry into the second limb is at most six bits
  have hsecond : (carryFinal h)[1].toNat < 2 ^ 27 := by
    have hadd : ∀ x c : BitVec 32, ((x &&& 0x3ffffff#32) + c >>> 26).toNat < 2 ^ 27 := by
      intro x c
      have hx := hmask x
      have hc := c.isLt
      rw [BitVec.toNat_add, BitVec.toNat_ushiftRight, Nat.shiftRight_eq_div_pow]
      omega
    exact hadd _ _
  generalize hcarry : carryFinal h = h' at hsecond
  have hfirst : h'[0].toNat < 2 ^ 26 := by
    rw [← hcarry]
    exact hmask _
  have h0 : (select h' (plusFive h'))[0].toNat < 2 ^ 26 := by
    unfold select
    rw [Vector.getElem_zipWith]
    exact hselect _ _ _ _ hfirst (hmask _)
  have h1 : (select h' (plusFive h'))[1].toNat < 2 ^ 27 := by
    unfold select
    rw [Vector.getElem_zipWith]
    exact hselect _ _ _ _ hsecond (lt_trans (hmask _) (by decide))
  unfold lowHalf wide
  rw [BitVec.toNat_or, BitVec.toNat_setWidth, BitVec.toNat_shiftLeft, BitVec.toNat_setWidth, Nat.shiftLeft_eq]
  exact Nat.or_lt_two_pow (by omega) (by omega)

/-- A zero accumulator gives five in the low half. -/
theorem lowHalf_zero : let h := carryFinal #v[0, 0, 0, 0, 0]; (lowHalf (select h (plusFive h))).toNat = 5 := by
    decide +kernel

/-- With a zero key every block leaves zero. -/
theorem block_zero (h : Limbs) (m : List UInt8) : block #v[0, 0, 0, 0, 0] h m = #v[0, 0, 0, 0, 0] := by
  have hproducts : products (addBlock h m) #v[0, 0, 0, 0, 0] = #v[0, 0, 0, 0, 0] := by
    simp [products, wide]
  rw [block, hproducts]
  decide

/-- The accumulator of the code at the end of a message is zero where the message is empty, or the key is. -/
theorem lastBlock_zero {key : Key} {ctx : Ctx} {whole tail : List UInt8} (h : Absorbed key ctx whole tail)
    (hzero : whole ++ tail = [] ∨ (init key).r = #v[0, 0, 0, 0, 0]) : lastBlock ctx = #v[0, 0, 0, 0, 0] := by
  rw [h.lastBlock]
  rcases hzero with hnil | hr
  · obtain ⟨rfl, rfl⟩ := List.append_eq_nil_iff.1 hnil
    rw [if_neg (by simp), foldBlocks_nil]
    rfl
  · rw [hr]
    split
    · exact block_zero _ _
    · exact foldBlocks_invariant _ _ (p := fun h => h = #v[0, 0, 0, 0, 0]) (fun s b _ => block_zero s b) rfl _

theorem init_zero {key : Key} (h : key.1.take 16 = List.replicate 16 0) : (init key).r = #v[0, 0, 0, 0, 0] ∧
    rOf key = 0 := by
  have hkey : key.1 = List.replicate 16 0 ++ key.1.drop 16 := by rw [← h, List.take_append_drop]
  constructor
  · have hbyte : ∀ j < 16, key.1.getD j 0 = 0 := by
      intro j hj
      rw [hkey, List.getD_append _ _ _ _ (by simpa using hj), List.getD_replicate _ hj]
    have hload : ∀ i, i + 3 < 16 → load32Le key.1 i = 0 := by
      intro i hi
      unfold load32Le
      rw [hbyte i (by omega), hbyte (i + 1) (by omega), hbyte (i + 2) (by omega), hbyte (i + 3) hi]
      decide
    unfold init
    simp only [hload 0 (by decide), hload 4 (by decide), hload 8 (by decide), hload 12 (by decide)]
    rfl
  · unfold rOf
    rw [h]
    decide

theorem accumulator_nil (key : Key) : accumulator key [] = 0 := by
  unfold accumulator
  rw [show ([] : List UInt8).toChunks 16 = [] from rfl, blockSum, Nat.zero_mod]

theorem blockSum_zero (cs : List (List UInt8)) : blockSum 0 cs = 0 := by
  induction cs with
  | nil => rfl
  | cons c cs ih => rw [blockSum, ih, Nat.zero_pow (Nat.succ_pos _), Nat.mul_zero]

/-- The tag is wrong for the empty message under every key, for every message under a key with `r = 0`, and wherever
the accumulator has one of the bits 53 to 63; so no key has the right tag for every message, and no message has it for
every key. -/
theorem tag_wrong (key : Key) (pieces : List (List UInt8)) :
    (¬∀ pieces, mac key pieces = rfcTag key pieces.flatten) ∧
    (¬∀ key : Key, mac key pieces = rfcTag key pieces.flatten) ∧
    (pieces.flatten = [] ∨ key.1.take 16 = List.replicate 16 0 ∨ 2 ^ 53 ≤ accumulator key pieces.flatten % 2 ^ 64 →
      mac key pieces ≠ rfcTag key pieces.flatten) := by
  have hwrong : ∀ (key : Key) (pieces : List (List UInt8)),
      pieces.flatten = [] ∨ key.1.take 16 = List.replicate 16 0 ∨ 2 ^ 53 ≤ accumulator key pieces.flatten % 2 ^ 64 →
      mac key pieces ≠ rfcTag key pieces.flatten := by
    intro key pieces hcase heq
    obtain ⟨whole, tail, hmsg, h⟩ := (absorbed_init key).updates pieces
    rw [List.nil_append, List.nil_append] at hmsg
    unfold mac final at heq
    rw [h.pad] at heq
    have hlow := lowHalf_of_eq heq
    have hlt := lowHalf_lt (lastBlock (pieces.foldl update (init key)))
    rcases hcase with hnil | hzero | hbits
    · rw [lastBlock_zero h (Or.inl (hmsg.trans hnil)), lowHalf_zero, hnil, accumulator_nil] at hlow
      exact absurd hlow (by decide)
    · obtain ⟨hr, hr'⟩ := init_zero hzero
      rw [lastBlock_zero h (Or.inr hr), lowHalf_zero, accumulator, hr', blockSum_zero] at hlow
      exact absurd hlow (by decide)
    · omega
  refine ⟨?_, ?_, hwrong key pieces⟩
  · intro hall
    exact hwrong key [] (Or.inl rfl) (hall [])
  · intro hall
    exact hwrong ⟨List.replicate 32 0, rfl⟩ pieces (Or.inr (Or.inl rfl)) (hall _)

/-- The key of the example in RFC 8439. -/
def rfcKey : Key := ⟨[
  0x85, 0xd6, 0xbe, 0x78, 0x57, 0x55, 0x6d, 0x33, 0x7f, 0x44, 0x52, 0xfe, 0x42, 0xd5, 0x06, 0xa8,
  0x01, 0x03, 0x80, 0x8a, 0xfb, 0x0d, 0xb2, 0xfd, 0x4a, 0xbf, 0xf6, 0xaf, 0x41, 0x49, 0xf5, 0x1b], rfl⟩

/-- "Cryptographic Forum Research Group" -/
def rfcMessage : List UInt8 := [
  0x43, 0x72, 0x79, 0x70, 0x74, 0x6f, 0x67, 0x72, 0x61, 0x70, 0x68, 0x69, 0x63, 0x20, 0x46, 0x6f,
  0x72, 0x75, 0x6d, 0x20, 0x52, 0x65, 0x73, 0x65, 0x61, 0x72, 0x63, 0x68, 0x20, 0x47, 0x72, 0x6f,
  0x75, 0x70]

theorem tag_wrong_rfc :
    2 ^ 53 ≤ accumulator rfcKey [rfcMessage].flatten % 2 ^ 64 ∧
    mac rfcKey [rfcMessage] ≠ rfcTag rfcKey [rfcMessage].flatten := by
  have hbits : 2 ^ 53 ≤ accumulator rfcKey [rfcMessage].flatten % 2 ^ 64 := by decide
  exact ⟨hbits, (tag_wrong rfcKey [rfcMessage]).2.2 (Or.inr (Or.inr hbits))⟩

theorem tag_not_rfc :
    rfcTag rfcKey rfcMessage = Bytes.be 16 0xa8061dc1305136c6c22b8baf0c0127a9 ∧
      ¬∀ (key : Key) (pieces : List (List UInt8)), mac key pieces = rfcTag key pieces.flatten := by
  refine ⟨by decide, ?_⟩
  intro hall
  exact absurd (hall rfcKey [rfcMessage]) (by decide +kernel)

end JACLibc.Poly1305
