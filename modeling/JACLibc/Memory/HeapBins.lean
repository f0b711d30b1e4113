import JACLibc.Memory.HeapMoves

/-!
# Blocks from the bins

`__jacl_alloc_bins` turns a free block into a used one, cut to the size that is needed if the rest is large enough for a
block of its own (`Take`).  Which block that is, `binsChoice` says beforehand.  A new segment comes with one free block.
-/

namespace JACLibc

open Linked

variable {s s' : Heap} {T T' : Nat → Option Block} {A : Nat → Option Nat} {a j i off v need : Nat} {b c : Block}

/-! ### Growth -/

/-- Memory of `size` bytes at `p` that no segment has. -/
def Fresh (s : Heap) (p size : Nat) : Prop :=
  0 < p ∧ ∀ j < s.segs.length, p + size ≤ (s.seg j).base ∨ s.addr j (s.seg j).size ≤ p

theorem growSize_spec {current : Nat} (h1 : current ≤ JACL_HEAP_MAX) (h2 : current % 4096 = 0)
    (h3 : growSize current need ≠ 0) :
    4096 ≤ growSize current need ∧ growSize current need % 4096 = 0 ∧
      current + growSize current need ≤ JACL_HEAP_MAX := by
  obtain ⟨k, hk⟩ : ∃ k, (if need > JACL_HEAP_SEG then alignUp need 4096 else JACL_HEAP_SEG) = k * 4096 := by
    split
    · exact ⟨_, rfl⟩
    · exact ⟨256, rfl⟩
  have hmax : JACL_HEAP_MAX % 4096 = 0 := by decide
  simp only [growSize, hk] at h3 ⊢
  by_cases hlt : current + k * 4096 > JACL_HEAP_MAX
  · rw [if_pos hlt] at h3 ⊢
    by_cases hle : JACL_HEAP_MAX - current < need
    · rw [if_pos hle] at h3
      exact absurd rfl h3
    · rw [if_neg hle] at h3 ⊢
      omega
  · rw [if_neg hlt] at h3 ⊢
    omega

/-- The segment that `__jacl_segment_init` lays over `n` bytes of new memory at `p`. -/
private def newSeg (p n : Nat) : Seg := ⟨p + 288, n - 288, fun _ => 0, fun _ => false⟩

/-- The heap with the new segment, before its block is put into a bin. -/
private def extend (s : Heap) (p n : Nat) : Heap :=
  { s with
    mem := Function.update
      (Function.update (Function.update s.mem (p + 312) (n - 312)) (p + 312 + 8) 0) (p + 312 + 16) 0
    segs := s.segs ++ [newSeg p n]
    current := s.current + n }

section Extend

variable {p n : Nat}

private theorem newSegment_eq (s : Heap) (h : 4096 ≤ n) :
    newSegment s p n = membinPush (extend s p n) s.segs.length 24 := by
  have h1 : p + 288 + 24 = p + 312 := by omega
  have h2 : n - 288 - 24 = n - 312 := by omega
  simp only [newSegment, SEG_HDR, HDR, h1, h2, Heap.store, extend, newSeg]

private theorem extend_length : (extend s p n).segs.length = s.segs.length + 1 := by
  simp [extend]

private theorem extend_old (hj : j < s.segs.length) : (extend s p n).seg j = s.seg j := by
  simp only [Heap.seg, extend, List.getD_eq_getElem?_getD]
  rw [List.getElem?_append_left hj]

private theorem extend_new : (extend s p n).seg s.segs.length = newSeg p n := by
  simp [Heap.seg, extend]

private theorem extend_addr (hj : j < s.segs.length) : (extend s p n).addr j off = s.addr j off := by
  simp only [Heap.addr, extend_old hj]

private theorem extend_addr_new : (extend s p n).addr s.segs.length off = p + 288 + off := by
  simp only [Heap.addr, extend_new, newSeg]

private theorem extend_mem {x : Nat} (h : 4096 ≤ n) (hx : x < p ∨ p + n ≤ x) : (extend s p n).mem x = s.mem x := by
  simp only [extend]
  rw [Function.update_of_ne (by omega), Function.update_of_ne (by omega), Function.update_of_ne (by omega)]

private theorem extend_header : (extend s p n).mem (p + 312) = n - 312 ∧ (extend s p n).mem (p + 312 + 8) = 0 ∧
    (extend s p n).mem (p + 312 + 16) = 0 := by
  simp only [extend, Function.update_apply]
  refine ⟨?_, ?_, ?_⟩
  · rw [if_neg (by omega), if_neg (by omega), if_pos trivial]
  · rw [if_neg (by omega), if_pos trivial]
  · rw [if_pos trivial]

private theorem firstOff_new (h : SegsOk s) : firstOff s.segs.length = 24 := by
  have hpos := h.pos
  rw [firstOff, if_neg (by omega), HDR]

/-- Blocks are away from the new memory. -/
private theorem HeapInv.away (h : HeapInv s T A) (hp : Fresh s p n) (hb : T a = some b) :
    32 ≤ b.size ∧ (a + b.size ≤ p ∨ p + n ≤ a) := by
  refine ⟨h.tiling.min_le hb, ?_⟩
  obtain ⟨k, o, hk, ho, rfl⟩ := h.exists_seg hb
  have h1 := h.bounds hk ho hb
  have h2 := hp.2 k hk
  simp only [Heap.addr] at h2 ⊢
  omega

private theorem HeapInv.no_block_new (h : HeapInv s T A) (hp : Fresh s p n) {o : Nat} (ho : o < n) :
    T (p + o) = none := by
  rw [Option.eq_none_iff_forall_ne_some]
  intro b hb
  have := h.away hp hb
  omega

private theorem SegsOk.extend (h : SegsOk s) (hp : Fresh s p n) (h1 : 4096 ≤ n) (h2 : n % 4096 = 0)
    (h3 : s.current + n ≤ JACL_HEAP_MAX) : SegsOk (extend s p n) := by
  have cases : ∀ {k}, k < (JACLibc.extend s p n).segs.length → k < s.segs.length ∨ k = s.segs.length := by
    intro k hk
    rw [extend_length] at hk
    omega
  constructor
  · rw [extend_length]
    omega
  · rw [extend_old h.pos]
    exact h.base_zero
  · rw [extend_old h.pos]
    exact h.size_zero
  · intro k hk
    rcases cases hk with hk | rfl
    · rw [extend_old hk]
      exact h.base_pos hk
    · rw [extend_new, newSeg]
      exact Nat.add_pos_right p (by decide)
  · intro k hk
    rcases cases hk with hk | rfl
    · rw [extend_old hk]
      exact h.room hk
    · rw [extend_new, newSeg, firstOff_new h]
      simp only
      omega
  · intro k hk
    rcases cases hk with hk | rfl
    · rw [extend_old hk]
      exact h.size_le hk
    · rw [extend_new, newSeg]
      simp only
      omega
  · intro k l hk hl hkl
    rcases cases hk with hk | rfl <;> rcases cases hl with hl | rfl
    · rw [extend_addr hk, extend_addr hl, extend_old hk, extend_old hl]
      exact h.disjoint hk hl hkl
    · have h4 := hp.2 k hk
      rw [extend_addr hk, extend_old hk, extend_addr_new, extend_new, newSeg]
      simp only
      omega
    · have h4 := hp.2 l hl
      rw [extend_addr hl, extend_old hl, extend_addr_new, extend_new, newSeg]
      simp only
      omega
    · exact absurd rfl hkl
  · exact h3
  · have h4 := h.current_mod
    show (s.current + n) % 4096 = 0
    omega

private theorem extend_spans (h : SegsOk s) (h1 : 4096 ≤ n) :
    (extend s p n).spans = insert (p + 312, p + 312 + (n - 312)) s.spans := by
  have hnew : ((extend s p n).addr s.segs.length (firstOff s.segs.length),
      (extend s p n).addr s.segs.length ((extend s p n).seg s.segs.length).size) = (p + 312, p + 312 + (n - 312)) := by
    rw [extend_addr_new, extend_addr_new, extend_new, newSeg, firstOff_new h, Prod.mk.injEq]
    refine ⟨by omega, ?_⟩
    show p + 288 + (n - 288) = p + 312 + (n - 312)
    omega
  ext I
  simp only [Heap.spans, Set.mem_ofPred_eq, Set.mem_insert_iff, extend_length]
  constructor
  · rintro ⟨k, hk, rfl⟩
    rcases Nat.lt_succ_iff_lt_or_eq.1 hk with hk | rfl
    · exact Or.inr ⟨k, hk, by rw [extend_addr hk, extend_addr hk, extend_old hk]⟩
    · exact Or.inl hnew
  · rintro (rfl | ⟨k, hk, rfl⟩)
    · exact ⟨s.segs.length, Nat.lt_succ_self _, hnew.symm⟩
    · exact ⟨k, Nat.lt_succ_of_lt hk, by rw [extend_addr hk, extend_addr hk, extend_old hk]⟩

variable (h : HeapInv s T A) (hp : Fresh s p n) (h1 : 4096 ≤ n)
include h hp h1

private theorem HeapInv.tiling_extend :
    Tiling Block.size 32 (extend s p n).spans (Function.update T (p + 312) (some ⟨n - 312, 0, .held⟩)) := by
  rw [extend_spans h.segs h1]
  have hfar : ∀ I ∈ s.spans, I.2 ≤ p + 312 ∨ p + 312 + (n - 312) ≤ I.1 := by
    rintro I ⟨k, hk, rfl⟩
    have h2 := hp.2 k hk
    simp only [Heap.addr] at h2 ⊢
    omega
  have hmin : 32 ≤ n - 312 := by omega
  exact @Tiling.grow Block Block.size 32 s.spans T ⟨n - 312, 0, .held⟩ h.tiling (by omega) (p + 312) hmin hfar

private theorem HeapInv.headers_extend :
    Headers (extend s p n).mem (Function.update T (p + 312) (some ⟨n - 312, 0, .held⟩)) := by
  intro a b hb
  rcases eq_or_ne a (p + 312) with rfl | hne
  · rw [Function.update_self, Option.some.injEq] at hb
    subst hb
    exact extend_header
  · rw [Function.update_of_ne hne] at hb
    have h2 := h.away hp hb
    rw [extend_mem h1 (by omega), extend_mem h1 (by omega), extend_mem h1 (by omega)]
    exact h.headers a b hb

private theorem HeapInv.bins_extend :
    Bins (extend s p n) (Function.update T (p + 312) (some ⟨n - 312, 0, .held⟩)) := by
  intro k hk i
  rw [extend_length] at hk
  rcases Nat.lt_succ_iff_lt_or_eq.1 hk with hk | rfl
  · obtain ⟨l, h2, h3, h4⟩ := h.bins k hk i
    refine ⟨l, ?_, h3, fun o => (h4 o).trans ?_⟩
    · rw [extend_old hk]
      apply h2.congr
      intro o ho
      obtain ⟨-, b, hb, -⟩ := (h4 o).1 ho
      have h5 := h.away hp hb
      rw [extend_addr hk]
      exact extend_mem h1 (by omega)
    · rw [FreeIn, FreeIn, extend_addr hk, extend_old hk]
      apply and_congr_right
      intro ho
      have h5 := hp.2 k hk
      have hne : s.addr k o ≠ p + 312 := by
        simp only [Heap.addr] at h5 ⊢
        omega
      rw [Function.update_of_ne hne]
  · -- the only block of the new segment is held
    refine ⟨[], ?_, List.nodup_nil, fun o => iff_of_false List.not_mem_nil ?_⟩
    · rw [extend_new]
      exact rfl
    · rintro ⟨ho, b, hb, hfree, -⟩
      rw [extend_new, newSeg] at ho
      rw [extend_addr_new] at hb
      rcases eq_or_ne (p + 288 + o) (p + 312) with he | hne
      · rw [he, Function.update_self, Option.some.injEq] at hb
        rw [← hb] at hfree
        cases hfree
      · rw [Function.update_of_ne hne, Nat.add_assoc, h.no_block_new hp (by simp only at ho; omega)] at hb
        cases hb

private theorem HeapInv.cache_extend :
    Cache (extend s p n).recycling (Function.update T (p + 312) (some ⟨n - 312, 0, .held⟩)) := by
  constructor
  · exact h.cache.nodup
  · intro a b r hb hr
    rcases eq_or_ne a (p + 312) with rfl | hne
    · rw [Function.update_self, Option.some.injEq] at hb
      rw [← hb] at hr
      cases hr
    · rw [Function.update_of_ne hne] at hb
      exact h.cache.mem hb hr
  · intro q r hq
    obtain ⟨a, b, h2, h3, h4⟩ := h.cache.block hq
    have h5 := h.away hp h3
    exact ⟨a, b, h2, by rw [Function.update_of_ne (by omega), h3], h4⟩

private theorem HeapInv.arena_extend : ArenaOk (extend s p n) A := by
  have h2 := hp.2 0 h.segs.pos
  have h3 := h.segs.base_zero
  have h4 := h.segs.size_zero
  have h5 := h.arena.off_le.trans h.arena.end_le
  simp only [Heap.addr, JACL_HEAP_INIT, ARENA_LIMIT] at h2 h4 h5
  refine ⟨h.arena.cursor_mod, h.arena.off_le, h.arena.end_le, ?_, h.arena.within, h.arena.apart, h.arena.off_mod,
    h.arena.on_grid⟩
  intro a m ha
  have h6 := h.arena.within ha
  rw [extend_mem h1 (by omega), extend_mem h1 (by omega)]
  exact h.arena.header ha

end Extend

/-- A new segment holds one free block. -/
theorem newSegment_inv (h : HeapInv s T A) {p n : Nat} (hp : Fresh s p n) (h1 : 4096 ≤ n) (h2 : n % 4096 = 0)
    (h3 : s.current + n ≤ JACL_HEAP_MAX) :
    HeapInv (newSegment s p n) (Function.update T (p + 312) (some ⟨n - 312, 0, .free⟩)) A ∧
      (newSegment s p n).segs.length = s.segs.length + 1 ∧
      (∀ k o, k < s.segs.length → (newSegment s p n).addr k o = s.addr k o) ∧
      (∀ o, (newSegment s p n).addr s.segs.length o = p + 288 + o) ∧
      ((newSegment s p n).seg s.segs.length).size = n - 288 ∧ T (p + 312) = none := by
  have hinv : HeapInv (extend s p n) (Function.update T (p + 312) (some ⟨n - 312, 0, .held⟩)) A :=
    ⟨h.segs.extend hp h1 h2 h3, h.tiling_extend hp h1, h.headers_extend hp h1, h.bins_extend hp h1,
      h.cache_extend hp h1, h.arena_extend hp h1⟩
  have hat : (extend s p n).addr s.segs.length 24 = p + 312 := extend_addr_new
  have hin : 24 < ((extend s p n).seg s.segs.length).size := by
    rw [extend_new, newSeg]
    simp only
    omega
  have hblock : Function.update T (p + 312) (some ⟨n - 312, 0, .held⟩) ((extend s p n).addr s.segs.length 24) =
      some ⟨n - 312, 0, .held⟩ := by
    rw [hat, Function.update_self]
  have hlast : s.segs.length < (extend s p n).segs.length := by
    rw [extend_length]
    exact Nat.lt_succ_self _
  have hpush := membinPush_inv hinv hlast hin hblock rfl
  rw [hat, Function.update_idem] at hpush
  rw [newSegment_eq s h1]
  obtain ⟨hpinv, hpsame, -⟩ := hpush
  refine ⟨hpinv, hpsame.length.trans extend_length, ?_, ?_, ?_, h.no_block_new hp (by omega)⟩
  · intro k o hk
    rw [hpsame.addr, extend_addr hk]
  · intro o
    rw [hpsame.addr, extend_addr_new]
  · rw [hpsame.size, extend_new, newSeg]

/-- The block of a new segment has no neighbours, so that the tags stay right. -/
theorem newSegment_tags (h : HeapInv s T A) {p n : Nat} (hp : Fresh s p n) (h1 : 4096 ≤ n) (h2 : n % 4096 = 0)
    (h3 : s.current + n ≤ JACL_HEAP_MAX) (ht : TagsOk s T) :
    TagsOk (newSegment s p n) (Function.update T (p + 312) (some ⟨n - 312, 0, .free⟩)) := by
  obtain ⟨hinv, hlen, hold, hnew, hsize, -⟩ := newSegment_inv h hp h1 h2 h3
  have hpos := h.segs.pos
  have hfirst : (newSegment s p n).addr s.segs.length (firstOff s.segs.length) = p + 312 := by
    rw [hnew, firstOff, if_neg (by omega), HDR]
  constructor
  · intro x b c hb hc
    have hne : x + b.size ≠ p + 312 := by
      rw [← hfirst]
      exact hinv.ne_first hb (by omega)
    rw [Function.update_of_ne hne] at hc
    rcases eq_or_ne x (p + 312) with rfl | hx
    · -- behind the new block its segment ends
      rw [Function.update_self, Option.some.injEq] at hb
      have hend := no_block_at_end hinv (by omega : s.segs.length < (newSegment s p n).segs.length)
      rw [hnew, hsize] at hend
      rw [← hb] at hc hne
      simp only at hc hne
      rw [show p + 288 + (n - 288) = p + 312 + (n - 312) by omega, Function.update_of_ne hne, hc] at hend
      cases hend
    · rw [Function.update_of_ne hx] at hb
      exact ht.link hb hc
  · intro k b hk hb
    rcases eq_or_ne k s.segs.length with rfl | hne
    · rw [hfirst, Function.update_self, Option.some.injEq] at hb
      rw [← hb]
    · have hk' : k < s.segs.length := by omega
      have hne' : (newSegment s p n).addr k (firstOff k) ≠ p + 312 := by
        intro he
        rw [← hfirst] at he
        have hr := hinv.segs.room hk
        have hr' := hinv.segs.room (by omega : s.segs.length < (newSegment s p n).segs.length)
        exact hne (hinv.segs.addr_inj hk (by omega) (by omega) (by omega) he).1
      rw [Function.update_of_ne hne', hold k _ hk'] at hb
      exact ht.first hk' hb

/-- A new segment writes only to its own memory, and leaves the arena alone. -/
theorem newSegment_mem (s : Heap) {p n x : Nat} (hx : x < p ∨ p + n ≤ x) (h1 : 4096 ≤ n) :
    (newSegment s p n).mem x = s.mem x ∧ (newSegment s p n).tlsOff = s.tlsOff ∧
    (newSegment s p n).tlsEnd = s.tlsEnd := by
  have haddr : (extend s p n).addr s.segs.length 24 = p + 288 + 24 := extend_addr_new
  rw [newSegment_eq s h1]
  unfold membinPush
  dsimp only
  split
  · exact ⟨extend_mem h1 hx, rfl, rfl⟩
  · refine ⟨?_, rfl, rfl⟩
    rw [Heap.addr] at haddr
    exact (Function.update_of_ne (by omega) _ _).trans (extend_mem h1 hx)

/-! ### Blocks from the bins -/

/-- The block `b` at `a` is handed out whole; the tag of the next block is set. -/
structure Whole (T T' : Nat → Option Block) (a : Nat) (b : Block) : Prop where
  here : T' a = some { b with use := .used }
  next : T' (a + b.size) = (T (a + b.size)).map fun c => { c with tag := b.size }
  other : ∀ x, x ≠ a → x ≠ a + b.size → T' x = T x

/-- The first `need` bytes of the block `b` at `a` are handed out; the rest is a free block. -/
structure Cut (T T' : Nat → Option Block) (a : Nat) (b : Block) (need : Nat) : Prop where
  here : T' a = some ⟨need, b.tag, .used⟩
  rest : T' (a + need) = some ⟨b.size - need, need, .free⟩
  other : ∀ x, x ≠ a → x ≠ a + need → T' x = T x

/-- What the bins do to serve a request: a free block is handed out. -/
structure Take (T T' : Nat → Option Block) (a need : Nat) (b : Block) : Prop where
  block : T a = some b
  free : b.use = .free
  enough : need ≤ b.size
  how : need + 32 ≤ b.size ∧ Cut T T' a b need ∨ b.size < need + 32 ∧ Whole T T' a b

namespace Take

variable (hT : Take T T' a need b)
include hT

/-- A block of the new map is the one handed out, the rest of it, or an old one but for the tag. -/
theorem cases {x : Nat} {d : Block} (hd : T' x = some d) :
    (x = a ∧ d.use = .used ∧ need ≤ d.size ∧ d.tag = b.tag ∧ (d.size = need ∧ need + 32 ≤ b.size ∨ d.size = b.size)) ∨
    (x = a + need ∧ need + 32 ≤ b.size ∧ d = ⟨b.size - need, need, .free⟩) ∨
    (x ≠ a ∧ ∃ e, T x = some e ∧ d.size = e.size ∧ d.use = e.use ∧
      (d.tag = e.tag ∧ (x ≠ a + b.size ∨ need + 32 ≤ b.size) ∨ x = a + b.size ∧ d.tag = b.size ∧
      b.size < need + 32)) := by
  have henough := hT.enough
  rcases eq_or_ne x a with rfl | hx
  · left
    rcases hT.how with ⟨h1, h2⟩ | ⟨h1, h2⟩
    · rw [h2.here, Option.some.injEq] at hd
      subst hd
      exact ⟨rfl, rfl, le_rfl, rfl, Or.inl ⟨rfl, h1⟩⟩
    · rw [h2.here, Option.some.injEq] at hd
      subst hd
      exact ⟨rfl, rfl, henough, rfl, Or.inr rfl⟩
  · right
    rcases hT.how with ⟨h1, h2⟩ | ⟨h1, h2⟩
    · rcases eq_or_ne x (a + need) with rfl | hx'
      · rw [h2.rest, Option.some.injEq] at hd
        exact Or.inl ⟨rfl, h1, hd.symm⟩
      · rw [h2.other x hx hx'] at hd
        exact Or.inr ⟨hx, d, hd, rfl, rfl, Or.inl ⟨rfl, Or.inr h1⟩⟩
    · right
      refine ⟨hx, ?_⟩
      rcases eq_or_ne x (a + b.size) with rfl | hx'
      · rw [h2.next, Option.map_eq_some_iff] at hd
        obtain ⟨e, he, rfl⟩ := hd
        exact ⟨e, he, rfl, rfl, Or.inr ⟨rfl, rfl, h1⟩⟩
      · rw [h2.other x hx hx'] at hd
        exact ⟨d, hd, rfl, rfl, Or.inl ⟨rfl, Or.inl hx'⟩⟩

theorem keeps (h : HeapInv s T A) (hn : 32 ≤ need) : Keeps T T' := by
  intro x c hc hu
  have hx : x ≠ a := by
    rintro rfl
    rw [hT.block, Option.some.injEq] at hc
    rw [← hc, hT.free] at hu
    cases hu
  have h1 := h.apart_or hc hT.block hx
  have h2 := h.tiling.min_le hc
  have h3 := hT.enough
  rcases hT.how with ⟨h4', h4⟩ | ⟨-, h4⟩
  · exact ⟨c, by rw [h4.other x hx (by omega), hc], hu, rfl⟩
  · rcases eq_or_ne x (a + b.size) with rfl | hx'
    · refine ⟨{ c with tag := b.size }, ?_, hu, rfl⟩
      rw [h4.next, hc]
      rfl
    · exact ⟨c, by rw [h4.other x hx hx', hc], hu, rfl⟩

theorem held (h : HeldIn T fun _ => False) : HeldIn T' fun _ => False := by
  intro x d hd hu
  rcases hT.cases hd with ⟨-, h1, -⟩ | ⟨-, -, rfl⟩ | ⟨-, e, h1, -, h2, -⟩
  · rw [hu] at h1
    cases h1
  · cases hu
  · exact h x e h1 (h2 ▸ hu)

theorem grid (hn : need % 8 = 0) (h : Grid T) : Grid T' := by
  obtain ⟨ha, hb⟩ := h a b hT.block
  intro x d hd
  rcases hT.cases hd with ⟨rfl, -, -, -, ⟨hsize, -⟩ | hsize⟩ | ⟨rfl, -, rfl⟩ | ⟨-, e, he, hsize, -⟩
  · exact ⟨ha, hsize ▸ hn⟩
  · exact ⟨ha, hsize ▸ hb⟩
  · simp only
    omega
  · obtain ⟨hx, hes⟩ := h x e he
    exact ⟨hx, hsize ▸ hes⟩

/-- The block is used now, and was not before. -/
theorem here : ∃ d, T' a = some d ∧ d.use = .used ∧ need ≤ d.size := by
  rcases hT.how with ⟨h1, h2⟩ | ⟨h1, h2⟩
  · exact ⟨_, h2.here, rfl, le_rfl⟩
  · exact ⟨_, h2.here, rfl, hT.enough⟩

/-- A cut leaves a wrong tag behind the rest, unless nothing is there. -/
theorem tagsOk (h : HeapInv s T A) (hn : 32 ≤ need) (ht : TagsOk s T)
    (hlast : need + 32 ≤ b.size → T (a + b.size) = none) : TagsOk s T' := by
  have hb := hT.block
  have henough := hT.enough
  constructor
  · intro x d e hd he
    rcases hT.cases hd with ⟨rfl, -, -, -, h1⟩ | ⟨rfl, h1, rfl⟩ | ⟨hx, d', h1, h2, -, -⟩
    · rcases h1 with ⟨h1, h2⟩ | h1
      · rcases hT.how with ⟨-, h3⟩ | ⟨h3, -⟩
        · rw [h1, h3.rest, Option.some.injEq] at he
          rw [← he, h1]
        · omega
      · rcases hT.how with ⟨h2, h3⟩ | ⟨-, h3⟩
        · rw [h3.here, Option.some.injEq] at hd
          rw [← hd] at h1
          simp only at h1
          omega
        · rw [h1, h3.next, Option.map_eq_some_iff] at he
          obtain ⟨e', -, rfl⟩ := he
          exact h1.symm
    · simp only at he
      rw [show a + need + (b.size - need) = a + b.size by omega] at he
      rcases hT.how with ⟨-, h3⟩ | ⟨h3, -⟩
      · rw [h3.other _ (by omega) (by omega), hlast h1] at he
        cases he
      · omega
    · rw [h2] at he ⊢
      have h3 := h.tiling.min_le h1
      have h4 := h.apart_or h1 hb hx
      rcases hT.cases he with ⟨h5, -, -, h6, -⟩ | ⟨h5, h6, -⟩ | ⟨-, e', h5, -, -, h6⟩
      · rw [h6]
        exact ht.link h1 (by rw [h5, hb])
      · omega
      · rcases h6 with ⟨h6, -⟩ | ⟨h6, -⟩
        · rw [h6]
          exact ht.link h1 h5
        · exact absurd (h.end_inj h1 hb h6) hx
  · intro k d hk hd
    rcases hT.cases hd with ⟨h1, -, -, h2, -⟩ | ⟨h1, h2, -⟩ | ⟨-, e, h1, -, -, h2⟩
    · rw [h2]
      exact ht.first hk (h1 ▸ hb)
    · -- the rest of a block is not the first block of a segment
      obtain ⟨d', hd', -⟩ := h.tiling.first (HeapInv.span_mem hk)
      simp only at hd'
      rw [h1] at hd'
      have h3 := h.apart_or hd' hb (by omega)
      have h4 := h.tiling.min_le hd'
      omega
    · rcases h2 with ⟨h2, -⟩ | ⟨h2, -⟩
      · rw [h2]
        exact ht.first hk h1
      · exact absurd h2.symm (h.ne_first hb hk)

end Take

theorem addr_add (s : Heap) (j x y : Nat) : s.addr j (x + y) = s.addr j x + y := by
  simp only [Heap.addr]
  omega

/-- The last stores of `__jacl_alloc_bins`: the tag of the next block, and the flags. -/
private theorem handOut_inv (h : HeapInv s T A) (hj : j < s.segs.length) (ho : off < (s.seg j).size)
    (hb : T (s.addr j off) = some b) (hu : b.use = .held) :
    ∃ T', HeapInv ((if off + b.size < (s.seg j).size then s.store (s.addr j (off + b.size) + 8) b.size else s).store
      (s.addr j off + 16) 1) T' A ∧ Whole T T' (s.addr j off) b := by
  have hsize := h.tiling.min_le hb
  have hheld : b.use.apart := by
    rw [hu]
    trivial
  split
  · next hn =>
    obtain ⟨c, hc⟩ := h.exists_next hj hb hn
    have h1 := h.retag hc b.size
    rw [addr_add] at hc h1 ⊢
    have hb' : Function.update T (s.addr j off + b.size) (some { c with tag := b.size }) (s.addr j off) = some b := by
      rw [Function.update_of_ne (by omega), hb]
    refine ⟨_, h1.reuse hb' hheld (u := .used) trivial, ?_, ?_, ?_⟩
    · rw [Function.update_self]
    · rw [Function.update_of_ne (by omega), Function.update_self, hc]
      rfl
    · intro x hx hx'
      rw [Function.update_of_ne hx, Function.update_of_ne hx']
  · next hn =>
    refine ⟨_, h.reuse hb hheld (u := .used) trivial, ?_, ?_, ?_⟩
    · rw [Function.update_self]
    · have h1 := h.bounds hj ho hb
      have hend : s.addr j off + b.size = s.addr j (s.seg j).size := by
        simp only [Heap.addr]
        omega
      rw [Function.update_of_ne (by omega), hend, no_block_at_end h hj]
      rfl
    · intro x hx _
      rw [Function.update_of_ne hx]

private theorem takeBlock_inv (h : HeapInv s T A) (hj : j < s.segs.length) (ho : off < (s.seg j).size)
    (hb : T (s.addr j off) = some b) (hu : b.use = .held) (hn : 32 ≤ need) :
    ∃ T', HeapInv (takeBlock s j off need) T' A ∧ SameSegs s (takeBlock s j off need) ∧
      (need + 32 ≤ b.size ∧ Cut T T' (s.addr j off) b need ∨ b.size < need + 32 ∧ Whole T T' (s.addr j off) b) := by
  have hsize : s.mem (s.addr j off) = b.size := (h.headers _ _ hb).1
  have h1 := h.bounds hj ho hb
  have htail : ∀ s1 : Heap, SameSegs s s1 → SameSegs s ((if off + s1.mem (s.addr j off) < (s.seg j).size
      then s1.store (s.addr j (off + s1.mem (s.addr j off)) + 8) (s1.mem (s.addr j off)) else s1).store
        (s.addr j off + 16) 1) := by
    intro s1 hs1
    split
    · exact hs1.trans (sameSegs_mem s1 _)
    · exact hs1.trans (sameSegs_mem s1 _)
  by_cases hr : need + 32 ≤ b.size
  · have hsplit := split_inv h hb hu hn hr
    obtain ⟨s1, hs1⟩ : ∃ s1, s1 = (((s.store (s.addr j off + need) (b.size - need)).store (s.addr j off + need + 8)
      need).store (s.addr j off + need + 16) 0).store (s.addr j off) need := ⟨_, rfl⟩
    rw [← hs1] at hsplit
    have hsame1 : SameSegs s s1 := hs1 ▸ sameSegs_mem s _
    have hadd : s1.addr j (off + need) = s.addr j off + need := by rw [hsame1.addr, addr_add]
    have hrest : Function.update (Function.update T (s.addr j off) (some { b with size := need })) (s.addr j off + need)
        (some ⟨b.size - need, need, .held⟩) (s1.addr j (off + need)) = some ⟨b.size - need, need, .held⟩ := by
      rw [hadd, Function.update_self]
    obtain ⟨h2, hsame2, -, -⟩ := membinPush_inv hsplit (by rw [hsame1.length]; exact hj)
      (by rw [hsame1.size]; omega) hrest rfl
    rw [hadd, Function.update_idem] at h2
    obtain ⟨s2, hs2⟩ : ∃ s2, s2 = membinPush s1 j (off + need) := ⟨_, rfl⟩
    rw [← hs2] at h2 hsame2
    have hsame := hsame1.trans hsame2
    have hb2 : Function.update (Function.update T (s.addr j off) (some { b with size := need })) (s.addr j off + need)
        (some ⟨b.size - need, need, .free⟩) (s2.addr j off) = some { b with size := need } := by
      rw [hsame.addr, Function.update_of_ne (by omega), Function.update_self]
    obtain ⟨T', h3, hwhole⟩ := handOut_inv h2 (by rw [hsame.length]; exact hj) (by rw [hsame.size]; exact ho) hb2 hu
    have hmem : s2.mem (s.addr j off) = need := by
      have := (h2.headers _ _ hb2).1
      rwa [hsame.addr] at this
    have heq : takeBlock s j off need = (if off + need < (s2.seg j).size then
        s2.store (s2.addr j (off + need) + 8) need else s2).store (s2.addr j off + 16) 1 := by
      have hcond : s.mem (s.addr j off) ≥ need + HDR + 8 := by
        rw [hsize, HDR]
        omega
      have hsplitEq : splitBlock s j off need = s2 := by
        rw [hs2, hs1, splitBlock, hsize, addr_add]
      rw [takeBlock]
      simp only [if_pos hcond, hsplitEq, hmem, hsame.addr]
    have hs' := htail s2 hsame
    rw [hmem, ← hsame.size, ← hsame.addr, ← hsame.addr j off, ← heq] at hs'
    rw [← heq] at h3
    rw [hsame.addr] at hwhole
    refine ⟨T', h3, hs', Or.inl ⟨hr, hwhole.here, ?_, ?_⟩⟩
    · have := hwhole.next
      simp only at this
      rw [this, Function.update_self]
      rfl
    · intro x hx hx'
      rw [hwhole.other x hx hx', Function.update_of_ne hx', Function.update_of_ne hx]
  · obtain ⟨T', h3, hwhole⟩ := handOut_inv h hj ho hb hu
    have heq : takeBlock s j off need = (if off + b.size < (s.seg j).size then
        s.store (s.addr j (off + b.size) + 8) b.size else s).store (s.addr j off + 16) 1 := by
      have hcond : ¬b.size ≥ need + HDR + 8 := by
        rw [HDR]
        omega
      rw [takeBlock]
      simp only [hsize, if_neg hcond]
    have hs' := htail s (sameSegs_mem s s.mem)
    rw [hsize, ← heq] at hs'
    rw [← heq] at h3
    exact ⟨T', h3, hs', Or.inr ⟨by omega, hwhole⟩⟩

theorem membinPush_mem (s : Heap) (j off : Nat) {x : Nat} (hx : x ≠ s.addr j off + 24) :
    (membinPush s j off).mem x = s.mem x := by
  unfold membinPush
  dsimp only
  split
  · rfl
  · exact Function.update_of_ne hx _ _

theorem membinPush_same (hj : j < s.segs.length) (off : Nat) : SameSegs s (membinPush s j off) := by
  unfold membinPush
  dsimp only
  split
  · exact sameSegs_mem s s.mem
  · exact sameSegs_setBin hj _ _ _ _

/-- The stores of `takeBlock` are in the block, and in the tag of the next one. -/
private theorem takeBlock_mem (hj : j < s.segs.length) (hsize : s.mem (s.addr j off) = b.size) (hbs : 32 ≤ b.size)
    (hn : 32 ≤ need) {x : Nat}
    (hx : x < s.addr j off ∨ s.addr j off + b.size ≤ x)
    (htag : off + b.size < (s.seg j).size → x ≠ s.addr j off + b.size + 8) :
    (takeBlock s j off need).mem x = s.mem x := by
  rw [takeBlock]
  simp only [hsize]
  by_cases hr : b.size ≥ need + HDR + 8
  · have hcut : need + 32 ≤ b.size := by
      rw [HDR] at hr
      omega
    simp only [if_pos hr, splitBlock, hsize]
    obtain ⟨s1, hs1⟩ : ∃ s1, s1 = (((s.store (s.addr j (off + need)) (b.size - need)).store
      (s.addr j (off + need) + 8) need).store (s.addr j (off + need) + 16) 0).store (s.addr j off) need := ⟨_, rfl⟩
    rw [← hs1]
    have hsame1 : SameSegs s s1 := hs1 ▸ sameSegs_mem s _
    have hsame := hsame1.trans (membinPush_same (by rw [hsame1.length]; exact hj) (off + need))
    have hmem1 : s1.mem x = s.mem x := by
      rw [hs1]
      simp only [Heap.store, Function.update_apply, addr_add]
      rw [if_neg (by omega), if_neg (by omega), if_neg (by omega), if_neg (by omega)]
    have hlink : s1.addr j (off + need) + 24 = s.addr j off + need + 24 := by rw [hsame1.addr, addr_add]
    have hmem2 : (membinPush s1 j (off + need)).mem x = s.mem x :=
      (membinPush_mem s1 j (off + need) (by omega)).trans hmem1
    have hhead : (membinPush s1 j (off + need)).mem (s.addr j off) = need := by
      rw [membinPush_mem s1 j (off + need) (by omega), hs1, Heap.store_mem_self]
    obtain ⟨s2, hs2⟩ : ∃ s2, s2 = membinPush s1 j (off + need) := ⟨_, rfl⟩
    rw [← hs2] at hmem2 hhead hsame ⊢
    have hstore : ∀ s3 : Heap, s3.mem x = s.mem x → (s3.store (s.addr j off + 16) 1).mem x = s.mem x := by
      intro s3 h3
      exact (Function.update_of_ne (by omega) _ _).trans h3
    apply hstore
    split
    · rw [hhead, hsame.addr, addr_add]
      exact (Function.update_of_ne (by omega) _ _).trans hmem2
    · exact hmem2
  · simp only [if_neg hr, hsize]
    split
    · next hlt =>
      have hne := htag hlt
      rw [addr_add]
      exact (Function.update_of_ne (by omega) _ _).trans (Function.update_of_ne hne _ _)
    · exact Function.update_of_ne (by omega) _ _

/-- The segment and the offset of the block that `__jacl_alloc_bins` settles on: the first one that the bins of a
segment answer and that is large enough. -/
def binsChoice (s : Heap) (need : Nat) : Nat → Nat → Option (Nat × Nat)
  | 0, _ => none
  | fuel + 1, j =>
    if j ≥ s.segs.length then none
    else
      let off := (membinPop s j need).1
      if off = 0 ∨ s.mem (s.addr j off) < need then binsChoice s need fuel (j + 1) else some (j, off)

/-- What `__jacl_alloc_bins` does: nothing but tidying the bins, or the block of `binsChoice` is handed out. -/
structure BinsSpec (s s' : Heap) (T T' : Nat → Option Block) (A : Nat → Option Nat) (need : Nat)
    (choice : Option (Nat × Nat)) (answer : Option Nat) : Prop where
  inv : HeapInv s' T' A
  same : SameSegs s s'
  confined : Confined T s.mem s'.mem
  idle : answer = none → s'.mem = s.mem
  outcome : (choice = none ∧ answer = none ∧ T' = T) ∨ ∃ j off b, choice = some (j, off) ∧ j < s.segs.length ∧
    off < (s.seg j).size ∧ answer = some (s.addr j off + 24) ∧ Take T T' (s.addr j off) need b

private theorem membinPop_congr {s0 : Heap} (need : Nat) (hm : s.mem = s0.mem) (hg : s.seg j = s0.seg j) :
    (membinPop s j need).1 = (membinPop s0 j need).1 := by
  simp only [membinPop, hm, hg]
  split
  · rfl
  · split
    · rfl
    · split
      · rfl
      · split <;> rfl

theorem binsChoice_congr {s0 : Heap} (hm : s.mem = s0.mem) (hg : s.segs = s0.segs) (fuel j : Nat) :
    binsChoice s need fuel j = binsChoice s0 need fuel j := by
  have hseg : ∀ k, s.seg k = s0.seg k := fun k => by simp only [Heap.seg, hg]
  have haddr : ∀ k o, s.addr k o = s0.addr k o := fun k o => by simp only [Heap.addr, hseg]
  induction fuel generalizing j with
  | zero => rfl
  | succ fuel ih => simp only [binsChoice, ih, hg, hm, membinPop_congr need hm (hseg j), haddr]

theorem allocBins_inv {s0 : Heap} (fuel : Nat) (h : HeapInv s T A) (hn : 32 ≤ need) (hs : SameSegs s0 s)
    (hm : s.mem = s0.mem) (hg : ∀ k, j ≤ k → s.seg k = s0.seg k) :
    ∃ T', BinsSpec s0 (allocBins need fuel j s).2 T T' A need (binsChoice s0 need fuel j)
    (allocBins need fuel j s).1 := by
  induction fuel generalizing j s with
  | zero => exact ⟨T, h, hs, hm ▸ Confined.refl T s.mem, fun _ => hm, Or.inl ⟨rfl, rfl, rfl⟩⟩
  | succ fuel ih =>
    rw [allocBins, binsChoice, hs.length]
    by_cases hj : j ≥ s0.segs.length
    · rw [if_pos hj, if_pos hj]
      exact ⟨T, h, hs, hm ▸ Confined.refl T s.mem, fun _ => hm, Or.inl ⟨rfl, rfl, rfl⟩⟩
    · rw [if_neg hj, if_neg hj]
      have hj' : j < s.segs.length := by rw [hs.length]; omega
      have hpop := membinPop_congr need hm (hg j le_rfl)
      obtain ⟨hsame, hmem, hother, hcases⟩ := membinPop_inv h hj' need
      rcases hr : membinPop s j need with ⟨off, s1⟩
      rw [hr] at hpop hsame hmem hother hcases
      simp only at hpop hsame hmem hother hcases ⊢
      rw [← hpop]
      rcases hcases with ⟨hz, hinv⟩ | ⟨hz, ho, b, hb, hfree, hlink, hinv⟩
      · rw [if_pos hz, if_pos (Or.inl hz)]
        refine ih hinv (hs.trans hsame) (hmem.trans hm) ?_
        intro k hk
        rw [hother k (by omega), hg k (by omega)]
      · -- the header of the block that the bin answers
        have haddr : s1.addr j off = s.addr j off := hsame.addr j off
        have haddr0 : s0.addr j off = s.addr j off := (hs.addr j off).symm
        have hsize : s.mem (s.addr j off) = b.size := (h.headers _ _ hb).1
        have hb1 : Function.update T (s.addr j off) (some { b with use := .held }) (s1.addr j off) =
            some { b with use := .held } := by
          rw [haddr, Function.update_self]
        have hj1 : j < s1.segs.length := by rw [hsame.length]; exact hj'
        have ho1 : off < (s1.seg j).size := by rw [hsame.size]; exact ho
        rw [if_neg hz, haddr, haddr0, hmem, ← hm, hsize]
        by_cases hlt : b.size < need
        · -- too small: it goes back to the front of its bin, where it was
          rw [if_pos hlt, if_pos (Or.inr hlt)]
          obtain ⟨h2, hsame2, hother2, hmem2⟩ := membinPush_inv hinv hj1 ho1 hb1 rfl
          rw [haddr, Function.update_idem] at h2
          have hT : Function.update T (s.addr j off) (some { b with use := .free }) = T := by
            rw [← hfree]
            exact hb ▸ Function.update_eq_self _ _
          have hmem2' : (membinPush s1 j off).mem = s0.mem := by
            have hself : s.mem (s.addr j off + 24) = s1.mem (s1.addr j off + 24) := by rw [hmem, haddr]
            rw [hmem2]
            simp only
            rw [hlink, hself, Function.update_eq_self, hmem, hm]
          refine ih (hT ▸ h2) (hs.trans (hsame.trans hsame2)) hmem2' ?_
          intro k hk
          rw [hother2 k (by omega), hother k (by omega), hg k (by omega)]
        · rw [if_neg hlt, if_neg (by omega)]
          obtain ⟨T', h2, hsame2, hhow⟩ := takeBlock_inv hinv hj1 ho1 hb1 rfl hn
          rw [haddr] at hhow
          have hsz := h.tiling.min_le hb
          have hnu : b.use ≠ .used := fun he => nomatch hfree.symm.trans he
          refine ⟨T', h2, hs.trans (hsame.trans hsame2), ?_, (fun he => nomatch he),
            Or.inr ⟨j, off, b, rfl, by omega, ?_, by rw [haddr0]; rfl, ?_⟩⟩
          · intro x hx
            rw [← hm, ← hmem]
            have hsize1 : s1.mem (s1.addr j off) = b.size := by rw [hmem, haddr, hsize]
            refine takeBlock_mem hj1 hsize1 hsz hn ?_ ?_
            · rw [haddr]
              exact (hx _ b hb).2 hnu
            · intro hlast
              rw [hsame.size] at hlast
              obtain ⟨d, hd⟩ := h.exists_next hj' hb hlast
              rw [haddr, ← addr_add]
              exact (hx _ d hd).1
          · rw [← hs.size]
            exact ho
          rw [haddr0]
          refine ⟨hb, hfree, by omega, ?_⟩
          rcases hhow with ⟨h3, h4, h5, h6⟩ | ⟨h3, h4, h5, h6⟩
          · refine Or.inl ⟨h3, h4, h5, fun x hx hx' => ?_⟩
            rw [h6 x hx hx', Function.update_of_ne hx]
          · refine Or.inr ⟨h3, h4, ?_, fun x hx hx' => ?_⟩
            · simp only at h5
              rw [h5, Function.update_of_ne (by omega)]
            · rw [h6 x hx hx', Function.update_of_ne hx]

end JACLibc
