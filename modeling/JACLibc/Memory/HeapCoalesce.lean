import JACLibc.Memory.HeapBins

/-!
# Coalescing

`__jacl_free_coalesce` makes one free block of a freed block and its free neighbours.  Going backwards it trusts the
tag of the block: the lemmas ask that the tag is the size of the block right before it, and that neither neighbour is
one of the recycling cache.  The last part says when the tags are right: `TagsOk` is kept by every merge and by blocks
handed out whole, and by a cut only at the end of a segment.
-/

namespace JACLibc

open Linked

variable {s s' : Heap} {T T' : Nat → Option Block} {A : Nat → Option Nat} {a j i off v need : Nat} {b c : Block}

/-! ### Coalescing -/

/-- The blocks `b` at `a` and `c` after it have become one held block; the tag of the block after both is set. -/
structure Joined (T T' : Nat → Option Block) (a : Nat) (b c : Block) : Prop where
  here : T' a = some ⟨b.size + c.size, b.tag, .held⟩
  gone : T' (a + b.size) = none
  next : T' (a + b.size + c.size) = (T (a + b.size + c.size)).map fun d => { d with tag := b.size + c.size }
  other : ∀ x, x ≠ a → x ≠ a + b.size → x ≠ a + b.size + c.size → T' x = T x

private theorem join_inv (h : HeapInv s T A) (hj : j < s.segs.length) (ho : off + b.size < (s.seg j).size)
    (hb : T (s.addr j off) = some b) (hbu : b.use = .held) (hc : T (s.addr j (off + b.size)) = some c)
    (hcu : c.use = .held) :
    ∃ T', HeapInv (if off + (b.size + c.size) < (s.seg j).size then
        (s.store (s.addr j off) (b.size + c.size)).store (s.addr j (off + (b.size + c.size)) + 8) (b.size + c.size)
      else s.store (s.addr j off) (b.size + c.size)) T' A ∧ Joined T T' (s.addr j off) b c := by
  have hbs := h.tiling.min_le hb
  have hcs := h.tiling.min_le hc
  have hend := h.bounds hj ho hc
  have hmerge := merge_inv h hj ho hb hbu hc hcu
  have hsame : SameSegs s (s.store (s.addr j off) (b.size + c.size)) := sameSegs_mem s _
  obtain ⟨T1, hT1⟩ : ∃ T1, T1 = Function.update (Function.update T (s.addr j (off + b.size)) none) (s.addr j off)
    (some { b with size := b.size + c.size }) := ⟨_, rfl⟩
  rw [← hT1] at hmerge
  have hhere : T1 (s.addr j off) = some ⟨b.size + c.size, b.tag, .held⟩ := by
    rw [hT1, Function.update_self, ← hbu]
  have hgone : T1 (s.addr j off + b.size) = none := by
    rw [hT1, addr_add, Function.update_of_ne (by omega), Function.update_self]
  have hother : ∀ x, x ≠ s.addr j off → x ≠ s.addr j off + b.size → T1 x = T x := by
    intro x hx hx'
    rw [hT1, Function.update_of_ne hx, addr_add, Function.update_of_ne hx']
  have hadd : s.addr j (off + (b.size + c.size)) = s.addr j off + b.size + c.size := by
    rw [addr_add, Nat.add_assoc]
  split
  · next hn =>
    obtain ⟨d, hd⟩ := hmerge.exists_next (b := ⟨b.size + c.size, b.tag, .held⟩) hj (by rw [hsame.addr, hhere]) hn
    rw [hsame.addr] at hd
    have h1 := hmerge.retag hd (b.size + c.size)
    rw [hadd] at hd h1 ⊢
    refine ⟨_, h1, ?_, ?_, ?_, ?_⟩
    · rw [Function.update_of_ne (by omega), hhere]
    · rw [Function.update_of_ne (by omega), hgone]
    · rw [Function.update_self, ← hother _ (by omega) (by omega), hd]
      rfl
    · intro x hx hx' hx''
      rw [Function.update_of_ne hx'', hother x hx hx']
  · next hn =>
    refine ⟨T1, hmerge, hhere, hgone, ?_, fun x hx hx' _ => hother x hx hx'⟩
    have hlast : s.addr j off + b.size + c.size = s.addr j (s.seg j).size := by
      simp only [Heap.addr]
      omega
    rw [hother _ (by omega) (by omega), hlast, no_block_at_end h hj]
    rfl

/-- The stores of a merge are in the first block, which is not used, and in the tag of the block after both. -/
private theorem join_mem (h : HeapInv s T A) (hj : j < s.segs.length)
    (hb : T (s.addr j off) = some b) (hbu : b.use ≠ .used) (hc : T (s.addr j (off + b.size)) = some c) {s1 : Heap}
    (hs : SameSegs s s1) (hspare : Sparing T s.mem s1.mem) (v w : Nat) :
    Sparing T s.mem (if off + (b.size + c.size) < (s1.seg j).size then
        (s1.store (s.addr j off) v).store (s.addr j (off + (b.size + c.size)) + 8) w
      else s1.store (s.addr j off) v).mem := by
  have hfirst : Sparing T s.mem (s1.store (s.addr j off) v).mem :=
    hspare.trans (sparing_update hb hbu (Or.inl rfl) v) fun _ hx => hx
  rw [hs.size]
  split
  · next hn =>
    rw [← Nat.add_assoc] at hn ⊢
    obtain ⟨d, hd⟩ := h.exists_next hj hc hn
    intro x hx
    exact (Function.update_of_ne (hx _ d hd).1 _ _).trans (hfirst x hx)
  · exact hfirst

/-- The next block is free and can be merged. -/
def mergesNext (s : Heap) (j off : Nat) : Bool :=
  let next_off := off + s.mem (s.addr j off)
  next_off < (s.seg j).size && !isAlloc (s.mem (s.addr j next_off + 16))

/-- The block that `prev_size` leads to is free and is merged. -/
def mergesPrev (s : Heap) (j off : Nat) : Bool :=
  let prev_size := s.mem (s.addr j off + 8)
  let prev_off := off - prev_size
  (off > 0 && prev_size > 0 && prev_size ≤ off) &&
    (prev_off + HDR ≤ (s.seg j).size && !isAlloc (s.mem (s.addr j prev_off + 16)))

/-- The forward part of the coalescing, where the next block is not one of the cache. -/
theorem coalesceNext_inv (h : HeapInv s T A) (hj : j < s.segs.length)
    (hb : T (s.addr j off) = some b) (hu : b.use = .held)
    (hnext : mergesNext s j off → ∀ c, T (s.addr j off + b.size) = some c → c.use = .free) :
    SameSegs s (coalesceNext s j off) ∧ Sparing T s.mem (coalesceNext s j off).mem ∧
      ((mergesNext s j off = false ∧ coalesceNext s j off = s) ∨
      ∃ c T', T (s.addr j off + b.size) = some c ∧ c.use = .free ∧ HeapInv (coalesceNext s j off) T' A ∧
        Joined T T' (s.addr j off) b c) := by
  have hsize : s.mem (s.addr j off) = b.size := (h.headers _ _ hb).1
  have hself : SameSegs s s := sameSegs_mem s s.mem
  rw [coalesceNext]
  simp only [hsize]
  by_cases hn : off + b.size < (s.seg j).size
  swap
  · rw [if_neg hn]
    exact ⟨hself, Sparing.refl T s.mem, Or.inl ⟨by simp [mergesNext, hsize, hn], rfl⟩⟩
  rw [if_pos hn]
  by_cases ha : isAlloc (s.mem (s.addr j (off + b.size) + 16)) = true
  · rw [if_neg (by simp [ha])]
    exact ⟨hself, Sparing.refl T s.mem, Or.inl ⟨by simp [mergesNext, hsize, ha], rfl⟩⟩
  rw [if_pos ha]
  obtain ⟨c, hc⟩ := h.exists_next hj hb hn
  have hcu : c.use = .free := hnext (by simp [mergesNext, hsize, hn, ha]) c (by rw [← addr_add, hc])
  obtain ⟨h1, hsame1, hspare1⟩ := membinRemove_inv h hj hn hc hcu
  obtain ⟨s1, hs1⟩ : ∃ s1, s1 = membinRemove s j (off + b.size) := ⟨_, rfl⟩
  rw [← hs1] at h1 hsame1 hspare1 ⊢
  have hbs := h.tiling.min_le hb
  have hend := h.bounds hj hn hc
  have hb1 : Function.update T (s.addr j (off + b.size)) (some { c with use := .held }) (s1.addr j off) = some b := by
    rw [hsame1.addr, addr_add, Function.update_of_ne (by omega), hb]
  have hc1 : Function.update T (s.addr j (off + b.size)) (some { c with use := .held }) (s1.addr j (off + b.size)) =
      some { c with use := .held } := by
    rw [hsame1.addr, Function.update_self]
  obtain ⟨T', h2, hjoin⟩ := join_inv h1 (by rw [hsame1.length]; exact hj) (by rw [hsame1.size]; exact hn) hb1 hu hc1 rfl
  have hm1 : s1.mem (s.addr j off) = b.size := by
    rw [← hsame1.addr]
    exact (h1.headers _ _ hb1).1
  have hm2 : s1.mem (s.addr j (off + b.size)) = c.size := by
    rw [← hsame1.addr]
    exact (h1.headers _ _ hc1).1
  -- sizes stay below 2^32, so that the 32-bit offset is exact
  have hmod : (off + (b.size + c.size)) % 2 ^ 32 = off + (b.size + c.size) := by
    have := h.segs.size_le hj
    rw [JACL_HEAP_MAX] at this
    omega
  simp only [hsame1.addr] at h2 hjoin
  simp only [Heap.store_seg, Heap.store_addr, Heap.store_mem_self, hsame1.addr, hm1, hm2, hmod]
  have hbu : b.use ≠ .used := fun he => nomatch hu.symm.trans he
  refine ⟨?_, join_mem h hj hb hbu hc hsame1 hspare1 _ _, Or.inr ⟨c, T', by rw [← addr_add, hc], hcu, h2, ?_⟩⟩
  · split
    · exact hsame1.trans (sameSegs_mem s1 _)
    · exact hsame1.trans (sameSegs_mem s1 _)
  · obtain ⟨h3, h4, h5, h6⟩ := hjoin
    have hcs := h.tiling.min_le hc
    refine ⟨h3, h4, ?_, fun x hx hx' hx'' => ?_⟩
    · simp only at h5
      rw [h5, addr_add, Function.update_of_ne (by omega)]
    · rw [h6 x hx hx' hx'', addr_add, Function.update_of_ne hx']

/-- The backward part of the coalescing, where the tag of the block is the size of the block right before it. -/
theorem coalescePrev_inv (h : HeapInv s T A) (hj : j < s.segs.length) (ho : off < (s.seg j).size)
    (hb : T (s.addr j off) = some b) (hu : b.use = .held)
    (hprev : mergesPrev s j off → b.tag ≤ off ∧ ∃ c, T (s.addr j (off - b.tag)) = some c ∧ c.size = b.tag ∧
    c.use = .free) :
    SameSegs s (coalescePrev s j off).2 ∧ Sparing T s.mem (coalescePrev s j off).2.mem ∧
      ((mergesPrev s j off = false ∧ coalescePrev s j off = (off, s)) ∨
      ∃ c T', (coalescePrev s j off).1 + c.size = off ∧ T (s.addr j (coalescePrev s j off).1) = some c ∧ c.use = .free ∧
        HeapInv (coalescePrev s j off).2 T' A ∧ Joined T T' (s.addr j (coalescePrev s j off).1) c b) := by
  obtain ⟨hsize, htag, -⟩ := h.headers _ _ hb
  have hself : SameSegs s s := sameSegs_mem s s.mem
  rw [coalescePrev]
  simp only [htag]
  by_cases hg : off > 0 ∧ b.tag > 0 ∧ b.tag ≤ off
  swap
  · rw [if_neg hg]
    refine ⟨hself, Sparing.refl T s.mem, Or.inl ⟨?_, rfl⟩⟩
    simp only [mergesPrev, htag, Bool.and_eq_false_imp, Bool.and_eq_true, decide_eq_true_eq]
    rintro ⟨⟨h1, h2⟩, h3⟩
    exact absurd ⟨h1, h2, h3⟩ hg
  rw [if_pos hg]
  by_cases ha : off - b.tag + HDR ≤ (s.seg j).size ∧ ¬isAlloc (s.mem (s.addr j (off - b.tag) + 16)) = true
  swap
  · rw [if_neg ha]
    refine ⟨hself, Sparing.refl T s.mem, Or.inl ⟨?_, rfl⟩⟩
    simp only [mergesPrev, htag, Bool.and_eq_false_imp, Bool.and_eq_true, decide_eq_true_eq]
    intro _ h1
    rw [Bool.not_eq_false']
    by_contra h2
    exact ha ⟨h1, h2⟩
  rw [if_pos ha]
  have hm : mergesPrev s j off = true := by
    simp [mergesPrev, htag, hg, ha.1, ha.2]
  obtain ⟨-, c, hc, hct, hcu⟩ := hprev hm
  have hpo : off - b.tag < (s.seg j).size := by omega
  obtain ⟨h1, hsame1, hspare1⟩ := membinRemove_inv h hj hpo hc hcu
  obtain ⟨s1, hs1⟩ : ∃ s1, s1 = membinRemove s j (off - b.tag) := ⟨_, rfl⟩
  rw [← hs1] at h1 hsame1 hspare1 ⊢
  have hcs := h.tiling.min_le hc
  have hbs := h.tiling.min_le hb
  have hend := h.bounds hj ho hb
  have hback : off - b.tag + c.size = off := by omega
  have hne : s.addr j off ≠ s.addr j (off - b.tag) := by
    simp only [Heap.addr]
    omega
  have hc1 : Function.update T (s.addr j (off - b.tag)) (some { c with use := .held }) (s1.addr j (off - b.tag)) =
      some { c with use := .held } := by
    rw [hsame1.addr, Function.update_self]
  have hb1 : Function.update T (s.addr j (off - b.tag)) (some { c with use := .held })
      (s1.addr j (off - b.tag + c.size)) = some b := by
    rw [hback, hsame1.addr, Function.update_of_ne hne, hb]
  obtain ⟨T', h2, hjoin⟩ := join_inv h1 (by rw [hsame1.length]; exact hj) (by rw [hsame1.size]; simp only; omega)
    hc1 rfl hb1 hu
  have hm1 : s1.mem (s.addr j (off - b.tag)) = c.size := by
    rw [← hsame1.addr]
    exact (h1.headers _ _ hc1).1
  have hm2 : s1.mem (s.addr j off) = b.size := by
    have := (h1.headers _ _ hb1).1
    rwa [hback, hsame1.addr] at this
  simp only [hsame1.addr] at h2 hjoin
  simp only [Heap.store_seg, Heap.store_addr, Heap.store_mem_self, hsame1.addr, hm1, hm2]
  have hnu : c.use ≠ .used := fun he => by cases hcu.symm.trans he
  have hb' : T (s.addr j (off - b.tag + c.size)) = some b := by rw [hback, hb]
  refine ⟨?_, join_mem h hj hc hnu hb' hsame1 hspare1 _ _, Or.inr ⟨c, T', hback, hc, hcu, h2, ?_⟩⟩
  · split
    · exact hsame1.trans (sameSegs_mem s1 _)
    · exact hsame1.trans (sameSegs_mem s1 _)
  · obtain ⟨h3, h4, h5, h6⟩ := hjoin
    refine ⟨h3, h4, ?_, fun x hx hx' hx'' => ?_⟩
    · simp only at h5
      rw [h5, Function.update_of_ne (by omega)]
    · rw [h6 x hx hx' hx'', Function.update_of_ne hx]

/-! ### What a merge keeps -/

namespace Joined

variable (hT : Joined T T' a b c)
include hT

theorem keeps (hb : T a = some b) (hbu : b.use ≠ .used) (hc : T (a + b.size) = some c) (hcu : c.use ≠ .used) :
    Keeps T T' := by
  intro x d hd hu
  have h1 : x ≠ a := by
    rintro rfl
    rw [hb, Option.some.injEq] at hd
    exact hbu (hd ▸ hu)
  have h2 : x ≠ a + b.size := by
    rintro rfl
    rw [hc, Option.some.injEq] at hd
    exact hcu (hd ▸ hu)
  rcases eq_or_ne x (a + b.size + c.size) with rfl | h3
  · refine ⟨{ d with tag := b.size + c.size }, ?_, hu, rfl⟩
    rw [hT.next, hd]
    rfl
  · exact ⟨d, by rw [hT.other x h1 h2 h3, hd], hu, rfl⟩

/-- A block of the new map is the merged one, or an old one but for the tag. -/
theorem cases {x : Nat} {d : Block} (hd : T' x = some d) :
    (x = a ∧ d = ⟨b.size + c.size, b.tag, .held⟩) ∨ (x ≠ a ∧ x ≠ a + b.size ∧ ∃ e, T x = some e ∧ d.size = e.size ∧
      d.use = e.use ∧ d.tag = if x = a + b.size + c.size then b.size + c.size else e.tag) := by
  rcases eq_or_ne x a with rfl | h1
  · rw [hT.here, Option.some.injEq] at hd
    exact Or.inl ⟨rfl, hd.symm⟩
  · rcases eq_or_ne x (a + b.size) with rfl | h2
    · rw [hT.gone] at hd
      cases hd
    · right
      refine ⟨h1, h2, ?_⟩
      rcases eq_or_ne x (a + b.size + c.size) with rfl | h3
      · rw [hT.next, Option.map_eq_some_iff] at hd
        obtain ⟨e, h4, rfl⟩ := hd
        exact ⟨e, h4, rfl, rfl, by rw [if_pos rfl]⟩
      · rw [hT.other x h1 h2 h3] at hd
        exact ⟨d, hd, rfl, rfl, by rw [if_neg h3]⟩

theorem grid (hb : T a = some b) (hc : T (a + b.size) = some c) (h : Grid T) : Grid T' := by
  obtain ⟨ha, hbs⟩ := h a b hb
  obtain ⟨-, hcs⟩ := h _ c hc
  intro x d hd
  rcases hT.cases hd with ⟨rfl, rfl⟩ | ⟨-, -, e, he, hsize, -⟩
  · simp only
    omega
  · obtain ⟨hx, hes⟩ := h x e he
    exact ⟨hx, hsize ▸ hes⟩

/-- The merged blocks were not used. -/
theorem spared (hb : T a = some b) (hbu : b.use ≠ .used) {x : Nat} (hx : Spared T x) : Spared T' x := by
  intro y d hd
  rcases hT.cases hd with ⟨rfl, rfl⟩ | ⟨-, -, e, he, -, huse, -⟩
  · obtain ⟨h1, h2⟩ := hx y b hb
    exact ⟨h1, fun _ => h2 hbu⟩
  · obtain ⟨h1, h2⟩ := hx y e he
    exact ⟨h1, fun hu => h2 (huse ▸ hu)⟩

theorem held {P : Nat → Prop} (h : HeldIn T P) : HeldIn T' fun x => x = a ∨ x ≠ a + b.size ∧ P x := by
  intro x d hd hu
  rcases hT.cases hd with ⟨h1, -⟩ | ⟨-, h1, e, h2, -, h3, -⟩
  · exact Or.inl h1
  · exact Or.inr ⟨h1, h x e h2 (h3 ▸ hu)⟩

theorem tagsOk (h : HeapInv s T A) (hb : T a = some b) (hc : T (a + b.size) = some c) (ht : TagsOk s T) :
    TagsOk s T' := by
  have hbs := h.tiling.min_le hb
  constructor
  · intro x d e hd he
    rcases hT.cases hd with ⟨rfl, rfl⟩ | ⟨h1, h2, d', h3, h4, -, -⟩
    · -- after the merged block
      simp only at he ⊢
      rw [← Nat.add_assoc, hT.next, Option.map_eq_some_iff] at he
      obtain ⟨e', -, rfl⟩ := he
      rfl
    · rcases hT.cases he with ⟨h5, rfl⟩ | ⟨h5, h6, e', h7, -, -, h8⟩
      · rw [h4] at h5 ⊢
        have hlink := ht.link (c := b) h3 (by rw [h5, hb])
        exact hlink
      · rw [h4] at h7 h8 ⊢
        have hne : x + d'.size ≠ a + b.size + c.size := by
          intro hend
          exact h2 (h.end_inj h3 hc hend)
        rw [h8, if_neg hne]
        exact ht.link h3 h7
  · intro j d hj hd
    rcases hT.cases hd with ⟨h1, rfl⟩ | ⟨-, -, d', h3, -, -, h4⟩
    · have hfirst := ht.first (b := b) hj (by rw [h1, hb])
      exact hfirst
    · rw [h4, if_neg (Ne.symm (h.ne_first hc hj))]
      exact ht.first hj h3

end Joined

/-- Halfway through the coalescing: the block `d` at offset `o`, and it alone, is held, and what was handed out still
is. -/
private structure Midway (s s' : Heap) (T T' : Nat → Option Block) (A : Nat → Option Nat) (j o : Nat) (d : Block) :
    Prop where
  same : SameSegs s s'
  inv : HeapInv s' T' A
  here : T' (s.addr j o) = some d
  use : d.use = .held
  held : HeldIn T' (· = s.addr j o)
  keeps : Keeps T T'
  tags : TagsOk s T → TagsOk s T'
  grid : Grid T → Grid T'
  sparing : Sparing T s.mem s'.mem
  spared : ∀ x, Spared T x → Spared T' x

/-- The last step puts the block into its bin. -/
private theorem Midway.push {o : Nat} {d : Block} (h : Midway s s' T T' A j o d) (hj : j < s.segs.length)
    (ho : o < (s.seg j).size) :
    ∃ T', HeapInv (membinPush s' j o) T' A ∧ SameSegs s (membinPush s' j o) ∧ Keeps T T' ∧
      HeldIn T' (fun _ => False) ∧ (TagsOk s T → TagsOk s T') ∧ (Grid T → Grid T') ∧
      Sparing T s.mem (membinPush s' j o).mem ∧ T' (s.addr j o) = some { d with use := .free } := by
  obtain ⟨hinv, hsame, -, hmem⟩ :=
    membinPush_inv h.inv (by rw [h.same.length]; exact hj) (by rw [h.same.size]; exact ho)
    (by rw [h.same.addr]; exact h.here) h.use
  rw [h.same.addr] at hinv hmem
  have hnu : d.use ≠ .used := fun he => nomatch h.use.symm.trans he
  have hds := h.inv.tiling.min_le h.here
  refine ⟨_, hinv, h.same.trans hsame, h.keeps.trans (Keeps.update h.here hnu _), ?_,
    fun ht => (h.tags ht).update h.here _, ?_, ?_, Function.update_self _ _ _⟩
  · intro x c hc hcu
    obtain ⟨hne, he⟩ := h.held.update (c := { d with use := .free }) (fun he => nomatch he) _ x c hc hcu
    exact hne he
  · intro hg
    obtain ⟨h1, h2⟩ := h.grid hg _ d h.here
    exact (h.grid hg).update h1 h2
  · rw [hmem]
    exact h.sparing.trans (sparing_update h.here hnu (Or.inr (addr_add ..)) _) h.spared

/-- A block that is neither used nor cached nor the one that is held is free. -/
private theorem HeldIn.free {x : Nat} (hheld : HeldIn T (· = a)) (hc : T x = some c) (hx : x ≠ a)
    (hcached : ∀ r, c.use ≠ .cached r) (halloc : isAlloc c.use.flags = false) : c.use = .free := by
  rcases hcu : c.use with _ | _ | _ | r
  · rw [hcu] at halloc
    cases halloc
  · rfl
  · exact absurd (hheld x c hc hcu) hx
  · exact absurd hcu (hcached r)

/-- The forward part keeps the tag of the block and what lies before it. -/
private theorem midway_next (h : HeapInv s T A) (hj : j < s.segs.length) (hb : T (s.addr j off) = some b)
    (hu : b.use = .held) (hheld : HeldIn T (· = s.addr j off))
    (hnext : mergesNext s j off → ∀ c r, T (s.addr j off + b.size) = some c → c.use ≠ .cached r) :
    ∃ T' d, Midway s (coalesceNext s j off) T T' A j off d ∧ d.tag = b.tag ∧ b.size ≤ d.size ∧
      ∀ x c, x < s.addr j off → T x = some c → T' x = some c := by
  have hsize : s.mem (s.addr j off) = b.size := (h.headers _ _ hb).1
  have hbs := h.tiling.min_le hb
  have hfree : mergesNext s j off → ∀ c, T (s.addr j off + b.size) = some c → c.use = .free := by
    intro hm c hc
    refine hheld.free hc (by omega) (fun r => hnext hm c r hc) ?_
    rw [mergesNext, hsize, Bool.and_eq_true, Bool.not_eq_true', addr_add, (h.headers _ _ hc).2.2] at hm
    exact hm.2
  obtain ⟨hsame, hspare, ⟨-, he⟩ | ⟨c, T', hc, hcu, h1, hjoin⟩⟩ := coalesceNext_inv h hj hb hu hfree
  · refine ⟨T, b, ?_, rfl, le_rfl, fun x c _ hc => hc⟩
    rw [he]
    exact ⟨sameSegs_mem s s.mem, h, hb, hu, hheld, fun x c hc hcu => ⟨c, hc, hcu, rfl⟩, id, id, Sparing.refl T s.mem,
      fun _ hx => hx⟩
  · have hbu : b.use ≠ .used := fun he => nomatch hu.symm.trans he
    have hcu' : c.use ≠ .used := fun he => nomatch hcu.symm.trans he
    refine ⟨T', _, ⟨hsame, h1, hjoin.here, rfl, ?_, ?_, hjoin.tagsOk h hb hc, hjoin.grid hb hc, hspare,
      fun _ => hjoin.spared hb hbu⟩, rfl, Nat.le_add_right _ _, ?_⟩
    · intro x d hd hdu
      rcases hjoin.held hheld x d hd hdu with hx | ⟨-, hx⟩
      · exact hx
      · exact hx
    · exact hjoin.keeps hb hbu hc hcu'
    · intro x c' hx hc'
      rw [hjoin.other x (by omega) (by omega) (by omega), hc']

/-- The backward part may go on with an earlier block. -/
private theorem Midway.prev (h : Midway s s' T T' A j off b) (hj : j < s.segs.length) (ho : off < (s.seg j).size)
    (hprev : mergesPrev s' j off → b.tag ≤ off ∧
      ∃ c, T' (s'.addr j (off - b.tag)) = some c ∧ c.size = b.tag ∧ c.use = .free) :
    ∃ T2 d, (coalescePrev s' j off).1 ≤ off ∧ off + b.size ≤ (coalescePrev s' j off).1 + d.size ∧
      Midway s (coalescePrev s' j off).2 T T2 A j (coalescePrev s' j off).1 d := by
  obtain ⟨hsame, hspare, hcase⟩ :=
    coalescePrev_inv h.inv (by rw [h.same.length]; exact hj) (by rw [h.same.size]; exact ho)
    (by rw [h.same.addr]; exact h.here) h.use hprev
  rcases hcase with ⟨-, he⟩ | ⟨c, T2, hoff, hc, hcu, h2, hjoin⟩
  · rw [he]
    exact ⟨T', b, le_rfl, le_rfl, h⟩
  rcases hr : coalescePrev s' j off with ⟨o, s2⟩
  rw [hr] at hsame hspare hoff hc h2 hjoin
  simp only at hsame hspare hoff hc h2 hjoin ⊢
  rw [h.same.addr] at hc hjoin
  have hat : s.addr j o + c.size = s.addr j off := by rw [← addr_add, hoff]
  have hhere : T' (s.addr j o + c.size) = some b := by rw [hat, h.here]
  have hcu' : c.use ≠ .used := fun he => nomatch hcu.symm.trans he
  have hbu : b.use ≠ .used := fun he => nomatch h.use.symm.trans he
  refine ⟨T2, _, by omega, by simp only; omega, h.same.trans hsame, h2, hjoin.here, rfl, ?_, ?_, ?_,
    fun hg => hjoin.grid hc hhere (h.grid hg), h.sparing.trans hspare h.spared, fun x hx =>
    hjoin.spared hc hcu' (h.spared x hx)⟩
  · intro x d hd hdu
    rcases hjoin.held h.held x d hd hdu with hx | ⟨hx, hx'⟩
    · exact hx
    · exact absurd (hx'.trans hat.symm) hx
  · exact h.keeps.trans (hjoin.keeps hc hcu' hhere hbu)
  · intro ht
    have ht' := (tagsOk_congr h.same.toSamePlaces).2 (h.tags ht)
    exact (tagsOk_congr h.same.toSamePlaces).1 (hjoin.tagsOk h.inv hc hhere ht')

/-- `__jacl_free_coalesce` of a held block, where it merges only free blocks that lie right beside it. -/
theorem freeCoalesce_inv (h : HeapInv s T A) (hj : j < s.segs.length) (ho : off < (s.seg j).size)
    (hb : T (s.addr j off) = some b) (hu : b.use = .held) (hheld : HeldIn T (· = s.addr j off))
    (hnext : JACL_COALESCING ≤ b.size → mergesNext s j off →
      ∀ c r, T (s.addr j off + b.size) = some c → c.use ≠ .cached r)
    (hprev : JACL_COALESCING ≤ b.size → mergesPrev (coalesceNext s j off) j off → 0 < b.tag → b.tag ≤ off →
      ∃ c, T (s.addr j (off - b.tag)) = some c ∧ c.size = b.tag ∧ ∀ r, c.use ≠ .cached r) :
    ∃ T', HeapInv (freeCoalesce s j off) T' A ∧ SameSegs s (freeCoalesce s j off) ∧ Keeps T T' ∧
      HeldIn T' (fun _ => False) ∧ (TagsOk s T → TagsOk s T') ∧ (Grid T → Grid T') ∧
      Sparing T s.mem (freeCoalesce s j off).mem ∧
      ∃ o d, T' (s.addr j o) = some d ∧ d.use = .free ∧ o ≤ off ∧ off + b.size ≤ o + d.size := by
  have hsize : s.mem (s.addr j off) = b.size := (h.headers _ _ hb).1
  rw [freeCoalesce, hsize]
  by_cases hcoal : b.size ≥ JACL_COALESCING
  swap
  · rw [if_neg hcoal]
    have hstart : Midway s s T T A j off b :=
      ⟨sameSegs_mem s s.mem, h, hb, hu, hheld, fun x c hc hcu => ⟨c, hc, hcu, rfl⟩, id, id, Sparing.refl T s.mem,
        fun _ hx => hx⟩
    obtain ⟨T', h1, h2, h3, h4, h5, h6, h7, h8⟩ := hstart.push hj ho
    exact ⟨T', h1, h2, h3, h4, h5, h6, h7, off, _, h8, rfl, le_rfl, le_rfl⟩
  rw [if_pos hcoal]
  obtain ⟨T1, d, hmid, htag, hgrown, hbelow⟩ := midway_next h hj hb hu hheld (hnext hcoal)
  obtain ⟨s1, hs1⟩ : ∃ s1, s1 = coalesceNext s j off := ⟨_, rfl⟩
  rw [← hs1] at hprev hmid ⊢
  have hprev1 : mergesPrev s1 j off → d.tag ≤ off ∧
      ∃ c, T1 (s1.addr j (off - d.tag)) = some c ∧ c.size = d.tag ∧ c.use = .free := by
    intro hm
    have hm' := hm
    have hword : s1.mem (s.addr j off + 8) = b.tag := by
      rw [← hmid.same.addr, (hmid.inv.headers _ _ (by rw [hmid.same.addr]; exact hmid.here)).2.1, htag]
    simp only [mergesPrev, hmid.same.addr, hword, Bool.and_eq_true, decide_eq_true_eq, Bool.not_eq_true'] at hm
    obtain ⟨⟨⟨-, hpos⟩, hle⟩, -, halloc⟩ := hm
    obtain ⟨c, hc, hct, hcu⟩ := hprev hcoal hm' hpos hle
    have hlt : s.addr j (off - b.tag) < s.addr j off := by
      simp only [Heap.addr]
      omega
    have hc1 := hbelow _ _ hlt hc
    rw [(hmid.inv.headers _ _ hc1).2.2] at halloc
    rw [htag, hmid.same.addr]
    exact ⟨hle, c, hc1, hct, hmid.held.free hc1 (by omega) hcu halloc⟩
  obtain ⟨T2, d2, ho2, hcover, hmid2⟩ := hmid.prev hj ho hprev1
  obtain ⟨T', h1, h2, h3, h4, h5, h6, h7, h8⟩ := hmid2.push hj (ho2.trans_lt ho)
  exact ⟨T', h1, h2, h3, h4, h5, h6, h7, _, _, h8, rfl, ho2, by simp only; omega⟩

end JACLibc
