import JACLibc.Memory.HeapInv
import Mathlib.Data.List.Perm.Subperm

/-!
# The primitives of the allocator

One lemma for each primitive says what it does to the map of the blocks, and that it keeps `HeapInv`: the bin
operations `__jacl_membin_push`, `__jacl_membin_pop` and `__jacl_membin_remove`, the stores that cut and merge blocks,
and the two ways through the recycling cache.
-/

namespace JACLibc

open Linked

variable {s s' : Heap} {T T' : Nat → Option Block} {A : Nat → Option Nat} {a j i off v : Nat} {b c : Block}

/-! ### Bins -/

/-- One bin of one segment changes; the block at `a`, of the size of this bin, goes into it or out of it. -/
private theorem Bins.change (h : HeapInv s T A) (hs : SameSegs s s') (hj : j < s.segs.length)
    (ho : off < (s.seg j).size) (ha : T (s.addr j off) = some b) (hsize : c.size = b.size)
    (hb : ∀ k i, ¬(k = j ∧ i = membinGet b.size) → (s'.seg k).bins i = (s.seg k).bins i)
    (hm : ∀ k i o, k < s.segs.length → ¬(k = j ∧ i = membinGet b.size) → FreeIn s T k i o →
      s'.mem (s.addr k o + 24) = s.mem (s.addr k o + 24))
    {l : List Nat} (hl : Chain (fun off => s'.mem (s.addr j off + 24)) ((s'.seg j).bins (membinGet b.size)) l)
    (hd : l.Nodup)
    (hf : ∀ o, o ∈ l ↔ FreeIn s (Function.update T (s.addr j off) (some c)) j (membinGet b.size) o) :
    Bins s' (Function.update T (s.addr j off) (some c)) := by
  intro k hk i
  rw [hs.length] at hk
  by_cases hki : k = j ∧ i = membinGet b.size
  · obtain ⟨rfl, rfl⟩ := hki
    refine ⟨l, ?_, hd, fun o => (hf o).trans ?_⟩
    · simpa only [hs.addr] using hl
    · exact (FreeIn.congr hs.toSamePlaces fun _ => Iff.rfl).symm
  · obtain ⟨l', h1, h2, h3⟩ := h.bins k hk i
    refine ⟨l', ?_, h2, fun o => (h3 o).trans ?_⟩
    · rw [hb k i hki]
      apply h1.congr
      intro o hmem
      rw [hs.addr]
      exact hm k i o hk hki ((h3 o).1 hmem)
    · rw [FreeIn, FreeIn, hs.addr, hs.size]
      apply and_congr_right
      intro ho'
      rcases eq_or_ne (s.addr k o) (s.addr j off) with he | hne
      · obtain ⟨rfl, rfl⟩ := h.segs.addr_inj hk hj ho' ho he
        have hi : i ≠ membinGet b.size := fun e => hki ⟨rfl, e⟩
        simp only [Function.update_self, ha, Option.some.injEq, exists_eq_left', hsize]
        constructor <;> rintro ⟨-, e⟩ <;> exact absurd e.symm hi
      · rw [Function.update_of_ne hne]

/-- A block goes from one list to another: only links and bins change. -/
private theorem HeapInv.relist (h : HeapInv s T A) (hs : SameSegs s s') (ha : T a = some b) (hsize : c.size = b.size)
    (htag : c.tag = b.tag) (hflags : c.use.flags = b.use.flags) (hu : ∀ r, c.use = .cached r ↔ b.use = .cached r)
    (hr : s'.recycling = s.recycling) (hm : ∀ x, (∀ a b, T a = some b → x ≠ a + 24) → s'.mem x = s.mem x)
    (hb : Bins s' (Function.update T a (some c))) : HeapInv s' (Function.update T a (some c)) A := by
  -- a header word is no link
  have hdr : ∀ {a b k}, T a = some b → k < 24 → s'.mem (a + k) = s.mem (a + k) := by
    intro a b k hb hk
    apply hm
    intro a' b' hb' he
    have h1 := h.tiling.min_le hb
    have h2 := h.tiling.min_le hb'
    rcases eq_or_ne a a' with rfl | hne
    · omega
    · have := h.apart_or hb hb' hne
      omega
  refine ⟨hs.segsOk h.segs, ?_, ?_, hb, ?_, ?_⟩
  · rw [hs.spans]
    exact h.tiling.update ha hsize
  · intro a' b' hb'
    rcases eq_or_ne a' a with rfl | hne
    · rw [Function.update_self, Option.some.injEq] at hb'
      subst hb'
      rw [← Nat.add_zero a', hdr ha (by omega), Nat.add_zero, hdr ha (by omega), hdr ha (by omega), hsize, htag, hflags]
      exact h.headers a' b ha
    · rw [Function.update_of_ne hne] at hb'
      rw [← Nat.add_zero a', hdr hb' (by omega), Nat.add_zero, hdr hb' (by omega), hdr hb' (by omega)]
      exact h.headers a' b' hb'
  · rw [hr]
    exact h.cache.update ha hsize hu
  · apply h.arena.congr hs
    intro x h1 h2
    apply hm
    intro a' b' hb'
    have h3 := h.not_arena hb'
    have h4 := h.tiling.min_le hb'
    omega

private theorem freeIn_update (o : Nat) : FreeIn s (Function.update T (s.addr j off) (some c)) j i o ↔
    (o = off ∧ off < (s.seg j).size ∧ c.use = .free ∧ membinGet c.size = i) ∨ (o ≠ off ∧ FreeIn s T j i o) := by
  rcases eq_or_ne o off with rfl | hne
  · simp [FreeIn]
  · have : s.addr j o ≠ s.addr j off := by
      simp only [Heap.addr]
      omega
    simp [FreeIn, hne, Function.update_of_ne this]

private theorem inside_of_block (h : HeapInv s T A) (hj : j < s.segs.length) (ho : off < (s.seg j).size)
    (ha : T (s.addr j off) = some b) : (s.seg j).inside off = true := by
  have h1 := h.bounds hj ho ha
  have h2 := h.tiling.min_le ha
  exact decide_eq_true ⟨by omega, by simp only [HDR]; omega⟩

/-- `__jacl_membin_push` puts a held block into the bin of its size. -/
theorem membinPush_inv (h : HeapInv s T A) (hj : j < s.segs.length) (ho : off < (s.seg j).size)
    (ha : T (s.addr j off) = some b) (hb : b.use = .held) :
    HeapInv (membinPush s j off) (Function.update T (s.addr j off) (some { b with use := .free })) A ∧
      SameSegs s (membinPush s j off) ∧ (∀ k, k ≠ j → (membinPush s j off).seg k = s.seg k) ∧
      (membinPush s j off).mem = Function.update s.mem (s.addr j off + 24) ((s.seg j).bins (membinGet b.size)) := by
  have hin := inside_of_block h hj ho ha
  have hsize : s.mem (s.addr j off) = b.size := (h.headers _ _ ha).1
  have hfirst := h.bounds hj ho ha
  have hpos : off ≠ 0 := by
    have h1 := firstOff_pos j
    omega
  -- the held block is in no bin
  have hheld : ∀ k i o, FreeIn s T k i o → s.addr k o ≠ s.addr j off := by
    rintro k i o ⟨-, b', hb', hfree, -⟩ he
    rw [he, ha, Option.some.injEq] at hb'
    rw [← hb', hb] at hfree
    cases hfree
  obtain ⟨mem, hmem⟩ :
      ∃ mem, mem = Function.update s.mem (s.addr j off + 24) ((s.seg j).bins (membinGet b.size)) := ⟨_, rfl⟩
  have heq : membinPush s j off = { s with mem := mem }.setSeg j ((s.seg j).setBin (membinGet b.size) off true) := by
    rw [hmem, ← hsize]
    simp only [membinPush, hin, not_true_eq_false, if_false]
    rfl
  rw [heq]
  have hs := sameSegs_setBin hj mem (membinGet b.size) off true
  have hbins := bins_setBin hj mem (membinGet b.size) off true
  obtain ⟨l, h1, h2, h3⟩ := h.bins j hj (membinGet b.size)
  have hnl : off ∉ l := fun hmem => hheld _ _ _ ((h3 off).1 hmem) rfl
  refine ⟨?_, hs, fun k hk => ?_, hmem⟩
  swap
  · exact (seg_setSeg (s := { s with mem := mem }) hj _ k).trans (if_neg hk)
  refine h.relist hs ha (by rfl) rfl ?_ ?_ rfl ?_ ?_
  · rw [hb]
    rfl
  · intro r
    rw [hb]
    constructor <;> intro hr <;> cases hr
  · intro x hx
    exact hmem ▸ Function.update_of_ne (hx _ _ ha) _ _
  · refine Bins.change (l := off :: l) h hs hj ho ha rfl ?_ ?_ ?_ (List.nodup_cons.2 ⟨hnl, h2⟩) ?_
    · intro k i hki
      rw [hbins, if_neg hki]
    · intro k i o hk hki hf
      have := hheld k i o hf
      exact hmem ▸ Function.update_of_ne (by omega) _ _
    · rw [hbins, if_pos ⟨rfl, rfl⟩]
      apply (h1.push hpos hnl).congr
      intro o ho'
      rcases eq_or_ne o off with rfl | hne
      · rw [Function.update_self]
        exact hmem ▸ Function.update_self _ _ _
      · rw [Function.update_of_ne hne]
        have : s.addr j o + 24 ≠ s.addr j off + 24 := by
          simp only [Heap.addr]
          omega
        exact hmem ▸ Function.update_of_ne this _ _
    · intro o
      rw [freeIn_update, List.mem_cons, h3]
      constructor
      · rintro (rfl | hf)
        · exact Or.inl ⟨rfl, ho, rfl, rfl⟩
        · refine Or.inr ⟨?_, hf⟩
          rintro rfl
          exact hheld _ _ _ hf rfl
      · rintro (⟨rfl, -⟩ | ⟨-, hf⟩)
        · exact Or.inl rfl
        · exact Or.inr hf

/-- A free block is taken out of its bin: the bin starts at `start` and lists the others. -/
private theorem takeOut_inv (h : HeapInv s T A) (hj : j < s.segs.length) (ho : off < (s.seg j).size)
    (ha : T (s.addr j off) = some b) (hb : b.use = .free) {l : List Nat} (hd : l.Nodup)
    (hl : ∀ o, o ∈ l ↔ FreeIn s T j (membinGet b.size) o) {mem : Nat → Nat} {start : Nat} (bit : Bool)
    (hc : Chain (fun o => mem (s.addr j o + 24)) start (l.erase off))
    (hm : ∀ x, (∀ o ∈ l, x ≠ s.addr j o + 24) → mem x = s.mem x) :
    HeapInv ({ s with mem := mem }.setSeg j ((s.seg j).setBin (membinGet b.size) start bit))
      (Function.update T (s.addr j off) (some { b with use := .held })) A := by
  have hs := sameSegs_setBin hj mem (membinGet b.size) start bit
  have hbins := bins_setBin hj mem (membinGet b.size) start bit
  refine h.relist hs ha (by rfl) rfl ?_ ?_ rfl ?_ ?_
  · rw [hb]
    rfl
  · intro r
    rw [hb]
    constructor <;> intro hr <;> cases hr
  · intro x hx
    apply hm
    intro o hol
    obtain ⟨-, b', hb', -⟩ := (hl o).1 hol
    exact hx _ _ hb'
  · refine Bins.change h hs hj ho ha rfl ?_ ?_ ?_ (hd.erase off) ?_
    · intro k i hki
      rw [hbins, if_neg hki]
    · intro k i o hk hki hf
      apply hm
      intro o' ho' he
      -- a block of another bin is another block
      obtain ⟨h1, b1, h2, h3, h4⟩ := hf
      obtain ⟨h5, b2, h6, h7, h8⟩ := (hl o').1 ho'
      have he' : s.addr k o = s.addr j o' := by omega
      obtain ⟨rfl, rfl⟩ := h.segs.addr_inj hk hj h1 h5 he'
      rw [h2, Option.some.injEq] at h6
      exact hki ⟨rfl, by rw [← h4, h6, h8]⟩
    · rw [hbins, if_pos ⟨rfl, rfl⟩]
      exact hc
    · intro o
      rw [freeIn_update, hd.mem_erase_iff, hl]
      constructor
      · exact fun hf => Or.inr hf
      · rintro (⟨-, -, hf, -⟩ | hf)
        · cases hf
        · exact hf

/-- Emptying a bin that lists nothing. -/
private theorem clearBin_inv (h : HeapInv s T A) (hj : j < s.segs.length) (hz : (s.seg j).bins i = 0) (bit : Bool) :
    HeapInv (s.setSeg j ((s.seg j).setBin i 0 bit)) T A := by
  have hs := sameSegs_setBin hj s.mem i 0 bit
  refine ⟨hs.segsOk h.segs, ?_, h.headers, ?_, h.cache, h.arena.congr hs fun _ _ _ => rfl⟩
  · exact hs.spans ▸ h.tiling
  · refine h.bins.congr hs.toSamePlaces ?_ ?_ fun _ _ _ _ _ => rfl
    · intro k i'
      have hbins := bins_setBin hj s.mem i 0 bit k i'
      refine hbins.trans ?_
      split
      · next hk => rw [hk.1, hk.2, hz]
      · rfl
    · intro k i' o
      exact FreeIn.congr hs.toSamePlaces fun _ => Iff.rfl

/-- `__jacl_membin_pop` takes a free block, or none. -/
theorem membinPop_inv (h : HeapInv s T A) (hj : j < s.segs.length) (need : Nat) :
    SameSegs s (membinPop s j need).2 ∧ (membinPop s j need).2.mem = s.mem ∧
    (∀ k, k ≠ j → (membinPop s j need).2.seg k = s.seg k) ∧
    (((membinPop s j need).1 = 0 ∧ HeapInv (membinPop s j need).2 T A) ∨
    ((membinPop s j need).1 ≠ 0 ∧ (membinPop s j need).1 < (s.seg j).size ∧
      ∃ b, T (s.addr j (membinPop s j need).1) = some b ∧ b.use = .free ∧
        ((membinPop s j need).2.seg j).bins (membinGet b.size) = s.mem (s.addr j (membinPop s j need).1 + 24) ∧
        HeapInv (membinPop s j need).2
          (Function.update T (s.addr j (membinPop s j need).1) (some { b with use := .held })) A)) := by
  have hsame : SameSegs s s := sameSegs_mem s s.mem
  have hother : ∀ (g : Seg) k, k ≠ j → (s.setSeg j g).seg k = s.seg k := fun g k hk => by
    rw [seg_setSeg hj, if_neg hk]
  unfold membinPop
  dsimp only
  split
  · exact ⟨hsame, rfl, fun _ _ => rfl, Or.inl ⟨rfl, h⟩⟩
  · next i hi =>
    obtain ⟨l, h1, h2, h3⟩ := h.bins j hj i
    by_cases hz : (s.seg j).bins i = 0
    · rw [if_pos hz]
      exact ⟨sameSegs_setBin hj s.mem i 0 false, rfl, hother _, Or.inl ⟨rfl, clearBin_inv h hj hz false⟩⟩
    · rw [if_neg hz]
      obtain ⟨l', hl', h4⟩ := h1.tail hz
      have hf : FreeIn s T j i ((s.seg j).bins i) := (h3 _).1 (hl' ▸ List.mem_cons_self)
      obtain ⟨ho, b, hb, hfree, rfl⟩ := hf
      have hin := inside_of_block h hj ho hb
      have h5 := h.bounds hj ho hb
      have h6 := h.tiling.min_le hb
      have hroom : ¬(s.seg j).bins (membinGet b.size) + HDR > (s.seg j).size - 8 := by
        simp only [HDR]
        omega
      simp only [hin, not_true_eq_false, if_false, hroom]
      have hbin := bins_setBin hj s.mem (membinGet b.size)
        (s.mem ((s.seg j).base + (s.seg j).bins (membinGet b.size) + 24))
        (decide (s.mem ((s.seg j).base + (s.seg j).bins (membinGet b.size) + 24) ≠ 0)) j (membinGet b.size)
      rw [if_pos ⟨rfl, rfl⟩] at hbin
      refine ⟨sameSegs_setBin hj s.mem _ _ _, rfl, hother _, Or.inr ⟨hz, ho, b, hb, hfree, hbin, ?_⟩⟩
      refine takeOut_inv h hj ho hb hfree h2 h3 _ ?_ fun _ _ => rfl
      rw [hl', List.erase_cons_head]
      exact h4

theorem unlinkLoop_eq {base : Nat} {mem : Nat → Nat} {l : List Nat} {start x fuel : Nat}
    (hl : Chain (fun o => mem (base + o + 24)) start l) (hx : x ∈ l) (hs : start ≠ x) (hf : l.length ≤ fuel) :
    ∃ y ∈ l, mem (base + y + 24) = x ∧
      unlinkLoop base x fuel mem start = Function.update mem (base + y + 24) (mem (base + x + 24)) := by
  induction fuel generalizing start l with
  | zero =>
    have := List.length_pos_of_mem hx
    omega
  | succ fuel ih =>
    cases l with
    | nil => simp at hx
    | cons z l =>
      obtain ⟨rfl, hz, h3⟩ := hl
      have hx' : x ∈ l := (List.mem_cons.1 hx).resolve_left (Ne.symm hs)
      rw [unlinkLoop, if_neg hz]
      by_cases hn : mem (base + start + 24) = x
      · rw [if_pos hn]
        exact ⟨start, List.mem_cons_self, hn, rfl⟩
      · rw [if_neg hn]
        obtain ⟨y, hy, h4, h5⟩ := ih h3 hx' hn (by simp only [List.length_cons] at hf; omega)
        exact ⟨y, List.mem_cons_of_mem _ hy, h4, h5⟩

/-- `__jacl_membin_remove` takes a free block out of the middle of its bin. -/
theorem membinRemove_inv (h : HeapInv s T A) (hj : j < s.segs.length) (ho : off < (s.seg j).size)
    (ha : T (s.addr j off) = some b) (hb : b.use = .free) :
    HeapInv (membinRemove s j off) (Function.update T (s.addr j off) (some { b with use := .held })) A ∧
      SameSegs s (membinRemove s j off) ∧ Sparing T s.mem (membinRemove s j off).mem := by
  have hin := inside_of_block h hj ho ha
  have hsize : s.mem ((s.seg j).base + off) = b.size := (h.headers _ _ ha).1
  obtain ⟨l, h1, h2, h3⟩ := h.bins j hj (membinGet b.size)
  have hoff : off ∈ l := (h3 off).2 ⟨ho, b, ha, hb, rfl⟩
  simp only [membinRemove, hin, not_true_eq_false, if_false, hsize]
  by_cases he : (s.seg j).bins (membinGet b.size) = off
  · rw [if_pos he]
    refine ⟨?_, sameSegs_setBin hj s.mem _ _ _, Sparing.refl T s.mem⟩
    refine takeOut_inv h hj ho ha hb h2 h3 _ ?_ fun _ _ => rfl
    obtain ⟨l', rfl, h4⟩ := h1.tail (he ▸ h1.ne_zero hoff)
    rw [he] at h4 ⊢
    rw [List.erase_cons_head]
    exact h4
  · rw [if_neg he]
    have hlen : l.length ≤ (s.seg j).size := by
      have hsub : l ⊆ List.range (s.seg j).size := fun o hol => List.mem_range.2 ((h3 o).1 hol).1
      have := (h2.subperm hsub).length_le
      rwa [List.length_range] at this
    have h1' : Chain (fun o => s.mem ((s.seg j).base + o + 24)) ((s.seg j).bins (membinGet b.size)) l := h1
    obtain ⟨y, hy, h4, h5⟩ := unlinkLoop_eq h1' hoff he hlen
    rw [h5]
    refine ⟨?_, sameSegs_setBin hj _ _ _ _, ?_⟩
    · refine takeOut_inv h hj ho ha hb h2 h3 _ ?_ ?_
      · apply (h1.unlink h2 hy h4 (h1.ne_zero hoff)).congr
        intro o _
        rcases eq_or_ne o y with rfl | hne
        · simp only [Function.update_self, Heap.addr]
        · rw [Function.update_of_ne hne]
          apply Function.update_of_ne
          simp only [Heap.addr]
          omega
      · intro x hx
        exact Function.update_of_ne (hx y hy) _ _
    · -- the store is into the link of a free block
      obtain ⟨-, d, hd, hfree, -⟩ := (h3 y).1 hy
      have hnu : d.use ≠ .used := fun he => by cases hfree.symm.trans he
      exact sparing_update hd hnu (Or.inr rfl) _

/-! ### Splitting and merging -/

/-- Held blocks are cut up or merged: the lists do not notice. -/
private theorem HeapInv.reshape (h : HeapInv s T A) {mem : Nat → Nat} (hT : Tiling Block.size 32 s.spans T')
    (hH : Headers mem T') (hl : ∀ a b, ¬b.use.apart → (T' a = some b ↔ T a = some b))
    (hm : ∀ a b, T a = some b → ¬b.use.apart → mem (a + 24) = s.mem (a + 24))
    (hA : ∀ x, s.staticHeap ≤ x → x < s.staticHeap + ARENA_LIMIT → mem x = s.mem x) :
    HeapInv { s with mem := mem } T' A := by
  have hs := sameSegs_mem s mem
  have hfree : ∀ {b : Block}, b.use = .free → ¬b.use.apart := fun hb ha => ha.ne_free hb
  have hcached : ∀ {b : Block} {r}, b.use = .cached r → ¬b.use.apart := fun hb ha => ha.ne_cached _ hb
  refine ⟨hs.segsOk h.segs, hs.spans ▸ hT, hH, ?_, ?_, h.arena.congr hs hA⟩
  · apply h.bins.congr hs.toSamePlaces (fun _ _ => rfl)
    · intro j i off
      apply FreeIn.congr hs.toSamePlaces
      intro a
      constructor <;> rintro ⟨b, h1, h2, h3⟩
      · exact ⟨b, (hl a b (hfree h2)).1 h1, h2, h3⟩
      · exact ⟨b, (hl a b (hfree h2)).2 h1, h2, h3⟩
    · rintro j i off - ⟨-, b, h1, h2, -⟩
      exact hm _ b h1 (hfree h2)
  · constructor
    · exact h.cache.nodup
    · intro a b r hb hr
      exact h.cache.mem ((hl a b (hcached hr)).1 hb) hr
    · intro p r hp
      obtain ⟨a, b, h1, h2, h3, h4⟩ := h.cache.block hp
      exact ⟨a, b, h1, (hl a b (hcached h3)).2 h2, h3, h4⟩

/-- The store that merges a held block with the held block after it. -/
theorem merge_inv (h : HeapInv s T A) (hj : j < s.segs.length) (ho : off + b.size < (s.seg j).size)
    (hb : T (s.addr j off) = some b) (hbu : b.use = .held) (hc : T (s.addr j (off + b.size)) = some c)
    (hcu : c.use = .held) :
    HeapInv (s.store (s.addr j off) (b.size + c.size))
    (Function.update (Function.update T (s.addr j (off + b.size)) none)
      (s.addr j off) (some { b with size := b.size + c.size })) A := by
  have hadd : s.addr j (off + b.size) = s.addr j off + b.size := by
    simp only [Heap.addr]
    omega
  have h1 := h.bounds hj (by omega) hb
  have hbs := h.tiling.min_le hb
  rw [hadd] at hc ⊢
  have hne : s.addr j off + b.size ≠ s.addr j off := by omega
  apply h.reshape
  · apply h.tiling.merge (by omega) (HeapInv.span_mem hj) hb _ hc _ rfl
    · simp only [Heap.addr]
      omega
    · simp only [Heap.addr]
      omega
  · intro a' b' hb'
    rcases eq_or_ne a' (s.addr j off) with rfl | hx
    · rw [Function.update_self, Option.some.injEq] at hb'
      subst hb'
      obtain ⟨-, h2, h3⟩ := h.headers _ _ hb
      refine ⟨Function.update_self _ _ _, ?_, ?_⟩
      · rw [Function.update_of_ne (by omega), h2]
      · rw [Function.update_of_ne (by omega), h3]
    · rw [Function.update_of_ne hx] at hb'
      rcases eq_or_ne a' (s.addr j off + b.size) with rfl | hy
      · rw [Function.update_self] at hb'
        cases hb'
      · rw [Function.update_of_ne hy] at hb'
        have h2 := h.apart_or hb' hb hx
        have h3 := h.tiling.min_le hb'
        rw [Function.update_of_ne (by omega), Function.update_of_ne (by omega), Function.update_of_ne (by omega)]
        exact h.headers a' b' hb'
  · intro a' b' hu
    rcases eq_or_ne a' (s.addr j off) with rfl | hx
    · rw [Function.update_self, hb, Option.some.injEq, Option.some.injEq]
      constructor <;> rintro rfl <;> exact absurd (by rw [hbu]; trivial) hu
    · rw [Function.update_of_ne hx]
      rcases eq_or_ne a' (s.addr j off + b.size) with rfl | hy
      · rw [Function.update_self, hc, Option.some.injEq]
        constructor
        · intro he
          cases he
        · rintro rfl
          exact absurd (by rw [hcu]; trivial) hu
      · rw [Function.update_of_ne hy]
  · intro a' b' hb' hu
    apply Function.update_of_ne
    rcases eq_or_ne a' (s.addr j off) with rfl | hx
    · omega
    · have h2 := h.apart_or hb' hb hx
      have h3 := h.tiling.min_le hb'
      omega
  · intro x hx1 hx2
    have := h.not_arena hb
    exact Function.update_of_ne (by omega) _ _

/-- The stores that cut a held block. -/
theorem split_inv (h : HeapInv s T A) {need : Nat} (hb : T a = some b) (hbu : b.use = .held) (hn : 32 ≤ need)
    (hr : need + 32 ≤ b.size) :
    HeapInv ((((s.store (a + need) (b.size - need)).store (a + need + 8) need).store (a + need + 16) 0).store a need)
      (Function.update (Function.update T a (some { b with size := need })) (a + need)
        (some ⟨b.size - need, need, .held⟩)) A := by
  obtain ⟨-, htag, hflags⟩ := h.headers a b hb
  -- the stores are inside the block, before and behind its link
  have hm : ∀ x, x ≠ a → x ≠ a + need → x ≠ a + need + 8 → x ≠ a + need + 16 →
      ((((s.store (a + need) (b.size - need)).store (a + need + 8) need).store (a + need + 16) 0).store a need).mem x =
        s.mem x := by
    intro x h1 h2 h3 h4
    simp only [Heap.store, Function.update_of_ne, ne_eq, h1, h2, h3, h4, not_false_eq_true]
  -- no block begins inside the one that is cut
  have gap : ∀ {a' b'}, T a' = some b' → a' ≠ a → 32 ≤ b'.size ∧ (a' + b'.size ≤ a ∨ a + b.size ≤ a') := by
    intro a' b' hb' hne
    exact ⟨h.tiling.min_le hb', h.apart_or hb' hb hne⟩
  refine h.reshape (h.tiling.split (by omega) hb ?_ hn ?_) ?_ ?_ ?_ ?_
  · simp only
    omega
  · simp only
    omega
  · intro a' b' hb'
    rcases eq_or_ne a' (a + need) with rfl | hy
    · rw [Function.update_self, Option.some.injEq] at hb'
      subst hb'
      refine ⟨?_, ?_, ?_⟩
      · simp only [Function.update_apply, Heap.store]
        rw [if_neg (by omega), if_neg (by omega), if_neg (by omega), if_pos trivial]
      · simp only [Function.update_apply, Heap.store]
        rw [if_neg (by omega), if_neg (by omega), if_pos trivial]
      · simp only [Function.update_apply, Heap.store, Use.flags]
        rw [if_neg (by omega), if_pos trivial]
    · rw [Function.update_of_ne hy] at hb'
      rcases eq_or_ne a' a with rfl | hx
      · rw [Function.update_self, Option.some.injEq] at hb'
        subst hb'
        refine ⟨Function.update_self _ _ _, ?_, ?_⟩
        · exact (hm _ (by omega) (by omega) (by omega) (by omega)).trans htag
        · exact (hm _ (by omega) (by omega) (by omega) (by omega)).trans hflags
      · rw [Function.update_of_ne hx] at hb'
        have h1 := gap hb' hx
        obtain ⟨h2, h3, h4⟩ := h.headers a' b' hb'
        refine ⟨?_, ?_, ?_⟩
        · exact (hm _ (by omega) (by omega) (by omega) (by omega)).trans h2
        · exact (hm _ (by omega) (by omega) (by omega) (by omega)).trans h3
        · exact (hm _ (by omega) (by omega) (by omega) (by omega)).trans h4
  · intro a' b' hu
    rcases eq_or_ne a' (a + need) with rfl | hy
    · rw [Function.update_self, Option.some.injEq]
      constructor
      · rintro rfl
        exact absurd trivial hu
      · intro hb'
        have h1 := gap hb' (by omega)
        omega
    · rw [Function.update_of_ne hy]
      rcases eq_or_ne a' a with rfl | hx
      · rw [Function.update_self, hb, Option.some.injEq, Option.some.injEq]
        constructor <;> rintro rfl <;> exact absurd (by rw [hbu]; trivial) hu
      · rw [Function.update_of_ne hx]
  · intro a' b' hb' hu
    rcases eq_or_ne a' a with rfl | hx
    · obtain rfl := Option.some.inj (hb.symm.trans hb')
      exact absurd (by rw [hbu]; trivial) hu
    · have h1 := gap hb' hx
      exact hm _ (by omega) (by omega) (by omega) (by omega)
  · intro x hx1 hx2
    have := h.not_arena hb
    exact hm _ (by omega) (by omega) (by omega) (by omega)

/-! ### The recycling cache -/

/-- A used block goes into the cache. -/
theorem cache_inv (h : HeapInv s T A) (ha : T a = some b) (hb : b.use = .used) {r : Nat} (hr : 8 * r + 40 ≤ b.size) :
    HeapInv { s.store (a + 16) 0 with recycling := Function.update s.recycling r ((a + 24) :: s.recycling r) }
      (Function.update T a (some { b with use := .cached r })) A := by
  have hsize := h.tiling.min_le ha
  obtain ⟨h1, h2, -⟩ := h.headers a b ha
  have hnew : ∀ r', a + 24 ∉ s.recycling r' := by
    intro r' hmem
    obtain ⟨a', b', h3, h4, h5, -⟩ := h.cache.block hmem
    have h6 : a' = a := by omega
    rw [h6, ha, Option.some.injEq] at h4
    rw [← h4, hb] at h5
    cases h5
  refine h.recache ha (by rfl) ?_ ?_ ?_ ?_
  · refine ⟨?_, ?_, Function.update_self _ _ _⟩
    · exact (Function.update_of_ne (by omega) _ _).trans h1
    · exact (Function.update_of_ne (by omega) _ _).trans h2
  · rw [hb]
    constructor
    · constructor <;> intro hf <;> cases hf
    · intro hf
      cases hf
  · constructor
    · intro r'
      rcases eq_or_ne r' r with rfl | hne
      · rw [Function.update_self]
        exact List.nodup_cons.2 ⟨hnew r', h.cache.nodup r'⟩
      · rw [Function.update_of_ne hne]
        exact h.cache.nodup r'
    · intro a' b' r' hb' hr'
      rcases eq_or_ne a' a with rfl | hne
      · rw [Function.update_self, Option.some.injEq] at hb'
        rw [← hb', Use.cached.injEq] at hr'
        rw [← hr', Function.update_self]
        exact List.mem_cons_self
      · rw [Function.update_of_ne hne] at hb'
        have hmem := h.cache.mem hb' hr'
        rcases eq_or_ne r' r with rfl | hne'
        · rw [Function.update_self]
          exact List.mem_cons_of_mem _ hmem
        · rwa [Function.update_of_ne hne']
    · intro p r' hp
      have hold : p ∈ s.recycling r' → ∃ a' b', p = a' + 24 ∧
          Function.update T a (some { b with use := .cached r }) a' = some b' ∧ b'.use = .cached r' ∧
          8 * r' + 40 ≤ b'.size := by
        intro hmem
        obtain ⟨a', b', h3, h4, h5⟩ := h.cache.block hmem
        have hne : a' ≠ a := by
          rintro rfl
          exact hnew r' (h3 ▸ hmem)
        exact ⟨a', b', h3, by rw [Function.update_of_ne hne, h4], h5⟩
      rcases eq_or_ne r' r with rfl | hne
      · rw [Function.update_self] at hp
        rcases List.mem_cons.1 hp with rfl | hp
        · exact ⟨a, _, rfl, Function.update_self _ _ _, rfl, hr⟩
        · exact hold hp
      · rw [Function.update_of_ne hne] at hp
        exact hold hp
  · intro x hx
    exact Function.update_of_ne (by omega) _ _

/-- The top of a stack of the cache becomes used. -/
theorem uncache_inv (h : HeapInv s T A) {p r : Nat} {rest : List Nat} (hp : s.recycling r = p :: rest) :
    ∃ a b, p = a + 24 ∧ T a = some b ∧ b.use = .cached r ∧ 8 * r + 40 ≤ b.size ∧
      HeapInv { s.store (p - 8) 1 with recycling := Function.update s.recycling r rest }
        (Function.update T a (some { b with use := .used })) A := by
  obtain ⟨a, b, rfl, ha, hb, hr⟩ := h.cache.block (by rw [hp]; exact List.mem_cons_self)
  refine ⟨a, b, rfl, ha, hb, hr, ?_⟩
  have hsize := h.tiling.min_le ha
  obtain ⟨h1, h2, -⟩ := h.headers a b ha
  have hnodup := h.cache.nodup r
  rw [hp, List.nodup_cons] at hnodup
  refine h.recache ha (by rfl) ?_ ?_ ?_ ?_
  · refine ⟨?_, ?_, Function.update_self _ _ _⟩
    · exact (Function.update_of_ne (by omega) _ _).trans h1
    · exact (Function.update_of_ne (by omega) _ _).trans h2
  · rw [hb]
    constructor
    · constructor <;> intro hf <;> cases hf
    · intro hf
      cases hf
  · constructor
    · intro r'
      rcases eq_or_ne r' r with rfl | hne
      · rw [Function.update_self]
        exact hnodup.2
      · rw [Function.update_of_ne hne]
        exact h.cache.nodup r'
    · intro a' b' r' hb' hr'
      rcases eq_or_ne a' a with rfl | hne
      · rw [Function.update_self, Option.some.injEq] at hb'
        rw [← hb'] at hr'
        cases hr'
      · rw [Function.update_of_ne hne] at hb'
        have hmem := h.cache.mem hb' hr'
        rcases eq_or_ne r' r with rfl | hne'
        · rw [hp] at hmem
          rw [Function.update_self]
          exact (List.mem_cons.1 hmem).resolve_left (by omega)
        · rwa [Function.update_of_ne hne']
    · intro q r' hq
      have hold : q ∈ s.recycling r' ∧ ¬(r' = r ∧ q = a + 24) := by
        rcases eq_or_ne r' r with rfl | hne
        · rw [Function.update_self] at hq
          refine ⟨hp ▸ List.mem_cons_of_mem _ hq, ?_⟩
          rintro ⟨-, rfl⟩
          exact hnodup.1 hq
        · rw [Function.update_of_ne hne] at hq
          exact ⟨hq, fun he => hne he.1⟩
      obtain ⟨a', b', h3, h4, h5⟩ := h.cache.block hold.1
      have hne : a' ≠ a := by
        rintro rfl
        rw [ha, Option.some.injEq] at h4
        rw [← h4, hb, Use.cached.injEq] at h5
        exact hold.2 ⟨h5.1.symm, h3⟩
      exact ⟨a', b', h3, by rw [Function.update_of_ne hne, h4], h5⟩
  · intro x hx
    exact Function.update_of_ne (by omega) _ _

end JACLibc
