import JACLibc.Memory.BinLists
import JACLibc.Memory.Safety

/-!
# When `malloc` gives up

`__jacl_alloc_bins` looks at one block of each segment, the head of the first bin at or above the class of the request
that is marked as not empty.  The lists from the class of 128 bytes on mix sizes, so a head that is too small hides
all that stands behind it and in the bins above.  And a new segment loses its descriptor and two headers, which the
growth size does not count.  The theorem says exactly when a request is refused though memory is there.
-/

namespace JACLibc

/-- The first bin at or above the class of `need` that is marked in the bitmap. -/
def firstBin (g : Seg) (need : Nat) : Option Nat := (List.range 32).find? fun i =>
    decide (membinGet need ≤ i) && g.bitmap i

/-- In segment `j` the block at the head of that bin has room. -/
def HeadFits (s : Heap) (need j : Nat) : Prop :=
  ∃ i, firstBin (s.seg j) need = some i ∧ (s.seg j).bins i ≠ 0 ∧ need ≤ s.mem (s.addr j ((s.seg j).bins i))

/-- The bins of some segment contain a block of at least `need` bytes. -/
def Fitting (s : Heap) (need : Nat) : Prop :=
  ∃ j < s.segs.length, ∃ i l, Linked.Chain (fun off => s.mem (s.addr j off + 24)) ((s.seg j).bins i) l ∧
    ∃ off ∈ l, need ≤ s.mem (s.addr j off)

/-- The recycling cache or the arena has a block. -/
def Served (s : Heap) (n : Nat) : Prop :=
  (allocRecycle s n).isSome = true ∨ (allocArena s n (allocNeed n)).1.isSome = true

/-- Where a size that `__jacl_alloc_need` does not refuse is answered with NULL, no bin has a fitting block and no new
segment could be obtained. -/
def Exhausted (s : Heap) (n : Nat) (mmap : Nat → Option Nat) : Prop :=
  allocNeed n ≠ 0 → (malloc s n mmap).1 = none → ¬Fitting s (allocNeed n) ∧ growHeap s (allocNeed n) mmap = none

variable {s s' : Heap} {T : Nat → Option Block} {A : Nat → Option Nat} {j n need p : Nat} {mmap : Nat → Option Nat}

/-! ### The bins -/

private theorem membinPop_head (h : HeapInv s T A) (hj : j < s.segs.length) :
    ((membinPop s j need).1 = 0 ∨ s.mem (s.addr j (membinPop s j need).1) < need) ↔ ¬HeadFits s need j := by
  have hfirst : (List.range 32).find? (fun i => decide (membinGet need ≤ i) && (s.seg j).bitmap i) =
    firstBin (s.seg j) need :=
    rfl
  simp only [membinPop, hfirst, HeadFits]
  rcases hf : firstBin (s.seg j) need with _ | i
  · simp
  · simp only [Option.some.injEq, exists_eq_left', not_and, Nat.not_le]
    by_cases hz : (s.seg j).bins i = 0
    · rw [if_pos hz]
      exact iff_of_true (Or.inl rfl) fun hne => absurd hz hne
    -- the head of the list is a free block
    obtain ⟨l, hl, -, hmem⟩ := h.bins j hj i
    obtain ⟨l', rfl, -⟩ := hl.tail hz
    obtain ⟨ho, b, hb, -⟩ := (hmem _).1 List.mem_cons_self
    have hbound := h.bounds hj ho hb
    have hmin := h.tiling.min_le hb
    have hin : (s.seg j).inside ((s.seg j).bins i) = true := by
      rw [Seg.inside, decide_eq_true_eq, HDR]
      omega
    rw [if_neg hz, hin, if_neg (fun hn => hn rfl), if_neg (by rw [HDR]; omega)]
    exact ⟨fun hc _ => hc.resolve_left hz, fun hc => Or.inr (hc hz)⟩

private theorem binsChoice_none (h : HeapInv s T A) (fuel j : Nat) :
    binsChoice s need fuel j = none ↔ ∀ k, j ≤ k → k < j + fuel → k < s.segs.length → ¬HeadFits s need k := by
  induction fuel generalizing j with
  | zero => exact iff_of_true rfl fun k h1 h2 => by omega
  | succ fuel ih =>
    rw [binsChoice]
    by_cases hj : j ≥ s.segs.length
    · rw [if_pos hj]
      exact iff_of_true rfl fun k h1 _ h2 => by omega
    rw [if_neg hj]
    have hhead : _ ↔ ¬HeadFits s need j := membinPop_head h (Nat.not_le.1 hj)
    by_cases hfit : HeadFits s need j
    · rw [if_neg fun hc => hhead.1 hc hfit]
      exact iff_of_false (fun he => by cases he) fun hall => hall j le_rfl (by omega) (by omega) hfit
    · rw [if_pos (hhead.2 hfit), ih (j + 1)]
      constructor
      · intro hall k h1 h2 h3
        rcases eq_or_lt_of_le h1 with rfl | hlt
        · exact hfit
        · exact hall k hlt (by omega) h3
      · intro hall k h1 h2 h3
        exact hall k (by omega) (by omega) h3

private theorem allocBins_none (h : HeapInv s T A) (hn : 32 ≤ need) (fuel j : Nat) :
    (allocBins need fuel j s).1 = none ↔ ∀ k, j ≤ k → k < j + fuel → k < s.segs.length → ¬HeadFits s need k := by
  obtain ⟨T', hb⟩ := allocBins_inv (j := j) fuel h hn (sameSegs_mem s s.mem) rfl fun _ _ => rfl
  refine Iff.trans ?_ (binsChoice_none h fuel j)
  rcases hb.outcome with ⟨h1, h2, -⟩ | ⟨_, _, _, h1, -, -, h2, -⟩
  · exact iff_of_true h2 h1
  · rw [h1, h2]
    exact iff_of_false (fun he => nomatch he) fun he => nomatch he

/-! ### A new segment -/

private theorem membinGet_lt (sz : Nat) : membinGet sz < 32 := by
  rw [membinGet]
  generalize (if sz ≤ 128 then (sz + 7) / 8 else membinLoop 15 (sz / 128) 16) = i
  split
  · omega
  · next hi => exact Nat.not_le.1 hi

/-- A segment with one block. -/
private theorem newSegment_seg (s : Heap) {sz : Nat} (h : 4096 ≤ sz) :
    (newSegment s p sz).seg s.segs.length = Seg.setBin ⟨p + SEG_HDR, sz - SEG_HDR, fun _ => 0, fun _ => false⟩
      (membinGet (sz - SEG_HDR - HDR)) HDR true ∧ (newSegment s p sz).mem (p + SEG_HDR + HDR) = sz - SEG_HDR - HDR := by
  obtain ⟨s3, hs3⟩ : ∃ s3 : Heap, s3 = (((({ s with
    segs := s.segs ++ [⟨p + SEG_HDR, sz - SEG_HDR, fun _ => 0, fun _ => false⟩], current :=
      s.current + sz } : Heap).store
      (p + SEG_HDR + HDR) (sz - SEG_HDR - HDR)).store (p + SEG_HDR + HDR + 8) 0).store (p + SEG_HDR + HDR + 16) 0) :=
        ⟨_, rfl⟩
  have hnew : newSegment s p sz = membinPush s3 s.segs.length HDR := by
    rw [newSegment, hs3]
  have hlen : s.segs.length < s3.segs.length := by
    rw [hs3]
    simp [Heap.store]
  have hseg : s3.seg s.segs.length = ⟨p + SEG_HDR, sz - SEG_HDR, fun _ => 0, fun _ => false⟩ := by
    rw [hs3]
    simp [Heap.seg, Heap.store]
  have hmem : s3.mem (p + SEG_HDR + HDR) = sz - SEG_HDR - HDR := by
    rw [hs3]
    simp only [Heap.store, Function.update_apply]
    rw [if_neg (by omega), if_neg (by omega), if_pos trivial]
  have hin : Seg.inside ⟨p + SEG_HDR, sz - SEG_HDR, fun _ => 0, fun _ => false⟩ HDR = true := by
    apply decide_eq_true
    simp only [HDR, SEG_HDR]
    omega
  have hpush : membinPush s3 s.segs.length HDR = (s3.store (p + SEG_HDR + HDR + 24) 0).setSeg s.segs.length
      (Seg.setBin ⟨p + SEG_HDR, sz - SEG_HDR, fun _ => 0, fun _ => false⟩ (membinGet (sz - SEG_HDR - HDR)) HDR
        true) := by
    simp only [membinPush, hseg, hmem, hin, not_true_eq_false, if_false]
  rw [hnew, hpush]
  have hset := seg_setSeg (s := s3.store (p + SEG_HDR + HDR + 24) 0) hlen
    (Seg.setBin ⟨p + SEG_HDR, sz - SEG_HDR, fun _ => 0, fun _ => false⟩ (membinGet (sz - SEG_HDR - HDR)) HDR true)
    s.segs.length
  rw [if_pos rfl] at hset
  exact ⟨hset, (Function.update_of_ne (by omega) _ _).trans hmem⟩

private theorem headFits_new (s : Heap) {sz : Nat} (h : 4096 ≤ sz) :
    HeadFits (newSegment s p sz) need s.segs.length ↔ need ≤ sz - SEG_HDR - HDR := by
  obtain ⟨hseg, hmem⟩ := newSegment_seg (p := p) s h
  have haddr : (newSegment s p sz).addr s.segs.length HDR = p + SEG_HDR + HDR := by
    rw [Heap.addr, hseg]
    rfl
  rw [HeadFits, hseg]
  constructor
  · rintro ⟨i, hi, hne, hle⟩
    have hbit := List.find?_some hi
    simp only [Seg.setBin, Bool.and_eq_true, Function.update_apply] at hbit hne hle
    rw [if_pos (by by_contra hn; simp [hn] at hbit), haddr, hmem] at hle
    exact hle
  · intro hle
    have hmono := membinGet_mono hle
    have hfound : firstBin (Seg.setBin ⟨p + SEG_HDR, sz - SEG_HDR, fun _ => 0, fun _ => false⟩
        (membinGet (sz - SEG_HDR - HDR)) HDR true) need = some (membinGet (sz - SEG_HDR - HDR)) := by
      -- the only bit there is
      rw [firstBin, List.find?_range_eq_some]
      refine ⟨?_, List.mem_range.2 (membinGet_lt _), ?_⟩
      · simp [Seg.setBin, hmono]
      · intro i hi
        simp [Seg.setBin, hi.ne]
    refine ⟨_, hfound, ?_, ?_⟩
    · simp [Seg.setBin, HDR]
    · simp only [Seg.setBin, Function.update_self, haddr, hmem]
      exact hle

/-! ### `malloc` -/

/-- The condition on the state: where neither the cache nor the arena serves the request and no head has room, a new
segment that is obtained has room, and where none is obtained nothing hides behind the heads. -/
def NothingHidden (s : Heap) (n : Nat) (mmap : Nat → Option Nat) : Prop :=
  allocNeed n ≠ 0 → ¬Served s n → (∀ j < s.segs.length, ¬HeadFits s (allocNeed n) j) →
    if (growHeap s (allocNeed n) mmap).isSome then allocNeed n + SEG_HDR + HDR ≤ growSize s.current (allocNeed n)
    else ¬Fitting s (allocNeed n)

/-- Growth asks for memory by what is there already. -/
private theorem growHeap_cases (hc : s'.current = s.current) :
    (growHeap s need mmap = none ∧ growHeap s' need mmap = none) ∨
      ∃ p, growSize s.current need ≠ 0 ∧ mmap (growSize s.current need) = some p ∧
        growHeap s need mmap = some (newSegment s p (growSize s.current need)) ∧
        growHeap s' need mmap = some (newSegment s' p (growSize s.current need)) := by
  simp only [growHeap, hc]
  by_cases hmax : s.current < JACL_HEAP_MAX
  swap
  · rw [if_neg hmax, if_neg hmax]
    exact Or.inl ⟨rfl, rfl⟩
  rw [if_pos hmax, if_pos hmax]
  by_cases hz : growSize s.current need = 0
  · rw [if_pos hz, if_pos hz]
    exact Or.inl ⟨rfl, rfl⟩
  rw [if_neg hz, if_neg hz]
  rcases hm : mmap (growSize s.current need) with _ | p
  · exact Or.inl ⟨rfl, rfl⟩
  · exact Or.inr ⟨p, hz, rfl, rfl, rfl⟩

private theorem headFits_congr (hm : s'.mem = s.mem) (hg : s'.segs = s.segs) : HeadFits s' need j ↔
    HeadFits s need j := by
  simp only [HeadFits, Heap.addr, Heap.seg, hm, hg]

/-- A new segment that is too small for the request. -/
private theorem newSegment_none {sz : Nat} (h : HeapInv s T A) (hn : 32 ≤ need) (hfresh : Fresh s p sz) (h1 : 4096 ≤ sz)
    (h2 : sz % 4096 = 0) (h3 : s.current + sz ≤ JACL_HEAP_MAX) :
    (allocBins need 1 ((newSegment s p sz).segs.length - 1) (newSegment s p sz)).1 = none ↔
    sz < need + SEG_HDR + HDR := by
  obtain ⟨hinv, hlen, -⟩ := newSegment_inv h hfresh h1 h2 h3
  rw [allocBins_none hinv hn, hlen, Nat.add_sub_cancel]
  have hlast : (∀ k, s.segs.length ≤ k → k < s.segs.length + 1 → k < s.segs.length + 1 →
      ¬HeadFits (newSegment s p sz) need k) ↔ ¬HeadFits (newSegment s p sz) need s.segs.length := by
    constructor
    · intro hall
      exact hall _ le_rfl (Nat.lt_succ_self _) (Nat.lt_succ_self _)
    · intro hno k hk hk' _
      obtain rfl : k = s.segs.length := by omega
      exact hno
  rw [hlast, headFits_new s h1, SEG_HDR, HDR]
  omega

private theorem malloc_none (h : HeapInv s T A) (hfresh : ∀ sz p, mmap sz = some p → Fresh s p sz)
    (hz : allocNeed n ≠ 0) :
    (malloc s n mmap).1 = none ↔ ¬Served s n ∧ (∀ j < s.segs.length, ¬HeadFits s (allocNeed n) j) ∧
      ((growHeap s (allocNeed n) mmap).isSome → growSize s.current (allocNeed n) < allocNeed n + SEG_HDR + HDR) := by
  have hn : 32 ≤ allocNeed n := (allocNeed_bounds n).1.resolve_left hz
  rw [malloc, if_neg hz]
  rcases hrec : allocRecycle s n with _ | ⟨p, s1⟩
  swap
  · exact iff_of_false (fun he => by cases he) fun hc => hc.1 (Or.inl (by rw [hrec]; rfl))
  simp only
  have harena : (∃ p, (allocArena s n (allocNeed n)).1 = some p) ∨ (allocArena s n (allocNeed n)).2.segs = s.segs ∧
      (allocArena s n (allocNeed n)).2.current = s.current ∧ (allocArena s n (allocNeed n)).1 = none ∧
      HeapInv (allocArena s n (allocNeed n)).2 T A ∧ (allocArena s n (allocNeed n)).2.mem = s.mem := by
    by_cases hcur : n ≤ JACL_SMALL_MAX → s.tlsEnd < s.tlsOff + allocNeed n → s.tlsEnd ≤ s.cursor
    · have hsmall : n ≤ JACL_SMALL_MAX → 32 ≤ allocNeed n ∧ allocNeed n ≤ 160 :=
        fun hle => ⟨hn, (allocNeed_small hle).2⟩
      obtain ⟨hsegs, hcurrent, ⟨hr, h1, hmem, -⟩ | ⟨a, hr, -⟩⟩ := allocArena_inv h hsmall (allocNeed_mod n) hcur
      · exact Or.inr ⟨hsegs, hcurrent, hr, h1, hmem⟩
      · exact Or.inl ⟨_, hr⟩
    · obtain ⟨hle, hrest⟩ := Classical.not_imp.1 hcur
      obtain ⟨hlt, hwrap⟩ := Classical.not_imp.1 hrest
      have hrefill : refills s n = true := by simp [refills, hrec, hle, hlt]
      exact Or.inl ⟨_, (allocArena_wrapped h hrefill (by omega)).1⟩
  rcases ha : allocArena s n (allocNeed n) with ⟨r, s1⟩
  rw [ha] at harena
  rcases harena with ⟨p, rfl⟩ | ⟨hsegs, hcurrent, rfl, h1, hmem⟩
  · exact iff_of_false (fun he => by cases he) fun hc => hc.1 (Or.inr (by rw [ha]; rfl))
  have hserved : ¬Served s n := by simp [Served, hrec, ha]
  simp only at hsegs hcurrent h1 hmem ⊢
  -- the bins of the segments there are
  have hheads : (allocBins (allocNeed n) s1.segs.length 0 s1).1 = none ↔
    ∀ j < s.segs.length, ¬HeadFits s (allocNeed n) j := by
    rw [allocBins_none h1 hn, hsegs]
    constructor
    · intro hall j hj
      exact (not_congr (headFits_congr hmem hsegs)).1 (hall j (Nat.zero_le j) (by omega) hj)
    · intro hall j _ _ hj
      exact (not_congr (headFits_congr hmem hsegs)).2 (hall j hj)
  obtain ⟨T2, hb⟩ := allocBins_inv (j := 0) s1.segs.length h1 hn (sameSegs_mem s1 s1.mem) rfl fun _ _ => rfl
  have hinv2 := hb.inv
  have hsame2 := hb.same
  rcases hr2 : allocBins (allocNeed n) s1.segs.length 0 s1 with ⟨_ | p, s2⟩ <;> rw [hr2] at hheads hinv2 hsame2
  swap
  · exact iff_of_false (fun he => by cases he) fun hc => by cases hheads.2 hc.2.1
  have hall := hheads.1 rfl
  -- growth
  rcases @growHeap_cases s s2 (allocNeed n) mmap (hsame2.current.trans hcurrent) with ⟨hg, hg'⟩ |
    ⟨p, hsz, hp, hg, hg'⟩
  · simp only [hg, hg']
    exact iff_of_true trivial ⟨hserved, hall, fun he => by cases he⟩
  · simp only [hg, hg']
    have hcur2 : s2.current = s.current := hsame2.current.trans hcurrent
    have hseg2 : ∀ k, (s2.seg k).base = (s.seg k).base ∧ (s2.seg k).size = (s.seg k).size := by
      intro k
      rw [hsame2.base, hsame2.size, Heap.seg, hsegs]
      exact ⟨rfl, rfl⟩
    have hfresh2 : Fresh s2 p (growSize s.current (allocNeed n)) := by
      obtain ⟨h2, h3⟩ := hfresh _ _ hp
      refine ⟨h2, fun k hk => ?_⟩
      rw [Heap.addr, (hseg2 k).1, (hseg2 k).2]
      exact h3 k (by rw [hsame2.length, hsegs] at hk; exact hk)
    obtain ⟨hg1, hg2, hg3⟩ := growSize_spec h.segs.current_le h.segs.current_mod hsz
    rw [newSegment_none hinv2 hn hfresh2 hg1 hg2 (by rw [hcur2]; exact hg3)]
    exact ⟨fun hlt => ⟨hserved, hall, fun _ => hlt⟩, fun hc => hc.2.2 rfl⟩

theorem exhausted_iff (h : HeapInv s T A) (hfresh : ∀ sz p, mmap sz = some p → Fresh s p sz) :
    Exhausted s n mmap ↔ NothingHidden s n mmap := by
  constructor
  · intro hex hz hserved hheads
    split
    · next hg =>
      by_contra hsmall
      obtain ⟨-, hnone⟩ := hex hz ((malloc_none h hfresh hz).2 ⟨hserved, hheads, fun _ => Nat.not_le.1 hsmall⟩)
      rw [hnone] at hg
      cases hg
    · next hg => exact (hex hz ((malloc_none h hfresh hz).2 ⟨hserved, hheads, fun hg' => absurd hg' hg⟩)).1
  · intro hhid hz hnone
    obtain ⟨hserved, hheads, hsmall⟩ := (malloc_none h hfresh hz).1 hnone
    have hcond := hhid hz hserved hheads
    split at hcond
    · next hg => exact absurd hcond (Nat.not_le.2 (hsmall hg))
    · next hg => exact ⟨hcond, Option.not_isSome_iff_eq_none.1 hg⟩

/-- In every state that legal and sound calls reach: `malloc` gives up with memory left exactly where the condition
fails. -/
theorem malloc_exhausted {staticHeap : Nat} (hpos : 0 < staticHeap) (mem : Nat → Nat) (calls : List Call)
    (hg : Machine.Guarded Session.step (fun c call => c.Legal call ∧ c.Sound call) (Session.init staticHeap mem) calls)
    (n : Nat) {mmap : Nat → Option Nat}
    (hfresh : ∀ sz p, mmap sz = some p → Fresh (Machine.run Session.step (Session.init staticHeap mem) calls).heap p
    sz) :
    Exhausted (Machine.run Session.step (Session.init staticHeap mem) calls).heap n mmap ↔
      NothingHidden (Machine.run Session.step (Session.init staticHeap mem) calls).heap n mmap := by
  obtain ⟨T, A, h⟩ := Machine.guarded_invariant (I := fun c => ∃ T A, SessionInv c T A)
    (fun c call h hok => sessionInv_step h hok.1 hok.2) ⟨_, _, (sessionInv_init hpos mem).1⟩ hg
  exact exhausted_iff h.inv hfresh

/-- Two blocks of 2048 bytes are taken, and the first is given back: its bin is that of all sizes from 2048 to 4095. -/
def smallHead : List Call := [.malloc 2000 fun _ => none, .malloc 2000 fun _ => none, .free 69656]

/-- 2000 bytes are there again. -/
theorem malloc_exhausted_free :
    Exhausted (Machine.run Session.step (Session.init 4096 fun _ => 0) smallHead).heap 2000 fun _ => none := by
  refine (malloc_exhausted (by decide) _ _ ?_ 2000 ?_).2 ?_
  · refine ⟨⟨fun sz p hp => (nomatch hp), fun hr => absurd hr (by decide)⟩,
      ⟨fun sz p hp => (nomatch hp), fun hr => absurd hr (by decide)⟩, ⟨⟨2000, by decide⟩, ?_, ?_⟩, trivial⟩
    · intro j _ _ _
      exact ⟨fun _ r => List.not_mem_nil, fun _ r => List.not_mem_nil⟩
    · intro j _ hj _
      obtain rfl : j = 0 := by
        have h0 : memsegFind (Machine.run Session.step (Session.init 4096 fun _ => 0)
            [.malloc 2000 fun _ => none, .malloc 2000 fun _ => none]).heap (69656 - HDR) = some 0 := by decide
        exact Option.some.inj (hj.symm.trans h0)
      dsimp only
      intro hm
      exact absurd hm (by decide +kernel)
  · exact fun sz p hp => (nomatch hp)
  · rw [NothingHidden]
    intro _ _ hheads
    have hhead : HeadFits (Machine.run Session.step (Session.init 4096 fun _ => 0) smallHead).heap (allocNeed 2000) 0 :=
      ⟨20, by decide +kernel, by decide +kernel, by decide +kernel⟩
    have hin : 0 < (Machine.run Session.step (Session.init 4096 fun _ => 0) smallHead).heap.segs.length := by
      decide +kernel
    exact (hheads 0 hin hhead).elim

/-- 3000 bytes are refused, while the rest of the heap is one free block of 192512 bytes; and where the heap can grow,
a request is refused for which the new segment is 312 bytes too small. -/
theorem malloc_exhausted_hidden :
    Machine.Guarded Session.step Session.Legal (Session.init 4096 fun _ => 0) smallHead ∧
    ¬Exhausted (Machine.run Session.step (Session.init 4096 fun _ => 0) smallHead).heap 3000 (fun _ => none) ∧
    ¬Exhausted (Session.init 4096 fun _ => 0).heap 1048536 fun _ => some 1048576 := by
  refine ⟨⟨fun sz p hp => (nomatch hp), fun sz p hp => (nomatch hp), ⟨2000, by decide⟩, trivial⟩, ?_, ?_⟩
  · intro h
    obtain ⟨hfit, -⟩ := h (by decide) (by decide +kernel)
    have hhead : Linked.Chain (fun off => (Machine.run Session.step (Session.init 4096 fun _ => 0) smallHead).heap.mem
        ((Machine.run Session.step (Session.init 4096 fun _ => 0) smallHead).heap.addr 0 off + 24))
        (((Machine.run Session.step (Session.init 4096 fun _ => 0) smallHead).heap.seg 0).bins 26) [69632] := by
      rw [Linked.Chain, Linked.Chain]
      exact ⟨by decide +kernel, by decide, by decide +kernel⟩
    exact hfit ⟨0, by decide +kernel, 26, [69632], hhead, 69632, List.mem_cons_self, by decide +kernel⟩
  · intro h
    have hnone := (h (by decide) (by decide)).2
    have hsome : (growHeap (Session.init 4096 fun _ => 0).heap (allocNeed 1048536) fun _ => some 1048576).isSome =
      true := by
      decide
    rw [hnone] at hsome
    cases hsome

end JACLibc
