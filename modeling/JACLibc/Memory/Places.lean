import JACLibc.Memory.Session

/-!
# Where the segments lie

The operations of the allocator move no segment: `malloc` may append one, which `mmap` has answered, and that is all.
So where `mmap` answers whole pages of the address space, every segment lies on the grid of `JACL_ALIGNMENT` and ends
in the address space (`SegsPlaced`), and then all blocks lie on the grid.
-/

namespace JACLibc

/-- The bases and the sizes of the segments. -/
def Heap.frames (s : Heap) : List (Nat × Nat) := s.segs.map fun g => (g.base, g.size)

variable {s s' : Heap} {mmap : Nat → Option Nat}

@[simp] theorem store_frames (s : Heap) (a v : Nat) : (s.store a v).frames = s.frames := rfl

@[simp] theorem setBin_frames (s : Heap) (j i off : Nat) (bit : Bool) :
    (s.setSeg j ((s.seg j).setBin i off bit)).frames = s.frames := by
  simp only [Heap.frames, Heap.setSeg, List.map_set]
  apply List.ext_getElem?
  intro k
  rw [List.getElem?_set, List.getElem?_map]
  by_cases hk : j = k
  · subst hk
    rw [if_pos rfl]
    rcases hg : s.segs[j]? with _ | g
    · have hle := List.getElem?_eq_none_iff.1 hg
      rw [if_neg (by simp only [List.length_map]; omega)]
      rfl
    · obtain ⟨hlt, -⟩ := List.getElem?_eq_some_iff.1 hg
      rw [if_pos (by simpa using hlt)]
      simp [Heap.seg, Seg.setBin, List.getD_eq_getElem?_getD, hg]
  · rw [if_neg hk]

@[simp] theorem membinPush_frames (s : Heap) (j off : Nat) : (membinPush s j off).frames = s.frames := by
  simp only [membinPush]
  split
  · rfl
  · exact setBin_frames (s.store _ _) j _ _ _

@[simp] theorem membinPop_frames (s : Heap) (j need : Nat) : (membinPop s j need).2.frames = s.frames := by
  simp only [membinPop]
  split
  · rfl
  · split_ifs
    · exact setBin_frames ..
    · exact setBin_frames ..
    · exact setBin_frames ..
    · rfl

@[simp] theorem membinRemove_frames (s : Heap) (j off : Nat) : (membinRemove s j off).frames = s.frames := by
  simp only [membinRemove]
  split_ifs
  · exact setBin_frames ..
  · exact setBin_frames { s with mem := unlinkLoop (s.seg j).base off (s.seg j).size s.mem _ } j _ _ _
  · rfl

@[simp] theorem takeBlock_frames (s : Heap) (j off need : Nat) : (takeBlock s j off need).frames = s.frames := by
  simp only [takeBlock, splitBlock]
  split_ifs <;> simp

@[simp] theorem allocBins_frames (need fuel j : Nat) (s : Heap) : (allocBins need fuel j s).2.frames = s.frames := by
  induction fuel generalizing j s with
  | zero => rfl
  | succ fuel ih =>
    rw [allocBins]
    split
    · rfl
    · rcases hp : membinPop s j need with ⟨off, s1⟩
      have h1 : s1.frames = s.frames := by
        rw [← membinPop_frames s j need, hp]
      dsimp only
      split_ifs
      · rw [ih, h1]
      · rw [ih, membinPush_frames, h1]
      · rw [takeBlock_frames, h1]

theorem allocRecycle_frames {n p : Nat} (h : allocRecycle s n = some (p, s')) : s'.frames = s.frames := by
  simp only [allocRecycle] at h
  split_ifs at h
  split at h
  · cases h
  · obtain ⟨-, rfl⟩ := Prod.mk.inj (Option.some.inj h)
    rfl

@[simp] theorem allocArena_frames (s : Heap) (n need : Nat) : (allocArena s n need).2.frames = s.frames := by
  have hrefill : (tlsRefill s).2.frames = s.frames := by
    simp only [tlsRefill]
    split_ifs <;> simp only [Heap.frames]
  rw [allocArena]
  split
  · rfl
  · split
    next can s1 heq =>
    have h1 : s1.frames = s.frames := by
      split at heq
      · obtain ⟨-, rfl⟩ := Prod.mk.inj heq
        rfl
      · rw [← hrefill, heq]
    split
    · exact h1
    · exact h1

/-- The segments are those that were there, and perhaps a new one where `mmap` has answered. -/
def AddsSegment (s s' : Heap) (mmap : Nat → Option Nat) : Prop :=
  s'.frames = s.frames ∨ ∃ sz p, sz ≠ 0 ∧ mmap sz = some p ∧ s'.frames = s.frames ++ [(p + SEG_HDR, sz - SEG_HDR)]

theorem growHeap_adds {need : Nat} (h : growHeap s need mmap = some s') : AddsSegment s s' mmap := by
  simp only [growHeap] at h
  split_ifs at h with hmax hzero
  split at h
  · cases h
  · next p hp =>
    obtain rfl := Option.some.inj h
    refine Or.inr ⟨_, p, hzero, hp, ?_⟩
    rw [newSegment, membinPush_frames]
    simp [Heap.frames, Heap.store]

theorem malloc_adds (s : Heap) (n : Nat) (mmap : Nat → Option Nat) : AddsSegment s (malloc s n mmap).2 mmap := by
  rw [malloc]
  split
  · exact Or.inl rfl
  rcases hr : allocRecycle s n with _ | ⟨p, s1⟩
  swap
  · exact Or.inl (allocRecycle_frames hr)
  have h1 := allocArena_frames s n (allocNeed n)
  rcases ha : allocArena s n (allocNeed n) with ⟨_ | p, s1⟩ <;> rw [ha] at h1
  swap
  · exact Or.inl h1
  have h2 := allocBins_frames (allocNeed n) s1.segs.length 0 s1
  simp only
  rcases hb : allocBins (allocNeed n) s1.segs.length 0 s1 with ⟨_ | p, s2⟩ <;> rw [hb] at h2
  swap
  · exact Or.inl (h2.trans h1)
  simp only
  rcases hg : growHeap s2 (allocNeed n) mmap with _ | s3
  · exact Or.inl (h2.trans h1)
  · rcases growHeap_adds hg with h3 | ⟨sz, p, hsz, hp, h3⟩
    · exact Or.inl ((allocBins_frames ..).trans (h3.trans (h2.trans h1)))
    · refine Or.inr ⟨sz, p, hsz, hp, ?_⟩
      rw [allocBins_frames, h3, h2, h1]

theorem coalesceNext_frames (s : Heap) (j off : Nat) : (coalesceNext s j off).frames = s.frames := by
  simp only [coalesceNext]
  split_ifs <;> simp

theorem coalescePrev_frames (s : Heap) (j off : Nat) : (coalescePrev s j off).2.frames = s.frames := by
  simp only [coalescePrev]
  split_ifs <;> simp

@[simp] theorem free_frames (s : Heap) (p : Nat) : (free s p).frames = s.frames := by
  simp only [free]
  split_ifs
  · rfl
  · rfl
  · split
    · rfl
    · split_ifs
      · split
        · next s1 hr =>
          simp only [freeRecycle] at hr
          split_ifs at hr
          obtain rfl := Option.some.inj hr
          rfl
        · simp only [freeCoalesce]
          split_ifs
          · rw [membinPush_frames, coalescePrev_frames, coalesceNext_frames, store_frames]
          · rw [membinPush_frames, store_frames]
      · rfl

theorem realloc_adds (s : Heap) (ptr : Option Nat) (n : Nat) (mmap : Nat → Option Nat) :
    AddsSegment s (realloc s ptr n mmap).2 mmap := by
  have hmove : ∀ p, AddsSegment s (reallocMove s p n mmap).2 mmap := by
    intro p
    have h := malloc_adds s n mmap
    rw [reallocMove]
    rcases hr : malloc s n mmap with ⟨_ | q, s1⟩ <;> rw [hr] at h
    · exact h
    · have hcopy : ∀ m, (copyBytes s1 q p m).frames = s1.frames := fun _ => rfl
      simp only
      split_ifs
      · exact h
      · rwa [AddsSegment, free_frames, hcopy]
  rcases ptr with _ | p
  · exact malloc_adds s n mmap
  · simp only [realloc]
    split_ifs
    · exact Or.inl (free_frames s p)
    · exact Or.inl rfl
    · exact Or.inl rfl
    · exact hmove p
    · exact hmove p

/-! ### The grid -/

/-- `mmap` answers whole pages of the address space. -/
def Mapped (mmap : Nat → Option Nat) : Prop := ∀ sz p, mmap sz = some p → p % 4096 = 0 ∧ p + sz ≤ 2 ^ 64

def Call.Mapped : Call → Prop
  | .malloc _ mmap | .realloc _ _ mmap => JACLibc.Mapped mmap
  | _ => True

/-- Every segment lies on the grid of `JACL_ALIGNMENT` and ends in the address space. -/
def SegsPlaced (s : Heap) : Prop := ∀ f ∈ s.frames, f.1 % 8 = 0 ∧ f.1 + f.2 ≤ 2 ^ 64

theorem SegsPlaced.seg (h : SegsPlaced s) {j : Nat} (hj : j < s.segs.length) :
    (s.seg j).base % 8 = 0 ∧ s.addr j (s.seg j).size ≤ 2 ^ 64 := by
  have hmem : ((s.seg j).base, (s.seg j).size) ∈ s.frames := by
    refine List.mem_map.2 ⟨s.seg j, ?_, rfl⟩
    rw [Heap.seg, List.getD_eq_getElem?_getD, List.getElem?_eq_getElem hj]
    exact List.getElem_mem hj
  exact h _ hmem

theorem SegsPlaced.adds (h : SegsPlaced s) (hx : AddsSegment s s' mmap) (hm : Mapped mmap) : SegsPlaced s' := by
  intro f hf
  rcases hx with hx | ⟨sz, p, hsz, hp, hx⟩
  · exact h f (hx ▸ hf)
  · rw [hx, List.mem_append, List.mem_singleton] at hf
    rcases hf with hf | rfl
    · exact h f hf
    · obtain ⟨h1, h2⟩ := hm sz p hp
      simp only [SEG_HDR]
      omega

theorem placed_step {c : Session} (h : SegsPlaced c.heap) {call : Call} (hm : call.Mapped) :
    SegsPlaced (c.step call).2.heap := by
  cases call with
  | malloc n mmap => exact h.adds (malloc_adds c.heap n mmap) hm
  | free p =>
    intro f hf
    exact h f (free_frames c.heap p ▸ hf)
  | realloc ptr n mmap => exact h.adds (realloc_adds c.heap ptr n mmap) hm
  | write a v => exact h

theorem placed_init {staticHeap : Nat} (h16 : staticHeap % 16 = 0) (hmax : staticHeap + JACL_HEAP_INIT ≤ 2 ^ 64)
    (mem : Nat → Nat) : SegsPlaced (membinInit staticHeap mem) := by
  intro f hf
  rw [membinInit, membinPush_frames] at hf
  obtain rfl : f = (staticHeap, JACL_HEAP_INIT) := List.mem_singleton.1 hf
  exact ⟨by simp only; omega, hmax⟩

theorem grid_init {staticHeap : Nat} (h16 : staticHeap % 16 = 0) : Grid (initBlocks staticHeap) := by
  have hempty : Grid fun _ => none := fun x c hc => nomatch hc
  have harena : ARENA_LIMIT = 65536 := rfl
  exact hempty.update (by omega) (by decide)

/-- What legal and sound calls reach where `mmap` answers whole pages. -/
theorem session_placed {staticHeap : Nat} (hpos : 0 < staticHeap) (h16 : staticHeap % 16 = 0)
    (hmax : staticHeap + JACL_HEAP_INIT ≤ 2 ^ 64) (mem : Nat → Nat) {calls : List Call}
    (hg : Machine.Guarded Session.step (fun c call => c.Legal call ∧ c.Sound call ∧
    call.Mapped) (Session.init staticHeap mem)
      calls) :
    SegsPlaced (Machine.run Session.step (Session.init staticHeap mem) calls).heap ∧
      ∃ T A, SessionInv (Machine.run Session.step (Session.init staticHeap mem) calls) T A ∧ Grid T := by
  refine Machine.guarded_invariant (I := fun c => SegsPlaced c.heap ∧ ∃ T A, SessionInv c T A ∧ Grid T) ?_
    ⟨placed_init h16 hmax mem, _, _, (sessionInv_init hpos mem).1, grid_init h16⟩ hg
  rintro c call ⟨hp, T, A, h, hgrid⟩ ⟨hl, hs, hm⟩
  have hp' := placed_step hp hm
  obtain ⟨T', A', h', hgrid'⟩ := h.step hl hs
  exact ⟨hp', T', A', h', hgrid' hgrid fun j hj => (hp'.seg hj).1⟩

end JACLibc
