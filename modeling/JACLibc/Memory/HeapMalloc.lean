import JACLibc.Memory.HeapCoalesce

/-!
# `malloc`

A block is handed out (`Occ`) when it is a used block of a segment or a block cut from the arena.  `malloc` keeps the
invariant and the blocks that are handed out, and answers one that was not, whichever of its four sources serves the
request: the recycling cache, the arena, the bins, or a new segment (`MallocSpec`).  What it asks for is that the
arena cursor has not wrapped when a chunk is taken, and that `mmap` answers memory no segment has.
-/

namespace JACLibc

variable {s s' : Heap} {T T' : Nat → Option Block} {A A' : Nat → Option Nat} {a j off n need : Nat} {b c : Block}
  {mmap : Nat → Option Nat}

/-- A block of `m` bytes with its header at `a` is handed out. -/
def Occ (T : Nat → Option Block) (A : Nat → Option Nat) (a m : Nat) : Prop :=
  (∃ b, T a = some b ∧ b.use = .used ∧ b.size = m) ∨ A a = some m

theorem Occ.of_keeps {m : Nat} (h : Occ T A a m) (hk : Keeps T T') (hA : ∀ a m, A a = some m → A' a = some m) :
    Occ T' A' a m := by
  rcases h with ⟨b, h1, h2, h3⟩ | h
  · obtain ⟨b', h4, h5, h6⟩ := hk a b h1 h2
    exact Or.inl ⟨b', h4, h5, h6.trans h3⟩
  · exact Or.inr (hA a m h)

/-- The contents of a block that is handed out. -/
theorem Occ.outside (h : HeapInv s T A) {m x : Nat} (ho : Occ T A a m) (h1 : a + 24 ≤ x) (h2 : x < a + m) :
    Outside T x := by
  rcases ho with ⟨b, hb, hu, rfl⟩ | ha
  · exact h.outside_used hb hu h1 h2
  · have h3 := h.arena.within ha
    have h4 := h.arena.off_le.trans h.arena.end_le
    exact h.outside_arena (by omega) (by omega)

/-- Blocks that are handed out do not overlap. -/
theorem Occ.apart (h : HeapInv s T A) {a' m m' : Nat} (ho : Occ T A a m) (ho' : Occ T A a' m') (hne : a ≠ a') :
    a + m ≤ a' ∨ a' + m' ≤ a := by
  have hlim := h.arena.off_le.trans h.arena.end_le
  rcases ho with ⟨b, hb, -, rfl⟩ | ha <;> rcases ho' with ⟨b', hb', -, rfl⟩ | ha'
  · exact h.apart_or hb hb' hne
  · have h1 := h.not_arena hb
    have h2 := h.arena.within ha'
    omega
  · have h1 := h.not_arena hb'
    have h2 := h.arena.within ha
    omega
  · rcases lt_or_gt_of_ne hne with hlt | hlt
    · exact Or.inl (h.arena.apart ha ha' hlt)
    · exact Or.inr (h.arena.apart ha' ha hlt)

/-- A block that is handed out lies in a segment. -/
theorem Occ.inside (h : HeapInv s T A) {m : Nat} (ho : Occ T A a m) :
    ∃ j < s.segs.length, (s.seg j).base ≤ a ∧ a + m ≤ (s.seg j).base + (s.seg j).size := by
  rcases ho with ⟨b, hb, -, rfl⟩ | ha
  · obtain ⟨j, off, hj, ho, rfl⟩ := h.exists_seg hb
    have h1 := h.bounds hj ho hb
    refine ⟨j, hj, ?_, ?_⟩ <;> simp only [Heap.addr] <;> omega
  · have h1 := h.arena.within ha
    have h2 := h.arena.off_le.trans h.arena.end_le
    have h3 := h.segs.base_zero
    have h4 := h.segs.size_zero
    rw [ARENA_LIMIT] at h2
    rw [JACL_HEAP_INIT] at h4
    exact ⟨0, h.segs.pos, by omega, by omega⟩

/-! ### Sizes -/

theorem allocNeed_bounds (n : Nat) : (allocNeed n = 0 ∨ 32 ≤ allocNeed n) ∧ allocNeed n < 2 ^ 32 := by
  unfold allocNeed roundSize alignUp HDR SIZE_MAX
  dsimp only
  split_ifs <;> omega

theorem allocNeed_mod (n : Nat) : allocNeed n % 8 = 0 := by
  unfold allocNeed roundSize alignUp HDR SIZE_MAX
  dsimp only
  split_ifs <;> omega

theorem allocNeed_small (h : n ≤ 128) : n + 24 ≤ allocNeed n ∧ allocNeed n ≤ 160 := by
  unfold allocNeed roundSize alignUp HDR SIZE_MAX
  dsimp only
  split_ifs <;> omega

/-- The sizes for which the 32-bit mask of the rounding does no harm: those below `2^32` after rounding, those that are
refused, and those for which 0 is left. -/
def Sized (n : Nat) : Prop := n + 55 < 2 ^ 32 ∨ 2 ^ 64 - 24 ≤ n ∨ (n + 55) % 2 ^ 32 < 32

theorem allocNeed_enough_iff (n : Nat) : (allocNeed n ≠ 0 → n + 24 ≤ allocNeed n) ↔ Sized n := by
  unfold allocNeed roundSize alignUp HDR SIZE_MAX Sized
  dsimp only
  split_ifs <;> omega

/-! ### The arena -/

/-- A change in the arena alone. -/
theorem HeapInv.rearena (h : HeapInv s T A) (hsegs : s'.segs = s.segs) (hstatic : s'.staticHeap = s.staticHeap)
    (hcurrent : s'.current = s.current) (hr : s'.recycling = s.recycling)
    (hm : ∀ x, x < s.staticHeap ∨ s.staticHeap + ARENA_LIMIT ≤ x → s'.mem x = s.mem x) (hA : ArenaOk s' A') :
    HeapInv s' T A' := by
  have hseg : ∀ k, s'.seg k = s.seg k := fun k => by simp only [Heap.seg, hsegs]
  have hs : SamePlaces s s' :=
    ⟨hstatic, by rw [hsegs], fun k => by rw [hseg], fun k => by rw [hseg], hcurrent⟩
  have hblock : ∀ {x b k}, T x = some b → k < b.size → s'.mem (x + k) = s.mem (x + k) := by
    intro x b k hb hk
    have := h.not_arena hb
    exact hm _ (by omega)
  refine ⟨hs.segsOk h.segs, hs.spans ▸ h.tiling, ?_, ?_, hr ▸ h.cache, hA⟩
  · intro x b hb
    have h1 := h.tiling.min_le hb
    rw [← Nat.add_zero x, hblock hb (by omega), Nat.add_zero, hblock hb (by omega), hblock hb (by omega)]
    exact h.headers x b hb
  · apply h.bins.congr hs (fun k i => by rw [hseg])
    · intro j i o
      exact FreeIn.congr hs fun _ => Iff.rfl
    · rintro j i o - ⟨-, b, hb, -⟩
      have h1 := h.tiling.min_le hb
      exact hblock hb (by omega)

/-- The request is made to the arena and a new chunk is taken. -/
def refills (s : Heap) (n : Nat) : Bool :=
  (allocRecycle s n).isNone && n ≤ JACL_SMALL_MAX && s.tlsEnd < s.tlsOff + allocNeed n

/-- Below the end of the arena a whole chunk is left, since the cursor moves in whole chunks. -/
theorem tlsRefill_eq (hmod : s.cursor % JACL_TLS_CHUNK = 0) :
    tlsRefill s = if s.cursor ≥ ARENA_LIMIT then (false, { s with cursor := (s.cursor + JACL_TLS_CHUNK) % 2 ^ 32 })
      else (true, { s with
        cursor := (s.cursor + JACL_TLS_CHUNK) % 2 ^ 32, tlsOff := s.cursor, tlsEnd := s.cursor + JACL_TLS_CHUNK }) := by
  rw [tlsRefill]
  by_cases h1 : s.cursor ≥ ARENA_LIMIT
  · rw [if_pos h1, if_pos h1]
  · rw [if_neg h1, if_neg h1]
    have h2 : ¬s.cursor + JACL_TLS_CHUNK > ARENA_LIMIT := by
      rw [JACL_TLS_CHUNK, ARENA_LIMIT] at *
      omega
    have h3 : ¬JACL_TLS_CHUNK < 64 := by decide
    have h4 : (s.cursor + 7) / 8 * 8 = s.cursor := by
      rw [JACL_TLS_CHUNK] at hmod
      omega
    simp only [if_neg h2, if_neg h3, h4]

theorem tlsRefill_inv (h : HeapInv s T A) (hcur : s.tlsEnd ≤ s.cursor) :
    HeapInv (tlsRefill s).2 T A ∧ (tlsRefill s).2.segs = s.segs ∧ (tlsRefill s).2.current = s.current ∧
      (tlsRefill s).2.mem = s.mem ∧ (tlsRefill s).2.staticHeap = s.staticHeap ∧
      ((tlsRefill s).1 = true → (tlsRefill s).2.tlsEnd = (tlsRefill s).2.tlsOff + JACL_TLS_CHUNK) ∧
      ((tlsRefill s).1 = false → (tlsRefill s).2.tlsOff = s.tlsOff ∧ (tlsRefill s).2.tlsEnd = s.tlsEnd) := by
  have hmod := h.arena.cursor_mod
  have hoff := h.arena.off_le
  have hnext : (s.cursor + JACL_TLS_CHUNK) % 2 ^ 32 % JACL_TLS_CHUNK = 0 := by
    rw [JACL_TLS_CHUNK] at *
    omega
  rw [tlsRefill_eq hmod]
  by_cases h1 : s.cursor ≥ ARENA_LIMIT
  · rw [if_pos h1]
    refine ⟨?_, rfl, rfl, rfl, rfl, (fun he => nomatch he), fun _ => ⟨rfl, rfl⟩⟩
    exact h.rearena rfl rfl rfl rfl (fun _ _ => rfl)
      ⟨hnext, h.arena.off_le, h.arena.end_le, h.arena.header, h.arena.within, h.arena.apart, h.arena.off_mod,
        h.arena.on_grid⟩
  · rw [if_neg h1]
    refine ⟨?_, rfl, rfl, rfl, rfl, fun _ => rfl, (fun he => nomatch he)⟩
    have hend : s.cursor + JACL_TLS_CHUNK ≤ ARENA_LIMIT := by
      rw [JACL_TLS_CHUNK, ARENA_LIMIT] at *
      omega
    refine h.rearena rfl rfl rfl rfl (fun _ _ => rfl) ⟨hnext, ?_, hend, h.arena.header, ?_, h.arena.apart, ?_,
      h.arena.on_grid⟩
    · simp only
      omega
    · intro a n ha
      have h4 := h.arena.within ha
      refine ⟨h4.1, ?_, h4.2.2⟩
      simp only
      omega
    · rw [JACL_TLS_CHUNK] at hmod
      simp only
      omega

/-- A block is cut from the thread's chunk. -/
private theorem arenaCut_inv (h : HeapInv s T A) (hn : 32 ≤ need) (hgrid : need % 8 = 0)
    (hfit : s.tlsOff + need ≤ s.tlsEnd) :
    A (s.staticHeap + s.tlsOff) = none ∧ HeapInv { (((s.store (s.staticHeap + s.tlsOff) need).store
      (s.staticHeap + s.tlsOff + 8) 0).store (s.staticHeap + s.tlsOff + 16) 3) with
        tlsOff := (s.tlsOff + need) % 2 ^ 32 } T (Function.update A (s.staticHeap + s.tlsOff) (some need)) := by
  have hend := h.arena.end_le
  rw [ARENA_LIMIT] at hend
  have hmod : (s.tlsOff + need) % 2 ^ 32 = s.tlsOff + need := by omega
  rw [hmod]
  have hnew : A (s.staticHeap + s.tlsOff) = none := by
    rw [Option.eq_none_iff_forall_ne_some]
    intro m hm
    have := h.arena.within hm
    omega
  -- the stores are at the new header
  have hm : ∀ x, x < s.staticHeap + s.tlsOff ∨ s.staticHeap + s.tlsOff + 24 ≤ x →
      (((s.store (s.staticHeap + s.tlsOff) need).store (s.staticHeap + s.tlsOff + 8) 0).store
        (s.staticHeap + s.tlsOff + 16) 3).mem x = s.mem x := by
    intro x hx
    simp only [Heap.store, Function.update_apply]
    rw [if_neg (by omega), if_neg (by omega), if_neg (by omega)]
  refine ⟨hnew, h.rearena rfl rfl rfl rfl ?_ ⟨h.arena.cursor_mod, hfit, h.arena.end_le, ?_, ?_, ?_, ?_, ?_⟩⟩
  · intro x hx
    rw [ARENA_LIMIT] at hx
    exact hm x (by omega)
  · intro a m ha
    rcases eq_or_ne a (s.staticHeap + s.tlsOff) with rfl | hne
    · rw [Function.update_self, Option.some.injEq] at ha
      subst ha
      refine ⟨?_, Function.update_self _ _ _⟩
      simp only [Heap.store, Function.update_apply]
      rw [if_neg (by omega), if_neg (by omega), if_pos trivial]
    · rw [Function.update_of_ne hne] at ha
      have h1 := h.arena.within ha
      obtain ⟨h2, h3⟩ := h.arena.header ha
      exact ⟨(hm a (by omega)).trans h2, (hm (a + 16) (by omega)).trans h3⟩
  · intro a m ha
    simp only
    rcases eq_or_ne a (s.staticHeap + s.tlsOff) with rfl | hne
    · rw [Function.update_self, Option.some.injEq] at ha
      subst ha
      exact ⟨by simp [Heap.store], by simp only [Heap.store]; omega, hn⟩
    · rw [Function.update_of_ne hne] at ha
      have h1 := h.arena.within ha
      exact ⟨h1.1, by simp only [Heap.store]; omega, h1.2.2⟩
  · intro a a' m m' ha ha' hlt
    rcases eq_or_ne a (s.staticHeap + s.tlsOff) with rfl | hne
    · rw [Function.update_of_ne (by omega)] at ha'
      have h1 := h.arena.within ha'
      omega
    · rw [Function.update_of_ne hne] at ha
      rcases eq_or_ne a' (s.staticHeap + s.tlsOff) with rfl | hne'
      · have h1 := h.arena.within ha
        omega
      · rw [Function.update_of_ne hne'] at ha'
        exact h.arena.apart ha ha' hlt
  · have := h.arena.off_mod
    simp only
    omega
  · intro a m ha
    rcases eq_or_ne a (s.staticHeap + s.tlsOff) with rfl | hne
    · rw [Function.update_self, Option.some.injEq] at ha
      subst ha
      refine ⟨?_, hgrid⟩
      show (s.staticHeap + s.tlsOff - s.staticHeap) % 8 = 0
      rw [Nat.add_sub_cancel_left]
      exact h.arena.off_mod
    · rw [Function.update_of_ne hne] at ha
      exact h.arena.on_grid ha

/-- `__jacl_alloc_arena` cuts a block from above all earlier ones, or leaves memory alone. -/
theorem allocArena_inv (h : HeapInv s T A) (hn : n ≤ JACL_SMALL_MAX → 32 ≤ need ∧ need ≤ 160) (hgrid : need % 8 = 0)
    (hcur : n ≤ JACL_SMALL_MAX → s.tlsEnd < s.tlsOff + need → s.tlsEnd ≤ s.cursor) :
    (allocArena s n need).2.segs = s.segs ∧ (allocArena s n need).2.current = s.current ∧
    (((allocArena s n need).1 = none ∧ HeapInv (allocArena s n need).2 T A ∧ (allocArena s n need).2.mem = s.mem ∧
      (allocArena s n need).2.tlsOff = s.tlsOff ∧ (allocArena s n need).2.tlsEnd = s.tlsEnd) ∨
    ∃ a, (allocArena s n need).1 = some (a + 24) ∧ n ≤ JACL_SMALL_MAX ∧ A a = none ∧
      s.staticHeap ≤ a ∧ a < s.staticHeap + ARENA_LIMIT ∧
      (∀ x, x < a ∨ a + 24 ≤ x → (allocArena s n need).2.mem x = s.mem x) ∧
      HeapInv (allocArena s n need).2 T (Function.update A a (some need))) := by
  rw [allocArena]
  by_cases hsmall : n > JACL_SMALL_MAX
  · rw [if_pos hsmall]
    exact ⟨rfl, rfl, Or.inl ⟨rfl, h, rfl, rfl, rfl⟩⟩
  rw [if_neg hsmall]
  have hle : n ≤ JACL_SMALL_MAX := by omega
  obtain ⟨hn1, hn2⟩ := hn hle
  -- the cut itself, from a state whose chunk has room
  have cut : ∀ s1 : Heap, HeapInv s1 T A → s1.segs = s.segs → s1.current = s.current → s1.staticHeap = s.staticHeap →
      s1.mem = s.mem → s1.tlsOff + need ≤ s1.tlsEnd → ∀ r, r = (some (s1.staticHeap + s1.tlsOff + HDR),
        { (((s1.store (s1.staticHeap + s1.tlsOff) need).store (s1.staticHeap + s1.tlsOff + 8) 0).store
          (s1.staticHeap + s1.tlsOff + 16) 3) with tlsOff := (s1.tlsOff + need) % 2 ^ 32 }) →
      r.2.segs = s.segs ∧ r.2.current = s.current ∧ ((r.1 = none ∧ HeapInv r.2 T A ∧ r.2.mem = s.mem ∧
        r.2.tlsOff = s.tlsOff ∧ r.2.tlsEnd = s.tlsEnd) ∨
        ∃ a, r.1 = some (a + 24) ∧ n ≤ JACL_SMALL_MAX ∧ A a = none ∧ s.staticHeap ≤ a ∧
          a < s.staticHeap + ARENA_LIMIT ∧ (∀ x, x < a ∨ a + 24 ≤ x → r.2.mem x = s.mem x) ∧
          HeapInv r.2 T (Function.update A a (some need))) := by
    rintro s1 h1 hsegs hcurrent hstatic hmem hfit r rfl
    obtain ⟨h2, h3⟩ := arenaCut_inv h1 hn1 hgrid hfit
    have hend := h1.arena.end_le
    refine ⟨hsegs, hcurrent, Or.inr ⟨s1.staticHeap + s1.tlsOff, rfl, hle, h2, by omega, by omega, ?_, h3⟩⟩
    intro x hx
    rw [← hmem]
    simp only [Heap.store, Function.update_apply]
    rw [if_neg (by omega), if_neg (by omega), if_neg (by omega)]
  by_cases hfit : s.tlsOff + need ≤ s.tlsEnd
  · have hend := h.arena.end_le
    simp only [if_pos hfit, not_true_eq_false, false_or]
    rw [if_neg (by omega)]
    exact cut s h rfl rfl rfl rfl hfit _ rfl
  · obtain ⟨h1, hsegs, hcurrent, hmem, hstatic, hchunk, hidle⟩ := tlsRefill_inv h (hcur hle (by omega))
    simp only [if_neg hfit]
    rcases hr : tlsRefill s with ⟨can, s1⟩
    rw [hr] at h1 hsegs hcurrent hmem hstatic hchunk hidle
    simp only at h1 hsegs hcurrent hmem hstatic hchunk hidle ⊢
    rcases can with _ | _
    · simp only [Bool.false_eq_true, not_false_eq_true, true_or, if_true]
      exact ⟨hsegs, hcurrent, Or.inl ⟨trivial, h1, hmem, hidle rfl⟩⟩
    · have hend := h1.arena.end_le
      have hfull := hchunk rfl
      rw [JACL_TLS_CHUNK] at hfull
      simp only [not_true_eq_false, false_or]
      rw [if_neg (by omega)]
      exact cut s1 h1 hsegs hcurrent hstatic hmem (by omega) _ rfl

/-! ### `malloc` -/

/-- The block that the bins would be asked for is cut only if nothing comes after it in its segment. -/
def CutsLast (s : Heap) (n : Nat) : Prop :=
  allocRecycle s n = none → (allocArena s n (allocNeed n)).1 = none → ∀ j off,
    binsChoice s (allocNeed n) s.segs.length 0 = some (j, off) →
      allocNeed n + 32 ≤ s.mem (s.addr j off) → off + s.mem (s.addr j off) = (s.seg j).size

structure MallocSpec (s s' : Heap) (T T' : Nat → Option Block) (A A' : Nat → Option Nat) (n : Nat)
    (answer : Option Nat) : Prop where
  inv : HeapInv s' T' A'
  held : HeldIn T' fun _ => False
  keeps : ∀ {a m}, Occ T A a m → Occ T' A' a m
  fresh : ∀ {p}, answer = some p → ∃ a m, p = a + 24 ∧ Occ T' A' a m ∧ (∀ m, ¬Occ T A a m) ∧
    (n + 24 ≤ allocNeed n → n + 24 ≤ m)
  tags : TagsOk s T → CutsLast s n → TagsOk s' T'
  grid : Grid T → (∀ j < s'.segs.length, (s'.seg j).base % 8 = 0) → Grid T'
  quiet : ∀ {a m}, Occ T A a m → ∀ x, a + 24 ≤ x → x < a + m → s'.mem x = s.mem x
  failed : answer = none → s'.tlsOff = s.tlsOff ∧ s'.tlsEnd = s.tlsEnd ∧
    ∀ {a m}, Occ T A a m → ∀ x, a ≤ x → x < a + m → s'.mem x = s.mem x

/-- Blocks of the segments and blocks of the arena are at different places. -/
theorem HeapInv.arena_none (h : HeapInv s T A) (hb : T a = some b) : A a = none := by
  rw [Option.eq_none_iff_forall_ne_some]
  intro m hm
  have h1 := h.not_arena hb
  have h2 := h.arena.within hm
  have h3 := h.tiling.min_le hb
  have h4 := h.arena.off_le.trans h.arena.end_le
  omega

theorem HeapInv.not_occ (h : HeapInv s T A) (hb : T a = some b) (hu : b.use ≠ .used) (m : Nat) : ¬Occ T A a m := by
  rintro (⟨c, h1, h2, -⟩ | h1)
  · rw [hb, Option.some.injEq] at h1
    exact hu (h1 ▸ h2)
  · rw [h.arena_none hb] at h1
    cases h1

private theorem allocRecycle_spec {p : Nat} (h : HeapInv s T A) (hheld : HeldIn T fun _ => False)
    (hr : allocRecycle s n = some (p, s')) : ∃ T', MallocSpec s s' T T' A A n (some p) := by
  rw [allocRecycle] at hr
  split at hr
  · cases hr
  next hn =>
  dsimp only at hr
  split at hr
  swap
  · cases hr
  split at hr
  · cases hr
  next q rest hq =>
  obtain ⟨rfl, rfl⟩ := Prod.mk.inj (Option.some.inj hr)
  obtain ⟨a, b, rfl, hb, hu, hsize, hinv⟩ := uncache_inv h hq
  have hnu : b.use ≠ .used := by
    rw [hu]
    intro he
    cases he
  refine ⟨_, hinv, ?_, ?_, ?_, ?_, ?_, ?_, ?_⟩
  · intro x c hc hcu
    exact (hheld.update (c := { b with use := .used }) (fun he => nomatch he) a x c hc hcu).2
  · intro x m hocc
    exact hocc.of_keeps (Keeps.update hb hnu _) fun _ _ => id
  · intro p hp
    obtain rfl := Option.some.inj hp
    refine ⟨a, b.size, rfl, Or.inl ⟨_, Function.update_self _ _ _, rfl, rfl⟩, h.not_occ hb hnu, fun _ => ?_⟩
    omega
  · intro ht _
    have hs : SamePlaces s { s.store (a + 24 - 8) 1 with
        recycling := Function.update s.recycling ((n + 7) / 8 - 2) rest } :=
      ⟨rfl, rfl, fun _ => rfl, fun _ => rfl, rfl⟩
    exact (tagsOk_congr hs).2 (ht.update hb _)
  · intro hg _
    obtain ⟨h1, h2⟩ := hg a b hb
    exact hg.update h1 h2
  · intro x m ho y h1 h2
    have hbs := h.tiling.min_le hb
    exact confined_update hb hnu (by omega) (by omega) 1 y (ho.outside h h1 h2)
  · intro he
    cases he

/-- The bins answer a block that was not handed out, and is now. -/
private theorem BinsSpec.served {choice : Option (Nat × Nat)} {answer : Option Nat} (h : HeapInv s T A)
    (hheld : HeldIn T fun _ => False) (hn : 32 ≤ need) (hb : BinsSpec s s' T T' A need choice answer) :
    HeldIn T' (fun _ => False) ∧ Keeps T T' ∧ ∀ {p}, answer = some p → ∃ a m, p = a + 24 ∧ Occ T' A a m ∧
      (∀ m, ¬Occ T A a m) ∧ need ≤ m := by
  rcases hb.outcome with ⟨-, hnone, rfl⟩ | ⟨j, off, b, -, -, -, hsome, htake⟩
  · refine ⟨hheld, fun x c hc hu => ⟨c, hc, hu, rfl⟩, ?_⟩
    intro p hp
    rw [hnone] at hp
    cases hp
  · refine ⟨htake.held hheld, htake.keeps h hn, ?_⟩
    intro p hp
    obtain ⟨d, h1, h2, h3⟩ := htake.here
    have hnu : b.use ≠ .used := by
      rw [htake.free]
      intro he
      cases he
    exact ⟨s.addr j off, d.size, Option.some.inj (hp.symm.trans hsome), Or.inl ⟨d, h1, h2, rfl⟩,
      h.not_occ htake.block hnu, h3⟩

private theorem BinsSpec.tagsOk {choice : Option (Nat × Nat)} {answer : Option Nat} (h : HeapInv s T A) (hn : 32 ≤ need)
    (hb : BinsSpec s s' T T' A need choice answer) (ht : TagsOk s T)
    (hlast : ∀ j off b, choice = some (j, off) → j < s.segs.length → off < (s.seg j).size →
      T (s.addr j off) = some b → need + 32 ≤ b.size → off + b.size = (s.seg j).size) : TagsOk s' T' := by
  apply (tagsOk_congr hb.same.toSamePlaces).2
  rcases hb.outcome with ⟨-, -, rfl⟩ | ⟨j, off, b, hchoice, hj, ho, -, htake⟩
  · exact ht
  · apply htake.tagsOk h hn ht
    intro hcut
    rw [← addr_add, hlast j off b hchoice hj ho htake.block hcut]
    exact no_block_at_end h hj

private theorem BinsSpec.grid {choice : Option (Nat × Nat)} {answer : Option Nat}
    (hb : BinsSpec s s' T T' A need choice answer) (hn : need % 8 = 0) (hg : Grid T) : Grid T' := by
  rcases hb.outcome with ⟨-, -, rfl⟩ | ⟨j, off, b, -, -, -, -, htake⟩
  · exact hg
  · exact htake.grid hn hg

private theorem growHeap_eq {s2 : Heap} (hg : growHeap s need mmap = some s2) : ∃ p, growSize s.current need ≠ 0 ∧
    mmap (growSize s.current need) = some p ∧ s2 = newSegment s p (growSize s.current need) := by
  simp only [growHeap] at hg
  split at hg
  swap
  · cases hg
  split at hg
  · cases hg
  next hz =>
  split at hg
  · cases hg
  next p hp => exact ⟨p, hz, hp, (Option.some.inj hg).symm⟩

/-- The bins of a new segment serve the request, or have too small a block. -/
private theorem newSegment_served {p sz : Nat} (h : HeapInv s T A) (hheld : HeldIn T fun _ => False) (hn : 32 ≤ need)
    (hfresh : Fresh s p sz) (h1 : 4096 ≤ sz) (h2 : sz % 4096 = 0) (h3 : s.current + sz ≤ JACL_HEAP_MAX) {s2 : Heap}
    (hs2 : s2 = newSegment s p sz) :
    ∃ T', HeapInv (allocBins need 1 (s2.segs.length - 1) s2).2 T' A ∧ HeldIn T' (fun _ => False) ∧ Keeps T T' ∧
      (∀ {p}, (allocBins need 1 (s2.segs.length - 1) s2).1 = some p → ∃ a m, p = a + 24 ∧ Occ T' A a m ∧
        (∀ m, ¬Occ T A a m) ∧ need ≤ m) ∧
      (TagsOk s T → TagsOk (allocBins need 1 (s2.segs.length - 1) s2).2 T') ∧
      (need % 8 = 0 → Grid T → (∀ j < (allocBins need 1 (s2.segs.length - 1) s2).2.segs.length,
        ((allocBins need 1 (s2.segs.length - 1) s2).2.seg j).base % 8 = 0) → Grid T') ∧
      (allocBins need 1 (s2.segs.length - 1) s2).2.tlsOff = s.tlsOff ∧
      (allocBins need 1 (s2.segs.length - 1) s2).2.tlsEnd = s.tlsEnd ∧
      (∀ x, x < p ∨ p + sz ≤ x → Outside T x → (allocBins need 1 (s2.segs.length - 1) s2).2.mem x = s.mem x) ∧
      ((allocBins need 1 (s2.segs.length - 1) s2).1 = none →
        ∀ x, x < p ∨ p + sz ≤ x → (allocBins need 1 (s2.segs.length - 1) s2).2.mem x = s.mem x) := by
  obtain ⟨hinv, hlen, hold, hnew, hsize, hnone⟩ := newSegment_inv h hfresh h1 h2 h3
  have htags := newSegment_tags h hfresh h1 h2 h3
  rw [← hs2] at hinv hlen hold hnew hsize htags
  have hheld1 : HeldIn (Function.update T (p + 312) (some ⟨sz - 312, 0, .free⟩)) fun _ => False := by
    intro x c hc hu
    exact (hheld.update (c := ⟨sz - 312, 0, .free⟩) (fun he => nomatch he) _ x c hc hu).2
  have hkeep1 : Keeps T (Function.update T (p + 312) (some ⟨sz - 312, 0, .free⟩)) := by
    intro x c hc hu
    have hne : x ≠ p + 312 := by
      rintro rfl
      rw [hnone] at hc
      cases hc
    exact ⟨c, by rw [Function.update_of_ne hne, hc], hu, rfl⟩
  obtain ⟨T', hb⟩ := allocBins_inv (j := s2.segs.length - 1) 1 hinv hn (sameSegs_mem s2 s2.mem) rfl fun _ _ => rfl
  obtain ⟨h4, h5, h6⟩ := hb.served hinv hheld1 hn
  have hnewmem : ∀ x, x < p ∨ p + sz ≤ x → s2.mem x = s.mem x ∧ s2.tlsOff = s.tlsOff ∧ s2.tlsEnd = s.tlsEnd :=
    fun x hx => hs2 ▸ newSegment_mem s hx h1
  have htls := (hnewmem (p + sz) (Or.inr le_rfl)).2
  refine ⟨T', hb.inv, h4, hkeep1.trans h5, ?_, ?_, ?_, hb.same.tlsOff.trans htls.1, hb.same.tlsEnd.trans htls.2, ?_, ?_⟩
  · intro q hq
    obtain ⟨a, m, h7, h8, h9, h10⟩ := h6 hq
    refine ⟨a, m, h7, h8, fun m' hocc => h9 m' (hocc.of_keeps hkeep1 fun _ _ => id), h10⟩
  · intro ht
    apply hb.tagsOk hinv hn (htags ht)
    intro j off b hchoice hj ho hblock _
    -- the new segment has but one block
    have hjlen : j = s.segs.length := by
      rw [binsChoice, if_neg (by omega)] at hchoice
      dsimp only at hchoice
      split at hchoice
      · cases hchoice
      · have := (Prod.mk.inj (Option.some.inj hchoice)).1
        omega
    subst hjlen
    rcases eq_or_ne (s2.addr s.segs.length off) (p + 312) with he | hne
    · rw [he, Function.update_self, Option.some.injEq] at hblock
      rw [hnew] at he
      rw [← hblock, hsize]
      simp only
      omega
    · rw [Function.update_of_ne hne] at hblock
      obtain ⟨k, o, hk, ho', he⟩ := h.exists_seg hblock
      have hb' := h.bounds hk ho' (he ▸ hblock)
      have hf := hfresh.2 k hk
      rw [hnew] at he
      rw [hsize] at ho
      simp only [Heap.addr] at he hf
      omega
  · intro hneed hg hbase
    have hlast := hbase s.segs.length (by rw [hb.same.length]; omega)
    have hzero := hnew 0
    rw [hb.same.base] at hlast
    simp only [Heap.addr] at hzero
    refine hb.grid hneed (hg.update (by omega) ?_)
    simp only
    omega
  · intro x hx ho
    refine (hb.confined x ?_).trans (hnewmem x hx).1
    intro y d hd
    rcases eq_or_ne y (p + 312) with rfl | hne
    · rw [Function.update_self, Option.some.injEq] at hd
      rw [← hd]
      exact ⟨by omega, fun _ => by simp only; omega⟩
    · rw [Function.update_of_ne hne] at hd
      exact ho y d hd
  · intro he x hx
    rw [hb.idle he]
    exact (hnewmem x hx).1

private theorem MallocSpec.refused (h : HeapInv s T A) (hheld : HeldIn T fun _ => False) (n : Nat) :
    MallocSpec s s T T A A n none :=
  ⟨h, hheld, id, (fun hp => nomatch hp), fun ht _ => ht, fun hg _ => hg, fun _ _ _ _ => rfl,
    fun _ => ⟨rfl, rfl, fun _ _ _ _ => rfl⟩⟩

/-- Where the arena serves the request. -/
private theorem arena_spec {p : Nat} (h : HeapInv s T A) (hheld : HeldIn T fun _ => False)
    (hs : SamePlaces s s') (hinv : HeapInv s' T (Function.update A a (some (allocNeed n)))) (hA : A a = none)
    (ha : s.staticHeap ≤ a ∧ a < s.staticHeap + ARENA_LIMIT)
    (hm : ∀ x, x < a ∨ a + 24 ≤ x → s'.mem x = s.mem x) (hp : p = a + 24) :
    MallocSpec s s' T T A (Function.update A a (some (allocNeed n))) n (some p) := by
  refine ⟨hinv, hheld, ?_, ?_, fun ht _ => (tagsOk_congr hs).2 ht, fun hg _ => hg, ?_, fun he => nomatch he⟩
  · intro x m hocc
    refine hocc.of_keeps (fun x c hc hu => ⟨c, hc, hu, rfl⟩) ?_
    intro y m hy
    have hne : y ≠ a := by
      rintro rfl
      rw [hA] at hy
      cases hy
    rw [Function.update_of_ne hne, hy]
  · intro q hq
    obtain rfl := Option.some.inj hq
    refine ⟨a, allocNeed n, hp, Or.inr (Function.update_self _ _ _), ?_, fun hle => hle⟩
    rintro m (⟨b, hb, -⟩ | hm)
    · have h1 := h.not_arena hb
      have h2 := h.tiling.min_le hb
      omega
    · rw [hA] at hm
      cases hm
  · intro x m hocc y h1 h2
    apply hm
    have hself : Function.update A a (some (allocNeed n)) a = some (allocNeed n) := Function.update_self _ _ _
    have hmin := (hinv.arena.within hself).2.2
    rcases hocc with ⟨b, hb, -, rfl⟩ | hx
    · have h3 := h.not_arena hb
      have h4 := h.tiling.min_le hb
      rcases h3 with h3 | h3
      · omega
      · -- the new block ends in the arena
        have h5 := (hinv.arena.within hself).2.1
        have h6 := hinv.arena.off_le.trans hinv.arena.end_le
        rw [hs.static] at h5
        omega
    · have hne : x ≠ a := by
        rintro rfl
        rw [hA] at hx
        cases hx
      have hx' : Function.update A a (some (allocNeed n)) x = some m := by rw [Function.update_of_ne hne, hx]
      rcases lt_or_gt_of_ne hne with hlt | hlt
      · have := hinv.arena.apart hx' hself hlt
        omega
      · have := hinv.arena.apart hself hx' hlt
        omega

/-- `malloc` keeps the invariant and answers a block that was not handed out. -/
theorem malloc_inv (h : HeapInv s T A) (hheld : HeldIn T fun _ => False)
    (hcur : refills s n = true → s.tlsEnd ≤ s.cursor) (hfresh : ∀ sz p, mmap sz = some p → Fresh s p sz) :
    ∃ T' A', MallocSpec s (malloc s n mmap).2 T T' A A' n (malloc s n mmap).1 := by
  obtain ⟨hb1, hb2⟩ := allocNeed_bounds n
  rw [malloc]
  by_cases hz : allocNeed n = 0
  · rw [if_pos hz]
    exact ⟨T, A, MallocSpec.refused h hheld n⟩
  rw [if_neg hz]
  have hn : 32 ≤ allocNeed n := hb1.resolve_left hz
  rcases hrec : allocRecycle s n with _ | ⟨p, s1⟩
  swap
  · obtain ⟨T', hspec⟩ := allocRecycle_spec h hheld hrec
    exact ⟨T', A, hspec⟩
  simp only
  have hsmall : n ≤ JACL_SMALL_MAX → 32 ≤ allocNeed n ∧ allocNeed n ≤ 160 := fun hle => ⟨hn, (allocNeed_small hle).2⟩
  have hcur' : n ≤ JACL_SMALL_MAX → s.tlsEnd < s.tlsOff + allocNeed n → s.tlsEnd ≤ s.cursor := by
    intro hle hlt
    apply hcur
    simp [refills, hrec, hle, hlt]
  obtain ⟨hsegs, hcurrent, harena⟩ := allocArena_inv h hsmall (allocNeed_mod n) hcur'
  rcases hr : allocArena s n (allocNeed n) with ⟨r, s1⟩
  rw [hr] at hsegs hcurrent harena
  dsimp only at hsegs hcurrent harena
  have hseg : ∀ k, s1.seg k = s.seg k := fun k => by simp only [Heap.seg, hsegs]
  have hplaces : ∀ {A1}, HeapInv s1 T A1 → SamePlaces s s1 := by
    intro A1 h1
    refine ⟨?_, by rw [hsegs], fun k => by rw [hseg], fun k => by rw [hseg], hcurrent⟩
    rw [← h1.segs.base_zero, hseg, h.segs.base_zero]
  rcases harena with ⟨rfl, h1, hmem, hoff, hend⟩ | ⟨a, rfl, hle, hA, ha1, ha2, hm, h1⟩
  swap
  · exact ⟨T, _, arena_spec h hheld (hplaces h1) h1 hA ⟨ha1, ha2⟩ hm rfl⟩
  have hs1 := hplaces h1
  -- the bins of the segments there are
  obtain ⟨T2, hb⟩ := allocBins_inv (j := 0) s1.segs.length h1 hn (sameSegs_mem s1 s1.mem) rfl fun _ _ => rfl
  obtain ⟨hheld2, hkeep2, hserved⟩ := hb.served h1 hheld hn
  have htags2 : TagsOk s T → CutsLast s n → TagsOk (allocBins (allocNeed n) s1.segs.length 0 s1).2 T2 := by
    intro ht hlast
    refine hb.tagsOk h1 hn ((tagsOk_congr hs1).2 ht) ?_
    intro j off b hchoice hj ho hblock hcut
    have hsize : s.mem (s.addr j off) = b.size := by
      rw [← hmem, ← hs1.addr]
      exact (h1.headers _ _ hblock).1
    rw [binsChoice_congr hmem hsegs, hsegs] at hchoice
    have := hlast hrec (by rw [hr]) j off hchoice (by rw [hsize]; exact hcut)
    rw [hs1.size, ← this, hsize]
  simp only
  rcases hr2 : allocBins (allocNeed n) s1.segs.length 0 s1 with ⟨r2, s2⟩
  rw [hr2] at hb hserved htags2
  have hgrid2 : Grid T → Grid T2 := hb.grid (allocNeed_mod n)
  have hquiet2 : ∀ x, Outside T x → s2.mem x = s.mem x := fun x hx => (hb.confined x hx).trans (congrFun hmem x)
  have htls2 : s2.tlsOff = s.tlsOff ∧ s2.tlsEnd = s.tlsEnd := ⟨hb.same.tlsOff.trans hoff, hb.same.tlsEnd.trans hend⟩
  have hs2 : SamePlaces s s2 := by
    have hb2 := hb.same.toSamePlaces
    exact ⟨hb2.static.trans hs1.static, hb2.length.trans hs1.length, fun k => (hb2.base k).trans (hs1.base k),
      fun k => (hb2.size k).trans (hs1.size k), hb2.current.trans hs1.current⟩
  rcases r2 with _ | p
  swap
  · refine ⟨T2, A, hb.inv, hheld2, fun hocc => hocc.of_keeps hkeep2 fun _ _ => id, ?_, htags2, fun hg _ => hgrid2 hg,
      fun hocc x hx hx' => hquiet2 x (hocc.outside h hx hx'), fun he => by cases he⟩
    intro q hq
    obtain ⟨a, m, h2, h3, h4, h5⟩ := hserved hq
    exact ⟨a, m, h2, h3, h4, fun hle => hle.trans h5⟩
  -- nothing there: the heap grows
  obtain rfl : T2 = T := by
    rcases hb.outcome with ⟨-, -, he⟩ | ⟨_, _, _, -, -, -, hsome, -⟩
    · exact he
    · cases hsome
  have hidle2 : s2.mem = s.mem := (hb.idle rfl).trans hmem
  simp only
  rcases hg : growHeap s2 (allocNeed n) mmap with _ | s3
  · exact ⟨T2, A, hb.inv, hheld, id, (fun hp => by cases hp), fun ht _ => (tagsOk_congr hs2).2 ht, fun hg _ => hg,
      fun _ x _ _ => congrFun hidle2 x, fun _ => ⟨htls2.1, htls2.2, fun _ x _ _ => congrFun hidle2 x⟩⟩
  · obtain ⟨p, hz, hp, hs3⟩ := growHeap_eq hg
    have hfresh2 : Fresh s2 p (growSize s2.current (allocNeed n)) := by
      obtain ⟨h2, h3⟩ := hfresh _ _ hp
      refine ⟨h2, fun k hk => ?_⟩
      rw [hs2.base, hs2.addr, hs2.size]
      exact h3 k (hs2.length ▸ hk)
    obtain ⟨hg1, hg2, hg3⟩ := growSize_spec hb.inv.segs.current_le hb.inv.segs.current_mod hz
    obtain ⟨T3, h2, h3, h4, h5, h6, h7, h8, h9, h10, h11⟩ := newSegment_served hb.inv hheld hn hfresh2 hg1 hg2 hg3 hs3
    -- what is handed out lies in the segments there were
    have haway : ∀ {a m x}, Occ T2 A a m → a ≤ x → x < a + m →
        x < p ∨ p + growSize s2.current (allocNeed n) ≤ x := by
      intro a m x hocc hx hx'
      have hinv2 : HeapInv s2 T2 A := hb.inv
      obtain ⟨j, hj, h12, h13⟩ := hocc.inside hinv2
      have h14 := hfresh2.2 j hj
      simp only [Heap.addr] at h14
      rcases h14 with h14 | h14
      · exact Or.inr (by omega)
      · exact Or.inl (by omega)
    refine ⟨T3, A, h2, h3, fun hocc => hocc.of_keeps h4 fun _ _ => id, ?_, ?_, ?_, ?_, ?_⟩
    · intro q hq
      obtain ⟨a, m, h7, h8, h9, h10⟩ := h5 hq
      exact ⟨a, m, h7, h8, h9, fun hle => hle.trans h10⟩
    · intro ht _
      exact h6 ((tagsOk_congr hs2).2 ht)
    · exact h7 (allocNeed_mod n)
    · intro a m hocc x hx hx'
      rw [h10 x (haway hocc (by omega) hx') (hocc.outside h hx hx'), hidle2]
    · intro he
      refine ⟨h8.trans htls2.1, h9.trans htls2.2, ?_⟩
      intro a m hocc x hx hx'
      rw [h11 he x (haway hocc hx hx'), hidle2]

end JACLibc
