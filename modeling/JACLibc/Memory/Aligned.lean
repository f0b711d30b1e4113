import JACLibc.CString
import JACLibc.Memory.Places
import JACLibc.Memory.Safety

/-!
# Aligned blocks

`aligned_alloc` asks `malloc` for more than it needs, rounds the address up and leaves the address of the raw block in
the word before the aligned one.  The sizes are added in `size_t`: where the sum wraps, the block is too small for
what was asked.  `free` looks for the segment of the header that it takes to lie before the pointer: the search
succeeds for every aligned block inside its raw block, the saved address is read as the flag word, and nothing is
freed.
-/

namespace JACLibc

def JACL_ALIGNMENT : Nat := 8

/-- `JACL_ALIGN_UP` for a power of two of type `size_t`: the mask has 64 bits. -/
def alignUp64 (x a : Nat) : Nat := (x + (a - 1)) % 2 ^ 64 / a * a

/-- `aligned_alloc`; `errno` is set to the error. -/
def alignedAlloc (s : Heap) (alignment size : Nat) (mmap : Nat → Option Nat) : Except Errno (Option Nat) × Heap :=
  if alignment = 0 ∨ alignment &&& (alignment - 1) ≠ 0 ∨ size % alignment ≠ 0 then (.error .EINVAL, s)
  else if alignment ≤ JACL_ALIGNMENT then
    let (p, s) := malloc s size mmap
    (.ok p, s)
  else
    let extra := alignment + 8
    match malloc s ((size + extra) % 2 ^ 64) mmap with
    | (none, s) => (.ok none, s)
    | (some raw, s) =>
      let aligned := alignUp64 (raw + 8) alignment
      (.ok (if aligned = 0 then none else some aligned), s.store ((aligned + 2 ^ 64 - 8) % 2 ^ 64) raw)

/-- The size that `posix_memalign` asks `aligned_alloc` for. -/
def memalignSize (alignment size : Nat) : Nat :=
  let alloc_size := (size + alignment - 1) % 2 ^ 64 / alignment * alignment
  if alloc_size = 0 then alignment else alloc_size

/-- `posix_memalign`; `memptr` says whether the pointer for the answer is not NULL. -/
def posixMemalign (s : Heap) (memptr : Bool) (alignment size : Nat) (mmap : Nat → Option Nat) :
    Except Errno Nat × Heap :=
  if ¬memptr then (.error .EINVAL, s)
  else if alignment < 8 ∨ alignment &&& (alignment - 1) ≠ 0 then (.error .EINVAL, s)
  else
    match alignedAlloc s alignment (memalignSize alignment size) mmap with
    | (.ok (some p), s) => (.ok p, s)
    | (_, s) => (.error .ENOMEM, s)

/-- The size of the raw block. -/
def rawSize (alignment size : Nat) : Nat :=
  if alignment ≤ JACL_ALIGNMENT then size else (size + (alignment + 8)) % 2 ^ 64

/-- The pointer is aligned, and the saved address and `size` bytes lie in the raw block. -/
def AlignedIn (s : Heap) (alignment size raw q : Nat) : Prop :=
  q % alignment = 0 ∧ (JACL_ALIGNMENT < alignment → raw + 8 ≤ q) ∧ raw ≤ q ∧ q + size ≤ raw + (s.mem (raw - HDR) - HDR)

/-- What `aligned_alloc` promises. -/
def AlignedContract (s : Heap) (alignment size : Nat) (mmap : Nat → Option Nat) : Prop :=
  ∀ q, (alignedAlloc s alignment size mmap).1 = .ok (some q) →
    ∃ raw, (malloc s (rawSize alignment size) mmap).1 = some raw ∧
      AlignedIn (alignedAlloc s alignment size mmap).2 alignment size raw q

/-- What `posix_memalign` promises. -/
def MemalignContract (s : Heap) (alignment size : Nat) (mmap : Nat → Option Nat) : Prop :=
  ∀ q, (posixMemalign s true alignment size mmap).1 = .ok q →
    ∃ raw, (malloc s (rawSize alignment (memalignSize alignment size)) mmap).1 = some raw ∧
      AlignedIn (posixMemalign s true alignment size mmap).2 alignment size raw q

/-- The size of the raw block does not wrap, and is one that the rounding of `malloc` does not spoil. -/
def AlignFits (alignment size : Nat) : Prop :=
  if alignment ≤ JACL_ALIGNMENT then Sized size
  else size + alignment + 8 < 2 ^ 64 ∧ Sized (size + alignment + 8)

def MemalignFits (alignment size : Nat) : Prop :=
  size + alignment - 1 < 2 ^ 64 ∧ AlignFits alignment (memalignSize alignment size)

variable {s : Heap} {T : Nat → Option Block} {A : Nat → Option Nat} {a m n p q raw alignment size : Nat}
  {mmap : Nat → Option Nat}

theorem alignUp64_spec {x a : Nat} (ha : 0 < a) (hx : x + (a - 1) < 2 ^ 64) :
    alignUp64 x a % a = 0 ∧ x ≤ alignUp64 x a ∧ alignUp64 x a < x + a := by
  rw [alignUp64, Nat.mod_eq_of_lt hx]
  have h1 := Nat.div_add_mod (x + (a - 1)) a
  have h2 := Nat.mod_lt (x + (a - 1)) ha
  rw [Nat.mul_comm] at h1
  exact ⟨Nat.mul_mod_left _ _, by omega, by omega⟩

/-! ### The raw block -/

/-- Blocks that are handed out lie on the grid. -/
theorem HeapInv.occ_mod (h : HeapInv s T A) (hg : Grid T) (hp : SegsPlaced s) (hocc : Occ T A a m) : a % 8 = 0 := by
  rcases hocc with ⟨b, hb, -, -⟩ | ha
  · exact (hg a b hb).1
  · have h1 := h.arena.on_grid ha
    have h2 := h.arena.within ha
    have h3 := (hp.seg h.segs.pos).1
    rw [h.segs.base_zero] at h3
    omega

/-- What `malloc` answers lies on the grid, has room, and ends in the address space. -/
private theorem malloc_placed (h : HeapInv s T A) (hheld : HeldIn T fun _ => False) (hg : Grid T)
    (hp : SegsPlaced (malloc s n mmap).2) (hp0 : SegsPlaced s) (hfresh : ∀ sz p, mmap sz = some p → Fresh s p sz)
    (hs : Sized n) (hr : (malloc s n mmap).1 = some p) :
    p % 8 = 0 ∧ 24 ≤ p ∧ n + 24 ≤ (malloc s n mmap).2.mem (p - 24) ∧ p + (malloc s n mmap).2.mem (p - 24) ≤ 2 ^ 64 +
    24 := by
  have hneed := (allocNeed_enough_iff n).2 hs (allocNeed_ne_zero hr)
  by_cases hcur : refills s n = true → s.tlsEnd ≤ s.cursor
  · obtain ⟨T', A', hm⟩ := malloc_inv h hheld hcur hfresh
    obtain ⟨a, m, rfl, hocc, -, hfit⟩ := hm.fresh hr
    have hmod := hm.inv.occ_mod (hm.grid hg fun j hj => (hp.seg hj).1) hp hocc
    obtain ⟨j, hj, -, hin⟩ := hocc.inside hm.inv
    have hend := (hp.seg hj).2
    simp only [Heap.addr] at hend
    rw [Nat.add_sub_cancel, (hm.inv.occ_size hocc).1]
    have := hfit hneed
    omega
  · obtain ⟨hrefill, hlt⟩ := Classical.not_imp.1 hcur
    obtain ⟨h1, h2⟩ := malloc_refill mmap h hrefill (by omega)
    obtain rfl := Option.some.inj (h1.symm.trans hr)
    have hmod := h.arena.cursor_mod
    have hend := h.arena.end_le
    obtain ⟨h3, h4⟩ := hp0.seg h.segs.pos
    simp only [Heap.addr, h.segs.base_zero, h.segs.size_zero, JACL_HEAP_INIT] at h3 h4
    rw [JACL_TLS_CHUNK] at hmod
    rw [ARENA_LIMIT] at hend
    simp only [refills, Bool.and_eq_true, decide_eq_true_eq] at hrefill
    have hsmall := allocNeed_small hrefill.1.2
    rw [Nat.add_sub_cancel, h2]
    omega

private theorem pow_two {k : Nat} (h : alignment = 2 ^ k) : 0 < alignment ∧ alignment &&& (alignment - 1) = 0 := by
  refine ⟨h ▸ Nat.two_pow_pos k, ?_⟩
  rw [h, Nat.and_two_pow_sub_one_eq_mod, Nat.mod_self]

/-- The answers of `aligned_alloc` for more than `JACL_ALIGNMENT`. -/
theorem alignedAlloc_cases (ha : JACL_ALIGNMENT < alignment)
    (hq : (alignedAlloc s alignment size mmap).1 = .ok (some q)) :
    ∃ raw, (malloc s (rawSize alignment size) mmap).1 = some raw ∧ q = alignUp64 (raw + 8) alignment ∧ q ≠ 0 ∧
      (alignedAlloc s alignment size mmap).2 =
        (malloc s (rawSize alignment size) mmap).2.store ((q + 2 ^ 64 - 8) % 2 ^ 64) raw := by
  simp only [alignedAlloc, if_neg (Nat.not_le.2 ha)] at hq ⊢
  split at hq
  · cases hq
  next hvalid =>
  rw [if_neg hvalid, rawSize, if_neg (Nat.not_le.2 ha)]
  rcases hr : malloc s ((size + (alignment + 8)) % 2 ^ 64) mmap with ⟨_ | raw, s1⟩ <;> rw [hr] at hq
  · cases hq
  · simp only [Except.ok.injEq] at hq
    split at hq
    · cases hq
    next hne =>
    obtain rfl := Option.some.inj hq
    exact ⟨raw, rfl, rfl, hne, rfl⟩

private theorem aligned_in (h : HeapInv s T A) (hheld : HeldIn T fun _ => False) (hg : Grid T) (hp0 : SegsPlaced s)
    (hfresh : ∀ sz p, mmap sz = some p → Fresh s p sz) (hm : Mapped mmap) {k : Nat} (hpow : alignment = 2 ^ k)
    (hfit : AlignFits alignment size) : AlignedContract s alignment size mmap := by
  intro q hq
  have hp := hp0.adds (malloc_adds s (rawSize alignment size) mmap) hm
  obtain ⟨hpos, -⟩ := pow_two hpow
  rw [AlignFits] at hfit
  by_cases ha : alignment ≤ JACL_ALIGNMENT
  · rw [if_pos ha] at hfit
    have hraw : rawSize alignment size = size := if_pos ha
    simp only [alignedAlloc, if_pos ha] at hq ⊢
    split at hq
    · cases hq
    next hvalid =>
    rw [if_neg hvalid]
    rw [hraw] at hp ⊢
    have hr : (malloc s size mmap).1 = some q := Except.ok.inj hq
    obtain ⟨h1, h2, h3, -⟩ := malloc_placed h hheld hg hp hp0 hfresh hfit hr
    refine ⟨q, hr, ?_, fun hlt => absurd ha (Nat.not_le.2 hlt), le_rfl, ?_⟩
    · have hdvd : alignment ∣ 8 := by
        rw [hpow, JACL_ALIGNMENT, show 8 = 2 ^ 3 from rfl] at ha
        rw [hpow]
        exact Nat.pow_dvd_pow 2 ((Nat.pow_le_pow_iff_right (by omega)).1 ha)
      exact Nat.mod_eq_zero_of_dvd (Nat.dvd_trans hdvd (Nat.dvd_of_mod_eq_zero h1))
    · show q + size ≤ q + ((malloc s size mmap).2.mem (q - 24) - 24)
      omega
  · rw [if_neg ha] at hfit
    obtain ⟨hwrap, hsized⟩ := hfit
    have hraw : rawSize alignment size = size + alignment + 8 := by
      rw [rawSize, if_neg ha, ← Nat.add_assoc, Nat.mod_eq_of_lt hwrap]
    obtain ⟨raw, hr, hplace, -, hheap⟩ := alignedAlloc_cases (by omega) hq
    rw [hraw] at hr hheap hp
    obtain ⟨h1, h2, h3, h4⟩ := malloc_placed h hheld hg hp hp0 hfresh hsized hr
    obtain ⟨h5, h6, h7⟩ := alignUp64_spec (x := raw + 8) hpos (by omega)
    rw [← hplace] at h5 h6 h7
    refine ⟨raw, by rw [hraw, hr], h5, fun _ => h6, by omega, ?_⟩
    -- the saved address lies behind the header
    have hcell : (q + 2 ^ 64 - 8) % 2 ^ 64 = q - 8 := by omega
    have hmem : (alignedAlloc s alignment size mmap).2.mem (raw - 24) =
        (malloc s (size + alignment + 8) mmap).2.mem (raw - 24) := by
      rw [hheap, hcell]
      exact Function.update_of_ne (by omega) _ _
    rw [HDR, hmem]
    omega

private theorem memalignSize_ge (hpos : 0 < alignment) (h : size + alignment - 1 < 2 ^ 64) :
    size ≤ memalignSize alignment size := by
  rw [memalignSize, Nat.mod_eq_of_lt h]
  have h1 := Nat.div_add_mod (size + alignment - 1) alignment
  have h2 := Nat.mod_lt (size + alignment - 1) hpos
  rw [Nat.mul_comm] at h1
  split
  · omega
  · omega

private theorem memalign_in (hpos : 0 < alignment) (hwrap : size + alignment - 1 < 2 ^ 64)
    (h : AlignedContract s alignment (memalignSize alignment size) mmap) : MemalignContract s alignment size mmap := by
  intro q hq
  simp only [posixMemalign, not_true_eq_false, if_false] at hq ⊢
  split at hq
  · cases hq
  next hvalid =>
  rw [if_neg hvalid]
  have hge := memalignSize_ge hpos hwrap
  rcases hr : alignedAlloc s alignment (memalignSize alignment size) mmap with ⟨_ | _ | p, s1⟩ <;> rw [hr] at hq
  · cases hq
  · cases hq
  · obtain rfl := Except.ok.inj hq
    obtain ⟨raw, h1, h2, h3, h4, h5⟩ := h p (by rw [hr])
    rw [hr] at h5
    exact ⟨raw, h1, h2, h3, h4, by simp only at h5 ⊢; omega⟩

/-- In every state that legal and sound calls reach, an aligned block whose size fits stays inside its raw block. -/
theorem aligned_inside {staticHeap : Nat} (hpos : 0 < staticHeap) (h16 : staticHeap % 16 = 0)
    (hmax : staticHeap + JACL_HEAP_INIT ≤ 2 ^ 64) (mem : Nat → Nat) (calls : List Call)
    (hg : Machine.Guarded Session.step (fun c call => c.Legal call ∧ c.Sound call ∧
    call.Mapped) (Session.init staticHeap mem)
      calls) {k : Nat} (hpow : alignment = 2 ^ k) (hm : Mapped mmap)
    (hfresh : ∀ sz p, mmap sz = some p → Fresh (Machine.run Session.step (Session.init staticHeap mem) calls).heap p
    sz) :
    (AlignFits alignment size →
      AlignedContract (Machine.run Session.step (Session.init staticHeap mem) calls).heap alignment size mmap) ∧
    (MemalignFits alignment size →
      MemalignContract (Machine.run Session.step (Session.init staticHeap mem) calls).heap alignment size mmap) := by
  obtain ⟨hplaced, T, A, h, hgrid⟩ := session_placed hpos h16 hmax mem hg
  refine ⟨fun hfit => aligned_in h.inv h.held hgrid hplaced hfresh hm hpow hfit, ?_⟩
  rintro ⟨hwrap, hfit⟩
  exact memalign_in (pow_two hpow).1 hwrap (aligned_in h.inv h.held hgrid hplaced hfresh hm hpow hfit)

/-- 1024 bytes at a multiple of 64, after a small block. -/
theorem aligned_inside_thousand :
    AlignFits 64 1024 ∧
    AlignedContract (Machine.run Session.step (Session.init 4096 fun _ => 0) [.malloc 100 fun _ => none]).heap 64 1024
      fun _ => none := by
  have hfit : AlignFits 64 1024 := ⟨by decide, Or.inl (by decide)⟩
  have hmapped : Mapped fun _ => none := fun sz p hp => (nomatch hp)
  refine ⟨hfit, (aligned_inside (by decide) (by decide) (by decide) _ _ ?_ (k := 6) rfl hmapped ?_).1 hfit⟩
  · exact ⟨⟨fun sz p hp => (nomatch hp), fun _ => Nat.zero_le _, hmapped⟩, trivial⟩
  · exact fun sz p hp => (nomatch hp)

/-- Of `2^64 - 16` bytes at a multiple of 16 the raw block has 8, as the sum wraps. -/
theorem aligned_inside_wrapped :
    (alignedAlloc (Session.init 4096 fun _ => 0).heap 16 (2 ^ 64 - 16) fun _ => none).1.toOption = some (some 4128) ∧
    ¬AlignedContract (Session.init 4096 fun _ => 0).heap 16 (2 ^ 64 - 16) fun _ => none := by
  refine ⟨by decide, ?_⟩
  intro h
  have hq : (alignedAlloc (Session.init 4096 fun _ => 0).heap 16 (2 ^ 64 - 16) fun _ => none).1 = .ok (some 4128) := by
    rfl
  obtain ⟨raw, hr, -, -, -, hle⟩ := h 4128 hq
  have hraw : (malloc (Session.init 4096 fun _ => 0).heap (rawSize 16 (2 ^ 64 - 16)) fun _ => none).1 = some 4120 := by
    decide
  obtain rfl := Option.some.inj (hraw.symm.trans hr)
  revert hle
  decide

/-! ### `free` of an aligned block -/

/-- The `n` bytes from `p` on can be handed out again: they are in the recycling cache or in a block of a bin. -/
def Available (s : Heap) (p n : Nat) : Prop :=
  (∃ r, p ∈ s.recycling r) ∨ ∃ j < s.segs.length, ∃ i l,
    Linked.Chain (fun off => s.mem (s.addr j off + 24)) ((s.seg j).bins i) l ∧
      ∃ off ∈ l, s.addr j off ≤ p - HDR ∧ p - HDR + n ≤ s.addr j off + s.mem (s.addr j off)

/-- `free` of the aligned block at `q` gives its raw block back. -/
def FreesRaw (s : Heap) (q raw : Nat) : Prop :=
  isAlloc ((free s q).mem (raw - 8)) = false ∧ Available (free s q) raw (s.mem (raw - HDR))

/-- After `aligned_alloc` the address of the raw block stands right before the aligned one. -/
theorem alignedAlloc_saved (ha : JACL_ALIGNMENT < alignment)
    (hq : (alignedAlloc s alignment size mmap).1 = .ok (some q)) :
    ∃ raw, (malloc s (rawSize alignment size) mmap).1 = some raw ∧
    (alignedAlloc s alignment size mmap).2.mem (q - 8) = raw ∧
      (alignedAlloc s alignment size mmap).2 = (malloc s (rawSize alignment size) mmap).2.store (q - 8) raw := by
  obtain ⟨raw, hr, hplace, hne, hheap⟩ := alignedAlloc_cases ha hq
  -- a multiple of a power of two beyond 8, and below 2^64
  obtain ⟨i, hi⟩ : ∃ i, q = i * alignment := ⟨_, hplace⟩
  have hlarge : alignment ≤ q := by
    rw [hi]
    exact Nat.le_mul_of_pos_left _ (Nat.pos_of_ne_zero fun h0 => hne (by rw [hi, h0, Nat.zero_mul]))
  have hlt : q < 2 ^ 64 := by
    rw [hplace, alignUp64]
    exact (Nat.div_mul_le_self _ _).trans_lt (Nat.mod_lt _ (by decide))
  rw [JACL_ALIGNMENT] at ha
  have hcell : (q + 2 ^ 64 - 8) % 2 ^ 64 = q - 8 := by omega
  rw [hcell] at hheap
  exact ⟨raw, hr, by rw [hheap, Heap.store_mem_self], hheap⟩

private theorem flags_grid {x : Nat} (h : x % 8 = 0) : isArena x = false ∧ isAlloc x = false := by
  simp only [isArena, isAlloc, decide_eq_false_iff_not]
  omega

/-- In a segment the saved address is read as the flags of a block that is not allocated. -/
private theorem free_leaks {j : Nat} (hmod : raw % 8 = 0) (hsaved : s.mem (q - 8) = raw)
    (hfind : memsegFind s (q - HDR) = some j) : free s q = s := by
  obtain ⟨h1, h2⟩ := flags_grid hmod
  have htarget : freeTarget s q = some (q, j) := by
    unfold freeTarget
    rw [hfind]
  rw [free, hsaved, h1, htarget]
  simp only [hsaved, h2, Bool.false_eq_true, not_false_eq_true, if_true, if_false]

/-- Elsewhere `free` does what it does for the raw block. -/
private theorem free_resolved (h : HeapInv s T A) {b : Block} (hb : T a = some b) (hu : b.use = .used)
    (hmod : a % 8 = 0) (hsaved : s.mem (q - 8) = a + 24) (hfind : memsegFind s (q - HDR) = none) :
    free s q = free s (a + 24) := by
  obtain ⟨j, off, hj, ho, rfl⟩ := h.exists_seg hb
  have hseg := memsegFind_eq h.segs hj ho
  have hp : s.addr j off + 24 - HDR = s.addr j off := by
    rw [HDR]
    omega
  have hp' : s.addr j off + 24 - 8 = s.addr j off + 16 := by omega
  have htarget : freeTarget s q = some (s.addr j off + 24, j) := by
    unfold freeTarget
    rw [hfind]
    simp only [hsaved, hp, hseg]
    rw [if_neg (by omega)]
    rfl
  have hself : freeTarget s (s.addr j off + 24) = some (s.addr j off + 24, j) := by
    unfold freeTarget
    rw [hp, hseg]
  have hflags : s.mem (s.addr j off + 16) = 1 := by
    rw [(h.headers _ _ hb).2.2, hu]
    rfl
  have harena : isArena 1 = false := rfl
  rw [free, free, hsaved, (flags_grid (by omega)).1, htarget, hself, hp', hflags, harena]
  simp only [Bool.false_eq_true, if_false]

private theorem Reusable.available (h : HeapInv s T A) (hr : Reusable T a n) : Available s (a + 24) n := by
  rcases hr with ⟨b, r, hb, hu⟩ | ⟨x, b, hb, hu, hlow, hhigh⟩
  · exact Or.inl ⟨r, h.cache.mem hb hu⟩
  · obtain ⟨j, off, hj, ho, rfl⟩ := h.exists_seg hb
    obtain ⟨l, hl, -, hmem⟩ := h.bins j hj (membinGet b.size)
    refine Or.inr ⟨j, hj, _, l, hl, off, (hmem off).2 ⟨ho, b, hb, hu, rfl⟩, ?_⟩
    rw [HDR, Nat.add_sub_cancel, (h.headers _ _ hb).1]
    exact ⟨hlow, hhigh⟩

/-- In every state that legal and sound calls reach: where the word before `q` holds the address of a live raw block
from a bin, `free` of `q` leaks the raw block if the header it takes to lie before `q` is in a segment, which is so
whenever `q` points into the raw block, and gives it back else. -/
theorem free_aligned {staticHeap : Nat} (hpos : 0 < staticHeap) (h16 : staticHeap % 16 = 0)
    (hmax : staticHeap + JACL_HEAP_INIT ≤ 2 ^ 64) (mem : Nat → Nat) (calls : List Call)
    (hg : Machine.Guarded Session.step (fun c call => c.Legal call ∧ c.Sound call ∧
    call.Mapped) (Session.init staticHeap mem)
      calls) {s : Heap} (hs : s = (Machine.run Session.step (Session.init staticHeap mem) calls).heap) {q raw : Nat}
    (hlive : (Machine.run Session.step (Session.init staticHeap mem) calls).Legal (.free raw))
    (hbin : isArena (s.mem (raw - 8)) = false) (hsaved : s.mem (q - 8) = raw) :
    (FreesRaw s q raw → memsegFind s (q - HDR) = none) ∧
    ((Machine.run Session.step (Session.init staticHeap mem) calls).Sound (.free raw) → memsegFind s (q - HDR) = none →
      FreesRaw s q raw) ∧
    (raw + 8 ≤ q → q ≤ raw + (s.mem (raw - HDR) - HDR) → memsegFind s (q - HDR) ≠ none) := by
  subst hs
  obtain ⟨hplaced, T, A, h, hgrid⟩ := session_placed hpos h16 hmax mem hg
  obtain ⟨k, hk⟩ := hlive
  obtain ⟨a, m, rfl, hocc, -⟩ := h.live hk
  have hmod := h.inv.occ_mod hgrid hplaced hocc
  have hp : a + 24 - HDR = a := by
    rw [HDR]
    omega
  have hp' : a + 24 - 8 = a + 16 := by omega
  rw [hp'] at hbin
  rcases hocc with ⟨b, hb, hu, rfl⟩ | ha
  swap
  · rw [(h.inv.arena.header ha).2] at hbin
    cases hbin
  obtain ⟨hsize, -, hflags⟩ := h.inv.headers _ _ hb
  refine ⟨?_, ?_, ?_⟩
  · rintro ⟨hfreed, -⟩
    rcases hf : memsegFind (Machine.run Session.step (Session.init staticHeap mem) calls).heap (q - HDR) with _ | j
    · rfl
    · rw [free_leaks (by omega) hsaved hf, hp', hflags, hu] at hfreed
      cases hfreed
  · rintro ⟨hcache, htrust⟩ hfind
    obtain ⟨T', A', hf⟩ := free_inv h.inv h.held (Or.inl ⟨b, hb, hu, rfl⟩) hcache (Or.inl htrust)
    obtain ⟨hzero, hreuse⟩ := hf.released hb
    rw [FreesRaw, free_resolved h.inv hb hu hmod hsaved hfind, hp', hzero, hp, hsize]
    exact ⟨rfl, hreuse.available hf.inv⟩
  · intro hlow hhigh
    rw [hp, hsize, HDR] at hhigh
    obtain ⟨j, off, hj, ho, rfl⟩ := h.inv.exists_seg hb
    have hbound := h.inv.bounds hj ho hb
    have hmin := h.inv.tiling.min_le hb
    have hin : q - HDR = Heap.addr (Machine.run Session.step (Session.init staticHeap mem) calls).heap j
        (off + (q - HDR - Heap.addr (Machine.run Session.step (Session.init staticHeap mem) calls).heap j off)) := by
      rw [addr_add, HDR]
      omega
    rw [hin, memsegFind_eq h.inv.segs hj (by rw [HDR]; omega)]
    exact fun he => by cases he

/-- 1008 bytes at a multiple of 16: a raw block of 1032 bytes, with its address in the word before 69664. -/
theorem free_aligned_thousand :
    ¬FreesRaw (Machine.run Session.step (Session.init 4096 fun _ => 0) [.malloc 1032 fun _ => none,
    .write 69656 69656]).heap
      69664 69656 := by
  have hmapped : Mapped fun _ => none := fun sz p hp => (nomatch hp)
  have hg : Machine.Guarded Session.step (fun c call => c.Legal call ∧ c.Sound call ∧ call.Mapped)
      (Session.init 4096 fun _ => 0) [.malloc 1032 fun _ => none, .write 69656 69656] :=
    ⟨⟨fun sz p hp => (nomatch hp), fun hr => absurd hr (by decide), hmapped⟩,
      ⟨⟨(69656, 1032), by decide⟩, trivial, trivial⟩, trivial⟩
  have hlive : (Machine.run Session.step (Session.init 4096 fun _ => 0)
      [.malloc 1032 fun _ => none, .write 69656 69656]).Legal (.free 69656) := ⟨1032, by decide⟩
  intro hfreed
  obtain ⟨hout, -, hin⟩ := free_aligned (by decide) (by decide) (by decide) _ _ hg rfl (q := 69664) hlive
    (by decide) (by decide)
  exact hin (by decide) (by decide) (hout hfreed)

/-- Right after `aligned_alloc` of 1008 bytes at a multiple of 16, `free` leaves the raw block allocated. -/
theorem free_aligned_leaks :
    (alignedAlloc (Session.init 4096 fun _ => 0).heap 16 1008 fun _ => none).1.toOption = some (some 69664) ∧
    ¬FreesRaw (alignedAlloc (Session.init 4096 fun _ => 0).heap 16 1008 fun _ => none).2 69664 69656 := by
  refine ⟨by decide, ?_⟩
  rintro ⟨hfreed, -⟩
  revert hfreed
  decide

end JACLibc
