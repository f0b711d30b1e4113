import JACLibc.Memory.Heap
import JACLibc.Lib.Linked
import JACLibc.Lib.Tiling

/-!
# The invariant of the heap

The blocks of a heap are a map `T` from header addresses to sizes, tags (`prev_size`) and uses.  `HeapInv s T A` says
that the words in memory spell `T`: the blocks tile the block areas of the segments, every header holds what `T` says,
the bins list the free blocks and the recycling cache the cached ones, and the blocks `A` cut from the arena lie apart
below the thread's offset.  A block that an operation has taken out of its list and not yet put anywhere is `held`.
-/

namespace JACLibc

open Linked

inductive Use
  | used
  | free
  | held
  | cached (r : Nat)

/-- The flag word of a block in that use. -/
def Use.flags : Use → Nat
  | .used => 1
  | _ => 0

/-- In no bin and not in the cache. -/
def Use.apart : Use → Prop
  | .used | .held => True
  | _ => False

structure Block where
  size : Nat
  tag : Nat
  use : Use

/-- The offset of the first block of a segment: behind the arena in the static heap, else one header from the base. -/
def firstOff (j : Nat) : Nat := if j = 0 then ARENA_LIMIT else HDR

/-- The block areas of the segments. -/
def Heap.spans (s : Heap) : Set (Nat × Nat) :=
  {I | ∃ j < s.segs.length, I = (s.addr j (firstOff j), s.addr j (s.seg j).size)}

structure SegsOk (s : Heap) : Prop where
  pos : 0 < s.segs.length
  base_zero : (s.seg 0).base = s.staticHeap
  size_zero : (s.seg 0).size = JACL_HEAP_INIT
  base_pos : ∀ {j}, j < s.segs.length → 0 < (s.seg j).base
  room : ∀ {j}, j < s.segs.length → firstOff j + 32 ≤ (s.seg j).size
  size_le : ∀ {j}, j < s.segs.length → (s.seg j).size ≤ JACL_HEAP_MAX
  disjoint : ∀ {i j}, i < s.segs.length → j < s.segs.length → i ≠ j →
    s.addr i (s.seg i).size ≤ (s.seg j).base ∨ s.addr j (s.seg j).size ≤ (s.seg i).base
  current_le : s.current ≤ JACL_HEAP_MAX
  current_mod : s.current % 4096 = 0

def Headers (mem : Nat → Nat) (T : Nat → Option Block) : Prop :=
  ∀ a b, T a = some b → mem a = b.size ∧ mem (a + 8) = b.tag ∧ mem (a + 16) = b.use.flags

/-- The block at offset `off` of segment `j` is free and of the size of bin `i`. -/
def FreeIn (s : Heap) (T : Nat → Option Block) (j i off : Nat) : Prop :=
  off < (s.seg j).size ∧ ∃ b, T (s.addr j off) = some b ∧ b.use = .free ∧ membinGet b.size = i

def Bins (s : Heap) (T : Nat → Option Block) : Prop :=
  ∀ j < s.segs.length, ∀ i, ∃ l, Chain (fun off => s.mem (s.addr j off + 24)) ((s.seg j).bins i) l ∧ l.Nodup ∧
    ∀ off, off ∈ l ↔ FreeIn s T j i off

structure Cache (recycling : Nat → List Nat) (T : Nat → Option Block) : Prop where
  nodup : ∀ r, (recycling r).Nodup
  mem : ∀ {a b r}, T a = some b → b.use = .cached r → a + 24 ∈ recycling r
  block : ∀ {p r}, p ∈ recycling r → ∃ a b, p = a + 24 ∧ T a = some b ∧ b.use = .cached r ∧ 8 * r + 40 ≤ b.size

/-- The blocks cut from the arena that are handed out, with their sizes, lie below the thread's offset. -/
structure ArenaOk (s : Heap) (A : Nat → Option Nat) : Prop where
  cursor_mod : s.cursor % JACL_TLS_CHUNK = 0
  off_le : s.tlsOff ≤ s.tlsEnd
  end_le : s.tlsEnd ≤ ARENA_LIMIT
  header : ∀ {a n}, A a = some n → s.mem a = n ∧ s.mem (a + 16) = 3
  within : ∀ {a n}, A a = some n → s.staticHeap ≤ a ∧ a + n ≤ s.staticHeap + s.tlsOff ∧ 32 ≤ n
  apart : ∀ {a a' n n'}, A a = some n → A a' = some n' → a < a' → a + n ≤ a'
  off_mod : s.tlsOff % 8 = 0
  on_grid : ∀ {a n}, A a = some n → (a - s.staticHeap) % 8 = 0 ∧ n % 8 = 0

structure HeapInv (s : Heap) (T : Nat → Option Block) (A : Nat → Option Nat) : Prop where
  segs : SegsOk s
  tiling : Tiling Block.size 32 s.spans T
  headers : Headers s.mem T
  bins : Bins s T
  cache : Cache s.recycling T
  arena : ArenaOk s A

variable {s s' : Heap} {T T' : Nat → Option Block} {A : Nat → Option Nat} {a j i off v : Nat} {b c : Block}

/-! ### Segments -/

@[simp] theorem Heap.store_seg (s : Heap) (a v j : Nat) : (s.store a v).seg j = s.seg j := rfl

@[simp] theorem Heap.store_addr (s : Heap) (a v j off : Nat) : (s.store a v).addr j off = s.addr j off := rfl

@[simp] theorem Heap.store_mem_self (s : Heap) (a v : Nat) : (s.store a v).mem a = v := Function.update_self _ _ _

/-- The segments stand where they stood. -/
structure SamePlaces (s s' : Heap) : Prop where
  static : s'.staticHeap = s.staticHeap
  length : s'.segs.length = s.segs.length
  base : ∀ k, (s'.seg k).base = (s.seg k).base
  size : ∀ k, (s'.seg k).size = (s.seg k).size
  current : s'.current = s.current

/-- The arena is where it was, too. -/
structure SameSegs (s s' : Heap) : Prop extends SamePlaces s s' where
  tlsOff : s'.tlsOff = s.tlsOff
  tlsEnd : s'.tlsEnd = s.tlsEnd
  cursor : s'.cursor = s.cursor

theorem SamePlaces.addr (h : SamePlaces s s') (k o : Nat) : s'.addr k o = s.addr k o := by
  simp only [Heap.addr, h.base]

theorem SamePlaces.spans (h : SamePlaces s s') : s'.spans = s.spans := by
  simp only [Heap.spans, h.addr, h.size, h.length]

theorem SamePlaces.segsOk (h : SamePlaces s s') (hs : SegsOk s) : SegsOk s' := by
  constructor
  · exact h.length ▸ hs.pos
  · rw [h.base, h.static, hs.base_zero]
  · rw [h.size, hs.size_zero]
  · intro j hj
    rw [h.base]
    exact hs.base_pos (h.length ▸ hj)
  · intro j hj
    rw [h.size]
    exact hs.room (h.length ▸ hj)
  · intro j hj
    rw [h.size]
    exact hs.size_le (h.length ▸ hj)
  · intro i j hi hj hij
    rw [h.addr, h.addr, h.base, h.base, h.size, h.size]
    exact hs.disjoint (h.length ▸ hi) (h.length ▸ hj) hij
  · rw [h.current]
    exact hs.current_le
  · rw [h.current]
    exact hs.current_mod

theorem sameSegs_mem (s : Heap) (mem : Nat → Nat) : SameSegs s { s with mem := mem } :=
  ⟨⟨rfl, rfl, fun _ => rfl, fun _ => rfl, rfl⟩, rfl, rfl, rfl⟩

theorem seg_setSeg (hj : j < s.segs.length) (g : Seg) (k : Nat) :
    (s.setSeg j g).seg k = if k = j then g else s.seg k := by
  simp only [Heap.seg, Heap.setSeg, List.getD_eq_getElem?_getD]
  split
  · next h => subst h; simp [hj]
  · next h => rw [List.getElem?_set_ne (Ne.symm h)]

/-- The changes of the bin operations: memory, and one bin of one segment. -/
theorem sameSegs_setBin (hj : j < s.segs.length) (mem : Nat → Nat) (i off : Nat) (bit : Bool) :
    SameSegs s ({ s with mem := mem }.setSeg j ((s.seg j).setBin i off bit)) := by
  have hseg : ∀ k, ({ s with mem := mem }.setSeg j ((s.seg j).setBin i off bit)).seg k =
      if k = j then (s.seg j).setBin i off bit else s.seg k := seg_setSeg hj _
  refine ⟨⟨rfl, by simp [Heap.setSeg], ?_, ?_, rfl⟩, rfl, rfl, rfl⟩ <;> intro k <;> rw [hseg] <;> split
  · next h => subst h; rfl
  · rfl
  · next h => subst h; rfl
  · rfl

theorem bins_setBin (hj : j < s.segs.length) (mem : Nat → Nat) (i off : Nat) (bit : Bool) (k i' : Nat) :
    (({ s with mem := mem }.setSeg j ((s.seg j).setBin i off bit)).seg k).bins i' =
      if k = j ∧ i' = i then off else (s.seg k).bins i' := by
  have hseg : ({ s with mem := mem }.setSeg j ((s.seg j).setBin i off bit)).seg k =
      if k = j then (s.seg j).setBin i off bit else s.seg k := seg_setSeg hj _ _
  rw [hseg]
  by_cases hk : k = j
  · subst hk
    rcases eq_or_ne i' i with rfl | hne
    · simp [Seg.setBin]
    · simp [Seg.setBin, hne]
  · simp [hk]

theorem SameSegs.trans {s'' : Heap} (h : SameSegs s s') (h' : SameSegs s' s'') : SameSegs s s'' :=
  ⟨⟨h'.static.trans h.static, h'.length.trans h.length, fun k => (h'.base k).trans (h.base k),
    fun k => (h'.size k).trans (h.size k), h'.current.trans h.current⟩, h'.tlsOff.trans h.tlsOff,
    h'.tlsEnd.trans h.tlsEnd, h'.cursor.trans h.cursor⟩

/-- An address lies in one segment only. -/
theorem SegsOk.addr_inj (h : SegsOk s) {j' off' : Nat} (hj : j < s.segs.length) (hj' : j' < s.segs.length)
    (ho : off < (s.seg j).size) (ho' : off' < (s.seg j').size) (he : s.addr j off = s.addr j' off') :
    j = j' ∧ off = off' := by
  simp only [Heap.addr] at he
  by_cases hjj : j = j'
  · subst hjj
    exact ⟨rfl, by omega⟩
  · have := h.disjoint hj hj' hjj
    simp only [Heap.addr] at this
    omega

/-! ### Blocks -/

namespace HeapInv

theorem apart_or (h : HeapInv s T A) {a' : Nat} {b' : Block} (ha : T a = some b) (ha' : T a' = some b') (hne : a ≠ a') :
    a + b.size ≤ a' ∨ a' + b'.size ≤ a := by
  rcases lt_or_gt_of_ne hne with hlt | hlt
  · exact Or.inl (h.tiling.apart ha ha' hlt)
  · exact Or.inr (h.tiling.apart ha' ha hlt)

theorem span_mem (hj : j < s.segs.length) : (s.addr j (firstOff j), s.addr j (s.seg j).size) ∈ s.spans :=
  ⟨j, hj, rfl⟩

/-- A block in a segment lies in its block area. -/
theorem bounds (h : HeapInv s T A) (hj : j < s.segs.length) (ho : off < (s.seg j).size)
    (hb : T (s.addr j off) = some b) :
    firstOff j ≤ off ∧ off + b.size ≤ (s.seg j).size := by
  obtain ⟨I, ⟨k, hk, rfl⟩, h1, h2⟩ := h.tiling.within hb
  have h3 := h.tiling.min_le hb
  simp only [Heap.addr] at h1 h2
  have he : s.addr j off = s.addr k (s.addr j off - (s.seg k).base) := by
    simp only [Heap.addr]
    omega
  obtain ⟨rfl, -⟩ := h.segs.addr_inj hj hk ho (by simp only [Heap.addr]; omega) he
  omega

theorem exists_seg (h : HeapInv s T A) (hb : T a = some b) :
    ∃ j off, j < s.segs.length ∧ off < (s.seg j).size ∧ a = s.addr j off := by
  obtain ⟨I, ⟨k, hk, rfl⟩, h1, h2⟩ := h.tiling.within hb
  have h3 := h.tiling.min_le hb
  simp only [Heap.addr] at h1 h2
  exact ⟨k, a - (s.seg k).base, hk, by omega, by simp only [Heap.addr]; omega⟩

/-- The block after a block that does not end its segment. -/
theorem exists_next (h : HeapInv s T A) (hj : j < s.segs.length) (hb : T (s.addr j off) = some b)
    (hn : off + b.size < (s.seg j).size) : ∃ c, T (s.addr j (off + b.size)) = some c := by
  have h1 := h.bounds hj (by omega) hb
  have h2 := h.tiling.next (span_mem hj) hb (by simp only [Heap.addr]; omega) (by simp only [Heap.addr]; omega)
  rwa [Heap.addr, Nat.add_assoc] at h2

/-- Blocks of the segments do not reach into the arena. -/
theorem not_arena (h : HeapInv s T A) (hb : T a = some b) :
    a + b.size ≤ s.staticHeap ∨ s.staticHeap + ARENA_LIMIT ≤ a := by
  obtain ⟨j, off, hj, ho, rfl⟩ := h.exists_seg hb
  have h1 := h.bounds hj ho hb
  have h2 := h.segs.base_zero
  rcases Nat.eq_zero_or_pos j with rfl | hpos
  · right
    simp only [Heap.addr, firstOff, if_true] at h1 ⊢
    omega
  · have h3 := h.segs.disjoint h.segs.pos hj (by omega)
    have h4 := h.segs.size_zero
    simp only [Heap.addr, ARENA_LIMIT, JACL_HEAP_INIT] at h3 h4 ⊢
    omega

end HeapInv

/-- The arena looks the same after changes in the block areas. -/
theorem ArenaOk.congr (h : ArenaOk s A) (hs : SameSegs s s')
    (hm : ∀ x, s.staticHeap ≤ x → x < s.staticHeap + ARENA_LIMIT → s'.mem x = s.mem x) : ArenaOk s' A := by
  have hlim := h.off_le.trans h.end_le
  constructor
  · rw [hs.cursor]
    exact h.cursor_mod
  · rw [hs.tlsOff, hs.tlsEnd]
    exact h.off_le
  · rw [hs.tlsEnd]
    exact h.end_le
  · intro a n ha
    obtain ⟨h1, h2, h3⟩ := h.within ha
    rw [hm a h1 (by omega), hm (a + 16) (by omega) (by omega)]
    exact h.header ha
  · intro a n ha
    rw [hs.static, hs.tlsOff]
    exact h.within ha
  · exact h.apart
  · rw [hs.tlsOff]
    exact h.off_mod
  · rw [hs.static]
    exact h.on_grid

theorem Headers.update {mem mem' : Nat → Nat} (h : Headers mem T) (hT : Tiling Block.size 32 s.spans T)
    (ha : T a = some b) (hc : mem' a = c.size ∧ mem' (a + 8) = c.tag ∧ mem' (a + 16) = c.use.flags)
    (hm : ∀ x, x < a ∨ a + b.size ≤ x → mem' x = mem x) : Headers mem' (Function.update T a (some c)) := by
  intro a' b' hb'
  rcases eq_or_ne a' a with rfl | hne
  · rw [Function.update_self, Option.some.injEq] at hb'
    subst hb'
    exact hc
  · rw [Function.update_of_ne hne] at hb'
    have h1 := hT.min_le hb'
    have h2 : a' + b'.size ≤ a ∨ a + b.size ≤ a' := by
      rcases lt_or_gt_of_ne hne with hlt | hlt
      · exact Or.inl (hT.apart hb' ha hlt)
      · exact Or.inr (hT.apart ha hb' hlt)
    rw [hm a' (by omega), hm (a' + 8) (by omega), hm (a' + 16) (by omega)]
    exact h a' b' hb'

theorem Bins.congr (h : Bins s T) (hs : SamePlaces s s') (hb : ∀ k i, (s'.seg k).bins i = (s.seg k).bins i)
    (hf : ∀ j i off, FreeIn s' T' j i off ↔ FreeIn s T j i off)
    (hm : ∀ j i off, j < s.segs.length → FreeIn s T j i off → s'.mem (s.addr j off + 24) = s.mem (s.addr j off + 24)) :
    Bins s' T' := by
  intro j hj i
  rw [hs.length] at hj
  obtain ⟨l, h1, h2, h3⟩ := h j hj i
  refine ⟨l, ?_, h2, fun off => (h3 off).trans (hf j i off).symm⟩
  rw [hb]
  apply h1.congr
  intro off hoff
  rw [hs.addr]
  exact hm j i off hj ((h3 off).1 hoff)

theorem FreeIn.congr (hs : SamePlaces s s')
    (h : ∀ a, (∃ b, T' a = some b ∧ b.use = .free ∧ membinGet b.size = i) ↔
      ∃ b, T a = some b ∧ b.use = .free ∧ membinGet b.size = i) :
    FreeIn s' T' j i off ↔ FreeIn s T j i off := by
  rw [FreeIn, FreeIn, hs.addr, hs.size, h]

theorem Cache.update {recycling : Nat → List Nat} (h : Cache recycling T) (ha : T a = some b)
    (hsize : c.size = b.size) (hu : ∀ r, c.use = .cached r ↔ b.use = .cached r) :
    Cache recycling (Function.update T a (some c)) := by
  constructor
  · exact h.nodup
  · intro a' b' r hb' hr
    rcases eq_or_ne a' a with rfl | hne
    · rw [Function.update_self, Option.some.injEq] at hb'
      subst hb'
      exact h.mem ha ((hu r).1 hr)
    · rw [Function.update_of_ne hne] at hb'
      exact h.mem hb' hr
  · intro p r hp
    obtain ⟨a', b', h1, h2, h3, h4⟩ := h.block hp
    rcases eq_or_ne a' a with rfl | hne
    · obtain rfl := Option.some.inj (h2.symm.trans ha)
      exact ⟨a', c, h1, Function.update_self _ _ _, (hu r).2 h3, hsize ▸ h4⟩
    · exact ⟨a', b', h1, by rw [Function.update_of_ne hne, h2], h3, h4⟩

/-- A change inside one block, which keeps its size and the bin it is in, if any. -/
theorem HeapInv.recache (h : HeapInv s T A) {mem : Nat → Nat} {recycling : Nat → List Nat} (ha : T a = some b)
    (hsize : c.size = b.size) (hc : mem a = c.size ∧ mem (a + 8) = c.tag ∧ mem (a + 16) = c.use.flags)
    (hu : (c.use = .free ↔ b.use = .free) ∧ (b.use = .free → mem (a + 24) = s.mem (a + 24)))
    (hr : Cache recycling (Function.update T a (some c)))
    (hm : ∀ x, x < a ∨ a + b.size ≤ x → mem x = s.mem x) :
    HeapInv { s with mem := mem, recycling := recycling } (Function.update T a (some c)) A := by
  have hs : SameSegs s { s with mem := mem, recycling := recycling } :=
    ⟨⟨rfl, rfl, fun _ => rfl, fun _ => rfl, rfl⟩, rfl, rfl, rfl⟩
  refine ⟨hs.segsOk h.segs, ?_, h.headers.update h.tiling ha hc hm, ?_, hr, ?_⟩
  · rw [hs.spans]
    exact h.tiling.update ha hsize
  · apply h.bins.congr hs.toSamePlaces (fun _ _ => rfl)
    · intro j i off
      apply FreeIn.congr hs.toSamePlaces
      intro a'
      rcases eq_or_ne a' a with rfl | hne
      · simp only [Function.update_self, ha, Option.some.injEq, exists_eq_left', hsize, hu.1]
      · rw [Function.update_of_ne hne]
    · intro j i off hj hf
      obtain ⟨ho, b', hb', hfree, -⟩ := hf
      rcases eq_or_ne (s.addr j off) a with rfl | hne
      · obtain rfl := Option.some.inj (hb'.symm.trans ha)
        exact hu.2 hfree
      · have h1 := h.apart_or hb' ha hne
        have h2 := h.tiling.min_le hb'
        exact hm _ (by omega)
  · apply h.arena.congr hs
    intro x h1 h2
    have h3 := h.not_arena ha
    exact hm x (by omega)

theorem Use.apart.ne_free {u : Use} (h : u.apart) : u ≠ .free := by
  rintro rfl
  exact h

theorem Use.apart.ne_cached {u : Use} (h : u.apart) (r : Nat) : u ≠ .cached r := by
  rintro rfl
  exact h

/-- A change inside one block, which keeps its size and the lists it is in. -/
theorem HeapInv.rewrite (h : HeapInv s T A) {mem : Nat → Nat} (ha : T a = some b) (hsize : c.size = b.size)
    (hc : mem a = c.size ∧ mem (a + 8) = c.tag ∧ mem (a + 16) = c.use.flags)
    (hu : c.use = b.use ∧ (b.use = .free → mem (a + 24) = s.mem (a + 24)) ∨ b.use.apart ∧ c.use.apart)
    (hm : ∀ x, x < a ∨ a + b.size ≤ x → mem x = s.mem x) :
    HeapInv { s with mem := mem } (Function.update T a (some c)) A := by
  apply h.recache ha hsize hc _ _ hm
  · rcases hu with ⟨hu, hlink⟩ | ⟨hb, hc⟩
    · exact ⟨by rw [hu], hlink⟩
    · exact ⟨iff_of_false hc.ne_free hb.ne_free, fun hf => absurd hf hb.ne_free⟩
  · apply h.cache.update ha hsize
    intro r
    rcases hu with ⟨hu, -⟩ | ⟨hb, hc⟩
    · rw [hu]
    · exact iff_of_false (hc.ne_cached r) (hb.ne_cached r)

theorem HeapInv.retag (h : HeapInv s T A) (ha : T a = some b) (v : Nat) :
    HeapInv (s.store (a + 8) v) (Function.update T a (some { b with tag := v })) A := by
  have hb := h.tiling.min_le ha
  obtain ⟨h1, -, h3⟩ := h.headers a b ha
  refine h.rewrite ha (by rfl) ?_ ?_ ?_
  · refine ⟨?_, Function.update_self _ _ _, ?_⟩
    · rw [Function.update_of_ne (by omega), h1]
    · rw [Function.update_of_ne (by omega), h3]
  · exact Or.inl ⟨rfl, fun _ => Function.update_of_ne (by omega) _ _⟩
  · intro x hx
    exact Function.update_of_ne (by omega) _ _

theorem HeapInv.reuse (h : HeapInv s T A) (ha : T a = some b) (hb : b.use.apart) {u : Use} (hu : u.apart) :
    HeapInv (s.store (a + 16) u.flags) (Function.update T a (some { b with use := u })) A := by
  have hsize := h.tiling.min_le ha
  obtain ⟨h1, h2, -⟩ := h.headers a b ha
  refine h.rewrite ha (by rfl) ?_ ?_ ?_
  · refine ⟨?_, ?_, Function.update_self _ _ _⟩
    · rw [Function.update_of_ne (by omega), h1]
    · rw [Function.update_of_ne (by omega), h2]
  · exact Or.inr ⟨hb, hu⟩
  · intro x hx
    exact Function.update_of_ne (by omega) _ _

/-! ### Used blocks, held blocks and tags -/

/-- The used blocks stay where they are. -/
def Keeps (T T' : Nat → Option Block) : Prop :=
  ∀ x c, T x = some c → c.use = .used → ∃ c', T' x = some c' ∧ c'.use = .used ∧ c'.size = c.size

theorem Keeps.trans {T'' : Nat → Option Block} (h : Keeps T T') (h' : Keeps T' T'') : Keeps T T'' := by
  intro x c hc hu
  obtain ⟨c', h1, h2, h3⟩ := h x c hc hu
  obtain ⟨c'', h4, h5, h6⟩ := h' x c' h1 h2
  exact ⟨c'', h4, h5, h6.trans h3⟩

/-- No block is held, except at the addresses in `P`. -/
def HeldIn (T : Nat → Option Block) (P : Nat → Prop) : Prop := ∀ x c, T x = some c → c.use = .held → P x

theorem Keeps.update (hb : T a = some b) (hu : b.use ≠ .used) (o : Option Block) : Keeps T (Function.update T a o) := by
  intro x c hc hcu
  have hne : x ≠ a := by
    rintro rfl
    rw [hb, Option.some.injEq] at hc
    exact hu (hc ▸ hcu)
  exact ⟨c, by rw [Function.update_of_ne hne, hc], hcu, rfl⟩

theorem HeldIn.update {P : Nat → Prop} (h : HeldIn T P) (hc : c.use ≠ .held) (a : Nat) :
    HeldIn (Function.update T a (some c)) fun x => x ≠ a ∧ P x := by
  intro x d hd hu
  rcases eq_or_ne x a with rfl | hne
  · rw [Function.update_self, Option.some.injEq] at hd
    exact absurd (hd ▸ hu) hc
  · rw [Function.update_of_ne hne] at hd
    exact ⟨hne, h x d hd hu⟩

/-- The blocks lie on the grid of `JACL_ALIGNMENT`. -/
def Grid (T : Nat → Option Block) : Prop := ∀ x c, T x = some c → x % 8 = 0 ∧ c.size % 8 = 0

theorem Grid.update (h : Grid T) (ha : a % 8 = 0) (hc : c.size % 8 = 0) : Grid (Function.update T a (some c)) := by
  intro x d hd
  rcases eq_or_ne x a with rfl | hne
  · rw [Function.update_self, Option.some.injEq] at hd
    exact ⟨ha, hd ▸ hc⟩
  · rw [Function.update_of_ne hne] at hd
    exact h x d hd

/-! ### Contents -/

/-- The address is no tag, and in no block but the used ones. -/
def Outside (T : Nat → Option Block) (x : Nat) : Prop :=
  ∀ a b, T a = some b → x ≠ a + 8 ∧ (b.use ≠ .used → x < a ∨ a + b.size ≤ x)

/-- Memory has changed only in blocks that are not used, and in tags. -/
def Confined (T : Nat → Option Block) (mem mem' : Nat → Nat) : Prop := ∀ x, Outside T x → mem' x = mem x

theorem Confined.refl (T : Nat → Option Block) (mem : Nat → Nat) : Confined T mem mem := fun _ _ => rfl

/-- A block that is not used is written to. -/
theorem confined_update {mem : Nat → Nat} (hb : T a = some b) (hu : b.use ≠ .used) {x : Nat} (h1 : a ≤ x)
    (h2 : x < a + b.size) (v : Nat) : Confined T mem (Function.update mem x v) := by
  intro y hy
  have := (hy a b hb).2 hu
  exact Function.update_of_ne (by omega) _ _

/-- The address is no tag, and no size or link of a block that is not used: the words that lists and merges write. -/
def Spared (T : Nat → Option Block) (x : Nat) : Prop :=
  ∀ a b, T a = some b → x ≠ a + 8 ∧ (b.use ≠ .used → x ≠ a ∧ x ≠ a + 24)

/-- Memory has changed only in sizes, tags and links. -/
def Sparing (T : Nat → Option Block) (mem mem' : Nat → Nat) : Prop := ∀ x, Spared T x → mem' x = mem x

theorem Sparing.refl (T : Nat → Option Block) (mem : Nat → Nat) : Sparing T mem mem := fun _ _ => rfl

theorem Sparing.trans {mem mem' mem'' : Nat → Nat} (h : Sparing T mem mem') (h' : Sparing T' mem' mem'')
    (ho : ∀ x, Spared T x → Spared T' x) : Sparing T mem mem'' :=
  fun x hx => (h' x (ho x hx)).trans (h x hx)

/-- The size or the link of a block that is not used is written. -/
theorem sparing_update {mem : Nat → Nat} (hb : T a = some b) (hu : b.use ≠ .used) {x : Nat} (hx : x = a ∨ x = a + 24)
    (v : Nat) : Sparing T mem (Function.update mem x v) := by
  intro y hy
  obtain ⟨h1, h2⟩ := (hy a b hb).2 hu
  apply Function.update_of_ne
  rcases hx with rfl | rfl
  · exact h1
  · exact h2

theorem HeapInv.spared (h : HeapInv s T A) {x : Nat} (hx : Outside T x) : Spared T x := by
  intro a b hb
  obtain ⟨h1, h2⟩ := hx a b hb
  have h3 := h.tiling.min_le hb
  refine ⟨h1, fun hu => ?_⟩
  have h4 := h2 hu
  omega

/-- The flag word of a block. -/
theorem HeapInv.spared_flags (h : HeapInv s T A) (hb : T a = some b) : Spared T (a + 16) := by
  intro y d hd
  rcases eq_or_ne y a with rfl | hne
  · exact ⟨by omega, fun _ => ⟨by omega, by omega⟩⟩
  · have h1 := h.apart_or hd hb hne
    have h2 := h.tiling.min_le hd
    have h3 := h.tiling.min_le hb
    exact ⟨by omega, fun _ => ⟨by omega, by omega⟩⟩

/-- The contents of a used block. -/
theorem HeapInv.outside_used (h : HeapInv s T A) (hb : T a = some b) (hu : b.use = .used) {x : Nat} (h1 : a + 24 ≤ x)
    (h2 : x < a + b.size) : Outside T x := by
  intro y d hd
  rcases eq_or_ne y a with rfl | hne
  · obtain rfl := Option.some.inj (hd.symm.trans hb)
    exact ⟨by omega, fun hn => absurd hu hn⟩
  · have h3 := h.apart_or hd hb hne
    have h4 := h.tiling.min_le hd
    exact ⟨by omega, fun _ => by omega⟩

theorem HeapInv.outside_arena (h : HeapInv s T A) {x : Nat} (h1 : s.staticHeap ≤ x)
    (h2 : x < s.staticHeap + ARENA_LIMIT) :
    Outside T x := by
  intro y d hd
  have h3 := h.not_arena hd
  have h4 := h.tiling.min_le hd
  exact ⟨by omega, fun _ => by omega⟩

/-- The tag of every block is the size of the block right before it, 0 for the first block of a segment. -/
structure TagsOk (s : Heap) (T : Nat → Option Block) : Prop where
  link : ∀ {x b c}, T x = some b → T (x + b.size) = some c → c.tag = b.size
  first : ∀ {j b}, j < s.segs.length → T (s.addr j (firstOff j)) = some b → b.tag = 0

theorem tagsOk_congr (hs : SamePlaces s s') : TagsOk s' T ↔ TagsOk s T := by
  constructor <;> intro h <;> refine ⟨h.link, ?_⟩ <;> intro k d hk hd
  · rw [← hs.addr] at hd
    exact h.first (by rw [hs.length]; exact hk) hd
  · rw [hs.addr] at hd
    exact h.first (hs.length ▸ hk) hd

theorem TagsOk.update (h : TagsOk s T) (hb : T a = some b) (u : Use) :
    TagsOk s (Function.update T a (some { b with use := u })) := by
  have back : ∀ {x e}, Function.update T a (some { b with use := u }) x = some e →
      ∃ e', T x = some e' ∧ e'.size = e.size ∧ e'.tag = e.tag := by
    intro x e he
    rcases eq_or_ne x a with rfl | hne
    · rw [Function.update_self, Option.some.injEq] at he
      subst he
      exact ⟨b, hb, rfl, rfl⟩
    · rw [Function.update_of_ne hne] at he
      exact ⟨e, he, rfl, rfl⟩
  constructor
  · intro x e f he hf
    obtain ⟨e', h1, h2, -⟩ := back he
    obtain ⟨f', h3, -, h4⟩ := back hf
    rw [← h2] at h3 ⊢
    rw [← h4]
    exact h.link h1 h3
  · intro k e hk he
    obtain ⟨e', h1, -, h2⟩ := back he
    rw [← h2]
    exact h.first hk h1

theorem firstOff_pos (j : Nat) : 0 < firstOff j := by
  unfold firstOff ARENA_LIMIT HDR
  split <;> omega

/-- No block begins where a segment ends. -/
theorem no_block_at_end (h : HeapInv s T A) (hj : j < s.segs.length) : T (s.addr j (s.seg j).size) = none := by
  rw [Option.eq_none_iff_forall_ne_some]
  intro c hc
  obtain ⟨k, o, hk, ho, he⟩ := h.exists_seg hc
  rw [he] at hc
  have h1 := h.bounds hk ho hc
  have h2 := firstOff_pos k
  have h3 := h.segs.room hj
  rcases eq_or_ne j k with rfl | hne
  · simp only [Heap.addr] at he
    omega
  · have h4 := h.segs.disjoint hj hk hne
    simp only [Heap.addr] at he h4
    omega

/-- No block ends where the first block of a segment begins. -/
theorem HeapInv.ne_first (h : HeapInv s T A) (hb : T a = some b) (hj : j < s.segs.length) :
    a + b.size ≠ s.addr j (firstOff j) := by
  intro he
  obtain ⟨k, o, hk, ho, rfl⟩ := h.exists_seg hb
  have h1 := h.bounds hk ho hb
  have h2 := h.tiling.min_le hb
  have h3 := h.segs.room hj
  have h4 := firstOff_pos j
  rcases eq_or_ne k j with rfl | hne
  · simp only [Heap.addr] at he
    omega
  · have h5 := h.segs.disjoint hk hj hne
    simp only [Heap.addr] at he h5
    omega

/-- Blocks that end at the same address are the same. -/
theorem HeapInv.end_inj (h : HeapInv s T A) {x y : Nat} (hb : T x = some b) (hc : T y = some c)
    (he : x + b.size = y + c.size) : x = y := by
  by_contra hne
  have h1 := h.tiling.min_le hb
  have h2 := h.tiling.min_le hc
  rcases h.apart_or hb hc hne with h3 | h3 <;> omega

end JACLibc
