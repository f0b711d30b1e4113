import JACLibc.Memory.Session

/-!
# Disjoint blocks, sizes and boundary tags

The three promises of the heap, for every run of one thread.  The live blocks do not overlap and lie in the segments
(`live_disjoint`); a block has room for what was asked (`malloc_size`); the blocks tile their segments and the tags
are right (`boundary_tags`).  Each is broken by the code as it stands: a size that wraps in the 32-bit rounding gives
a block of 32 bytes, and a block cut in the middle of a segment leaves a wrong tag behind.  The theorems say under
which conditions on the calls the promises are kept.
-/

namespace JACLibc

variable {c : Session} {s : Heap} {T : Nat → Option Block} {A : Nat → Option Nat} {a j n off : Nat}
  {mmap : Nat → Option Nat}

/-! ### Disjoint blocks -/

/-- The ranges `[p, p+n)` of the live blocks are disjoint, and each lies in a segment. -/
def Session.Disjoint (c : Session) : Prop :=
  c.live.Pairwise (fun e e' => e.1 + e.2 ≤ e'.1 ∨ e'.1 + e'.2 ≤ e.1) ∧
    ∀ e ∈ c.live, ∃ j < c.heap.segs.length,
      (c.heap.seg j).base ≤ e.1 ∧ e.1 + e.2 ≤ (c.heap.seg j).base + (c.heap.seg j).size

/-- The sizes asked for are ones that the rounding does not spoil. -/
def Call.Sized : Call → Prop
  | .malloc n _ => JACLibc.Sized n
  | .realloc _ n _ => JACLibc.Sized n
  | _ => True

private theorem SessionInv.disjoint (h : SessionInv c T A) (hs : ∀ e ∈ c.live, Sized e.2) : c.Disjoint := by
  constructor
  · have hpair : c.live.Pairwise fun e e' => e.1 ≠ e'.1 := List.pairwise_map.1 h.nodup
    refine List.Pairwise.imp_of_mem ?_ hpair
    rintro ⟨p, n⟩ ⟨q, k⟩ hp hq hne
    obtain ⟨a, m, rfl, hocc, hfit⟩ := h.live hp
    obtain ⟨a', m', rfl, hocc', hfit'⟩ := h.live hq
    have h1 := hfit (hs _ hp)
    have h2 := hfit' (hs _ hq)
    simp only at hne ⊢
    rcases hocc.apart h.inv hocc' (by omega) with h3 | h3 <;> omega
  · rintro ⟨p, n⟩ hp
    obtain ⟨a, m, rfl, hocc, hfit⟩ := h.live hp
    have h1 := hfit (hs _ hp)
    obtain ⟨j, hj, h2, h3⟩ := hocc.inside h.inv
    exact ⟨j, hj, by simp only; omega, by simp only; omega⟩

private theorem others_subset (ptr : Option Nat) {e : Nat × Nat} (he : e ∈ c.others ptr) : e ∈ c.live := by
  cases ptr with
  | none => exact he
  | some p => exact List.mem_of_mem_filter he

private theorem live_sized {call : Call} (hs : ∀ e ∈ c.live, Sized e.2) (hc : call.Sized) :
    ∀ e ∈ (c.step call).2.live, Sized e.2 := by
  cases call with
  | malloc n mmap =>
    intro e he
    change e ∈ c.added n (malloc c.heap n mmap).1 at he
    rcases hr : (malloc c.heap n mmap).1 with _ | p
    · rw [hr] at he
      exact hs e he
    · rw [hr] at he
      rcases List.mem_cons.1 he with rfl | he
      · exact hc
      · exact hs e he
  | free p => exact fun e he => hs e (others_subset (some p) he)
  | realloc ptr n mmap =>
    intro e he
    change e ∈ c.moved ptr n (realloc c.heap ptr n mmap).1 at he
    rcases hr : (realloc c.heap ptr n mmap).1 with _ | p
    · rw [hr, Session.moved] at he
      split at he
      · exact hs e (others_subset _ he)
      · exact hs e he
    · rw [hr] at he
      rcases List.mem_cons.1 he with rfl | he
      · exact hc
      · exact hs e (others_subset _ he)
  | write x v => exact hs

/-- In a run whose calls are legal, sound and ask for sizes that the rounding does not spoil, the live blocks are
disjoint. -/
theorem live_disjoint {staticHeap : Nat} (hpos : 0 < staticHeap) (mem : Nat → Nat) (calls : List Call)
    (hg : Machine.Guarded Session.step (fun c call => c.Legal call ∧ c.Sound call ∧ call.Sized)
      (Session.init staticHeap mem) calls) :
    (Machine.run Session.step (Session.init staticHeap mem) calls).Disjoint := by
  have hinv := Machine.guarded_invariant (I := fun c => (∃ T A, SessionInv c T A) ∧ ∀ e ∈ c.live, Sized e.2)
    (fun c call h hok => ⟨sessionInv_step h.1 hok.1 hok.2.1, live_sized h.2 hok.2.2⟩)
    ⟨⟨_, _, (sessionInv_init hpos mem).1⟩, (fun e he => nomatch he)⟩ hg
  obtain ⟨⟨T, A, h⟩, hs⟩ := hinv
  exact h.disjoint hs

/-- Two blocks that are both in use. -/
theorem live_disjoint_two :
    Machine.Guarded Session.step (fun c call => c.Legal call ∧ c.Sound call ∧ call.Sized)
      (Session.init 4096 fun _ => 0) [.malloc 2000 fun _ => none, .malloc 200 fun _ => none] ∧
    (Machine.run Session.step (Session.init 4096 fun _ => 0)
      [.malloc 2000 fun _ => none, .malloc 200 fun _ => none]).live = [(71704, 200), (69656, 2000)] ∧
    (Machine.run Session.step (Session.init 4096 fun _ => 0)
      [.malloc 2000 fun _ => none, .malloc 200 fun _ => none]).Disjoint := by
  have hg : Machine.Guarded Session.step (fun c call => c.Legal call ∧ c.Sound call ∧ call.Sized)
      (Session.init 4096 fun _ => 0) [.malloc 2000 fun _ => none, .malloc 200 fun _ => none] :=
    ⟨⟨fun sz p hp => (nomatch hp), fun hr => absurd hr (by decide), .inl (by decide)⟩,
      ⟨fun sz p hp => (nomatch hp), fun hr => absurd hr (by decide), .inl (by decide)⟩, trivial⟩
  exact ⟨hg, by decide, live_disjoint (by decide) _ _ hg⟩

/-- A request for `2^32` bytes is served with a block of 32, so that the next block lies in the range asked for. -/
theorem live_overlap_wrapped :
    Machine.Guarded Session.step Session.Legal (Session.init 4096 fun _ => 0)
      [.malloc (2 ^ 32) fun _ => none, .malloc 200 fun _ => none] ∧
    ¬(Machine.run Session.step (Session.init 4096 fun _ => 0)
      [.malloc (2 ^ 32) fun _ => none, .malloc 200 fun _ => none]).Disjoint := by
  refine ⟨⟨fun sz p hp => (nomatch hp), fun sz p hp => (nomatch hp), trivial⟩, ?_⟩
  rintro ⟨hpair, -⟩
  have hlive : (Machine.run Session.step (Session.init 4096 fun _ => 0)
      [.malloc (2 ^ 32) fun _ => none, .malloc 200 fun _ => none]).live = [(69688, 200), (69656, 2 ^ 32)] := by
    decide
  rw [hlive, List.pairwise_cons] at hpair
  have hdisj := hpair.1 (69656, 2 ^ 32) List.mem_cons_self
  revert hdisj
  decide

/-! ### Sizes -/

/-- `malloc` of `n` bytes answers NULL or a block whose recorded usable size is at least `n`, and the rounded size is
0 or has room for `n` bytes and the header. -/
def SizeGuarantee (s : Heap) (n : Nat) : Prop :=
  (allocNeed n ≠ 0 → n + HDR ≤ allocNeed n) ∧
    ∀ mmap : Nat → Option Nat, (∀ sz p, mmap sz = some p → Fresh s p sz) → ∀ p, (malloc s n mmap).1 = some p →
      n ≤ (malloc s n mmap).2.mem (p - HDR) - HDR

/-- Where a refill finds the cursor below the end of the thread's chunk, the chunk is taken again and the block is cut
from it: its size is right, though its place is not. -/
theorem allocArena_wrapped (h : HeapInv s T A) (hr : refills s n = true) (hcur : s.cursor < s.tlsEnd) :
    (allocArena s n (allocNeed n)).1 = some (s.staticHeap + s.cursor + 24) ∧
      (allocArena s n (allocNeed n)).2.mem (s.staticHeap + s.cursor) = allocNeed n := by
  simp only [refills, Bool.and_eq_true, Option.isNone_iff_eq_none, decide_eq_true_eq] at hr
  obtain ⟨⟨hrec, hsmall⟩, hfull⟩ := hr
  obtain ⟨hneed, hneed'⟩ := allocNeed_small hsmall
  have hmod := h.arena.cursor_mod
  have hend := h.arena.end_le
  rw [JACL_TLS_CHUNK] at hmod
  rw [ARENA_LIMIT] at hend
  have hlow : ¬s.cursor ≥ ARENA_LIMIT := by
    rw [ARENA_LIMIT]
    omega
  have hroom : ¬s.cursor + allocNeed n > ARENA_LIMIT := by
    rw [ARENA_LIMIT]
    omega
  rw [allocArena, if_neg (by omega), if_neg (by omega), tlsRefill_eq h.arena.cursor_mod, if_neg hlow]
  simp only [not_true_eq_false, false_or, if_neg hroom]
  refine ⟨rfl, ?_⟩
  simp only [Heap.store, Function.update_apply]
  rw [if_neg (by omega), if_neg (by omega), if_pos trivial]

theorem malloc_refill (mmap : Nat → Option Nat) (h : HeapInv s T A) (hr : refills s n = true)
    (hcur : s.cursor < s.tlsEnd) :
    (malloc s n mmap).1 = some (s.staticHeap + s.cursor + 24) ∧
      (malloc s n mmap).2.mem (s.staticHeap + s.cursor) = allocNeed n := by
  have harena := allocArena_wrapped h hr hcur
  simp only [refills, Bool.and_eq_true, Option.isNone_iff_eq_none, decide_eq_true_eq] at hr
  obtain ⟨⟨hrec, hsmall⟩, -⟩ := hr
  have hneed := (allocNeed_small hsmall).1
  rw [malloc, if_neg (by omega), hrec]
  rcases hr : allocArena s n (allocNeed n) with ⟨r, s1⟩
  rw [hr] at harena
  obtain ⟨rfl, hmem⟩ := harena
  exact ⟨rfl, hmem⟩

private theorem malloc_enough (h : HeapInv s T A) (hheld : HeldIn T fun _ => False)
    (hfresh : ∀ sz p, mmap sz = some p → Fresh s p sz) (hs : Sized n) {p : Nat} (hp : (malloc s n mmap).1 = some p) :
    n + 24 ≤ (malloc s n mmap).2.mem (p - 24) := by
  have hneed := (allocNeed_enough_iff n).2 hs (allocNeed_ne_zero hp)
  by_cases hcur : refills s n = true → s.tlsEnd ≤ s.cursor
  · obtain ⟨T', A', hm⟩ := malloc_inv h hheld hcur hfresh
    obtain ⟨a, m, rfl, hocc, -, hfit⟩ := hm.fresh hp
    rw [Nat.add_sub_cancel, (hm.inv.occ_size hocc).1]
    exact hfit hneed
  · obtain ⟨hr, hlt⟩ := Classical.not_imp.1 hcur
    obtain ⟨h1, h2⟩ := malloc_refill mmap h hr (by omega)
    obtain rfl := Option.some.inj (h1.symm.trans hp)
    rw [Nat.add_sub_cancel, h2]
    exact hneed

/-- In every state that legal and sound calls reach, exactly the sizes that the rounding does not spoil are served
right. -/
theorem malloc_size {staticHeap : Nat} (hpos : 0 < staticHeap) (mem : Nat → Nat) (calls : List Call)
    (hg : Machine.Guarded Session.step (fun c call => c.Legal call ∧ c.Sound call) (Session.init staticHeap mem) calls)
    (n : Nat) :
    SizeGuarantee (Machine.run Session.step (Session.init staticHeap mem) calls).heap n ↔ Sized n := by
  obtain ⟨T, A, h⟩ := Machine.guarded_invariant (I := fun c => ∃ T A, SessionInv c T A)
    (fun c call h hok => sessionInv_step h hok.1 hok.2) ⟨_, _, (sessionInv_init hpos mem).1⟩ hg
  constructor
  · rintro ⟨hneed, -⟩
    exact (allocNeed_enough_iff n).1 hneed
  · intro hs
    refine ⟨(allocNeed_enough_iff n).2 hs, ?_⟩
    intro mmap hfresh p hp
    exact Nat.le_sub_of_add_le (malloc_enough h.inv h.held hfresh hs hp)

/-- After a block from the arena has been taken, 100 bytes are served right. -/
theorem malloc_size_hundred :
    SizeGuarantee (Machine.run Session.step (Session.init 4096 fun _ => 0) [.malloc 100 fun _ => none]).heap 100 := by
  refine (malloc_size (by decide) _ _ ?_ 100).2 (Or.inl (by decide))
  exact ⟨⟨fun sz p hp => (nomatch hp), fun _ => Nat.zero_le _⟩, trivial⟩

/-- `2^32` bytes are served with a block that has room for 8. -/
theorem malloc_size_wrapped : ¬SizeGuarantee (Session.init 4096 fun _ => 0).heap (2 ^ 32) := by
  rintro ⟨-, hmalloc⟩
  have hle := hmalloc (fun _ => none) (fun sz p hp => nomatch hp) 69656 (by decide)
  revert hle
  decide

/-! ### Boundary tags -/

/-- The blocks reached from the first one tile the block area of the segment, every block but the first has the size
of the block right before it as its tag, and so its tag leads to a block. -/
def BoundaryTags (s : Heap) (j : Nat) : Prop :=
  ∃ l, Tiled s j (firstOff j) l ∧
    (∀ o ∈ l, o + s.mem (s.addr j o) < (s.seg j).size →
      s.mem (s.addr j (o + s.mem (s.addr j o)) + 8) = s.mem (s.addr j o)) ∧
    ∀ o ∈ l, o ≠ firstOff j → o - s.mem (s.addr j o + 8) ∈ l

/-- The runs of `malloc` and `free` that keep the tags: a block is cut only at the end of its segment, a merge takes
no block of the recycling cache, and no chunk of the arena is taken after the cursor has wrapped. -/
def Session.KeepsTags (c : Session) : Call → Prop
  | .malloc n _ => (refills c.heap n = true → c.heap.tlsEnd ≤ c.heap.cursor) ∧ CutsLast c.heap n
  | .free p => SparesCache c.heap p
  | .realloc _ _ _ => False
  | .write _ _ => True

private theorem block_mem_tiled (h : HeapInv s T A) (hj : j < s.segs.length) {l : List Nat} {o : Nat} {b b' : Block}
    (hb : T (s.addr j off) = some b) (hl : Tiled s j off l) (ho : off ≤ o) (hos : o < (s.seg j).size)
    (hb' : T (s.addr j o) = some b') : o ∈ l := by
  induction l generalizing off b with
  | nil =>
    have : off = (s.seg j).size := hl
    omega
  | cons x l ih =>
    obtain ⟨rfl, h1, h2⟩ := hl
    have hsize : s.mem (s.addr j x) = b.size := (h.headers _ _ hb).1
    rw [hsize] at h2
    rcases eq_or_lt_of_le ho with rfl | hlt
    · exact List.mem_cons_self
    · have h3 := h.tiling.apart hb hb' (by simp only [Heap.addr]; omega)
      have h4 : x + b.size ≤ o := by
        simp only [Heap.addr] at h3
        omega
      obtain ⟨d, hd⟩ := h.exists_next hj hb (by omega)
      exact List.mem_cons_of_mem _ (ih hd h2 h4)

private theorem TagsOk.boundaryTags (h : HeapInv s T A) (ht : TagsOk s T) (hj : j < s.segs.length) :
    BoundaryTags s j := by
  obtain ⟨l, hl⟩ := h.tiled hj
  obtain ⟨b0, hb0⟩ := h.first_block hj
  refine ⟨l, hl, ?_, ?_⟩
  · intro o ho hn
    obtain ⟨hos, b, hb⟩ := h.mem_tiled hj hb0 hl ho
    rw [(h.headers _ _ hb).1] at hn ⊢
    obtain ⟨d, hd⟩ := h.exists_next hj hb hn
    rw [(h.headers _ _ hd).2.1]
    exact ht.link hb (by rw [← addr_add, hd])
  · intro o ho hne
    obtain ⟨hos, b, hb⟩ := h.mem_tiled hj hb0 hl ho
    have hbound := h.bounds hj hos hb
    obtain ⟨x, d, h1, h2, h3⟩ := h.tiling.exists_prev (by omega) (HeapInv.span_mem hj) hb
      (by simp only [Heap.addr]; omega) (by simp only [Heap.addr]; omega)
    have htag := ht.link h2 (by rw [h3, hb])
    have hx : s.addr j (o - d.size) = x := by
      simp only [Heap.addr] at h1 h3 ⊢
      omega
    rw [(h.headers _ _ hb).2.1, htag]
    simp only [Heap.addr] at h1 h3
    exact block_mem_tiled h hj hb0 hl (by omega) (by omega) (by rw [hx, h2])

private theorem keepsTags_step (h : ∃ T A, SessionInv c T A ∧ TagsOk c.heap T) {call : Call} (hl : c.Legal call)
    (hk : c.KeepsTags call) : ∃ T A, SessionInv (c.step call).2 T A ∧ TagsOk (c.step call).2.heap T := by
  obtain ⟨T, A, h, ht⟩ := h
  cases call with
  | malloc n mmap =>
    obtain ⟨T', A', h', ht', -⟩ := h.malloc hl hk.1 rfl
    exact ⟨T', A', h', ht' ht hk.2⟩
  | free p =>
    obtain ⟨n, hp⟩ := hl
    obtain ⟨T', A', h', ht', -⟩ := h.free hp hk (Or.inr ht)
    exact ⟨T', A', h', ht' ht⟩
  | realloc ptr n mmap => exact hk.elim
  | write x v => exact ⟨T, A, (h.write hl).1, (h.write hl).2 ht⟩

/-- In a run of `malloc` and `free` that cuts blocks only at the end of their segments, the tags are right in every
segment. -/
theorem boundary_tags {staticHeap : Nat} (hpos : 0 < staticHeap) (mem : Nat → Nat) (calls : List Call)
    (hg : Machine.Guarded Session.step (fun c call => c.Legal call ∧ c.KeepsTags call) (Session.init staticHeap mem)
      calls) :
    ∀ j < (Machine.run Session.step (Session.init staticHeap mem) calls).heap.segs.length,
      BoundaryTags (Machine.run Session.step (Session.init staticHeap mem) calls).heap j := by
  intro j hj
  obtain ⟨T, A, h, ht⟩ := Machine.guarded_invariant (I := fun c => ∃ T A, SessionInv c T A ∧ TagsOk c.heap T)
    (fun c call h hok => keepsTags_step h hok.1 hok.2) ⟨_, _, sessionInv_init hpos mem⟩ hg
  exact ht.boundaryTags h.inv hj

private theorem cutsLast_of_choice (j off : Nat) (hc : binsChoice s (allocNeed n) s.segs.length 0 = some (j, off))
    (he : off + s.mem (s.addr j off) = (s.seg j).size) : CutsLast s n := by
  intro _ _ j' off' hc' _
  obtain ⟨rfl, rfl⟩ := Prod.mk.inj (Option.some.inj (hc.symm.trans hc'))
  exact he

/-- Two blocks are taken, one after the other from the end of the segment, and the first is given back. -/
theorem boundary_tags_three :
    BoundaryTags (Machine.run Session.step (Session.init 4096 fun _ => 0)
      [.malloc 2000 fun _ => none, .malloc 2000 fun _ => none, .free 69656]).heap 0 := by
  refine boundary_tags (by decide) _ _ ?_ 0 (by decide +kernel)
  refine ⟨⟨fun sz p hp => (nomatch hp), fun hr => absurd hr (by decide), ?_⟩,
    ⟨fun sz p hp => (nomatch hp), fun hr => absurd hr (by decide), ?_⟩, ⟨⟨2000, by decide⟩, ?_⟩, trivial⟩
  · exact cutsLast_of_choice 0 65536 (by decide) (by decide)
  · exact cutsLast_of_choice 0 67584 (by decide) (by decide)
  · intro j _ _ _
    exact ⟨fun _ r => List.not_mem_nil, fun _ r => List.not_mem_nil⟩

/-- Two blocks of 2048 bytes are taken, the first is given back, and 224 bytes are cut from it. -/
def cutInMiddle : List Call :=
  [.malloc 2000 fun _ => none, .malloc 2000 fun _ => none, .free 69656, .malloc 200 fun _ => none]

/-- The block after the rest keeps the old size, 2048, as its tag, but the rest has 1824 bytes. -/
theorem boundary_tags_stale :
    Machine.Guarded Session.step Session.Legal (Session.init 4096 fun _ => 0) cutInMiddle ∧
    ¬BoundaryTags (Machine.run Session.step (Session.init 4096 fun _ => 0) cutInMiddle).heap 0 := by
  refine ⟨⟨fun sz p hp => (nomatch hp), fun sz p hp => (nomatch hp), ⟨2000, by decide⟩,
    fun sz p hp => (nomatch hp), trivial⟩, ?_⟩
  obtain ⟨s, hs⟩ : ∃ s, s = (Machine.run Session.step (Session.init 4096 fun _ => 0) cutInMiddle).heap := ⟨_, rfl⟩
  have hfirst : firstOff 0 = 65536 := rfl
  have hend : (s.seg 0).size = 262144 := by rw [hs]; decide +kernel
  have hcut : s.mem (s.addr 0 65536) = 224 := by rw [hs]; decide +kernel
  have hrest : s.mem (s.addr 0 65760) = 1824 := by rw [hs]; decide +kernel
  have htag : s.mem (s.addr 0 67584 + 8) = 2048 := by rw [hs]; decide +kernel
  rw [← hs]
  rintro ⟨l, hl, htags, -⟩
  have hmem : 65760 ∈ l := by
    rw [hfirst] at hl
    rcases l with _ | ⟨x, l⟩
    · have he : 65536 = (s.seg 0).size := hl
      omega
    obtain ⟨-, -, hl⟩ := hl
    rw [hcut] at hl
    rcases l with _ | ⟨y, l⟩
    · have he : 65536 + 224 = (s.seg 0).size := hl
      omega
    obtain ⟨rfl, -, -⟩ := hl
    simp
  have hwrong := htags 65760 hmem
  rw [hrest, hend, htag] at hwrong
  omega

end JACLibc
