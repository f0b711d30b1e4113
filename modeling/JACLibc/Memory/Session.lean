import JACLibc.Lib.Run
import JACLibc.Memory.HeapFree

/-!
# One thread that uses the heap

A `Session` is the heap together with the blocks that the program holds, each with the size it asked for.  The program
calls `malloc`, `free` and `realloc`, and writes into its blocks.  `SessionInv` is the invariant of the whole: every
block the program holds is one the heap has handed out, and large enough if the size was one that the rounding does
not spoil (`Sized`).  It is kept by every call that is `Legal` and `Sound`; the rules for the runs come from
`Machine.guarded_invariant`.
-/

namespace JACLibc

/-- The live blocks are listed with the sizes asked for. -/
structure Session where
  heap : Heap
  live : List (Nat × Nat)

/-- What a program does; a call that may grow the heap comes with the answers of `mmap`. -/
inductive Call
  | malloc (n : Nat) (mmap : Nat → Option Nat)
  | free (p : Nat)
  | realloc (ptr : Option Nat) (size : Nat) (mmap : Nat → Option Nat)
  | write (a v : Nat)

namespace Session

/-- The live blocks but for the one that is given back. -/
def others (c : Session) : Option Nat → List (Nat × Nat)
  | none => c.live
  | some p => c.live.filter fun e => e.1 ≠ p

/-- The state once `__jacl_membin_init` has run. -/
def init (staticHeap : Nat) (mem : Nat → Nat) : Session := ⟨membinInit staticHeap mem, []⟩

/-- The live blocks after `malloc`, by its answer. -/
def added (c : Session) (n : Nat) : Option Nat → List (Nat × Nat)
  | none => c.live
  | some p => (p, n) :: c.live

/-- The live blocks after `realloc`, by its answer: where it fails the old block stays, but `realloc` to size 0 is
`free`. -/
def moved (c : Session) (ptr : Option Nat) (n : Nat) : Option Nat → List (Nat × Nat)
  | none => if n = 0 then c.others ptr else c.live
  | some q => (q, n) :: c.others ptr

def step (c : Session) : Call → Option Nat × Session
  | .malloc n mmap =>
    let (r, s) := JACLibc.malloc c.heap n mmap
    (r, ⟨s, c.added n r⟩)
  | .free p => (none, ⟨JACLibc.free c.heap p, c.others (some p)⟩)
  | .realloc ptr n mmap =>
    let (r, s) := JACLibc.realloc c.heap ptr n mmap
    (r, ⟨s, c.moved ptr n r⟩)
  | .write a v => (none, ⟨c.heap.store a v, c.live⟩)

/-- What the program and the operating system keep to: pointers are live, `mmap` answers memory that is not in use,
and writes stay in the blocks. -/
def Legal (c : Session) : Call → Prop
  | .malloc _ mmap => ∀ sz p, mmap sz = some p → Fresh c.heap p sz
  | .free p => ∃ n, (p, n) ∈ c.live
  | .realloc ptr _ mmap => (∀ p, ptr = some p → ∃ n, (p, n) ∈ c.live) ∧ ∀ sz p, mmap sz = some p → Fresh c.heap p sz
  | .write a _ => ∃ e ∈ c.live, e.1 ≤ a ∧ a + 8 ≤ e.1 - HDR + c.heap.mem (e.1 - HDR)

/-- The call does not meet one of the defects of the allocator: no chunk of the arena is taken after the cursor has
wrapped, and the merges of `free` take real free neighbours. -/
def Sound (c : Session) : Call → Prop
  | .malloc n _ => refills c.heap n = true → c.heap.tlsEnd ≤ c.heap.cursor
  | .free p => SparesCache c.heap p ∧ TrustsTag c.heap p
  | .realloc none n _ => refills c.heap n = true → c.heap.tlsEnd ≤ c.heap.cursor
  | .realloc (some p) n mmap => ReallocOk c.heap p n mmap
  | .write _ _ => True

end Session

/-! ### The initial state -/

/-- One free block behind the arena. -/
def initBlocks (staticHeap : Nat) : Nat → Option Block :=
  Function.update (fun _ => none) (staticHeap + ARENA_LIMIT) (some ⟨JACL_HEAP_INIT - ARENA_LIMIT, 0, .free⟩)

/-- The state of `__jacl_membin_init` before its block is put into a bin. -/
private def initHeap (staticHeap : Nat) (mem : Nat → Nat) : Heap where
  staticHeap := staticHeap
  mem := Function.update (Function.update (Function.update mem (staticHeap + 65536) 196608) (staticHeap + 65536 + 8) 0)
    (staticHeap + 65536 + 16) 0
  segs := [⟨staticHeap, 262144, fun _ => 0, fun _ => false⟩]
  current := 262144
  cursor := 0
  tlsOff := 0
  tlsEnd := 0
  recycling := fun _ => []

private theorem membinInit_eq (staticHeap : Nat) (mem : Nat → Nat) :
    membinInit staticHeap mem = membinPush (initHeap staticHeap mem) 0 65536 := by
  have hinit : JACL_HEAP_INIT = 262144 := by decide
  have harena : ARENA_LIMIT = 65536 := by decide
  simp only [membinInit, hinit, harena, Heap.store, initHeap]

section InitHeap

variable {staticHeap : Nat} {mem : Nat → Nat}

private theorem initHeap_seg : (initHeap staticHeap mem).seg 0 = ⟨staticHeap, 262144, fun _ => 0, fun _ => false⟩ := rfl

private theorem initHeap_zero {j : Nat} (hj : j < (initHeap staticHeap mem).segs.length) : j = 0 := Nat.lt_one_iff.mp hj

private theorem initHeap_addr (off : Nat) : (initHeap staticHeap mem).addr 0 off = staticHeap + off := rfl

private theorem initHeap_spans :
    (initHeap staticHeap mem).spans = insert (staticHeap + 65536, staticHeap + 65536 + 196608) ∅ := by
  have hzero : ((initHeap staticHeap mem).addr 0 (firstOff 0),
      (initHeap staticHeap mem).addr 0 ((initHeap staticHeap mem).seg 0).size) =
        (staticHeap + 65536, staticHeap + 65536 + 196608) := by
    rw [initHeap_addr, initHeap_addr, initHeap_seg, Nat.add_assoc]
    rfl
  ext I
  simp only [Heap.spans, Set.mem_ofPred_eq, Set.mem_insert_iff]
  constructor
  · rintro ⟨k, hk, rfl⟩
    obtain rfl := initHeap_zero hk
    exact Or.inl hzero
  · rintro (rfl | h)
    · exact ⟨0, Nat.zero_lt_one, hzero.symm⟩
    · exact h.elim

private theorem initHeap_segsOk (hpos : 0 < staticHeap) : SegsOk (initHeap staticHeap mem) := by
  constructor
  · exact Nat.zero_lt_one
  · rfl
  · rfl
  · intro j hj
    rw [initHeap_zero hj]
    exact hpos
  · intro j hj
    rw [initHeap_zero hj]
    show 65536 + 32 ≤ 262144
    omega
  · intro j hj
    rw [initHeap_zero hj]
    show 262144 ≤ 1073741824
    omega
  · intro i j hi hj hij
    exact absurd ((initHeap_zero hi).trans (initHeap_zero hj).symm) hij
  · show 262144 ≤ 1073741824
    omega
  · show 262144 % 4096 = 0
    omega

/-- The one block there is. -/
private theorem initHeap_block {a : Nat} {b : Block}
    (hb : Function.update (fun _ => none) (staticHeap + 65536) (some (⟨196608, 0, .held⟩ : Block)) a = some b) :
    a = staticHeap + 65536 ∧ b = ⟨196608, 0, .held⟩ := by
  rcases eq_or_ne a (staticHeap + 65536) with rfl | hne
  · rw [Function.update_self, Option.some.injEq] at hb
    exact ⟨rfl, hb.symm⟩
  · rw [Function.update_of_ne hne] at hb
    cases hb

private theorem initHeap_inv (hpos : 0 < staticHeap) :
    HeapInv (initHeap staticHeap mem) (Function.update (fun _ => none) (staticHeap + 65536) (some ⟨196608, 0, .held⟩))
      (fun _ => none) := by
  refine ⟨initHeap_segsOk hpos, ?_, ?_, ?_, ?_, ?_⟩
  · rw [initHeap_spans]
    have hempty : Tiling Block.size 32 (∅ : Set (Nat × Nat)) (fun _ => none) :=
      ⟨(fun h => by cases h), (fun h => by cases h), (fun h => by cases h), (fun h => h.elim), (fun h => h.elim),
        (fun h => h.elim)⟩
    have hmin : 32 ≤ 196608 := by omega
    have hfar : ∀ I ∈ (∅ : Set (Nat × Nat)), I.2 ≤ staticHeap + 65536 ∨ staticHeap + 65536 + 196608 ≤ I.1 :=
      fun I hI => hI.elim
    exact @Tiling.grow Block Block.size 32 ∅ (fun _ => none) ⟨196608, 0, .held⟩ hempty (by omega) (staticHeap + 65536)
      hmin hfar
  · intro a b hb
    obtain ⟨rfl, rfl⟩ := initHeap_block hb
    simp only [initHeap, Function.update_apply, Use.flags]
    refine ⟨?_, ?_, ?_⟩
    · rw [if_neg (by omega), if_neg (by omega), if_pos trivial]
    · rw [if_neg (by omega), if_pos trivial]
    · rw [if_pos trivial]
  · intro j hj i
    obtain rfl := initHeap_zero hj
    refine ⟨[], rfl, List.nodup_nil, fun o => iff_of_false List.not_mem_nil ?_⟩
    rintro ⟨-, b, hb, hfree, -⟩
    obtain ⟨-, rfl⟩ := initHeap_block hb
    cases hfree
  · refine ⟨fun r => List.nodup_nil, ?_, fun hp => absurd hp List.not_mem_nil⟩
    intro a b r hb hu
    obtain ⟨-, rfl⟩ := initHeap_block hb
    cases hu
  · exact ⟨rfl, le_rfl, Nat.zero_le _, (fun h => by cases h), (fun h => by cases h), (fun h => by cases h), rfl,
      (fun h => by cases h)⟩

end InitHeap

theorem membinInit_inv {staticHeap : Nat} (hpos : 0 < staticHeap) (mem : Nat → Nat) :
    HeapInv (membinInit staticHeap mem) (initBlocks staticHeap) (fun _ => none) := by
  have hsize : JACL_HEAP_INIT - ARENA_LIMIT = 196608 := by decide
  have harena : ARENA_LIMIT = 65536 := by decide
  have hin : 65536 < ((initHeap staticHeap mem).seg 0).size := by
    show 65536 < 262144
    omega
  have hblock : Function.update (fun _ => none) (staticHeap + 65536) (some (⟨196608, 0, .held⟩ : Block))
      ((initHeap staticHeap mem).addr 0 65536) = some ⟨196608, 0, .held⟩ := by
    rw [initHeap_addr, Function.update_self]
  obtain ⟨hpush, -⟩ := membinPush_inv (initHeap_inv hpos) Nat.zero_lt_one hin hblock rfl
  rw [initHeap_addr, Function.update_idem] at hpush
  rw [membinInit_eq, initBlocks, hsize, harena]
  exact hpush

/-! ### The invariant -/

structure SessionInv (c : Session) (T : Nat → Option Block) (A : Nat → Option Nat) : Prop where
  inv : HeapInv c.heap T A
  held : HeldIn T fun _ => False
  live : ∀ {p n}, (p, n) ∈ c.live → ∃ a m, p = a + 24 ∧ Occ T A a m ∧ (Sized n → n + 24 ≤ m)
  nodup : (c.live.map Prod.fst).Nodup

variable {c : Session} {s : Heap} {T T' : Nat → Option Block} {A A' : Nat → Option Nat} {a m n p : Nat}
  {mmap : Nat → Option Nat} {rest : List (Nat × Nat)}

theorem sessionInv_init {staticHeap : Nat} (hpos : 0 < staticHeap) (mem : Nat → Nat) :
    SessionInv (Session.init staticHeap mem) (initBlocks staticHeap) (fun _ => none) ∧
      TagsOk (membinInit staticHeap mem) (initBlocks staticHeap) := by
  have hinv := membinInit_inv hpos mem
  have hone : ∀ {x b}, initBlocks staticHeap x = some b →
      x = staticHeap + ARENA_LIMIT ∧ b = ⟨JACL_HEAP_INIT - ARENA_LIMIT, 0, .free⟩ := by
    intro x b hb
    rw [initBlocks] at hb
    rcases eq_or_ne x (staticHeap + ARENA_LIMIT) with rfl | hne
    · rw [Function.update_self, Option.some.injEq] at hb
      exact ⟨rfl, hb.symm⟩
    · rw [Function.update_of_ne hne] at hb
      cases hb
  refine ⟨⟨hinv, ?_, (fun h => nomatch h), List.nodup_nil⟩, ?_, ?_⟩
  · intro x b hb hu
    obtain ⟨-, rfl⟩ := hone hb
    cases hu
  · intro x b d hb hd
    have h1 := hinv.tiling.min_le hb
    obtain ⟨h2, rfl⟩ := hone hb
    obtain ⟨h3, -⟩ := hone hd
    omega
  · intro j b hj hb
    obtain ⟨-, rfl⟩ := hone hb
    rfl

private theorem SessionInv.keep (h : SessionInv c T A) (hinv : HeapInv s T' A') (hheld : HeldIn T' fun _ => False)
    (hsub : rest.Sublist c.live)
    (hk : ∀ {a n}, (a + 24, n) ∈ rest → ∀ {m}, Occ T A a m → Occ T' A' a m) : SessionInv ⟨s, rest⟩ T' A' := by
  refine ⟨hinv, hheld, ?_, h.nodup.sublist (hsub.map _)⟩
  intro p n hp
  obtain ⟨a, m, rfl, hocc, hfit⟩ := h.live (hsub.subset hp)
  exact ⟨a, m, rfl, hk hp hocc, hfit⟩

private theorem SessionInv.cons (h : SessionInv ⟨s, rest⟩ T A) (hocc : Occ T A a m) (hnew : ∀ k, (a + 24, k) ∉ rest)
    (hfit : Sized n → n + 24 ≤ m) : SessionInv ⟨s, (a + 24, n) :: rest⟩ T A := by
  refine ⟨h.inv, h.held, ?_, ?_⟩
  · intro p k hp
    rcases List.mem_cons.1 hp with he | hp
    · obtain ⟨rfl, rfl⟩ := Prod.mk.inj he
      exact ⟨a, m, rfl, hocc, hfit⟩
    · exact h.live hp
  · rw [List.map_cons, List.nodup_cons]
    refine ⟨?_, h.nodup⟩
    intro hmem
    obtain ⟨⟨q, k⟩, hq, rfl⟩ := List.mem_map.1 hmem
    exact hnew k hq

/-- A call of `malloc`; `s` is the heap and `r` the answer it leaves. -/
theorem SessionInv.malloc (h : SessionInv c T A) (hfresh : ∀ sz p, mmap sz = some p → Fresh c.heap p sz)
    (hcur : refills c.heap n = true → c.heap.tlsEnd ≤ c.heap.cursor) {r : Option Nat}
    (hr : JACLibc.malloc c.heap n mmap = (r, s)) :
    ∃ T' A', SessionInv ⟨s, c.added n r⟩ T' A' ∧
      (TagsOk c.heap T → CutsLast c.heap n → TagsOk s T') ∧
      (Grid T → (∀ j < s.segs.length, (s.seg j).base % 8 = 0) → Grid T') := by
  obtain ⟨T', A', hm⟩ := malloc_inv h.inv h.held hcur hfresh
  rw [hr] at hm
  have hkeep : SessionInv ⟨s, c.live⟩ T' A' := h.keep hm.inv hm.held (List.Sublist.refl _) fun _ _ ho => hm.keeps ho
  refine ⟨T', A', ?_, hm.tags, hm.grid⟩
  rcases r with _ | p
  · exact hkeep
  · obtain ⟨a, m, rfl, hocc, hnew, hfit⟩ := hm.fresh rfl
    refine hkeep.cons hocc ?_ ?_
    · intro k hk
      obtain ⟨a', m', he, ho, -⟩ := h.live hk
      obtain rfl : a = a' := by omega
      exact hnew m' ho
    · intro hs
      have hne : allocNeed n ≠ 0 := allocNeed_ne_zero (by rw [hr])
      exact hfit ((allocNeed_enough_iff n).2 hs hne)

private theorem mem_others (hp : (a + 24, n) ∈ c.others (some p)) : (a + 24, n) ∈ c.live ∧ a + 24 ≠ p := by
  rw [Session.others, List.mem_filter, decide_eq_true_eq] at hp
  exact hp

private theorem others_sublist (ptr : Option Nat) : (c.others ptr).Sublist c.live := by
  cases ptr with
  | none => exact List.Sublist.refl _
  | some p => exact List.filter_sublist

theorem SessionInv.free (h : SessionInv c T A) (hp : (p, n) ∈ c.live) (hcache : SparesCache c.heap p)
    (htrust : TrustsTag c.heap p ∨ TagsOk c.heap T) :
    ∃ T' A', SessionInv ⟨JACLibc.free c.heap p, c.others (some p)⟩ T' A' ∧
      (TagsOk c.heap T → TagsOk (JACLibc.free c.heap p) T') ∧ (Grid T → Grid T') := by
  obtain ⟨a, m, rfl, hocc, -⟩ := h.live hp
  obtain ⟨T', A', hf⟩ := free_inv h.inv h.held hocc hcache htrust
  refine ⟨T', A', h.keep hf.inv hf.held (others_sublist _) ?_, hf.tags, hf.grid⟩
  intro a' k hk m' ho
  have hne := (mem_others hk).2
  exact hf.keeps (by omega) ho

private theorem SessionInv.realloc (h : SessionInv c T A) (hp : ∃ k, (p, k) ∈ c.live)
    (hfresh : ∀ sz p, mmap sz = some p → Fresh c.heap p sz) (hok : ReallocOk c.heap p n mmap) {r : Option Nat}
    (hr : JACLibc.realloc c.heap (some p) n mmap = (r, s)) :
    ∃ T' A', SessionInv ⟨s, c.moved (some p) n r⟩ T' A' ∧
      (Grid T → (∀ j < s.segs.length, (s.seg j).base % 8 = 0) → Grid T') := by
  obtain ⟨k, hk⟩ := hp
  obtain ⟨a, m, rfl, hocc, -⟩ := h.live hk
  obtain ⟨T', A', hspec⟩ := realloc_inv h.inv h.held hocc hfresh hok
  rw [hr] at hspec
  have hothers : SessionInv ⟨s, c.others (some (a + 24))⟩ T' A' := by
    apply h.keep hspec.inv hspec.held (others_sublist _)
    intro a' k' hk' m' ho
    have hne := (mem_others hk').2
    exact hspec.keeps (by omega) ho
  refine ⟨T', A', ?_, hspec.grid⟩
  rcases r with _ | q
  · rw [Session.moved]
    by_cases hz : n = 0
    · rw [if_pos hz]
      exact hothers
    · rw [if_neg hz]
      apply h.keep hspec.inv hspec.held (List.Sublist.refl _)
      intro a' k' _ m' ho
      rcases eq_or_ne a' a with rfl | hne
      · obtain rfl : m' = m := (h.inv.occ_size ho).1.symm.trans (h.inv.occ_size hocc).1
        exact (hspec.failed rfl hz).1
      · exact hspec.keeps hne ho
  · obtain ⟨x, m', rfl, hx, hnew, hfit⟩ := hspec.fresh rfl
    refine hothers.cons hx ?_ fun _ => hfit
    intro k' hk'
    obtain ⟨hlive, hne⟩ := mem_others hk'
    obtain ⟨x', m'', he, ho, -⟩ := h.live hlive
    obtain rfl : x = x' := by omega
    exact hnew (by omega) m'' ho

theorem SessionInv.write (h : SessionInv c T A) {x v : Nat} (hl : c.Legal (.write x v)) :
    SessionInv ⟨c.heap.store x v, c.live⟩ T A ∧ (TagsOk c.heap T → TagsOk (c.heap.store x v) T) := by
  obtain ⟨⟨p, k⟩, hp, h1, h2⟩ := hl
  obtain ⟨a, m, rfl, hocc, -⟩ := h.live hp
  have hsize := (h.inv.occ_size hocc).1
  rw [HDR, Nat.add_sub_cancel, hsize] at h2
  refine ⟨h.keep (h.inv.payload hocc ?_) h.held (List.Sublist.refl _) fun _ _ ho => ho, fun ht => ?_⟩
  · intro y hy
    simp only at h1
    exact Function.update_of_ne (by omega) _ _
  · exact (tagsOk_congr (sameSegs_mem c.heap _).toSamePlaces).2 ht

/-- Every call that is legal and sound keeps the invariant, and the grid where the segments lie on it. -/
theorem SessionInv.step (h : SessionInv c T A) {call : Call} (hl : c.Legal call) (hs : c.Sound call) :
    ∃ T' A', SessionInv (c.step call).2 T' A' ∧
      (Grid T → (∀ j < (c.step call).2.heap.segs.length, ((c.step call).2.heap.seg j).base % 8 = 0) → Grid T') := by
  cases call with
  | malloc n mmap =>
    obtain ⟨T', A', h', -, hgrid⟩ := h.malloc hl hs rfl
    exact ⟨T', A', h', hgrid⟩
  | free p =>
    obtain ⟨n, hp⟩ := hl
    obtain ⟨T', A', h', -, hgrid⟩ := h.free hp hs.1 (Or.inl hs.2)
    exact ⟨T', A', h', fun hg _ => hgrid hg⟩
  | realloc ptr n mmap =>
    cases ptr with
    | none =>
      obtain ⟨T', A', h', -, hgrid⟩ := h.malloc hl.2 hs rfl
      refine ⟨T', A', ?_, hgrid⟩
      have hmoved : ∀ r, c.moved none n r = c.added n r := by
        intro r
        cases r with
        | none => exact ite_self c.live
        | some q => rfl
      show SessionInv ⟨(JACLibc.malloc c.heap n mmap).2, c.moved none n (JACLibc.malloc c.heap n mmap).1⟩ T' A'
      rw [hmoved]
      exact h'
    | some p => exact h.realloc (hl.1 p rfl) hl.2 hs rfl
  | write x v => exact ⟨T, A, (h.write hl).1, fun hg _ => hg⟩

theorem sessionInv_step (h : ∃ T A, SessionInv c T A) {call : Call} (hl : c.Legal call) (hs : c.Sound call) :
    ∃ T A, SessionInv (c.step call).2 T A := by
  obtain ⟨T, A, h⟩ := h
  obtain ⟨T', A', h', -⟩ := h.step hl hs
  exact ⟨T', A', h'⟩

end JACLibc
