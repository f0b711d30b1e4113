import JACLibc.Memory.HeapMalloc

/-!
# `free` and `realloc`

`free` keeps the invariant and all blocks that are handed out but its own (`FreeSpec`), where its merges go right:
they take no block of the recycling cache (`SparesCache`), and the tag of the block, if it is followed backwards,
leads to the block right before (`TrustsTag`, or all tags are right).  `realloc` is a growth in place, or `malloc`, a
copy and `free`.
-/

namespace JACLibc

variable {s s' : Heap} {T T' : Nat → Option Block} {A A' : Nat → Option Nat} {a j off n need : Nat} {b c : Block}
  {mmap : Nat → Option Nat}

/-! ### `free` -/

/-- The blocks that are reached from the one at `off` by adding `h->size`, up to the end of the segment. -/
def Tiled (s : Heap) (j : Nat) : Nat → List Nat → Prop
  | off, [] => off = (s.seg j).size
  | off, o :: l => o = off ∧ off < (s.seg j).size ∧ Tiled s j (off + s.mem (s.addr j off)) l

/-- There is a block at this offset. -/
def IsBlock (s : Heap) (j o : Nat) : Prop := ∃ l, Tiled s j (firstOff j) l ∧ o ∈ l

private theorem exists_tiled (h : HeapInv s T A) (hj : j < s.segs.length) (k : Nat) :
    ∀ off b, (s.seg j).size - off = k → off < (s.seg j).size → T (s.addr j off) = some b → ∃ l, Tiled s j off l := by
  induction k using Nat.strong_induction_on with
  | _ k ih =>
    intro off b hk ho hb
    have h1 := h.bounds hj ho hb
    have h2 := h.tiling.min_le hb
    have hsize : s.mem (s.addr j off) = b.size := (h.headers _ _ hb).1
    rcases eq_or_lt_of_le h1.2 with he | hlt
    · exact ⟨[off], rfl, ho, by rw [hsize]; exact he⟩
    · obtain ⟨c, hc⟩ := h.exists_next hj hb hlt
      obtain ⟨l, hl⟩ := ih _ (by omega) (off + b.size) c rfl hlt hc
      exact ⟨off :: l, rfl, ho, by rw [hsize]; exact hl⟩

theorem HeapInv.first_block (h : HeapInv s T A) (hj : j < s.segs.length) : ∃ b, T (s.addr j (firstOff j)) = some b := by
  obtain ⟨b, hb, -⟩ := h.tiling.first (HeapInv.span_mem hj)
  exact ⟨b, hb⟩

theorem HeapInv.tiled (h : HeapInv s T A) (hj : j < s.segs.length) : ∃ l, Tiled s j (firstOff j) l := by
  obtain ⟨b, hb⟩ := h.first_block hj
  have := h.segs.room hj
  exact exists_tiled h hj _ _ b rfl (by omega) hb

theorem HeapInv.mem_tiled (h : HeapInv s T A) (hj : j < s.segs.length) {l : List Nat} {o : Nat}
    (hb : T (s.addr j off) = some b) (hl : Tiled s j off l) (ho : o ∈ l) :
    o < (s.seg j).size ∧ ∃ c, T (s.addr j o) = some c := by
  induction l generalizing off b with
  | nil => simp at ho
  | cons x l ih =>
    obtain ⟨rfl, h1, h2⟩ := hl
    rcases List.mem_cons.1 ho with rfl | ho
    · exact ⟨h1, b, hb⟩
    · have hsize : s.mem (s.addr j x) = b.size := (h.headers _ _ hb).1
      have h3 := h.bounds hj h1 hb
      rw [hsize] at h2
      rcases eq_or_lt_of_le h3.2 with he | hlt
      · cases l with
        | nil => simp at ho
        | cons y l => exact absurd h2.2.1 (by omega)
      · obtain ⟨c, hc⟩ := h.exists_next hj hb hlt
        exact ih hc h2 ho

/-- A merge of `free` takes no block of the recycling cache. -/
def SparesCache (s : Heap) (p : Nat) : Prop :=
  ∀ j, isArena (s.mem (p - 8)) = false → memsegFind s (p - HDR) = some j → JACL_COALESCING ≤ s.mem (p - HDR) →
    let t := s.store (p - 8) 0
    let off := p - HDR - (s.seg j).base
    (mergesNext t j off → ∀ r, p + s.mem (p - HDR) ∉ s.recycling r) ∧
    (mergesPrev (coalesceNext t j off) j off → ∀ r, p - s.mem (p - HDR + 8) ∉ s.recycling r)

/-- A backward merge of `free` goes to the block right before. -/
def TrustsTag (s : Heap) (p : Nat) : Prop :=
  ∀ j, isArena (s.mem (p - 8)) = false → memsegFind s (p - HDR) = some j → JACL_COALESCING ≤ s.mem (p - HDR) →
    let off := p - HDR - (s.seg j).base
    let prev_off := off - s.mem (p - HDR + 8)
    mergesPrev (coalesceNext (s.store (p - 8) 0) j off) j off →
      IsBlock s j prev_off ∧ s.mem (s.addr j prev_off) = s.mem (p - HDR + 8)

theorem memsegFind_eq (h : SegsOk s) (hj : j < s.segs.length) (ho : off < (s.seg j).size) :
    memsegFind s (s.addr j off) = some j := by
  have hpos := h.base_pos hj
  have hne : s.addr j off ≠ 0 := by
    simp only [Heap.addr]
    omega
  rw [memsegFind, if_neg hne]
  rcases hf : (List.range s.segs.length).find? fun k =>
      decide ((s.seg k).base ≤ s.addr j off ∧ s.addr j off < (s.seg k).base + (s.seg k).size) with _ | k
  · rw [List.find?_eq_none] at hf
    refine absurd (decide_eq_true ⟨?_, ?_⟩) (hf j (List.mem_range.2 hj))
    · simp only [Heap.addr]
      omega
    · simp only [Heap.addr]
      omega
  · have h1 := List.find?_some hf
    have h2 := List.mem_range.1 (List.mem_of_find?_eq_some hf)
    rw [decide_eq_true_eq] at h1
    have he : s.addr j off = s.addr k (s.addr j off - (s.seg k).base) := by
      simp only [Heap.addr] at h1 ⊢
      omega
    rw [(h.addr_inj hj h2 ho (by omega) he).1]

/-- The `n` bytes at `a` are in the recycling cache or in a free block. -/
def Reusable (T : Nat → Option Block) (a n : Nat) : Prop :=
  (∃ b r, T a = some b ∧ b.use = .cached r) ∨ ∃ x b, T x = some b ∧ b.use = .free ∧ x ≤ a ∧ a + n ≤ x + b.size

/-- What `free` keeps, and what it does with the block. -/
structure FreeSpec (s s' : Heap) (T T' : Nat → Option Block) (A A' : Nat → Option Nat) (a : Nat) : Prop where
  inv : HeapInv s' T' A'
  held : HeldIn T' fun _ => False
  keeps : ∀ {x m}, x ≠ a → Occ T A x m → Occ T' A' x m
  tags : TagsOk s T → TagsOk s' T'
  grid : Grid T → Grid T'
  quiet : ∀ {x m}, x ≠ a → Occ T A x m → ∀ y, x + 24 ≤ y → y < x + m → s'.mem y = s.mem y
  same : SameSegs s s'
  released : ∀ {b}, T a = some b → s'.mem (a + 16) = 0 ∧ Reusable T' a b.size

/-- `free` of a block of the arena. -/
private theorem freeArena_spec (h : HeapInv s T A) (hheld : HeldIn T fun _ => False) {m : Nat} (ha : A a = some m) :
    FreeSpec s (free s (a + 24)) T T A (Function.update A a none) a := by
  obtain ⟨-, hflags⟩ := h.arena.header ha
  have hin := h.arena.within ha
  have hlim := h.arena.off_le.trans h.arena.end_le
  have heq : free s (a + 24) = s.store (a + 16) 0 := by
    rw [free]
    simp only [Nat.reduceSubDiff, hflags, show isArena 3 = true from rfl, show isAlloc 3 = true from rfl, if_true]
  rw [heq]
  have cases : ∀ {x k}, Function.update A a none x = some k → x ≠ a ∧ A x = some k := by
    intro x k hx
    rcases eq_or_ne x a with rfl | hne
    · rw [Function.update_self] at hx
      cases hx
    · rw [Function.update_of_ne hne] at hx
      exact ⟨hne, hx⟩
  have hinv : HeapInv (s.store (a + 16) 0) T (Function.update A a none) := by
    refine h.rearena rfl rfl rfl rfl ?_ ⟨h.arena.cursor_mod, h.arena.off_le, h.arena.end_le, ?_, ?_, ?_,
      h.arena.off_mod, fun hx => h.arena.on_grid (cases hx).2⟩
    · intro x hx
      exact Function.update_of_ne (by omega) _ _
    · intro x k hx
      obtain ⟨hne, hx⟩ := cases hx
      have h1 := h.arena.within hx
      obtain ⟨h2, h3⟩ := h.arena.header hx
      have h4 : x + k ≤ a ∨ a + m ≤ x := by
        rcases lt_or_gt_of_ne hne with hlt | hlt
        · exact Or.inl (h.arena.apart hx ha hlt)
        · exact Or.inr (h.arena.apart ha hx hlt)
      refine ⟨?_, ?_⟩
      · exact (Function.update_of_ne (by omega) _ _).trans h2
      · exact (Function.update_of_ne (by omega) _ _).trans h3
    · intro x k hx
      exact h.arena.within (cases hx).2
    · intro x x' k k' hx hx' hlt
      exact h.arena.apart (cases hx).2 (cases hx').2 hlt
  refine ⟨hinv, hheld, ?_, ?_, id, ?_, sameSegs_mem s _, fun hb => ?_⟩
  · rintro x k hne (hocc | hocc)
    · exact Or.inl hocc
    · exact Or.inr (by rw [Function.update_of_ne hne, hocc])
  · intro ht
    exact (tagsOk_congr (sameSegs_mem s _).toSamePlaces).2 ht
  · intro x k hne hocc y h1 h2
    apply Function.update_of_ne
    rcases hocc.apart h (Or.inr ha) hne with h3 | h3 <;> omega
  · exact nomatch ha.symm.trans (h.arena_none hb)

private theorem freeTarget_eq {p : Nat} (hfind : memsegFind s (p - HDR) = some j) : freeTarget s p = some (p, j) := by
  unfold freeTarget
  rw [hfind]

private theorem free_eq (hflags : s.mem (a + 16) = 1) (hfind : memsegFind s a = some j) :
    free s (a + 24) = (freeRecycle s (a + 24) (s.mem a - 24)).getD
      (freeCoalesce (s.store (a + 16) 0) j (a - (s.seg j).base)) := by
  have hp : a + 24 - 8 = a + 16 := by omega
  have hp' : a + 24 - HDR = a := by
    rw [HDR]
    omega
  have harena : isArena 1 = false := rfl
  have halloc : isAlloc 1 = true := rfl
  have htarget : freeTarget s (a + 24) = some (a + 24, j) := freeTarget_eq (by rw [hp', hfind])
  have hsub : s.mem a - HDR = s.mem a - 24 := rfl
  rw [free, hp, hflags, harena, htarget]
  simp only [Bool.false_eq_true, if_false, hp, hp', hflags, halloc, not_true_eq_false, hsub]
  cases freeRecycle s (a + 24) (s.mem a - 24) with
  | none => rfl
  | some s1 => rfl

private theorem Occ.update_ne {x m : Nat} (hne : x ≠ a) (ho : Occ T A x m) (o : Option Block) :
    Occ (Function.update T a o) A x m := by
  rcases ho with ⟨c, h1, h2, h3⟩ | hA
  · exact Or.inl ⟨c, by rw [Function.update_of_ne hne, h1], h2, h3⟩
  · exact Or.inr hA

/-- A block that goes into the recycling cache. -/
private theorem freeRecycle_spec (h : HeapInv s T A) (hheld : HeldIn T fun _ => False) (hb : T a = some b)
    (hu : b.use = .used) {s1 : Heap} (hr : freeRecycle s (a + 24) (b.size - 24) = some s1) :
    ∃ T', FreeSpec s s1 T T' A A a := by
  rw [freeRecycle] at hr
  split at hr
  · cases hr
  dsimp only at hr
  split at hr
  swap
  · cases hr
  next hsz hbin =>
  obtain rfl := Option.some.inj hr
  have hinv := cache_inv h hb hu (r := (b.size - 24) / 8 - 2) (by omega)
  have hbs := h.tiling.min_le hb
  refine ⟨_, hinv, ?_, fun hne hocc => hocc.update_ne hne _, ?_, ?_, ?_,
    ⟨⟨rfl, rfl, fun _ => rfl, fun _ => rfl, rfl⟩, rfl, rfl, rfl⟩,
    fun _ => ⟨Function.update_self _ _ _, Or.inl ⟨_, _, Function.update_self _ _ _, rfl⟩⟩⟩
  · intro x c hc hcu
    refine (hheld.update (c := { b with use := .cached ((b.size - 24) / 8 - 2) }) (fun he => ?_) _ x c hc hcu).2
    cases he
  · intro ht
    refine (tagsOk_congr ?_).2 (ht.update hb _)
    exact ⟨rfl, rfl, fun _ => rfl, fun _ => rfl, rfl⟩
  · intro hg
    obtain ⟨h1, h2⟩ := hg a b hb
    exact hg.update h1 h2
  · intro x k hne hocc y h1 h2
    apply Function.update_of_ne
    rcases hocc.apart h (Or.inl ⟨b, hb, hu, rfl⟩) hne with h3 | h3 <;> omega

/-- Where the tags are right, the tag of a block leads to the block right before it. -/
private theorem TagsOk.prev (ht : TagsOk s T) (h : HeapInv s T A) (hj : j < s.segs.length) (ho : off < (s.seg j).size)
    (hb : T (s.addr j off) = some b) (hpos : 0 < b.tag) : ∃ c, T (s.addr j (off - b.tag)) = some c ∧
    c.size = b.tag := by
  have hbound := h.bounds hj ho hb
  have hne : firstOff j ≠ off := by
    intro he
    have := ht.first hj (by rw [he, hb])
    omega
  obtain ⟨x, c, h1, h2, h3⟩ := h.tiling.exists_prev (by omega) (HeapInv.span_mem hj) hb
    (by simp only [Heap.addr]; omega) (by simp only [Heap.addr]; omega)
  have h4 := ht.link h2 (by rw [h3, hb])
  refine ⟨c, ?_, h4.symm⟩
  rw [← h2]
  congr 1
  simp only [Heap.addr] at h1 h3 ⊢
  omega

/-- A block found by walking the segment is one of the map. -/
private theorem IsBlock.block (hr : IsBlock s j off) (h : HeapInv s T A) (hj : j < s.segs.length) :
    ∃ c, T (s.addr j off) = some c ∧ c.size = s.mem (s.addr j off) := by
  obtain ⟨l, hl, hmem⟩ := hr
  obtain ⟨c0, hc0⟩ := h.first_block hj
  obtain ⟨-, c, hc⟩ := h.mem_tiled hj hc0 hl hmem
  exact ⟨c, hc, ((h.headers _ _ hc).1).symm⟩

/-- `free` of a block of a segment. -/
private theorem freeBlock_spec (h : HeapInv s T A) (hheld : HeldIn T fun _ => False) (hb : T a = some b)
    (hu : b.use = .used) (hcache : SparesCache s (a + 24)) (htrust : TrustsTag s (a + 24) ∨ TagsOk s T) :
    ∃ T', FreeSpec s (free s (a + 24)) T T' A A a := by
  obtain ⟨j, off, hj, ho, rfl⟩ := h.exists_seg hb
  obtain ⟨hsize, htag, hflags⟩ := h.headers _ _ hb
  rw [hu, Use.flags] at hflags
  have hbs := h.tiling.min_le hb
  have hfind := memsegFind_eq h.segs hj ho
  have hoff : s.addr j off - (s.seg j).base = off := by
    simp only [Heap.addr]
    omega
  rw [free_eq hflags hfind, hsize, hoff]
  rcases hr : freeRecycle s (s.addr j off + 24) (b.size - 24) with _ | s1
  swap
  · exact freeRecycle_spec h hheld hb hu hr
  · rw [Option.getD_none]
    have hapart : b.use.apart := by
      rw [hu]
      trivial
    have h0 := h.reuse hb hapart (u := .held) trivial
    have hs0 : SameSegs s (s.store (s.addr j off + 16) 0) := sameSegs_mem s _
    have hp : s.addr j off + 24 - 8 = s.addr j off + 16 := by omega
    have hp' : s.addr j off + 24 - HDR = s.addr j off := by
      rw [HDR]
      omega
    -- at other places the map is the one before
    have hothers : ∀ {x}, x ≠ s.addr j off → Function.update T (s.addr j off) (some { b with use := .held }) x = T x :=
      fun hne => Function.update_of_ne hne _ _
    have hself : Function.update T (s.addr j off) (some { b with use := .held }) (s.addr j off) =
        some { b with use := .held } := Function.update_self _ _ _
    have harena : isArena (s.mem (s.addr j off + 24 - 8)) = false := by
      rw [hp, hflags]
      rfl
    have hcached : ∀ {x c r}, T x = some c → x + 24 ∉ s.recycling r → c.use ≠ .cached r := by
      intro x c r hc hmem he
      exact hmem (h.cache.mem hc he)
    have hheld0 : HeldIn (Function.update T (s.addr j off) (some { b with use := .held })) (· = s.addr j off) := by
      intro x c hc hcu
      by_contra hne
      rw [hothers hne] at hc
      exact hheld x c hc hcu
    have hcall := freeCoalesce_inv h0 hj ho hself rfl hheld0 ?_ ?_
    · obtain ⟨T', h1, h2, h3, h4, h5, h6, h7, o, d, hd, hdu, hlow, hhigh⟩ := hcall
      refine ⟨T', h1, h4, ?_, ?_, ?_, ?_, hs0.trans h2, ?_⟩
      · intro x m hne hocc
        exact (hocc.update_ne hne _).of_keeps h3 fun _ _ => id
      · intro ht
        have ht0 : TagsOk (s.store (s.addr j off + 16) 0)
            (Function.update T (s.addr j off) (some { b with use := .held })) :=
          (tagsOk_congr hs0.toSamePlaces).2 (ht.update hb _)
        exact (tagsOk_congr h2.toSamePlaces).2 (h5 ht0)
      · intro hg
        obtain ⟨h8, h9⟩ := hg _ b hb
        exact h6 (hg.update h8 h9)
      · intro x k hne hocc y h8 h9
        have hout := (hocc.update_ne hne (some { b with use := .held })).outside h0 h8 h9
        have hfar := (hout _ _ hself).2 (fun he => by cases he)
        simp only at hfar
        exact (h7 y (h0.spared hout)).trans (Function.update_of_ne (by omega) _ _)
      · intro b' hb'
        obtain rfl := Option.some.inj (hb'.symm.trans hb)
        refine ⟨(h7 _ (h0.spared_flags hself)).trans (Function.update_self _ _ _), Or.inr ⟨_, d, hd, hdu, ?_, ?_⟩⟩
        · simp only [Heap.addr, Heap.store_seg]
          omega
        · simp only [Heap.addr, Heap.store_seg] at hhigh ⊢
          omega
    · intro hbig hm c r hc
      rw [Heap.store_addr] at hc
      have hne : s.addr j off + b.size ≠ s.addr j off := by omega
      have hspare := (hcache j harena (by rw [hp', hfind]) (by rw [hp', hsize]; exact hbig)).1
      rw [hp, hp', hoff] at hspare
      have hr := hspare hm r
      rw [hsize] at hr
      have hc' : T (s.addr j off + b.size) = some c := by
        rw [← hothers hne]
        exact hc
      refine hcached hc' ?_
      rwa [show s.addr j off + b.size + 24 = s.addr j off + 24 + b.size by omega]
    · intro hbig hm hpos hle
      have hspare := (hcache j harena (by rw [hp', hfind]) (by rw [hp', hsize]; exact hbig)).2
      rw [hp, hp', hoff, htag] at hspare
      have hlt : s.addr j (off - b.tag) ≠ s.addr j off := by
        simp only [Heap.addr]
        simp only at hpos hle
        omega
      have hspare' : ∀ r, s.addr j (off - b.tag) + 24 ∉ s.recycling r := by
        intro r
        have hr := hspare hm r
        simp only at hpos hle
        rwa [show s.addr j off + 24 - b.tag = s.addr j (off - b.tag) + 24 by simp only [Heap.addr]; omega] at hr
      -- the block right before, by the tag
      have hprev : ∃ c, T (s.addr j (off - b.tag)) = some c ∧ c.size = b.tag := by
        rcases htrust with htrust | ht
        · have hreal := htrust j harena (by rw [hp', hfind]) (by rw [hp', hsize]; exact hbig)
          rw [hp, hp', hoff, htag] at hreal
          obtain ⟨hreal', hword⟩ := hreal hm
          obtain ⟨c, hc, hcs⟩ := hreal'.block h hj
          exact ⟨c, hc, hcs.trans hword⟩
        · exact ht.prev h hj ho hb hpos
      obtain ⟨c, hc, hcs⟩ := hprev
      refine ⟨c, ?_, hcs, fun r => hcached hc (hspare' r)⟩
      rw [Heap.store_addr]
      exact (hothers hlt).trans hc

/-- `free` of a block that is handed out. -/
theorem free_inv (h : HeapInv s T A) (hheld : HeldIn T fun _ => False) {m : Nat} (hocc : Occ T A a m)
    (hcache : SparesCache s (a + 24)) (htrust : TrustsTag s (a + 24) ∨ TagsOk s T) :
    ∃ T' A', FreeSpec s (free s (a + 24)) T T' A A' a := by
  rcases hocc with ⟨b, hb, hu, -⟩ | ha
  · obtain ⟨T', hspec⟩ := freeBlock_spec h hheld hb hu hcache htrust
    exact ⟨T', A, hspec⟩
  · exact ⟨T, _, freeArena_spec h hheld ha⟩

/-! ### Contents and `realloc` -/

theorem HeapInv.occ_size (h : HeapInv s T A) {m : Nat} (hocc : Occ T A a m) : s.mem a = m ∧ 32 ≤ m := by
  rcases hocc with ⟨b, hb, -, rfl⟩ | ha
  · exact ⟨(h.headers _ _ hb).1, h.tiling.min_le hb⟩
  · exact ⟨(h.arena.header ha).1, (h.arena.within ha).2.2⟩

/-- The contents of a block that is handed out are the program's. -/
theorem HeapInv.payload (h : HeapInv s T A) {m : Nat} (hocc : Occ T A a m) {mem : Nat → Nat}
    (hm : ∀ x, x < a + 24 ∨ a + m ≤ x → mem x = s.mem x) : HeapInv { s with mem := mem } T A := by
  rcases hocc with ⟨b, hb, hu, rfl⟩ | ha
  · have hbs := h.tiling.min_le hb
    obtain ⟨h1, h2, h3⟩ := h.headers _ _ hb
    have hinv : HeapInv { s with mem := mem } (Function.update T a (some b)) A := h.rewrite hb rfl
      ⟨by rw [hm _ (by omega), h1], by rw [hm _ (by omega), h2], by rw [hm _ (by omega), h3]⟩
      (Or.inr ⟨by rw [hu]; trivial, by rw [hu]; trivial⟩) (fun x hx => hm x (by omega))
    rwa [← hb, Function.update_eq_self] at hinv
  · have hin := h.arena.within ha
    have hlim := h.arena.off_le.trans h.arena.end_le
    refine h.rearena rfl rfl rfl rfl (fun x hx => hm x (by omega)) ⟨h.arena.cursor_mod, h.arena.off_le,
      h.arena.end_le, ?_, h.arena.within, h.arena.apart, h.arena.off_mod, h.arena.on_grid⟩
    intro x k hx
    have h1 := h.arena.within hx
    have h2 : x = a ∨ x + k ≤ a ∨ a + m ≤ x := by
      rcases lt_trichotomy x a with hlt | he | hlt
      · exact Or.inr (Or.inl (h.arena.apart hx ha hlt))
      · exact Or.inl he
      · exact Or.inr (Or.inr (h.arena.apart ha hx hlt))
    obtain ⟨h3, h4⟩ := h.arena.header hx
    simp only
    rw [hm x (by omega), hm (x + 16) (by omega)]
    exact ⟨h3, h4⟩

/-- `realloc` to more than the block has grows the last block of the arena in place. -/
def growsInPlace (s : Heap) (p n : Nat) : Bool :=
  isArena (s.mem (p - 8)) && p - HDR + s.mem (p - HDR) = s.staticHeap + s.tlsOff &&
    (s.tlsOff + (allocNeed n + 2 ^ 64 - s.mem (p - HDR)) % 2 ^ 64) % 2 ^ 64 ≤ s.tlsEnd

/-- The state in which `realloc` frees the old block, after `malloc` has answered `q`. -/
def copied (s : Heap) (p q n : Nat) (mmap : Nat → Option Nat) : Heap :=
  copyBytes (malloc s n mmap).2 q p (s.mem (p - HDR) - HDR)

structure ReallocSpec (s s' : Heap) (T T' : Nat → Option Block) (A A' : Nat → Option Nat) (a m n : Nat)
    (answer : Option Nat) : Prop where
  inv : HeapInv s' T' A'
  held : HeldIn T' fun _ => False
  keeps : ∀ {x m}, x ≠ a → Occ T A x m → Occ T' A' x m
  failed : answer = none → n ≠ 0 → Occ T' A' a m ∧ s'.tlsOff = s.tlsOff ∧ s'.tlsEnd = s.tlsEnd ∧
    ∀ x, a ≤ x → x < a + m → s'.mem x = s.mem x
  fresh : ∀ {p}, answer = some p → ∃ x m, p = x + 24 ∧ Occ T' A' x m ∧ (x ≠ a → ∀ m, ¬Occ T A x m) ∧ n + 24 ≤ m
  contents : ∀ {p}, answer = some p → ∀ k < min (m - 24) n, s'.mem (p + k) = s.mem (a + 24 + k)
  grid : Grid T → (∀ j < s'.segs.length, (s'.seg j).base % 8 = 0) → Grid T'

/-- The last block of the arena grows. -/
private theorem growInPlace_inv (h : HeapInv s T A) {m k : Nat} (ha : A a = some m)
    (hlast : a + m = s.staticHeap + s.tlsOff) (hk : m ≤ k) (hgrid : k % 8 = 0) (hfit : s.tlsOff + (k - m) ≤ s.tlsEnd) :
    HeapInv { s.store a k with tlsOff := s.tlsOff + (k - m) } T (Function.update A a (some k)) := by
  have hin := h.arena.within ha
  have hend := h.arena.end_le
  -- the others lie below
  have below : ∀ {x i}, A x = some i → x ≠ a → x + i ≤ a := by
    intro x i hx hne
    have h1 := h.arena.within hx
    rcases lt_or_gt_of_ne hne with hlt | hlt
    · exact h.arena.apart hx ha hlt
    · have := h.arena.apart ha hx hlt
      omega
  have cases : ∀ {x i}, Function.update A a (some k) x = some i → (x = a ∧ i = k) ∨ (x ≠ a ∧ A x = some i) := by
    intro x i hx
    rcases eq_or_ne x a with rfl | hne
    · rw [Function.update_self, Option.some.injEq] at hx
      exact Or.inl ⟨rfl, hx.symm⟩
    · rw [Function.update_of_ne hne] at hx
      exact Or.inr ⟨hne, hx⟩
  refine h.rearena rfl rfl rfl rfl ?_ ⟨h.arena.cursor_mod, hfit, h.arena.end_le, ?_, ?_, ?_, ?_, ?_⟩
  · intro x hx
    exact Function.update_of_ne (by omega) _ _
  · intro x i hx
    rcases cases hx with ⟨rfl, rfl⟩ | ⟨hne, hx⟩
    · exact ⟨Function.update_self _ _ _, (Function.update_of_ne (by omega) _ _).trans (h.arena.header ha).2⟩
    · have h1 := h.arena.within hx
      have h2 := below hx hne
      obtain ⟨h3, h4⟩ := h.arena.header hx
      exact ⟨(Function.update_of_ne (by omega) _ _).trans h3, (Function.update_of_ne (by omega) _ _).trans h4⟩
  · intro x i hx
    rcases cases hx with ⟨rfl, rfl⟩ | ⟨hne, hx⟩
    · exact ⟨hin.1, by simp only [Heap.store]; omega, by omega⟩
    · have h1 := h.arena.within hx
      exact ⟨h1.1, by simp only [Heap.store]; omega, h1.2.2⟩
  · intro x x' i i' hx hx' hlt
    rcases cases hx with ⟨hxa, -⟩ | ⟨hne, hold⟩ <;> rcases cases hx' with ⟨hxa', -⟩ | ⟨hne', hold'⟩
    · omega
    · have := below hold' hne'
      omega
    · rw [hxa']
      exact below hold hne
    · exact h.arena.apart hold hold' hlt
  · have h1 := h.arena.off_mod
    have h2 := h.arena.on_grid ha
    simp only
    omega
  · intro x i hx
    rcases cases hx with ⟨rfl, rfl⟩ | ⟨-, hx⟩
    · exact ⟨(h.arena.on_grid ha).1, hgrid⟩
    · exact h.arena.on_grid hx

/-- The conditions under which the part of `realloc` that moves a block goes right. -/
structure MoveOk (s : Heap) (p n : Nat) (mmap : Nat → Option Nat) : Prop where
  sized : Sized n
  cursor : refills s n = true → s.tlsEnd ≤ s.cursor
  spares : ∀ q, (malloc s n mmap).1 = some q → SparesCache (copied s p q n mmap) p
  trusts : ∀ q, (malloc s n mmap).1 = some q → TrustsTag (copied s p q n mmap) p

/-- A block of the arena that `realloc` leaves behind is never handed out again. -/
private theorem HeapInv.forget (h : HeapInv s T A) (a : Nat) : HeapInv s T (Function.update A a none) := by
  have cases : ∀ {x k}, Function.update A a none x = some k → A x = some k := by
    intro x k hx
    rcases eq_or_ne x a with rfl | hne
    · rw [Function.update_self] at hx
      cases hx
    · rwa [Function.update_of_ne hne] at hx
  exact ⟨h.segs, h.tiling, h.headers, h.bins, h.cache, h.arena.cursor_mod, h.arena.off_le, h.arena.end_le,
    fun hx => h.arena.header (cases hx), fun hx => h.arena.within (cases hx),
    fun hx hx' => h.arena.apart (cases hx) (cases hx'), h.arena.off_mod, fun hx => h.arena.on_grid (cases hx)⟩

theorem allocNeed_ne_zero {q : Nat} (h : (malloc s n mmap).1 = some q) : allocNeed n ≠ 0 := by
  intro hz
  rw [malloc, if_pos hz] at h
  cases h

private theorem reallocMove_inv (h : HeapInv s T A) (hheld : HeldIn T fun _ => False) {m : Nat} (hocc : Occ T A a m)
    (hfresh : ∀ sz p, mmap sz = some p → Fresh s p sz) (hok : MoveOk s (a + 24) n mmap) (hmore : m < n + 24) :
    ∃ T' A', ReallocSpec s (reallocMove s (a + 24) n mmap).2 T T' A A' a m n (reallocMove s (a + 24) n mmap).1 := by
  obtain ⟨hsize, hmin⟩ := h.occ_size hocc
  obtain ⟨T1, A1, hm⟩ := malloc_inv (n := n) h hheld hok.cursor hfresh
  have hp : a + 24 - HDR = a := by
    rw [HDR]
    omega
  have hp' : a + 24 - 8 = a + 16 := by omega
  have hocc1 := hm.keeps hocc
  rcases hr : malloc s n mmap with ⟨r, s1⟩
  have hcopied : ∀ q, copied s (a + 24) q n mmap = copyBytes s1 q (a + 24) (m - 24) := by
    intro q
    rw [copied, hr, hp, hsize, HDR]
  have hne0 : ∀ q, r = some q → allocNeed n ≠ 0 := fun q hq => allocNeed_ne_zero (by rw [hr]; exact hq)
  have hspares := hok.spares
  have htrusts := hok.trusts
  rw [hr] at hm hspares htrusts
  rcases r with _ | q
  · have heq : reallocMove s (a + 24) n mmap = (none, s1) := by rw [reallocMove, hr]
    rw [heq]
    obtain ⟨hoff, hend, hsame⟩ := hm.failed rfl
    exact ⟨T1, A1, hm.inv, hm.held, fun _ ho => hm.keeps ho, fun _ _ => ⟨hocc1, hoff, hend, hsame hocc⟩,
      (fun hq => by cases hq), (fun hq => by cases hq), hm.grid⟩
  · obtain ⟨x, k, rfl, hx, hnew, hfit⟩ := hm.fresh rfl
    have hxa : x ≠ a := fun he => hnew m (he ▸ hocc)
    have henough : n + 24 ≤ k := hfit ((allocNeed_enough_iff n).2 hok.sized (hne0 _ rfl))
    -- the copy stays inside the new block
    obtain ⟨s2, hs2⟩ : ∃ s2, s2 = copied s (a + 24) (x + 24) n mmap := ⟨_, rfl⟩
    have hinv2 : HeapInv s2 T1 A1 := by
      rw [hs2, hcopied]
      apply hm.inv.payload hx
      intro y hy
      rw [if_neg (by omega)]
    have hfresh' : ∀ {T' A'}, Occ T' A' x k → ∀ {p}, some (x + 24) = some p → ∃ x m, p = x + 24 ∧ Occ T' A' x m ∧
        (x ≠ a → ∀ m, ¬Occ T A x m) ∧ n + 24 ≤ m := by
      intro T' A' ho p he
      exact ⟨x, k, (Option.some.inj he).symm, ho, fun _ => hnew, henough⟩
    -- what is copied is what `malloc` has left as it was
    have hcopy : ∀ k < min (m - 24) n, s2.mem (x + 24 + k) = s.mem (a + 24 + k) := by
      intro k hk
      have hsrc : x + 24 + k - (x + 24) = k := by omega
      rw [hs2, hcopied, copyBytes]
      simp only
      rw [if_pos (by omega), hsrc]
      exact hm.quiet hocc _ (by omega) (by omega)
    have heq : reallocMove s (a + 24) n mmap =
        (some (x + 24), if isArena (s2.mem (a + 16)) then s2 else free s2 (a + 24)) := by
      rw [reallocMove, hr, hs2, hcopied, hp, hsize, hp', HDR]
    rw [heq]
    rcases hocc1 with ⟨b, hb, hu, hbs⟩ | ha
    · have hflags : isArena (s2.mem (a + 16)) = false := by
        rw [(hinv2.headers _ _ hb).2.2, hu]
        rfl
      rw [hflags, if_neg Bool.false_ne_true]
      obtain ⟨T', A', hf⟩ := free_inv hinv2 hm.held (Or.inl ⟨b, hb, hu, hbs⟩) (hs2 ▸ hspares _ rfl)
        (Or.inl (hs2 ▸ htrusts _ rfl))
      refine ⟨T', A', hf.inv, hf.held, fun hy ho => hf.keeps hy (hm.keeps ho), (fun he => by cases he),
        hfresh' (hf.keeps hxa hx), ?_, ?_⟩
      · intro p hp k hk
        rw [← Option.some.inj hp, ← hcopy k hk]
        exact hf.quiet hxa hx _ (by omega) (by omega)
      · intro hg hbase
        refine hf.grid (hm.grid hg ?_)
        intro j hj
        have hcop : SameSegs s1 s2 := by
          rw [hs2, hcopied]
          exact sameSegs_mem s1 _
        have hsame := hcop.trans hf.same
        rw [← hsame.base]
        exact hbase j (by rw [hsame.length]; exact hj)
    · have hflags : isArena (s2.mem (a + 16)) = true := by
        rw [(hinv2.arena.header ha).2]
        rfl
      rw [hflags, if_pos rfl]
      have hkeep : ∀ {y i}, y ≠ a → Occ T1 A1 y i → Occ T1 (Function.update A1 a none) y i := by
        rintro y i hy (ho | ho)
        · exact Or.inl ho
        · exact Or.inr (by rw [Function.update_of_ne hy, ho])
      refine ⟨T1, _, hinv2.forget a, hm.held, fun hy ho => hkeep hy (hm.keeps ho), (fun he => by cases he),
        hfresh' (hkeep hxa hx), ?_, ?_⟩
      · intro p hp k hk
        rw [← Option.some.inj hp]
        exact hcopy k hk
      · intro hg hbase
        rw [hs2, hcopied] at hbase
        exact hm.grid hg hbase

/-- The conditions under which `realloc` of a block goes right. -/
structure ReallocOk (s : Heap) (p n : Nat) (mmap : Nat → Option Nat) : Prop where
  spares : n = 0 → SparesCache s p
  trusts : n = 0 → TrustsTag s p
  grow : growsInPlace s p n = true → s.mem (p - HDR) < n + HDR → n + HDR ≤ allocNeed n
  move : growsInPlace s p n = false → s.mem (p - HDR) < n + HDR → MoveOk s p n mmap

/-- `realloc` of a block that is handed out. -/
theorem realloc_inv (h : HeapInv s T A) (hheld : HeldIn T fun _ => False) {m : Nat} (hocc : Occ T A a m)
    (hfresh : ∀ sz p, mmap sz = some p → Fresh s p sz) (hok : ReallocOk s (a + 24) n mmap) :
    ∃ T' A', ReallocSpec s (realloc s (some (a + 24)) n mmap).2 T T' A A' a m n
      (realloc s (some (a + 24)) n mmap).1 := by
  obtain ⟨hsize, hmin⟩ := h.occ_size hocc
  have hp : a + 24 - HDR = a := by
    rw [HDR]
    omega
  have hp' : a + 24 - 8 = a + 16 := by omega
  rw [realloc]
  by_cases hz : n = 0
  · rw [if_pos hz]
    obtain ⟨T', A', hf⟩ := free_inv h hheld hocc (hok.spares hz) (Or.inl (hok.trusts hz))
    exact ⟨T', A', hf.inv, hf.held, fun hx ho => hf.keeps hx ho, fun _ hn => absurd hz hn, (fun he => by cases he),
      (fun he => by cases he), fun hg _ => hf.grid hg⟩
  rw [if_neg hz]
  simp only [hp, hsize]
  by_cases hle : n ≤ m - HDR
  · rw [if_pos hle]
    rw [HDR] at hle
    refine ⟨T, A, h, hheld, fun _ ho => ho, (fun he => by cases he), ?_, ?_, fun hg _ => hg⟩
    · intro p he
      exact ⟨a, m, (Option.some.inj he).symm, hocc, fun hne => absurd rfl hne, by omega⟩
    · intro p he k _
      rw [← Option.some.inj he]
  rw [if_neg hle]
  have hmore : m < n + 24 := by
    rw [HDR] at hle
    omega
  have hgrow := hok.grow
  have hmove := hok.move
  rw [hp, hsize, HDR] at hgrow hmove
  have hplace : growsInPlace s (a + 24) n = (isArena (s.mem (a + 16)) && decide (a + m = s.staticHeap + s.tlsOff) &&
      decide ((s.tlsOff + (allocNeed n + 2 ^ 64 - m) % 2 ^ 64) % 2 ^ 64 ≤ s.tlsEnd)) := by
    rw [growsInPlace, hp, hp', hsize]
  by_cases hlast : isArena (s.mem (a + 16)) = true ∧ a + m = s.staticHeap + s.tlsOff
  swap
  · rw [if_neg hlast]
    refine reallocMove_inv h hheld hocc hfresh (hmove ?_ hmore) hmore
    rw [hplace]
    simp only [Bool.and_eq_false_imp, Bool.and_eq_true, decide_eq_true_eq]
    intro hc
    exact absurd hc hlast
  rw [if_pos hlast]
  by_cases hroom : (s.tlsOff + (allocNeed n + 2 ^ 64 - m) % 2 ^ 64) % 2 ^ 64 ≤ s.tlsEnd
  swap
  · rw [if_neg hroom]
    refine reallocMove_inv h hheld hocc hfresh (hmove ?_ hmore) hmore
    rw [hplace]
    simp only [Bool.and_eq_false_imp, decide_eq_false_iff_not]
    exact fun _ => hroom
  · rw [if_pos hroom]
    have hin : growsInPlace s (a + 24) n = true := by
      rw [hplace]
      simp only [Bool.and_eq_true, decide_eq_true_eq]
      exact ⟨hlast, hroom⟩
    have hbig := hgrow hin hmore
    have ha : A a = some m := by
      rcases hocc with ⟨b, hb, hu, -⟩ | ha
      · rw [(h.headers _ _ hb).2.2, hu] at hlast
        cases hlast.1
      · exact ha
    have hend := h.arena.end_le
    have hoff := h.arena.off_le
    have hneed := (allocNeed_bounds n).2
    rw [ARENA_LIMIT] at hend
    -- no wrap: the block really grows
    have hgr : (allocNeed n + 2 ^ 64 - m) % 2 ^ 64 = allocNeed n - m := by omega
    rw [hgr] at hroom ⊢
    have hroom' : s.tlsOff + (allocNeed n - m) ≤ s.tlsEnd := by omega
    have hmod : (s.tlsOff + (allocNeed n - m)) % 2 ^ 32 = s.tlsOff + (allocNeed n - m) := by omega
    rw [hmod]
    have hinv := growInPlace_inv h ha hlast.2 (by omega : m ≤ allocNeed n) (allocNeed_mod n) hroom'
    refine ⟨T, _, hinv, hheld, ?_, (fun he => by cases he), ?_, ?_, fun hg _ => hg⟩
    · rintro x k hx (ho | ho)
      · exact Or.inl ho
      · exact Or.inr (by rw [Function.update_of_ne hx, ho])
    · intro p he
      exact ⟨a, allocNeed n, (Option.some.inj he).symm, Or.inr (Function.update_self _ _ _),
        fun hne => absurd rfl hne, hbig⟩
    · intro p he k _
      rw [← Option.some.inj he]
      exact Function.update_of_ne (by omega) _ _

end JACLibc
