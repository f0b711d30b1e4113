import JACLibc.Lib.Run
import JACLibc.Memory.HeapMoves

/-!
# The bins of one segment

The lists of free blocks by themselves, whatever else the heap holds.  A caller pushes, pops and removes offsets of
one segment, and memory is written in between; the ledger of a `BinSession` keeps the offsets that are pushed and not
yet taken out, each with the size that its header had when it was pushed.  `BinInv` ties the ledger to the lists in
memory, and `bin_lists` reads it off at the end of every run.  That a block from a higher class than the one asked for
is large enough is the monotonicity of `__jacl_membin_get` (`membinGet_mono`).
-/

namespace JACLibc

open Linked

/-! ### The classes of sizes -/

private theorem membinLoop_ge (fuel q i : Nat) : i ≤ membinLoop fuel q i := by
  induction fuel generalizing q i with
  | zero => exact le_refl i
  | succ fuel ih =>
    rw [membinLoop]
    split
    · exact (Nat.le_succ i).trans (ih (q / 2) (i + 1))
    · exact le_refl i

private theorem membinLoop_mono {q q' : Nat} (fuel i : Nat) (h : q ≤ q') :
    membinLoop fuel q i ≤ membinLoop fuel q' i := by
  induction fuel generalizing q q' i with
  | zero => exact le_refl i
  | succ fuel ih =>
    rw [membinLoop, membinLoop]
    by_cases hq : q > 1 ∧ i < 31
    · rw [if_pos hq, if_pos ⟨by omega, hq.2⟩]
      exact ih (i + 1) (Nat.div_le_div_right h)
    · rw [if_neg hq]
      split
      · exact (Nat.le_succ i).trans (membinLoop_ge fuel (q' / 2) (i + 1))
      · exact le_refl i

/-- A larger block is in no lower class. -/
theorem membinGet_mono {m n : Nat} (h : m ≤ n) : membinGet m ≤ membinGet n := by
  obtain ⟨x, hx⟩ : ∃ x, x = if m ≤ 128 then (m + 7) / 8 else membinLoop 15 (m / 128) 16 := ⟨_, rfl⟩
  obtain ⟨y, hy⟩ : ∃ y, y = if n ≤ 128 then (n + 7) / 8 else membinLoop 15 (n / 128) 16 := ⟨_, rfl⟩
  have hclass : x ≤ y := by
    rw [hx, hy]
    by_cases hm : m ≤ 128
    · rw [if_pos hm]
      by_cases hn : n ≤ 128
      · rw [if_pos hn]
        omega
      · rw [if_neg hn]
        have hge := membinLoop_ge 15 (n / 128) 16
        omega
    · rw [if_neg hm, if_neg (by omega)]
      exact membinLoop_mono 15 16 (Nat.div_le_div_right h)
  simp only [membinGet, ← hx, ← hy]
  split <;> split <;> omega

/-! ### Runs -/

/-- What is done to the bins of a segment; between the calls, memory is written. -/
inductive BinCall
  | push (off : Nat)
  | pop (need : Nat)
  | remove (off : Nat)
  | write (a v : Nat)

/-- The heap and the ledger of the offsets that are pushed and not taken out, with their sizes at the time. -/
structure BinSession where
  heap : Heap
  listed : Nat → Option Nat

namespace BinSession

def step (j : Nat) (c : BinSession) : BinCall → Nat × BinSession
  | .push off => (0, ⟨membinPush c.heap j off, Function.update c.listed off (some (c.heap.mem (c.heap.addr j off)))⟩)
  | .pop need => ((membinPop c.heap j need).1,
      ⟨(membinPop c.heap j need).2, Function.update c.listed (membinPop c.heap j need).1 none⟩)
  | .remove off => (0, ⟨membinRemove c.heap j off, Function.update c.listed off none⟩)
  | .write a v => (0, ⟨c.heap.store a v, c.listed⟩)

/-- What the callers keep to: an offset that is pushed is that of a block of the segment, with its size in the header
and room for a link, and the block shares no byte with a listed one; what is removed is listed, and its size is the
one it was pushed with; a write leaves the links of the listed blocks alone. -/
def Legal (j : Nat) (c : BinSession) : BinCall → Prop
  | .push off => off ≠ 0 ∧ HDR + 8 ≤ c.heap.mem (c.heap.addr j off) ∧
      off + c.heap.mem (c.heap.addr j off) ≤ (c.heap.seg j).size ∧
      ∀ o n, c.listed o = some n → off + c.heap.mem (c.heap.addr j off) ≤ o ∨ o + n ≤ off
  | .pop _ => True
  | .remove off => c.listed off = some (c.heap.mem (c.heap.addr j off))
  | .write a _ => ∀ o n, c.listed o = some n → a + 8 ≤ c.heap.addr j o + HDR ∨ c.heap.addr j o + HDR + 8 ≤ a

/-- The list of every class has exactly the listed offsets of this class, each once, and its bit is set if and only if
it has any. -/
def Exact (j : Nat) (c : BinSession) : Prop :=
  ∀ i, (∃ l, Chain (fun off => c.heap.mem (c.heap.addr j off + HDR)) ((c.heap.seg j).bins i) l ∧ l.Nodup ∧
      ∀ off, off ∈ l ↔ ∃ n, c.listed off = some n ∧ membinGet n = i) ∧
    ((c.heap.seg j).bitmap i = true ↔ (c.heap.seg j).bins i ≠ 0)

/-- A block that is popped for `need` is a listed one of this class or a higher one, and in a higher one it is large
enough. -/
def PopFits (j : Nat) (c : BinSession) (need : Nat) : Prop :=
  (membinPop c.heap j need).1 ≠ 0 → ∃ n, c.listed (membinPop c.heap j need).1 = some n ∧
    membinGet need ≤ membinGet n ∧ (membinGet need < membinGet n → need ≤ n)

end BinSession

/-! ### The invariant -/

structure BinInv (j : Nat) (c : BinSession) : Prop where
  seg : j < c.heap.segs.length
  exact : c.Exact j
  room : ∀ {o n}, c.listed o = some n → 32 ≤ n ∧ o + n ≤ (c.heap.seg j).size
  apart : ∀ {o o' n n'}, c.listed o = some n → c.listed o' = some n' → o ≠ o' → o + n ≤ o' ∨ o' + n' ≤ o

variable {c : BinSession} {s : Heap} {j i off n need : Nat}

theorem BinInv.listed_zero (h : BinInv j c) : c.listed 0 = none := by
  rw [Option.eq_none_iff_forall_ne_some]
  intro n hn
  obtain ⟨⟨l, hl, -, hmem⟩, -⟩ := h.exact (membinGet n)
  exact hl.ne_zero ((hmem 0).2 ⟨n, hn, rfl⟩) rfl

theorem BinInv.inside (h : BinInv j c) (hn : c.listed off = some n) : (c.heap.seg j).inside off = true := by
  have hroom := h.room hn
  exact decide_eq_true ⟨by omega, by simp only [HDR]; omega⟩

/-- One list changes, by offsets of its own class; the links of the other lists stay. -/
theorem BinInv.relist (h : BinInv j c) {mem : Nat → Nat} {start : Nat} {bit : Bool} {l : List Nat}
    {listed : Nat → Option Nat} (hl : Chain (fun o => mem (c.heap.addr j o + HDR)) start l) (hd : l.Nodup)
    (hmem : ∀ o, o ∈ l ↔ ∃ n, listed o = some n ∧ membinGet n = i)
    (hother : ∀ o n, membinGet n ≠ i → (listed o = some n ↔ c.listed o = some n))
    (hlink : ∀ o n, c.listed o = some n → membinGet n ≠ i →
      mem (c.heap.addr j o + HDR) = c.heap.mem (c.heap.addr j o + HDR))
    (hbit : bit = true ↔ start ≠ 0)
    (hroom : ∀ {o n}, listed o = some n → 32 ≤ n ∧ o + n ≤ (c.heap.seg j).size)
    (hapart : ∀ {o o' n n'}, listed o = some n → listed o' = some n' → o ≠ o' → o + n ≤ o' ∨ o' + n' ≤ o) :
    BinInv j ⟨{ c.heap with mem := mem }.setSeg j ((c.heap.seg j).setBin i start bit), listed⟩ := by
  have hsame := sameSegs_setBin h.seg mem i start bit
  have hseg : ({ c.heap with mem := mem }.setSeg j ((c.heap.seg j).setBin i start bit)).seg j =
      (c.heap.seg j).setBin i start bit := (@seg_setSeg { c.heap with mem := mem } j h.seg _ j).trans (if_pos rfl)
  have hwords : ({ c.heap with mem := mem }.setSeg j ((c.heap.seg j).setBin i start bit)).mem = mem := rfl
  obtain ⟨s', hs'⟩ : ∃ s', s' = { c.heap with mem := mem }.setSeg j ((c.heap.seg j).setBin i start bit) := ⟨_, rfl⟩
  rw [← hs'] at hsame hseg hwords ⊢
  refine ⟨?_, ?_, ?_, fun ho ho' => hapart ho ho'⟩
  · rw [hsame.length]
    exact h.seg
  · intro k
    simp only [hseg, hwords, hsame.addr, Seg.setBin]
    rcases eq_or_ne k i with rfl | hne
    · rw [Function.update_self, Function.update_self]
      exact ⟨⟨l, hl, hd, hmem⟩, hbit⟩
    · rw [Function.update_of_ne hne, Function.update_of_ne hne]
      obtain ⟨⟨l', hl', hd', hmem'⟩, hbit'⟩ := h.exact k
      have hclass : ∀ o, (∃ n, listed o = some n ∧ membinGet n = k) ↔ ∃ n, c.listed o = some n ∧ membinGet n = k := by
        intro o
        constructor
        · rintro ⟨n, hn, rfl⟩
          exact ⟨n, (hother o n hne).1 hn, rfl⟩
        · rintro ⟨n, hn, rfl⟩
          exact ⟨n, (hother o n hne).2 hn, rfl⟩
      refine ⟨⟨l', ?_, hd', fun o => (hmem' o).trans (hclass o).symm⟩, hbit'⟩
      apply hl'.congr
      intro o ho
      obtain ⟨n, hn, rfl⟩ := (hmem' o).1 ho
      exact hlink o n hn hne
  · intro o n hn
    rw [hsame.size]
    exact hroom hn

/-- The links of two listed blocks, or of a listed block and one that lies apart, are different words. -/
private theorem link_ne {o : Nat} (hne : o ≠ off) : s.addr j o + HDR ≠ s.addr j off + HDR := by
  simp only [Heap.addr]
  omega

theorem BinInv.push (h : BinInv j c) (hl : c.Legal j (.push off)) : BinInv j (c.step j (.push off)).2 := by
  obtain ⟨hpos, hsize, hend, hfar⟩ := hl
  obtain ⟨size, hsz⟩ : ∃ size, size = c.heap.mem (c.heap.addr j off) := ⟨_, rfl⟩
  rw [← hsz] at hsize hend hfar
  simp only [HDR] at hsize
  have hnew : c.listed off = none := by
    rw [Option.eq_none_iff_forall_ne_some]
    intro n hn
    have hroom := h.room hn
    have := hfar off n hn
    omega
  have hin : (c.heap.seg j).inside off = true := decide_eq_true ⟨by omega, by simp only [HDR]; omega⟩
  obtain ⟨⟨l, hchain, hd, hmem⟩, -⟩ := h.exact (membinGet size)
  have hnl : off ∉ l := by
    intro hin
    obtain ⟨n, hn, -⟩ := (hmem off).1 hin
    rw [hnew] at hn
    cases hn
  have hstep : (c.step j (.push off)).2 =
      ⟨{ c.heap with
          mem := Function.update c.heap.mem (c.heap.addr j off + HDR) ((c.heap.seg j).bins (membinGet size)) }.setSeg j
        ((c.heap.seg j).setBin (membinGet size) off true), Function.update c.listed off (some size)⟩ := by
    simp only [BinSession.step, membinPush, hin, not_true_eq_false, if_false, ← hsz]
    rw [hsz]
    rfl
  rw [hstep]
  refine h.relist (l := off :: l) ?_ (List.nodup_cons.2 ⟨hnl, hd⟩) ?_ ?_ ?_ ?_ ?_ ?_
  · apply (hchain.push hpos hnl).congr
    intro o _
    rcases eq_or_ne o off with rfl | hne
    · rw [Function.update_self, Function.update_self]
    · rw [Function.update_of_ne hne, Function.update_of_ne (link_ne hne)]
  · intro o
    rw [List.mem_cons]
    rcases eq_or_ne o off with rfl | hne
    · simp
    · rw [Function.update_of_ne hne, hmem]
      simp [hne]
  · intro o n hn
    rcases eq_or_ne o off with rfl | hne
    · rw [Function.update_self, hnew]
      simp only [Option.some.injEq, reduceCtorEq, iff_false]
      rintro rfl
      exact hn rfl
    · rw [Function.update_of_ne hne]
  · intro o n ho _
    have hne : o ≠ off := by
      rintro rfl
      rw [hnew] at ho
      cases ho
    exact Function.update_of_ne (link_ne hne) _ _
  · simp [hpos]
  · intro o n ho
    rcases eq_or_ne o off with rfl | hne
    · rw [Function.update_self, Option.some.injEq] at ho
      omega
    · rw [Function.update_of_ne hne] at ho
      exact h.room ho
  · intro o o' n n' ho ho' hoo
    rcases eq_or_ne o off with rfl | hne
    · rw [Function.update_self, Option.some.injEq] at ho
      rw [Function.update_of_ne hoo.symm] at ho'
      rw [← ho]
      exact hfar o' n' ho'
    · rw [Function.update_of_ne hne] at ho
      rcases eq_or_ne o' off with rfl | hne'
      · rw [Function.update_self, Option.some.injEq] at ho'
        rw [← ho']
        exact (hfar o n ho).symm
      · rw [Function.update_of_ne hne'] at ho'
        exact h.apart ho ho' hoo

/-- A listed offset is taken out of its list. -/
theorem BinInv.takeOut (h : BinInv j c) (hn : c.listed off = some n) {l : List Nat} {mem : Nat → Nat} {start : Nat}
    {bit : Bool} (hd : l.Nodup) (hmem : ∀ o, o ∈ l ↔ ∃ k, c.listed o = some k ∧ membinGet k = membinGet n)
    (hl : Chain (fun o => mem (c.heap.addr j o + HDR)) start (l.erase off))
    (hlink : ∀ o k, c.listed o = some k → membinGet k ≠ membinGet n →
      mem (c.heap.addr j o + HDR) = c.heap.mem (c.heap.addr j o + HDR))
    (hbit : bit = true ↔ start ≠ 0) :
    BinInv j ⟨{ c.heap with mem := mem }.setSeg j ((c.heap.seg j).setBin (membinGet n) start bit),
      Function.update c.listed off none⟩ := by
  have hsub : ∀ {o k}, Function.update c.listed off none o = some k → c.listed o = some k := by
    intro o k ho
    rcases eq_or_ne o off with rfl | hne
    · rw [Function.update_self] at ho
      cases ho
    · rwa [Function.update_of_ne hne] at ho
  refine h.relist hl (hd.erase off) ?_ ?_ hlink hbit (fun ho => h.room (hsub ho))
    (fun ho ho' => h.apart (hsub ho) (hsub ho'))
  · intro o
    rw [hd.mem_erase_iff, hmem]
    rcases eq_or_ne o off with rfl | hne
    · simp
    · rw [Function.update_of_ne hne]
      exact and_iff_right hne
  · intro o k hk
    rcases eq_or_ne o off with rfl | hne
    · rw [Function.update_self, hn]
      simp only [reduceCtorEq, Option.some.injEq, false_iff]
      rintro rfl
      exact hk rfl
    · rw [Function.update_of_ne hne]

/-- `__jacl_membin_pop` by its answer: nothing is done, or the head of a list of the class or a higher one is taken
out. -/
theorem BinInv.pop_cases (h : BinInv j c) (need : Nat) :
    membinPop c.heap j need = (0, c.heap) ∨
    ∃ off n, c.listed off = some n ∧ membinGet need ≤ membinGet n ∧ (c.heap.seg j).bins (membinGet n) = off ∧
      membinPop c.heap j need = (off, c.heap.setSeg j ((c.heap.seg j).setBin (membinGet n)
        (c.heap.mem (c.heap.addr j off + HDR)) (c.heap.mem (c.heap.addr j off + HDR) ≠ 0))) := by
  rcases hfind : (List.range 32).find? (fun i => decide (membinGet need ≤ i) && (c.heap.seg j).bitmap i) with _ | i
  · left
    simp only [membinPop, hfind]
  · right
    have hi := List.find?_some hfind
    simp only [Bool.and_eq_true, decide_eq_true_eq] at hi
    obtain ⟨⟨l, hl, hd, hmem⟩, hbit⟩ := h.exact i
    have hz := hbit.1 hi.2
    obtain ⟨l', rfl, -⟩ := hl.tail hz
    obtain ⟨n, hn, rfl⟩ := (hmem _).1 List.mem_cons_self
    have hroom := h.room hn
    refine ⟨_, n, hn, hi.1, rfl, ?_⟩
    have hfits : ¬(c.heap.seg j).bins (membinGet n) + HDR > (c.heap.seg j).size - 8 := by
      simp only [HDR]
      omega
    simp only [membinPop, hfind, hz, h.inside hn, not_true_eq_false, if_false, hfits]
    rfl

theorem BinInv.pop (h : BinInv j c) (need : Nat) : BinInv j (c.step j (.pop need)).2 := by
  simp only [BinSession.step]
  rcases h.pop_cases need with hp | ⟨off, n, hn, -, hhead, hp⟩
  · rw [hp, Function.update_eq_self_iff.2 h.listed_zero.symm]
    exact h
  · rw [hp]
    obtain ⟨⟨l, hl, hd, hmem⟩, -⟩ := h.exact (membinGet n)
    have hz : (c.heap.seg j).bins (membinGet n) ≠ 0 := by
      rw [hhead]
      exact hl.ne_zero ((hmem off).2 ⟨n, hn, rfl⟩)
    obtain ⟨l', rfl, htail⟩ := hl.tail hz
    have hrest : Chain (fun o => c.heap.mem (c.heap.addr j o + HDR)) (c.heap.mem (c.heap.addr j off + HDR))
        (List.erase ((c.heap.seg j).bins (membinGet n) :: l') off) := by
      rw [hhead] at htail ⊢
      rw [List.erase_cons_head]
      exact htail
    exact h.takeOut hn hd hmem hrest (fun _ _ _ _ => rfl) (by simp)

theorem BinInv.pop_fits (h : BinInv j c) (need : Nat) : c.PopFits j need := by
  intro hne
  rcases h.pop_cases need with hp | ⟨off, n, hn, hle, -, hp⟩
  · rw [hp] at hne
    exact absurd rfl hne
  · rw [hp]
    refine ⟨n, hn, hle, fun hlt => ?_⟩
    by_contra hsmall
    have := membinGet_mono (Nat.le_of_not_le hsmall)
    omega

theorem BinInv.remove (h : BinInv j c) (hl : c.Legal j (.remove off)) : BinInv j (c.step j (.remove off)).2 := by
  obtain ⟨n, hsz⟩ : ∃ n, n = c.heap.mem (c.heap.addr j off) := ⟨_, rfl⟩
  have hn : c.listed off = some n := hsz ▸ hl
  have hin := h.inside hn
  obtain ⟨⟨l, hchain, hd, hmem⟩, hbit⟩ := h.exact (membinGet n)
  have hoff : off ∈ l := (hmem off).2 ⟨n, hn, rfl⟩
  have hset : (c.heap.seg j).bitmap (membinGet n) = true := by
    rw [hbit, hchain.start_eq]
    cases l with
    | nil => exact absurd hoff List.not_mem_nil
    | cons x l => exact hchain.2.1
  have hsize : c.heap.mem ((c.heap.seg j).base + off) = n := hsz.symm
  simp only [BinSession.step, membinRemove, hin, not_true_eq_false, if_false, hsize, hset, Bool.and_true]
  by_cases he : (c.heap.seg j).bins (membinGet n) = off
  · rw [if_pos he]
    refine h.takeOut hn hd hmem ?_ (fun _ _ _ _ => rfl) decide_eq_true_iff
    obtain ⟨l', rfl, htail⟩ := hchain.tail (he ▸ hchain.ne_zero hoff)
    rw [he] at htail ⊢
    rw [List.erase_cons_head]
    exact htail
  · rw [if_neg he]
    have hlen : l.length ≤ (c.heap.seg j).size := by
      have hsub : l ⊆ List.range (c.heap.seg j).size := by
        intro o ho
        obtain ⟨k, hk, -⟩ := (hmem o).1 ho
        have hroom := h.room hk
        exact List.mem_range.2 (by omega)
      have hle := (hd.subperm hsub).length_le
      rwa [List.length_range] at hle
    have hchain' : Chain (fun o => c.heap.mem ((c.heap.seg j).base + o + 24)) ((c.heap.seg j).bins (membinGet n)) l :=
      hchain
    obtain ⟨y, hy, hyx, heq⟩ := unlinkLoop_eq hchain' hoff he hlen
    rw [heq]
    refine h.takeOut hn hd hmem ?_ ?_ decide_eq_true_iff
    · apply (hchain.unlink hd hy hyx (hchain.ne_zero hoff)).congr
      intro o _
      rcases eq_or_ne o y with rfl | hne
      · simp only [Function.update_self, Heap.addr, HDR]
      · rw [Function.update_of_ne hne]
        exact Function.update_of_ne (link_ne hne) _ _
    · intro o k ho hk
      have hne : o ≠ y := by
        rintro rfl
        obtain ⟨k', hk', hclass⟩ := (hmem o).1 hy
        rw [ho, Option.some.injEq] at hk'
        exact hk (hk' ▸ hclass)
      exact Function.update_of_ne (link_ne hne) _ _

theorem BinInv.write (h : BinInv j c) {a v : Nat} (hl : c.Legal j (.write a v)) :
    BinInv j (c.step j (.write a v)).2 := by
  refine ⟨h.seg, ?_, h.room, h.apart⟩
  intro i
  obtain ⟨⟨l, hchain, hd, hmem⟩, hbit⟩ := h.exact i
  refine ⟨⟨l, ?_, hd, hmem⟩, hbit⟩
  apply hchain.congr
  intro o ho
  obtain ⟨n, hn, -⟩ := (hmem o).1 ho
  have hfar := hl o n hn
  have hne : c.heap.addr j o + HDR ≠ a := by omega
  exact Function.update_of_ne hne _ _

theorem binInv_step (h : BinInv j c) (call : BinCall) (hl : c.Legal j call) : BinInv j (c.step j call).2 := by
  cases call with
  | push off => exact h.push hl
  | pop need => exact h.pop need
  | remove off => exact h.remove hl
  | write a v => exact h.write hl

/-- The invariant holds for empty bins. -/
theorem binInv_empty (hj : j < s.segs.length) (hbins : ∀ i, (s.seg j).bins i = 0)
    (hbits : ∀ i, (s.seg j).bitmap i = false) :
    BinInv j ⟨s, fun _ => none⟩ := by
  refine ⟨hj, ?_, (fun ho => nomatch ho), (fun ho => nomatch ho)⟩
  intro i
  refine ⟨⟨[], hbins i, List.nodup_nil, ?_⟩, ?_⟩
  · simp
  · simp [hbins, hbits]

/-- After every run on a segment whose bins were empty, each list has the offsets of its class that are pushed and not
taken out, each once; the bits say which lists have any; and a block from a higher class has the size asked for. -/
theorem bin_lists (hj : j < s.segs.length) (hbins : ∀ i, (s.seg j).bins i = 0) (hbits : ∀ i, (s.seg j).bitmap i = false)
    (calls : List BinCall)
    (hg : Machine.Guarded (BinSession.step j) (BinSession.Legal j) ⟨s, fun _ => none⟩ calls) :
    (Machine.run (BinSession.step j) ⟨s, fun _ => none⟩ calls).Exact j ∧
      ∀ need, (Machine.run (BinSession.step j) ⟨s, fun _ => none⟩ calls).PopFits j need := by
  have hinv := Machine.guarded_invariant (I := BinInv j) (fun c call h hl => binInv_step h call hl)
    (binInv_empty hj hbins hbits) hg
  exact ⟨hinv.exact, hinv.pop_fits⟩

/-- A heap with one segment of 1024 bytes whose bins are empty. -/
def emptyBins : Heap := ⟨4096, fun _ => 0, [⟨4096, 1024, fun _ => 0, fun _ => false⟩], 0, 0, 0, 0, fun _ => []⟩

/-- Two blocks of 64 bytes go into one list, the lower one is removed from behind the other, and that one is popped. -/
theorem bin_lists_two :
    (Machine.run (BinSession.step 0) ⟨emptyBins, fun _ => none⟩
      [.write 4160 64, .push 64, .write 4352 64, .push 256, .remove 64, .pop 40]).Exact 0 ∧
    ∀ need, (Machine.run (BinSession.step 0) ⟨emptyBins, fun _ => none⟩
      [.write 4160 64, .push 64, .write 4352 64, .push 256, .remove 64, .pop 40]).PopFits 0 need := by
  refine bin_lists (by decide) (fun _ => rfl) (fun _ => rfl) _ ?_
  have hone : ∀ o n, Function.update (fun _ : Nat => (none : Option Nat)) 64 (some 64) o = some n → o = 64 ∧
    n = 64 := by
    intro o n ho
    rcases eq_or_ne o 64 with rfl | hne
    · rw [Function.update_self, Option.some.injEq] at ho
      exact ⟨rfl, ho.symm⟩
    · rw [Function.update_of_ne hne] at ho
      cases ho
  refine ⟨(fun o n ho => nomatch ho), ⟨by decide, by decide, by decide, (fun o n ho => nomatch ho)⟩, ?_,
    ⟨by decide, by decide, by decide, ?_⟩, ?_, trivial, trivial⟩
  · intro o n ho
    obtain ⟨rfl, rfl⟩ := hone o n ho
    exact Or.inr (by decide)
  · intro o n ho
    obtain ⟨rfl, rfl⟩ := hone o n ho
    exact Or.inr (by decide)
  · unfold BinSession.Legal
    decide

end JACLibc
