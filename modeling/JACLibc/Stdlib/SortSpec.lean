import JACLibc.Stdlib.Sort
import Mathlib.Data.List.Perm.Basic
import Mathlib.Data.List.Pairwise
import Mathlib.Data.List.Chain

/-!
# When `qsort` sorts

The partition of `__jacl_sort_again` stops with `i = j` or `i = j + 1`, with nothing greater than the pivot up to `j`
and nothing less than it after `j` (`sortPartition_spec`).  The recursion then sorts `0 … j` and `i + 1 … nmemb - 1`.
When `i = j + 1` the element `i` belongs to neither range: it keeps its place whatever comes after it.

So the array ends up sorted exactly when, in every call of the recursion, an element left between the two ranges is
not greater than any element after it (`NoneStranded`, `qsort_sorted_iff`).
-/

namespace JACLibc

open Compar (TotalPreorder)

variable {α : Type*} {compar : α → α → Int}

/-! ### Swaps and the median -/

private theorem sortSwap_eq {arr : List α} {i j : Nat} (hi : i < arr.length) (hj : j < arr.length) :
    sortSwap arr i j = (arr.set i arr[j]).set j arr[i] := by
  simp [sortSwap, List.getElem?_eq_getElem hi, List.getElem?_eq_getElem hj]

theorem sortSwap_perm (arr : List α) (i j : Nat) : (sortSwap arr i j).Perm arr := by
  by_cases h : i < arr.length ∧ j < arr.length
  · rw [sortSwap_eq h.1 h.2]
    exact List.set_set_perm h.1 h.2
  · unfold sortSwap
    split
    · rename_i x y hx hy
      exact absurd ⟨(List.getElem?_eq_some_iff.1 hx).1, (List.getElem?_eq_some_iff.1 hy).1⟩ h
    · exact List.Perm.refl _

private theorem getElem?_sortSwap {arr : List α} {i j : Nat} (hi : i < arr.length) (hj : j < arr.length) (k : Nat) :
    (sortSwap arr i j)[k]? = if k = j then arr[i]? else if k = i then arr[j]? else arr[k]? := by
  rw [sortSwap_eq hi hj, List.getElem?_set, List.getElem?_set]
  by_cases hkj : k = j
  · subst hkj; simp [hj, hi]
  · by_cases hki : k = i
    · subst hki; simp [hkj, Ne.symm hkj, hi, hj]
    · simp [hkj, hki, Ne.symm hkj, Ne.symm hki]

theorem sortSwapIf_perm (i j : Nat) (arr : List α) : (sortSwapIf compar i j arr).Perm arr := by
  unfold sortSwapIf
  split
  · split
    · exact sortSwap_perm arr i j
    · exact List.Perm.refl _
  · exact List.Perm.refl _

theorem sortMedian_perm (arr : List α) : (sortMedian compar arr).Perm arr :=
  ((sortSwapIf_perm _ _ _).trans (sortSwapIf_perm _ _ _)).trans (sortSwapIf_perm _ _ _)

/-- After a conditional swap the two elements are in order. -/
private theorem sortSwapIf_spec (hc : TotalPreorder compar) {arr : List α} {i j : Nat} (hij : i ≠ j) {x y : α}
    (hx : arr[i]? = some x) (hy : arr[j]? = some y) :
    ∃ x' y', (sortSwapIf compar i j arr)[i]? = some x' ∧ (sortSwapIf compar i j arr)[j]? = some y' ∧
      compar x' y' ≤ 0 ∧ ((x' = x ∧ y' = y) ∨ (x' = y ∧ y' = x)) ∧
      ∀ k, k ≠ i → k ≠ j → (sortSwapIf compar i j arr)[k]? = arr[k]? := by
  have hi := (List.getElem?_eq_some_iff.1 hx).1
  have hj := (List.getElem?_eq_some_iff.1 hy).1
  unfold sortSwapIf
  simp only [hx, hy]
  split
  · rename_i hgt
    have hyx : compar y x ≤ 0 := by rw [hc.le_swap]; omega
    refine ⟨y, x, ?_, ?_, hyx, .inr ⟨rfl, rfl⟩, ?_⟩
    · rw [getElem?_sortSwap hi hj]; simp [hij, hy]
    · rw [getElem?_sortSwap hi hj]; simp [hx]
    · intro k hki hkj
      rw [getElem?_sortSwap hi hj]; simp [hki, hkj]
  · exact ⟨x, y, hx, hy, by omega, .inl ⟨rfl, rfl⟩, fun _ _ _ => rfl⟩

/-- After the three comparisons the first element is at most the middle one, and the middle one at most the last. -/
private theorem sortMedian_spec (hc : TotalPreorder compar) {arr : List α} (hn : 2 ≤ arr.length) :
    ∃ p a b, (sortMedian compar arr)[(arr.length - 1) / 2]? = some p ∧ (sortMedian compar arr)[0]? = some a ∧
      (sortMedian compar arr)[arr.length - 1]? = some b ∧ compar a p ≤ 0 ∧ compar p b ≤ 0 := by
  simp only [sortMedian]
  generalize hhigh : arr.length - 1 = high
  generalize hmid : high / 2 = mid
  have hmh : mid ≠ high := by omega
  obtain ⟨x, hx⟩ : ∃ x, arr[mid]? = some x := ⟨_, List.getElem?_eq_getElem (by omega)⟩
  obtain ⟨y, hy⟩ : ∃ y, arr[high]? = some y := ⟨_, List.getElem?_eq_getElem (by omega)⟩
  by_cases h0 : mid = 0
  · -- two elements: the first is the middle one
    subst h0
    have hsame : ∀ l : List α, sortSwapIf compar 0 0 l = l := by
      intro l
      unfold sortSwapIf
      split
      · rename_i u v hu hv
        rw [hu] at hv
        cases hv
        simp [hc.refl]
      · rfl
    simp only [hsame]
    obtain ⟨x', y', hx', hy', hle, -⟩ := sortSwapIf_spec hc hmh hx hy
    exact ⟨x', x', y', hx', hx', hy', hc.le_refl x', hle⟩
  · obtain ⟨z, hz⟩ : ∃ z, arr[0]? = some z := ⟨_, List.getElem?_eq_getElem (by omega)⟩
    obtain ⟨z1, x1, hz1, hx1, hle1, -, hrest1⟩ := sortSwapIf_spec hc (Ne.symm h0) hz hx
    have hy1 : (sortSwapIf compar 0 mid arr)[high]? = some y := by
      rw [hrest1 high (by omega) (by omega), hy]
    obtain ⟨x2, y2, hx2, hy2, hle2, hcase2, hrest2⟩ := sortSwapIf_spec hc hmh hx1 hy1
    have hz2 : (sortSwapIf compar mid high (sortSwapIf compar 0 mid arr))[0]? = some z1 := by
      rw [hrest2 0 (by omega) (by omega), hz1]
    obtain ⟨z3, x3, hz3, hx3, hle3, hcase3, hrest3⟩ := sortSwapIf_spec hc (Ne.symm h0) hz2 hx2
    refine ⟨x3, z3, y2, hx3, hz3, ?_, hle3, ?_⟩
    · rw [hrest3 high (by omega) (by omega), hy2]
    · -- the middle is one of the old first and middle elements, and neither exceeds the last
      rcases hcase3 with ⟨-, rfl⟩ | ⟨-, rfl⟩
      · exact hle2
      · rcases hcase2 with ⟨rfl, rfl⟩ | ⟨rfl, rfl⟩
        · exact hc.trans _ _ _ hle1 hle2
        · exact hle1

/-! ### The partition -/

private theorem scanUp_spec (compar : α → α → Int) (pivot : α) (l : List α) (i : Nat) :
    i ≤ scanUp compar pivot l i ∧ scanUp compar pivot l i ≤ i + l.length ∧
    (∀ k x, l[k]? = some x → i + k < scanUp compar pivot l i → compar x pivot < 0) ∧
    (∀ x, l[scanUp compar pivot l i - i]? = some x → 0 ≤ compar x pivot) := by
  induction l generalizing i with
  | nil => simp [scanUp]
  | cons y l ih =>
    unfold scanUp
    split
    · rename_i hlt
      obtain ⟨h1, h2, h3, h4⟩ := ih (i + 1)
      refine ⟨by omega, by simp only [List.length_cons]; omega, fun k x hx hk => ?_, fun x hx => ?_⟩
      · cases k with
        | zero => simp at hx; exact hx ▸ hlt
        | succ k => exact h3 k x (by simpa using hx) (by omega)
      · apply h4
        rw [show scanUp compar pivot l (i + 1) - i = scanUp compar pivot l (i + 1) - (i + 1) + 1 by omega] at hx
        simpa using hx
    · rename_i hge
      refine ⟨le_rfl, by omega, fun k x hx hk => by omega, fun x hx => ?_⟩
      simp at hx
      subst hx
      omega

private theorem scanDown_spec (compar : α → α → Int) (pivot : α) (arr : List α) (j : Nat) :
    scanDown compar pivot arr j ≤ j ∧
    (∀ k x, arr[k]? = some x → scanDown compar pivot arr j < k → k ≤ j → 0 < compar x pivot) ∧
    (0 < scanDown compar pivot arr j → ∀ x, arr[scanDown compar pivot arr j]? = some x → compar x pivot ≤ 0) := by
  induction j with
  | zero => simp only [scanDown]; exact ⟨le_rfl, fun k x _ h1 h2 => by omega, fun h => by omega⟩
  | succ j ih =>
    unfold scanDown
    split
    · rename_i hgt
      obtain ⟨x', hx', hgt⟩ := hgt
      obtain ⟨h1, h2, h3⟩ := ih
      refine ⟨by omega, fun k x hx hlt hle => ?_, h3⟩
      by_cases hk : k = j + 1
      · subst hk
        rw [Option.mem_def, hx] at hx'
        cases hx'
        exact hgt
      · exact h2 k x hx hlt (by omega)
    · rename_i hngt
      refine ⟨le_rfl, fun k x _ h1 h2 => by omega, fun _ x hx => ?_⟩
      by_contra h
      exact hngt ⟨x, hx, by omega⟩

/-- At the head of the partition loop: nothing above the pivot before `i`, nothing below it after `j`, the first
element not above and the last not below it, and the right end of the left range is inside the array. -/
structure PartInv (compar : α → α → Int) (pivot : α) (arr : List α) (i j : Nat) : Prop where
  before : ∀ k x, arr[k]? = some x → k < i → compar x pivot ≤ 0
  after : ∀ k x, arr[k]? = some x → j < k → 0 ≤ compar x pivot
  first : ∀ x, arr[0]? = some x → compar x pivot ≤ 0
  last : ∀ x, arr[arr.length - 1]? = some x → 0 ≤ compar x pivot
  le : i ≤ j + 1
  lt : j < arr.length
  inside : j + 1 < arr.length ∨ ∃ m x, i ≤ m ∧ m + 1 < arr.length ∧ arr[m]? = some x ∧ 0 ≤ compar x pivot

/-- Where the partition stops. -/
structure Partitioned (compar : α → α → Int) (pivot : α) (arr : List α) (i j : Nat) : Prop where
  left : ∀ k x, arr[k]? = some x → k ≤ j → compar x pivot ≤ 0
  right : ∀ k x, arr[k]? = some x → j < k → 0 ≤ compar x pivot
  ge : j ≤ i
  le : i ≤ j + 1
  lt : j + 1 < arr.length

/-- What the two scans from the head of the loop establish. -/
private theorem scans_spec {pivot : α} {arr : List α} {i j : Nat} (h : PartInv compar pivot arr i j) :
    let i' := scanUp compar pivot (arr.drop i) i
    let j' := scanDown compar pivot arr j
    i ≤ i' ∧ j' ≤ j ∧ i' ≤ j' + 1 ∧
    (∀ k x, arr[k]? = some x → k < i' → compar x pivot ≤ 0) ∧
    (∀ k x, arr[k]? = some x → j' < k → 0 ≤ compar x pivot) ∧
    (∀ x, arr[i']? = some x → 0 ≤ compar x pivot) ∧
    (∀ x, arr[j']? = some x → compar x pivot ≤ 0) ∧
    (j' + 1 < arr.length ∨ i' < j') := by
  intro i' j'
  obtain ⟨hu1, hu2, hu3, hu4⟩ := scanUp_spec compar pivot (arr.drop i) i
  obtain ⟨hd1, hd2, hd3⟩ := scanDown_spec compar pivot arr j
  have hbelow : ∀ k x, arr[k]? = some x → k < i' → compar x pivot ≤ 0 := by
    intro k x hx hk
    by_cases hki : k < i
    · exact h.before k x hx hki
    · have := hu3 (k - i) x (by rw [List.getElem?_drop, Nat.add_sub_cancel' (by omega)]; exact hx)
        (show i + (k - i) < i' by omega)
      omega
  have habove : ∀ k x, arr[k]? = some x → j' < k → 0 ≤ compar x pivot := by
    intro k x hx hk
    by_cases hkj : k ≤ j
    · have := hd2 k x hx hk hkj; omega
    · exact h.after k x hx (by omega)
  have hstop : ∀ x, arr[i']? = some x → 0 ≤ compar x pivot := by
    intro x hx
    apply hu4
    rw [List.getElem?_drop, Nat.add_sub_cancel' hu1]
    exact hx
  have hij' : i ≤ j' + 1 := by
    -- the scan from the right stops at the latest at `i - 1`
    by_contra hcon
    have hlt : i - 1 < arr.length := by have := h.le; have := h.lt; omega
    have hx := List.getElem?_eq_getElem hlt
    have h1 := h.before (i - 1) _ hx (by omega)
    have h2 := hd2 (i - 1) _ hx (by omega) (by have := h.le; omega)
    omega
  have hle : i' ≤ j' + 1 := by
    by_contra hcon
    have hlt : j' + 1 < arr.length := by
      have : i' ≤ i + (arr.drop i).length := hu2
      rw [List.length_drop] at this
      have := h.lt
      omega
    have hx := List.getElem?_eq_getElem hlt
    have h1 := hu3 (j' + 1 - i) arr[j' + 1] (by rw [List.getElem?_drop, Nat.add_sub_cancel' hij']; exact hx)
      (show i + (j' + 1 - i) < i' by omega)
    have h2 := habove (j' + 1) _ hx (by omega)
    omega
  refine ⟨hu1, hd1, hle, hbelow, habove, hstop, fun x hx => ?_, ?_⟩
  · by_cases h0 : 0 < j'
    · exact hd3 h0 x hx
    · rw [show j' = 0 by omega] at hx
      exact h.first x hx
  · rcases h.inside with hin | ⟨m, x, him, hmn, hx, hge⟩
    · left; have : j' ≤ j := hd1; omega
    · -- the pivot's own place stops the scan from the left
      have him' : i' ≤ m := by
        by_contra hcon
        have := hu3 (m - i) x (by rw [List.getElem?_drop, Nat.add_sub_cancel' him]; exact hx)
          (show i + (m - i) < i' by omega)
        omega
      by_cases hj : j' + 1 < arr.length
      · exact .inl hj
      · right; omega

/-- One round of the partition loop keeps its invariant. -/
private theorem partInv_swap {pivot : α} {arr : List α} {i j : Nat} (h : PartInv compar pivot arr i j)
    (hlt : scanUp compar pivot (arr.drop i) i < scanDown compar pivot arr j) :
    PartInv compar pivot (sortSwap arr (scanUp compar pivot (arr.drop i) i) (scanDown compar pivot arr j))
      (scanUp compar pivot (arr.drop i) i + 1) (scanDown compar pivot arr j - 1) := by
  obtain ⟨-, hj, -, hbelow, habove, hi', hj', -⟩ := scans_spec h
  generalize scanUp compar pivot (arr.drop i) i = a at *
  generalize scanDown compar pivot arr j = b at *
  have hb : b < arr.length := by have := h.lt; omega
  have ha : a < arr.length := by omega
  have hget := getElem?_sortSwap ha hb
  have hlen : (sortSwap arr a b).length = arr.length := (sortSwap_perm arr a b).length_eq
  refine ⟨fun k x hx hk => ?_, fun k x hx hk => ?_, fun x hx => ?_, fun x hx => ?_, by omega, by omega, .inl (by omega)⟩
  · rw [hget, if_neg (by omega)] at hx
    split at hx
    · exact hj' x hx
    · exact hbelow k x hx (by omega)
  · rw [hget] at hx
    split at hx
    · exact hi' x hx
    · rw [if_neg (by omega)] at hx
      exact habove k x hx (by omega)
  · rw [hget, if_neg (by omega)] at hx
    split at hx
    · exact hj' x hx
    · exact h.first x hx
  · rw [hget, hlen] at hx
    split at hx
    · exact hi' x hx
    · rw [if_neg (by omega)] at hx
      exact h.last x hx

private theorem partitionLoop_spec {pivot : α} (fuel : Nat) (arr : List α) (i j : Nat)
    (h : PartInv compar pivot arr i j) (hf : j + 1 < fuel + i) :
    ∃ arr' i' j', partitionLoop compar pivot fuel arr i j = some (arr', i', j') ∧ arr'.Perm arr ∧
      Partitioned compar pivot arr' i' j' := by
  induction fuel generalizing arr i j with
  | zero => have := h.le; omega
  | succ fuel ih =>
    simp only [partitionLoop]
    obtain ⟨hi, hj, hle, -, habove, -, hj', hin⟩ := scans_spec h
    have hbelow := (scans_spec h).2.2.2.1
    split
    · rename_i hge
      refine ⟨_, _, _, rfl, List.Perm.refl _, fun k x hx hk => ?_, habove, hge, hle, by omega⟩
      by_cases hkj : k = scanDown compar pivot arr j
      · exact hj' x (hkj ▸ hx)
      · exact hbelow k x hx (by omega)
    · rename_i hlt
      rw [if_pos (by omega)]
      obtain ⟨arr', i', j', heq, hperm, hpart⟩ := ih _ _ _ (partInv_swap h (by omega)) (by omega)
      exact ⟨arr', i', j', heq, hperm.trans (sortSwap_perm _ _ _), hpart⟩

/-- The partition of an array of at least two elements whose middle element is the median of three. -/
theorem sortPartition_spec (hc : TotalPreorder compar) {arr : List α} (hn : 2 ≤ arr.length) :
    ∃ pivot arr' i j, sortPartition compar (sortMedian compar arr) = some (arr', i, j) ∧ arr'.Perm arr ∧
      Partitioned compar pivot arr' i j := by
  obtain ⟨p, a, b, hp, ha, hb, hap, hpb⟩ := sortMedian_spec hc hn
  have hlen : (sortMedian compar arr).length = arr.length := (sortMedian_perm arr).length_eq
  have hinv : PartInv compar p (sortMedian compar arr) 0 (arr.length - 1) := by
    refine ⟨by omega, fun k x hx hk => ?_, fun x hx => ?_, fun x hx => ?_, by omega, by omega,
      .inr ⟨(arr.length - 1) / 2, p, by omega, by omega, hp, Int.le_of_eq (hc.refl p).symm⟩⟩
    · have := (List.getElem?_eq_some_iff.1 hx).1
      omega
    · rw [ha] at hx; cases hx; exact hap
    · rw [hlen, hb] at hx; cases hx; exact hc.le_swap.1 hpb
  unfold sortPartition
  rw [hlen, hp]
  obtain ⟨arr', i, j, heq, hperm, hpart⟩ := partitionLoop_spec (arr.length + 1) _ 0 (arr.length - 1) hinv (by omega)
  exact ⟨p, arr', i, j, heq, hperm.trans (sortMedian_perm arr), hpart⟩

/-! ### The sort without a pivot -/

theorem bubblePass_perm (m : Nat) (l : List α) : (bubblePass compar m l).Perm l := by
  induction m generalizing l with
  | zero => simp [bubblePass]
  | succ m ih =>
    match l with
    | [] => simp [bubblePass]
    | [x] => simp [bubblePass]
    | x :: y :: l =>
      unfold bubblePass
      split
      · exact ((ih (x :: l)).cons y).trans (List.Perm.swap x y l)
      · exact (ih (y :: l)).cons x

/-- The elements of an array, nowhere decreasing. -/
def Sorted (compar : α → α → Int) (l : List α) : Prop := l.Pairwise fun a b => compar a b ≤ 0

/-- A pass permutes the first `m + 1` elements, when it leaves the rest. -/
private theorem mem_of_bubblePass_eq {m : Nat} {l l₁ : List α} {z : α}
    (h : bubblePass compar m l = l₁ ++ z :: l.drop (m + 1)) : (l₁ ++ [z]).Perm (l.take (m + 1)) := by
  have hsplit : (l₁ ++ [z]) ++ l.drop (m + 1) = bubblePass compar m l := by simp [h]
  rw [← List.perm_append_right_iff (l.drop (m + 1)), hsplit, List.take_append_drop]
  exact bubblePass_perm m l

/-- A pass over the first `m + 1` elements moves a greatest of them to their end and leaves the rest. -/
private theorem bubblePass_spec (hc : TotalPreorder compar) (m : Nat) (l : List α) (hm : m < l.length) :
    ∃ l₁ x, bubblePass compar m l = l₁ ++ x :: l.drop (m + 1) ∧ l₁.length = m ∧ ∀ y ∈ l₁, compar y x ≤ 0 := by
  induction m generalizing l with
  | zero =>
    match l, hm with
    | x :: l, _ => exact ⟨[], x, by simp [bubblePass], rfl, by simp⟩
  | succ m ih =>
    match l, hm with
    | [x], hm => simp at hm
    | x :: y :: l, hm =>
      simp only [List.length_cons] at hm
      -- the element carried on is at least `w`, the one left behind, and at most the one that ends the pass
      have carry : ∀ u w : α, compar w u ≤ 0 → ∃ l₁ z, bubblePass compar m (u :: l) = l₁ ++ z :: l.drop m ∧
          (w :: l₁).length = m + 1 ∧ ∀ v ∈ w :: l₁, compar v z ≤ 0 := by
        intro u w hwu
        obtain ⟨l₁, z, heq, hlen, hle⟩ := ih (u :: l) (by simp; omega)
        refine ⟨l₁, z, by simpa using heq, by simp [hlen], fun v hv => ?_⟩
        rcases List.mem_cons.1 hv with rfl | hv
        · have hu : u ∈ l₁ ++ [z] := (mem_of_bubblePass_eq heq).mem_iff.2 (by simp)
          rcases List.mem_append.1 hu with hu | hu
          · exact hc.trans _ _ _ hwu (hle u hu)
          · rw [List.mem_singleton] at hu; exact hu ▸ hwu
        · exact hle v hv
      unfold bubblePass
      split
      · rename_i hgt
        obtain ⟨l₁, z, heq, hlen, hle⟩ := carry x y (by rw [hc.le_swap]; omega)
        exact ⟨y :: l₁, z, by simp [heq], hlen, hle⟩
      · rename_i hngt
        obtain ⟨l₁, z, heq, hlen, hle⟩ := carry y x (by omega)
        exact ⟨x :: l₁, z, by simp [heq], hlen, hle⟩

/-- The array after `k` passes: the last `k` elements are sorted and not less than any before them. -/
private structure BubbleInv (compar : α → α → Int) (arr : List α) (k : Nat) (l : List α) : Prop where
  perm : l.Perm arr
  tail : Sorted compar (l.drop (arr.length - k))
  le : ∀ x ∈ l.take (arr.length - k), ∀ y ∈ l.drop (arr.length - k), compar x y ≤ 0

private theorem bubbleInv_pass (hc : TotalPreorder compar) {arr l : List α} {k : Nat} (hk : k < arr.length)
    (h : BubbleInv compar arr k l) : BubbleInv compar arr (k + 1) (bubblePass compar (arr.length - k - 1) l) := by
  have hlen := h.perm.length_eq
  obtain ⟨l₁, x, heq, hl₁, hle⟩ := bubblePass_spec hc (arr.length - k - 1) l (by omega)
  have hmem := mem_of_bubblePass_eq heq
  rw [show arr.length - k - 1 + 1 = arr.length - k by omega] at heq hmem
  have hcut : arr.length - (k + 1) = l₁.length := by omega
  have hold : ∀ y ∈ l₁ ++ [x], ∀ z ∈ l.drop (arr.length - k), compar y z ≤ 0 :=
    fun y hy z hz => h.le y (hmem.mem_iff.1 hy) z hz
  refine ⟨(bubblePass_perm _ _).trans h.perm, ?_, ?_⟩
  · rw [heq, hcut, List.drop_left]
    exact List.pairwise_cons.2 ⟨fun z hz => hold x (by simp) z hz, h.tail⟩
  · rw [heq, hcut, List.drop_left, List.take_left]
    intro y hy z hz
    rcases List.mem_cons.1 hz with rfl | hz
    · exact hle y hy
    · exact hold y (by simp [hy]) z hz

theorem bubbleSort_spec (hc : TotalPreorder compar) (arr : List α) :
    (bubbleSort compar arr).Perm arr ∧ Sorted compar (bubbleSort compar arr) := by
  have hpasses : ∀ k ≤ arr.length - 1, BubbleInv compar arr k
      ((List.range k).foldl (fun l i => bubblePass compar (arr.length - i - 1) l) arr) := by
    intro k hk
    induction k with
    | zero => exact ⟨List.Perm.refl _, by simp [Sorted], by simp⟩
    | succ k ih =>
      rw [List.range_succ, List.foldl_append]
      exact bubbleInv_pass hc (by omega) (ih (by omega))
  obtain ⟨hperm, htail, hle⟩ := hpasses (arr.length - 1) le_rfl
  refine ⟨hperm, ?_⟩
  -- at most one element is left before the sorted ones
  unfold bubbleSort
  generalize (List.range (arr.length - 1)).foldl (fun l i => bubblePass compar (arr.length - i - 1) l) arr = l at *
  have hlen := hperm.length_eq
  match l with
  | [] => exact List.Pairwise.nil
  | x :: l =>
    simp only [List.length_cons] at hlen
    rw [show arr.length - (arr.length - 1) = 1 by omega] at htail hle
    exact List.pairwise_cons.2 ⟨fun y hy => hle x (by simp) y (by simpa using hy), htail⟩

/-! ### The recursion -/

/-- In no call of the recursion does the partition leave, between the two ranges it sorts next, an element greater
than one after it. -/
def NoneStranded (compar : α → α → Int) (malloced : List Bool → Bool) : Nat → List Bool → List α → Prop
  | 0, _, _ => True
  | fuel + 1, path, arr =>
    2 ≤ arr.length → malloced path = true →
    ∀ arr' i j, sortPartition compar (sortMedian compar arr) = some (arr', i, j) →
      (∀ x, j < i → arr'[i]? = some x → ∀ y ∈ arr'.drop (i + 1), compar x y ≤ 0) ∧
      NoneStranded compar malloced fuel (true :: path) (arr'.take (j + 1)) ∧
      NoneStranded compar malloced fuel (false :: path) (arr'.drop (i + 1))

private theorem noneStranded_of_short {malloced : List Bool → Bool} {arr : List α} (h : arr.length < 2) (fuel : Nat)
    (path : List Bool) : NoneStranded compar malloced fuel path arr := by
  cases fuel with
  | zero => trivial
  | succ fuel => intro h2; omega

private theorem sorted_of_short {arr : List α} (h : arr.length < 2) : Sorted compar arr := by
  match arr with
  | [] => exact List.Pairwise.nil
  | [x] => exact List.pairwise_singleton _ _
  | _ :: _ :: _ =>
    rw [List.length_cons, List.length_cons] at h
    omega

/-- The part of the array between the two ranges: nothing, or the one element `i`. -/
private theorem mem_between {arr : List α} {i j : Nat} (hji : j ≤ i) (hij : i ≤ j + 1) {x : α} :
    x ∈ (arr.take (i + 1)).drop (j + 1) ↔ j < i ∧ arr[i]? = some x := by
  rw [List.mem_iff_getElem?]
  simp only [List.getElem?_drop, List.getElem?_take]
  constructor
  · rintro ⟨k, hk⟩
    split at hk
    · have : j + 1 + k = i := by omega
      exact ⟨by omega, this ▸ hk⟩
    · cases hk
  · rintro ⟨hlt, hx⟩
    exact ⟨0, by rw [if_pos (by omega), show j + 1 + 0 = i by omega, hx]⟩

private theorem take_between_drop (arr : List α) {i j : Nat} (hji : j ≤ i) :
    arr.take (j + 1) ++ (arr.take (i + 1)).drop (j + 1) ++ arr.drop (i + 1) = arr := by
  have h : arr.take (j + 1) = (arr.take (i + 1)).take (j + 1) := by
    rw [List.take_take, Nat.min_eq_left (by omega)]
  rw [h, List.take_append_drop, List.take_append_drop]

/-- Putting the sorted ranges back around the element between them. -/
private theorem sorted_join (hc : TotalPreorder compar) {pivot : α} {arr left right : List α} {i j : Nat}
    (h : Partitioned compar pivot arr i j) (hl : left.Perm (arr.take (j + 1))) (hr : right.Perm (arr.drop (i + 1))) :
    Sorted compar (left ++ (arr.take (i + 1)).drop (j + 1) ++ right) ↔
      Sorted compar left ∧ Sorted compar right ∧
      ∀ x, j < i → arr[i]? = some x → ∀ y ∈ arr.drop (i + 1), compar x y ≤ 0 := by
  have hleft : ∀ x ∈ left, compar x pivot ≤ 0 := by
    intro x hx
    obtain ⟨k, hk⟩ := List.mem_iff_getElem?.1 (hl.mem_iff.1 hx)
    rw [List.getElem?_take] at hk
    split at hk
    · exact h.left k x hk (by omega)
    · cases hk
  have hright : ∀ x ∈ right, compar pivot x ≤ 0 := by
    intro x hx
    obtain ⟨k, hk⟩ := List.mem_iff_getElem?.1 (hr.mem_iff.1 hx)
    rw [List.getElem?_drop] at hk
    have := h.ge
    exact hc.le_swap.2 (h.right (i + 1 + k) x hk (by omega))
  have hmid : ∀ x ∈ (arr.take (i + 1)).drop (j + 1), compar pivot x ≤ 0 := by
    intro x hx
    obtain ⟨hlt, hx⟩ := (mem_between h.ge h.le).1 hx
    exact hc.le_swap.2 (h.right i x hx hlt)
  have hone : Sorted compar ((arr.take (i + 1)).drop (j + 1)) := by
    apply sorted_of_short
    have := h.le
    simp only [List.length_drop, List.length_take]
    omega
  unfold Sorted at *
  rw [List.pairwise_append, List.pairwise_append]
  constructor
  · rintro ⟨⟨hsl, -, -⟩, hsr, hcross⟩
    refine ⟨hsl, hsr, fun x hlt hx y hy => hcross x ?_ y (hr.mem_iff.2 hy)⟩
    exact List.mem_append_right _ ((mem_between h.ge h.le).2 ⟨hlt, hx⟩)
  · rintro ⟨hsl, hsr, hbetween⟩
    refine ⟨⟨hsl, hone, fun x hx y hy => hc.trans _ _ _ (hleft x hx) (hmid y hy)⟩, hsr, fun x hx y hy => ?_⟩
    rcases List.mem_append.1 hx with hx | hx
    · exact hc.trans _ _ _ (hleft x hx) (hright y hy)
    · obtain ⟨hlt, hx⟩ := (mem_between h.ge h.le).1 hx
      exact hbetween x hlt hx y (hr.mem_iff.1 hy)

/-- With a total preorder the recursion ends, permutes the array, and sorts it exactly when nothing is stranded. -/
theorem sortAgain_spec (hc : TotalPreorder compar) (malloced : List Bool → Bool) (fuel : Nat) (path : List Bool)
    (arr : List α) (hf : arr.length < fuel) :
    ∃ r, sortAgain compar malloced fuel path arr = some r ∧ r.Perm arr ∧
      (Sorted compar r ↔ NoneStranded compar malloced fuel path arr) := by
  induction fuel generalizing path arr with
  | zero => omega
  | succ fuel ih =>
    -- a range is sorted by a call or, with one element, not touched
    have range : ∀ (b : Prop) [Decidable b] (path : List Bool) (l : List α), l.length < fuel → (¬b → l.length < 2) →
        ∃ r, (if b then sortAgain compar malloced fuel path l else some l) = some r ∧ r.Perm l ∧
          (Sorted compar r ↔ NoneStranded compar malloced fuel path l) := by
      intro b _ path l hlen hshort
      by_cases hb : b
      · simp only [hb, ↓reduceIte]; exact ih path l hlen
      · simp only [hb, ↓reduceIte]
        exact ⟨l, rfl, List.Perm.refl _, iff_of_true (sorted_of_short (hshort hb))
          (noneStranded_of_short (hshort hb) fuel path)⟩
    unfold sortAgain
    by_cases h2 : arr.length < 2
    · simp only [h2, ↓reduceIte]
      exact ⟨arr, rfl, List.Perm.refl _, iff_of_true (sorted_of_short h2) (noneStranded_of_short h2 _ _)⟩
    · simp only [h2, ↓reduceIte]
      by_cases hm : malloced path = true
      · simp only [hm, ↓reduceIte]
        obtain ⟨pivot, arr', i, j, heq, hperm, hpart⟩ := sortPartition_spec hc (show 2 ≤ arr.length by omega)
        have hlen := hperm.length_eq
        have hj := hpart.lt
        obtain ⟨left, hleq, hlperm, hlsort⟩ := range (j > 0) (true :: path) (arr'.take (j + 1))
          (by rw [List.length_take]; omega) (by intro h; rw [List.length_take]; omega)
        obtain ⟨right, hreq, hrperm, hrsort⟩ := range (i < arr'.length - 1) (false :: path) (arr'.drop (i + 1))
          (by rw [List.length_drop]; omega) (by intro h; rw [List.length_drop]; omega)
        simp only [heq, hleq, hreq, Option.bind_some]
        refine ⟨_, rfl, ?_, ?_⟩
        · refine List.Perm.trans ((hlperm.append_right _).append hrperm) ?_
          rw [take_between_drop arr' hpart.ge]
          exact hperm
        · rw [sorted_join hc hpart hlperm hrperm, hlsort, hrsort]
          constructor
          · rintro ⟨hl, hr, hbetween⟩ _ _ arr'' i' j' heq'
            rw [heq] at heq'
            cases heq'
            exact ⟨hbetween, hl, hr⟩
          · intro h
            obtain ⟨hbetween, hl, hr⟩ := h (by omega) hm arr' i j heq
            exact ⟨hl, hr, hbetween⟩
      · simp only [hm, Bool.false_eq_true, ↓reduceIte]
        obtain ⟨hbperm, hbsort⟩ := bubbleSort_spec hc (sortMedian compar arr)
        exact ⟨_, rfl, hbperm.trans (sortMedian_perm arr), iff_of_true hbsort fun _ hm' => absurd hm' hm⟩

/-! ### `qsort` -/

/-- `compar(a[i], a[i+1]) <= 0` for every `i < nmemb - 1`. -/
def NonDecreasing (compar : α → α → Int) (l : List α) : Prop :=
  ∀ i, ∀ h : i + 1 < l.length, compar l[i] l[i + 1] ≤ 0

theorem nonDecreasing_iff_sorted (hc : TotalPreorder compar) {l : List α} :
    NonDecreasing compar l ↔ Sorted compar l := by
  have : IsTrans α fun a b => compar a b ≤ 0 := ⟨fun a b c => hc.trans a b c⟩
  unfold Sorted
  rw [← List.isChain_iff_pairwise, List.isChain_iff_getElem]
  rfl

/-- For every array, element size and comparator that is a total preorder, whichever pivot allocations succeed,
`qsort_r` (and `qsort`, with the argument bound) returns with a permutation of the array, and it is in non-decreasing
order exactly when no call of the recursion strands an element between its two ranges. -/
theorem qsort_sorted_iff {A : Type*} {compar : α → α → A → Int} {arg : A}
    (hc : TotalPreorder fun a b => compar a b arg) (malloced : List Bool → Bool) {size : Nat} (hsize : 1 ≤ size)
    (arr : List α) :
    ∃ r, qsortR compar arg malloced size arr = some r ∧
      qsort (fun a b => compar a b arg) malloced size arr = some r ∧ r.Perm arr ∧
      (NonDecreasing (fun a b => compar a b arg) r ↔
        NoneStranded (fun a b => compar a b arg) malloced (arr.length + 1) [] arr) := by
  have hq : qsort (fun a b => compar a b arg) malloced size arr = qsortR compar arg malloced size arr := rfl
  rw [hq]
  unfold qsortR
  by_cases h2 : arr.length < 2
  · simp only [h2, or_true, ↓reduceIte]
    refine ⟨arr, rfl, rfl, List.Perm.refl _, ?_⟩
    rw [nonDecreasing_iff_sorted hc]
    exact iff_of_true (sorted_of_short h2) (noneStranded_of_short h2 _ _)
  · rw [if_neg (by omega)]
    obtain ⟨r, heq, hperm, hsort⟩ := sortAgain_spec hc malloced (arr.length + 1) [] arr (by omega)
    exact ⟨r, heq, heq, hperm, by rw [nonDecreasing_iff_sorted hc]; exact hsort⟩

/-- Four integers: the partition of `0, 1, 2, 1` strands the `2`, and the array is returned unsorted. -/
theorem qsort_unsorted_four : ¬∀ r, qsort (fun a b : Int => a - b) (fun _ => true) 4 [0, 1, 2, 1] = some r →
    NonDecreasing (fun a b => a - b) r := by
  intro h
  have hr : qsort (fun a b : Int => a - b) (fun _ => true) 4 [0, 1, 2, 1] = some [0, 1, 2, 1] := by decide
  have := h _ hr 2 (by decide)
  revert this
  decide

/-- Three integers are sorted: whatever the allocations do, no call has a range in which an element can be
stranded. -/
example :
    TotalPreorder (fun a b : Int => sortCall a b fun a b => a - b) ∧
    ∃ r, qsortR sortCall (fun a b : Int => a - b) (fun _ => true) 4 [2, 3, 1] = some r ∧
      qsort (fun a b : Int => sortCall a b fun a b => a - b) (fun _ => true) 4 [2, 3, 1] = some r ∧
      r.Perm [2, 3, 1] ∧
      (NonDecreasing (fun a b : Int => sortCall a b fun a b => a - b) r ↔
        NoneStranded (fun a b : Int => sortCall a b fun a b => a - b) (fun _ => true) 4 [] [2, 3, 1]) := by
  have hc : TotalPreorder (fun a b : Int => sortCall a b fun a b => a - b) :=
    ⟨fun a b => by simp only [sortCall]; omega, fun a b c => by simp only [sortCall]; omega⟩
  exact ⟨hc, qsort_sorted_iff hc (fun _ => true) (by decide) [2, 3, 1]⟩

end JACLibc
