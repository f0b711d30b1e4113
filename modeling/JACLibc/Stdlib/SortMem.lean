import JACLibc.Stdlib.SortSpec
import JACLibc.Lib.Checked

/-!
# `__jacl_sort_again` in memory

The array as it lies in memory: the bytes of its elements, one block of `size` bytes behind the other.  Elements are
compared where they are and swapped byte by byte; to compare or to swap outside the array ends the run with `outside`,
and a recursion that goes on for longer than its fuel with `endless`.

This sort does to the bytes what the sort of `Stdlib.Sort` does to the list of the elements (`sortAgainAt_flat`), so
that it stays inside the array, ends and permutes the elements (`sort_again_safe`).
-/

namespace JACLibc.SortMem

open Compar (TotalPreorder)

/-- The bytes of an element. -/
abbrev Block (size : Nat) : Type := { b : List UInt8 // b.length = size }

/-- Why a run stops. -/
inductive Stop where
  | outside
  | endless
  deriving DecidableEq

section

variable {size : Nat} (compar : Block size → Block size → Int)

/-- The element at a pointer into the array, to be handed to the comparator. -/
def element (size : Nat) (mem : List UInt8) (p : Nat) : Except Stop (Block size) :=
  if h : size ∣ p ∧ p + size ≤ mem.length then
    .ok ⟨(mem.drop p).take size, by rw [List.length_take, List.length_drop]; omega⟩
  else .error .outside

/-- `__jacl_sort_swap` -/
def swapBytes : Nat → List UInt8 → Nat → Nat → Except Stop (List UInt8)
  | 0, mem, _, _ => .ok mem
  | size + 1, mem, a, b =>
    match mem[a]?, mem[b]? with
    | some x, some y => swapBytes size ((mem.set a y).set b x) (a + 1) (b + 1)
    | _, _ => .error .outside

/-- `if (compar(p, q, arg) > 0) __jacl_sort_swap(p, q, size);` -/
def orderAt (mem : List UInt8) (p q : Nat) : Except Stop (List UInt8) := do
  let x ← element size mem p
  let y ← element size mem q
  if compar x y > 0 then swapBytes size mem p q else pure mem

/-- The inner loop of the sort without a pivot, with `m` rounds left. -/
def bubblePassAt (arr : Nat) : Nat → List UInt8 → Nat → Except Stop (List UInt8)
  | 0, mem, _ => pure mem
  | m + 1, mem, j => do
    let mem ← orderAt compar mem (arr + j * size) (arr + (j + 1) * size)
    bubblePassAt arr m mem (j + 1)

/-- The sort without a pivot. -/
def bubbleSortAt (arr nmemb : Nat) (mem : List UInt8) : Except Stop (List UInt8) :=
  (List.range (nmemb - 1)).foldlM (fun mem i => bubblePassAt compar arr (nmemb - i - 1) mem 0) mem

/-- `while (i < nmemb && compar(arr + i * size, pivot, arg) < 0) i++;` -/
def scanUpAt (arr nmemb : Nat) (pivot : Block size) (mem : List UInt8) (i : Nat) : Except Stop Nat :=
  if i < nmemb then do
    let x ← element size mem (arr + i * size)
    if compar x pivot < 0 then scanUpAt arr nmemb pivot mem (i + 1) else pure i
  else pure i
termination_by nmemb - i

/-- `while (j > 0 && compar(arr + j * size, pivot, arg) > 0) j--;` -/
def scanDownAt (arr : Nat) (pivot : Block size) (mem : List UInt8) : Nat → Except Stop Nat
  | 0 => pure 0
  | j + 1 => do
    let x ← element size mem (arr + (j + 1) * size)
    if compar x pivot > 0 then scanDownAt arr pivot mem j else pure (j + 1)

/-- The `while (1)` loop of the partition. -/
def partitionAt (arr nmemb : Nat) (pivot : Block size) : Nat → List UInt8 → Nat → Nat →
    Except Stop (List UInt8 × Nat × Nat)
  | 0, _, _, _ => .error .endless
  | fuel + 1, mem, i, j => do
    let i ← scanUpAt compar arr nmemb pivot mem i
    let j ← scanDownAt compar arr pivot mem j
    if i ≥ j then pure (mem, i, j)
    else do
      let mem ← swapBytes size mem (arr + i * size) (arr + j * size)
      partitionAt arr nmemb pivot fuel mem (i + 1) (if j > 0 then j - 1 else j)

/-- `__jacl_sort_again` on the `nmemb` elements at `arr`; `malloced` tells of each call, named by its path in the tree
of the recursive calls, whether its `malloc` of the pivot succeeds. -/
def sortAgainAt (malloced : List Bool → Bool) : Nat → List Bool → List UInt8 → Nat → Nat → Except Stop (List UInt8)
  | 0, _, _, _, _ => .error .endless
  | fuel + 1, path, mem, arr, nmemb =>
    if nmemb < 2 then pure mem
    else do
      let high := nmemb - 1
      let mid := high / 2
      let mem ← orderAt compar mem (arr + 0 * size) (arr + mid * size)
      let mem ← orderAt compar mem (arr + mid * size) (arr + high * size)
      let mem ← orderAt compar mem (arr + 0 * size) (arr + mid * size)
      if malloced path then do
        let pivot ← element size mem (arr + mid * size)
        let (mem, i, j) ← partitionAt compar arr nmemb pivot (nmemb + 1) mem 0 (nmemb - 1)
        let left := if j > 0 then sortAgainAt malloced fuel (true :: path) mem arr (j + 1) else pure mem
        let mem ← left
        if i < nmemb - 1 then sortAgainAt malloced fuel (false :: path) mem (arr + (i + 1) * size) (nmemb - i - 1)
          else pure mem
      else bubbleSortAt compar arr nmemb mem

end

/-! ### The bytes of a list of elements -/

section

variable {size : Nat}

/-- The elements in memory. -/
def flat (arr : List (Block size)) : List UInt8 := (arr.map Subtype.val).flatten

@[simp]
theorem flat_append (arr arr' : List (Block size)) : flat (arr ++ arr') = flat arr ++ flat arr' := by
  rw [flat, List.map_append, List.flatten_append, flat, flat]

theorem flat_cons (x : Block size) (arr : List (Block size)) : flat (x :: arr) = x.1 ++ flat arr := by
  rw [flat, List.map_cons, List.flatten_cons, flat]

@[simp]
theorem length_flat (arr : List (Block size)) : (flat arr).length = arr.length * size := by
  induction arr with
  | nil => rw [List.length_nil, Nat.zero_mul]; rfl
  | cons x arr ih => rw [flat_cons, List.length_append, x.2, ih, List.length_cons, Nat.succ_mul, Nat.add_comm]

theorem element_flat (pre : List (Block size)) (x : Block size) (post : List (Block size)) :
    element size (flat (pre ++ x :: post)) (pre.length * size) = .ok x := by
  have hfit : size ∣ pre.length * size ∧ pre.length * size + size ≤ (flat (pre ++ x :: post)).length := by
    refine ⟨Nat.dvd_mul_left _ _, ?_⟩
    rw [length_flat, List.length_append, List.length_cons, Nat.add_mul, Nat.succ_mul]
    omega
  have hget : ((flat (pre ++ x :: post)).drop (pre.length * size)).take size = x.1 := by
    rw [flat_append, flat_cons, ← length_flat pre, List.drop_left, List.take_left' x.2]
  rw [element, dif_pos hfit]
  exact congrArg Except.ok (Subtype.ext hget)

/-- Two stretches of bytes change places. -/
theorem swapBytes_apart {xs ys : List UInt8} (h : xs.length = ys.length) (pre mid post : List UInt8) :
    swapBytes xs.length (pre ++ xs ++ mid ++ ys ++ post) pre.length (pre.length + xs.length + mid.length) =
      .ok (pre ++ ys ++ mid ++ xs ++ post) := by
  induction xs generalizing ys pre mid with
  | nil =>
    obtain rfl := List.length_eq_zero_iff.1 h.symm
    rfl
  | cons x xs ih =>
    rcases ys with _ | ⟨y, ys⟩
    · cases h
    have hlen : xs.length = ys.length := Nat.succ.inj h
    -- behind the first bytes, which are in the stretches in front and between
    have hrest := ih hlen (pre ++ [y]) (mid ++ [x])
    have hx : (pre ++ x :: xs ++ mid ++ y :: ys ++ post)[pre.length]? = some x := by simp
    have hy : (pre ++ x :: xs ++ mid ++ y :: ys ++ post)[pre.length + (x :: xs).length + mid.length]? = some y := by
      rw [show pre.length + (x :: xs).length + mid.length = (pre ++ x :: xs ++ mid).length by simp; omega,
        List.append_assoc (pre ++ x :: xs ++ mid), List.getElem?_append_right (Nat.le_refl _)]
      simp
    have hset : ((pre ++ x :: xs ++ mid ++ y :: ys ++ post).set pre.length y).set (pre.length + (x :: xs).length +
      mid.length) x =
        pre ++ [y] ++ xs ++ (mid ++ [x]) ++ ys ++ post := by
      have hfirst : (pre ++ x :: xs ++ mid ++ y :: ys ++ post).set pre.length y = (pre ++ y :: xs ++ mid) ++ y ::
        (ys ++ post) := by
        simp
      rw [hfirst, show pre.length + (x :: xs).length + mid.length = (pre ++ y :: xs ++ mid).length by simp; omega,
        List.set_append_right _ _ (Nat.le_refl _)]
      simp
    have hat : (pre ++ [y]).length + xs.length + (mid ++ [x]).length = pre.length + (x :: xs).length + mid.length +
      1 := by
      simp only [List.length_append, List.length_cons, List.length_nil]
      omega
    rw [hat, List.length_append, List.length_singleton] at hrest
    rw [List.length_cons, swapBytes, ← List.length_cons (a := x), hx, hy]
    dsimp only
    rw [hset, hrest]
    simp

/-- A stretch of bytes is swapped with itself. -/
theorem swapBytes_self (n : Nat) (mem : List UInt8) (a : Nat) (h : a + n ≤ mem.length) :
    swapBytes n mem a a = .ok mem := by
  induction n generalizing a with
  | zero => rfl
  | succ n ih =>
    have hset : (mem.set a mem[a]).set a mem[a] = mem := by rw [List.set_set, List.set_getElem_self]
    rw [swapBytes, List.getElem?_eq_getElem (show a < mem.length by omega)]
    dsimp only
    rw [hset, ih (a + 1) (by omega)]

end

/-! ### The sort on the bytes and the sort on the list -/

section

variable {size : Nat} (compar : Block size → Block size → Int) (pre post : List (Block size))

theorem element_at {arr : List (Block size)} {i : Nat} {x : Block size} (hx : arr[i]? = some x) :
    element size (flat (pre ++ arr ++ post)) (pre.length * size + i * size) = .ok x := by
  obtain ⟨hi, rfl⟩ := List.getElem?_eq_some_iff.1 hx
  have hsplit : pre ++ arr ++ post = (pre ++ arr.take i) ++ arr[i] :: (arr.drop (i + 1) ++ post) := by
    rw [List.append_assoc, List.append_assoc, ← List.cons_append, ← List.drop_eq_getElem_cons hi, ← List.append_assoc
      (arr.take i), List.take_append_drop]
  have hat : pre.length * size + i * size = (pre ++ arr.take i).length * size := by
    rw [List.length_append, List.length_take, Nat.min_eq_left (Nat.le_of_lt hi), Nat.add_mul]
  rw [hsplit, hat]
  exact element_flat _ _ _

/-- Two places of a list, and what is in front of, between and behind them. -/
theorem exists_places {arr : List (Block size)} {i j : Nat} (hij : i < j) (hj : j < arr.length) :
    ∃ A x B y C, arr = A ++ x :: (B ++ y :: C) ∧ A.length = i ∧ i + 1 + B.length = j := by
  refine ⟨arr.take i, arr[i], (arr.drop (i + 1)).take (j - (i + 1)), arr[j], arr.drop (j + 1), ?_, ?_, ?_⟩
  · have hrest : arr.drop j = (arr.drop (i + 1)).drop (j - (i + 1)) := by
      rw [List.drop_drop, show i + 1 + (j - (i + 1)) = j by omega]
    rw [← List.drop_eq_getElem_cons hj, hrest,
      List.take_append_drop, ← List.drop_eq_getElem_cons (show i < arr.length by omega), List.take_append_drop]
  · rw [List.length_take]
    omega
  · rw [List.length_take, List.length_drop]
    omega

theorem sortSwap_places (A B C : List (Block size)) (x y : Block size) :
    sortSwap (A ++ x :: (B ++ y :: C)) A.length (A.length + 1 + B.length) = A ++ y :: (B ++ x :: C) := by
  have hx : (A ++ x :: (B ++ y :: C))[A.length]? = some x := by simp
  have hy : (A ++ x :: (B ++ y :: C))[A.length + 1 + B.length]? = some y := by
    rw [List.getElem?_append_right (by omega), show A.length + 1 + B.length - A.length = B.length + 1 by omega]
    simp
  rw [sortSwap, hx, hy]
  dsimp only
  rw [List.set_append_right _ _ (Nat.le_refl _), Nat.sub_self, List.set_cons_zero, List.set_append_right _ _ (by omega),
    show A.length + 1 + B.length - A.length = B.length + 1 by
      omega, List.set_cons_succ, List.set_append_right _ _ (Nat.le_refl _),
    Nat.sub_self, List.set_cons_zero]

theorem swapBytes_flat {arr : List (Block size)} {i j : Nat} (hij : i ≤ j) (hj : j < arr.length) :
    swapBytes size (flat (pre ++ arr ++ post)) (pre.length * size + i * size) (pre.length * size + j * size) =
      .ok (flat (pre ++ sortSwap arr i j ++ post)) := by
  rcases Nat.eq_or_lt_of_le hij with rfl | hlt
  · have hself : sortSwap arr i i = arr := by
      rw [sortSwap, List.getElem?_eq_getElem hj]
      dsimp only
      rw [List.set_set, List.set_getElem_self]
    rw [hself]
    apply swapBytes_self
    rw [length_flat, List.length_append, List.length_append, ← Nat.add_mul, ← Nat.succ_mul]
    exact Nat.mul_le_mul_right _ (by omega)
  · obtain ⟨A, x, B, y, C, rfl, rfl, rfl⟩ := exists_places hlt hj
    have hswap := swapBytes_apart (x.2.trans y.2.symm) (flat (pre ++ A)) (flat B) (flat (C ++ post))
    have hat : (flat (pre ++ A)).length + x.1.length + (flat B).length = pre.length * size +
      (A.length + 1 + B.length) * size := by
      rw [length_flat, length_flat, x.2, List.length_append, Nat.add_mul, Nat.add_mul, Nat.add_mul, Nat.one_mul]
      omega
    have hfrom : flat (pre ++ (A ++ x :: (B ++ y :: C)) ++ post) = flat (pre ++ A) ++ x.1 ++ flat B ++ y.1 ++
      flat (C ++ post) := by
      simp only [flat_append, flat_cons, List.append_assoc]
    have hto : flat (pre ++ (A ++ y :: (B ++ x :: C)) ++ post) = flat (pre ++ A) ++ y.1 ++ flat B ++ x.1 ++
      flat (C ++ post) := by
      simp only [flat_append, flat_cons, List.append_assoc]
    rw [hat, length_flat, List.length_append, Nat.add_mul, x.2] at hswap
    rw [sortSwap_places, hfrom, hto, hswap]

theorem orderAt_flat {arr : List (Block size)} {i j : Nat} (hij : i ≤ j) (hj : j < arr.length) :
    orderAt compar (flat (pre ++ arr ++ post)) (pre.length * size + i * size) (pre.length * size + j * size) =
      .ok (flat (pre ++ sortSwapIf compar i j arr ++ post)) := by
  have hx : arr[i]? = some arr[i] := List.getElem?_eq_getElem (by omega)
  have hy : arr[j]? = some arr[j] := List.getElem?_eq_getElem hj
  rw [orderAt, element_at pre post hx, ok_bind, element_at pre post hy, ok_bind, sortSwapIf, hx, hy]
  dsimp only
  split
  · exact swapBytes_flat pre post hij hj
  · rfl

theorem bubblePassAt_flat (m : Nat) (A l : List (Block size)) (hm : m < l.length) :
    bubblePassAt compar (pre.length * size) m (flat (pre ++ (A ++ l) ++ post)) A.length =
      .ok (flat (pre ++ (A ++ bubblePass compar m l) ++ post)) := by
  induction m generalizing A l with
  | zero => simp [bubblePassAt, bubblePass]; rfl
  | succ m ih =>
    obtain ⟨x, y, l, rfl⟩ : ∃ x y l', l = x :: y :: l' := by
      rcases l with _ | ⟨x, _ | ⟨y, l'⟩⟩
      · cases hm
      · simp at hm
      · exact ⟨x, y, l', rfl⟩
    have hlen : m < (x :: l).length := Nat.lt_of_succ_lt_succ hm
    have horder := @orderAt_flat _ compar pre post (A ++ x :: y :: l) _ _ (Nat.le_succ A.length) (by simp)
    have hx : (A ++ x :: y :: l)[A.length]? = some x := by simp
    have hy : (A ++ x :: y :: l)[A.length + 1]? = some y := by simp
    rw [sortSwapIf, hx, hy] at horder
    dsimp only at horder
    rw [bubblePassAt, horder, ok_bind, bubblePass]
    have hnext : ∀ (z : Block size) (l' : List (Block size)), m < l'.length →
        bubblePassAt compar (pre.length * size) m (flat (pre ++ (A ++ z :: l') ++ post)) (A.length + 1) =
          .ok (flat (pre ++ (A ++ z :: bubblePass compar m l') ++ post)) := by
      intro z l' hl'
      have h := ih (A ++ [z]) l' hl'
      simpa using h
    split
    · have hswap := sortSwap_places A [] l x y
      rw [List.nil_append, List.nil_append, List.length_nil, Nat.add_zero] at hswap
      rw [hswap]
      exact hnext y (x :: l) hlen
    · exact hnext x (y :: l) hlen

theorem bubbleSortAt_flat (arr : List (Block size)) :
    bubbleSortAt compar (pre.length * size) arr.length (flat (pre ++ arr ++ post)) =
    .ok (flat (pre ++ bubbleSort compar arr ++ post)) := by
  have hpasses : ∀ (is : List Nat) (l : List (Block size)), (∀ i ∈ is, i < arr.length - 1) → l.length = arr.length →
      is.foldlM (fun mem i => bubblePassAt compar (pre.length * size) (arr.length - i - 1) mem 0)
      (flat (pre ++ l ++ post)) =
        .ok (flat (pre ++ is.foldl (fun l i => bubblePass compar (arr.length - i - 1) l) l ++ post)) := by
    intro is
    induction is with
    | nil => intro l _ _; rfl
    | cons i is ih =>
      intro l his hl
      have hi := his i List.mem_cons_self
      have hpass := bubblePassAt_flat compar pre post (arr.length - i - 1) [] l (by omega)
      rw [List.nil_append, List.nil_append, List.length_nil] at hpass
      rw [List.foldlM_cons, hpass, ok_bind, List.foldl_cons]
      exact ih _ (fun k hk => his k (List.mem_cons_of_mem _ hk)) ((bubblePass_perm _ _).length_eq.trans hl)
  exact hpasses _ arr (fun i hi => List.mem_range.1 hi) rfl

end

/-! ### The recursion -/

section

variable {size : Nat} (compar : Block size → Block size → Int) (pre post : List (Block size))

theorem scanUpAt_flat (pivot : Block size) {arr : List (Block size)} (i : Nat) (hi : i ≤ arr.length) :
    scanUpAt compar (pre.length * size) arr.length pivot (flat (pre ++ arr ++ post)) i =
    .ok (scanUp compar pivot (arr.drop i) i) := by
  obtain ⟨k, hk⟩ : ∃ k, arr.length - i = k := ⟨_, rfl⟩
  induction k generalizing i with
  | zero =>
    rw [scanUpAt, if_neg (by omega), List.drop_eq_nil_of_le (by omega), scanUp]
    rfl
  | succ k ih =>
    have hlt : i < arr.length := by omega
    rw [scanUpAt, if_pos hlt, element_at pre post (List.getElem?_eq_getElem hlt), ok_bind,
      List.drop_eq_getElem_cons hlt, scanUp]
    split
    · exact ih (i + 1) hlt (by omega)
    · rfl

theorem scanDownAt_flat (pivot : Block size) {arr : List (Block size)} (j : Nat) (hj : j < arr.length) :
    scanDownAt compar (pre.length * size) pivot (flat (pre ++ arr ++ post)) j = .ok (scanDown compar pivot arr j) := by
  induction j with
  | zero => rfl
  | succ j ih =>
    have hx : arr[j + 1]? = some arr[j + 1] := List.getElem?_eq_getElem hj
    have hex : (∃ x ∈ arr[j + 1]?, compar x pivot > 0) ↔ compar arr[j + 1] pivot > 0 := by
      rw [hx]
      exact ⟨fun ⟨x, hx, hgt⟩ => by rwa [Option.some.inj hx], fun hgt => ⟨_, rfl, hgt⟩⟩
    rw [scanDownAt, element_at pre post hx, ok_bind, scanDown]
    simp only [hex]
    split
    · exact ih (by omega)
    · rfl

theorem scanDown_le (pivot : Block size) (arr : List (Block size)) (j : Nat) : scanDown compar pivot arr j ≤ j := by
  induction j with
  | zero => exact Nat.le_refl _
  | succ j ih =>
    rw [scanDown]
    split
    · exact ih.trans (Nat.le_succ j)
    · exact Nat.le_refl _

theorem length_sortSwap (arr : List (Block size)) (i j : Nat) : (sortSwap arr i j).length = arr.length :=
  (sortSwap_perm arr i j).length_eq

theorem partitionAt_flat (pivot : Block size) (fuel : Nat) {arr : List (Block size)} {i j : Nat} (hi : i ≤ arr.length)
    (hj : j < arr.length) {r : List (Block size) × Nat × Nat} (h : partitionLoop compar pivot fuel arr i j = some r) :
    partitionAt compar (pre.length * size) arr.length pivot fuel (flat (pre ++ arr ++ post)) i j =
    .ok (flat (pre ++ r.1 ++ post), r.2) := by
  induction fuel generalizing arr i j with
  | zero => cases h
  | succ fuel ih =>
    have hdown := scanDown_le compar pivot arr j
    rw [partitionLoop] at h
    rw [partitionAt, scanUpAt_flat compar pre post pivot i hi, ok_bind,
      scanDownAt_flat compar pre post pivot j hj, ok_bind]
    generalize scanUp compar pivot (arr.drop i) i = a at h ⊢
    generalize scanDown compar pivot arr j = b at h hdown ⊢
    split at h
    · rename_i hge
      rw [if_pos hge, ← Option.some.inj h]
      rfl
    · rename_i hlt
      have hlen := length_sortSwap arr a b
      rw [if_neg hlt, swapBytes_flat pre post (by omega) (by omega), ok_bind, ← hlen]
      refine ih (by omega) ?_ h
      split <;> omega

variable (malloced : List Bool → Bool)

/-- The sort in memory does what the sort of the list of the elements does. -/
theorem sortAgainAt_flat (hc : TotalPreorder compar) (fuel : Nat) (path : List Bool) (arr : List (Block size))
    (hf : arr.length < fuel) {r : List (Block size)} (h : sortAgain compar malloced fuel path arr = some r) :
    sortAgainAt compar malloced fuel path (flat (pre ++ arr ++ post)) (pre.length * size) arr.length =
    .ok (flat (pre ++ r ++ post)) := by
  induction fuel generalizing path pre post arr r with
  | zero => cases h
  | succ fuel ih =>
    rw [sortAgain] at h
    rw [sortAgainAt]
    by_cases h2 : arr.length < 2
    · rw [if_pos h2] at h ⊢
      rw [Option.some.inj h]
      rfl
    rw [if_neg h2] at h ⊢
    dsimp only at h ⊢
    have hlen : (sortMedian compar arr).length = arr.length := (sortMedian_perm arr).length_eq
    have hmed : ∀ l : List (Block size), l.length = arr.length → ∀ i j, (sortSwapIf compar i j l).length = arr.length :=
      fun l hl i j => (sortSwapIf_perm i j l).length_eq.trans hl
    have hmedian : sortMedian compar arr = sortSwapIf compar 0 ((arr.length - 1) / 2)
      (sortSwapIf compar ((arr.length - 1) / 2)
      (arr.length - 1) (sortSwapIf compar 0 ((arr.length - 1) / 2) arr)) := rfl
    rw [orderAt_flat compar pre post (Nat.zero_le _) (by omega), ok_bind,
      orderAt_flat compar pre post (by omega) (by rw [hmed arr rfl]; omega), ok_bind,
      orderAt_flat compar pre post (Nat.zero_le _) (by rw [hmed _ (hmed arr rfl _ _)]; omega), ok_bind, ← hmedian]
    by_cases hm : malloced path = true
    · rw [if_pos hm] at h ⊢
      obtain ⟨pivot, l, i, j, hpart, hperm, hparted⟩ := sortPartition_spec hc (show 2 ≤ arr.length by omega)
      have hl := hperm.length_eq
      have hj := hparted.lt
      have hmid : (arr.length - 1) / 2 < (sortMedian compar arr).length := by omega
      rw [hpart] at h
      dsimp only at h
      rw [sortPartition, hlen, List.getElem?_eq_getElem hmid] at hpart
      have hpivot : element size (flat (pre ++ sortMedian compar arr ++ post)) (pre.length * size +
        (arr.length - 1) / 2 * size) =
          .ok (sortMedian compar arr)[(arr.length - 1) / 2] := element_at pre post (List.getElem?_eq_getElem hmid)
      have hpartAt := partitionAt_flat compar pre post _ (arr.length + 1) (Nat.zero_le _) (show arr.length - 1 <
        _ by omega) hpart
      rw [hlen] at hpartAt
      rw [hpivot, ok_bind, hpartAt, ok_bind]
      dsimp only
      -- the range on the left
      obtain ⟨left, hleft, h⟩ := Option.bind_eq_some_iff.1 h
      obtain ⟨right, hright, h⟩ := Option.bind_eq_some_iff.1 h
      have hleftLen : (l.take (j + 1)).length = j + 1 := by
        rw [List.length_take]
        omega
      have hleftAt : (if j > 0 then sortAgainAt compar malloced fuel (true :: path) (flat (pre ++ l ++ post))
        (pre.length * size) (j + 1)
          else pure (flat (pre ++ l ++ post))) = .ok (flat (pre ++ (left ++ l.drop (j + 1)) ++ post)) := by
        split at hleft
        · rename_i hj0
          have hrec := ih pre (l.drop (j + 1) ++ post) (true :: path) (l.take (j + 1)) (by omega) hleft
          rw [hleftLen] at hrec
          have hwhole : pre ++ l ++ post = pre ++ l.take (j + 1) ++ (l.drop (j + 1) ++ post) := by
            rw [List.append_assoc pre, List.append_assoc pre, ← List.append_assoc (l.take (j + 1)),
              List.take_append_drop]
          rw [if_pos hj0, hwhole, hrec]
          simp
        · rename_i hj0
          rw [if_neg hj0, ← Option.some.inj hleft, List.take_append_drop]
          rfl
      have hleftPerm : left.length = j + 1 := by
        split at hleft
        · obtain ⟨r', hr', hperm', -⟩ := sortAgain_spec hc malloced fuel (true :: path) (l.take (j + 1)) (by omega)
          rw [hr'] at hleft
          rw [← Option.some.inj hleft, hperm'.length_eq, hleftLen]
        · rw [← Option.some.inj hleft, hleftLen]
      rw [hleftAt, ok_bind]
      -- the range on the right, behind the sorted one and the element between them
      have hbetween : l.drop (j + 1) = (l.take (i + 1)).drop (j + 1) ++ l.drop (i + 1) := by
        rw [← List.drop_append_of_le_length, List.take_append_drop]
        rw [List.length_take]
        have := hparted.ge
        omega
      have hrightLen : (left ++ (l.take (i + 1)).drop (j + 1)).length = i + 1 := by
        rw [List.length_append, hleftPerm, List.length_drop, List.length_take]
        have := hparted.ge
        have := hparted.le
        omega
      rw [← Option.some.inj h, hbetween]
      split at hright
      · rename_i hi
        have hrec := ih (pre ++ (left ++ (l.take (i + 1)).drop (j + 1))) post (false :: path) (l.drop (i + 1)) (by
          rw [List.length_drop]; omega) hright
        rw [List.length_append, hrightLen, Nat.add_mul, List.length_drop] at hrec
        rw [if_pos (by omega), ← hl, Nat.sub_sub]
        simpa [← List.append_assoc] using hrec
      · rename_i hi
        rw [if_neg (by omega), ← Option.some.inj hright]
        simp [← List.append_assoc]
        rfl
    · rw [if_neg hm] at h ⊢
      have hbubble := bubbleSortAt_flat compar pre post (sortMedian compar arr)
      rw [hlen] at hbubble
      rw [hbubble, Option.some.inj h]

end

/-- For a comparator that is a total preorder on the elements, whichever pivot allocations succeed,
`__jacl_sort_again` on an array of any length ends, compares and swaps nothing outside the array, and leaves a
permutation of its elements there. -/
theorem sort_again_safe {size : Nat} {A : Type*} (compar : Block size → Block size → A → Int) (arg : A)
    (hc : TotalPreorder fun a b => compar a b arg) (malloced : List Bool → Bool) (arr : List (Block size)) :
    ∃ r, sortAgainAt (fun a b => compar a b arg) malloced (arr.length + 1) [] (flat arr) 0 arr.length = .ok (flat r) ∧
    r.Perm arr := by
  obtain ⟨r, hr, hperm, -⟩ := sortAgain_spec hc malloced (arr.length + 1) [] arr (Nat.lt_succ_self _)
  have hflat := sortAgainAt_flat (fun a b => compar a b arg) [] [] malloced hc (arr.length + 1) [] arr
    (Nat.lt_succ_self _) hr
  simp only [List.nil_append, List.append_nil, List.length_nil, Nat.zero_mul] at hflat
  exact ⟨r, hflat, hperm⟩

/-- Three elements of two bytes, by their first bytes. -/
theorem sort_again_safe_three :
    TotalPreorder (fun a b : Block 2 => (a.1.headD 0).toNat - ((b.1.headD 0).toNat : Int)) ∧
    ∃ r : List (Block 2), sortAgainAt (fun a b : Block 2 => (a.1.headD 0).toNat - ((b.1.headD 0).toNat : Int))
    (fun _ => true) 4 []
      (flat [⟨[2, 7], rfl⟩, ⟨[1, 8], rfl⟩, ⟨[2, 9], rfl⟩]) 0 3 = .ok (flat r) ∧
      r.Perm [⟨[2, 7], rfl⟩, ⟨[1, 8], rfl⟩, ⟨[2, 9], rfl⟩] := by
  have hc : TotalPreorder (fun a b : Block 2 => (a.1.headD 0).toNat - ((b.1.headD 0).toNat : Int)) :=
    ⟨fun a b => by omega, fun a b c => by omega⟩
  exact ⟨hc, sort_again_safe (fun a b _ => (a.1.headD 0).toNat - ((b.1.headD 0).toNat : Int)) () hc (fun _ => true)
    [⟨[2, 7], rfl⟩, ⟨[1, 8], rfl⟩, ⟨[2, 9], rfl⟩]⟩

end JACLibc.SortMem
