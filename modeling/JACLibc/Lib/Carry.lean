import Mathlib.Data.Nat.Log
import Mathlib.Tactic.Ring

/-!
# Trees from a binary counter

Leaves come one after another, and the perfect trees over them are kept on a stack like the digits of a binary
counter: a new leaf is merged with as many trees of the stack as the counter has carries (`merge_stack`).  The tree
over `n` leaves has the largest power of two below `n` of them on its left.
-/

namespace Carry

variable {α : Type*} (node : α → α → α)

/-- Two trees at a time are merged while the count is even; the last tree comes first. -/
def merge : List α → Nat → List α
  | right :: left :: trees, count =>
    if count % 2 = 0 then merge (node left right :: trees) (count / 2) else right :: left :: trees
  | trees, _ => trees
termination_by trees => trees.length

variable (leaf : Nat → α)

/-- The perfect tree over block `i` of `2 ^ a` leaves. -/
def block : Nat → Nat → α
  | 0, i => leaf i
  | a + 1, i => node (block a (2 * i)) (block a (2 * i + 1))

/-- The trees over the first `n` blocks of `2 ^ a` leaves, one for each 1 among the digits of `n`. -/
def stack (a n : Nat) : List α :=
  if n = 0 then []
  else if n % 2 = 1 then block node leaf a (n - 1) :: stack (a + 1) (n / 2)
  else stack (a + 1) (n / 2)
termination_by n

/-- The tree over the `n` leaves from `start` on. -/
def tree (start n : Nat) : α :=
  if n ≤ 1 then leaf start
  else node (tree start (2 ^ (n - 1).log2)) (tree (start + 2 ^ (n - 1).log2) (n - 2 ^ (n - 1).log2))
termination_by n
decreasing_by
  · have := Nat.log2_self_le (n := n - 1) (by omega)
    omega
  · have := Nat.two_pow_pos (n - 1).log2
    omega

variable {node leaf}

theorem stack_zero (a : Nat) : stack node leaf a 0 = [] := by
  rw [stack, if_pos rfl]

theorem stack_odd (a m : Nat) : stack node leaf a (2 * m + 1) = block node leaf a (2 * m) ::
    stack node leaf (a + 1) m := by
  rw [stack, if_neg (Nat.succ_ne_zero _), if_pos (by omega), Nat.add_sub_cancel, show (2 * m + 1) / 2 = m by omega]

theorem stack_even (a m : Nat) : stack node leaf a (2 * m) = stack node leaf (a + 1) m := by
  by_cases hm : m = 0
  · rw [hm, Nat.mul_zero, stack_zero, stack_zero]
  · rw [stack, if_neg (by omega), if_neg (by omega), Nat.mul_div_cancel_left m (by decide)]

theorem merge_odd (trees : List α) {count : Nat} (h : count % 2 = 1) : merge node trees count = trees := by
  match trees with
  | [] => rw [merge]; simp
  | [x] => rw [merge]; simp
  | x :: y :: trees => rw [merge, if_neg (by omega)]

/-- A new block is merged with the ones that it completes. -/
theorem merge_stack (a n : Nat) : merge node (block node leaf a n :: stack node leaf a n) (n + 1) =
    stack node leaf a (n + 1) := by
  induction n using Nat.strong_induction_on generalizing a with
  | _ n ih =>
    obtain ⟨m, rfl | rfl⟩ := Nat.even_or_odd' n
    · rw [merge_odd _ (by omega), stack_even, stack_odd]
    · rw [stack_odd, merge, if_pos (by omega), show (2 * m + 1 + 1) / 2 = m +
        1 by omega, show 2 * m + 1 + 1 = 2 * (m + 1) by omega, stack_even]
      exact ih m (by omega) (a + 1)

theorem stack_eq_nil (a n : Nat) : stack node leaf a n = [] ↔ n = 0 := by
  induction n using Nat.strong_induction_on generalizing a with
  | _ n ih =>
    obtain ⟨m, rfl | rfl⟩ := Nat.even_or_odd' n
    · rw [stack_even]
      by_cases hm : m = 0
      · rw [hm, stack_zero]
        exact iff_of_true rfl rfl
      · rw [ih m (by omega)]
        omega
    · rw [stack_odd]
      simp

theorem stack_two_pow (a k : Nat) : stack node leaf a (2 ^ k) = [block node leaf (a + k) 0] := by
  induction k generalizing a with
  | zero => exact (stack_odd a 0).trans (by rw [stack_zero]; rfl)
  | succ k ih => rw [Nat.pow_succ', stack_even, ih, Nat.add_right_comm, Nat.add_assoc]

/-- Only a power of two leaves a single tree. -/
theorem two_pow_of_stack {a n : Nat} {x : α} (h : stack node leaf a n = [x]) : ∃ k, n = 2 ^ k := by
  induction n using Nat.strong_induction_on generalizing a with
  | _ n ih =>
    obtain ⟨m, rfl | rfl⟩ := Nat.even_or_odd' n
    · have hm : m ≠ 0 := by
        rintro rfl
        rw [Nat.mul_zero, stack_zero] at h
        exact absurd h (by simp)
      rw [stack_even] at h
      obtain ⟨k, hk⟩ := ih m (by omega) h
      exact ⟨k + 1, by rw [hk, Nat.pow_succ']⟩
    · rw [stack_odd] at h
      have hm := (stack_eq_nil (a + 1) m).1 (List.cons.inj h).2
      exact ⟨0, by rw [hm]; rfl⟩

/-- What leaves and nodes have, the trees on the stack have. -/
theorem forall_stack {p : α → Prop} (hleaf : ∀ i, p (leaf i)) (hnode : ∀ x y, p (node x y)) (a n : Nat) :
    ∀ x ∈ stack node leaf a n, p x := by
  induction n using Nat.strong_induction_on generalizing a with
  | _ n ih =>
    obtain ⟨m, rfl | rfl⟩ := Nat.even_or_odd' n
    · by_cases hm : m = 0
      · rw [hm, Nat.mul_zero, stack_zero]
        simp
      · rw [stack_even]
        exact ih m (by omega) (a + 1)
    · rw [stack_odd]
      intro x hx
      rcases List.mem_cons.1 hx with rfl | hx
      · cases a with
        | zero => exact hleaf _
        | succ a => exact hnode _ _
      · exact ih m (by omega) (a + 1) x hx

theorem log2_pred {n k : Nat} (hlt : 2 ^ k < n) (hle : n ≤ 2 ^ (k + 1)) : (n - 1).log2 = k := by
  have hpos := Nat.two_pow_pos k
  rw [Nat.log2_eq_iff (by omega)]
  omega

theorem tree_one (start : Nat) : tree node leaf start 1 = leaf start := by
  rw [tree, if_pos (Nat.le_refl 1)]

theorem tree_node {start n k : Nat} (hlt : 2 ^ k < n) (hle : n ≤ 2 ^ (k + 1)) :
    tree node leaf start n = node (tree node leaf start (2 ^ k)) (tree node leaf (start + 2 ^ k) (n - 2 ^ k)) := by
  have hpos := Nat.two_pow_pos k
  rw [tree, if_neg (by omega), log2_pred hlt hle]

theorem tree_two_pow (a i : Nat) : tree node leaf (2 ^ a * i) (2 ^ a) = block node leaf a i := by
  induction a generalizing i with
  | zero => rw [Nat.pow_zero, Nat.one_mul, tree_one, block]
  | succ a ih =>
    have hpos := Nat.two_pow_pos a
    have hhalf : 2 ^ (a + 1) - 2 ^ a = 2 ^ a := by
      rw [Nat.pow_succ]
      omega
    have hleft : 2 ^ (a + 1) * i = 2 ^ a * (2 * i) := by ring
    rw [tree_node (k := a) (by rw [Nat.pow_succ]; omega) (Nat.le_refl _), hhalf, hleft, ih, block]
    rw [show 2 ^ a * (2 * i) + 2 ^ a = 2 ^ a * (2 * i + 1) by ring, ih]

/-- What its leaves and all nodes have, the tree has. -/
theorem tree_of {p : α → Prop} (hnode : ∀ x y, p x → p y → p (node x y)) {start n : Nat} (hn : 0 < n)
    (hleaf : ∀ i < start + n, p (leaf i)) : p (tree node leaf start n) := by
  induction start, n using tree.induct with
  | case1 start n h =>
    rw [tree, if_pos h]
    exact hleaf start (by omega)
  | case2 start n h ihl ihr =>
    have hle := Nat.log2_self_le (n := n - 1) (by omega)
    have hpos := Nat.two_pow_pos (n - 1).log2
    rw [tree, if_neg h]
    apply hnode
    · exact ihl hpos fun i hi => hleaf i (by omega)
    · exact ihr (by omega) fun i hi => hleaf i (by omega)

end Carry
