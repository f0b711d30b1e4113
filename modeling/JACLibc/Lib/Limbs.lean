import Mathlib.Tactic.Linarith
import Mathlib.Tactic.Ring
import Mathlib.Tactic.LinearCombination

/-!
# Integers in limbs

A list of limbs in radix `2 ^ w`, the lowest first; a limb may be negative or too large.  `carry` brings the limbs
into range and keeps the value, but for what it carries out of the last one.
-/

namespace Limbs

def value (w : Nat) : List Int → Int
  | [] => 0
  | x :: xs => x + 2 ^ w * value w xs

/-- Every limb takes the carry of the one before it and keeps its remainder. -/
def carry (w : Nat) : Int → List Int → List Int × Int
  | c, [] => ([], c)
  | c, x :: xs => ((x + c) % 2 ^ w :: (carry w ((x + c) >>> w) xs).1, (carry w ((x + c) >>> w) xs).2)

/-- Limbs between zero and the radix. -/
def InRange (w : Nat) (xs : List Int) : Prop := ∀ x ∈ xs, 0 ≤ x ∧ x < 2 ^ w

variable {w : Nat}

theorem value_append (xs ys : List Int) : value w (xs ++ ys) = value w xs + 2 ^ (w * xs.length) * value w ys := by
  induction xs with
  | nil => simp [value]
  | cons x xs ih =>
    rw [List.cons_append, value, value, ih, List.length_cons, Nat.mul_succ, pow_add]
    ring

theorem value_singleton (x : Int) : value w [x] = x := by
  rw [value, value, mul_zero, add_zero]

theorem value_zip {xs ys : List Int} (hlen : xs.length = ys.length) (c : Int) :
    value w ((xs.zip ys).map fun p => p.1 + p.2 * c) = value w xs + c * value w ys := by
  induction xs generalizing ys with
  | nil =>
    obtain rfl := List.length_eq_zero_iff.1 hlen.symm
    simp [value]
  | cons x xs ih =>
    obtain ⟨y, ys, rfl⟩ := List.exists_cons_of_length_eq_add_one hlen.symm
    rw [List.zip_cons_cons, List.map_cons, value, value, value, ih (Nat.succ.inj hlen)]
    ring

@[simp] theorem length_carry (c : Int) (xs : List Int) : (carry w c xs).1.length = xs.length := by
  induction xs generalizing c with
  | nil => rfl
  | cons x xs ih => rw [carry, List.length_cons, List.length_cons, ih]

theorem value_carry (c : Int) (xs : List Int) :
    value w (carry w c xs).1 + 2 ^ (w * xs.length) * (carry w c xs).2 = value w xs + c := by
  induction xs generalizing c with
  | nil => simp [carry, value]
  | cons x xs ih =>
    have hdiv := Int.mul_ediv_add_emod (x + c) (2 ^ w)
    have hrest := ih ((x + c) >>> w)
    rw [carry, value, value, List.length_cons, Nat.mul_succ, pow_add]
    rw [Int.shiftRight_eq_div_pow] at hrest ⊢
    push_cast at hrest ⊢
    linear_combination 2 ^ w * hrest + hdiv

theorem inRange_carry (c : Int) (xs : List Int) : InRange w (carry w c xs).1 := by
  induction xs generalizing c with
  | nil => exact fun x hx => absurd hx List.not_mem_nil
  | cons x xs ih =>
    intro y hy
    rw [carry] at hy
    rcases List.mem_cons.1 hy with rfl | hy
    · have hpos : (0 : Int) < 2 ^ w := by positivity
      exact ⟨Int.emod_nonneg _ (ne_of_gt hpos), Int.emod_lt_of_pos _ hpos⟩
    · exact ih _ y hy

theorem value_nonneg {xs : List Int} (h : InRange w xs) : 0 ≤ value w xs := by
  induction xs with
  | nil => exact le_refl 0
  | cons x xs ih =>
    have hrest := ih fun y hy => h y (List.mem_cons_of_mem x hy)
    have hx := (h x List.mem_cons_self).1
    rw [value]
    positivity

theorem value_lt {xs : List Int} (h : InRange w xs) : value w xs < 2 ^ (w * xs.length) := by
  induction xs with
  | nil => exact Int.zero_lt_one
  | cons x xs ih =>
    have hrest := ih fun y hy => h y (List.mem_cons_of_mem x hy)
    have hx := (h x List.mem_cons_self).2
    have hpos : (0 : Int) < 2 ^ w := by positivity
    have hmul : 2 ^ w * (value w xs + 1) ≤ 2 ^ w * 2 ^ (w * xs.length) :=
      Int.mul_le_mul_of_nonneg_left hrest (le_of_lt hpos)
    rw [value, List.length_cons, Nat.mul_succ, pow_add, mul_comm (2 ^ (w * xs.length))]
    linarith

end Limbs
