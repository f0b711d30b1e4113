import Mathlib.Order.Basic

/-!
# Three-way comparators

A comparison function that answers a negative, zero or positive number.  `TotalPreorder` says that the sign of the
answer comes from a total preorder: swapping the arguments swaps the sign, and `≤` is transitive.  Two elements that
compare equal need not be the same.
-/

namespace Compar

variable {α : Type*}

/-- The signs of `cmp` are those of a total preorder. -/
structure TotalPreorder (cmp : α → α → Int) : Prop where
  swap : ∀ a b, cmp a b < 0 ↔ 0 < cmp b a
  trans : ∀ a b c, cmp a b ≤ 0 → cmp b c ≤ 0 → cmp a c ≤ 0

variable {cmp : α → α → Int}

namespace TotalPreorder

theorem refl (h : TotalPreorder cmp) (a : α) : cmp a a = 0 := by
  have := h.swap a a
  omega

theorem le_refl (h : TotalPreorder cmp) (a : α) : cmp a a ≤ 0 := by
  exact Int.le_of_eq (h.refl a)

theorem eq_swap (h : TotalPreorder cmp) {a b : α} : cmp a b = 0 ↔ cmp b a = 0 := by
  have h1 := h.swap a b
  have h2 := h.swap b a
  omega

theorem le_swap (h : TotalPreorder cmp) {a b : α} : cmp a b ≤ 0 ↔ 0 ≤ cmp b a := by
  have h1 := h.swap a b
  have h2 := h.swap b a
  omega

theorem lt_of_lt_of_le (h : TotalPreorder cmp) {a b c : α} (h₁ : cmp a b < 0) (h₂ : cmp b c ≤ 0) : cmp a c < 0 := by
  by_contra hn
  have hca : cmp c a ≤ 0 := by rw [h.le_swap]; omega
  have hba := h.trans b c a h₂ hca
  have := (h.swap a b).1 h₁
  omega

theorem lt_of_le_of_lt (h : TotalPreorder cmp) {a b c : α} (h₁ : cmp a b ≤ 0) (h₂ : cmp b c < 0) : cmp a c < 0 := by
  by_contra hn
  have hca : cmp c a ≤ 0 := by rw [h.le_swap]; omega
  have hcb := h.trans c a b hca h₁
  have := (h.swap b c).1 h₂
  omega

theorem lt_trans (h : TotalPreorder cmp) {a b c : α} (h₁ : cmp a b < 0) (h₂ : cmp b c < 0) : cmp a c < 0 :=
  h.lt_of_lt_of_le h₁ (by omega)

end TotalPreorder

end Compar
