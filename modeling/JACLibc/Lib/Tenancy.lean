import Mathlib.Logic.Basic

/-!
# Places and their tenants

A relation between tenants and the places they have, and the places that are in use: every place in use has a tenant,
nobody has a place that is not in use, and no place has two tenants (`Tenancy`).  A new tenant moves into a free place
(`Tenancy.add`), and tenants go and leave their places free (`Tenancy.release`).
-/

/-- The places in use are those that somebody has, and nobody shares one. -/
structure Tenancy {ο α : Type*} (Has : ο → α → Prop) (Used : α → Prop) : Prop where
  owned : ∀ {x}, Used x → ∃ o, Has o x
  used : ∀ {o x}, Has o x → Used x
  unique : ∀ {o o' x}, Has o x → Has o' x → o = o'

namespace Tenancy

variable {ο α : Type*} {Has Has' : ο → α → Prop} {Used Used' : α → Prop}

theorem congr (h : Tenancy Has Used) (hhas : ∀ o x, Has' o x ↔ Has o x) (hused : ∀ x, Used' x ↔ Used x) :
    Tenancy Has' Used' := by
  constructor
  · intro x hx
    obtain ⟨o, ho⟩ := h.owned ((hused x).1 hx)
    exact ⟨o, (hhas o x).2 ho⟩
  · intro o x ho
    exact (hused x).2 (h.used ((hhas o x).1 ho))
  · intro o o' x ho ho'
    exact h.unique ((hhas o x).1 ho) ((hhas o' x).1 ho')

/-- `o` moves into the place `y`, which was free. -/
theorem add (h : Tenancy Has Used) {o : ο} {y : α} (hfree : ¬Used y) (hhas : ∀ o' x, Has' o' x ↔ Has o' x ∨ o' = o ∧
    x = y)
    (hused : ∀ x, Used' x ↔ Used x ∨ x = y) : Tenancy Has' Used' := by
  constructor
  · intro x hx
    rcases (hused x).1 hx with hx | hx
    · obtain ⟨o', ho'⟩ := h.owned hx
      exact ⟨o', (hhas o' x).2 (Or.inl ho')⟩
    · exact ⟨o, (hhas o x).2 (Or.inr ⟨rfl, hx⟩)⟩
  · intro o' x ho'
    rcases (hhas o' x).1 ho' with ho' | ⟨-, hx⟩
    · exact (hused x).2 (Or.inl (h.used ho'))
    · exact (hused x).2 (Or.inr hx)
  · intro o₁ o₂ x h₁ h₂
    rcases (hhas o₁ x).1 h₁ with h₁ | ⟨ho₁, hx₁⟩
    · rcases (hhas o₂ x).1 h₂ with h₂ | ⟨-, hx₂⟩
      · exact h.unique h₁ h₂
      · rw [hx₂] at h₁
        exact absurd (h.used h₁) hfree
    · rcases (hhas o₂ x).1 h₂ with h₂ | ⟨ho₂, -⟩
      · rw [hx₁] at h₂
        exact absurd (h.used h₂) hfree
      · rw [ho₁, ho₂]

/-- The tenants in `Gone` go, and their places are free. -/
theorem release (h : Tenancy Has Used) (Gone : ο → Prop) (hhas : ∀ o x, Has' o x ↔ Has o x ∧ ¬Gone o)
    (hused : ∀ x, Used' x ↔ Used x ∧ ¬∃ o, Gone o ∧ Has o x) : Tenancy Has' Used' := by
  constructor
  · intro x hx
    obtain ⟨hx, hgone⟩ := (hused x).1 hx
    obtain ⟨o, ho⟩ := h.owned hx
    exact ⟨o, (hhas o x).2 ⟨ho, fun hg => hgone ⟨o, hg, ho⟩⟩⟩
  · intro o x ho
    obtain ⟨ho, hgone⟩ := (hhas o x).1 ho
    refine (hused x).2 ⟨h.used ho, ?_⟩
    rintro ⟨o', hg, ho'⟩
    rw [h.unique ho ho'] at hgone
    exact hgone hg
  · intro o o' x ho ho'
    exact h.unique ((hhas o x).1 ho).1 ((hhas o' x).1 ho').1

end Tenancy
