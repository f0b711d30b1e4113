import Mathlib.Data.List.TakeWhile

/-!
# The first occurrence in a list

A list cut at the first occurrence of an element: what is in front of it is `takeWhile`, and the element with what
follows is `dropWhile`.
-/

namespace First

variable {α : Type*} [DecidableEq α] {c : α} {l s : List α}

theorem not_mem_takeWhile (c : α) (l : List α) : c ∉ l.takeWhile (· ≠ c) := by
  intro h
  have hne := List.mem_takeWhile_imp h
  simp at hne

/-- A list that has the element is what is in front of the first one, the element, and what follows. -/
theorem split (h : c ∈ l) : l = l.takeWhile (· ≠ c) ++ c :: (l.dropWhile (· ≠ c)).tail := by
  induction l with
  | nil => cases h
  | cons x l ih =>
    by_cases hx : x = c
    · simp [hx]
    · have hmem : c ∈ l := (List.mem_cons.mp h).resolve_left (Ne.symm hx)
      rw [List.takeWhile_cons_of_pos (by simpa using hx), List.dropWhile_cons_of_pos (by simpa using hx),
        List.cons_append, ← ih hmem]

theorem takeWhile_append (h : c ∉ l) : (l ++ c :: s).takeWhile (· ≠ c) = l := by
  induction l with
  | nil => simp
  | cons x l ih =>
    rw [List.mem_cons, not_or] at h
    rw [List.cons_append, List.takeWhile_cons_of_pos (by simpa using Ne.symm h.1), ih h.2]

theorem dropWhile_append (h : c ∉ l) : (l ++ c :: s).dropWhile (· ≠ c) = c :: s := by
  induction l with
  | nil => simp
  | cons x l ih =>
    rw [List.mem_cons, not_or] at h
    rw [List.cons_append, List.dropWhile_cons_of_pos (by simpa using Ne.symm h.1), ih h.2]

theorem takeWhile_of_not_mem (h : c ∉ l) : l.takeWhile (· ≠ c) = l := by
  rw [List.takeWhile_eq_self_iff]
  intro x hx
  exact decide_eq_true fun hc => h (hc ▸ hx)

theorem dropWhile_of_not_mem (h : c ∉ l) : l.dropWhile (· ≠ c) = [] := by
  rw [List.dropWhile_eq_nil_iff]
  intro x hx
  exact decide_eq_true fun hc => h (hc ▸ hx)

end First
