import Mathlib.Data.List.Induction
import Mathlib.Order.Lattice

/-!
# A queue by priorities

`insert` puts an element behind all that have its priority or a higher one, so that `arrange` of the arrivals is the
queue they make.  `next` takes the oldest of the highest priority out of the arrivals themselves; `arrange_next` says
that this is the front of the queue.
-/

namespace Priority

variable {α κ : Type*} [LinearOrder κ] (prio : α → κ)

/-- `x` behind all that have its priority or a higher one. -/
def insert (x : α) : List α → List α
  | [] => [x]
  | y :: ys => if prio x ≤ prio y then y :: insert x ys else x :: y :: ys

/-- The queue that the arrivals make, oldest first. -/
def arrange (xs : List α) : List α := xs.foldl (fun q x => insert prio x q) []

/-- The oldest of the highest priority, and the others as they came. -/
def next : List α → Option (α × List α)
  | [] => none
  | x :: xs =>
    match next xs with
    | none => some (x, [])
    | some (y, rest) => if prio y ≤ prio x then some (x, xs) else some (y, x :: rest)

variable {prio} {x y : α} {q xs rest : List α}

theorem insert_cons_of_le (h : prio x ≤ prio y) : insert prio x (y :: q) = y :: insert prio x q := if_pos h

theorem insert_cons_of_lt (h : prio y < prio x) : insert prio x (y :: q) = x :: y :: q := if_neg h.not_ge

theorem mem_insert : y ∈ insert prio x q ↔ y = x ∨ y ∈ q := by
  induction q with
  | nil => simp [insert]
  | cons z q ih =>
    unfold insert
    split
    · simp only [List.mem_cons, ih]
      exact or_left_comm
    · simp

theorem length_insert : (insert prio x q).length = q.length + 1 := by
  induction q with
  | nil => rfl
  | cons z q ih =>
    unfold insert
    split <;> simp [ih]

theorem arrange_append : arrange prio (xs ++ [x]) = insert prio x (arrange prio xs) := by
  simp [arrange, List.foldl_append]

theorem next_eq_none : next prio xs = none ↔ xs = [] := by
  cases xs with
  | nil => simp [next]
  | cons x xs =>
    unfold next
    split
    · simp
    · split <;> simp

theorem next_append (h : next prio xs = some (x, rest)) :
    next prio (xs ++ [y]) = if prio y ≤ prio x then some (x, rest ++ [y]) else some (y, xs) := by
  induction xs generalizing x rest with
  | nil => cases h
  | cons a xs ih =>
    rw [List.cons_append]
    unfold next at h
    split at h
    · rename_i hnone
      obtain ⟨rfl, rfl⟩ := Prod.mk.inj (Option.some.inj h)
      rw [next_eq_none] at hnone
      simp [hnone, next]
    · rename_i b rest' hsome
      rw [next, ih hsome]
      split at h
      · rename_i hle
        obtain ⟨rfl, rfl⟩ := Prod.mk.inj (Option.some.inj h)
        by_cases hy : prio y ≤ prio b
        · simp [hy, hle, hy.trans hle]
        · by_cases hya : prio y ≤ prio a <;> simp [hy, hya]
      · rename_i hlt
        obtain ⟨rfl, rfl⟩ := Prod.mk.inj (Option.some.inj h)
        by_cases hy : prio y ≤ prio b
        · simp [hy, hlt]
        · have hya : ¬prio y ≤ prio a := fun hle => hlt ((not_le.1 hy).le.trans hle)
          simp [hy, hya]

/-- The front of the queue is what `next` takes out, and the queue behind it is that of the others. -/
theorem arrange_next : arrange prio xs = match next prio xs with
    | none => []
    | some (x, rest) => x :: arrange prio rest := by
  induction xs using List.reverseRecOn with
  | nil => rfl
  | append_singleton xs y ih =>
    rw [arrange_append]
    cases hnext : next prio xs with
    | none =>
      rw [next_eq_none] at hnext
      subst hnext
      rfl
    | some p =>
      obtain ⟨x, rest⟩ := p
      rw [hnext] at ih
      rw [next_append hnext, ih]
      by_cases hle : prio y ≤ prio x
      · rw [if_pos hle, insert_cons_of_le hle]
        exact congrArg _ arrange_append.symm
      · rw [if_neg hle, insert_cons_of_lt (not_le.1 hle)]
        exact congrArg _ ih.symm

end Priority
