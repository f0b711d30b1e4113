import Mathlib.Data.List.TakeWhile

/-!
# Stretches of a list

`stretch p xs i` is how many elements from position `i` on satisfy `p` one after another.  A scan from left to right
that keeps the stretch it is in and the longest one seen needs to know what one more element at the end does to the
stretches (`stretch_concat`).
-/

namespace Stretch

variable {α : Type*} {p : α → Bool} {xs : List α}

def stretch (p : α → Bool) (xs : List α) (i : Nat) : Nat := ((xs.drop i).takeWhile p).length

theorem stretch_le (p : α → Bool) (xs : List α) (i : Nat) : stretch p xs i ≤ xs.length - i := by
  have h := (List.takeWhile_prefix p (l := xs.drop i)).length_le
  rwa [List.length_drop] at h

/-- Only the stretches that reach the end grow. -/
theorem stretch_concat (p : α → Bool) (xs : List α) (x : α) {i : Nat} (hi : i ≤ xs.length) :
    stretch p (xs ++ [x]) i =
      if stretch p xs i = xs.length - i ∧ p x = true then stretch p xs i + 1 else stretch p xs i := by
  have hle := stretch_le p xs i
  unfold stretch at hle ⊢
  rw [List.drop_append_of_le_length hi, List.takeWhile_append, List.length_drop]
  by_cases hall : ((xs.drop i).takeWhile p).length = xs.length - i
  · rw [if_pos hall]
    by_cases hx : p x = true
    · simp [hall, hx]
    · simp [hall, hx]
  · rw [if_neg hall, if_neg fun h => hall h.1]

/-- The stretch at `k` is a longest one, and the ones before it are shorter. -/
structure Leftmost (p : α → Bool) (xs : List α) (k n : Nat) : Prop where
  here : stretch p xs k = n
  le : ∀ i, stretch p xs i ≤ n
  lt : ∀ i < k, stretch p xs i < n

/-- The elements of a stretch at the front, where `p` picks out one element. -/
theorem eq_replicate_append [DecidableEq α] (xs : List α) (a : α) :
    xs = List.replicate (stretch (· = a) xs 0) a ++ xs.drop (stretch (· = a) xs 0) := by
  have hfront : xs.takeWhile (· = a) = List.replicate (stretch (· = a) xs 0) a := by
    rw [List.eq_replicate_iff]
    refine ⟨rfl, fun b hb => ?_⟩
    simpa using List.mem_takeWhile_imp hb
  have hsplit : xs.takeWhile (· = a) ++ xs.dropWhile (· = a) = xs := List.takeWhile_append_dropWhile
  have hdrop : xs.drop (stretch (· = a) xs 0) = xs.dropWhile (· = a) := by
    calc xs.drop (stretch (· = a) xs 0)
        = (xs.takeWhile (· = a) ++ xs.dropWhile (· = a)).drop (stretch (· = a) xs 0) := by rw [hsplit]
      _ = xs.dropWhile (· = a) := List.drop_left
  rw [hdrop, ← hfront, hsplit]

end Stretch
