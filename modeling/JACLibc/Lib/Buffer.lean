import Mathlib.Data.List.Basic

/-!
# Writing into a buffer

A buffer is a list whose length does not change: `write buf i xs` stores the elements of `xs` at `i` and after it, one
at a time, and what would fall behind the end is not stored.
-/

namespace Buffer

variable {α : Type*}

def write : List α → Nat → List α → List α
  | buf, _, [] => buf
  | buf, i, x :: xs => write (buf.set i x) (i + 1) xs

@[simp]
theorem length_write (buf : List α) (i : Nat) (xs : List α) : (write buf i xs).length = buf.length := by
  induction xs generalizing buf i with
  | nil => rfl
  | cons x xs ih => rw [write, ih, List.length_set]

/-- What stands before and behind the elements written over stays. -/
theorem write_append {xs : List α} : ∀ {pre mid post : List α}, mid.length = xs.length →
    write (pre ++ mid ++ post) pre.length xs = pre ++ xs ++ post := by
  induction xs with
  | nil =>
    intro pre mid post hmid
    obtain rfl := List.length_eq_zero_iff.1 hmid
    rfl
  | cons x xs ih =>
    intro pre mid post hmid
    obtain ⟨y, mid, rfl⟩ := List.exists_cons_of_length_eq_add_one hmid
    have hset : (pre ++ y :: mid ++ post).set pre.length x = pre ++ [x] ++ mid ++ post := by simp
    have hrest := @ih (pre ++ [x]) mid post (by simpa using hmid)
    rw [List.length_append, List.length_singleton] at hrest
    rw [write, hset, hrest]
    simp

/-- The same where the buffer is cut once: the elements behind are written over from the front. -/
theorem write_front {pre rest xs : List α} (h : xs.length ≤ rest.length) :
    write (pre ++ rest) pre.length xs = pre ++ xs ++ rest.drop xs.length := by
  have hmid : (rest.take xs.length).length = xs.length := List.length_take_of_le h
  rw [← write_append hmid, List.append_assoc, List.take_append_drop]

end Buffer
