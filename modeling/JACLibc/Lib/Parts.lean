import Mathlib.Algebra.BigOperators.Fin
import Mathlib.Algebra.Order.BigOperators.Group.Finset

/-!
# Consecutive parts of the natural numbers

The natural numbers cut into parts, of which the one with number `k` has `len k` elements.  A place is a part with an
offset in it (`Place`); it stands for the number `Place.pos`, and the numbers are ordered as the places are, by the
part and then by the offset (`pos_lt_iff`).
-/

namespace Parts

variable {len : ℕ → ℕ}

/-- How many numbers are in front of the part `k`. -/
def before (len : ℕ → ℕ) (k : ℕ) : ℕ := ∑ i ∈ Finset.range k, len i

@[simp]
theorem before_zero : before len 0 = 0 := rfl

theorem before_succ (len : ℕ → ℕ) (k : ℕ) : before len (k + 1) = before len k + len k := Finset.sum_range_succ len k

theorem before_mono (len : ℕ → ℕ) {k l : ℕ} (h : k ≤ l) : before len k ≤ before len l :=
  Finset.sum_le_sum_of_subset (Finset.range_mono h)

/-- A loop that adds up the lengths of the parts. -/
theorem foldl_before (len : ℕ → ℕ) (n k : ℕ) : (List.range k).foldl (fun s i => s + len i) n = n + before len k := by
  induction k with
  | zero => rfl
  | succ k ih => rw [List.range_succ, List.foldl_append, ih, before_succ, List.foldl_cons, List.foldl_nil,
    Nat.add_assoc]

structure Place (len : ℕ → ℕ) where
  part : ℕ
  offset : ℕ
  lt : offset < len part

namespace Place

def pos (p : Place len) : ℕ := before len p.part + p.offset

/-- Every number of a part is in front of every later part. -/
theorem pos_lt_before (p : Place len) {k : ℕ} (h : p.part < k) : p.pos < before len k := by
  have hmono : before len (p.part + 1) ≤ before len k := before_mono len h
  have hsucc := before_succ len p.part
  have hlt := p.lt
  unfold pos
  omega

theorem pos_lt_iff (p q : Place len) : p.pos < q.pos ↔ p.part < q.part ∨ p.part = q.part ∧ p.offset < q.offset := by
  rcases Nat.lt_trichotomy p.part q.part with h | h | h
  · have := p.pos_lt_before h
    exact iff_of_true (this.trans_le (Nat.le_add_right _ _)) (Or.inl h)
  · have hpos : p.pos = before len q.part + p.offset := by rw [pos, h]
    rw [hpos, pos, Nat.add_lt_add_iff_left]
    simp [h]
  · have := q.pos_lt_before h
    refine iff_of_false (Nat.lt_asymm (this.trans_le (Nat.le_add_right _ _))) ?_
    rintro (hlt | ⟨heq, -⟩)
    · exact Nat.lt_asymm h hlt
    · exact absurd heq (Nat.ne_of_gt h)

end Place

end Parts
