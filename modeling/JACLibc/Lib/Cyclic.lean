import Mathlib.Data.Nat.ModEq
import Mathlib.Tactic.Ring

/-!
# Walking around a ring of `n` cells

The cells `(start + t) % n` for `t < n` are the cells `0, …, n-1`, each visited once (`exists_walk`,
`walk_injOn`), and the walk is back at `start` after exactly `n` steps (`walk_succ_eq_start`).
-/

namespace Cyclic

/-- The cell reached after `t` steps from `start`. -/
def walk (n start t : Nat) : Nat := (start + t) % n

theorem walk_lt {n : Nat} (hn : 0 < n) (start t : Nat) : walk n start t < n := Nat.mod_lt _ hn

theorem walk_zero {n start : Nat} (h : start < n) : walk n start 0 = start := by
  simp [walk, Nat.mod_eq_of_lt h]

theorem walk_succ (n start t : Nat) : (walk n start t + 1) % n = walk n start (t + 1) := by
  simp [walk, ← Nat.add_assoc]

theorem walk_injOn {n t u : Nat} (start : Nat) (ht : t < n) (hu : u < n)
    (h : walk n start t = walk n start u) : t = u := by
  have h' : start + t ≡ start + u [MOD n] := h
  exact Nat.ModEq.eq_of_lt_of_lt (Nat.ModEq.add_left_cancel' start h') ht hu

/-- Every cell is on the walk. -/
theorem exists_walk {n start i : Nat} (hs : start < n) (hi : i < n) : ∃ t < n, walk n start t = i := by
  rcases Nat.le_total start i with h | h
  · exact ⟨i - start, by omega, by simp [walk, Nat.add_sub_cancel' h, Nat.mod_eq_of_lt hi]⟩
  · by_cases hsi : start = i
    · exact ⟨0, by omega, by simp [walk, hsi, Nat.mod_eq_of_lt hi]⟩
    · refine ⟨n - start + i, by omega, ?_⟩
      have : start + (n - start + i) = i + n := by omega
      simp [walk, this, Nat.mod_eq_of_lt hi]

/-- One more step leads back to `start` exactly after the last of the `n` cells. -/
theorem walk_succ_eq_start {n start t : Nat} (hs : start < n) (ht : t < n) :
    walk n start (t + 1) = start ↔ t + 1 = n := by
  constructor
  · intro h
    by_contra hne
    have := walk_injOn start (show t + 1 < n by omega) (show 0 < n by omega) (by rw [h, walk_zero hs])
    omega
  · intro h
    simp [walk, h, Nat.mod_eq_of_lt hs]

end Cyclic
