import Mathlib.Data.List.Basic
import Mathlib.Data.Nat.ModEq

/-!
# Folding over blocks

`foldBlocks f n s xs` runs `f` over the blocks of `n` elements that `xs` is cut into; what is left at the end, fewer
than `n`, is not read.  This is what a hash makes of a message, and a stream that keeps the rest in a buffer makes the
same of it in pieces.
-/

namespace Blocks

variable {α σ : Type*} (f : σ → List α → σ) (n : Nat)

/-- `f` over the first `k` blocks. -/
def foldFirst : Nat → σ → List α → σ
  | 0, s, _ => s
  | k + 1, s, xs => foldFirst k (f s (xs.take n)) (xs.drop n)

def foldBlocks (s : σ) (xs : List α) : σ := foldFirst f n (xs.length / n) s xs

@[simp]
theorem foldBlocks_nil (s : σ) : foldBlocks f n s [] = s := by
  unfold foldBlocks
  simp [foldFirst]

theorem foldFirst_append {k : Nat} {xs : List α} (hk : xs.length = k * n) (s : σ) (j : Nat) (ys : List α) :
    foldFirst f n (k + j) s (xs ++ ys) = foldFirst f n j (foldFirst f n k s xs) ys := by
  induction k generalizing s xs with
  | zero =>
    have hxs : xs = [] := List.length_eq_zero_iff.1 (by simpa using hk)
    subst hxs
    rw [Nat.zero_add]
    rfl
  | succ k ih =>
    rw [Nat.succ_mul] at hk
    rw [Nat.succ_add, foldFirst, foldFirst, List.take_append_of_le_length (by omega),
      List.drop_append_of_le_length (by omega)]
    exact ih (by rw [List.length_drop]; omega) _

/-- What `f` keeps on every block, the fold keeps. -/
theorem foldBlocks_invariant {p : σ → Prop} (hf : ∀ s b, p s → p (f s b)) {s : σ} (hs : p s) (xs : List α) :
    p (foldBlocks f n s xs) := by
  unfold foldBlocks
  induction xs.length / n generalizing s xs with
  | zero => exact hs
  | succ k ih =>
    rw [foldFirst]
    exact ih (hf s _ hs) _

variable {n} (hn : 0 < n) {whole : List α} (hwhole : n ∣ whole.length)

include hn hwhole

/-- Whole blocks in front are folded first. -/
theorem foldBlocks_append (s : σ) (xs : List α) :
    foldBlocks f n s (whole ++ xs) = foldBlocks f n (foldBlocks f n s whole) xs := by
  obtain ⟨k, hk⟩ := hwhole
  unfold foldBlocks
  rw [List.length_append, hk, Nat.mul_add_div hn, Nat.mul_div_cancel_left k hn]
  exact foldFirst_append f n (by rw [hk, Nat.mul_comm]) s _ xs

omit hwhole in
theorem foldBlocks_block (s : σ) {b : List α} (hb : b.length = n) : foldBlocks f n s b = f s b := by
  unfold foldBlocks
  rw [hb, Nat.div_self hn, foldFirst, foldFirst, List.take_of_length_le (by omega)]

theorem foldBlocks_concat (s : σ) {b : List α} (hb : b.length = n) :
    foldBlocks f n s (whole ++ b) = f (foldBlocks f n s whole) b := by
  rw [foldBlocks_append f hn hwhole, foldBlocks_block f hn _ hb]

end Blocks
