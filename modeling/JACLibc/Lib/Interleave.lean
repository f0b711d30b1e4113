import JACLibc.Lib.Run
import Mathlib.Logic.Function.Basic

/-!
# Threads that take turns

A machine made of threads: a shared state, and a state of its own for each thread.  A move of a thread reads and
changes the shared state and its own, and nothing of the others.  An action of the machine is a thread and what the
outside decides for its move, so that a list of actions is one interleaving.

A predicate about the shared state and one thread is kept if the thread that moves keeps it for itself, and for every
other thread (`step_local`); then it holds of all threads along every run (`local_invariant`).
-/

namespace Interleave

/-- The shared state and the state of each thread. -/
structure State (σ ι τ : Type*) where
  shared : σ
  thread : ι → τ

variable {σ ι τ α ρ : Type*} [DecidableEq ι]

/-- One step: the thread `a.1` makes its move. -/
def step (move : σ → ι → τ → α → ρ × σ × τ) (s : State σ ι τ) (a : ι × α) : ρ × State σ ι τ :=
  let r := move s.shared a.1 (s.thread a.1) a.2
  (r.1, ⟨r.2.1, Function.update s.thread a.1 r.2.2⟩)

variable {move : σ → ι → τ → α → ρ × σ × τ} {s : State σ ι τ}

theorem step_self (a : ι × α) : (step move s a).2.thread a.1 = (move s.shared a.1 (s.thread a.1) a.2).2.2 :=
  Function.update_self _ _ _

theorem step_other (a : ι × α) {k : ι} (h : k ≠ a.1) : (step move s a).2.thread k = s.thread k :=
  Function.update_of_ne h _ _

/-- The predicate holds of every thread. -/
def All (P : σ → ι → τ → Prop) (s : State σ ι τ) : Prop := ∀ i, P s.shared i (s.thread i)

/-- A condition on a move, as a condition on a step. -/
def Allowed (ok : σ → ι → τ → α → Prop) (s : State σ ι τ) (a : ι × α) : Prop := ok s.shared a.1 (s.thread a.1) a.2

instance {ok : σ → ι → τ → α → Prop} [∀ g i l a, Decidable (ok g i l a)] (s : State σ ι τ) (a : ι × α) :
    Decidable (Allowed ok s a) := inferInstanceAs (Decidable (ok s.shared a.1 (s.thread a.1) a.2))

section Local

variable {P : σ → ι → τ → Prop} {ok : σ → ι → τ → α → Prop}

/-- A move that keeps the predicate for its own thread and for any other keeps it for all. -/
theorem step_local (hself : ∀ g i l a, P g i l → ok g i l a → P (move g i l a).2.1 i (move g i l a).2.2)
    (hother : ∀ g i l a k m, k ≠ i → P g i l → P g k m → ok g i l a → P (move g i l a).2.1 k m) (hs : All P s)
    {a : ι × α} (ha : Allowed ok s a) : All P (step move s a).2 := by
  intro k
  by_cases hk : k = a.1
  · rw [hk, step_self]
    exact hself _ _ _ _ (hs a.1) ha
  · rw [step_other a hk]
    exact hother _ _ _ _ k _ hk (hs a.1) (hs k) ha

/-- Such a predicate holds of all threads along every run of allowed steps. -/
theorem local_invariant (hself : ∀ g i l a, P g i l → ok g i l a → P (move g i l a).2.1 i (move g i l a).2.2)
    (hother : ∀ g i l a k m, k ≠ i → P g i l → P g k m → ok g i l a → P (move g i l a).2.1 k m) (hs : All P s)
    {as : List (ι × α)} (has : Machine.Guarded (step move) (Allowed ok) s as) :
    All P (Machine.run (step move) s as) := by
  have hstep : ∀ s a, All P s → Allowed ok s a → All P (step move s a).2 := fun _ _ hs ha =>
    step_local hself hother hs ha
  exact Machine.guarded_invariant hstep hs has

end Local

end Interleave
