import Mathlib.Data.List.Basic

/-!
# Runs of a deterministic machine

A machine is a step function that takes a state and an action to an answer and the next state.  This file has its
runs over lists of actions, the trace of the answers, and the two rules used to reason about them: an invariant
kept by every step holds along every run (`run_invariant`, and `guarded_invariant` for the runs whose steps all
meet a condition on the state before the step), and a property of the pair (trace, state) that every step extends
holds of every run (`trace_invariant`, and `guarded_trace_invariant`).
-/

namespace Machine

variable {S A R : Type*}

/-- The state after a list of actions. -/
def run (step : S → A → R × S) : S → List A → S
  | s, [] => s
  | s, a :: as => run step (step s a).2 as

/-- The actions of a run with their answers, oldest first. -/
def trace (step : S → A → R × S) : S → List A → List (A × R)
  | _, [] => []
  | s, a :: as => (a, (step s a).1) :: trace step (step s a).2 as

/-- Every step of the run meets `ok` in the state in which it is taken. -/
def Guarded (step : S → A → R × S) (ok : S → A → Prop) : S → List A → Prop
  | _, [] => True
  | s, a :: as => ok s a ∧ Guarded step ok (step s a).2 as

variable {step : S → A → R × S}

theorem run_append (s : S) (as bs : List A) : run step s (as ++ bs) = run step (run step s as) bs := by
  induction as generalizing s with
  | nil => rfl
  | cons a as ih => exact ih (step s a).2

instance Guarded.decide {ok : S → A → Prop} [∀ s a, Decidable (ok s a)] : ∀ s as, Decidable (Guarded step ok s as)
  | _, [] => isTrue trivial
  | s, a :: as => @instDecidableAnd _ _ _ (Guarded.decide (step s a).2 as)

theorem guarded_append {ok : S → A → Prop} {s : S} {as bs : List A} :
    Guarded step ok s (as ++ bs) ↔ Guarded step ok s as ∧ Guarded step ok (run step s as) bs := by
  induction as generalizing s with
  | nil => simp [Guarded, run]
  | cons a as ih => simp [Guarded, run, ih, and_assoc]

/-- An invariant kept by every step that meets `ok` holds along every guarded run. -/
theorem guarded_invariant {ok : S → A → Prop} {I : S → Prop} (hstep : ∀ s a, I s → ok s a → I (step s a).2)
    {s : S} (hs : I s) {as : List A} (hg : Guarded step ok s as) : I (run step s as) := by
  induction as generalizing s with
  | nil => exact hs
  | cons a as ih => exact ih (hstep s a hs hg.1) hg.2

/-- An invariant kept by every step holds along every run. -/
theorem run_invariant {I : S → Prop} (hstep : ∀ s a, I s → I (step s a).2) {s : S} (hs : I s) (as : List A) :
    I (run step s as) := by
  induction as generalizing s with
  | nil => exact hs
  | cons a as ih => exact ih (hstep s a hs)

theorem guarded_of_forall {ok : S → A → Prop} (hok : ∀ s a, ok s a) (s : S) (as : List A) : Guarded step ok s as := by
  induction as generalizing s with
  | nil => exact trivial
  | cons a as ih => exact ⟨hok s a, ih (step s a).2⟩

/-- A relation between the trace so far and the state, extended by every step that meets `ok`, holds of every
guarded run. -/
theorem guarded_trace_invariant {ok : S → A → Prop} {I : List (A × R) → S → Prop}
    (hstep : ∀ tr s a, I tr s → ok s a → I (tr ++ [(a, (step s a).1)]) (step s a).2) {s : S} (hs : I [] s) {as : List A}
    (hg : Guarded step ok s as) : I (trace step s as) (run step s as) := by
  -- generalize the trace already collected, so that the induction can move a step into it
  have key : ∀ (as : List A) (tr : List (A × R)) (s : S), I tr s → Guarded step ok s as →
    I (tr ++ trace step s as) (run step s as) := by
    intro as
    induction as with
    | nil =>
      intro tr s h _
      rw [trace, List.append_nil]
      exact h
    | cons a as ih =>
      intro tr s h hg
      have := ih _ _ (hstep tr s a h hg.1) hg.2
      simpa [trace, run] using this
  exact key as [] s hs hg

/-- A relation between the trace so far and the state, extended by every step, holds of every run. -/
theorem trace_invariant {I : List (A × R) → S → Prop}
    (hstep : ∀ tr s a, I tr s → I (tr ++ [(a, (step s a).1)]) (step s a).2) {s : S} (hs : I [] s) (as : List A) :
    I (trace step s as) (run step s as) :=
  guarded_trace_invariant (fun tr s a h _ => hstep tr s a h) hs (guarded_of_forall (fun _ _ => trivial) s as)

end Machine
