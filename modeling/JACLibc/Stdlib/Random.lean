import JACLibc.CString
import JACLibc.Lib.Run
import Mathlib.Logic.Function.Basic

/-!
# `random`, `initstate` and `setstate`

The generator adds one word of a state array to another and moves two pointers on.  The pointers are globals:
`setstate` selects another array, but it puts the pointers where they are after a seeding, and not where they were
when the array was left.

`sequence` is what an array gives that is used alone.  An array that is selected again goes on with its sequence if it
is left after a multiple of 31 numbers, when the pointers are back at their places, or if all of its words are zero
(`random_switching`).
-/

namespace JACLibc.Random

variable {A : Type*} [DecidableEq A]

/-! ### The code -/

/-- `__jacl_random_state`, `__jacl_random_fptr` and `__jacl_random_rptr` as offsets into the array, and the 31 words
of each array. -/
structure Globals (A : Type*) where
  state : A
  fptr : Nat
  rptr : Nat
  mem : A → List UInt32

/-- `if (++ptr >= &__jacl_random_state[31]) ptr = __jacl_random_state` -/
def advance (ptr : Nat) : Nat := if 31 ≤ ptr + 1 then 0 else ptr + 1

/-- `random` -/
def random (g : Globals A) : Nat × Globals A :=
  let words := g.mem g.state
  let val := words.getD g.fptr 0 + words.getD g.rptr 0
  ((val >>> 1).toNat, ⟨g.state, advance g.fptr, advance g.rptr, Function.update g.mem g.state (words.set g.fptr val)⟩)

/-- `n` calls of `random`: the numbers and what they leave. -/
def draws : Nat → Globals A → List Nat × Globals A
  | 0, g => ([], g)
  | n + 1, g => ((draws n g).1 ++ [(random (draws n g).2).1], (random (draws n g).2).2)

/-- `(16807ULL * word) % 2147483647` -/
def nextWord (word : UInt32) : UInt32 := ((16807 * word.toUInt64) % 2147483647).toUInt32

/-- `n` words, each made of the one in front of it. -/
def seedWords : Nat → UInt32 → List UInt32
  | 0, _ => []
  | n + 1, word => word :: seedWords n (nextWord word)

/-- `initstate` with an array that is large enough: the array that was selected, and what it leaves. -/
def initstate (seed : UInt32) (state : A) (g : Globals A) : A × Globals A :=
  (g.state, (draws (10 * 31) ⟨state, 3, 0, Function.update g.mem state (seedWords 31 seed)⟩).2)

/-- `setstate` -/
def setstate (state : A) (g : Globals A) : A × Globals A := (g.state, ⟨state, 3, 0, g.mem⟩)

/-! ### Runs -/

/-- An array with nothing else around it, seeded. -/
def seeded (seed : UInt32) : Globals Unit := (initstate seed () ⟨(), 0, 0, fun _ => []⟩).2

/-- The first `n` numbers of an array that is used alone. -/
def sequence (seed : UInt32) (n : Nat) : List Nat := (draws n (seeded seed)).1

inductive Call (A : Type*) where
  | initstate (seed : UInt32) (state : A)
  | setstate (state : A)
  | random

inductive Answer (A : Type*) where
  | state (old : A)
  | number (n : Nat)

/-- The globals, and what was done with each array: the seed that it was given last, and the numbers that it gave
since. -/
structure State (A : Type*) where
  code : Globals A
  seed : A → Option UInt32
  numbers : A → List Nat

def State.start (g : Globals A) : State A := ⟨g, fun _ => none, fun _ => []⟩

def step (s : State A) : Call A → Answer A × State A
  | .initstate seed state =>
    let r := initstate seed state s.code
    (.state r.1, ⟨r.2, Function.update s.seed state (some seed), Function.update s.numbers state []⟩)
  | .setstate state =>
    let r := setstate state s.code
    (.state r.1, { s with code := r.2 })
  | .random =>
    let r := random s.code
    (.number r.1, { s with
      code := r.2
      numbers := Function.update s.numbers s.code.state (s.numbers s.code.state ++ [r.1]) })

/-- Only arrays are used that were seeded. -/
def Seeded (s : State A) : Call A → Prop
  | .initstate _ _ => True
  | .setstate state => (s.seed state).isSome
  | .random => (s.seed s.code.state).isSome

instance (s : State A) : ∀ call, Decidable (Seeded s call)
  | .initstate _ _ => isTrue trivial
  | .setstate state => inferInstanceAs (Decidable (s.seed state).isSome)
  | .random => inferInstanceAs (Decidable (s.seed s.code.state).isSome)

/-- An array is selected again only after a multiple of 31 numbers, unless its words are all zero. -/
def Ok (s : State A) (call : Call A) : Prop :=
  Seeded s call ∧ ∀ state, call = .setstate state → (s.numbers state).length % 31 = 0 ∨ s.seed state = some 0

/-! ### An array that is used alone -/

theorem advance_mod (ptr n : Nat) : advance ((ptr + n) % 31) = (ptr + (n + 1)) % 31 := by
  unfold advance
  split <;> omega

theorem draws_state (n : Nat) (g : Globals A) : (draws n g).2.state = g.state := by
  induction n with
  | zero => rfl
  | succ n ih => exact ih

theorem draws_ptrs (n : Nat) {g : Globals A} (hf : g.fptr < 31) (hr : g.rptr < 31) :
    (draws n g).2.fptr = (g.fptr + n) % 31 ∧ (draws n g).2.rptr = (g.rptr + n) % 31 := by
  induction n with
  | zero => exact ⟨(Nat.mod_eq_of_lt hf).symm, (Nat.mod_eq_of_lt hr).symm⟩
  | succ n ih =>
    rw [← advance_mod, ← advance_mod, ← ih.1, ← ih.2]
    exact ⟨rfl, rfl⟩

/-- The globals of an array that is used alone, after `n` numbers. -/
def after (seed : UInt32) (n : Nat) : Globals Unit := (draws n (seeded seed)).2

theorem sequence_succ (seed : UInt32) (n : Nat) :
    sequence seed (n + 1) = sequence seed n ++ [(random (after seed n)).1] := rfl

theorem initstate_ptrs (seed : UInt32) (state : A) (g : Globals A) :
    (initstate seed state g).2.fptr = 3 ∧ (initstate seed state g).2.rptr = 0 := by
  unfold initstate
  generalize hg : (⟨state, 3, 0, Function.update g.mem state (seedWords 31 seed)⟩ : Globals A) = g'
  have hf : g'.fptr = 3 := by rw [← hg]
  have hr : g'.rptr = 0 := by rw [← hg]
  have hptrs := draws_ptrs (10 * 31) (show g'.fptr < 31 by omega) (show g'.rptr < 31 by omega)
  rw [hf, hr] at hptrs
  exact hptrs

/-- The pointers are back at their places after every 31 numbers. -/
theorem after_ptrs (seed : UInt32) (n : Nat) : (after seed n).fptr = (3 + n) % 31 ∧ (after seed n).rptr = n % 31 := by
  obtain ⟨hf, hr⟩ := initstate_ptrs seed () ⟨(), 0, 0, fun _ => []⟩
  have hptrs := draws_ptrs n (show (seeded seed).fptr < 31 by rw [seeded, hf]; omega) (show (seeded seed).rptr <
    31 by rw [seeded, hr]; omega)
  rw [seeded, hf, hr, Nat.zero_add] at hptrs
  exact hptrs

/-! ### An array among others -/

/-- The selected array and the pointers are those of an array that is used alone. -/
structure Same (g : Globals A) (u : Globals Unit) : Prop where
  words : g.mem g.state = u.mem ()
  fptr : g.fptr = u.fptr
  rptr : g.rptr = u.rptr

theorem Same.random {g : Globals A} {u : Globals Unit} (h : Same g u) :
    (random g).1 = (random u).1 ∧ Same (random g).2 (random u).2 := by
  refine ⟨?_, ?_, congrArg advance h.fptr, congrArg advance h.rptr⟩
  · simp only [Random.random, h.words, h.fptr, h.rptr]
  · simp only [Random.random, h.words, h.fptr, h.rptr, Function.update_self]

theorem Same.draws {g : Globals A} {u : Globals Unit} (h : Same g u) (n : Nat) : Same (draws n g).2 (draws n u).2 := by
  induction n with
  | zero => exact h
  | succ n ih => exact ih.random.2

/-- Other arrays keep their words. -/
theorem random_other (g : Globals A) {a : A} (ha : a ≠ g.state) : (random g).2.mem a = g.mem a :=
  Function.update_of_ne ha _ _

theorem draws_other (n : Nat) (g : Globals A) {a : A} (ha : a ≠ g.state) : (draws n g).2.mem a = g.mem a := by
  induction n with
  | zero => rfl
  | succ n ih => exact (random_other _ (by rw [draws_state]; exact ha)).trans ih

/-- A seeded array is the same wherever it is. -/
theorem initstate_same (seed : UInt32) (state : A) (g : Globals A) : Same (initstate seed state g).2 (seeded seed) := by
  have hstart : Same (⟨state, 3, 0, Function.update g.mem state (seedWords 31 seed)⟩ : Globals A)
      ⟨(), 3, 0, Function.update (fun _ => []) () (seedWords 31 seed)⟩ := by
    refine ⟨?_, rfl, rfl⟩
    simp only [Function.update_self]
  unfold seeded initstate
  dsimp only
  exact hstart.draws (10 * 31)

theorem initstate_other (seed : UInt32) {state a : A} (g : Globals A) (ha : a ≠ state) :
    (initstate seed state g).2.mem a = g.mem a := by
  unfold initstate
  rw [draws_other _ _ ha]
  exact Function.update_of_ne ha _ _

/-! ### An array of zeros -/

def zeros : List UInt32 := List.replicate 31 0

/-- Wherever the pointers are, an array of zeros gives zero and stays as it is. -/
theorem random_zeros {g : Globals A} (h : g.mem g.state = zeros) :
    (random g).1 = 0 ∧ (random g).2.mem g.state = zeros := by
  have hget : ∀ i, zeros.getD i 0 = 0 := by
    intro i
    unfold zeros
    rw [List.getD_eq_getElem?_getD, List.getElem?_replicate]
    split <;> rfl
  have hset : ∀ i, zeros.set i 0 = zeros := by
    intro i
    unfold zeros
    rw [List.set_replicate_self]
  unfold random
  simp only [h, hget, Function.update_self]
  exact ⟨by decide, hset _⟩

theorem after_zero (n : Nat) : (after 0 n).mem () = zeros := by
  have hseeded : ∀ n : Nat, ∀ g : Globals Unit, g.mem () = zeros → (draws n g).2.mem () = zeros := by
    intro n g hg
    induction n with
    | zero => exact hg
    | succ n ih => exact (random_zeros ih).2
  rw [after, seeded, initstate]
  refine hseeded n _ ?_
  simp only
  refine hseeded (10 * 31) _ ?_
  change (Function.update (fun _ => []) () (seedWords 31 0) : Unit → List UInt32) () = zeros
  rw [Function.update_self]
  decide

/-! ### Runs -/

/-- Of every seeded array: it gave the first numbers of its sequence, its words are those that it would have alone,
and while it is selected the pointers are where they would be, unless all of its words are zero. -/
def Inv (s : State A) : Prop :=
  ∀ a seed, s.seed a = some seed →
    s.numbers a = sequence seed (s.numbers a).length ∧ s.code.mem a = (after seed (s.numbers a).length).mem () ∧
    (a = s.code.state → seed = 0 ∨ s.code.fptr = (after seed (s.numbers a).length).fptr ∧
    s.code.rptr = (after seed (s.numbers a).length).rptr)

theorem inv_initstate {s : State A} (h : Inv s) (seed : UInt32) (state : A) :
    Inv (step s (.initstate seed state)).2 := by
  have hsame := initstate_same seed state s.code
  have hstate : (initstate seed state s.code).2.state = state := draws_state _ _
  intro a seed' hseed
  simp only [step] at hseed ⊢
  by_cases ha : a = state
  · subst ha
    rw [Function.update_self] at hseed ⊢
    obtain rfl := Option.some.inj hseed
    refine ⟨rfl, ?_, fun _ => .inr ⟨hsame.fptr, hsame.rptr⟩⟩
    have hwords := hsame.words
    rw [hstate] at hwords
    exact hwords
  · rw [Function.update_of_ne ha] at hseed ⊢
    obtain ⟨hnumbers, hwords, -⟩ := h a seed' hseed
    exact ⟨hnumbers, (initstate_other seed s.code ha).trans hwords, fun h => absurd (h.trans hstate) ha⟩

theorem inv_setstate {s : State A} (h : Inv s) {state : A} (hok : Ok s (.setstate state)) :
    Inv (step s (.setstate state)).2 := by
  intro a seed hseed
  obtain ⟨hnumbers, hwords, -⟩ := h a seed hseed
  refine ⟨hnumbers, hwords, fun ha => ?_⟩
  obtain rfl : a = state := ha
  rcases hok.2 a rfl with hlen | hzero
  · obtain ⟨hf, hr⟩ := after_ptrs seed (s.numbers a).length
    right
    simp only [step, setstate]
    omega
  · exact .inl (Option.some.inj (hseed.symm.trans hzero))

theorem inv_random {s : State A} (h : Inv s) : Inv (step s .random).2 := by
  intro a seed hseed
  obtain ⟨hnumbers, hwords, hptrs⟩ := h a seed hseed
  by_cases ha : a = s.code.state
  · subst ha
    simp only [step, Function.update_self, List.length_append, List.length_singleton]
    have hnumber : (random s.code).1 = (random (after seed (s.numbers s.code.state).length)).1 ∧
        (random s.code).2.mem s.code.state = (after seed ((s.numbers s.code.state).length + 1)).mem () := by
      rcases hptrs rfl with rfl | ⟨hf, hr⟩
      · have hzero := random_zeros (hwords.trans (after_zero _))
        have halone := random_zeros (after_zero (s.numbers s.code.state).length)
        exact ⟨hzero.1.trans halone.1.symm, hzero.2.trans (after_zero _).symm⟩
      · have hsame := (Same.mk hwords hf hr).random
        exact ⟨hsame.1, hsame.2.words⟩
    refine ⟨?_, hnumber.2, fun _ => ?_⟩
    · rw [sequence_succ, ← hnumbers, hnumber.1]
    · rcases hptrs rfl with hzero | ⟨hf, hr⟩
      · exact .inl hzero
      · right
        exact ⟨congrArg advance hf, congrArg advance hr⟩
  · simp only [step, Function.update_of_ne ha]
    exact ⟨hnumbers, (random_other s.code ha).trans hwords, fun h => absurd h ha⟩

/-- While every array that is selected again was left after a multiple of 31 numbers or has only zeros, each array
gives the numbers that it would give alone. -/
theorem random_switching (g : Globals A) {calls : List (Call A)} (h : Machine.Guarded step Ok (.start g) calls) :
    ∀ a seed, (Machine.run step (.start g) calls).seed a = some seed →
      (Machine.run step (.start g) calls).numbers a =
      sequence seed ((Machine.run step (.start g) calls).numbers a).length := by
  have hstart : Inv (.start g : State A) := fun a seed hseed => by cases hseed
  have hstep : ∀ (s : State A) a, Inv s → Ok s a → Inv (step s a).2 := by
    intro s a hs hok
    cases a with
    | initstate seed state => exact inv_initstate hs seed state
    | setstate state => exact inv_setstate hs hok
    | random => exact inv_random hs
  intro a seed hseed
  exact (Machine.guarded_invariant hstep hstart h a seed hseed).1

/-- Two arrays, the first of which is selected again before it gave a number. -/
theorem random_switching_first :
    (Machine.run step (.start ⟨true, 0, 0, fun _ => []⟩) [.initstate 1 true, .initstate 2 false, .random,
    .setstate true, .random]).numbers true =
      sequence 1 1 := by
  refine random_switching ⟨true, 0, 0, fun _ => []⟩ 
    ?_ true 1 (by decide)
  refine ⟨⟨trivial, fun _ h => by cases h⟩, ⟨trivial, fun _ h => by cases h⟩,
    ⟨by decide +kernel, fun _ h => by cases h⟩, ⟨by decide, fun _ h => ?_⟩, ⟨by decide, fun _ h => by cases h⟩, trivial⟩
  cases h
  exact .inl (by decide)

/-- The first array is selected again after one number, and begins anew with other words. -/
theorem random_switching_back : ¬∀ (g : Globals Bool) (calls : List (Call Bool)),
    Machine.Guarded step Seeded (.start g) calls → ∀ a seed, (Machine.run step (.start g) calls).seed a = some seed →
      (Machine.run step (.start g) calls).numbers a =
      sequence seed ((Machine.run step (.start g) calls).numbers a).length := by
  intro h
  have hback := h ⟨true, 0, 0, fun _ => []⟩ [.initstate 1 true, .random, .initstate 2 false, .setstate true,
    .random] (by decide +kernel)
    true 1 (by decide)
  exact absurd hback (by decide +kernel)

end JACLibc.Random
