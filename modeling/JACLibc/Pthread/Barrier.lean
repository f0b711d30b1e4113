import JACLibc.Lib.Interleave
import Mathlib.Data.Fintype.Card
import Mathlib.Data.Fintype.Fin

/-!
# `pthread_barrier_t`

`pthread_barrier_wait` of `pthread.h`, called again and again by the `n` threads for which the barrier was made, with
every access to the shared words a step of its own.  A thread that is not the last to come waits until `phase` is not
what it read; the last one sets `count` back, raises `phase`, which wraps at `2^32`, and wakes the sleepers.

Two things are remembered that the code does not store: which thread was the last one of each round (`winners`), and
for each thread what its calls returned (`answers`).
-/

namespace JACLibc.Barrier

variable {n : Nat}

/-- `pthread_barrier_t`, the threads asleep on its phase, and the last threads of the rounds, oldest first. -/
structure Shared (n : Nat) where
  count : Nat
  phase : Nat
  waiters : Nat
  asleep : List (Fin n)
  winners : List (Fin n)

/-- Where a thread is in `pthread_barrier_wait`, by the access that comes next; `ph` is the phase that it read. -/
inductive Place
  /-- outside -/
  | out
  /-- `atomic_fetch_add(&barrier->count, 1)` -/
  | arrive (ph : Nat)
  /-- `atomic_fetch_add(&barrier->waiters, 1)` -/
  | join (ph : Nat)
  /-- the test of the waiting loop -/
  | spin (ph : Nat)
  /-- `__jacl_pthread_futex_wait` -/
  | wait (ph : Nat)
  /-- asleep, or about to return from the kernel -/
  | sleep (ph : Nat)
  /-- `atomic_store(&barrier->count, 0)` -/
  | last
  /-- `atomic_fetch_add(&barrier->phase, 1)` -/
  | turn
  /-- `__jacl_pthread_futex_wake` -/
  | wake
  deriving DecidableEq

structure Thread where
  place : Place
  answers : List Bool
  deriving DecidableEq

/-- What `pthread_barrier_wait` returns. -/
def PTHREAD_BARRIER_SERIAL_THREAD : Int := -1

abbrev Moved (n : Nat) := Option Int × Shared n × Thread

def goto (g : Shared n) (l : Thread) (pl : Place) : Moved n := (none, g, { l with place := pl })

/-- A call that returns. -/
def ret (g : Shared n) (l : Thread) (serial : Bool) : Moved n :=
  (some (if serial then PTHREAD_BARRIER_SERIAL_THREAD else 0), g, ⟨.out, l.answers ++ [serial]⟩)

/-- A move of thread `i`; the kernel may send a sleeper back for no reason (`back`). -/
def move (g : Shared n) (i : Fin n) (l : Thread) (back : Bool) : Moved n :=
  match l.place with
  | .out => goto g l (.arrive g.phase)
  | .arrive ph => goto { g with count := g.count + 1 } l (if g.count + 1 < n then .join ph else .last)
  | .join ph => goto { g with waiters := (g.waiters + 1) % 2 ^ 32 } l (.spin ph)
  | .spin ph => if g.phase = ph then goto g l (.wait ph) else ret g l false
  | .wait ph =>
    if g.phase = ph ∧ back = false then goto { g with asleep := g.asleep ++ [i] } l (.sleep ph) else goto g l (.spin ph)
  | .sleep ph =>
    if i ∈ g.asleep ∧ back = false then goto g l (.sleep ph)
    else goto { g with asleep := g.asleep.erase i } l (.spin ph)
  | .last => goto { g with count := 0 } l .turn
  | .turn => goto { g with phase := (g.phase + 1) % 2 ^ 32, winners := g.winners ++ [i] } l .wake
  | .wake => ret { g with asleep := g.asleep.drop (n - 1) } l true

abbrev State (n : Nat) := Interleave.State (Shared n) (Fin n) Thread

/-- `pthread_barrier_init` with `count = n`. -/
def init (n : Nat) : State n := ⟨⟨0, 0, 0, [], []⟩, fun _ => ⟨.out, []⟩⟩

def step : State n → Fin n × Bool → Option Int × State n := Interleave.step move

/-! ### The invariant -/

/-- Inside the waiting branch, with the phase that was read. -/
def Place.inside : Place → Option Nat
  | .join ph | .spin ph | .wait ph | .sleep ph => some ph
  | _ => none

/-- The number of rounds that are over. -/
def Shared.round (g : Shared n) : Nat := g.winners.length

/-- What holds of a thread: outside and on its way in it has come back from every round; inside, from every round or
from every one but the last; and it was told that it was the last one exactly in the rounds in which it was. -/
structure Here (g : Shared n) (i : Fin n) (l : Thread) : Prop where
  phase : g.phase = g.round % 2 ^ 32
  out : l.place = .out → l.answers.length = g.round
  arrive : ∀ ph, l.place = .arrive ph → l.answers.length = g.round ∧ ph = g.phase
  inside : ∀ ph, l.place.inside = some ph → ph = l.answers.length % 2 ^ 32 ∧
    (l.answers.length = g.round ∨ l.answers.length + 1 = g.round)
  turning : l.place = .last ∨ l.place = .turn → l.answers.length = g.round
  wake : l.place = .wake → l.answers.length + 1 = g.round ∧ g.winners[l.answers.length]? = some i
  answers : ∀ (r : Nat) (b : Bool), l.answers[r]? = some b → ∃ w, g.winners[r]? = some w ∧ (b = true ↔ w = i)
  loser : ∀ ph, l.place.inside = some ph → ∀ w, g.winners[l.answers.length]? = some w → w ≠ i

/-- Waiting for the round that is not over. -/
def Current (s : State n) (k : Fin n) : Prop :=
  (s.thread k).place.inside.isSome = true ∧ (s.thread k).answers.length = s.shared.round

instance (s : State n) (k : Fin n) : Decidable (Current s k) := inferInstanceAs (Decidable (_ ∧ _))

/-- The threads that wait for the round that is not over. -/
def current (s : State n) : Finset (Fin n) := Finset.univ.filter (Current s)

/-- About to end the round. -/
def Turning (s : State n) (z : Fin n) : Prop := (s.thread z).place = .last ∨ (s.thread z).place = .turn

/-- The counter is the number of the threads that wait for the round; once the last one has come, all others wait for
it. -/
structure Inv (s : State n) : Prop where
  here : ∀ i, Here s.shared i (s.thread i)
  count : (∀ z, ¬Turning s z) → s.shared.count = (current s).card
  less : (∀ z, ¬Turning s z) → 0 < n → s.shared.count < n
  others : ∀ z, Turning s z → ∀ k, k ≠ z → Current s k
  reset : ∀ z, (s.thread z).place = .turn → s.shared.count = 0

variable {g g' : Shared n} {i k z : Fin n} {l : Thread} {s : State n}

/-- A thread's facts only speak of the phase and of the last threads. -/
theorem Here.congr (h : Here g i l) (hphase : g'.phase = g.phase) (hwinners : g'.winners = g.winners) :
    Here g' i l := by
  have hround : g'.round = g.round := by rw [Shared.round, hwinners, Shared.round]
  obtain ⟨h1, h2, h3, h4, h5, h6, h7, h8⟩ := h
  refine ⟨?_, ?_, ?_, ?_, ?_, ?_, ?_, ?_⟩
  · rwa [hphase, hround]
  · rwa [hround]
  · rwa [hphase, hround]
  · rwa [hround]
  · rwa [hround]
  · rwa [hround, hwinners]
  · rwa [hwinners]
  · rwa [hwinners]

/-- In the waiting branch the steps of a thread change nothing that its facts speak of. -/
theorem Here.stay (h : Here g i l) {pl : Place} {ph : Nat} (hin : l.place.inside = some ph)
    (hpl : pl.inside = some ph) :
    Here g i { l with place := pl } := by
  obtain ⟨h1, -, -, h4, -, -, h7, h8⟩ := h
  have hph : ∀ ph', pl.inside = some ph' → l.place.inside = some ph' := fun ph' h => by rw [hin, ← hpl, h]
  refine ⟨h1, ?_, ?_, fun ph' h => h4 ph' (hph ph' h), ?_, ?_, h7, fun ph' h => h8 ph' (hph ph' h)⟩
  · rintro rfl
    cases hpl
  · rintro ph' rfl
    cases hpl
  · rintro (rfl | rfl) <;> cases hpl
  · rintro rfl
    cases hpl

/-- A thread in the waiting branch that sees another phase waited for the round before. -/
theorem Here.stale (h : Here g i l) {ph : Nat} (hin : l.place.inside = some ph) (hne : g.phase ≠ ph) :
    l.answers.length + 1 = g.round := by
  obtain ⟨hph, hlen | hlen⟩ := h.inside ph hin
  · rw [hlen] at hph
    exact absurd (h.phase.trans hph.symm) hne
  · exact hlen

/-- A call that returns adds its answer to those of its thread. -/
theorem Here.returns (h : Here g i l) (hlen : l.answers.length + 1 = g.round) {b : Bool} {w : Fin n}
    (hw : g.winners[l.answers.length]? = some w) (hb : b = true ↔ w = i) : Here g i ⟨.out, l.answers ++ [b]⟩ := by
  refine ⟨h.phase, fun _ => by simpa using hlen, ?_, ?_, ?_, ?_, ?_, ?_⟩
  · exact fun _ h => nomatch h
  · exact fun _ h => nomatch h
  · exact fun h => h.elim (fun h => nomatch h) (fun h => nomatch h)
  · exact fun h => nomatch h
  · intro r b' hr
    rcases Nat.lt_trichotomy r l.answers.length with hlt | rfl | hgt
    · rw [List.getElem?_append_left hlt] at hr
      exact h.answers r b' hr
    · rw [List.getElem?_concat_length, Option.some.injEq] at hr
      exact ⟨w, hw, hr ▸ hb⟩
    · rw [List.getElem?_eq_none (by rw [List.length_append]; exact hgt)] at hr
      cases hr
  · exact fun _ h => nomatch h

/-- The end of a round, for a thread that waits for it. -/
theorem Here.turned (h : Here g k l) {ph : Nat} (hin : l.place.inside = some ph) (hlen : l.answers.length = g.round)
    (hz : z ≠ k) (hphase : g'.phase = (g.phase + 1) % 2 ^ 32) (hwinners : g'.winners = g.winners ++ [z]) :
    Here g' k l := by
  have hround : g'.round = g.round + 1 := by simp [Shared.round, hwinners]
  have hin' : ∀ ph', l.place.inside = some ph' → ph' = ph := fun ph' h => by
    rw [hin, Option.some.injEq] at h
    exact h.symm
  refine ⟨?_, ?_, ?_, fun ph' h' => ?_, ?_, ?_, fun r b hr => ?_, fun ph' _ w hw => ?_⟩
  · rw [hphase, hround, h.phase, Nat.mod_add_mod]
  · intro hout
    rw [hout] at hin
    cases hin
  · intro ph' hout
    rw [hout] at hin
    cases hin
  · rw [hin' ph' h']
    exact ⟨(h.inside ph hin).1, Or.inr (by omega)⟩
  · rintro (hout | hout) <;> · rw [hout] at hin; cases hin
  · intro hout
    rw [hout] at hin
    cases hin
  · obtain ⟨w, hw, hb⟩ := h.answers r b hr
    refine ⟨w, ?_, hb⟩
    rw [hwinners, List.getElem?_append_left (List.getElem?_eq_some_iff.1 hw).1]
    exact hw
  · rw [hwinners, hlen, Shared.round, List.getElem?_concat_length, Option.some.injEq] at hw
    exact hw ▸ hz

/-! ### Steps -/

/-- What a step of thread `i` leaves: the others are as before, and the facts of all threads are known. -/
structure Stepped (s s' : State n) (i : Fin n) : Prop where
  other : ∀ k, k ≠ i → s'.thread k = s.thread k
  here : ∀ k, Here s'.shared k (s'.thread k)

theorem stepped {s' : State n} (h : Inv s) (hother : ∀ k, k ≠ i → s'.thread k = s.thread k)
    (hself : Here s'.shared i (s'.thread i)) (hphase : s'.shared.phase = s.shared.phase)
    (hwinners : s'.shared.winners = s.shared.winners) : Stepped s s' i := by
  refine ⟨hother, fun k => ?_⟩
  by_cases hk : k = i
  · rw [hk]
    exact hself
  · rw [hother k hk]
    exact (h.here k).congr hphase hwinners

/-- A step that takes a thread from one place to another, neither of them about to end the round, with the same threads
waiting for it and the same counter. -/
theorem inv_of_same {s' : State n} (h : Inv s) (hs : Stepped s s' i) (hcount : s'.shared.count = s.shared.count)
    (hcurrent : ∀ k, Current s' k ↔ Current s k) (hturning : ∀ k, Turning s' k ↔ Turning s k)
    (hturn : (s'.thread i).place = .turn → (s.thread i).place = .turn) : Inv s' := by
  have hset : current s' = current s := by
    ext k
    simp [current, hcurrent]
  refine ⟨hs.here, fun hnone => ?_, fun hnone hpos => ?_, fun z hz k hk => ?_, fun z hz => ?_⟩
  · rw [hcount, hset]
    exact h.count fun z hz => hnone z ((hturning z).2 hz)
  · rw [hcount]
    exact h.less (fun z hz => hnone z ((hturning z).2 hz)) hpos
  · exact (hcurrent k).2 (h.others z ((hturning z).1 hz) k hk)
  · rw [hcount]
    by_cases hzi : z = i
    · exact h.reset z (by rw [hzi] at hz ⊢; exact hturn hz)
    · exact h.reset z (by rw [hs.other z hzi] at hz; exact hz)

/-- The counter counts all other threads when it is about to reach the limit. -/
theorem others_current (h : Inv s) (hi : ¬Current s i) (hnone : ∀ z, ¬Turning s z) (hlast : ¬s.shared.count + 1 < n)
    (hk : k ≠ i) :
    Current s k := by
  have hcount := h.count hnone
  have hsub : current s ⊆ Finset.univ.erase i := by
    intro x hx
    rw [Finset.mem_erase]
    refine ⟨fun hxi => hi ?_, Finset.mem_univ x⟩
    rw [← hxi]
    exact (Finset.mem_filter.1 hx).2
  have hcard : (Finset.univ.erase i).card ≤ (current s).card := by
    rw [Finset.card_erase_of_mem (Finset.mem_univ i), Finset.card_univ, Fintype.card_fin]
    omega
  have hmem : k ∈ current s := by
    rw [Finset.eq_of_subset_of_card_le hsub hcard]
    exact Finset.mem_erase.2 ⟨hk, Finset.mem_univ k⟩
  exact (Finset.mem_filter.1 hmem).2

section Cases

variable {s' : State n} (h : Inv s) (hother : ∀ k, k ≠ i → s'.thread k = s.thread k)
  (hphase : s'.shared.phase = s.shared.phase) (hwinners : s'.shared.winners = s.shared.winners)

include h hother hphase hwinners

/-- The thread that moves waits for the round neither before nor after the step, or both, and is not about to end it. -/
theorem inv_of_quiet (hself : Here s'.shared i (s'.thread i)) (hcount : s'.shared.count = s.shared.count)
    (hcur : Current s' i ↔ Current s i) (hquiet : ¬Turning s i) (hquiet' : ¬Turning s' i) : Inv s' := by
  have hround : s'.shared.round = s.shared.round := by rw [Shared.round, hwinners, Shared.round]
  refine inv_of_same h (stepped h hother hself hphase hwinners) hcount (fun k => ?_) (fun k => ?_) fun hturn => ?_
  · by_cases hk : k = i
    · rw [hk]
      exact hcur
    · simp only [Current, hother k hk, hround]
  · by_cases hk : k = i
    · rw [hk]
      exact ⟨fun hz => absurd hz hquiet', fun hz => absurd hz hquiet⟩
    · simp only [Turning, hother k hk]
  · exact absurd (Or.inr hturn) hquiet'

/-- A step inside the waiting branch. -/
theorem inv_of_inside {pl : Place} {ph : Nat} (hself : s'.thread i = { s.thread i with place := pl })
    (hcount : s'.shared.count = s.shared.count) (hin : (s.thread i).place.inside = some ph)
    (hpl : pl.inside = some ph) :
    Inv s' := by
  have hround : s'.shared.round = s.shared.round := by rw [Shared.round, hwinners, Shared.round]
  have hnot : ∀ pl' : Place, pl'.inside = some ph → ¬(pl' = .last ∨ pl' = .turn) := by
    rintro pl' hpl' (rfl | rfl) <;> cases hpl'
  refine inv_of_quiet h hother hphase hwinners ?_ hcount ?_ (hnot _ hin) ?_
  · rw [hself]
    exact ((h.here i).stay hin hpl).congr hphase hwinners
  · simp only [Current, hself, hround, hin, hpl]
  · rw [Turning, hself]
    exact hnot _ hpl

end Cases

/-- The thread that comes last: all others wait, and it is about to end the round. -/
theorem inv_of_last {s' : State n} (h : Inv s) (hother : ∀ k, k ≠ i → s'.thread k = s.thread k)
    (hshared : s'.shared = { s.shared with count := s.shared.count + 1 })
    (hself : s'.thread i = { s.thread i with place := .last }) {ph : Nat} (hplace : (s.thread i).place = .arrive ph)
      (hlast : ¬s.shared.count + 1 < n) : Inv s' := by
  have hnone : ∀ z, ¬Turning s z := by
    intro z hz
    by_cases hzi : i = z
    · rw [← hzi, Turning, hplace] at hz
      exact hz.elim (fun h => nomatch h) (fun h => nomatch h)
    · have := (h.others z hz i hzi).1
      rw [hplace] at this
      cases this
  have hnot : ¬Current s i := by
    intro hc
    have := hc.1
    rw [hplace] at this
    cases this
  have hhere : Here s'.shared i (s'.thread i) := by
    obtain ⟨h1, -, h3, -, -, -, h7, -⟩ := h.here i
    rw [hself, hshared]
    exact ⟨h1, (fun h => nomatch h), (fun _ h => nomatch h), (fun _ h => nomatch h), fun _ => (h3 ph hplace).1,
      (fun h => nomatch h), h7, fun _ h => nomatch h⟩
  have hround : s'.shared.round = s.shared.round := by rw [hshared]; rfl
  have hstepped := stepped h hother hhere (by rw [hshared]) (by rw [hshared])
  refine ⟨hstepped.here, fun hnone' => absurd (Or.inl (by rw [hself])) (hnone' i),
    fun hnone' _ => absurd (Or.inl (by rw [hself])) (hnone' i), fun z hz k hk => ?_, fun z hz => ?_⟩
  · by_cases hzi : z = i
    · rw [hzi] at hk
      have hc := others_current h hnot hnone hlast hk
      exact ⟨by rw [hother k hk]; exact hc.1, by rw [hother k hk, hround]; exact hc.2⟩
    · rw [Turning, hother z hzi] at hz
      exact absurd hz (hnone z)
  · by_cases hzi : z = i
    · rw [hzi, hself] at hz
      cases hz
    · rw [hother z hzi] at hz
      exact absurd (Or.inr hz) (hnone z)

/-- The end of a round: all others waited for it, and nobody waits for the next one. -/
theorem inv_of_turn {s' : State n} (h : Inv s) (hother : ∀ k, k ≠ i → s'.thread k = s.thread k)
    (hshared : s'.shared = { s.shared with phase := (s.shared.phase + 1) % 2 ^ 32, winners := s.shared.winners ++ [i] })
    (hself : s'.thread i = { s.thread i with place := .wake }) (hplace : (s.thread i).place = .turn) : Inv s' := by
  have hothers := h.others i (Or.inr hplace)
  have hround : s'.shared.round = s.shared.round + 1 := by simp [Shared.round, hshared]
  have hlen := (h.here i).turning (Or.inr hplace)
  have hin : ∀ k, k ≠ i → ∃ ph, (s.thread k).place.inside = some ph :=
    fun k hk => Option.isSome_iff_exists.1 (hothers k hk).1
  have hhere : ∀ k, Here s'.shared k (s'.thread k) := by
    intro k
    by_cases hk : k = i
    · rw [hk, hself]
      obtain ⟨h1, -, -, -, -, -, h7, -⟩ := h.here i
      refine ⟨?_, (fun h => nomatch h), (fun _ h => nomatch h), (fun _ h => nomatch h), ?_, fun _ => ⟨?_, ?_⟩,
        fun r b hr => ?_, fun _ h => nomatch h⟩
      · rw [hround, hshared]
        show (s.shared.phase + 1) % 2 ^ 32 = (s.shared.round + 1) % 2 ^ 32
        rw [h1, Nat.mod_add_mod]
      · exact fun h => h.elim (fun h => nomatch h) (fun h => nomatch h)
      · rw [hround, ← hlen]
      · rw [hshared, hlen, Shared.round]
        exact List.getElem?_concat_length
      · obtain ⟨w, hw, hb⟩ := h7 r b hr
        refine ⟨w, ?_, hb⟩
        rw [hshared, List.getElem?_append_left (List.getElem?_eq_some_iff.1 hw).1]
        exact hw
    · obtain ⟨ph, hph⟩ := hin k hk
      rw [hother k hk]
      exact (h.here k).turned hph (hothers k hk).2 (fun hik => hk hik.symm) (by rw [hshared]) (by rw [hshared])
  have hnobody : ∀ k, ¬Current s' k := by
    intro k hc
    by_cases hk : k = i
    · have := hc.1
      rw [hk, hself] at this
      cases this
    · have := hc.2
      rw [hother k hk, (hothers k hk).2, hround] at this
      omega
  have hquiet : ∀ z, ¬Turning s' z := by
    intro z hz
    by_cases hzi : z = i
    · rw [hzi, Turning, hself] at hz
      exact hz.elim (fun h => nomatch h) (fun h => nomatch h)
    · rw [Turning, hother z hzi] at hz
      obtain ⟨ph, hph⟩ := hin z hzi
      rcases hz with hz | hz <;> · rw [hz] at hph; cases hph
  have hcount : s'.shared.count = 0 := by
    rw [hshared]
    exact h.reset i hplace
  refine ⟨hhere, fun _ => ?_, fun _ hpos => hcount ▸ hpos, fun z hz => absurd hz (hquiet z),
    fun z hz => absurd (Or.inr hz) (hquiet z)⟩
  have hempty : current s' = ∅ := by
    rw [current, Finset.filter_eq_empty_iff]
    exact fun k _ => hnobody k
  rw [hempty, hcount]
  rfl

/-- The thread that is not the last one to come joins those that wait. -/
theorem inv_of_join {s' : State n} (h : Inv s) (hother : ∀ k, k ≠ i → s'.thread k = s.thread k)
    (hshared : s'.shared = { s.shared with count := s.shared.count + 1 })
    {ph : Nat} (hself : s'.thread i = { s.thread i with place := .join ph })
    (hplace : (s.thread i).place = .arrive ph) (hlt : s.shared.count + 1 < n) : Inv s' := by
  obtain ⟨hlen, hph⟩ := (h.here i).arrive ph hplace
  have hround : s'.shared.round = s.shared.round := by rw [hshared]; rfl
  have hnone : ∀ z, ¬Turning s z := by
    intro z hz
    by_cases hzi : i = z
    · rw [← hzi, Turning, hplace] at hz
      exact hz.elim (fun h => nomatch h) (fun h => nomatch h)
    · have := (h.others z hz i hzi).1
      rw [hplace] at this
      cases this
  have hhere : Here s'.shared i (s'.thread i) := by
    obtain ⟨h1, -, -, -, -, -, h7, -⟩ := h.here i
    rw [hself, hshared]
    refine ⟨h1, (fun h => nomatch h), (fun _ h => nomatch h), ?_, ?_, (fun h => nomatch h), h7, ?_⟩
    · rintro ph' hph'
      cases hph'
      exact ⟨by rw [hph, h1, hlen], Or.inl hlen⟩
    · exact fun h => h.elim (fun h => nomatch h) (fun h => nomatch h)
    · intro _ _ w hw
      have hnil : s.shared.winners[(s.thread i).answers.length]? = none := by
        rw [hlen, Shared.round]
        exact List.getElem?_eq_none (Nat.le_refl _)
      rw [hnil] at hw
      cases hw
  have hstepped := stepped h hother hhere (by rw [hshared]) (by rw [hshared])
  have hquiet : ∀ z, ¬Turning s' z := by
    intro z hz
    by_cases hzi : z = i
    · rw [hzi, Turning, hself] at hz
      exact hz.elim (fun h => nomatch h) (fun h => nomatch h)
    · rw [Turning, hother z hzi] at hz
      exact hnone z hz
  have hset : current s' = insert i (current s) := by
    ext k
    rw [Finset.mem_insert, current, current, Finset.mem_filter, Finset.mem_filter]
    by_cases hk : k = i
    · rw [hk]
      simp [Current, hself, Place.inside, hround, hlen]
    · simp [Current, hother k hk, hround, hk]
  have hnot : i ∉ current s := by
    intro hc
    have := (Finset.mem_filter.1 hc).2.1
    rw [hplace] at this
    cases this
  refine ⟨hstepped.here, fun _ => ?_, fun _ _ => by rw [hshared]; exact hlt, fun z hz => absurd hz (hquiet z),
    fun z hz => absurd (Or.inr hz) (hquiet z)⟩
  rw [hset, Finset.card_insert_of_notMem hnot, hshared]
  rw [h.count hnone]

/-- The last thread sets the counter back. -/
theorem inv_of_reset {s' : State n} (h : Inv s) (hother : ∀ k, k ≠ i → s'.thread k = s.thread k)
    (hshared : s'.shared = { s.shared with count := 0 }) (hself : s'.thread i = { s.thread i with place := .turn })
    (hplace : (s.thread i).place = .last) : Inv s' := by
  have hothers := h.others i (Or.inl hplace)
  have hround : s'.shared.round = s.shared.round := by rw [hshared]; rfl
  have hhere : Here s'.shared i (s'.thread i) := by
    obtain ⟨h1, -, -, -, h5, -, h7, -⟩ := h.here i
    rw [hself, hshared]
    exact ⟨h1, (fun h => nomatch h), (fun _ h => nomatch h), (fun _ h => nomatch h), fun _ => h5 (Or.inl hplace),
      (fun h => nomatch h), h7, fun _ h => nomatch h⟩
  have hstepped := stepped h hother hhere (by rw [hshared]) (by rw [hshared])
  refine ⟨hstepped.here, fun hnone => absurd (Or.inr (by rw [hself])) (hnone i),
    fun hnone _ => absurd (Or.inr (by rw [hself])) (hnone i), fun z hz k hk => ?_, fun z _ => by rw [hshared]⟩
  have hzi : z = i := by
    by_contra hzi
    rw [Turning, hother z hzi] at hz
    exact hzi (by
      have := (hothers z hzi).1
      rcases hz with hz | hz <;> · rw [hz] at this; cases this)
  rw [hzi] at hk
  have hc := hothers k hk
  exact ⟨by rw [hother k hk]; exact hc.1, by rw [hother k hk, hround]; exact hc.2⟩

/-- A thread with an answer for the round that is over. -/
theorem inv_of_return {s' : State n} (h : Inv s) (hother : ∀ k, k ≠ i → s'.thread k = s.thread k)
    (hphase : s'.shared.phase = s.shared.phase) (hwinners : s'.shared.winners = s.shared.winners)
    (hcount : s'.shared.count = s.shared.count) {b : Bool} (hself : s'.thread i = ⟨.out, (s.thread i).answers ++ [b]⟩)
    (hlen : (s.thread i).answers.length + 1 = s.shared.round) (hquiet : ¬Turning s i)
    {w : Fin n} (hw : s.shared.winners[(s.thread i).answers.length]? = some w) (hb : b = true ↔ w = i) : Inv s' := by
  refine inv_of_quiet h hother hphase hwinners ?_ hcount ?_ hquiet ?_
  · rw [hself]
    exact ((h.here i).returns hlen hw hb).congr hphase hwinners
  · constructor
    · intro hc
      have := hc.1
      rw [hself] at this
      cases this
    · intro hc
      have := hc.2
      omega
  · rw [Turning, hself]
    exact fun h => h.elim (fun h => nomatch h) (fun h => nomatch h)

theorem step_inv (h : Inv s) (a : Fin n × Bool) : Inv (step s a).2 := by
  obtain ⟨i, back⟩ := a
  have hother : ∀ k, k ≠ i → (step s (i, back)).2.thread k = s.thread k :=
    fun k hk => Interleave.step_other (i, back) hk
  have hshared : (step s (i, back)).2.shared = (move s.shared i (s.thread i) back).2.1 := rfl
  have hself : (step s (i, back)).2.thread i = (move s.shared i (s.thread i) back).2.2 := Interleave.step_self (i, back)
  generalize (step s (i, back)).2 = s' at hother hshared hself
  cases hplace : (s.thread i).place with
  | out =>
    simp only [move, hplace, goto] at hshared hself
    refine inv_of_quiet h hother (by rw [hshared]) (by rw [hshared]) ?_ (by rw [hshared]) ?_ ?_ ?_
    · rw [hshared, hself]
      obtain ⟨h1, h2, -, -, -, -, h7, -⟩ := h.here i
      refine ⟨h1, (fun h => nomatch h), ?_, (fun _ h => nomatch h), ?_, (fun h => nomatch h), h7, fun _ h => nomatch h⟩
      · rintro ph hph
        cases hph
        exact ⟨h2 hplace, rfl⟩
      · exact fun h => h.elim (fun h => nomatch h) (fun h => nomatch h)
    · simp [Current, hself, hplace, Place.inside]
    · simp [Turning, hplace]
    · simp [Turning, hself]
  | arrive ph =>
    simp only [move, hplace, goto] at hshared hself
    by_cases hlt : s.shared.count + 1 < n
    · rw [if_pos hlt] at hself
      exact inv_of_join h hother hshared hself hplace hlt
    · rw [if_neg hlt] at hself
      exact inv_of_last h hother hshared hself hplace hlt
  | join ph =>
    simp only [move, hplace, goto] at hshared hself
    exact inv_of_inside h hother (by rw [hshared]) (by rw [hshared]) hself (by rw [hshared]) (by rw [hplace]; rfl) rfl
  | spin ph =>
    have hin : (s.thread i).place.inside = some ph := by rw [hplace]; rfl
    simp only [move, hplace] at hshared hself
    split at hself
    · rename_i hsame
      rw [if_pos hsame] at hshared
      exact inv_of_inside h hother (by rw [hshared]; rfl) (by rw [hshared]; rfl) hself (by rw [hshared]; rfl) hin rfl
    · rename_i hne
      rw [if_neg hne] at hshared
      -- the phase is another one: the round that the thread waited for is over, and another thread was its last
      have hlen := (h.here i).stale hin hne
      have hlt : (s.thread i).answers.length < s.shared.winners.length := by
        rw [← Shared.round]
        omega
      have hw := List.getElem?_eq_getElem hlt
      have hloser := (h.here i).loser ph hin _ hw
      exact inv_of_return h hother (by rw [hshared]; rfl) (by rw [hshared]; rfl) (by rw [hshared]; rfl) hself hlen
        (by simp [Turning, hplace]) hw ⟨(fun h => nomatch h), fun h => absurd h hloser⟩
  | wait ph =>
    have hin : (s.thread i).place.inside = some ph := by rw [hplace]; rfl
    simp only [move, hplace] at hshared hself
    split at hself
    · rename_i hgo
      rw [if_pos hgo] at hshared
      exact inv_of_inside h hother (by rw [hshared]; rfl) (by rw [hshared]; rfl) hself (by rw [hshared]; rfl) hin rfl
    · rename_i hgo
      rw [if_neg hgo] at hshared
      exact inv_of_inside h hother (by rw [hshared]; rfl) (by rw [hshared]; rfl) hself (by rw [hshared]; rfl) hin rfl
  | sleep ph =>
    have hin : (s.thread i).place.inside = some ph := by rw [hplace]; rfl
    simp only [move, hplace] at hshared hself
    split at hself
    · rename_i hgo
      rw [if_pos hgo] at hshared
      exact inv_of_inside h hother (by rw [hshared]; rfl) (by rw [hshared]; rfl) hself (by rw [hshared]; rfl) hin rfl
    · rename_i hgo
      rw [if_neg hgo] at hshared
      exact inv_of_inside h hother (by rw [hshared]; rfl) (by rw [hshared]; rfl) hself (by rw [hshared]; rfl) hin rfl
  | last =>
    simp only [move, hplace, goto] at hshared hself
    exact inv_of_reset h hother hshared hself hplace
  | turn =>
    simp only [move, hplace, goto] at hshared hself
    exact inv_of_turn h hother hshared hself hplace
  | wake =>
    simp only [move, hplace] at hshared hself
    obtain ⟨hlen, hw⟩ := (h.here i).wake hplace
    exact inv_of_return h hother (by rw [hshared]; rfl) (by rw [hshared]; rfl) (by rw [hshared]; rfl) hself hlen
      (by simp [Turning, hplace]) hw (by simp)

theorem init_inv (n : Nat) : Inv (init n) := by
  refine ⟨fun i => ⟨rfl, fun _ => rfl, (fun _ h => nomatch h), (fun _ h => nomatch h), ?_, (fun h => nomatch h), ?_,
    fun _ h => nomatch h⟩, fun _ => ?_, fun _ hpos => hpos, fun z hz => ?_, fun _ _ => rfl⟩
  · exact fun h => h.elim (fun h => nomatch h) (fun h => nomatch h)
  · exact fun r b h => nomatch (List.getElem?_nil.symm.trans h)
  · have hempty : current (init n) = ∅ := by
      rw [current, Finset.filter_eq_empty_iff]
      exact fun k _ hc => nomatch hc.1
    rw [hempty]
    rfl
  · exact hz.elim (fun h => nomatch h) (fun h => nomatch h)

theorem run_inv (n : Nat) (as : List (Fin n × Bool)) : Inv (Machine.run step (init n) as) := by
  have hstep : ∀ (s : State n) (a : Fin n × Bool), Inv s → Inv (step s a).2 := fun _ a hs => step_inv hs a
  exact Machine.run_invariant hstep (init_inv n) as

/-! ### What a barrier promises -/

/-- The number of times a thread has come to the barrier: the calls that returned, and the one in which it was
counted. -/
def arrivals (l : Thread) : Nat :=
  match l.place with
  | .out | .arrive _ => l.answers.length
  | _ => l.answers.length + 1

theorem round_le_arrivals (h : Here s.shared i (s.thread i)) : s.shared.round ≤ arrivals (s.thread i) := by
  unfold arrivals
  split
  · rename_i hplace
    exact Nat.le_of_eq (h.out hplace).symm
  · rename_i ph hplace
    exact Nat.le_of_eq (h.arrive ph hplace).1.symm
  · rename_i hout harrive
    cases hplace : (s.thread i).place with
    | out => exact absurd hplace hout
    | arrive ph => exact absurd hplace (harrive ph)
    | join ph | spin ph | wait ph | sleep ph =>
      have := (h.inside ph (by rw [hplace]; rfl)).2
      omega
    | last => exact Nat.le_succ_of_le (Nat.le_of_eq (h.turning (Or.inl hplace)).symm)
    | turn => exact Nat.le_succ_of_le (Nat.le_of_eq (h.turning (Or.inr hplace)).symm)
    | wake => exact Nat.le_of_eq (h.wake hplace).1.symm

theorem answers_le_round (h : Here s.shared i (s.thread i)) : (s.thread i).answers.length ≤ s.shared.round := by
  cases hplace : (s.thread i).place with
  | out => exact Nat.le_of_eq (h.out hplace)
  | arrive ph => exact Nat.le_of_eq (h.arrive ph hplace).1
  | join ph | spin ph | wait ph | sleep ph =>
    have := (h.inside ph (by rw [hplace]; rfl)).2
    omega
  | last => exact Nat.le_of_eq (h.turning (Or.inl hplace))
  | turn => exact Nat.le_of_eq (h.turning (Or.inr hplace))
  | wake =>
    have := (h.wake hplace).1
    omega

/-- Nobody comes back from a round before all have come to it, and of those who come back from a round exactly one is
told `PTHREAD_BARRIER_SERIAL_THREAD`. -/
structure Rounds (s : State n) : Prop where
  gathered : ∀ i k, (s.thread i).answers.length ≤ arrivals (s.thread k)
  serial : ∀ (r : Nat) (_ : Fin n), (∀ i, r < (s.thread i).answers.length) → ∃! i, (s.thread i).answers[r]? = some true

/-- For the `n` threads of a barrier, in any order of their steps and any number of rounds, also when the phase wraps.
-/
theorem barrier_rounds (n : Nat) (as : List (Fin n × Bool)) : Rounds (Machine.run step (init n) as) := by
  have hinv := run_inv n as
  generalize Machine.run step (init n) as = s at hinv
  refine ⟨fun i k => (answers_le_round (hinv.here i)).trans (round_le_arrivals (hinv.here k)), fun r i₀ hr => ?_⟩
  have hanswer : ∀ i, ∃ b w, (s.thread i).answers[r]? = some b ∧ s.shared.winners[r]? = some w ∧
    (b = true ↔ w = i) := by
    intro i
    have hb := List.getElem?_eq_getElem (hr i)
    obtain ⟨w, hw, hbw⟩ := (hinv.here i).answers r _ hb
    exact ⟨_, w, hb, hw, hbw⟩
  obtain ⟨-, w, -, hw, -⟩ := hanswer i₀
  refine ⟨w, ?_, fun i hi => ?_⟩
  · obtain ⟨b, w', hb, hw', hbw⟩ := hanswer w
    rw [hw, Option.some.injEq] at hw'
    show (s.thread w).answers[r]? = some true
    rw [hb, hbw.2 hw'.symm]
  · obtain ⟨b, w', hb, hw', hbw⟩ := hanswer i
    rw [hw, Option.some.injEq] at hw'
    have hi' : (s.thread i).answers[r]? = some true := hi
    rw [hi', Option.some.injEq] at hb
    exact (hbw.1 hb.symm).symm.trans hw'.symm

/-! ### No thread sleeps through the end of its round -/

/-- Who is in the kernel's list sleeps, nobody is in it twice, and while one is in it whose round is over, a thread is
about to wake them all. -/
structure Watched (s : State n) : Prop where
  sleeps : ∀ k ∈ s.shared.asleep, ∃ ph, (s.thread k).place = .sleep ph
  nodup : s.shared.asleep.Nodup
  wake : ∀ k ∈ s.shared.asleep, (s.thread k).answers.length ≠ s.shared.round → ∃ z, (s.thread z).place = .wake

/-- A step that leaves the list as it is. -/
theorem watched_of_same {s' : State n} (h : Watched s) (hother : ∀ k, k ≠ i → s'.thread k = s.thread k)
    (hasleep : s'.shared.asleep = s.shared.asleep) (hwinners : s'.shared.winners = s.shared.winners)
    (hawake : ∀ ph, (s.thread i).place ≠ .sleep ph) (hquiet : (s.thread i).place ≠ .wake) : Watched s' := by
  have hne : ∀ k ∈ s.shared.asleep, k ≠ i := by
    rintro k hk rfl
    obtain ⟨ph, hph⟩ := h.sleeps k hk
    exact hawake ph hph
  refine ⟨fun k hk => ?_, hasleep ▸ h.nodup, fun k hk hround => ?_⟩
  · rw [hasleep] at hk
    rw [hother k (hne k hk)]
    exact h.sleeps k hk
  · rw [hasleep] at hk
    rw [hother k (hne k hk), Shared.round, hwinners] at hround
    obtain ⟨z, hz⟩ := h.wake k hk hround
    refine ⟨z, ?_⟩
    rw [hother z fun hzi => hquiet (hzi ▸ hz)]
    exact hz

theorem step_watched (hinv : Inv s) (h : Watched s) (a : Fin n × Bool) : Watched (step s a).2 := by
  obtain ⟨i, back⟩ := a
  have hother : ∀ k, k ≠ i → (step s (i, back)).2.thread k = s.thread k :=
    fun k hk => Interleave.step_other (i, back) hk
  have hshared : (step s (i, back)).2.shared = (move s.shared i (s.thread i) back).2.1 := rfl
  have hself : (step s (i, back)).2.thread i = (move s.shared i (s.thread i) back).2.2 := Interleave.step_self (i, back)
  generalize (step s (i, back)).2 = s' at hother hshared hself
  cases hplace : (s.thread i).place with
  | out | arrive ph | join ph | last =>
    simp only [move, hplace, goto] at hshared
    exact watched_of_same h hother (by rw [hshared]) (by rw [hshared]) (by simp [hplace]) (by simp [hplace])
  | spin ph =>
    simp only [move, hplace] at hshared
    split at hshared
    all_goals
      exact watched_of_same h hother (by rw [hshared]; rfl) (by rw [hshared]; rfl) (by simp [hplace]) (by simp [hplace])
  | wait ph =>
    simp only [move, hplace] at hshared hself
    split at hself
    · rename_i hgo
      rw [if_pos hgo] at hshared
      have hnot : i ∉ s.shared.asleep := by
        intro hin
        obtain ⟨ph', hph'⟩ := h.sleeps i hin
        rw [hplace] at hph'
        cases hph'
      have hasleep : s'.shared.asleep = s.shared.asleep ++ [i] := by rw [hshared]; rfl
      have hround : s'.shared.round = s.shared.round := by rw [hshared]; rfl
      refine ⟨fun k hk => ?_, ?_, fun k hk hne => ?_⟩
      · by_cases hki : k = i
        · exact ⟨ph, by rw [hki, hself]; rfl⟩
        · rw [hasleep, List.mem_append, List.mem_singleton] at hk
          rw [hother k hki]
          exact h.sleeps k (hk.resolve_right hki)
      · rw [hasleep, List.nodup_append]
        refine ⟨h.nodup, List.nodup_singleton i, fun x hx y hy hxy => ?_⟩
        rw [List.mem_singleton] at hy
        exact hnot (hy ▸ hxy ▸ hx)
      · by_cases hki : k = i
        · -- the phase is still the one that was read, so that the round is not over
          have hlen : (s'.thread i).answers.length = (s.thread i).answers.length := by rw [hself]; rfl
          rw [hki, hlen, hround] at hne
          obtain ⟨hph, hlen'⟩ := (hinv.here i).inside ph (by rw [hplace]; rfl)
          have hphase := (hinv.here i).phase
          rw [hgo.1, hph] at hphase
          have hover := hlen'.resolve_left hne
          omega
        · rw [hasleep, List.mem_append, List.mem_singleton] at hk
          rw [hother k hki, hround] at hne
          obtain ⟨z, hz⟩ := h.wake k (hk.resolve_right hki) hne
          refine ⟨z, ?_⟩
          rw [hother z (by rintro rfl; rw [hplace] at hz; cases hz)]
          exact hz
    · rename_i hgo
      rw [if_neg hgo] at hshared
      exact watched_of_same h hother (by rw [hshared]; rfl) (by rw [hshared]; rfl) (by simp [hplace]) (by simp [hplace])
  | sleep ph =>
    simp only [move, hplace] at hshared hself
    split at hself
    · rename_i hgo
      rw [if_pos hgo] at hshared
      have hthread : s'.thread = s.thread := by
        funext k
        by_cases hki : k = i
        · rw [hki, hself, ← hplace]
          rfl
        · exact hother k hki
      have heq : s' = s := by
        obtain ⟨g', t'⟩ := s'
        obtain ⟨g, t⟩ := s
        simp only at hthread hshared
        rw [hthread, hshared]
        rfl
      rw [heq]
      exact h
    · rename_i hgo
      rw [if_neg hgo] at hshared
      have hasleep : s'.shared.asleep = s.shared.asleep.erase i := by rw [hshared]; rfl
      have hround : s'.shared.round = s.shared.round := by rw [hshared]; rfl
      refine ⟨fun k hk => ?_, hasleep ▸ h.nodup.erase i, fun k hk hne => ?_⟩
      · rw [hasleep] at hk
        obtain ⟨hki, hk⟩ := h.nodup.mem_erase_iff.1 hk
        rw [hother k hki]
        exact h.sleeps k hk
      · rw [hasleep] at hk
        obtain ⟨hki, hk⟩ := h.nodup.mem_erase_iff.1 hk
        rw [hother k hki, hround] at hne
        obtain ⟨z, hz⟩ := h.wake k hk hne
        refine ⟨z, ?_⟩
        rw [hother z (by rintro rfl; rw [hplace] at hz; cases hz)]
        exact hz
  | turn =>
    simp only [move, hplace, goto] at hshared hself
    have hasleep : s'.shared.asleep = s.shared.asleep := by rw [hshared]
    refine ⟨fun k hk => ?_, hasleep ▸ h.nodup, fun _ _ _ => ⟨i, by rw [hself]⟩⟩
    rw [hasleep] at hk
    obtain ⟨ph, hph⟩ := h.sleeps k hk
    refine ⟨ph, ?_⟩
    rw [hother k (by rintro rfl; rw [hplace] at hph; cases hph)]
    exact hph
  | wake =>
    simp only [move, hplace] at hshared
    -- the thread that wakes is not in the list, so that the list has at most `n - 1` entries
    have hsub : s.shared.asleep.toFinset ⊆ Finset.univ.erase i := by
      intro k hk
      rw [List.mem_toFinset] at hk
      rw [Finset.mem_erase]
      refine ⟨?_, Finset.mem_univ k⟩
      rintro rfl
      obtain ⟨ph, hph⟩ := h.sleeps k hk
      rw [hplace] at hph
      cases hph
    have hle := Finset.card_le_card hsub
    rw [List.toFinset_card_of_nodup h.nodup, Finset.card_erase_of_mem (Finset.mem_univ i), Finset.card_univ,
      Fintype.card_fin] at hle
    have hnil : s'.shared.asleep = [] := by
      rw [hshared]
      exact List.drop_eq_nil_of_le hle
    refine ⟨fun k hk => ?_, ?_, fun k hk => ?_⟩
    · rw [hnil] at hk
      exact absurd hk List.not_mem_nil
    · rw [hnil]
      exact List.nodup_nil
    · rw [hnil] at hk
      exact absurd hk List.not_mem_nil

/-- In any order of the steps: a thread that sleeps in the kernel waits for the round that is not over, for which some
thread has not come yet or is about to end it, or else a thread is about to wake all sleepers. -/
theorem barrier_wakes (n : Nat) (as : List (Fin n × Bool)) {i : Fin n}
    (hi : i ∈ (Machine.run step (init n) as).shared.asleep) :
    let s := Machine.run step (init n) as
    (∃ z, (s.thread z).place = .wake) ∨ ∃ z, arrivals (s.thread z) ≤ (s.thread i).answers.length ∨ Turning s z := by
  have hinit : Watched (init n) := ⟨fun _ h => absurd h List.not_mem_nil, List.nodup_nil,
    fun _ h => absurd h List.not_mem_nil⟩
  have hstep : ∀ (s : State n) (a : Fin n × Bool), Inv s ∧ Watched s → Inv (step s a).2 ∧ Watched (step s a).2 :=
    fun _ a hs => ⟨step_inv hs.1 a, step_watched hs.1 hs.2 a⟩
  obtain ⟨hinv, hwatched⟩ := Machine.run_invariant hstep ⟨init_inv n, hinit⟩ as
  generalize Machine.run step (init n) as = s at hi hinv hwatched
  by_cases hround : (s.thread i).answers.length = s.shared.round
  · right
    by_contra hall
    rw [not_exists] at hall
    -- otherwise all threads have come and wait, and the counter would have reached the limit
    have hquiet : ∀ z, ¬Turning s z := fun z hz => hall z (Or.inr hz)
    have hall' : ∀ k, Current s k := by
      intro k
      have hlt : s.shared.round < arrivals (s.thread k) := by
        rw [← hround]
        exact Nat.lt_of_not_le fun hle => hall k (Or.inl hle)
      have hle := answers_le_round (hinv.here k)
      have hhere := hinv.here k
      cases hplace : (s.thread k).place with
      | out | arrive ph =>
        simp only [arrivals, hplace] at hlt
        omega
      | join ph | spin ph | wait ph | sleep ph =>
        simp only [arrivals, hplace] at hlt
        exact ⟨by rw [hplace]; rfl, by omega⟩
      | last => exact absurd (Or.inl hplace) (hquiet k)
      | turn => exact absurd (Or.inr hplace) (hquiet k)
      | wake =>
        simp only [arrivals, hplace] at hlt
        have := (hhere.wake hplace).1
        omega
    have hcurrent : current s = Finset.univ := Finset.filter_true_of_mem fun k _ => hall' k
    have hcount := hinv.count hquiet
    have hless := hinv.less hquiet (Fin.pos i)
    rw [hcurrent, Finset.card_univ, Fintype.card_fin] at hcount
    omega
  · exact Or.inl (hwatched.wake i hi hround)

theorem barrier_wakes_first :
    let s := Machine.run step (init 2) (List.replicate 5 (0, false))
    s.shared.asleep = [0] ∧ ((∃ z, (s.thread z).place = .wake) ∨
      ∃ z, arrivals (s.thread z) ≤ (s.thread 0).answers.length ∨ Turning s z) :=
  ⟨by decide, @barrier_wakes 2 (List.replicate 5 (0, false)) 0 (by decide)⟩

end JACLibc.Barrier
