import JACLibc.CString
import JACLibc.Lib.Interleave
import Mathlib.Data.List.Nodup

/-!
# `pthread_mutex_t`

The mutexes of `pthread.h`: `pthread_mutex_lock`, `_trylock`, `_timedlock` and `_unlock`, with every access to the
shared words a step of its own.  Threads are named by their ids, which are positive.  The kernel keeps the threads
that sleep in `futex_wait`; it wakes any of them, and may also send one back for no reason.

Two things are remembered that the code does not store: the thread whose exchange took the futex last (`holder`), and
for each thread how many of its locks it has not undone (`depth`, raised when a lock returns and lowered when an
unlock is called).
-/

namespace JACLibc.Mutex

/-- `type` of a mutex. -/
inductive Kind
  | normal
  | recursive
  | errorcheck
  | robust
  deriving DecidableEq

/-- `pthread_mutex_t`, the threads asleep on its futex, and the holder. -/
structure Shared where
  futex : Nat
  owner : Nat
  kind : Kind
  recursiveCount : Int
  asleep : List Nat
  holder : Option Nat
  deriving DecidableEq

/-- Where a thread is in a call, by the access that comes next. -/
inductive Phase
  /-- outside of any call -/
  | out
  /-- `mutex->recursive_count++` -/
  | bump
  /-- the exchange in the loop of `pthread_mutex_lock` -/
  | swap
  /-- `__jacl_pthread_futex_wait` -/
  | wait
  /-- asleep, or about to return from the kernel -/
  | sleep
  /-- the exchange of `pthread_mutex_trylock` -/
  | trySwap
  /-- the exchange in the loop of `pthread_mutex_timedlock` -/
  | timedSwap
  /-- `mutex->owner = __jacl_pthread_gettid()` -/
  | own
  /-- `mutex->recursive_count = 1` -/
  | countOne
  /-- `mutex->recursive_count--` -/
  | drop
  /-- `mutex->owner = 0` of an unlock -/
  | disown
  /-- `mutex->recursive_count = 0` -/
  | countZero
  /-- `atomic_store(&mutex->futex, 0)` -/
  | release
  /-- `__jacl_pthread_futex_wake` -/
  | wake
  deriving DecidableEq

structure Thread where
  phase : Phase
  depth : Nat
  deriving DecidableEq

/-- What a call returns. -/
inductive Ret
  | ok
  | EDEADLK
  | EBUSY
  | ETIMEDOUT
  | EOWNERDEAD
  deriving DecidableEq

/-- A call, or the next access of the call that the thread is in.  The outside decides whether a weak exchange or a wait
fails for no reason, whether the kernel reports a dead owner, whether the time is over, and which thread is woken. -/
inductive Act
  | lock
  | trylock
  | timedlock
  | unlock
  | next (fail dead late : Bool) (who : Nat)
  deriving DecidableEq

/-- The kernel reports a dead owner. -/
def Act.dead : Act → Bool
  | .next _ dead _ _ => dead
  | _ => false

/-- The answer of a call that has returned, the shared state and the thread. -/
abbrev Moved := Option Ret × Shared × Thread

/-- A call of a locking function. -/
def Act.locks : Act → Bool
  | .lock | .trylock | .timedlock => true
  | _ => false

/-- A call that goes on. -/
def goto (g : Shared) (l : Thread) (ph : Phase) : Moved := (none, g, { l with phase := ph })

/-- A call that returns. -/
def ret (g : Shared) (l : Thread) (r : Ret) : Moved := (some r, g, { l with phase := .out })

/-- A lock that returns with the mutex. -/
def locked (g : Shared) (l : Thread) : Moved := (some .ok, g, ⟨.out, l.depth + 1⟩)

/-- What the three locking functions do first: a recursive or checking mutex compares its owner with the caller. -/
def enter (g : Shared) (i : Nat) (l : Thread) (ph : Phase) : Moved :=
  if (g.kind = .errorcheck ∨ g.kind = .recursive) ∧ g.owner = i then
    if g.kind = .errorcheck then ret g l .EDEADLK else goto g l .bump
  else goto g l ph

/-- `pthread_mutex_unlock` up to its first store. -/
def unlock (g : Shared) (l : Thread) : Moved :=
  if g.kind = .recursive ∧ g.recursiveCount > 1 then (none, g, ⟨.drop, l.depth - 1⟩) else (none, g,
    ⟨.disown, l.depth - 1⟩)

/-- An exchange of 0 for 1 on the futex; where it fails, the call goes on as `other`. -/
def exchange (g : Shared) (i : Nat) (l : Thread) (fail : Bool) (other : Moved) : Moved :=
  if g.futex = 0 ∧ fail = false then goto { g with futex := 1, holder := some i } l .own else other

/-- The kernel wakes one sleeping thread, `who` if it sleeps. -/
def wakeOne (asleep : List Nat) (who : Nat) : List Nat := if who ∈ asleep then asleep.erase who else asleep.tail

/-- A move of thread `i`; what its phase does not allow does nothing. -/
def move (g : Shared) (i : Nat) (l : Thread) (a : Act) : Moved :=
  match a, l.phase with
  | .lock, .out => enter g i l .swap
  | .trylock, .out => enter g i l .trySwap
  | .timedlock, .out => enter g i l .timedSwap
  | .unlock, .out => unlock g l
  | .next _ _ _ _, .bump => locked { g with recursiveCount := wrapInt (g.recursiveCount + 1) } l
  | .next fail _ _ _, .swap => exchange g i l fail (goto g l .wait)
  | .next fail dead _ _, .wait =>
    if dead then ret { g with owner := 0 } l .EOWNERDEAD
    else if fail ∨ g.futex ≠ 1 then goto g l .swap
    else goto { g with asleep := g.asleep ++ [i] } l .sleep
  | .next fail _ _ _, .sleep =>
    if i ∈ g.asleep then
      if fail then goto { g with asleep := g.asleep.erase i } l .swap else goto g l .sleep
    else goto g l .swap
  | .next _ _ _ _, .trySwap => exchange g i l false (ret g l .EBUSY)
  | .next fail _ late _, .timedSwap => exchange g i l fail (if late then ret g l .ETIMEDOUT else goto g l .timedSwap)
  | .next _ _ _ _, .own =>
    if g.kind = .recursive then goto { g with owner := i } l .countOne else locked { g with owner := i } l
  | .next _ _ _ _, .countOne => locked { g with recursiveCount := 1 } l
  | .next _ _ _ _, .drop => ret { g with recursiveCount := wrapInt (g.recursiveCount - 1) } l .ok
  | .next _ _ _ _, .disown => goto { g with owner := 0 } l (if g.kind = .recursive then .countZero else .release)
  | .next _ _ _ _, .countZero => goto { g with recursiveCount := 0 } l .release
  | .next _ _ _ _, .release => goto { g with futex := 0, holder := none } l .wake
  | .next _ _ _ who, .wake => ret { g with asleep := wakeOne g.asleep who } l .ok
  | _, _ => (none, g, l)

abbrev State := Interleave.State Shared Nat Thread

/-- `pthread_mutex_init`: the mutex is free and all threads are outside. -/
def init (kind : Kind) : State := ⟨⟨0, 0, kind, 0, [], none⟩, fun _ => ⟨.out, 0⟩⟩

def step : State → Nat × Act → Option Ret × State := Interleave.step move

/-- Ids are positive, only a thread that has locked the mutex unlocks it, and the kernel does not report a dead owner,
which `FUTEX_WAIT` never does. -/
def Fair (_ : Shared) (i : Nat) (l : Thread) (a : Act) : Prop :=
  0 < i ∧ (a = .unlock → l.phase = .out → 0 < l.depth) ∧ a.dead = false

instance (g : Shared) (i : Nat) (l : Thread) (a : Act) : Decidable (Fair g i l a) := by
  unfold Fair
  infer_instance

/-- Such a move, where no thread locks the mutex more often than an `int` can count. -/
def Counted (g : Shared) (i : Nat) (l : Thread) (a : Act) : Prop :=
  Fair g i l a ∧ (a.locks = true → (l.depth : Int) < INT_MAX)

instance (g : Shared) (i : Nat) (l : Thread) (a : Act) : Decidable (Counted g i l a) :=
  inferInstanceAs (Decidable (_ ∧ _))

/-! ### The invariant -/

/-- The futex tells whether there is a holder, and the owner is the holder where it is set. -/
structure Sound (g : Shared) : Prop where
  futex : g.futex = if g.holder = none then 0 else 1
  owner : g.owner ≠ 0 → g.holder = some g.owner

/-- A thread that holds the mutex and is not about to change its fields. -/
structure Holds (g : Shared) (i depth : Nat) : Prop where
  holder : g.holder = some i
  owner : g.owner = i
  count : g.kind = .recursive → g.recursiveCount = depth
  fits : (depth : Int) ≤ INT_MAX
  once : g.kind ≠ .recursive → depth = 1

/-- A thread that is not about to store in the mutex: it holds the mutex exactly if it has locked it. -/
structure Rest (g : Shared) (i depth : Nat) : Prop where
  holds : 0 < depth → Holds g i depth
  free : depth = 0 → g.holder ≠ some i

/-- What holds of a thread in its phase. -/
def Here (g : Shared) (i : Nat) (l : Thread) : Prop :=
  match l.phase with
  | .out | .swap | .wait | .sleep | .trySwap | .timedSwap => Rest g i l.depth
  | .bump => Holds g i l.depth ∧ g.kind = .recursive ∧ (l.depth : Int) < INT_MAX
  | .own => g.holder = some i ∧ l.depth = 0
  | .countOne => g.holder = some i ∧ g.owner = i ∧ g.kind = .recursive ∧ l.depth = 0
  | .drop => Holds g i (l.depth + 1) ∧ g.kind = .recursive ∧ 0 < l.depth
  | .disown => g.holder = some i ∧ l.depth = 0
  | .countZero | .release => g.holder = some i ∧ g.owner = 0 ∧ l.depth = 0
  | .wake => g.holder ≠ some i ∧ l.depth = 0

def Inv (g : Shared) (i : Nat) (l : Thread) : Prop := Sound g ∧ Here g i l


/-- A thread that neither holds the mutex nor is about to store in it. -/
def Free (l : Thread) : Prop :=
  l.depth = 0 ∧ (l.phase = .out ∨ l.phase = .swap ∨ l.phase = .wait ∨ l.phase = .sleep ∨ l.phase = .trySwap ∨
    l.phase = .timedSwap ∨ l.phase = .wake)

variable {g : Shared} {i k : Nat} {l m : Thread} {a : Act}

theorem here_of_not_holder (h : g.holder ≠ some i) : Here g i l ↔ Free l := by
  obtain ⟨ph, depth⟩ := l
  have hno : ∀ d, ¬Holds g i d := fun d hd => h hd.holder
  have hrest : ∀ d, Rest g i d ↔ d = 0 := by
    intro d
    constructor
    · intro hr
      by_contra hd
      exact hno d (hr.holds (Nat.pos_of_ne_zero hd))
    · rintro rfl
      exact ⟨fun hd => absurd hd (Nat.lt_irrefl 0), fun _ => h⟩
  cases ph <;> simp [Here, Free, h, hno, hrest]

/-- The fields that `Here` and `Sound` speak of are the same. -/
def Alike (g g' : Shared) : Prop :=
  g'.futex = g.futex ∧ g'.owner = g.owner ∧ g'.kind = g.kind ∧ g'.recursiveCount = g.recursiveCount ∧
    g'.holder = g.holder

theorem Alike.sound {g' : Shared} (h : Alike g g') (hg : Sound g) : Sound g' := by
  obtain ⟨hf, ho, -, -, hh⟩ := h
  exact ⟨by rw [hf, hh]; exact hg.futex, by rw [ho, hh]; exact hg.owner⟩

theorem Alike.holds {g' : Shared} (h : Alike g g') {d : Nat} (hd : Holds g i d) : Holds g' i d := by
  obtain ⟨-, ho, hk, hc, hh⟩ := h
  exact ⟨hh.trans hd.holder, ho.trans hd.owner, by rw [hk, hc]; exact hd.count, hd.fits, by rw [hk]; exact hd.once⟩


theorem Alike.here {g' : Shared} (h : Alike g g') (hl : Here g i l) : Here g' i l := by
  obtain ⟨ph, depth⟩ := l
  have hholds : ∀ {d}, Holds g i d → Holds g' i d := fun hd => h.holds hd
  obtain ⟨-, ho, hk, -, hh⟩ := h
  cases ph with
  | out | swap | wait | sleep | trySwap | timedSwap =>
    exact ⟨fun hd => hholds (hl.holds hd), fun hd h' => hl.free hd (hh ▸ h')⟩
  | bump => exact ⟨hholds hl.1, hk.trans hl.2.1, hl.2.2⟩
  | drop => exact ⟨hholds hl.1, hk.trans hl.2.1, hl.2.2⟩
  | own | disown => exact ⟨hh.trans hl.1, hl.2⟩
  | countOne => exact ⟨hh.trans hl.1, ho.trans hl.2.1, hk.trans hl.2.2.1, hl.2.2.2⟩
  | countZero | release => exact ⟨hh.trans hl.1, ho.trans hl.2.1, hl.2.2⟩
  | wake => exact ⟨fun h' => hl.1 (hh ▸ h'), hl.2⟩

theorem exchange_cases (fail : Bool) (other : Moved) :
    (g.futex = 0 ∧ exchange g i l fail other = goto { g with futex := 1, holder := some i } l .own) ∨
      exchange g i l fail other = other := by
  unfold exchange
  split
  · rename_i h
    exact Or.inl ⟨h.1, rfl⟩
  · exact Or.inr rfl

/-- While another thread holds the mutex, a free thread changes nothing but the sleepers. -/
theorem free_move (hl : Free l) (hfutex : g.futex = 1) (ha : Fair g i l a) : Alike g (move g i l a).2.1 := by
  obtain ⟨-, hunlock, hdead⟩ := ha
  obtain ⟨hdepth, hphase⟩ := hl
  have hswap : ∀ fail other, exchange g i l fail other = other := by
    intro fail other
    rcases exchange_cases (g := g) fail other with ⟨h0, -⟩ | h
    · omega
    · exact h
  have henter : ∀ ph, (enter g i l ph).2.1 = g := by
    intro ph
    unfold enter
    repeat' split
    all_goals rfl
  cases a with
  | lock | trylock | timedlock =>
    rcases hphase with h | h | h | h | h | h | h <;> simp [move, h, henter, Alike]
  | unlock =>
    rcases hphase with h | h | h | h | h | h | h
    · exact absurd (hunlock rfl h) (by omega)
    all_goals simp [move, h, Alike]
  | next fail dead late who =>
    change dead = false at hdead
    subst hdead
    rcases hphase with h | h | h | h | h | h | h
    · simp [move, h, Alike]
    · simp [move, h, hswap, goto, Alike]
    · simp only [move, h, Bool.false_eq_true, if_false]
      split <;> simp [goto, Alike]
    · simp only [move, h]
      repeat' split
      all_goals simp [goto, Alike]
    · simp [move, h, hswap, ret, Alike]
    · simp only [move, h, hswap]
      split <;> simp [goto, ret, Alike]
    · simp [move, h, ret, Alike]

/-- A move gives the mutex to nobody but the thread that moves. -/
theorem move_holder : (move g i l a).2.1.holder = g.holder ∨ (move g i l a).2.1.holder = some i ∨
    (move g i l a).2.1.holder = none := by
  have hswap : ∀ fail other, other.2.1 = g →
      (exchange g i l fail other).2.1.holder = g.holder ∨ (exchange g i l fail other).2.1.holder = some i := by
    intro fail other hother
    rcases exchange_cases fail other with ⟨-, h⟩ | h
    · exact Or.inr (by rw [h]; rfl)
    · exact Or.inl (by rw [h, hother])
  unfold move
  split
  case h_6 fail _ _ _ _ =>
    rcases hswap fail (goto g l .wait) rfl with h | h <;> simp [h]
  case h_9 =>
    rcases hswap false (ret g l .EBUSY) rfl with h | h <;> simp [h]
  case h_10 fail _ late _ _ =>
    rcases hswap fail (if late then ret g l .ETIMEDOUT else goto g l .timedSwap) (by split <;> rfl) with h | h <;>
      simp [h]
  all_goals
    try unfold enter
    try unfold unlock
    repeat' split
    all_goals simp [goto, ret, locked]

/-- Whatever another thread does, a thread keeps what holds of it. -/
theorem here_other (hg : Sound g) (hi : Here g i l) (hk : Here g k m) (hne : k ≠ i) (ha : Fair g i l a) :
    Here (move g i l a).2.1 k m := by
  by_cases hholder : g.holder = some k
  · -- the other thread holds the mutex, so the one that moves is free
    have hother : g.holder ≠ some i := by
      rw [hholder]
      exact fun h => hne (Option.some.inj h)
    have hfutex : g.futex = 1 := by rw [hg.futex, hholder]; rfl
    have halike := free_move ((here_of_not_holder hother).1 hi) hfutex ha
    exact halike.here hk
  · have hfree : Free m := (here_of_not_holder hholder).1 hk
    refine (here_of_not_holder ?_).2 hfree
    rcases move_holder (g := g) (i := i) (l := l) (a := a) with h | h | h <;> rw [h]
    · exact hholder
    · exact fun hki => hne (Option.some.inj hki).symm
    · exact fun h => nomatch h

/-! ### What a move keeps -/

/-- A call of a locking function. -/
theorem enter_inv (hg : Sound g) (hl : Here g i l) (hout : l.phase = .out) (hi : 0 < i)
    (hfits : (l.depth : Int) < INT_MAX) {ph : Phase} (hph : ph = .swap ∨ ph = .trySwap ∨ ph = .timedSwap) :
    Inv (enter g i l ph).2.1 i (enter g i l ph).2.2 := by
  simp only [Here, hout] at hl
  unfold enter
  split
  · rename_i hself
    have hholder : g.holder = some i := by
      have := hg.owner (by omega)
      rw [hself.2] at this
      exact this
    have hdepth : 0 < l.depth := by
      by_contra hd
      exact hl.free (by omega) hholder
    split
    · exact ⟨hg, hl⟩
    · rename_i hcheck
      exact ⟨hg, hl.holds hdepth, hself.1.resolve_left hcheck, hfits⟩
  · refine ⟨hg, ?_⟩
    rcases hph with rfl | rfl | rfl <;> exact hl

/-- A call of `pthread_mutex_unlock` by a thread that holds the mutex. -/
theorem unlock_inv (hg : Sound g) (hl : Here g i l) (hout : l.phase = .out) (hdepth : 0 < l.depth) :
    Inv (unlock g l).2.1 i (unlock g l).2.2 := by
  simp only [Here, hout] at hl
  replace hl := hl.holds hdepth
  unfold unlock
  split
  · rename_i hrec
    have hcount := hl.count hrec.1
    have hback : l.depth - 1 + 1 = l.depth := by omega
    refine ⟨hg, ?_, hrec.1, show 0 < l.depth - 1 by omega⟩
    rw [hback]
    exact hl
  · rename_i hrec
    refine ⟨hg, hl.holder, show l.depth - 1 = 0 from ?_⟩
    by_cases hkind : g.kind = .recursive
    · have hcount := hl.count hkind
      have hle : ¬g.recursiveCount > 1 := fun h => hrec ⟨hkind, h⟩
      omega
    · have := hl.once hkind
      omega

/-- An exchange that succeeds makes the thread the holder; otherwise the call goes on. -/
theorem exchange_inv (hg : Sound g) (hl : Rest g i l.depth) (fail : Bool)
    {other : Moved} (hother : Inv other.2.1 i other.2.2) :
    Inv (exchange g i l fail other).2.1 i (exchange g i l fail other).2.2 := by
  rcases exchange_cases fail other with ⟨h0, h⟩ | h
  · have hnone : g.holder = none := by
      by_contra hsome
      have hone := hg.futex
      rw [if_neg hsome, h0] at hone
      cases hone
    rw [h]
    refine ⟨⟨rfl, fun howner => ?_⟩, rfl, ?_⟩
    · have := hg.owner howner
      rw [hnone] at this
      cases this
    · by_contra hd
      have := (hl.holds (Nat.pos_of_ne_zero hd)).holder
      rw [hnone] at this
      cases this
  · rw [h]
    exact hother

/-- A lock that returns. -/
theorem locked_inv {g' : Shared} (hg : Sound g') (hl : Holds g' i (l.depth + 1)) :
    Inv (locked g' l).2.1 i (locked g' l).2.2 := by
  exact ⟨hg, fun _ => hl, fun h => nomatch h⟩

/-- The thread that moves keeps its invariant. -/
theorem move_inv (h : Inv g i l) (ha : Counted g i l a) : Inv (move g i l a).2.1 i (move g i l a).2.2 := by
  obtain ⟨hg, hl⟩ := h
  obtain ⟨⟨hi, hunlock, hdead⟩, hlocks⟩ := ha
  have hrefl := hl
  have hone : ((0 + 1 : Nat) : Int) ≤ INT_MAX := by decide
  unfold move
  split
  case h_1 hout => exact enter_inv hg hl hout hi (hlocks rfl) (Or.inl rfl)
  case h_2 hout => exact enter_inv hg hl hout hi (hlocks rfl) (Or.inr (Or.inl rfl))
  case h_3 hout => exact enter_inv hg hl hout hi (hlocks rfl) (Or.inr (Or.inr rfl))
  case h_4 hout => exact unlock_inv hg hl hout (hunlock rfl hout)
  case h_5 hphase =>
    simp only [Here, hphase] at hl
    obtain ⟨hl, hkind, hfits⟩ := hl
    have hle : (l.depth : Int) + 1 ≤ INT_MAX := Int.add_one_le_of_lt hfits
    refine locked_inv ⟨hg.futex, hg.owner⟩ ⟨hl.holder, hl.owner,
      fun _ => ?_, by exact_mod_cast hle, fun hk => absurd hkind hk⟩
    change wrapInt (g.recursiveCount + 1) = ((l.depth + 1 : Nat) : Int)
    rw [hl.count hkind, wrapInt_of_le (by omega) hle, Nat.cast_succ]
  case h_6 hphase =>
    simp only [Here, hphase] at hl
    exact exchange_inv hg hl _ ⟨hg, hl⟩
  case h_7 fail dead late who hphase =>
    simp only [Here, hphase] at hl
    split
    · rename_i hd
      exact absurd (hd.symm.trans hdead) (by decide)
    split
    · exact ⟨hg, hl⟩
    · exact ⟨⟨hg.futex, hg.owner⟩, Alike.here (g := g) ⟨rfl, rfl, rfl, rfl, rfl⟩ hl⟩
  case h_8 hphase =>
    simp only [Here, hphase] at hl
    repeat' split
    · exact ⟨⟨hg.futex, hg.owner⟩, Alike.here (g := g) ⟨rfl, rfl, rfl, rfl, rfl⟩ hl⟩
    · exact ⟨hg, hl⟩
    · exact ⟨hg, hl⟩
  case h_9 hphase =>
    simp only [Here, hphase] at hl
    exact exchange_inv hg hl _ ⟨hg, hl⟩
  case h_10 hphase =>
    simp only [Here, hphase] at hl
    refine exchange_inv hg hl _ ?_
    split <;> exact ⟨hg, hl⟩
  case h_11 hphase =>
    simp only [Here, hphase] at hl
    obtain ⟨hholder, hdepth⟩ := hl
    have hsound : Sound { g with owner := i } := ⟨hg.futex, fun _ => hholder⟩
    split
    · rename_i hkind
      exact ⟨hsound, hholder, rfl, hkind, hdepth⟩
    · rename_i hkind
      exact locked_inv hsound ⟨hholder, rfl, fun h => absurd h hkind, hdepth ▸ hone, fun _ => by rw [hdepth]⟩
  case h_12 hphase =>
    simp only [Here, hphase] at hl
    obtain ⟨hholder, howner, hkind, hdepth⟩ := hl
    exact locked_inv ⟨hg.futex, hg.owner⟩ ⟨hholder, howner, fun _ => by rw [hdepth]; rfl, hdepth ▸ hone,
      fun h => absurd hkind h⟩
  case h_13 hphase =>
    simp only [Here, hphase] at hl
    obtain ⟨hl, hkind, hdepth⟩ := hl
    have hfits := hl.fits
    rw [Nat.cast_succ] at hfits
    have hmax : (l.depth : Int) ≤ INT_MAX := by omega
    refine ⟨⟨hg.futex, hg.owner⟩, fun _ => ⟨hl.holder, hl.owner, fun _ => ?_, hmax, fun h => absurd hkind h⟩,
      fun h => absurd h (Nat.ne_of_gt hdepth)⟩
    change wrapInt (g.recursiveCount - 1) = l.depth
    rw [hl.count hkind, Nat.cast_succ, Int.add_sub_cancel, wrapInt_of_le (Int.natCast_nonneg _) (by omega)]
  case h_14 hphase =>
    simp only [Here, hphase] at hl
    refine ⟨⟨hg.futex, fun h => absurd rfl h⟩, ?_⟩
    simp only [goto]
    split <;> exact ⟨hl.1, rfl, hl.2⟩
  case h_15 hphase =>
    simp only [Here, hphase] at hl
    exact ⟨⟨hg.futex, hg.owner⟩, hl⟩
  case h_16 hphase =>
    simp only [Here, hphase] at hl
    exact ⟨⟨rfl, fun h => absurd hl.2.1 h⟩, (fun h => nomatch h), hl.2.2⟩
  case h_17 hphase =>
    simp only [Here, hphase] at hl
    exact ⟨⟨hg.futex, hg.owner⟩, fun h => absurd hl.2 (Nat.ne_of_gt h), fun _ => hl.1⟩
  case h_18 => exact ⟨hg, hrefl⟩

/-- In every run the invariant holds of every thread. -/
theorem run_inv (kind : Kind) {as : List (Nat × Act)}
    (has : Machine.Guarded step (Interleave.Allowed Counted) (init kind) as) :
    Interleave.All Inv (Machine.run step (init kind) as) := by
  refine Interleave.local_invariant (fun _ _ _ _ h ha => move_inv h ha) ?_ ?_ has
  · intro g i l a k m hne hi hk ha
    exact ⟨(move_inv hi ha).1, here_other hi.1 hi.2 hk.2 hne ha.1⟩
  · intro i
    exact ⟨⟨rfl, fun h => absurd rfl h⟩, fun h => absurd h (Nat.lt_irrefl 0), fun _ h => nomatch h⟩

/-! ### Mutual exclusion -/

/-- A thread that has locked the mutex and is not in a call. -/
def Inside (s : State) (i : Nat) : Prop := (s.thread i).phase = .out ∧ 0 < (s.thread i).depth

theorem kind_move : (move g i l a).2.1.kind = g.kind := by
  unfold move
  split
  all_goals
    try unfold enter
    try unfold unlock
    try unfold exchange
    repeat' split
    all_goals rfl

theorem kind_run (kind : Kind) (as : List (Nat × Act)) : (Machine.run step (init kind) as).shared.kind = kind := by
  have hstep : ∀ s a, s.shared.kind = kind → (step s a).2.shared.kind = kind := fun s a hs => kind_move.trans hs
  exact Machine.run_invariant hstep rfl as

/-- Whatever the order of the steps, the number of threads, and the sleepers that the kernel wakes or sends back: at
most one thread has the mutex, as long as only who has it unlocks it and nobody has more locks than an `int` can
count.  That thread is the owner, and a recursive mutex counts its locks; a mutex of another kind was locked once.  Of
a checking mutex exactly the thread that has it is told `EDEADLK` when it locks it again. -/
theorem mutual_exclusion (kind : Kind) {as : List (Nat × Act)}
    (has : Machine.Guarded step (Interleave.Allowed Counted) (init kind) as) {i : Nat}
    (hi : Inside (Machine.run step (init kind) as) i) :
    let s := Machine.run step (init kind) as
    s.shared.futex = 1 ∧ s.shared.owner = i ∧ (∀ k, Inside s k → k = i) ∧
      (if kind = .recursive then s.shared.recursiveCount = (s.thread i).depth else (s.thread i).depth = 1) ∧
      ∀ k, 0 < k → (s.thread k).phase = .out → ((step s (k, .lock)).1 = some .EDEADLK ↔ kind = .errorcheck ∧
      k = i) := by
  have hinv := run_inv kind has
  have hkind := kind_run kind as
  generalize Machine.run step (init kind) as = s at hinv hi hkind
  have hholds : ∀ k, Inside s k → Holds s.shared k (s.thread k).depth := by
    intro k hk
    have hhere := (hinv k).2
    simp only [Here, hk.1] at hhere
    exact hhere.holds hk.2
  have hthis := hholds i hi
  refine ⟨by rw [(hinv i).1.futex, hthis.holder]; rfl, hthis.owner, fun k hk => ?_, ?_, fun k hpos hout => ?_⟩
  · have := (hholds k hk).holder
    rw [hthis.holder] at this
    exact (Option.some.inj this).symm
  · split
    · rename_i h
      exact hthis.count (hkind.trans h)
    · rename_i h
      exact hthis.once fun hk => h (hkind.symm.trans hk)
  · have hstep : (step s (k, .lock)).1 = (enter s.shared k (s.thread k) .swap).1 := by
      simp [step, Interleave.step, move, hout]
    rw [hstep, ← hkind, enter, hthis.owner]
    by_cases hself : i = k
    · subst hself
      by_cases hcheck : s.shared.kind = .errorcheck
      · simp [hcheck, ret]
      · by_cases hrec : s.shared.kind = .recursive <;> simp [hrec, hcheck, goto]
    · have hne : k ≠ i := fun h => hself h.symm
      simp [hself, hne, goto]

/-- One step of a call in which nothing goes wrong. -/
def go : Act := .next false false false 0

theorem mutual_exclusion_nested :
    let s := Machine.run step (init .recursive) [(7, .lock), (7, go), (3, .lock), (7, go), (3, go), (7, go),
    (7, .lock), (7, go)]
    s.shared.owner = 7 ∧ s.shared.recursiveCount = 2 := by
  have h := @mutual_exclusion .recursive
    [(7, .lock), (7, go), (3, .lock), (7, go), (3, go), (7, go), (7, .lock), (7, go)] (by decide) 7
      ⟨by decide, by decide⟩
  exact ⟨h.2.1, h.2.2.2.1.trans (by decide)⟩

/-! ### No wake-up is lost -/

/-- A thread on its way to the exchange of `pthread_mutex_lock`, or about to wake a sleeper. -/
def Stirring (g : Shared) (i : Nat) (l : Thread) : Prop :=
  l.phase = .swap ∨ l.phase = .wait ∨ l.phase = .wake ∨ (l.phase = .sleep ∧ i ∉ g.asleep)

/-- Who is in the kernel's list sleeps, nobody is in it twice, and while the mutex is free somebody looks after the
list. -/
structure Watched (s : State) : Prop where
  sleeps : ∀ i ∈ s.shared.asleep, (s.thread i).phase = .sleep
  nodup : s.shared.asleep.Nodup
  stirring : s.shared.futex = 0 → s.shared.asleep ≠ [] → ∃ i, Stirring s.shared i (s.thread i)

theorem wakeOne_sublist (asleep : List Nat) (who : Nat) : (wakeOne asleep who).Sublist asleep := by
  unfold wakeOne
  split
  · exact List.erase_sublist
  · exact List.tail_sublist asleep

/-- One sleeper is woken if there is one. -/
theorem wakeOne_wakes {asleep : List Nat} (hnodup : asleep.Nodup) (hne : asleep ≠ []) (who : Nat) :
    ∃ w ∈ asleep, w ∉ wakeOne asleep who := by
  unfold wakeOne
  split
  · rename_i hwho
    exact ⟨who, hwho, fun h => (hnodup.mem_erase_iff.1 h).1 rfl⟩
  · cases asleep with
    | nil => exact absurd rfl hne
    | cons w rest => exact ⟨w, List.mem_cons_self, (List.nodup_cons.1 hnodup).1⟩

/-- What a move does to the list of sleepers and to the futex.  Its own thread may go to sleep on a taken mutex, be
sent back by the kernel, or wake another; and only a thread that then wakes others frees the mutex. -/
inductive Sleepers (g : Shared) (i : Nat) (l : Thread) : Shared → Thread → Prop
  | same {g' : Shared} {l' : Thread} (hasleep : g'.asleep = g.asleep) (hfutex : g'.futex = 0 → g.futex = 0)
      (hphase : l.phase = .sleep → i ∈ g.asleep → l'.phase = .sleep)
      (hstir : g'.futex = 0 → Stirring g i l → Stirring g' i l') : Sleepers g i l g' l'
  | freed {g' : Shared} {l' : Thread} (hasleep : g'.asleep = g.asleep) (hphase : l.phase = .release)
    (hwake : l'.phase = .wake) :
      Sleepers g i l g' l'
  | sleep {g' : Shared} {l' : Thread} (hasleep : g'.asleep = g.asleep ++ [i]) (hfutex : g'.futex = 1)
    (hwait : l.phase = .wait)
      (hphase : l'.phase = .sleep) : Sleepers g i l g' l'
  | back {g' : Shared} {l' : Thread} (hasleep : g'.asleep = g.asleep.erase i) (hphase : l'.phase = .swap) :
      Sleepers g i l g' l'
  | wake {g' : Shared} {l' : Thread} (who : Nat) (hasleep : g'.asleep = wakeOne g.asleep who)
      (hwake : l.phase = .wake) :
      Sleepers g i l g' l'

/-- A move that neither starts nor ends in the loop of `pthread_mutex_lock`, nor frees the mutex. -/
theorem Sleepers.plain {g' : Shared} {l' : Thread} (hasleep : g'.asleep = g.asleep) (hfutex : g'.futex = g.futex)
    (hsleep : l.phase ≠ .sleep) (hswap : l.phase ≠ .swap) (hwait : l.phase ≠ .wait) (hwake : l.phase ≠ .wake) :
    Sleepers g i l g' l' := by
  refine .same hasleep (fun h => hfutex ▸ h) (fun h => absurd h hsleep) fun _ h => ?_
  rcases h with h | h | h | h
  · exact absurd h hswap
  · exact absurd h hwait
  · exact absurd h hwake
  · exact absurd h.1 hsleep

theorem exchange_sleepers {fail : Bool} {other : Moved} (hsleep : l.phase ≠ .sleep)
    (hother : Sleepers g i l other.2.1 other.2.2) :
    Sleepers g i l (exchange g i l fail other).2.1 (exchange g i l fail other).2.2 := by
  rcases exchange_cases (g := g) (i := i) (l := l) fail other with ⟨-, h⟩ | h
  · rw [h]
    exact .same rfl (fun h => nomatch h) (fun h => absurd h hsleep) fun h => nomatch h
  · rw [h]
    exact hother

theorem move_sleepers (ha : Fair g i l a) : Sleepers g i l (move g i l a).2.1 (move g i l a).2.2 := by
  obtain ⟨-, -, hdead⟩ := ha
  have henter : ∀ ph, l.phase = .out → Sleepers g i l (enter g i l ph).2.1 (enter g i l ph).2.2 := by
    intro ph h
    unfold enter
    repeat' split
    all_goals exact .plain rfl rfl (by simp [h]) (by simp [h]) (by simp [h]) (by simp [h])
  unfold move
  split
  case h_1 h | h_2 h | h_3 h => exact henter _ h
  case h_4 h =>
    unfold unlock
    split <;> exact .plain rfl rfl (by simp [h]) (by simp [h]) (by simp [h]) (by simp [h])
  case h_6 h =>
    refine exchange_sleepers (by simp [h]) (.same rfl id (by simp [h]) fun _ _ => Or.inr (Or.inl rfl))
  case h_7 fail dead late who h =>
    split
    · rename_i hd
      exact absurd (hd.symm.trans hdead) (by decide)
    split
    · exact .same rfl id (by simp [h]) fun _ _ => Or.inl rfl
    · rename_i hgo
      have hone : g.futex = 1 := by
        by_contra hone
        exact hgo (Or.inr hone)
      exact .sleep rfl hone h rfl
  case h_8 h =>
    split
    · split
      · exact .back rfl rfl
      · refine .same rfl id (fun _ _ => rfl) fun _ hstir => ?_
        rcases hstir with hs | hs | hs | hs
        · exact absurd (h.symm.trans hs) (by decide)
        · exact absurd (h.symm.trans hs) (by decide)
        · exact absurd (h.symm.trans hs) (by decide)
        · exact Or.inr (Or.inr (Or.inr ⟨rfl, hs.2⟩))
    · rename_i hnot
      exact .same rfl id (fun _ hin => absurd hin hnot) fun _ _ => Or.inl rfl
  case h_9 h | h_10 h =>
    refine exchange_sleepers (by simp [h]) ?_
    first
    | exact .plain rfl rfl (by simp [h]) (by simp [h]) (by simp [h]) (by simp [h])
    | split <;> exact .plain rfl rfl (by simp [h]) (by simp [h]) (by simp [h]) (by simp [h])
  case h_11 h =>
    split <;> exact .plain rfl rfl (by simp [h]) (by simp [h]) (by simp [h]) (by simp [h])
  case h_16 h => exact .freed rfl h rfl
  case h_17 who h => exact .wake who rfl h
  case h_18 => exact .same rfl id (fun h _ => h) fun _ h => h
  all_goals
    rename_i h
    exact .plain rfl rfl (by simp [h]) (by simp [h]) (by simp [h]) (by simp [h])

/-- A move of another thread leaves a stirring thread as it is, unless that goes to sleep. -/
theorem Stirring.mono {g' : Shared} (h : Stirring g i l) (hasleep : i ∈ g'.asleep → i ∈ g.asleep) :
    Stirring g' i l := by
  rcases h with h | h | h | h
  · exact Or.inl h
  · exact Or.inr (Or.inl h)
  · exact Or.inr (Or.inr (Or.inl h))
  · exact Or.inr (Or.inr (Or.inr ⟨h.1, fun hin => h.2 (hasleep hin)⟩))

/-- A step keeps the sleepers watched. -/
theorem step_watched {s : State} (hs : Watched s) {a : Nat × Act} (ha : Interleave.Allowed Fair s a) :
    Watched (step s a).2 := by
  obtain ⟨i, act⟩ := a
  have hmove := move_sleepers (a := act) ha
  have hself : (step s (i, act)).2.thread i = (move s.shared i (s.thread i) act).2.2 := Interleave.step_self (i, act)
  have hother : ∀ k, k ≠ i → (step s (i, act)).2.thread k = s.thread k := fun k hk => Interleave.step_other (i, act) hk
  rw [← hself] at hmove
  change Sleepers s.shared i (s.thread i) (step s (i, act)).2.shared _ at hmove
  generalize (step s (i, act)).2 = s' at hmove hself hother
  cases hmove with
  | same hasleep hfutex hphase hstir =>
    refine ⟨fun k hk => ?_, hasleep ▸ hs.nodup, fun hfree hne => ?_⟩
    · rw [hasleep] at hk
      by_cases hki : k = i
      · rw [hki] at hk ⊢
        exact hphase (hs.sleeps i hk) hk
      · rw [hother k hki]
        exact hs.sleeps k hk
    · rw [hasleep] at hne
      obtain ⟨k, hk⟩ := hs.stirring (hfutex hfree) hne
      refine ⟨k, ?_⟩
      by_cases hki : k = i
      · rw [hki] at hk ⊢
        exact hstir hfree hk
      · rw [hother k hki]
        exact hk.mono fun hin => hasleep ▸ hin
  | freed hasleep hrelease hwake =>
    refine ⟨fun k hk => ?_, hasleep ▸ hs.nodup, fun _ _ => ⟨i, Or.inr (Or.inr (Or.inl hwake))⟩⟩
    rw [hasleep] at hk
    have hsleep := hs.sleeps k hk
    by_cases hki : k = i
    · rw [hki, hrelease] at hsleep
      cases hsleep
    · rw [hother k hki]
      exact hsleep
  | sleep hasleep hfutex hwait hphase =>
    have hnotin : i ∉ s.shared.asleep := by
      intro hin
      have := hs.sleeps i hin
      rw [hwait] at this
      cases this
    refine ⟨fun k hk => ?_, ?_, fun hfree => absurd hfree (by omega)⟩
    · by_cases hki : k = i
      · rw [hki]
        exact hphase
      · rw [hasleep, List.mem_append, List.mem_singleton] at hk
        rw [hother k hki]
        exact hs.sleeps k (hk.resolve_right hki)
    · rw [hasleep]
      exact List.nodup_append.2 ⟨hs.nodup, List.nodup_singleton i, fun x hx y hy hxy => by
        rw [List.mem_singleton] at hy
        exact hnotin (hy ▸ hxy ▸ hx)⟩
  | back hasleep hphase =>
    refine ⟨fun k hk => ?_, hasleep ▸ hs.nodup.erase i, fun _ _ => ⟨i, Or.inl hphase⟩⟩
    rw [hasleep] at hk
    obtain ⟨hki, hk⟩ := hs.nodup.mem_erase_iff.1 hk
    rw [hother k hki]
    exact hs.sleeps k hk
  | wake who hasleep hwake =>
    have hsub := wakeOne_sublist s.shared.asleep who
    have hnot : ∀ k ∈ s.shared.asleep, k ≠ i := by
      rintro k hk rfl
      have := hs.sleeps k hk
      rw [hwake] at this
      cases this
    refine ⟨fun k hk => ?_, hasleep ▸ hs.nodup.sublist hsub, fun _ hne => ?_⟩
    · rw [hasleep] at hk
      have hin := hsub.subset hk
      rw [hother k (hnot k hin)]
      exact hs.sleeps k hin
    · have hsome : s.shared.asleep ≠ [] := by
        intro hnil
        rw [hasleep, hnil] at hne
        exact hne (List.sublist_nil.1 (hnil ▸ hsub))
      obtain ⟨w, hw, hawake⟩ := wakeOne_wakes hs.nodup hsome who
      refine ⟨w, Or.inr (Or.inr (Or.inr ⟨?_, hasleep ▸ hawake⟩))⟩
      rw [hother w (hnot w hw)]
      exact hs.sleeps w hw

/-- The futex tells whether there is a holder. -/
def Marked (g : Shared) : Prop := g.futex = if g.holder = none then 0 else 1

/-- Whatever is done, it does. -/
theorem marked_move (h : Marked g) : Marked (move g i l a).2.1 := by
  unfold move
  split
  all_goals
    try unfold enter
    try unfold unlock
    try unfold exchange
    repeat' split
    all_goals first | exact h | rfl

theorem marked_run (kind : Kind) (as : List (Nat × Act)) : Marked (Machine.run step (init kind) as).shared := by
  have hstep : ∀ s a, Marked s.shared → Marked (step s a).2.shared := fun _ _ hs => marked_move hs
  exact Machine.run_invariant hstep (s := init kind) rfl as

/-- No wake-up is lost: in whatever order the threads take their steps, as long as a thread sleeps on the mutex, the
mutex is taken, or some thread is in the loop of `pthread_mutex_lock` and not asleep, or one is about to wake a
sleeper. -/
theorem no_lost_wakeup (kind : Kind) {as : List (Nat × Act)}
    (has : Machine.Guarded step (Interleave.Allowed Fair) (init kind) as) {i : Nat}
    (hi : i ∈ (Machine.run step (init kind) as).shared.asleep) :
    let s := Machine.run step (init kind) as
    (∃ k, s.shared.futex = 1 ∧ s.shared.holder = some k) ∨ ∃ k, Stirring s.shared k (s.thread k) := by
  have hinit : Watched (init kind) := ⟨fun _ h => absurd h List.not_mem_nil, List.nodup_nil, fun _ h => absurd rfl h⟩
  have hstep : ∀ s a, Watched s → Interleave.Allowed Fair s a → Watched (step s a).2 := fun _ _ hs ha =>
    step_watched hs ha
  have hwatched := Machine.guarded_invariant hstep hinit has
  have hfutex := marked_run kind as
  unfold Marked at hfutex
  generalize Machine.run step (init kind) as = s at hi hwatched hfutex
  cases hholder : s.shared.holder with
  | none =>
    rw [hholder] at hfutex
    exact Or.inr (hwatched.stirring hfutex (List.ne_nil_of_mem hi))
  | some k =>
    rw [hholder] at hfutex
    exact Or.inl ⟨k, hfutex, hholder⟩

theorem no_lost_wakeup_released :
    let s := Machine.run step (init .normal)
      [(7, .lock), (7, go), (7, go), (3, .lock), (3, go), (3, go), (7, .unlock), (7, go), (7, go)]
    s.shared.asleep = [3] ∧
      ((∃ k, s.shared.futex = 1 ∧ s.shared.holder = some k) ∨ ∃ k, Stirring s.shared k (s.thread k)) :=
  ⟨by decide, @no_lost_wakeup .normal
    [(7, .lock), (7, go), (7, go), (3, .lock), (3, go), (3, go), (7, .unlock), (7, go), (7, go)] (by decide) 3
      (by decide)⟩

end JACLibc.Mutex
