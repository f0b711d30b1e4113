import JACLibc.Ipc.SemSlots
import Mathlib.Data.List.Nodup

/-!
# What semaphores give and take

The value of a semaphore is what it was made or set with, and all that was given to it since less what was taken
(`sem_ledger`): the check of `semop` keeps the subtraction from wrapping for every vector that names no semaphore
twice, in whatever order the calls wait and are woken.  So nobody takes more than is there.
-/

namespace JACLibc.Sem

/-- What an event makes of the balance of a semaphore. -/
def Event.apply (idx : Index) (n : Int) : Event → Int
  | .made i value => if i = idx then value.toNat else n
  | .set i value => if i = idx then value.toNat else n
  | .change i op _ => if i = idx then n + op else n

/-- The first value or the last one that was set, and all operations since. -/
def balance (idx : Index) (events : List Event) : Int := events.foldl (Event.apply idx) 0

/-- The value of a semaphore. -/
def value (s : State) (idx : Index) : BitVec 32 := (s.slots idx).p.value

/-- A vector names no semaphore twice, no operation takes a value past `UINT_MAX`, and no semaphore is freed that a
call waits on. -/
structure Fair (pid : Int) (s : State) (c : Call) : Prop where
  bounds : InBounds s c
  distinct : ∀ semid sops, c = .semop semid (some sops) → (sops.map Sembuf.sem_num).Nodup
  small : ∀ idx op undo, .change idx op undo ∈ (step pid s c).1.events → 0 < op →
    ((value s idx).toNat : Int) + op < 2 ^ 32
  stays : ∀ w ∈ s.waiting, (s.slots w.idx).active = true → ((step pid s c).2.slots w.idx).active = true

/-! ### Values and events -/

/-- The events tell how the values changed. -/
def Tells (s : State) (events : List Event) (s' : State) : Prop :=
  ∀ idx, ((value s' idx).toNat : Int) = events.foldl (Event.apply idx) (value s idx).toNat

section Values

variable {s s' t : State} {idx x : Index} {events events' : List Event}

theorem Tells.trans (h : Tells s events s') (h' : Tells s' events' t) : Tells s (events ++ events') t := by
  intro x
  rw [h' x, h x, List.foldl_append]

theorem Tells.quiet (h : ∀ x, value s' x = value s x) : Tells s [] s' := fun x => by rw [h x, List.foldl_nil]

theorem value_setPrimitive {p : Primitive} : value (s.setPrimitive idx p) x = if x = idx then p.value
    else value s x := by
  unfold value
  by_cases hx : x = idx
  · rw [if_pos hx, hx, State.setPrimitive, setSlot_same]
  · rw [if_neg hx, State.setPrimitive, setSlot_ne hx]

theorem value_setValue {v : BitVec 32} : value (s.setValue idx v) x = if x = idx then v else value s x :=
  value_setPrimitive

theorem value_keeps {p : Primitive} (h : p.value = (s.slots idx).p.value) :
    value (s.setPrimitive idx p) x = value s x := by
  rw [value_setPrimitive]
  split
  · rename_i hx
    rw [h, hx, value]
  · rfl

theorem value_setLastPid {pid : Int} : value (s.setLastPid idx pid) x = value s x := value_keeps rfl

theorem value_count {zero : Bool} {n : BitVec 32} : value (s.count idx zero n) x = value s x := by
  refine value_keeps ?_
  split <;> rfl

theorem value_await {w : Waiting} : value (s.await w) x = value s x := value_count

theorem value_leave {n : Nat} {w : Waiting} : value (s.leave n w) x = value s x := value_count

theorem value_undoAdd {pid op : Int} : value (s.undoAdd pid idx op) x = value s x := by
  unfold State.undoAdd
  split
  · rfl
  · split <;> rfl

theorem value_slotFree : value (s.slotFree idx) x = value s x := by
  unfold value
  rw [slotFree_slots]
  split <;> rfl

theorem value_settle {i : Fin JACL_SEM_NAMED_MAX} {n : Named} : value (s.settle i n) x = value s x := by
  unfold State.settle
  split
  · exact value_slotFree
  · rfl

theorem value_freeAll {f : Nat → Index} {n : Nat} : value (freeAll s f n) x = value s x := by
  induction n with
  | zero => rfl
  | succ n ih => rw [freeAll_succ, value_slotFree, ih]

theorem value_disband {k : Fin JACL_SYSV_SEMSET_MAX} {n : Nat} : value (s.disband k n) x = value s x := by
  rw [disband_eq]
  exact value_freeAll

theorem tells_set {v : BitVec 32} : Tells s [.set idx v] (s.setValue idx v) := by
  intro x
  rw [value_setValue, List.foldl_cons, List.foldl_nil, Event.apply]
  by_cases hx : x = idx
  · rw [if_pos hx, if_pos hx.symm]
  · rw [if_neg hx, if_neg fun h => hx h.symm]

theorem tells_change {v : BitVec 32} {op : Int} {undo : Bool} (h : (v.toNat : Int) = (value s idx).toNat + op) :
    Tells s [.change idx op undo] (s.setValue idx v) := by
  intro x
  rw [value_setValue, List.foldl_cons, List.foldl_nil, Event.apply]
  by_cases hx : x = idx
  · rw [if_pos hx, if_pos hx.symm, hx, h]
  · rw [if_neg hx, if_neg fun h => hx h.symm]

theorem tells_made {v : BitVec 32} {anonymous : Bool} (h : s.slotAlloc v anonymous = some (idx, s')) :
    Tells s [.made idx v] s' := by
  obtain ⟨-, rfl⟩ := slotAlloc_spec h
  intro x
  rw [List.foldl_cons, List.foldl_nil, Event.apply]
  unfold value
  by_cases hx : x = idx
  · rw [if_pos hx.symm, hx, setSlot_same]
  · rw [if_neg fun h => hx h.symm, setSlot_ne hx]

end Values

/-! ### Vectors of operations -/

section Vectors

variable {s : State} {semid : Fin JACL_SYSV_SEMSET_MAX} {sops : List Sembuf} {pid : Int}

theorem toNat_ofInt {n : Int} (h0 : 0 ≤ n) (h1 : n < 2 ^ 32) : ((BitVec.ofInt 32 n).toNat : Int) = n := by
  rw [BitVec.toNat_ofInt, Int.toNat_of_nonneg (Int.emod_nonneg _ (by decide))]
  exact Int.emod_eq_of_lt h0 h1

theorem sem_op_bounds (op : Sembuf) : -2 ^ 15 ≤ op.sem_op.toInt ∧ op.sem_op.toInt < 2 ^ 15 := by
  have hlt := BitVec.toInt_lt (x := op.sem_op)
  have hle := BitVec.le_toInt (x := op.sem_op)
  omega

/-- An operation can be done: there is enough to take, and room for what is given. -/
def Covered (s : State) (idx : Index) (op : Int) : Prop :=
  (op < 0 → -op ≤ (value s idx).toNat) ∧ (0 < op → ((value s idx).toNat : Int) + op < 2 ^ 32)

theorem checkBlock_none (h : s.checkBlock semid sops = none) {op : Sembuf} (hop : op ∈ sops)
    (hneg : op.sem_op.toInt < 0) :
    -op.sem_op.toInt ≤ (value s (s.slotOf semid op)).toNat := by
  have hnone := List.findSome?_eq_none_iff.1 h op hop
  dsimp only at hnone
  split_ifs at hnone with htake hzero
  have hle := BitVec.not_lt.1 fun hlt => htake ⟨hneg, hlt⟩
  have hbounds := sem_op_bounds op
  rw [← toNat_ofInt (n := -op.sem_op.toInt) (by omega) (by omega)]
  exact Int.ofNat_le.2 (BitVec.le_def.1 hle)

theorem checkBlock_some {idx : Index} {zero : Bool} (h : s.checkBlock semid sops = some (idx, zero)) :
    ∃ op ∈ sops, s.slotOf semid op = idx := by
  obtain ⟨op, hop, heq⟩ := List.exists_of_findSome?_eq_some h
  refine ⟨op, hop, ?_⟩
  dsimp only at heq
  split_ifs at heq
  · exact congrArg Prod.fst (Option.some.inj heq)
  · exact congrArg Prod.fst (Option.some.inj heq)

theorem applyOp_tells {op : Sembuf} (h : Covered s (s.slotOf semid op) op.sem_op.toInt) :
    Tells s [.change (s.slotOf semid op) op.sem_op.toInt (State.undone op)] (State.applyOp pid semid s op) := by
  have hbounds := sem_op_bounds op
  have hlt := (value s (s.slotOf semid op)).isLt
  -- the undo log and `last_pid` have no part in it
  have hend : ∀ (t : State) (x : Index), value ((if op.sem_op.toInt ≠ 0 ∧ State.undone op then
      t.undoAdd pid (s.slotOf semid op) op.sem_op.toInt else t).setLastPid (s.slotOf semid op) pid) x = value t x := by
    intro t x
    rw [value_setLastPid]
    split
    · exact value_undoAdd
    · rfl
  have hchange : Tells s [.change (s.slotOf semid op) op.sem_op.toInt (State.undone op)]
      (if op.sem_op.toInt < 0 then s.setValue (s.slotOf semid op) (value s (s.slotOf semid op) - BitVec.ofInt 32
        (-op.sem_op.toInt))
        else if op.sem_op.toInt > 0 then s.setValue (s.slotOf semid op) (value s (s.slotOf semid op) +
          BitVec.ofInt 32 op.sem_op.toInt)
        else s) := by
    split_ifs with hneg hpos
    · refine tells_change ?_
      have htake := h.1 hneg
      have hn := toNat_ofInt (n := -op.sem_op.toInt) (by omega) (by omega)
      rw [BitVec.toNat_sub_of_le (BitVec.le_def.2 (by omega))]
      omega
    · refine tells_change ?_
      have hgive := h.2 hpos
      have hn := toNat_ofInt (n := op.sem_op.toInt) (by omega) (by omega)
      rw [BitVec.toNat_add, Nat.mod_eq_of_lt (by omega)]
      omega
    · intro x
      rw [List.foldl_cons, List.foldl_nil, Event.apply]
      have hzero : op.sem_op.toInt = 0 := by omega
      rw [hzero, Int.add_zero, ite_self]
  intro x
  rw [← hchange x]
  exact congrArg (fun v : BitVec 32 => (v.toNat : Int)) (hend _ x)

theorem applyOp_value_ne {op : Sembuf} {x : Index} (hx : x ≠ s.slotOf semid op) :
    value (State.applyOp pid semid s op) x = value s x := by
  unfold State.applyOp
  dsimp only
  rw [value_setLastPid]
  have hvalue : ∀ v w : BitVec 32, value (if op.sem_op.toInt < 0 then s.setValue (s.slotOf semid op) v
      else if op.sem_op.toInt > 0 then s.setValue (s.slotOf semid op) w else s) x = value s x := by
    intro v w
    split_ifs
    · rw [value_setValue, if_neg hx]
    · rw [value_setValue, if_neg hx]
    · rfl
  split
  · rw [value_undoAdd]
    exact hvalue _ _
  · exact hvalue _ _

theorem slotOf_same {s' : State} (h : Same s s') (op : Sembuf) : s'.slotOf semid op = s.slotOf semid op := by
  unfold State.slotOf
  rw [h.semsets]

theorem undoAdd_waiting {idx : Index} {op : Int} : (s.undoAdd pid idx op).waiting = s.waiting := by
  unfold State.undoAdd
  split
  · rfl
  · split <;> rfl

theorem applyOp_waiting {op : Sembuf} : (State.applyOp pid semid s op).waiting = s.waiting := by
  unfold State.applyOp
  have hvalue : ∀ idx (v w : BitVec 32), (if op.sem_op.toInt < 0 then s.setValue idx v
      else if op.sem_op.toInt > 0 then s.setValue idx w else s).waiting = s.waiting := by
    intro idx v w
    split_ifs <;> rfl
  change State.waiting (if op.sem_op.toInt ≠ 0 ∧ State.undone op then State.undoAdd pid _ _ _ else _) = s.waiting
  split
  · rw [undoAdd_waiting]
    exact hvalue _ _ _
  · exact hvalue _ _ _

theorem applyOps_waiting : (s.applyOps pid semid sops).waiting = s.waiting := by
  unfold State.applyOps
  induction sops generalizing s with
  | nil => rfl
  | cons op sops ih => exact ih.trans applyOp_waiting

/-- Operations on different semaphores that can each be done can be done one after another. -/
theorem applyOps_tells (hdistinct : (sops.map (s.slotOf semid)).Nodup)
    (hcovered : ∀ op ∈ sops, Covered s (s.slotOf semid op) op.sem_op.toInt) :
    Tells s (sops.map fun op => .change (s.slotOf semid op) op.sem_op.toInt (State.undone op))
    (s.applyOps pid semid sops) := by
  induction sops generalizing s with
  | nil => exact Tells.quiet fun _ => rfl
  | cons op sops ih =>
    rw [List.map_cons, List.nodup_cons] at hdistinct
    have hsame : Same s (State.applyOp pid semid s op) := Same.applyOp semid s op
    have hslots : (State.applyOp pid semid s op).slotOf semid = s.slotOf semid := funext fun op' =>
      slotOf_same hsame op'
    have hhead : Tells s [.change (s.slotOf semid op) op.sem_op.toInt (State.undone op)]
      (State.applyOp pid semid s op) :=
      applyOp_tells (hcovered op List.mem_cons_self)
    have htail := @ih (State.applyOp pid semid s op) (by rw [hslots]; exact hdistinct.2) (by
      intro op' hop'
      have hne : s.slotOf semid op' ≠ s.slotOf semid op := fun heq => hdistinct.1 (heq ▸ List.mem_map_of_mem hop')
      rw [hslots, Covered, applyOp_value_ne hne]
      exact hcovered op' (List.mem_cons_of_mem _ hop'))
    rw [hslots] at htail
    exact hhead.trans htail

end Vectors

/-! ### Calls that wait -/

/-- The vector names semaphores of the set, which is in use, and none twice. -/
structure Fits (s : State) (semid : Fin JACL_SYSV_SEMSET_MAX) (sops : List Sembuf) : Prop where
  active : (s.semsets semid).active = true
  distinct : (sops.map Sembuf.sem_num).Nodup
  inside : ∀ op ∈ sops, op.sem_num.toNat < (s.semsets semid).sem_nsems

/-- What a call waits at is in use, and the vector of a `semop` still fits its set and names the place. -/
def Stays (s : State) (w : Waiting) : Prop :=
  (s.slots w.idx).active = true ∧
    ∀ semid sops, w.request = .op semid sops → Fits s semid sops ∧ ∃ op ∈ sops, s.slotOf semid op = w.idx

/-- A call that leaves the tables as they are: its events tell what it did, and who waits after it waited before or
has reason to. -/
structure Moves (s : State) (events : List Event) (s' : State) : Prop where
  same : Same s s'
  tells : Tells s events s'
  came : ∀ w ∈ s'.waiting, w ∈ s.waiting ∨ Stays s w

section Moves

variable {s s' t : State} {idx : Index} {events events' : List Event} {semid : Fin JACL_SYSV_SEMSET_MAX}
  {sops : List Sembuf}
  {pid : Int} {w : Waiting}

theorem Fits.congr (h : Fits s semid sops) (hset : s'.semsets semid = s.semsets semid) : Fits s' semid sops := by
  constructor
  · rw [hset]
    exact h.active
  · exact h.distinct
  · rw [hset]
    exact h.inside

theorem Stays.congr (h : Stays s w) (hactive : (s'.slots w.idx).active = true)
    (hset : ∀ semid sops, w.request = .op semid sops → s'.semsets semid = s.semsets semid) : Stays s' w := by
  refine ⟨hactive, fun semid sops hop => ?_⟩
  obtain ⟨hfits, op, hmem, hslot⟩ := h.2 semid sops hop
  refine ⟨hfits.congr (hset semid sops hop), op, hmem, ?_⟩
  rw [State.slotOf, hset semid sops hop]
  exact hslot

theorem Moves.trans (h : Moves s events t) (h' : Moves t events' s') : Moves s (events ++ events') s' := by
  refine ⟨h.same.trans h'.same, h.tells.trans h'.tells, fun w hw => ?_⟩
  rcases h'.came w hw with hw | hw
  · exact h.came w hw
  · refine Or.inr (hw.congr ?_ fun semid _ _ => ?_)
    · rw [← h.same.active]
      exact hw.1
    · rw [h.same.semsets]

theorem Moves.refl (s : State) : Moves s [] s := ⟨Same.refl s, Tells.quiet fun _ => rfl, fun _ hw => Or.inl hw⟩

theorem setLastPid_moves : Moves s [] (s.setLastPid idx pid) :=
  ⟨Same.setLastPid s idx pid, Tells.quiet fun _ => value_setLastPid, fun _ hw => Or.inl hw⟩

theorem leave_moves {n : Nat} : Moves s [] (s.leave n w) :=
  ⟨Same.leave s n w, Tells.quiet fun _ => value_leave, fun _ hw => Or.inl (List.mem_of_mem_eraseIdx hw)⟩

theorem await_moves (hw : Stays s w) : Moves s [] (s.await w) := by
  refine ⟨Same.await s w, Tells.quiet fun _ => value_await, fun w' hw' => ?_⟩
  rcases List.mem_append.1 hw' with hin | hnew
  · exact Or.inl hin
  · rw [List.mem_singleton.1 hnew]
    exact Or.inr hw

/-- One is taken from a value that is not zero. -/
theorem take_moves (h : ¬(s.slots idx).p.value = 0) :
    Moves s [.change idx (-1) false] (s.setValue idx ((s.slots idx).p.value - 1)) := by
  refine ⟨Same.setValue s idx _, tells_change ?_, fun _ hw => Or.inl hw⟩
  have hpos : 0 < (s.slots idx).p.value.toNat := Nat.pos_of_ne_zero fun hzero => h (BitVec.eq_of_toNat_eq hzero)
  have hone : (1 : BitVec 32).toNat = 1 := rfl
  rw [BitVec.toNat_sub_of_le (BitVec.le_def.2 (by rw [hone]; exact hpos)), hone, value]
  omega

theorem waitLoop_moves {timed : Bool} (hactive : (s.slots idx).active = true) :
    Moves s (s.waitLoop idx timed).1.events (s.waitLoop idx timed).2 := by
  unfold State.waitLoop
  split
  · refine await_moves ⟨hactive, fun semid sops hop => ?_⟩
    cases hop
  · rename_i hvalue
    exact take_moves hvalue

theorem waitCore_moves {sem : Option Int} {timed : Bool} :
    Moves s (s.waitCore pid sem timed).1.events (s.waitCore pid sem timed).2 := by
  unfold State.waitCore
  rcases hidx : s.resolve sem with _ | idx
  · exact Moves.refl s
  · refine setLastPid_moves.trans (waitLoop_moves ?_)
    rw [(Same.setLastPid s idx pid).active]
    exact resolve_spec hidx

theorem semTimedwait_moves {sem abs_timeout : Option Int} :
    Moves s (s.semTimedwait pid sem abs_timeout).1.events (s.semTimedwait pid sem abs_timeout).2 := by
  unfold State.semTimedwait
  split
  · exact Moves.refl s
  · split
    · exact Moves.refl s
    · exact waitCore_moves

theorem semTrywait_moves {sem : Option Int} : Moves s (s.semTrywait pid sem).1.events (s.semTrywait pid sem).2 := by
  unfold State.semTrywait
  split
  · exact Moves.refl s
  · dsimp only
    split
    · exact setLastPid_moves
    · rename_i hvalue
      exact setLastPid_moves.trans (take_moves hvalue)

theorem semPost_moves {sem : Option Int}
    (hsmall : ∀ idx op undo, .change idx op undo ∈ (s.semPost pid sem).1.events → 0 < op →
    ((value s idx).toNat : Int) + op < 2 ^ 32) :
    Moves s (s.semPost pid sem).1.events (s.semPost pid sem).2 := by
  unfold State.semPost at hsmall ⊢
  rcases hidx : s.resolve sem with _ | idx
  · exact Moves.refl s
  · rw [hidx] at hsmall
    have hroom := hsmall idx 1 false List.mem_cons_self Int.one_pos
    refine setLastPid_moves.trans ⟨Same.setValue _ idx _, tells_change ?_, fun _ hw => Or.inl hw⟩
    have hone : (1 : BitVec 32).toNat = 1 := rfl
    have hkeep : value (s.setLastPid idx pid) idx = value s idx := value_setLastPid
    change (((value (s.setLastPid idx pid) idx + 1).toNat : Nat) : Int) = _
    rw [hkeep, BitVec.toNat_add, hone, Nat.mod_eq_of_lt (by omega)]
    omega

/-- Different semaphores of a set have different slots. -/
theorem distinct_slots (hsound : Sound s) (hfits : Fits s semid sops) : (sops.map (s.slotOf semid)).Nodup := by
  have hnums := List.Nodup.of_map _ hfits.distinct
  refine hnums.map_on fun op hop op' hop' heq => ?_
  have hhas : Has s (.member semid op.sem_num.toNat) (s.slotOf semid op) := ⟨hfits.active, hfits.inside op hop, rfl⟩
  have hhas' : Has s (.member semid op'.sem_num.toNat) (s.slotOf semid op) :=
    ⟨hfits.active, hfits.inside op' hop', heq.symm⟩
  have hnum := (Owner.member.inj (hsound.slots.unique hhas hhas')).2
  exact List.inj_on_of_nodup_map hfits.distinct hop hop' (BitVec.eq_of_toNat_eq hnum)

theorem opLoop_moves (hsound : Sound s) (hfits : Fits s semid sops)
    (hsmall : ∀ idx op undo, .change idx op undo ∈ (s.opLoop pid semid sops).1.events → 0 < op →
      ((value s idx).toNat : Int) + op < 2 ^ 32) :
    Moves s (s.opLoop pid semid sops).1.events (s.opLoop pid semid sops).2 := by
  have hsame : Same s (s.opLoop pid semid sops).2 := Same.opLoop s semid sops
  unfold State.opLoop at hsmall hsame ⊢
  rcases hblock : s.checkBlock semid sops with _ | ⟨idx, zero⟩
  · rw [hblock] at hsmall hsame
    refine ⟨hsame, applyOps_tells (distinct_slots hsound hfits) fun op hop => ⟨checkBlock_none hblock hop,
      fun hpos => ?_⟩, ?_⟩
    · exact hsmall _ _ _ (List.mem_map_of_mem hop) hpos
    · intro w hw
      rw [applyOps_waiting] at hw
      exact Or.inl hw
  · dsimp only
    split
    · exact Moves.refl s
    · obtain ⟨op, hop, hslot⟩ := checkBlock_some hblock
      refine await_moves ⟨?_, fun semid' sops' heq => ?_⟩
      · have hhas : Has s (.member semid op.sem_num.toNat) idx := ⟨hfits.active, hfits.inside op hop, hslot⟩
        exact (hsound.slots.used hhas).1
      · obtain ⟨rfl, rfl⟩ := Request.op.inj heq
        exact ⟨hfits, op, hop, hslot⟩

end Moves

/-! ### Runs -/

/-- The tables are sound, the waiting calls have reason to wait, and the values are the balances. -/
structure Good (events : List Event) (s : State) : Prop where
  sound : Sound s
  waits : ∀ w ∈ s.waiting, Stays s w
  values : ∀ idx, ((value s idx).toNat : Int) = balance idx events

section Tables

variable {s s' : State} {idx : Index} {events events' : List Event} {k l : Fin JACL_SYSV_SEMSET_MAX} {pid : Int}

theorem balance_append : balance idx (events ++ events') = events'.foldl (Event.apply idx) (balance idx events) :=
  List.foldl_append

theorem Good.moves (h : Good events s) (hmoves : Moves s events' s') : Good (events ++ events') s' := by
  refine ⟨h.sound.same hmoves.same, fun w hw => ?_, fun idx => ?_⟩
  · have hstays : Stays s w := by
      rcases hmoves.came w hw with hin | hstays
      · exact h.waits w hin
      · exact hstays
    refine hstays.congr ?_ fun semid _ _ => ?_
    · rw [hmoves.same.active]
      exact hstays.1
    · rw [hmoves.same.semsets]
  · rw [hmoves.tells idx, h.values idx, balance_append]

/-- A call that changes the tables, but not who waits, nor a set that is waited for. -/
theorem Good.table (h : Good events s) (hsound : Sound s') (htells : Tells s events' s')
    (hwaiting : s'.waiting = s.waiting) (hstays : ∀ w ∈ s.waiting, (s.slots w.idx).active = true →
    (s'.slots w.idx).active = true) (hsets : ∀ w ∈ s.waiting, ∀ semid sops, w.request = .op semid sops →
    s'.semsets semid = s.semsets semid) :
    Good (events ++ events') s' := by
  refine ⟨hsound, fun w hw => ?_, fun idx => ?_⟩
  · rw [hwaiting] at hw
    have hw' := h.waits w hw
    exact hw'.congr (hstays w hw hw'.1) (hsets w hw)
  · rw [htells idx, h.values idx, balance_append]

theorem slotFree_waiting : (s.slotFree idx).waiting = s.waiting := by
  unfold State.slotFree
  split <;> rfl

theorem settle_waiting {i : Fin JACL_SEM_NAMED_MAX} {n : Named} : (s.settle i n).waiting = s.waiting := by
  unfold State.settle
  split
  · exact slotFree_waiting
  · rfl

theorem settle_semsets {i : Fin JACL_SEM_NAMED_MAX} {n : Named} : (s.settle i n).semsets = s.semsets := by
  unfold State.settle
  split
  · exact slotFree_semsets
  · rfl

theorem freeAll_waiting {f : Nat → Index} {n : Nat} : (freeAll s f n).waiting = s.waiting := by
  induction n with
  | zero => rfl
  | succ n ih => rw [freeAll_succ, slotFree_waiting, ih]

theorem freeAll_inactive {f : Nat → Index} {m n : Nat} (h : m < n) : ((freeAll s f n).slots (f m)).active = false := by
  induction n with
  | zero => exact absurd h (Nat.not_lt_zero m)
  | succ n ih =>
    rw [freeAll_succ, slotFree_slots]
    split
    · rfl
    · rename_i hne
      rcases Nat.lt_succ_iff_lt_or_eq.1 h with hlt | rfl
      · exact ih hlt
      · exact absurd rfl hne

theorem disband_waiting {n : Nat} : (s.disband k n).waiting = s.waiting := by
  rw [disband_eq]
  exact freeAll_waiting

theorem disband_semsets {n : Nat} (hl : l ≠ k) : (s.disband k n).semsets l = s.semsets l := by
  rw [disband_eq, setSemset_ne hl, freeAll_semsets]

/-- What the loop of `semget` does to the rest: semaphores with the value 0 are made, and nothing else. -/
theorem fill_keeps (n : Nat) (s : State) (k : Fin JACL_SYSV_SEMSET_MAX) (i : Nat) :
    Tells s ((s.fill k i n).1.map fun idx => .made idx 0) (s.fill k i n).2.2 ∧ (s.fill k i n).2.2.waiting = s.waiting ∧
      ∀ l, l ≠ k → (s.fill k i n).2.2.semsets l = s.semsets l := by
  induction n generalizing s i with
  | zero => exact ⟨Tells.quiet fun _ => rfl, rfl, fun _ _ => rfl⟩
  | succ n ih =>
    rw [State.fill]
    rcases halloc : s.slotAlloc 0 false with _ | ⟨idx, t⟩
    · exact ⟨Tells.quiet fun _ => value_disband, disband_waiting, fun _ => disband_semsets⟩
    · unfold State.fillTurn
      dsimp only
      have hmade := tells_made halloc
      obtain ⟨-, rfl⟩ := slotAlloc_spec halloc
      obtain ⟨htells, hwaiting, hsets⟩ := ih ((s.setSlot idx ⟨true, 0, 0, 0, 0, false⟩).setSemset k { s.semsets k with
        slot_indices := Function.update (s.semsets k).slot_indices i idx }) (i + 1)
      exact ⟨Tells.trans hmade htells, hwaiting, fun l hl => (hsets l hl).trans (setSemset_ne hl)⟩

theorem semget_good (h : Good events s) {key nsems : Int} {semflg : BitVec 32}
    (hstays : ∀ w ∈ s.waiting, (s.slots w.idx).active = true → ((s.semget key nsems semflg).2.slots w.idx).active =
    true) :
    Good (events ++ (s.semget key nsems semflg).1.events) (s.semget key nsems semflg).2 := by
  have hsound := h.sound.semget key nsems semflg
  unfold State.semget at hstays hsound ⊢
  split
  · exact h.moves (Moves.refl s)
  · split
    · split <;> exact h.moves (Moves.refl s)
    · split
      · exact h.moves (Moves.refl s)
      · rcases hfind : s.sysvFindFree with _ | k
        · exact h.moves (Moves.refl s)
        · rename_i hrange _ hkey hcreate
          rw [if_neg hrange, hkey] at hstays hsound
          dsimp only at hstays hsound
          rw [if_neg hcreate, hfind] at hstays hsound
          obtain ⟨htells, hwaiting, hsets⟩ :=
            fill_keeps nsems.toNat (s.setSemset k ⟨true, key, nsems.toNat, (s.semsets k).slot_indices⟩) k 0
          refine h.table hsound ?_ hwaiting hstays fun w hw semid sops hop => ?_
          · have hclaimed : Tells s [] (s.setSemset k ⟨true, key, nsems.toNat, (s.semsets k).slot_indices⟩) :=
              Tells.quiet fun _ => rfl
            exact hclaimed.trans htells
          · have hne : semid ≠ k := by
              rintro rfl
              have hactive := ((h.waits w hw).2 semid sops hop).1.active
              exact Bool.false_ne_true ((sysvFindFree_spec hfind).symm.trans hactive)
            exact (hsets semid hne).trans (setSemset_ne hne)

theorem setall_tells {array : Nat → BitVec 16} : Tells s ((List.range (s.semsets k).sem_nsems).map fun i =>
    .set ((s.semsets k).slot_indices i) ((array i).setWidth 32)) (s.semctlSetall k array) := by
  have hfold : ∀ (f : Nat → Index) (is : List Nat) (t : State),
    Tells t (is.map fun i => .set (f i) ((array i).setWidth 32))
      (is.foldl (fun t i => t.setValue (f i) ((array i).setWidth 32)) t) := by
    intro f is
    induction is with
    | nil => exact fun t => Tells.quiet fun _ => rfl
    | cons i is ih => exact fun t => tells_set.trans (ih _)
  exact hfold _ _ s

theorem setall_waiting {array : Nat → BitVec 16} : (s.semctlSetall k array).waiting = s.waiting := by
  have hfold : ∀ (f : Nat → Index) (is : List Nat) (t : State),
      (is.foldl (fun t i => t.setValue (f i) ((array i).setWidth 32)) t).waiting = t.waiting := by
    intro f is
    induction is with
    | nil => exact fun _ => rfl
    | cons i is ih => exact fun t => ih _
  exact hfold _ _ s

/-- What a call on one set only reads. -/
theorem semctlGet_moves {semnum : Int} {info : Primitive → Int} :
    Moves s (s.semctlGet k semnum info).1.events (s.semctlGet k semnum info).2 := by
  unfold State.semctlGet
  split <;> exact Moves.refl s

theorem semctl_good (h : Good events s) {semid semnum : Int} {cmd : Command}
    (hstays : ∀ w ∈ s.waiting, (s.slots w.idx).active = true → ((s.semctl semid semnum cmd).2.slots w.idx).active =
    true) :
    Good (events ++ (s.semctl semid semnum cmd).1.events) (s.semctl semid semnum cmd).2 := by
  have hsound := h.sound.semctl semid semnum cmd
  unfold State.semctl at hstays hsound ⊢
  rcases hset : s.semset semid with _ | k
  · exact h.moves (Moves.refl s)
  · rw [hset] at hstays hsound
    cases cmd with
    | rmid =>
      refine h.table hsound (Tells.quiet fun _ => value_disband) disband_waiting hstays fun w hw l sops hop => ?_
      refine disband_semsets ?_
      rintro rfl
      -- the slot that the call waits at would be freed with the set
      obtain ⟨hactive, hwait⟩ := h.waits w hw
      obtain ⟨hfits, op, hmem, hslot⟩ := hwait l sops hop
      have hafter := hstays w hw hactive
      change ((s.disband l (s.semsets l).sem_nsems).slots w.idx).active = true at hafter
      rw [disband_eq, ← hslot] at hafter
      exact Bool.false_ne_true ((freeAll_inactive (hfits.inside op hmem)).symm.trans hafter)
    | getval => exact h.moves semctlGet_moves
    | setval val =>
      dsimp only
      rcases s.member k semnum with _ | idx
      · exact h.moves (Moves.refl s)
      · exact h.moves ⟨Same.setValue s idx val, tells_set, fun _ hw => Or.inl hw⟩
    | getall array =>
      dsimp only
      split_ifs <;> exact h.moves (Moves.refl s)
    | setall array =>
      cases array with
      | none => exact h.moves (Moves.refl s)
      | some array =>
        refine h.moves ⟨Same.setall s k array, setall_tells, fun w hw => Or.inl ?_⟩
        rw [← setall_waiting]
        exact hw
    | getpid => exact h.moves semctlGet_moves
    | getncnt => exact h.moves semctlGet_moves
    | getzcnt => exact h.moves semctlGet_moves
    | other => exact h.moves (Moves.refl s)

theorem semop_good (h : Good events s) {semid : Int} {sops : Option (List Sembuf)}
    (hfair : Fair pid s (.semop semid sops)) :
    Good (events ++ (s.semop pid semid sops).1.events) (s.semop pid semid sops).2 := by
  have hsmall : ∀ idx op undo, .change idx op undo ∈ (s.semop pid semid sops).1.events → 0 < op →
      ((value s idx).toNat : Int) + op < 2 ^ 32 := hfair.small
  unfold State.semop at hsmall ⊢
  rcases hset : s.semset semid with _ | k
  · exact h.moves (Moves.refl s)
  · rw [hset] at hsmall
    cases sops with
    | none => exact h.moves (Moves.refl s)
    | some sops =>
      dsimp only at hsmall ⊢
      split_ifs at hsmall ⊢ with hempty hinside hlong
      · exact h.moves (Moves.refl s)
      · exact h.moves (Moves.refl s)
      · exact h.moves (Moves.refl s)
      · refine h.moves (opLoop_moves h.sound ⟨semset_spec hset, hfair.distinct semid sops rfl, fun op hop => ?_⟩ hsmall)
        by_contra hge
        exact hinside (List.any_eq_true.2 ⟨op, hop, decide_eq_true (Nat.le_of_not_lt hge)⟩)

theorem wake_good (h : Good events s) {n : Nat} (hfair : Fair pid s (.wake n)) :
    Good (events ++ (s.wake pid n).1.events) (s.wake pid n).2 := by
  have hsmall : ∀ idx op undo, .change idx op undo ∈ (s.wake pid n).1.events → 0 < op →
      ((value s idx).toNat : Int) + op < 2 ^ 32 := hfair.small
  unfold State.wake at hsmall ⊢
  rcases hw : s.waiting[n]? with _ | w
  · exact h.moves (Moves.refl s)
  · rw [hw] at hsmall
    obtain ⟨hactive, hwait⟩ := h.waits w (List.mem_of_getElem? hw)
    have hleave : Moves s [] (s.leave n w) := leave_moves
    dsimp only at hsmall ⊢
    rcases hrequest : w.request with timed | ⟨semid, sops⟩
    · refine h.moves (hleave.trans (waitLoop_moves ?_))
      rw [hleave.same.active]
      exact hactive
    · rw [hrequest] at hsmall
      have hfits := (hwait semid sops hrequest).1
      have hset : (s.leave n w).semsets semid = s.semsets semid := by rw [hleave.same.semsets]
      refine h.moves (hleave.trans (opLoop_moves (h.sound.same hleave.same) (hfits.congr hset) ?_))
      intro idx op undo hmem hpos
      rw [value_leave]
      exact hsmall idx op undo hmem hpos

theorem timeout_moves {n : Nat} : Moves s (s.timeout n).1.events (s.timeout n).2 := by
  unfold State.timeout
  split
  · exact Moves.refl s
  · split
    · exact leave_moves
    · exact Moves.refl s

theorem semGetvalue_moves {sem : Option Int} {sval : Bool} :
    Moves s (s.semGetvalue sem sval).1.events (s.semGetvalue sem sval).2 := by
  unfold State.semGetvalue
  split
  · exact Moves.refl s
  · split <;> exact Moves.refl s

theorem semInit_good (h : Good events s) {sem : Bool} {v : BitVec 32}
    (hstays : ∀ w ∈ s.waiting, (s.slots w.idx).active = true → ((s.semInit sem v).2.slots w.idx).active = true) :
    Good (events ++ (s.semInit sem v).1.events) (s.semInit sem v).2 := by
  unfold State.semInit at hstays ⊢
  split_ifs at hstays ⊢
  · exact h.moves (Moves.refl s)
  · rcases halloc : s.slotAlloc v true with _ | ⟨idx, t⟩
    · exact h.moves (Moves.refl s)
    · rw [halloc] at hstays
      have hsound := h.sound.allocAnonymous halloc
      have hmade := tells_made halloc
      obtain ⟨-, rfl⟩ := slotAlloc_spec halloc
      exact h.table hsound hmade rfl hstays fun _ _ _ _ _ => rfl

theorem semDestroy_good (h : Good events s) {sem : Option Int}
    (hstays : ∀ w ∈ s.waiting, (s.slots w.idx).active = true → ((s.semDestroy sem).2.slots w.idx).active = true) :
    Good (events ++ (s.semDestroy sem).1.events) (s.semDestroy sem).2 := by
  unfold State.semDestroy at hstays ⊢
  rcases hidx : s.resolve sem with _ | idx
  · exact h.moves (Moves.refl s)
  · rw [hidx] at hstays
    dsimp only at hstays ⊢
    split_ifs at hstays ⊢ with hanonymous
    · exact h.moves (Moves.refl s)
    · refine h.table (h.sound.freeAnonymous ?_) (Tells.quiet fun _ => value_slotFree) slotFree_waiting hstays
        fun _ _ _ _ _ => ?_
      · simpa using hanonymous
      · rw [slotFree_semsets]

theorem semOpen_good (h : Good events s) {name : Option CString} {oflag v : BitVec 32}
    (hstays : ∀ w ∈ s.waiting, (s.slots w.idx).active = true → ((s.semOpen name oflag v).2.slots w.idx).active = true) :
    Good (events ++ (s.semOpen name oflag v).1.events) (s.semOpen name oflag v).2 := by
  have hsound := h.sound.semOpen name oflag v
  unfold State.semOpen at hstays hsound ⊢
  cases name with
  | none => exact h.moves (Moves.refl s)
  | some name =>
    dsimp only at hstays hsound ⊢
    split
    · exact h.moves (Moves.refl s)
    · rename_i hvalid
      rw [if_neg hvalid] at hstays hsound
      split
      · exact h.moves (Moves.refl s)
      · rename_i hexcl
        rw [if_neg hexcl] at hstays hsound
        rcases hfind : s.namedFindByName name with _ | i
        · rw [hfind] at hstays hsound
          dsimp only at hstays hsound ⊢
          split
          · exact h.moves (Moves.refl s)
          · rename_i hcreate
            rw [if_neg hcreate] at hstays hsound
            rcases hfree : s.namedFindFree with _ | i
            · exact h.moves (Moves.refl s)
            · rw [hfree] at hstays hsound
              dsimp only at hstays hsound ⊢
              rcases halloc : s.slotAlloc v false with _ | ⟨idx, t⟩
              · exact h.moves (Moves.refl s)
              · rw [halloc] at hstays hsound
                have hmade := tells_made halloc
                obtain ⟨-, rfl⟩ := slotAlloc_spec halloc
                exact h.table hsound hmade rfl hstays fun _ _ _ _ _ => rfl
        · rw [hfind] at hstays hsound
          dsimp only at hstays hsound ⊢
          split
          · exact h.moves (Moves.refl s)
          · rename_i hexists
            rw [if_neg hexists] at hstays hsound
            exact h.table hsound (Tells.quiet fun _ => rfl) rfl hstays fun _ _ _ _ _ => rfl

theorem semClose_good (h : Good events s) {sem : Int}
    (hstays : ∀ w ∈ s.waiting, (s.slots w.idx).active = true → ((s.semClose sem).2.slots w.idx).active = true) :
    Good (events ++ (s.semClose sem).1.events) (s.semClose sem).2 := by
  have hsound := h.sound.semClose sem
  unfold State.semClose at hstays hsound ⊢
  rcases hfind : (State.index sem).bind s.namedFindBySlot with _ | i
  · exact h.moves (Moves.refl s)
  · rw [hfind] at hstays hsound
    dsimp only at hstays hsound ⊢
    split_ifs at hstays hsound ⊢
    · exact h.moves (Moves.refl s)
    · exact h.table hsound (Tells.quiet fun _ => value_settle) settle_waiting hstays fun _ _ _ _ _ => by
        rw [settle_semsets]

theorem semUnlink_good (h : Good events s) {name : Option CString}
    (hstays : ∀ w ∈ s.waiting, (s.slots w.idx).active = true → ((s.semUnlink name).2.slots w.idx).active = true) :
    Good (events ++ (s.semUnlink name).1.events) (s.semUnlink name).2 := by
  have hsound := h.sound.semUnlink name
  unfold State.semUnlink at hstays hsound ⊢
  cases name with
  | none => exact h.moves (Moves.refl s)
  | some name =>
    dsimp only at hstays hsound ⊢
    rcases hfind : s.namedFindByName name with _ | i
    · exact h.moves (Moves.refl s)
    · rw [hfind] at hstays hsound
      dsimp only at hstays hsound ⊢
      split_ifs at hstays hsound ⊢
      · exact h.moves (Moves.refl s)
      · exact h.table hsound (Tells.quiet fun _ => value_settle) settle_waiting hstays fun _ _ _ _ _ => by
          rw [settle_semsets]

end Tables

theorem step_good {events : List Event} {pid : Int} {s : State} (h : Good events s) (c : Call) (hfair : Fair pid s c) :
    Good (events ++ (step pid s c).1.events) (step pid s c).2 := by
  have hstays := hfair.stays
  cases c with
  | init sem v =>
    rw [show step pid s (.init sem v) = s.semInit sem v from rfl] at hstays ⊢
    exact semInit_good h hstays
  | destroy sem => exact semDestroy_good h hstays
  | «open» name oflag v =>
    rw [show step pid s (.open name oflag v) = s.semOpen name oflag v from rfl] at hstays ⊢
    exact semOpen_good h hstays
  | close sem => exact semClose_good h hstays
  | unlink name => exact semUnlink_good h hstays
  | wait sem => exact h.moves waitCore_moves
  | timedwait sem abs_timeout => exact h.moves semTimedwait_moves
  | trywait sem => exact h.moves semTrywait_moves
  | post sem => exact h.moves (semPost_moves hfair.small)
  | getvalue sem sval => exact h.moves semGetvalue_moves
  | semget key nsems semflg => exact semget_good h hstays
  | semop semid sops => exact semop_good h hfair
  | semctl semid semnum cmd => exact semctl_good h hstays
  | wake n => exact wake_good h hfair
  | timeout n => exact h.moves timeout_moves

theorem start_good : Good [] .start := by
  refine ⟨start_sound, fun w hw => ?_, fun idx => rfl⟩
  cases hw

/-- The events of a run. -/
def eventsOf (trace : List (Call × Output)) : List Event := trace.flatMap fun p => p.2.events

/-- Along every fair run, whoever waits and in whatever order they are woken, the value of a semaphore is the balance
of what happened to it: nobody has taken what was not there. -/
theorem sem_ledger {pid : Int} {calls : List Call} (hfair : Machine.Guarded (step pid) (Fair pid) .start calls)
    (idx : Index) :
    ((value (Machine.run (step pid) .start calls) idx).toNat : Int) =
      balance idx (eventsOf (Machine.trace (step pid) .start calls)) := by
  have hstep : ∀ (tr : List (Call × Output)) (s : State) (c : Call), Good (eventsOf tr) s → Fair pid s c →
      Good (eventsOf (tr ++ [(c, (step pid s c).1)])) (step pid s c).2 := by
    intro tr s c h hc
    have hevents : eventsOf (tr ++ [(c, (step pid s c).1)]) = eventsOf tr ++ (step pid s c).1.events := by
      simp [eventsOf]
    rw [hevents]
    exact step_good h c hc
  exact (Machine.guarded_trace_invariant (I := fun tr s => Good (eventsOf tr) s) hstep start_good hfair).values idx

/-- The operations of a vector, if the call has one. -/
def vector : Call → List Sembuf
  | .semop _ (some sops) => sops
  | _ => []

/-- An operation on a semaphore takes its value to this integer. -/
def reached (s : State) : Event → Int
  | .change idx op _ => if 0 < op then (value s idx).toNat + op else 0
  | _ => 0

instance (pid : Int) (s : State) (c : Call) : Decidable (Fair pid s c) := by
  refine decidable_of_iff (InBounds s c ∧ ((vector c).map Sembuf.sem_num).Nodup ∧
    (∀ e ∈ (step pid s c).1.events, reached s e < 2 ^ 32) ∧
    ∀ w ∈ s.waiting, (s.slots w.idx).active = true → ((step pid s c).2.slots w.idx).active = true) ⟨?_, ?_⟩
  · rintro ⟨hbounds, hdistinct, hsmall, hstays⟩
    refine ⟨hbounds, ?_, fun idx op undo hmem hpos => ?_, hstays⟩
    · rintro semid sops rfl
      exact hdistinct
    · have h := hsmall _ hmem
      rwa [reached, if_pos hpos] at h
  · rintro ⟨hbounds, hdistinct, hsmall, hstays⟩
    refine ⟨hbounds, ?_, fun e hmem => ?_, hstays⟩
    · unfold vector
      split
      · exact hdistinct _ _ rfl
      · exact List.nodup_nil
    · unfold reached
      split
      · split_ifs with hpos
        · exact hsmall _ _ _ hmem hpos
        · decide
      · decide

/-- A vector waits for what another call gives, and takes it when it is woken. -/
theorem sem_ledger_waits :
    ((value (Machine.run (step 7) .start [.semget 0 2 0x200, .semop 0 (some [⟨0, -2, 0⟩, ⟨1, 1, 0⟩]),
    .semop 0 (some [⟨0, 3, 0⟩]),
      .wake 0]) 0).toNat : Int) = 1 := by
  have hfair : Machine.Guarded (step 7) (Fair 7) .start [.semget 0 2 0x200, .semop 0 (some [⟨0, -2, 0⟩, ⟨1, 1, 0⟩]),
      .semop 0 (some [⟨0, 3, 0⟩]), .wake 0] := by decide +kernel
  rw [sem_ledger hfair 0]
  decide +kernel

end JACLibc.Sem
