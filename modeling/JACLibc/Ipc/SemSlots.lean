import JACLibc.Ipc.Sem
import JACLibc.Lib.Run
import JACLibc.Lib.Tenancy

/-!
# Who has the slots

Every slot in use that `sem_init` did not make belongs to exactly one named semaphore or to exactly one semaphore of
one set, and what these have is in use (`Sound`).  A slot is neither lost nor given away twice, whatever is opened,
closed, unlinked, made and removed, also where a set does not find enough slots.
-/

namespace JACLibc.Sem

/-- Who can have a slot: a named semaphore, or the semaphore `i` of a set. -/
inductive Owner
  | named (i : Fin JACL_SEM_NAMED_MAX)
  | member (k : Fin JACL_SYSV_SEMSET_MAX) (i : Nat)

/-- The slot is the owner's. -/
def Has (s : State) : Owner → Index → Prop
  | .named i, idx => (s.named i).active = true ∧ (s.named i).slot_idx = idx
  | .member k i, idx => (s.semsets k).active = true ∧ i < (s.semsets k).sem_nsems ∧ (s.semsets k).slot_indices i = idx

/-- In use, but not by `sem_init`. -/
def Shared (s : State) (idx : Index) : Prop := (s.slots idx).active = true ∧ (s.slots idx).p.anonymous = false

/-- The entry is found by its name. -/
def Listed (n : Named) : Prop := n.active = true ∧ n.unlinked = false

/-- Every shared slot has one owner, and names that were not cut off are told apart. -/
structure Sound (s : State) : Prop where
  slots : Tenancy (Has s) (Shared s)
  names : ∀ i j, Listed (s.named i) → Listed (s.named j) → (s.named i).name = (s.named j).name →
    (s.named i).name.bytes.length < 255 → i = j
  sizes : ∀ k, (s.semsets k).sem_nsems ≤ JACL_SYSV_MAX_SEMS

/-- The vector has room in `sorted_indices`. -/
def InBounds (_ : State) : Call → Prop
  | .semop _ (some sops) => sops.length ≤ JACL_SYSV_MAX_SEMS
  | _ => True

instance (s : State) (c : Call) : Decidable (InBounds s c) := by
  unfold InBounds
  split <;> infer_instance

/-! ### What the parts of a call change -/

section Parts

variable {s s' : State} {idx x : Index} {i j : Fin JACL_SEM_NAMED_MAX} {k l : Fin JACL_SYSV_SEMSET_MAX}

theorem setSlot_same {slot : Slot} : (s.setSlot idx slot).slots idx = slot := Function.update_self ..

theorem setSlot_ne {slot : Slot} (h : x ≠ idx) : (s.setSlot idx slot).slots x = s.slots x := Function.update_of_ne h ..

theorem setNamed_same {n : Named} : (s.setNamed i n).named i = n := Function.update_self ..

theorem setNamed_ne {n : Named} (h : j ≠ i) : (s.setNamed i n).named j = s.named j := Function.update_of_ne h ..

theorem setSemset_same {set : Semset} : (s.setSemset k set).semsets k = set := Function.update_self ..

theorem setSemset_ne {set : Semset} (h : l ≠ k) : (s.setSemset k set).semsets l = s.semsets l :=
  Function.update_of_ne h ..

theorem slotAlloc_spec {val : BitVec 32} {anonymous : Bool} (h : s.slotAlloc val anonymous = some (idx, s')) :
    (s.slots idx).active = false ∧ s' = s.setSlot idx ⟨true, val, 0, 0, 0, anonymous⟩ := by
  obtain ⟨y, hy, heq⟩ := Option.map_eq_some_iff.1 h
  obtain ⟨rfl, rfl⟩ := Prod.mk.inj heq
  have := List.find?_some hy
  exact ⟨by simpa using this, rfl⟩

theorem slotFree_slots : (s.slotFree idx).slots x = if x = idx then { s.slots x with active := false }
    else s.slots x := by
  unfold State.slotFree
  by_cases hx : x = idx
  · subst hx
    rw [if_pos rfl]
    split
    · exact setSlot_same
    · rename_i hactive
      cases hslot : s.slots x with
      | mk active p =>
        rw [hslot] at hactive
        rw [Bool.not_eq_true] at hactive
        dsimp only at hactive
        rw [hactive]
  · rw [if_neg hx]
    split
    · exact setSlot_ne hx
    · rfl

theorem slotFree_named : (s.slotFree idx).named = s.named := by
  unfold State.slotFree
  split <;> rfl

theorem slotFree_semsets : (s.slotFree idx).semsets = s.semsets := by
  unfold State.slotFree
  split <;> rfl

theorem shared_slotFree : Shared (s.slotFree idx) x ↔ Shared s x ∧ ¬idx = x := by
  unfold Shared
  rw [slotFree_slots]
  by_cases hx : x = idx
  · rw [if_pos hx]
    exact ⟨fun h => absurd h.1 Bool.false_ne_true, fun h => absurd hx.symm h.2⟩
  · rw [if_neg hx]
    exact ⟨fun h => ⟨h, fun heq => hx heq.symm⟩, fun h => h.1⟩

/-- The first `n` slots of `f` are freed. -/
def freeAll (s : State) (f : Nat → Index) (n : Nat) : State := (List.range n).foldl (fun t i => t.slotFree (f i)) s

theorem freeAll_succ {f : Nat → Index} {n : Nat} : freeAll s f (n + 1) = (freeAll s f n).slotFree (f n) := by
  unfold freeAll
  rw [List.range_succ, List.foldl_append]
  rfl

theorem freeAll_named {f : Nat → Index} {n : Nat} : (freeAll s f n).named = s.named := by
  induction n with
  | zero => rfl
  | succ n ih => rw [freeAll_succ, slotFree_named, ih]

theorem freeAll_semsets {f : Nat → Index} {n : Nat} : (freeAll s f n).semsets = s.semsets := by
  induction n with
  | zero => rfl
  | succ n ih => rw [freeAll_succ, slotFree_semsets, ih]

theorem freeAll_shared {f : Nat → Index} {n : Nat} : Shared (freeAll s f n) x ↔ Shared s x ∧ ¬∃ m < n, f m = x := by
  induction n with
  | zero =>
    refine ⟨fun h => ⟨h, ?_⟩, fun h => h.1⟩
    rintro ⟨m, hm, -⟩
    omega
  | succ n ih =>
    rw [freeAll_succ, shared_slotFree, ih]
    constructor
    · rintro ⟨⟨h, hbefore⟩, hlast⟩
      refine ⟨h, ?_⟩
      rintro ⟨m, hm, heq⟩
      rcases Nat.lt_succ_iff_lt_or_eq.1 hm with hlt | rfl
      · exact hbefore ⟨m, hlt, heq⟩
      · exact hlast heq
    · rintro ⟨h, hall⟩
      refine ⟨⟨h, ?_⟩, fun heq => hall ⟨n, Nat.lt_succ_self n, heq⟩⟩
      rintro ⟨m, hm, heq⟩
      exact hall ⟨m, Nat.lt_succ_of_lt hm, heq⟩

theorem findByName_spec {name : CString} (h : s.namedFindByName name = some i) : Listed (s.named i) := by
  have := List.find?_some h
  simp only [Bool.and_eq_true, Bool.not_eq_true'] at this
  exact this.1

theorem findByName_none {name : CString} (h : s.namedFindByName name = none) (hj : Listed (s.named j)) :
    (s.named j).name ≠ name := by
  intro heq
  have := List.find?_eq_none.1 h j (List.mem_finRange j)
  subst heq
  simp [hj.1, hj.2, CString.strcmp_eq_zero] at this

theorem findBySlot_spec (h : s.namedFindBySlot idx = some i) : (s.named i).active = true ∧
    (s.named i).slot_idx = idx := by
  have := List.find?_some h
  simpa using this

theorem findFree_spec (h : s.namedFindFree = some i) : (s.named i).active = false := by
  have := List.find?_some h
  simpa using this

theorem sysvFindFree_spec (h : s.sysvFindFree = some k) : (s.semsets k).active = false := by
  have := List.find?_some h
  simpa using this

theorem resolve_spec {sem : Option Int} (h : s.resolve sem = some idx) : (s.slots idx).active = true := by
  obtain ⟨y, -, hy⟩ := Option.bind_eq_some_iff.1 h
  split at hy
  · obtain rfl := Option.some.inj hy
    assumption
  · cases hy

theorem semset_spec {semid : Int} (h : s.semset semid = some k) : (s.semsets k).active = true := by
  unfold State.semset at h
  split at h
  · dsimp only at h
    split at h
    · obtain rfl := Option.some.inj h
      assumption
    · cases h
  · cases h

end Parts

/-! ### Calls that leave the tables as they are -/

/-- The same entries, the same sets, and the same slots in use. -/
structure Same (s s' : State) : Prop where
  named : s'.named = s.named
  semsets : s'.semsets = s.semsets
  active : ∀ idx, (s'.slots idx).active = (s.slots idx).active
  anonymous : ∀ idx, (s'.slots idx).p.anonymous = (s.slots idx).p.anonymous

namespace Same

variable {s s' t : State} {idx : Index} {pid : Int}

theorem refl (s : State) : Same s s := ⟨rfl, rfl, fun _ => rfl, fun _ => rfl⟩

theorem trans (h : Same s s') (h' : Same s' t) : Same s t :=
  ⟨h'.named.trans h.named, h'.semsets.trans h.semsets, fun idx => (h'.active idx).trans (h.active idx),
    fun idx => (h'.anonymous idx).trans (h.anonymous idx)⟩

theorem of_slots (hnamed : s'.named = s.named) (hsemsets : s'.semsets = s.semsets) (hslots : s'.slots = s.slots) :
    Same s s' :=
  ⟨hnamed, hsemsets, fun _ => by rw [hslots], fun _ => by rw [hslots]⟩

theorem setPrimitive {p : Primitive} (h : p.anonymous = (s.slots idx).p.anonymous) : Same s (s.setPrimitive idx p) := by
  refine ⟨rfl, rfl, fun x => ?_, fun x => ?_⟩
  · by_cases hx : x = idx
    · rw [hx, State.setPrimitive, setSlot_same]
    · rw [State.setPrimitive, setSlot_ne hx]
  · by_cases hx : x = idx
    · rw [hx, State.setPrimitive, setSlot_same, h]
    · rw [State.setPrimitive, setSlot_ne hx]

theorem setValue (s : State) (idx : Index) (value : BitVec 32) : Same s (s.setValue idx value) := setPrimitive rfl

theorem setLastPid (s : State) (idx : Index) (pid : Int) : Same s (s.setLastPid idx pid) := setPrimitive rfl

theorem count (s : State) (idx : Index) (zero : Bool) (n : BitVec 32) : Same s (s.count idx zero n) := by
  refine setPrimitive ?_
  split <;> rfl

theorem await (s : State) (w : Waiting) : Same s (s.await w) := (count s w.idx w.zero 1).trans (of_slots rfl rfl rfl)

theorem leave (s : State) (n : Nat) (w : Waiting) : Same s (s.leave n w) :=
  (count s w.idx w.zero (-1)).trans (of_slots rfl rfl rfl)

theorem waitLoop (s : State) (idx : Index) (timed : Bool) : Same s (s.waitLoop idx timed).2 := by
  unfold State.waitLoop
  split
  · exact await s _
  · exact setValue s idx _

theorem undoAdd (s : State) (idx : Index) (op : Int) : Same s (s.undoAdd pid idx op) := by
  unfold State.undoAdd
  split
  · exact refl s
  · split
    · exact refl s
    · exact of_slots rfl rfl rfl

theorem applyOp (semid : Fin JACL_SYSV_SEMSET_MAX) (s : State) (op : Sembuf) :
    Same s (State.applyOp pid semid s op) := by
  unfold State.applyOp
  have hvalue : ∀ idx (v w : BitVec 32),
      Same s (if op.sem_op.toInt < 0 then s.setValue idx v else if op.sem_op.toInt > 0 then s.setValue idx w
      else s) := by
    intro idx v w
    split
    · exact setValue s idx v
    · split
      · exact setValue s idx w
      · exact refl s
  have hundo : ∀ t, Same s t →
      Same s (if op.sem_op.toInt ≠ 0 ∧ State.undone op then t.undoAdd pid (s.slotOf semid op) op.sem_op.toInt
      else t) := by
    intro t ht
    split
    · exact ht.trans (undoAdd t _ _)
    · exact ht
  exact (hundo _ (hvalue _ _ _)).trans (setLastPid _ _ pid)

theorem applyOps (s : State) (semid : Fin JACL_SYSV_SEMSET_MAX) (sops : List Sembuf) :
    Same s (s.applyOps pid semid sops) := by
  unfold State.applyOps
  induction sops generalizing s with
  | nil => exact refl s
  | cons op sops ih => exact (applyOp semid s op).trans (ih _)

theorem opLoop (s : State) (semid : Fin JACL_SYSV_SEMSET_MAX) (sops : List Sembuf) :
    Same s (s.opLoop pid semid sops).2 := by
  unfold State.opLoop
  split
  · split
    · exact refl s
    · exact await s _
  · exact applyOps s semid sops

theorem setall (s : State) (k : Fin JACL_SYSV_SEMSET_MAX) (array : Nat → BitVec 16) :
    Same s (s.semctlSetall k array) := by
  have hfold : ∀ (f : Nat → Index) (is : List Nat) (t : State),
      Same t (is.foldl (fun t i => t.setValue (f i) ((array i).setWidth 32)) t) := by
    intro f is
    induction is with
    | nil => exact refl
    | cons i is ih => exact fun t => (setValue t _ _).trans (ih _)
  exact hfold _ _ s

theorem waitCore (s : State) (sem : Option Int) (timed : Bool) : Same s (s.waitCore pid sem timed).2 := by
  unfold State.waitCore
  split
  · exact refl s
  · exact (setLastPid s _ pid).trans (waitLoop _ _ timed)

theorem semTimedwait (s : State) (sem abs_timeout : Option Int) : Same s (s.semTimedwait pid sem abs_timeout).2 := by
  unfold State.semTimedwait
  split
  · exact refl s
  · split
    · exact refl s
    · exact waitCore s sem true

theorem semTrywait (s : State) (sem : Option Int) : Same s (s.semTrywait pid sem).2 := by
  unfold State.semTrywait
  split
  · exact refl s
  · dsimp only
    split
    · exact setLastPid s _ pid
    · exact (setLastPid s _ pid).trans (setValue _ _ _)

theorem semPost (s : State) (sem : Option Int) : Same s (s.semPost pid sem).2 := by
  unfold State.semPost
  split
  · exact refl s
  · exact (setLastPid s _ pid).trans (setValue _ _ _)

theorem semGetvalue (s : State) (sem : Option Int) (sval : Bool) : Same s (s.semGetvalue sem sval).2 := by
  unfold State.semGetvalue
  split
  · exact refl s
  · split <;> exact refl s

theorem semop (s : State) (semid : Int) (sops : Option (List Sembuf)) : Same s (s.semop pid semid sops).2 := by
  unfold State.semop
  split
  · exact refl s
  · exact refl s
  · split
    · exact refl s
    · split
      · exact refl s
      · split
        · exact refl s
        · exact opLoop s _ _

theorem wake (s : State) (n : Nat) : Same s (s.wake pid n).2 := by
  unfold State.wake
  split
  · exact refl s
  · split
    · exact (leave s n _).trans (waitLoop _ _ _)
    · exact (leave s n _).trans (opLoop _ _ _)

theorem timeout (s : State) (n : Nat) : Same s (s.timeout n).2 := by
  unfold State.timeout
  split
  · exact refl s
  · split
    · exact leave s n _
    · exact refl s

theorem semctlGet (s : State) (k : Fin JACL_SYSV_SEMSET_MAX) (semnum : Int) (info : Primitive → Int) :
    Same s (s.semctlGet k semnum info).2 := by
  unfold State.semctlGet
  split <;> exact refl s

end Same

/-! ### Calls that change the tables -/

/-- The set `k` as far as its loop has come. -/
def first (s : State) (k : Fin JACL_SYSV_SEMSET_MAX) (i : Nat) : State :=
  s.setSemset k { s.semsets k with sem_nsems := i }

theorem disband_eq (s : State) (k : Fin JACL_SYSV_SEMSET_MAX) (n : Nat) :
    s.disband k n = (freeAll s (s.semsets k).slot_indices n).setSemset k { s.semsets k with active := false } := by
  change (freeAll s _ n).setSemset k { (freeAll s _ n).semsets k with active := false } = _
  rw [freeAll_semsets]

theorem has_named {s : State} {i : Fin JACL_SEM_NAMED_MAX} {x : Index} :
    Has s (.named i) x ↔ (s.named i).active = true ∧ (s.named i).slot_idx = x := Iff.rfl

theorem has_member {s : State} {k : Fin JACL_SYSV_SEMSET_MAX} {i : Nat} {x : Index} : Has s (.member k i) x ↔
    (s.semsets k).active = true ∧ i < (s.semsets k).sem_nsems ∧ (s.semsets k).slot_indices i = x := Iff.rfl

namespace Sound

variable {s s' : State} {idx : Index} {i : Fin JACL_SEM_NAMED_MAX} {k : Fin JACL_SYSV_SEMSET_MAX} {n : Named}

theorem same (h : Sound s) (hsame : Same s s') : Sound s' := by
  constructor
  · refine h.slots.congr (fun o x => ?_) fun x => ?_
    · cases o with
      | named i => rw [has_named, has_named, hsame.named]
      | member k i => rw [has_member, has_member, hsame.semsets]
    · rw [Shared, Shared, hsame.active, hsame.anonymous]
  · rw [hsame.named]
    exact h.names
  · rw [hsame.semsets]
    exact h.sizes

theorem names_update (h : Sound s)
    (hname : Listed n → ∀ j, j ≠ i → Listed (s.named j) → (s.named j).name = n.name → ¬n.name.bytes.length < 255) :
    ∀ j l, Listed ((s.setNamed i n).named j) → Listed ((s.setNamed i n).named l) →
      ((s.setNamed i n).named j).name = ((s.setNamed i n).named l).name →
      ((s.setNamed i n).named j).name.bytes.length < 255 → j = l := by
  intro j l hj hl heq hshort
  by_cases hji : j = i
  · by_cases hli : l = i
    · rw [hji, hli]
    · rw [hji, setNamed_same] at hj heq hshort
      rw [setNamed_ne hli] at hl heq
      exact absurd hshort (hname hj l hli hl heq.symm)
  · rw [setNamed_ne hji] at hj heq hshort
    by_cases hli : l = i
    · rw [hli, setNamed_same] at hl heq
      rw [heq] at hshort
      exact absurd hshort (hname hl j hji hj heq)
    · rw [setNamed_ne hli] at hl heq
      exact h.names j l hj hl heq hshort

/-- No other entry has the name of one that is listed, unless it was cut off. -/
theorem other_names (h : Sound s) (hunlinked : n.unlinked = false → (s.named i).unlinked = false)
    (hactive : (s.named i).active = true) (hname : n.name = (s.named i).name) :
    Listed n → ∀ j, j ≠ i → Listed (s.named j) → (s.named j).name = n.name → ¬n.name.bytes.length < 255 := by
  intro hn j hj hlisted heq hshort
  rw [hname] at heq hshort
  rw [← heq] at hshort
  exact hj (h.names j i hlisted ⟨hactive, hunlinked hn.2⟩ heq hshort)

/-- An entry that stays in use with its slot. -/
theorem setNamed (h : Sound s) (hactive : (s.named i).active = true) (hn : n.active = true)
    (hslot : n.slot_idx = (s.named i).slot_idx) (hname : n.name = (s.named i).name)
    (hunlinked : n.unlinked = false → (s.named i).unlinked = false) :
    Sound (s.setNamed i n) := by
  constructor
  · refine h.slots.congr (fun o x => ?_) fun x => Iff.rfl
    cases o with
    | named j =>
      rw [has_named, has_named]
      by_cases hj : j = i
      · rw [hj, setNamed_same, hn, hactive, hslot]
      · rw [setNamed_ne hj]
    | member k i => exact Iff.rfl
  · exact h.names_update (h.other_names hunlinked hactive hname)
  · exact h.sizes

theorem settle (h : Sound s) (hactive : (s.named i).active = true) (hn : n.active = true)
    (hslot : n.slot_idx = (s.named i).slot_idx) (hname : n.name = (s.named i).name)
    (hunlinked : n.unlinked = false → (s.named i).unlinked = false) :
    Sound (s.settle i n) := by
  unfold State.settle
  split
  · constructor
    · refine h.slots.release (fun o => o = .named i) (fun o x => ?_) fun x => ?_
      · cases o with
        | named j =>
          rw [has_named, has_named, slotFree_named]
          by_cases hj : j = i
          · rw [hj, setNamed_same]
            exact ⟨fun hhas => absurd hhas.1 Bool.false_ne_true, fun hhas => absurd rfl hhas.2⟩
          · rw [setNamed_ne hj]
            exact ⟨fun hhas => ⟨hhas, fun heq => hj (Owner.named.inj heq)⟩, fun hhas => hhas.1⟩
        | member l m =>
          rw [has_member, slotFree_semsets]
          exact ⟨fun hhas => ⟨hhas, fun heq => by cases heq⟩, fun hhas => hhas.1⟩
      · rw [shared_slotFree, hslot]
        constructor
        · rintro ⟨hshared, hne⟩
          refine ⟨hshared, ?_⟩
          rintro ⟨o, rfl, hhas⟩
          exact hne hhas.2
        · rintro ⟨hshared, hnone⟩
          exact ⟨hshared, fun heq => hnone ⟨_, rfl, hactive, heq⟩⟩
    · rw [slotFree_named]
      exact h.names_update fun hlisted => absurd hlisted.1 Bool.false_ne_true
    · rw [slotFree_semsets]
      exact h.sizes
  · exact h.setNamed hactive hn hslot hname hunlinked

/-- A slot for `sem_init`. -/
theorem allocAnonymous {val : BitVec 32} (h : Sound s) (halloc : s.slotAlloc val true = some (idx, s')) : Sound s' := by
  obtain ⟨hfree, rfl⟩ := slotAlloc_spec halloc
  constructor
  · refine h.slots.congr (fun o x => ?_) fun x => ?_
    · cases o <;> exact Iff.rfl
    · unfold Shared
      by_cases hx : x = idx
      · rw [hx, setSlot_same]
        constructor
        · intro hshared
          exact absurd hshared.2.symm Bool.false_ne_true
        · intro hshared
          exact absurd (hfree.symm.trans hshared.1) Bool.false_ne_true
      · rw [setSlot_ne hx]
  · exact h.names
  · exact h.sizes

theorem freeAnonymous (h : Sound s) (hanonymous : (s.slots idx).p.anonymous = true) : Sound (s.slotFree idx) := by
  constructor
  · refine h.slots.congr (fun o x => ?_) fun x => ?_
    · cases o with
      | named j => rw [has_named, has_named, slotFree_named]
      | member l m => rw [has_member, has_member, slotFree_semsets]
    · rw [shared_slotFree]
      refine ⟨fun hshared => hshared.1, fun hshared => ⟨hshared, ?_⟩⟩
      rintro rfl
      exact Bool.false_ne_true (hshared.2.symm.trans hanonymous)
  · rw [slotFree_named]
    exact h.names
  · rw [slotFree_semsets]
    exact h.sizes

/-- A slot that was free gets an owner. -/
theorem shared_setSlot {p : Primitive} (hp : p.anonymous = false) {x : Index} :
    Shared (s.setSlot idx ⟨true, p⟩) x ↔ Shared s x ∨ x = idx := by
  unfold Shared
  by_cases hx : x = idx
  · rw [hx, setSlot_same]
    exact ⟨fun _ => Or.inr rfl, fun _ => ⟨rfl, hp⟩⟩
  · rw [setSlot_ne hx]
    exact ⟨Or.inl, fun hshared => hshared.resolve_right hx⟩

theorem not_shared (hfree : (s.slots idx).active = false) : ¬Shared s idx := fun hshared =>
  Bool.false_ne_true (hfree.symm.trans hshared.1)

/-- `sem_open` makes a semaphore under a name that is not there. -/
theorem create {name : CString} {value : BitVec 32} (h : Sound s) (hfind : s.namedFindByName name = none)
    (hfree : s.namedFindFree = some i) (halloc : s.slotAlloc value false = some (idx, s')) :
    Sound (s'.setNamed i ⟨true, State.shortName name, false, 1, idx⟩) := by
  obtain ⟨hinactive, rfl⟩ := slotAlloc_spec halloc
  have hentry := findFree_spec hfree
  constructor
  · refine h.slots.add (o := .named i) (not_shared hinactive) (fun o x => ?_) fun x => shared_setSlot rfl
    cases o with
    | named j =>
      rw [has_named]
      by_cases hj : j = i
      · rw [hj, setNamed_same, has_named, hentry]
        exact ⟨fun hhas => Or.inr ⟨rfl, hhas.2.symm⟩, fun hhas =>
          ⟨rfl, ((hhas.resolve_left fun hfalse => Bool.false_ne_true hfalse.1).2).symm⟩⟩
      · rw [setNamed_ne hj]
        exact ⟨Or.inl, fun hhas => hhas.resolve_right fun heq => hj (Owner.named.inj heq.1)⟩
    | member l m => exact ⟨Or.inl, fun hhas => hhas.resolve_right fun heq => by cases heq.1⟩
  · refine h.names_update fun _ j _ hlisted heq hshort => ?_
    -- a name that was not cut off is the one that was not found
    have hlength : name.bytes.length ≤ 255 := by
      rw [State.shortName, List.length_take] at hshort
      omega
    have hwhole : State.shortName name = name := by
      cases name with
      | mk bytes noNul => exact (CString.mk.injEq ..).mpr (List.take_of_length_le hlength)
    exact findByName_none hfind hlisted (heq.trans hwhole)
  · exact h.sizes

theorem semOpen (h : Sound s) (name : Option CString) (oflag value : BitVec 32) :
    Sound (s.semOpen name oflag value).2 := by
  unfold State.semOpen
  cases name with
  | none => exact h
  | some name =>
    dsimp only
    split
    · exact h
    · split
      · exact h
      · rcases hfind : s.namedFindByName name with _ | i
        · dsimp only
          split
          · exact h
          · rcases hfree : s.namedFindFree with _ | i
            · exact h
            · dsimp only
              rcases halloc : s.slotAlloc value false with _ | ⟨idx, s'⟩
              · exact h
              · exact h.create hfind hfree halloc
        · dsimp only
          split
          · exact h
          · have hlisted := findByName_spec hfind
            exact h.setNamed hlisted.1 hlisted.1 rfl rfl id

theorem semClose (h : Sound s) (sem : Int) : Sound (s.semClose sem).2 := by
  unfold State.semClose
  rcases hfind : (State.index sem).bind s.namedFindBySlot with _ | i
  · exact h
  · dsimp only
    split_ifs with hcount
    · exact h
    · obtain ⟨idx, -, hslot⟩ := Option.bind_eq_some_iff.1 hfind
      have hactive := (findBySlot_spec hslot).1
      exact h.settle hactive hactive rfl rfl id

theorem semUnlink (h : Sound s) (name : Option CString) : Sound (s.semUnlink name).2 := by
  unfold State.semUnlink
  cases name with
  | none => exact h
  | some name =>
    dsimp only
    rcases hfind : s.namedFindByName name with _ | i
    · exact h
    · dsimp only
      have hlisted := findByName_spec hfind
      split_ifs
      · exact h
      · exact h.settle hlisted.1 hlisted.1 rfl rfl fun hfalse => absurd hfalse.symm Bool.false_ne_true

/-- The semaphores of the set up to `m` go, and the set with them. -/
theorem disband {m : Nat} (h : Sound (first s k m)) (hactive : (s.semsets k).active = true)
    (hsize : (s.semsets k).sem_nsems ≤ JACL_SYSV_MAX_SEMS) : Sound (s.disband k m) := by
  rw [disband_eq]
  constructor
  · refine h.slots.release (fun o => ∃ j, o = .member k j) (fun o x => ?_) fun x => ?_
    · cases o with
      | named j =>
        rw [has_named, has_named]
        change ((freeAll s _ m).named j).active = true ∧ ((freeAll s _ m).named j).slot_idx = x ↔ _
        rw [freeAll_named]
        refine ⟨fun hhas => ⟨hhas, ?_⟩, fun hhas => hhas.1⟩
        rintro ⟨j', heq⟩
        cases heq
      | member l j =>
        rw [has_member]
        by_cases hl : l = k
        · rw [hl, setSemset_same]
          exact ⟨fun hhas => absurd hhas.1 Bool.false_ne_true, fun hhas => absurd ⟨j, rfl⟩ hhas.2⟩
        · rw [setSemset_ne hl, freeAll_semsets, has_member, first, setSemset_ne hl]
          refine ⟨fun hhas => ⟨hhas, ?_⟩, fun hhas => hhas.1⟩
          rintro ⟨j', heq⟩
          exact hl (Owner.member.inj heq).1
    · change Shared (freeAll s (s.semsets k).slot_indices m) x ↔ Shared s x ∧ _
      rw [freeAll_shared]
      refine and_congr_right fun _ => not_congr ⟨?_, ?_⟩
      · rintro ⟨j, hj, heq⟩
        refine ⟨.member k j, ⟨j, rfl⟩, ?_⟩
        rw [has_member, first, setSemset_same]
        exact ⟨hactive, hj, heq⟩
      · rintro ⟨o, ⟨j, rfl⟩, hhas⟩
        rw [has_member, first, setSemset_same] at hhas
        exact ⟨j, hhas.2⟩
  · change ∀ i j, Listed ((freeAll s _ m).named i) → Listed ((freeAll s _ m).named j) →
      ((freeAll s _ m).named i).name = ((freeAll s _ m).named j).name →
      ((freeAll s _ m).named i).name.bytes.length < 255 → i = j
    rw [freeAll_named]
    exact h.names
  · intro l
    by_cases hl : l = k
    · rw [hl, setSemset_same]
      exact hsize
    · rw [setSemset_ne hl, freeAll_semsets]
      have := h.sizes l
      rwa [first, setSemset_ne hl] at this

theorem first_all : first s k (s.semsets k).sem_nsems = s := by
  have hupdate : Function.update s.semsets k (s.semsets k) = s.semsets := Function.update_eq_self ..
  change { s with semsets := Function.update s.semsets k (s.semsets k) } = s
  rw [hupdate]

/-- Every turn of the loop of `semget` fills one place more; where no slot is left, all go back. -/
theorem fill (m : Nat) {s : State} {j : Nat} (h : Sound (first s k j)) (hactive : (s.semsets k).active = true)
    (hcount : (s.semsets k).sem_nsems = j + m) (hsize : (s.semsets k).sem_nsems ≤ JACL_SYSV_MAX_SEMS) :
    Sound (s.fill k j m).2.2 := by
  induction m generalizing s j with
  | zero =>
    rw [Nat.add_zero] at hcount
    rw [← hcount, first_all] at h
    exact h
  | succ m ih =>
    rw [State.fill]
    rcases halloc : s.slotAlloc 0 false with _ | ⟨idx, s'⟩
    · exact h.disband hactive hsize
    · obtain ⟨hfree, rfl⟩ := slotAlloc_spec halloc
      unfold State.fillTurn
      dsimp only
      refine ih ?_ ?_ ?_ ?_
      · constructor
        · refine h.slots.add (o := .member k j) (not_shared hfree) (fun o x => ?_) fun x => shared_setSlot rfl
          cases o with
          | named i => exact ⟨Or.inl, fun hhas => hhas.resolve_right fun heq => by cases heq.1⟩
          | member l j' =>
            rw [has_member, has_member, first, first]
            by_cases hl : l = k
            · rw [hl, setSemset_same, setSemset_same, setSemset_same]
              change (s.semsets k).active = true ∧ j' < j + 1 ∧ Function.update (s.semsets k).slot_indices j idx j' =
                x ↔ ((s.semsets k).active = true ∧ j' < j ∧ (s.semsets k).slot_indices j' = x) ∨ _
              by_cases hj : j' = j
              · rw [hj, Function.update_self]
                exact ⟨fun hhas => Or.inr ⟨rfl, hhas.2.2.symm⟩, fun hhas =>
                  ⟨hactive, Nat.lt_succ_self j, ((hhas.resolve_left fun hlt => Nat.lt_irrefl _ hlt.2.1).2).symm⟩⟩
              · rw [Function.update_of_ne hj]
                refine ⟨fun hhas => Or.inl ⟨hhas.1, by omega, hhas.2.2⟩, fun hhas => ?_⟩
                have hmember := hhas.resolve_right fun heq => hj (Owner.member.inj heq.1).2
                exact ⟨hmember.1, by omega, hmember.2.2⟩
            · rw [setSemset_ne hl, setSemset_ne hl, setSemset_ne hl]
              exact ⟨Or.inl, fun hhas => hhas.resolve_right fun heq => hl (Owner.member.inj heq.1).1⟩
        · exact h.names
        · intro l
          by_cases hl : l = k
          · rw [hl, first, setSemset_same]
            change j + 1 ≤ JACL_SYSV_MAX_SEMS
            omega
          · have := h.sizes l
            rw [first, setSemset_ne hl] at this
            rw [first, setSemset_ne hl, setSemset_ne hl]
            exact this
      · rw [setSemset_same]
        exact hactive
      · rw [setSemset_same]
        change (s.semsets k).sem_nsems = j + 1 + m
        omega
      · rw [setSemset_same]
        exact hsize

theorem semget (h : Sound s) (key nsems : Int) (semflg : BitVec 32) : Sound (s.semget key nsems semflg).2 := by
  unfold State.semget
  split
  · exact h
  · rename_i hrange
    split
    · split <;> exact h
    · split
      · exact h
      · rcases hfind : s.sysvFindFree with _ | k
        · exact h
        · have hinactive := sysvFindFree_spec hfind
          have hsize : nsems.toNat ≤ JACL_SYSV_MAX_SEMS := by omega
          refine Sound.fill nsems.toNat ?_ ?_ ?_ ?_
          · constructor
            · refine h.slots.congr (fun o x => ?_) fun x => Iff.rfl
              cases o with
              | named i => exact Iff.rfl
              | member l j =>
                rw [has_member, has_member, first]
                by_cases hl : l = k
                · rw [hl, setSemset_same, hinactive]
                  exact ⟨fun hhas => absurd hhas.2.1 (Nat.not_lt_zero j), fun hhas => absurd hhas.1 Bool.false_ne_true⟩
                · rw [setSemset_ne hl, setSemset_ne hl]
            · exact h.names
            · intro l
              by_cases hl : l = k
              · rw [hl, first, setSemset_same]
                exact Nat.zero_le _
              · rw [first, setSemset_ne hl, setSemset_ne hl]
                exact h.sizes l
          · rw [setSemset_same]
          · rw [setSemset_same, Nat.zero_add]
          · rw [setSemset_same]
            exact hsize

theorem semctl (h : Sound s) (semid semnum : Int) (cmd : Command) : Sound (s.semctl semid semnum cmd).2 := by
  unfold State.semctl
  rcases hset : s.semset semid with _ | k
  · exact h
  · cases cmd with
    | rmid =>
      refine Sound.disband ?_ (semset_spec hset) (h.sizes k)
      rw [first_all]
      exact h
    | getval => exact h.same (Same.semctlGet s k semnum _)
    | setval val =>
      dsimp only
      rcases s.member k semnum with _ | idx
      · exact h
      · exact h.same (Same.setValue s idx val)
    | getall array =>
      dsimp only
      split_ifs <;> exact h
    | setall array =>
      cases array with
      | none => exact h
      | some array => exact h.same (Same.setall s k array)
    | getpid => exact h.same (Same.semctlGet s k semnum _)
    | getncnt => exact h.same (Same.semctlGet s k semnum _)
    | getzcnt => exact h.same (Same.semctlGet s k semnum _)
    | other => exact h

end Sound

/-! ### Runs -/

theorem step_sound {pid : Int} {s : State} (h : Sound s) (c : Call) : Sound (step pid s c).2 := by
  cases c with
  | init sem value =>
    rw [step, State.semInit]
    split_ifs
    · exact h
    · rcases halloc : s.slotAlloc value true with _ | ⟨idx, s'⟩
      · exact h
      · exact h.allocAnonymous halloc
  | destroy sem =>
    rw [step, State.semDestroy]
    rcases s.resolve sem with _ | idx
    · exact h
    · dsimp only
      split_ifs with hanonymous
      · exact h
      · exact h.freeAnonymous (by simpa using hanonymous)
  | «open» name oflag value => exact h.semOpen name oflag value
  | close sem => exact h.semClose sem
  | unlink name => exact h.semUnlink name
  | wait sem => exact h.same (Same.waitCore s sem false)
  | timedwait sem abs_timeout => exact h.same (Same.semTimedwait s sem abs_timeout)
  | trywait sem => exact h.same (Same.semTrywait s sem)
  | post sem => exact h.same (Same.semPost s sem)
  | getvalue sem sval => exact h.same (Same.semGetvalue s sem sval)
  | semget key nsems semflg => exact h.semget key nsems semflg
  | semop semid sops => exact h.same (Same.semop s semid sops)
  | semctl semid semnum cmd => exact h.semctl semid semnum cmd
  | wake k => exact h.same (Same.wake s k)
  | timeout k => exact h.same (Same.timeout s k)

theorem start_sound : Sound .start := by
  constructor
  · constructor
    · intro x hx
      exact absurd hx.1 Bool.false_ne_true
    · intro o x hhas
      cases o <;> exact absurd hhas.1 Bool.false_ne_true
    · intro o o' x hhas
      cases o <;> exact absurd hhas.1 Bool.false_ne_true
  · intro i j hi
    exact absurd hi.1 Bool.false_ne_true
  · intro k
    exact Nat.zero_le _

/-! ### Who has a semaphore open -/

/-- What a call adds to those who have the named semaphore in a slot open. -/
def opens (idx : Index) : Call × Output → Int
  | (.open _ _ _, ⟨.sem x, _⟩) => if x = idx then 1 else 0
  | (.close sem, ⟨.ret _, _⟩) => if State.index sem = some idx then -1 else 0
  | _ => 0

/-- How many calls of `sem_open` have answered the slot and were not undone by `sem_close`. -/
def opened (trace : List (Call × Output)) (idx : Index) : Int := (trace.map (opens idx)).sum

/-- Each entry counts those who have it open, an unlinked entry is there for somebody, and what somebody has open is
there. -/
structure Open (trace : List (Call × Output)) (s : State) : Prop where
  counts : ∀ i, (s.named i).active = true → (s.named i).refcount = opened trace (s.named i).slot_idx ∧
    0 ≤ (s.named i).refcount
  wanted : ∀ i, (s.named i).active = true → (s.named i).unlinked = true → 0 < opened trace (s.named i).slot_idx
  lives : ∀ idx, opened trace idx ≠ 0 → ∃ i, (s.named i).active = true ∧ (s.named i).slot_idx = idx

/-- The vector has room in `sorted_indices`, and the count of the entry that is opened is not the largest `int`. -/
def Few (s : State) (c : Call) : Prop :=
  InBounds s c ∧ match c with
    | .open (some name) _ _ => ∀ i ∈ s.namedFindByName name, (s.named i).refcount < INT_MAX
    | _ => True

theorem opened_append (trace : List (Call × Output)) (p : Call × Output) (idx : Index) :
    opened (trace ++ [p]) idx = opened trace idx + opens idx p := by
  simp [opened]

theorem fill_named (n : Nat) (s : State) (k : Fin JACL_SYSV_SEMSET_MAX) (i : Nat) :
    (s.fill k i n).2.2.named = s.named := by
  induction n generalizing s i with
  | zero => rfl
  | succ n ih =>
    rw [State.fill]
    rcases halloc : s.slotAlloc 0 false with _ | ⟨idx, s'⟩
    · exact freeAll_named
    · obtain ⟨-, rfl⟩ := slotAlloc_spec halloc
      exact ih _ _

/-- Only three calls change the table of the names. -/
theorem step_named (pid : Int) (s : State) {c : Call} (hopen : ∀ name oflag value, c ≠ .open name oflag value)
    (hclose : ∀ sem, c ≠ .close sem) (hunlink : ∀ name, c ≠ .unlink name) : (step pid s c).2.named = s.named := by
  cases c with
  | init sem value =>
    rw [step, State.semInit]
    split_ifs
    · rfl
    · rcases halloc : s.slotAlloc value true with _ | ⟨idx, s'⟩
      · rfl
      · obtain ⟨-, rfl⟩ := slotAlloc_spec halloc
        rfl
  | destroy sem =>
    rw [step, State.semDestroy]
    rcases s.resolve sem with _ | idx
    · rfl
    · dsimp only
      split_ifs
      · rfl
      · exact slotFree_named
  | «open» name oflag value => exact absurd rfl (hopen name oflag value)
  | close sem => exact absurd rfl (hclose sem)
  | unlink name => exact absurd rfl (hunlink name)
  | wait sem => exact (Same.waitCore s sem false).named
  | timedwait sem abs_timeout => exact (Same.semTimedwait s sem abs_timeout).named
  | trywait sem => exact (Same.semTrywait s sem).named
  | post sem => exact (Same.semPost s sem).named
  | getvalue sem sval => exact (Same.semGetvalue s sem sval).named
  | semget key nsems semflg =>
    rw [step, State.semget]
    split
    · rfl
    · split
      · split <;> rfl
      · split
        · rfl
        · rcases s.sysvFindFree with _ | k
          · rfl
          · exact fill_named _ _ k 0
  | semop semid sops => exact (Same.semop s semid sops).named
  | semctl semid semnum cmd =>
    rw [step, State.semctl]
    rcases s.semset semid with _ | k
    · rfl
    · cases cmd with
      | rmid => exact freeAll_named
      | setval val =>
        dsimp only
        rcases s.member k semnum with _ | idx <;> rfl
      | getall array =>
        dsimp only
        split_ifs <;> rfl
      | setall array =>
        cases array with
        | none => rfl
        | some array => exact (Same.setall s k array).named
      | getval | getpid | getncnt | getzcnt => exact (Same.semctlGet s k semnum _).named
      | other => rfl
  | wake k => exact (Same.wake s k).named
  | timeout k => exact (Same.timeout s k).named

namespace Open

variable {trace : List (Call × Output)} {s s' : State} {i : Fin JACL_SEM_NAMED_MAX} {p : Call × Output}

/-- A call that neither changes the table of the names nor opens or closes anything. -/
theorem same (h : Open trace s) (hnamed : s'.named = s.named) (hopens : ∀ idx, opens idx p = 0) :
    Open (trace ++ [p]) s' := by
  have hsame : ∀ idx, opened (trace ++ [p]) idx = opened trace idx := by
    intro idx
    rw [opened_append, hopens, Int.add_zero]
  constructor
  · intro i
    rw [hnamed, hsame]
    exact h.counts i
  · intro i
    rw [hnamed, hsame]
    exact h.wanted i
  · intro idx
    rw [hnamed, hsame]
    exact h.lives idx

/-- A call that changes one entry and counts in its slot only. -/
theorem update (h : Open trace s) (hsound : Sound s) (hactive : (s.named i).active = true) {n : Named}
    (hnamed : s'.named = Function.update s.named i n) (hslot : n.slot_idx = (s.named i).slot_idx)
    (hopens : ∀ idx, opens idx p = if (s.named i).slot_idx = idx then n.refcount - (s.named i).refcount else 0)
    (hcount : 0 ≤ n.refcount) (hgoes : n.active = true ∨ n.refcount = 0)
    (hwanted : n.active = true → n.unlinked = true → 0 < n.refcount) : Open (trace ++ [p]) s' := by
  have hself : opened (trace ++ [p]) (s.named i).slot_idx = n.refcount := by
    rw [opened_append, hopens, if_pos rfl, ← (h.counts i hactive).1]
    omega
  have hother : ∀ idx, (s.named i).slot_idx ≠ idx → opened (trace ++ [p]) idx = opened trace idx := by
    intro idx hne
    rw [opened_append, hopens, if_neg hne, Int.add_zero]
  -- no other entry has the slot
  have hapart : ∀ j, j ≠ i → (s.named j).active = true → (s.named i).slot_idx ≠ (s.named j).slot_idx := by
    intro j hj hj' heq
    have hhas : Has s (.named i) (s.named j).slot_idx := ⟨hactive, heq⟩
    have hhas' : Has s (.named j) (s.named j).slot_idx := ⟨hj', rfl⟩
    exact hj (Owner.named.inj (hsound.slots.unique hhas hhas')).symm
  constructor
  · intro j
    rw [hnamed]
    by_cases hj : j = i
    · rw [hj, Function.update_self, hslot, hself]
      exact fun _ => ⟨rfl, hcount⟩
    · rw [Function.update_of_ne hj]
      intro hj'
      rw [hother _ (hapart j hj hj')]
      exact h.counts j hj'
  · intro j
    rw [hnamed]
    by_cases hj : j = i
    · rw [hj, Function.update_self, hslot, hself]
      exact hwanted
    · rw [Function.update_of_ne hj]
      intro hj'
      rw [hother _ (hapart j hj hj')]
      exact h.wanted j hj'
  · intro idx hne
    rw [hnamed]
    by_cases hidx : (s.named i).slot_idx = idx
    · subst hidx
      rw [hself] at hne
      refine ⟨i, ?_, ?_⟩
      · rw [Function.update_self]
        exact hgoes.resolve_right hne
      · rw [Function.update_self, hslot]
    · rw [hother idx hidx] at hne
      obtain ⟨j, hj, hjslot⟩ := h.lives idx hne
      have hji : j ≠ i := by
        rintro rfl
        exact hidx hjslot
      exact ⟨j, by rwa [Function.update_of_ne hji], by rwa [Function.update_of_ne hji]⟩

/-- The table of the names where an entry settles. -/
theorem settle_named (n : Named) : (s.settle i n).named =
    Function.update s.named i (if n.refcount = 0 ∧ n.unlinked then { n with active := false } else n) := by
  unfold State.settle
  split
  · rw [slotFree_named]
    rfl
  · rfl

/-- An entry settles. -/
theorem settle (h : Open trace s) (hsound : Sound s) (hactive : (s.named i).active = true) {n : Named}
    (hn : n.active = true) (hslot : n.slot_idx = (s.named i).slot_idx)
    (hopens : ∀ idx, opens idx p = if (s.named i).slot_idx = idx then n.refcount - (s.named i).refcount else 0)
    (hcount : 0 ≤ n.refcount) : Open (trace ++ [p]) (s.settle i n) := by
  have hnamed := @settle_named s i n
  by_cases hgone : n.refcount = 0 ∧ n.unlinked
  · rw [if_pos hgone] at hnamed
    exact h.update hsound hactive hnamed hslot hopens hcount (.inr hgone.1) fun hfalse =>
      absurd hfalse Bool.false_ne_true
  · rw [if_neg hgone] at hnamed
    refine h.update hsound hactive hnamed hslot hopens hcount (.inl hn) fun _ hunlinked => ?_
    exact lt_of_le_of_ne hcount fun hzero => hgone ⟨hzero.symm, hunlinked⟩

/-- A new entry. -/
theorem create (h : Open trace s) (hsound : Sound s) {name : CString} {oflag value : BitVec 32} {idx : Index}
    {events : List Event} (hfree : s.namedFindFree = some i) {short : CString}
    (halloc : s.slotAlloc value false = some (idx, s')) :
    Open (trace ++ [(.open (some name) oflag value, ⟨.sem idx, events⟩)])
      (s'.setNamed i ⟨true, short, false, 1, idx⟩) := by
  obtain ⟨hinactive, rfl⟩ := slotAlloc_spec halloc
  have hentry := findFree_spec hfree
  have hold : ∀ slot n j, j ≠ i → ((s.setSlot idx slot).setNamed i n).named j = s.named j :=
    fun _ _ _ hj => setNamed_ne hj
  have hnone : ∀ j, (s.named j).active = true → (s.named j).slot_idx ≠ idx := by
    intro j hj heq
    have := hsound.slots.used (o := .named j) ⟨hj, heq⟩
    exact Bool.false_ne_true (hinactive.symm.trans this.1)
  have hzero : opened trace idx = 0 := by
    by_contra hne
    obtain ⟨j, hj, heq⟩ := h.lives idx hne
    exact hnone j hj heq
  have hself : opened (trace ++ [(.open (some name) oflag value, ⟨.sem idx, events⟩)]) idx = 1 := by
    rw [opened_append, hzero, opens, if_pos rfl]
    rfl
  have hother : ∀ x, idx ≠ x → opened (trace ++ [(.open (some name) oflag value, ⟨.sem idx, events⟩)]) x =
    opened trace x := by
    intro x hne
    rw [opened_append, opens, if_neg hne, Int.add_zero]
  constructor
  · intro j
    by_cases hj : j = i
    · rw [hj, setNamed_same]
      exact fun _ => ⟨hself.symm, Int.one_nonneg⟩
    · rw [hold _ _ j hj]
      intro hj'
      rw [hother _ (hnone j hj').symm]
      exact h.counts j hj'
  · intro j
    by_cases hj : j = i
    · rw [hj, setNamed_same]
      exact fun _ hfalse => absurd hfalse Bool.false_ne_true
    · rw [hold _ _ j hj]
      intro hj'
      rw [hother _ (hnone j hj').symm]
      exact h.wanted j hj'
  · intro x hne
    by_cases hx : idx = x
    · exact ⟨i, by rw [setNamed_same], by rw [setNamed_same]; exact hx⟩
    · rw [hother x hx] at hne
      obtain ⟨j, hj, hjslot⟩ := h.lives x hne
      have hji : j ≠ i := by
        rintro rfl
        exact Bool.false_ne_true (hentry.symm.trans hj)
      exact ⟨j, by rwa [hold _ _ j hji], by rwa [hold _ _ j hji]⟩

end Open

theorem step_open {trace : List (Call × Output)} {pid : Int} {s : State} (h : Open trace s) (hsound : Sound s)
    (c : Call) (hfew : Few s c) : Open (trace ++ [(c, (step pid s c).1)]) (step pid s c).2 := by
  have herror : ∀ {c : Call} (e : Error), Open (trace ++ [(c, Output.error e)]) s := by
    intro c e
    refine h.same rfl fun idx => ?_
    cases c <;> rfl
  by_cases hopen : ∃ name oflag value, c = .open name oflag value
  · obtain ⟨name, oflag, value, rfl⟩ := hopen
    change Open (trace ++ [(_, (s.semOpen name oflag value).1)]) (s.semOpen name oflag value).2
    unfold State.semOpen
    cases name with
    | none => exact herror _
    | some name =>
      dsimp only
      split
      · exact herror _
      · split
        · exact herror _
        · rcases hfind : s.namedFindByName name with _ | i
          · dsimp only
            split
            · exact herror _
            · rcases hfree : s.namedFindFree with _ | i
              · exact herror _
              · dsimp only
                rcases halloc : s.slotAlloc value false with _ | ⟨idx, s'⟩
                · exact herror _
                · exact h.create hsound hfree halloc
          · dsimp only
            have hactive := (findByName_spec hfind).1
            have hcount := h.counts i hactive
            have hless : (s.named i).refcount < INT_MAX := hfew.2 i hfind
            have hwrap : wrapInt ((s.named i).refcount + 1) = (s.named i).refcount + 1 :=
              wrapInt_of_le (by omega) (by omega)
            split
            · exact herror _
            · refine h.update hsound hactive rfl rfl (fun idx => ?_) ?_ (.inl hactive) fun _ _ => ?_
              · rw [opens]
                dsimp only
                rw [hwrap, add_sub_cancel_left]
              · dsimp only
                omega
              · dsimp only
                omega
  by_cases hclose : ∃ sem, c = .close sem
  · obtain ⟨sem, rfl⟩ := hclose
    rw [step, State.semClose]
    rcases hfind : (State.index sem).bind s.namedFindBySlot with _ | i
    · exact herror _
    · obtain ⟨idx, hidx, hslot⟩ := Option.bind_eq_some_iff.1 hfind
      obtain ⟨hactive, hhas⟩ := findBySlot_spec hslot
      dsimp only
      split_ifs with hcount
      · exact herror _
      · refine h.settle hsound hactive hactive rfl (fun x => ?_) ?_
        · rw [opens, hidx, hhas]
          dsimp only
          simp only [Option.some.injEq]
          split <;> omega
        · dsimp only
          omega
  by_cases hunlink : ∃ name, c = .unlink name
  · obtain ⟨name, rfl⟩ := hunlink
    change Open (trace ++ [(_, (s.semUnlink name).1)]) (s.semUnlink name).2
    unfold State.semUnlink
    cases name with
    | none => exact herror _
    | some name =>
      dsimp only
      rcases hfind : s.namedFindByName name with _ | i
      · exact herror _
      · dsimp only
        have hactive := (findByName_spec hfind).1
        split_ifs
        · exact herror _
        · refine h.settle hsound hactive hactive rfl (fun x => ?_) (h.counts i hactive).2
          dsimp only
          rw [Int.sub_self, ite_self]
          rfl
  · push Not at hopen hclose hunlink
    refine h.same (step_named pid s hopen hclose hunlink) fun idx => ?_
    cases c with
    | «open» name oflag value => exact absurd rfl (hopen name oflag value)
    | close sem => exact absurd rfl (hclose sem)
    | _ => rfl

theorem start_open : Open [] .start :=
  ⟨fun _ h => absurd h Bool.false_ne_true, fun _ h => absurd h Bool.false_ne_true, fun _ h => absurd rfl h⟩

/-- Along every run that stays in bounds every shared slot has one owner, every owner its slot, and a name lives, also
where it was unlinked, as long as somebody has it open. -/
theorem sem_slots {pid : Int} {calls : List Call} (hfew : Machine.Guarded (step pid) Few .start calls) :
    Sound (Machine.run (step pid) .start calls) ∧
      Open (Machine.trace (step pid) .start calls) (Machine.run (step pid) .start calls) := by
  have hstep : ∀ tr s c, Sound s ∧ Open tr s → Few s c →
      Sound (step pid s c).2 ∧ Open (tr ++ [(c, (step pid s c).1)]) (step pid s c).2 :=
    fun _ _ c h hc => ⟨step_sound h.1 c, step_open h.2 h.1 c hc⟩
  exact Machine.guarded_trace_invariant hstep ⟨start_sound, start_open⟩ hfew

/-- The semaphore is still there after a set was made, the name was unlinked and the set was removed. -/
theorem sem_slots_removed : ∃ i, ((Machine.run (step 7) .start [.semget 0 3 0x200,
    .open (some ⟨lit "/s", by decide⟩) Mqueue.O_CREAT 1, .unlink (some ⟨lit "/s", by decide⟩),
    .semop 0 (some [⟨1, 2, 0⟩, ⟨2, 0, 0⟩]), .semctl 0 0 .rmid]).named i).active = true := by
  have hfew : Machine.Guarded (step 7) Few .start [.semget 0 3 0x200,
    .open (some ⟨lit "/s", by decide⟩) Mqueue.O_CREAT 1,
      .unlink (some ⟨lit "/s", by decide⟩), .semop 0 (some [⟨1, 2, 0⟩, ⟨2, 0, 0⟩]), .semctl 0 0 .rmid] := by
    refine ⟨⟨trivial, trivial⟩, ⟨trivial, fun i _ => ?_⟩, ⟨trivial, trivial⟩, ⟨(by decide : 2 ≤ 256), trivial⟩,
      ⟨trivial, trivial⟩, trivial⟩
    rw [step_named 7 .start (by simp) (by simp) (by simp)]
    exact (by decide : (0 : Int) < INT_MAX)
  obtain ⟨i, hactive, -⟩ := (sem_slots hfew).2.lives 3 (by decide +kernel)
  exact ⟨i, hactive⟩

end JACLibc.Sem
