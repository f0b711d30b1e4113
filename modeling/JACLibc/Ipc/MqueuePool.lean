import JACLibc.Ipc.Mqueue
import Mathlib.Data.Fintype.Card
import Mathlib.Data.Fintype.Fin

/-!
# The pool of message queues

What holds of queues and descriptors after any run in which no descriptor is closed that a call still waits on
(`Sound`): reference counts count the open descriptors, descriptors and waiting calls never outlive their queue, names
are told apart, and no queue has more or longer messages than its attributes say.
-/

namespace JACLibc.Mqueue

/-- The descriptors that are open on a queue. -/
def openDescs (s : State) (i : Fin JACL_MQ_MAX) : Finset (Fin JACL_MQ_DESC_MAX) :=
  Finset.univ.filter fun d => (s.descs d).active = true ∧ (s.descs d).pool_idx = i

/-- The queue is found by its name. -/
def Named (mq : Mq) : Prop := mq.active = true ∧ mq.unlinked = false

/-- What a queue in use has. -/
structure Mq.Sound (mq : Mq) : Prop where
  count : mq.attr.mq_curmsgs = mq.head.length
  room : mq.attr.mq_curmsgs ≤ mq.attr.mq_maxmsg
  sizes : ∀ node ∈ mq.head, (node.data.length : Int) ≤ mq.attr.mq_msgsize

/-- The message of a call is no longer than the queue allows. -/
def Request.Fits (mq : Mq) : Request → Prop
  | .send msg _ => (msg.length : Int) ≤ mq.attr.mq_msgsize
  | .receive _ => True

theorem Request.Fits.congr {mq mq' : Mq} {r : Request} (h : r.Fits mq)
    (hsize : mq'.attr.mq_msgsize = mq.attr.mq_msgsize) : r.Fits mq' := by
  cases r with
  | send msg prio =>
    rw [Request.Fits] at h ⊢
    rwa [hsize]
  | receive msg_len => trivial

structure Sound (s : State) : Prop where
  refcount : ∀ i, (s.pool i).refcount = (openDescs s i).card
  used : ∀ d, (s.descs d).active = true → (s.pool (s.descs d).pool_idx).active = true
  names : ∀ i j, Named (s.pool i) → Named (s.pool j) → (s.pool i).name = (s.pool j).name → i = j
  kept : ∀ i, (s.pool i).active = true → (s.pool i).unlinked = true → 0 < (s.pool i).refcount
  bounds : ∀ i, 0 ≤ (s.pool i).attr.mq_maxmsg ∧ 0 ≤ (s.pool i).attr.mq_msgsize
  queue : ∀ i, (s.pool i).active = true → (s.pool i).Sound
  waits : ∀ w ∈ s.waiting, (s.descs w.desc).active = true ∧ (s.descs w.desc).pool_idx = w.mq ∧
    w.request.Fits (s.pool w.mq)

/-- No descriptor is closed that a call waits on. -/
def Fair (s : State) : Call → Prop
  | .close mqdes => ∀ w ∈ s.waiting, (w.desc.val : Int) ≠ mqdes
  | _ => True

instance (s : State) (c : Call) : Decidable (Fair s c) := by
  cases c <;> unfold Fair <;> infer_instance

section Fields

variable (s : State) (i j : Fin JACL_MQ_MAX) (d : Fin JACL_MQ_DESC_MAX) (mq : Mq) (desc : Desc) (n : Notify)

@[simp] theorem setMq_pool_same : (s.setMq i mq).pool i = mq := Function.update_self ..

@[simp] theorem setMq_descs : (s.setMq i mq).descs = s.descs := rfl

@[simp] theorem setMq_waiting : (s.setMq i mq).waiting = s.waiting := rfl

@[simp] theorem setNotify_pool : (s.setNotify i n).pool = s.pool := rfl

@[simp] theorem setNotify_descs : (s.setNotify i n).descs = s.descs := rfl

@[simp] theorem setNotify_waiting : (s.setNotify i n).waiting = s.waiting := rfl

@[simp] theorem setDesc_pool : (s.setDesc d desc).pool = s.pool := rfl

@[simp] theorem setDesc_descs_same : (s.setDesc d desc).descs d = desc := Function.update_self ..

@[simp] theorem setDesc_waiting : (s.setDesc d desc).waiting = s.waiting := rfl

variable {s i j d mq desc n}

theorem setMq_pool_ne (h : j ≠ i) : (s.setMq i mq).pool j = s.pool j := Function.update_of_ne h ..

theorem setDesc_descs_ne {e : Fin JACL_MQ_DESC_MAX} (h : e ≠ d) : (s.setDesc d desc).descs e = s.descs e :=
  Function.update_of_ne h ..

theorem mem_openDescs : d ∈ openDescs s i ↔ (s.descs d).active = true ∧ (s.descs d).pool_idx = i := by simp [openDescs]

theorem lookup_spec {mqdes : Int} (h : s.lookup mqdes = some d) : (s.descs d).active = true ∧
    (d.val : Int) = mqdes := by
  unfold State.lookup at h
  split at h
  · rename_i hrange
    dsimp only at h
    split at h
    · rename_i hactive
      obtain rfl := Option.some.inj h
      exact ⟨hactive, Int.toNat_of_nonneg hrange.1⟩
    · cases h
  · cases h

theorem find_spec {name : CString} (h : s.find name = some i) : Named (s.pool i) := by
  have := List.find?_some h
  simp only [Bool.and_eq_true, Bool.not_eq_true'] at this
  exact this.1

theorem find_none {name : CString} (h : s.find name = none) (hj : Named (s.pool j)) : (s.pool j).name ≠ name := by
  intro heq
  have := List.find?_eq_none.1 h j (List.mem_finRange j)
  subst heq
  simp [hj.1, hj.2, CString.strcmp_eq_zero] at this

end Fields

/-! ### Changing one queue -/

namespace Sound

variable {s s' : State} {i : Fin JACL_MQ_MAX} {mq : Mq}

theorem congr (h : Sound s) (hpool : s'.pool = s.pool) (hdescs : s'.descs = s.descs)
    (hwaiting : s'.waiting = s.waiting) : Sound s' := by
  have hopen : openDescs s' = openDescs s := by
    unfold openDescs
    rw [hdescs]
  constructor
  · rw [hpool, hopen]
    exact h.refcount
  · rw [hpool, hdescs]
    exact h.used
  · rw [hpool]
    exact h.names
  · rw [hpool]
    exact h.kept
  · rw [hpool]
    exact h.bounds
  · rw [hpool]
    exact h.queue
  · rw [hpool, hdescs, hwaiting]
    exact h.waits

/-- What changes is one queue and the descriptors that are open on it. -/
theorem replace (h : Sound s) (hpool : ∀ j, j ≠ i → s'.pool j = s.pool j)
    (hopen : ∀ j, j ≠ i → openDescs s' j = openDescs s j) (hrefcount : (s'.pool i).refcount = (openDescs s' i).card)
    (hused : openDescs s' i ≠ ∅ → (s'.pool i).active = true) (hname : Named (s'.pool i) → ∀ j, j ≠ i →
    Named (s.pool j) → (s.pool j).name ≠ (s'.pool i).name)
    (hkept : (s'.pool i).active = true → (s'.pool i).unlinked = true → 0 < (s'.pool i).refcount)
    (hbounds : 0 ≤ (s'.pool i).attr.mq_maxmsg ∧ 0 ≤ (s'.pool i).attr.mq_msgsize)
    (hqueue : (s'.pool i).active = true → (s'.pool i).Sound)
    (hwaits : ∀ w ∈ s'.waiting, (s'.descs w.desc).active = true ∧ (s'.descs w.desc).pool_idx = w.mq ∧
    w.request.Fits (s'.pool w.mq)) :
    Sound s' := by
  constructor
  · intro j
    by_cases hj : j = i
    · rw [hj, hrefcount]
    · rw [hpool j hj, hopen j hj, h.refcount j]
  · intro d hd
    have hmem : d ∈ openDescs s' (s'.descs d).pool_idx := mem_openDescs.2 ⟨hd, rfl⟩
    by_cases hj : (s'.descs d).pool_idx = i
    · rw [hj] at hmem ⊢
      exact hused (Finset.ne_empty_of_mem hmem)
    · rw [hopen _ hj, mem_openDescs] at hmem
      rw [hpool _ hj, ← hmem.2]
      exact h.used d hmem.1
  · intro j k hj hk heq
    by_cases hji : j = i
    · by_cases hki : k = i
      · rw [hji, hki]
      · rw [hpool k hki] at hk heq
        rw [hji] at hj heq
        exact absurd heq.symm (hname hj k hki hk)
    · rw [hpool j hji] at hj heq
      by_cases hki : k = i
      · rw [hki] at hk heq
        exact absurd heq (hname hk j hji hj)
      · rw [hpool k hki] at hk heq
        exact h.names j k hj hk heq
  · intro j
    by_cases hj : j = i
    · rw [hj]
      exact hkept
    · rw [hpool j hj]
      exact h.kept j
  · intro j
    by_cases hj : j = i
    · rw [hj]
      exact hbounds
    · rw [hpool j hj]
      exact h.bounds j
  · intro j
    by_cases hj : j = i
    · rw [hj]
      exact hqueue
    · rw [hpool j hj]
      exact h.queue j
  · exact hwaits

theorem mem_open (h : Sound s) {w : Waiting} (hw : w ∈ s.waiting) : w.desc ∈ openDescs s w.mq :=
  mem_openDescs.2 ⟨(h.waits w hw).1, (h.waits w hw).2.1⟩

/-- No other queue has its name. -/
theorem other_names (h : Sound s) (hi : Named (s.pool i)) : ∀ j, j ≠ i → Named (s.pool j) →
    (s.pool j).name ≠ (s.pool i).name :=
  fun j hj hnamed heq => hj (h.names j i hnamed hi heq)

theorem active_of_open (h : Sound s) (hi : openDescs s i ≠ ∅) : (s.pool i).active = true := by
  obtain ⟨d, hd⟩ := Finset.nonempty_iff_ne_empty.2 hi
  rw [mem_openDescs] at hd
  rw [← hd.2]
  exact h.used d hd.1

/-- A queue whose slot stays in use the way it is. -/
theorem setMq (h : Sound s) (hname : mq.name = (s.pool i).name) (hactive : mq.active = (s.pool i).active)
    (hunlinked : mq.unlinked = (s.pool i).unlinked) (hrefcount : mq.refcount = (s.pool i).refcount)
    (hmax : mq.attr.mq_maxmsg = (s.pool i).attr.mq_maxmsg) (hsize : mq.attr.mq_msgsize = (s.pool i).attr.mq_msgsize)
    (hsound : (s.pool i).active = true → mq.Sound) : Sound (s.setMq i mq) := by
  refine h.replace (i := i) (fun j hj => setMq_pool_ne hj) (fun j _ => rfl) ?_ ?_ ?_ ?_ ?_ ?_ ?_
  · rw [setMq_pool_same, hrefcount]
    exact h.refcount i
  · rw [setMq_pool_same, hactive]
    exact h.active_of_open
  · rw [setMq_pool_same, Named, hactive, hunlinked, hname]
    exact h.other_names
  · rw [setMq_pool_same, hactive, hunlinked, hrefcount]
    exact h.kept i
  · rw [setMq_pool_same, hmax, hsize]
    exact h.bounds i
  · rw [setMq_pool_same, hactive]
    exact hsound
  · intro w hw
    obtain ⟨hopen, hmq, hfits⟩ := h.waits w hw
    refine ⟨hopen, hmq, ?_⟩
    by_cases hi : w.mq = i
    · rw [hi] at hfits ⊢
      rw [setMq_pool_same]
      exact hfits.congr hsize
    · rw [setMq_pool_ne hi]
      exact hfits

theorem openDescs_eq_empty (h : Sound s) (hi : (s.pool i).active = false) : openDescs s i = ∅ := by
  by_contra hne
  rw [h.active_of_open hne] at hi
  cases hi

/-- A queue on which no descriptor is open, found by a name of its own or out of use. -/
theorem setMq_closed (h : Sound s) (mq : Mq) (hopen : openDescs s i = ∅) (hrefcount : mq.refcount = 0)
    (hname : Named mq → ∀ j, j ≠ i → Named (s.pool j) → (s.pool j).name ≠ mq.name)
    (hkept : mq.active = true → mq.unlinked = false) (hbounds : 0 ≤ mq.attr.mq_maxmsg ∧ 0 ≤ mq.attr.mq_msgsize)
    (hsound : mq.active = true → mq.Sound) : Sound (s.setMq i mq) := by
  refine h.replace (i := i) (fun j hj => setMq_pool_ne hj) (fun j _ => rfl) ?_ ?_ ?_ ?_ ?_ ?_ ?_
  · rw [setMq_pool_same, hrefcount]
    change 0 = ((openDescs s i).card : Int)
    rw [hopen]
    rfl
  · intro hne
    exact absurd hopen hne
  · rw [setMq_pool_same]
    exact hname
  · rw [setMq_pool_same]
    intro hactive hunlinked
    rw [hkept hactive] at hunlinked
    cases hunlinked
  · rw [setMq_pool_same]
    exact hbounds
  · rw [setMq_pool_same]
    exact hsound
  · intro w hw
    have hne : w.mq ≠ i := by
      intro heq
      have hmem := h.mem_open hw
      rw [heq, hopen] at hmem
      exact absurd hmem (Finset.notMem_empty _)
    rw [setMq_pool_ne hne]
    exact h.waits w hw

/-- A descriptor is opened on a queue in use. -/
theorem addDesc (h : Sound s) {d : Fin JACL_MQ_DESC_MAX} (hd : (s.descs d).active = false)
    (hi : (s.pool i).active = true) {oflags : BitVec 32} (hname : mq.name = (s.pool i).name)
    (hactive : mq.active = (s.pool i).active) (hunlinked : mq.unlinked = (s.pool i).unlinked)
    (hrefcount : mq.refcount = (s.pool i).refcount + 1) (hmax : mq.attr.mq_maxmsg = (s.pool i).attr.mq_maxmsg)
    (hsize : mq.attr.mq_msgsize = (s.pool i).attr.mq_msgsize) (hsound : mq.Sound) :
    Sound ((s.setDesc d ⟨true, i, oflags⟩).setMq i mq) := by
  have hopen : openDescs (s.setDesc d ⟨true, i, oflags⟩) i = Finset.cons d (openDescs s i)
      (by simp [mem_openDescs, hd]) := by
    ext e
    by_cases he : e = d
    · subst he
      simp [mem_openDescs]
    · simp [mem_openDescs, setDesc_descs_ne he, he]
  refine h.replace (i := i) (fun j hj => setMq_pool_ne hj) (fun j hj => ?_) ?_ ?_ ?_ ?_ ?_ ?_ ?_
  · ext e
    by_cases he : e = d
    · subst he
      simp [mem_openDescs, hd, Ne.symm hj]
    · simp [mem_openDescs, setDesc_descs_ne he]
  · rw [setMq_pool_same, hrefcount, h.refcount i]
    change ((openDescs s i).card : Int) + 1 = (openDescs (s.setDesc d ⟨true, i, oflags⟩) i).card
    rw [hopen, Finset.card_cons]
    rfl
  · intro _
    rw [setMq_pool_same, hactive, hi]
  · rw [setMq_pool_same, Named, hactive, hunlinked, hname]
    exact h.other_names
  · rw [setMq_pool_same, hrefcount, h.refcount i]
    intro _ _
    omega
  · rw [setMq_pool_same, hmax, hsize]
    exact h.bounds i
  · intro _
    rw [setMq_pool_same]
    exact hsound
  · intro w hw
    obtain ⟨hused, hmq, hfits⟩ := h.waits w hw
    have hne : w.desc ≠ d := by
      rintro rfl
      rw [hd] at hused
      cases hused
    rw [setMq_descs, setDesc_descs_ne hne]
    refine ⟨hused, hmq, ?_⟩
    by_cases hi : w.mq = i
    · rw [hi] at hfits ⊢
      rw [setMq_pool_same]
      exact hfits.congr hsize
    · rw [setMq_pool_ne hi]
      exact hfits

/-- A descriptor is closed that no call waits on; the queue may go with the last one. -/
theorem dropDesc (h : Sound s) (mq : Mq) {d : Fin JACL_MQ_DESC_MAX} (hd : (s.descs d).active = true)
    (hi : (s.descs d).pool_idx = i) (hfair : ∀ w ∈ s.waiting, w.desc ≠ d) {oflags : BitVec 32}
    (hname : mq.name = (s.pool i).name) (hunlinked : mq.unlinked = (s.pool i).unlinked)
    (hrefcount : mq.refcount = (s.pool i).refcount - 1) (hmax : mq.attr.mq_maxmsg = (s.pool i).attr.mq_maxmsg)
    (hsize : mq.attr.mq_msgsize = (s.pool i).attr.mq_msgsize) (hactive : mq.active = true ↔
    ¬(mq.refcount = 0 ∧ mq.unlinked = true)) (hsound : mq.active = true → mq.Sound) :
    Sound ((s.setDesc d ⟨false, i, oflags⟩).setMq i mq) := by
  have hmem : d ∈ openDescs s i := mem_openDescs.2 ⟨hd, hi⟩
  have hinuse : (s.pool i).active = true := h.active_of_open (Finset.ne_empty_of_mem hmem)
  have hopen : openDescs (s.setDesc d ⟨false, i, oflags⟩) i = (openDescs s i).erase d := by
    ext e
    by_cases he : e = d
    · subst he
      simp [mem_openDescs]
    · simp [mem_openDescs, setDesc_descs_ne he, he]
  have hcount : mq.refcount = ((openDescs s i).erase d).card := by
    have hpos : 0 < (openDescs s i).card := Finset.card_pos.2 ⟨d, hmem⟩
    rw [hrefcount, h.refcount i, Finset.card_erase_of_mem hmem]
    omega
  refine h.replace (i := i) (fun j hj => setMq_pool_ne hj) (fun j hj => ?_) ?_ ?_ ?_ ?_ ?_ ?_ ?_
  · ext e
    by_cases he : e = d
    · subst he
      simp [mem_openDescs, hi, Ne.symm hj]
    · simp [mem_openDescs, setDesc_descs_ne he]
  · rw [setMq_pool_same, hcount, ← hopen]
    rfl
  · intro hne
    rw [setMq_pool_same, hactive, hcount]
    rintro ⟨hzero, -⟩
    refine hne ?_
    change openDescs (s.setDesc d ⟨false, i, oflags⟩) i = ∅
    rw [hopen, ← Finset.card_eq_zero]
    exact_mod_cast hzero
  · rw [setMq_pool_same, hname]
    intro hnamed
    have hnamed' : Named (s.pool i) := ⟨hinuse, hunlinked ▸ hnamed.2⟩
    exact h.other_names hnamed'
  · rw [setMq_pool_same, hactive]
    intro hne hun
    have hpos : mq.refcount ≠ 0 := fun hzero => hne ⟨hzero, hun⟩
    omega
  · rw [setMq_pool_same, hmax, hsize]
    exact h.bounds i
  · rw [setMq_pool_same]
    exact hsound
  · intro w hw
    obtain ⟨hused, hmq, hfits⟩ := h.waits w hw
    rw [setMq_descs, setDesc_descs_ne (hfair w hw)]
    refine ⟨hused, hmq, ?_⟩
    by_cases hi : w.mq = i
    · rw [hi] at hfits ⊢
      rw [setMq_pool_same]
      exact hfits.congr hsize
    · rw [setMq_pool_ne hi]
      exact hfits

end Sound

/-! ### The calls -/

section Calls

variable {s s' : State} {i : Fin JACL_MQ_MAX} {d : Fin JACL_MQ_DESC_MAX} {out : Output}

theorem alloc_spec {name : CString} (h : s.alloc name = some (i, s')) : (s.pool i).active = false ∧
    s' = (s.setMq i (State.fresh (s.pool i) name)).setNotify i ⟨false, 0, .zero⟩ := by
  obtain ⟨j, hj, heq⟩ := Option.map_eq_some_iff.1 h
  obtain ⟨rfl, rfl⟩ := Prod.mk.inj heq
  have := List.find?_some hj
  exact ⟨by simpa using this, rfl⟩

theorem descAlloc_spec {oflag : BitVec 32} (h : s.descAlloc i oflag = some (d, s')) : (s.descs d).active = false ∧
    s' = s.setDesc d ⟨true, i, oflag &&& O_ACCMODE⟩ := by
  obtain ⟨j, hj, heq⟩ := Option.map_eq_some_iff.1 h
  obtain ⟨rfl, rfl⟩ := Prod.mk.inj heq
  have := List.find?_some hj
  exact ⟨by simpa using this, rfl⟩

theorem openQueue_sound (h : Sound s) (hi : (s.pool i).active = true) (oflag : BitVec 32) :
    Sound (s.openQueue i oflag).2 := by
  unfold State.openQueue
  rcases halloc : s.descAlloc i oflag with _ | ⟨d, s1⟩
  · exact h
  · obtain ⟨hd, rfl⟩ := descAlloc_spec halloc
    have hsound := h.queue i hi
    exact h.addDesc hd hi rfl rfl rfl rfl rfl rfl ⟨hsound.count, hsound.room, hsound.sizes⟩

/-- A queue is made in a free slot. -/
theorem created_sound (h : Sound s) {name : CString} (hi : (s.pool i).active = false) (hfind : s.find name = none)
    {a : Attr} (hbounds : 0 ≤ a.mq_maxmsg ∧ 0 ≤ a.mq_msgsize) (hcur : a.mq_curmsgs = 0) :
    Sound (s.setMq i ⟨name, true, a, [], 0, false⟩) := by
  refine h.setMq_closed _ (h.openDescs_eq_empty hi) rfl (fun _ j _ hj => find_none hfind hj) (fun _ => rfl) hbounds
    fun _ => ?_
  refine ⟨hcur, ?_, by simp⟩
  change a.mq_curmsgs ≤ a.mq_maxmsg
  rw [hcur]
  exact hbounds.1

theorem mqOpen_sound (h : Sound s) (name : Option CString) (oflag : BitVec 32) (attr : Option Attr) :
    Sound (s.mqOpen name oflag attr).2 := by
  cases name with
  | none => exact h
  | some name =>
    rw [State.mqOpen]
    by_cases hvalid : (!nameValid name) = true
    · rw [if_pos hvalid]
      exact h
    by_cases hexcl : oflag &&& O_EXCL ≠ 0 ∧ oflag &&& O_CREAT = 0
    · rw [if_neg hvalid, if_pos hexcl]
      exact h
    rw [if_neg hvalid, if_neg hexcl]
    rcases hfind : s.find name with _ | i
    · dsimp only
      by_cases hcreat : oflag &&& O_CREAT = 0
      · rw [if_pos hcreat]
        exact h
      rw [if_neg hcreat]
      rcases halloc : s.alloc name with _ | ⟨i, s1⟩
      · exact h
      · obtain ⟨hi, rfl⟩ := alloc_spec halloc
        dsimp only
        split_ifs with hattr
        · -- the queue stays, with what the slot had for its attributes
          exact (created_sound h hi hfind (a := { (s.pool i).attr with mq_flags := 0, mq_curmsgs := 0 })
            (h.bounds i) rfl).congr
            rfl rfl rfl
        · refine openQueue_sound (s := State.setMq _ i _) ?_ ?_ oflag
          · cases attr with
            | none =>
              refine (created_sound h hi hfind (a := ⟨0, 10, 8192, 0⟩) ⟨by decide, by decide⟩ rfl).congr ?_ rfl rfl
              simp [State.setMq, State.setNotify, State.withAttr, State.fresh]
            | some a =>
              rw [Option.any_some, decide_eq_true_eq, not_or, not_le, not_le] at hattr
              refine (created_sound h hi hfind (a := { a with mq_curmsgs := 0 }) ⟨hattr.1.le, hattr.2.le⟩ rfl).congr
                ?_ rfl rfl
              simp [State.setMq, State.setNotify, State.withAttr, State.fresh]
          · rw [setMq_pool_same]
            cases attr <;> simp [State.withAttr, State.fresh]
    · dsimp only
      split_ifs
      · exact h
      · exact openQueue_sound h (find_spec hfind).1 oflag

theorem mqClose_sound (h : Sound s) {pid mqdes : Int} (hfair : Fair s (.close mqdes)) :
    Sound (s.mqClose pid mqdes).2 := by
  unfold State.mqClose
  rcases hlookup : s.lookup mqdes with _ | d
  · exact h
  · obtain ⟨hd, hval⟩ := lookup_spec hlookup
    dsimp only
    generalize hs1 : (if (s.notify (s.descs d).pool_idx).notify_pid = pid then _ else s) = s1
    have hpool : s1.pool = s.pool := by
      rw [← hs1]
      split <;> rfl
    have hdescs : s1.descs = s.descs := by
      rw [← hs1]
      split <;> rfl
    have hwaiting : s1.waiting = s.waiting := by
      rw [← hs1]
      split <;> rfl
    have h1 : Sound s1 := h.congr hpool hdescs hwaiting
    rw [← hdescs] at hd ⊢
    have hfair1 : ∀ w ∈ s1.waiting, w.desc ≠ d := by
      intro w hw heq
      rw [hwaiting] at hw
      exact hfair w hw (heq ▸ hval)
    have hsound := h1.queue _ (h1.used d hd)
    rw [setMq_pool_same, setDesc_pool]
    split_ifs with hlast
    · refine (h1.dropDesc { s1.pool (s1.descs d).pool_idx with
          refcount := (s1.pool (s1.descs d).pool_idx).refcount - 1, head := [], active := false } hd rfl hfair1
        rfl rfl rfl rfl rfl ?_ ?_).congr ?_ rfl rfl
      · exact iff_of_false (by simp) (not_not.2 hlast)
      · intro hactive
        cases hactive
      · simp [State.destroy, State.setMq]
    · exact h1.dropDesc _ hd rfl hfair1 rfl rfl rfl rfl rfl (iff_of_true (h1.used d hd) hlast)
        fun _ => ⟨hsound.count, hsound.room, hsound.sizes⟩

theorem mqUnlink_sound (h : Sound s) (name : Option CString) : Sound (s.mqUnlink name).2 := by
  cases name with
  | none => exact h
  | some name =>
    rw [State.mqUnlink]
    split_ifs
    · exact h
    · rcases hfind : s.find name with _ | i
      · exact h
      · obtain ⟨hactive, -⟩ := find_spec hfind
        have hsound := h.queue i hactive
        dsimp only
        rw [setMq_pool_same]
        split_ifs with hzero
        · have hopen : openDescs s i = ∅ := by
            rw [← Finset.card_eq_zero]
            have := h.refcount i
            dsimp only at hzero
            omega
          refine (h.setMq_closed { s.pool i with unlinked := true, head := [], active := false } hopen hzero ?_ ?_
            (h.bounds i) ?_).congr ?_ rfl rfl
          · intro hnamed
            cases hnamed.1
          · intro hactive
            cases hactive
          · intro hactive
            cases hactive
          · simp [State.destroy, State.setMq]
        · refine h.replace (i := i) (fun j hj => setMq_pool_ne hj) (fun j _ => rfl) ?_ ?_ ?_ ?_ ?_ ?_ ?_
          · rw [setMq_pool_same]
            exact h.refcount i
          · rw [setMq_pool_same]
            exact h.active_of_open
          · rw [setMq_pool_same]
            intro hnamed
            cases hnamed.2
          · rw [setMq_pool_same]
            intro _ _
            have := h.refcount i
            dsimp only at hzero ⊢
            omega
          · rw [setMq_pool_same]
            exact h.bounds i
          · rw [setMq_pool_same]
            exact fun _ => ⟨hsound.count, hsound.room, hsound.sizes⟩
          · intro w hw
            obtain ⟨hused, hmq, hfits⟩ := h.waits w hw
            refine ⟨hused, hmq, ?_⟩
            by_cases hi : w.mq = i
            · rw [hi] at hfits ⊢
              rw [setMq_pool_same]
              exact hfits.congr rfl
            · rw [setMq_pool_ne hi]
              exact hfits

theorem doNotify_pool (s : State) (i : Fin JACL_MQ_MAX) : (s.doNotify i).2.pool = s.pool ∧
    (s.doNotify i).2.descs = s.descs ∧ (s.doNotify i).2.waiting = s.waiting := by
  unfold State.doNotify
  split <;> exact ⟨rfl, rfl, rfl⟩

theorem attempt_sound (h : Sound s) {timed : Bool} {r : Request} (hi : (s.pool i).active = true)
    (hfits : r.Fits (s.pool i)) (hattempt : s.attempt i timed r = some (out, s')) :
    Sound s' ∧ s'.waiting = s.waiting := by
  have hsound := h.queue i hi
  cases r with
  | send msg prio =>
    rw [State.attempt] at hattempt
    dsimp only at hattempt
    split at hattempt
    · split at hattempt
      · cases hattempt
        exact ⟨h, rfl⟩
      · cases hattempt
    · rename_i hroom
      have hnew : Sound (s.setMq i { s.pool i with
          head := Priority.insert Node.prio ⟨msg, prio⟩ (s.pool i).head
          attr := { (s.pool i).attr with mq_curmsgs := (s.pool i).attr.mq_curmsgs + 1 } }) := by
        refine h.setMq rfl rfl rfl rfl rfl rfl fun _ =>
          ⟨?_, Int.add_one_le_iff.2 (not_le.1 hroom), fun node hnode => ?_⟩
        · change (s.pool i).attr.mq_curmsgs + 1 = ((Priority.insert Node.prio ⟨msg, prio⟩ (s.pool i).head).length : Int)
          rw [hsound.count, Priority.length_insert]
          rfl
        · rcases Priority.mem_insert.1 hnode with rfl | hnode
          · exact hfits
          · exact hsound.sizes node hnode
      obtain ⟨-, rfl⟩ := Prod.mk.inj (Option.some.inj hattempt)
      split
      · obtain ⟨hpool, hdescs, hwaiting⟩ := doNotify_pool (s.setMq i { s.pool i with
          head := Priority.insert Node.prio ⟨msg, prio⟩ (s.pool i).head
          attr := { (s.pool i).attr with mq_curmsgs := (s.pool i).attr.mq_curmsgs + 1 } }) i
        exact ⟨hnew.congr hpool hdescs hwaiting, hwaiting⟩
      · exact ⟨hnew, rfl⟩
  | receive msg_len =>
    rw [State.attempt] at hattempt
    dsimp only at hattempt
    rcases hhead : (s.pool i).head with _ | ⟨node, rest⟩
    · rw [hhead] at hattempt
      dsimp only at hattempt
      split at hattempt
      · cases hattempt
        exact ⟨h, rfl⟩
      · cases hattempt
    · rw [hhead] at hattempt
      dsimp only at hattempt
      split at hattempt
      · cases hattempt
        exact ⟨h, rfl⟩
      · cases hattempt
        refine ⟨h.setMq rfl rfl rfl rfl rfl rfl fun _ => ⟨?_, ?_, fun m hm => ?_⟩, rfl⟩
        · have := hsound.count
          rw [hhead, List.length_cons] at this
          dsimp only
          omega
        · have := hsound.room
          dsimp only
          omega
        · exact hsound.sizes m (by rw [hhead]; exact List.mem_cons_of_mem _ hm)

theorem enter_sound (h : Sound s) {w : Waiting} (hd : (s.descs w.desc).active = true)
    (hmq : (s.descs w.desc).pool_idx = w.mq) (hfits : w.request.Fits (s.pool w.mq)) : Sound (s.enter w).2 := by
  unfold State.enter
  rcases hattempt : s.attempt w.mq w.timed w.request with _ | ⟨out, s'⟩
  · refine ⟨h.refcount, h.used, h.names, h.kept, h.bounds, h.queue, fun w' hw => ?_⟩
    rcases List.mem_append.1 hw with hw | hw
    · exact h.waits w' hw
    · obtain rfl := List.mem_singleton.1 hw
      exact ⟨hd, hmq, hfits⟩
  · exact (attempt_sound h (hmq ▸ h.used w.desc hd) hfits hattempt).1

theorem Sound.fewer (h : Sound s) {ws : List Waiting} (hws : ∀ w ∈ ws, w ∈ s.waiting) :
    Sound { s with waiting := ws } :=
  ⟨h.refcount, h.used, h.names, h.kept, h.bounds, h.queue, fun w hw => h.waits w (hws w hw)⟩

theorem wake_sound (h : Sound s) (k : Nat) : Sound (s.wake k).2 := by
  unfold State.wake
  rcases hw : s.waiting[k]? with _ | w
  · exact h
  · obtain ⟨hd, hmq, hfits⟩ := h.waits w (List.mem_of_getElem? hw)
    dsimp only
    rcases hattempt : s.attempt w.mq w.timed w.request with _ | ⟨out, s'⟩
    · exact h
    · obtain ⟨hs', hwaiting⟩ := attempt_sound h (hmq ▸ h.used w.desc hd) hfits hattempt
      refine hs'.fewer fun w' hw' => ?_
      rw [hwaiting]
      exact List.mem_of_mem_eraseIdx hw'

theorem step_sound {pid : Int} {c : Call} (h : Sound s) (hfair : Fair s c) : Sound (step pid s c).2 := by
  cases c with
  | «open» name oflag attr => exact mqOpen_sound h name oflag attr
  | close mqdes => exact mqClose_sound h hfair
  | unlink name => exact mqUnlink_sound h name
  | send mqdes msg prio abs_timeout =>
    rw [step, State.mqSend]
    rcases hlookup : s.lookup mqdes with _ | d
    · exact h
    · cases msg with
      | none =>
        dsimp only
        split_ifs <;> exact h
      | some msg =>
        dsimp only
        split_ifs with _ _ hlen
        · exact h
        · exact h
        · exact h
        · exact h
        · refine enter_sound (w := ⟨d, _, _, .send msg prio⟩) h (lookup_spec hlookup).1 rfl ?_
          have hnonneg := (h.bounds (s.descs d).pool_idx).2
          have hle : ((BitVec.ofInt 64 (s.pool (s.descs d).pool_idx).attr.mq_msgsize).toNat : Int) ≤
              (s.pool (s.descs d).pool_idx).attr.mq_msgsize := by
            rw [BitVec.toNat_ofInt, Int.toNat_of_nonneg (Int.emod_nonneg _ (by decide))]
            omega
          change (msg.length : Int) ≤ (s.pool (s.descs d).pool_idx).attr.mq_msgsize
          omega
  | receive mqdes msg_ptr msg_len abs_timeout =>
    rw [step, State.mqReceive]
    rcases hlookup : s.lookup mqdes with _ | d
    · exact h
    · dsimp only
      split_ifs
      · exact h
      · exact h
      · exact h
      · exact h
      · have hdesc := (lookup_spec hlookup).1
        exact enter_sound (s := State.setNotify s _ _) (w := ⟨d, _, _, .receive msg_len⟩) (h.congr rfl rfl rfl) hdesc
          rfl trivial
  | wake k => exact wake_sound h k
  | timeout k =>
    rw [step, State.timeout]
    rcases hw : s.waiting[k]? with _ | w
    · exact h
    · dsimp only
      split_ifs
      · exact h.fewer fun w' hw' => List.mem_of_mem_eraseIdx hw'
      · exact h
  | notify mqdes notification =>
    rw [step, State.mqNotify]
    rcases hlookup : s.lookup mqdes with _ | d
    · exact h
    · cases notification with
      | none =>
        dsimp only
        split_ifs
        · exact h
        · exact h.congr rfl rfl rfl
        · exact h
      | some sev =>
        dsimp only
        split_ifs
        · exact h
        · exact h
        · exact h.congr rfl rfl rfl
  | getattr mqdes mqstat =>
    rw [step, State.mqGetattr]
    split_ifs
    · exact h
    · rcases s.lookup mqdes with _ | d
      · exact h
      · dsimp only
        split_ifs <;> exact h
  | setattr mqdes mqstat =>
    cases mqstat with
    | none => exact h
    | some a =>
      rw [step, State.mqSetattr]
      rcases hlookup : s.lookup mqdes with _ | d
      · exact h
      · dsimp only
        split_ifs
        · exact h
        · exact h.setMq rfl rfl rfl rfl rfl rfl fun hi =>
            ⟨(h.queue _ hi).count, (h.queue _ hi).room, (h.queue _ hi).sizes⟩

end Calls

theorem start_sound : Sound .start := by
  constructor
  · intro i
    rw [(Finset.eq_empty_of_forall_notMem fun d hd => by cases (mem_openDescs.1 hd).1 : openDescs .start i = ∅)]
    rfl
  · intro d hd
    cases hd
  · intro i j hi
    cases hi.1
  · intro i hi
    cases hi
  · intro i
    exact ⟨le_rfl, le_rfl⟩
  · intro i hi
    cases hi
  · intro w hw
    cases hw

/-- Along every run that closes no descriptor under a waiting call the pool stays sound. -/
theorem mq_pool {pid : Int} {calls : List Call} (hfair : Machine.Guarded (step pid) Fair .start calls) :
    Sound (Machine.run (step pid) .start calls) :=
  Machine.guarded_invariant (fun _ _ hs ha => step_sound hs ha) start_sound hfair

/-- A queue is unlinked and then closed by the last one who has it open. -/
theorem mq_pool_unlinked : Sound (Machine.run (step 7) .start [.open (some ⟨lit "/q", by decide⟩) (O_CREAT ||| 2) none,
    .send 0 (some (lit "text")) 3 none, .unlink (some ⟨lit "/q", by decide⟩), .close 0]) :=
  mq_pool ⟨trivial, trivial, trivial, by decide, trivial⟩

end JACLibc.Mqueue
