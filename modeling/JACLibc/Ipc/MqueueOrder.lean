import JACLibc.Ipc.Mqueue

/-!
# The order of messages

What a queue has to deliver is given by the events alone: the messages sent to it since it was made, oldest first,
without those that were taken (`pending`).  Along every run a queue holds them arranged by priority, and a message
that is taken is the oldest of the highest priority (`mq_order`).
-/

namespace JACLibc.Mqueue

/-- The messages of queue `i`, oldest first, after an event. -/
def after (i : Fin JACL_MQ_MAX) (xs : List Node) : Event → List Node
  | .created j => if j = i then [] else xs
  | .destroyed j => if j = i then [] else xs
  | .sent j node => if j = i then xs ++ [node] else xs
  | .took j _ => if j = i then ((Priority.next Node.prio xs).map Prod.snd).getD xs else xs
  | .registered _ => xs
  | .noticed _ _ => xs

/-- The messages sent to queue `i` and not taken, oldest first. -/
def pending (i : Fin JACL_MQ_MAX) (events : List Event) : List Node := events.foldl (after i) []

/-- What is taken from a queue is the oldest of the highest priority. -/
def InOrder (events : List Event) : Prop :=
  ∀ pre i node post, events = pre ++ .took i node :: post → (Priority.next Node.prio (pending i pre)).map Prod.fst =
    some node

/-- The queues hold what is pending, by priority. -/
def Holds (events : List Event) (s : State) : Prop :=
  ∀ i, (s.pool i).head = Priority.arrange Node.prio (pending i events)

section Events

variable {s s' : State} {i : Fin JACL_MQ_MAX} {events : List Event} {e : Event}

theorem pending_append (i : Fin JACL_MQ_MAX) (events : List Event) (e : Event) :
    pending i (events ++ [e]) = after i (pending i events) e := by
  simp [pending, List.foldl_append]

theorem InOrder.append (h : InOrder events)
    (he : ∀ i node, e = .took i node → (Priority.next Node.prio (pending i events)).map Prod.fst = some node) :
    InOrder (events ++ [e]) := by
  intro pre i node post heq
  rcases List.eq_nil_or_concat post with rfl | ⟨post, e', rfl⟩
  · obtain ⟨rfl, htook⟩ := List.append_inj' heq rfl
    exact he i node (List.singleton_inj.1 htook)
  · refine h pre i node post ?_
    rw [List.concat_eq_append, ← List.cons_append, ← List.append_assoc] at heq
    exact (List.append_inj' heq rfl).1

theorem Holds.congr (h : Holds events s) (hpool : s'.pool = s.pool) : Holds events s' := by
  intro i
  rw [hpool]
  exact h i

/-- An event of one queue. -/
theorem Holds.event (h : Holds events s) (hother : ∀ j, j ≠ i → (s'.pool j).head = (s.pool j).head)
    (hafter : ∀ j, j ≠ i → ∀ xs, after j xs e = xs)
    (hi : (s'.pool i).head = Priority.arrange Node.prio (after i (pending i events) e)) : Holds (events ++ [e]) s' := by
  intro j
  rw [pending_append]
  by_cases hj : j = i
  · rw [hj, hi]
  · rw [hother j hj, hafter j hj, h j]

theorem Holds.setMq (h : Holds events s) {mq : Mq} (hhead : mq.head = (s.pool i).head) :
    Holds events (s.setMq i mq) := by
  intro j
  by_cases hj : j = i
  · rw [hj, ← h i, ← hhead]
    exact congrArg Mq.head (Function.update_self ..)
  · rw [← h j]
    exact congrArg Mq.head (Function.update_of_ne hj ..)

theorem setMq_head_ne {mq : Mq} : ∀ j, j ≠ i → ((s.setMq i mq).pool j).head = (s.pool j).head :=
  fun _ hj => congrArg Mq.head (Function.update_of_ne hj ..)

theorem Holds.emptied (h : Holds events s) {mq : Mq} (hhead : mq.head = []) (he : e = .created i ∨ e = .destroyed i) :
    Holds (events ++ [e]) (s.setMq i mq) := by
  refine h.event setMq_head_ne ?_ ?_
  · intro j hj xs
    rcases he with rfl | rfl
    · exact if_neg (Ne.symm hj)
    · exact if_neg (Ne.symm hj)
  · have hempty : after i (pending i events) e = [] := by
      rcases he with rfl | rfl
      · exact if_pos rfl
      · exact if_pos rfl
    rw [hempty]
    exact (congrArg Mq.head (Function.update_self ..)).trans hhead

end Events

/-! ### The calls -/

/-- What every call keeps: the queues hold what is pending, and what was taken was taken in order. -/
def Good (events : List Event) (s : State) : Prop := Holds events s ∧ InOrder events

section Calls

variable {s s' : State} {i : Fin JACL_MQ_MAX} {events : List Event} {out : Output}

theorem Good.congr (h : Good events s) (hpool : s'.pool = s.pool) : Good events s' := ⟨h.1.congr hpool, h.2⟩

theorem Good.quiet (h : Good events s) (hpool : s'.pool = s.pool) (hevents : out.events = []) :
    Good (events ++ out.events) s' := by
  rw [hevents, List.append_nil]
  exact h.congr hpool

theorem Good.emptied (h : Good events s) {mq : Mq} (hhead : mq.head = []) {e : Event}
    (he : e = .created i ∨ e = .destroyed i) :
    Good (events ++ [e]) (s.setMq i mq) := by
  refine ⟨h.1.emptied hhead he, h.2.append fun j node heq => ?_⟩
  rcases he with rfl | rfl
  · cases heq
  · cases heq

theorem openQueue_good (h : Good events s) (oflag : BitVec 32) : Good events (s.openQueue i oflag).2 := by
  unfold State.openQueue
  rcases halloc : s.descAlloc i oflag with _ | ⟨d, s1⟩
  · exact h
  · have hpool : s1.pool = s.pool := by
      obtain ⟨e, -, heq⟩ := Option.map_eq_some_iff.1 halloc
      rw [← (Prod.mk.inj heq).2]
      rfl
    exact ⟨(h.congr hpool).1.setMq rfl, h.2⟩

theorem mqOpen_good (h : Good events s) (name : Option CString) (oflag : BitVec 32) (attr : Option Attr) :
    Good (events ++ (s.mqOpen name oflag attr).1.events) (s.mqOpen name oflag attr).2 := by
  cases name with
  | none => exact h.quiet rfl rfl
  | some name =>
    rw [State.mqOpen]
    by_cases hvalid : (!nameValid name) = true
    · rw [if_pos hvalid]
      exact h.quiet rfl rfl
    by_cases hexcl : oflag &&& O_EXCL ≠ 0 ∧ oflag &&& O_CREAT = 0
    · rw [if_neg hvalid, if_pos hexcl]
      exact h.quiet rfl rfl
    rw [if_neg hvalid, if_neg hexcl]
    rcases hfind : s.find name with _ | i
    · dsimp only
      by_cases hcreat : oflag &&& O_CREAT = 0
      · rw [if_pos hcreat]
        exact h.quiet rfl rfl
      rw [if_neg hcreat]
      rcases halloc : s.alloc name with _ | ⟨i, s1⟩
      · exact h.quiet rfl rfl
      · have hmade : Good (events ++ [.created i]) s1 := by
          obtain ⟨j, -, heq⟩ := Option.map_eq_some_iff.1 halloc
          obtain ⟨rfl, rfl⟩ := Prod.mk.inj heq
          exact (h.emptied rfl (.inl rfl)).congr rfl
        dsimp only
        split_ifs
        · exact hmade
        · refine openQueue_good ⟨hmade.1.setMq ?_, hmade.2⟩ oflag
          cases attr <;> rfl
    · dsimp only
      split_ifs
      · exact h.quiet rfl rfl
      · rw [List.append_nil]
        exact openQueue_good h oflag

theorem mqClose_good (h : Good events s) (pid mqdes : Int) :
    Good (events ++ (s.mqClose pid mqdes).1.events) (s.mqClose pid mqdes).2 := by
  unfold State.mqClose
  rcases s.lookup mqdes with _ | d
  · exact h.quiet rfl rfl
  · dsimp only
    generalize hs1 : (if (s.notify (s.descs d).pool_idx).notify_pid = pid then _ else s) = s1
    have hpool : s1.pool = s.pool := by
      rw [← hs1]
      split <;> rfl
    have hclosed : ∀ desc mq, mq.head = ((s1.setDesc d desc).pool (s.descs d).pool_idx).head →
        Good events ((s1.setDesc d desc).setMq (s.descs d).pool_idx mq) :=
      fun desc mq hhead => ⟨(h.congr hpool).1.setMq (s := State.setDesc s1 d desc) hhead, h.2⟩
    split_ifs
    · have hlast := hclosed { s1.descs d with active := false }
        { s1.pool (s.descs d).pool_idx with refcount := (s1.pool (s.descs d).pool_idx).refcount - 1 } rfl
      exact hlast.emptied rfl (.inr rfl)
    · rw [List.append_nil]
      exact hclosed _ _ rfl

theorem mqUnlink_good (h : Good events s) (name : Option CString) :
    Good (events ++ (s.mqUnlink name).1.events) (s.mqUnlink name).2 := by
  cases name with
  | none => exact h.quiet rfl rfl
  | some name =>
    rw [State.mqUnlink]
    split_ifs
    · exact h.quiet rfl rfl
    · rcases s.find name with _ | i
      · exact h.quiet rfl rfl
      · have hmarked : Good events (s.setMq i { s.pool i with unlinked := true }) := ⟨h.1.setMq rfl, h.2⟩
        dsimp only
        split_ifs
        · exact hmarked.emptied rfl (.inr rfl)
        · rw [List.append_nil]
          exact hmarked

theorem doNotify_good (h : Good events s) : Good (events ++ (s.doNotify i).1) (s.doNotify i).2 := by
  unfold State.doNotify
  split_ifs
  · refine ⟨?_, h.2.append fun j node heq => by cases heq⟩
    intro j
    rw [pending_append]
    exact h.1 j
  · rw [List.append_nil]
    exact h

theorem attempt_good (h : Good events s) {timed : Bool} {r : Request}
    (hattempt : s.attempt i timed r = some (out, s')) :
    Good (events ++ out.events) s' := by
  cases r with
  | send msg prio =>
    rw [State.attempt] at hattempt
    dsimp only at hattempt
    split at hattempt
    · split at hattempt
      · cases hattempt
        exact h.quiet rfl rfl
      · cases hattempt
    · obtain ⟨rfl, rfl⟩ := Prod.mk.inj (Option.some.inj hattempt)
      have hsent : Good (events ++ [.sent i ⟨msg, prio⟩]) (s.setMq i { s.pool i with
          head := Priority.insert Node.prio ⟨msg, prio⟩ (s.pool i).head
          attr := { (s.pool i).attr with mq_curmsgs := (s.pool i).attr.mq_curmsgs + 1 } }) := by
        refine ⟨h.1.event setMq_head_ne (fun j hj xs => if_neg (Ne.symm hj)) ?_,
          h.2.append fun j node heq => by cases heq⟩
        rw [after, if_pos rfl, Priority.arrange_append, ← h.1 i]
        exact (congrArg Mq.head (Function.update_self ..)).trans rfl
      dsimp only
      rw [List.append_cons]
      split_ifs
      · exact doNotify_good hsent
      · rw [List.append_nil]
        exact hsent
  | receive msg_len =>
    rw [State.attempt] at hattempt
    dsimp only at hattempt
    rcases hhead : (s.pool i).head with _ | ⟨node, rest⟩
    · rw [hhead] at hattempt
      dsimp only at hattempt
      split at hattempt
      · cases hattempt
        exact h.quiet rfl rfl
      · cases hattempt
    · rw [hhead] at hattempt
      dsimp only at hattempt
      split at hattempt
      · cases hattempt
        exact h.quiet rfl rfl
      · cases hattempt
        have harrange := h.1 i
        rw [hhead, Priority.arrange_next] at harrange
        rcases hnext : Priority.next Node.prio (pending i events) with _ | ⟨first, others⟩
        · rw [hnext] at harrange
          cases harrange
        · rw [hnext] at harrange
          obtain ⟨rfl, hrest⟩ := List.cons.inj harrange
          refine ⟨h.1.event setMq_head_ne (fun j hj xs => if_neg (Ne.symm hj)) ?_, h.2.append fun j m heq => ?_⟩
          · rw [after, if_pos rfl, hnext]
            exact (congrArg Mq.head (Function.update_self ..)).trans hrest
          · cases heq
            rw [hnext]
            rfl

theorem enter_good (h : Good events s) (w : Waiting) : Good (events ++ (s.enter w).1.events) (s.enter w).2 := by
  unfold State.enter
  rcases hattempt : s.attempt w.mq w.timed w.request with _ | ⟨out, s'⟩
  · exact h.quiet rfl rfl
  · exact attempt_good h hattempt

theorem wake_good (h : Good events s) (k : Nat) : Good (events ++ (s.wake k).1.events) (s.wake k).2 := by
  unfold State.wake
  rcases s.waiting[k]? with _ | w
  · exact h.quiet rfl rfl
  · dsimp only
    rcases hattempt : s.attempt w.mq w.timed w.request with _ | ⟨out, s'⟩
    · exact h.quiet rfl rfl
    · exact (attempt_good h hattempt).congr rfl

theorem step_good {pid : Int} {c : Call} (h : Good events s) :
    Good (events ++ (step pid s c).1.events) (step pid s c).2 := by
  cases c with
  | «open» name oflag attr => exact mqOpen_good h name oflag attr
  | close mqdes => exact mqClose_good h pid mqdes
  | unlink name => exact mqUnlink_good h name
  | send mqdes msg prio abs_timeout =>
    rw [step, State.mqSend]
    rcases s.lookup mqdes with _ | d
    · exact h.quiet rfl rfl
    · cases msg with
      | none =>
        dsimp only
        split_ifs <;> exact h.quiet rfl rfl
      | some msg =>
        dsimp only
        split_ifs
        · exact h.quiet rfl rfl
        · exact h.quiet rfl rfl
        · exact h.quiet rfl rfl
        · exact h.quiet rfl rfl
        · exact enter_good h _
  | receive mqdes msg_ptr msg_len abs_timeout =>
    rw [step, State.mqReceive]
    rcases s.lookup mqdes with _ | d
    · exact h.quiet rfl rfl
    · dsimp only
      split_ifs
      · exact h.quiet rfl rfl
      · exact h.quiet rfl rfl
      · exact h.quiet rfl rfl
      · exact h.quiet rfl rfl
      · exact enter_good (s := State.setNotify s _ _) (h.congr rfl) _
  | wake k => exact wake_good h k
  | timeout k =>
    rw [step, State.timeout]
    rcases s.waiting[k]? with _ | w
    · exact h.quiet rfl rfl
    · dsimp only
      split_ifs <;> exact h.quiet rfl rfl
  | notify mqdes notification =>
    rw [step, State.mqNotify]
    rcases s.lookup mqdes with _ | d
    · exact h.quiet rfl rfl
    · cases notification with
      | none =>
        dsimp only
        split_ifs <;> exact h.quiet rfl rfl
      | some sev =>
        dsimp only
        split_ifs
        · exact h.quiet rfl rfl
        · exact h.quiet rfl rfl
        · refine ⟨fun j => ?_, h.2.append fun j node heq => by cases heq⟩
          rw [pending_append]
          exact h.1 j
  | getattr mqdes mqstat =>
    rw [step, State.mqGetattr]
    split_ifs
    · exact h.quiet rfl rfl
    · rcases s.lookup mqdes with _ | d
      · exact h.quiet rfl rfl
      · dsimp only
        split_ifs <;> exact h.quiet rfl rfl
  | setattr mqdes mqstat =>
    cases mqstat with
    | none => exact h.quiet rfl rfl
    | some a =>
      rw [step, State.mqSetattr]
      rcases s.lookup mqdes with _ | d
      · exact h.quiet rfl rfl
      · dsimp only
        split_ifs
        · exact h.quiet rfl rfl
        · rw [List.append_nil]
          exact ⟨h.1.setMq rfl, h.2⟩

end Calls

/-- The events of a run. -/
def eventsOf (trace : List (Call × Output)) : List Event := trace.flatMap fun p => p.2.events

/-- Along every run a queue holds the messages that are pending, arranged by priority, and the message taken from it
is the oldest of the highest priority. -/
theorem mq_order (pid : Int) (calls : List Call) :
    Holds (eventsOf (Machine.trace (step pid) .start calls)) (Machine.run (step pid) .start calls) ∧
      InOrder (eventsOf (Machine.trace (step pid) .start calls)) := by
  have hstep : ∀ (tr : List (Call × Output)) (s : State) (c : Call), Good (eventsOf tr) s →
      Good (eventsOf (tr ++ [(c, (step pid s c).1)])) (step pid s c).2 := by
    intro tr s c h
    have hevents : eventsOf (tr ++ [(c, (step pid s c).1)]) = eventsOf tr ++ (step pid s c).1.events := by
      simp [eventsOf]
    rw [hevents]
    exact step_good h
  have hstart : Good (eventsOf []) .start := by
    refine ⟨fun i => rfl, fun pre i node post heq => ?_⟩
    cases pre <;> cases heq
  exact Machine.trace_invariant (I := fun tr s => Good (eventsOf tr) s) hstep hstart calls

end JACLibc.Mqueue
