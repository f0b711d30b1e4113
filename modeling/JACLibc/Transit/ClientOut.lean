import JACLibc.Transit.Client

/-!
# What a client sends

`wire` and the bytes that are pending in the buffer are together what `client_write` has accepted, and a write
that is under way is of the first pending bytes.  Every phase of `client_step` keeps this, whatever the system
calls and the handlers do, as long as no call of `aio_read` or `aio_write` leaves its entry in the submission
queue.  An `aio_write` that does has its bytes sent by `write`, and they are sent again with the next submission.
-/

namespace JACLibc.Client

open JACLibc.Aio (Submission)

/-- What holds of the queue at all times. -/
structure Sending (s : Conn) : Prop where
  sent_le : s.writeSent ≤ s.writeUsed
  used_le : s.writeUsed ≤ s.writeBuf.length
  fits : s.writeBuf.length < 2 ^ 63
  order : s.wire ++ s.pending = s.accepted
  flight : ∀ op, s.aio = .write op → ∃ bytes, op = .write bytes ∧ bytes <+: s.pending
  reads : ∀ op, s.aio = .read op → ∃ off size, op = .read off size
  sq : s.sq = []

namespace Sending

variable {s : Conn}

/-- A change of something else. -/
theorem congr {t : Conn} (h : Sending s) (hbuf : t.writeBuf = s.writeBuf) (hused : t.writeUsed = s.writeUsed)
    (hsent : t.writeSent = s.writeSent) (hwire : t.wire = s.wire) (haccepted : t.accepted = s.accepted)
    (hsq : t.sq = s.sq) (haio : t.aio = s.aio ∨ t.aio = .idle) : Sending t := by
  have hpending : t.pending = s.pending := by
    unfold Conn.pending
    rw [hbuf, hused, hsent]
  refine ⟨?_, ?_, ?_, ?_, ?_, ?_, ?_⟩
  · rw [hsent, hused]
    exact h.sent_le
  · rw [hused, hbuf]
    exact h.used_le
  · rw [hbuf]
    exact h.fits
  · rw [hwire, hpending, haccepted]
    exact h.order
  · intro op hop
    rw [hpending]
    rcases haio with haio | haio
    · exact h.flight op (haio.symm.trans hop)
    · exact nomatch haio.symm.trans hop
  · intro op hop
    rcases haio with haio | haio
    · exact h.reads op (haio.symm.trans hop)
    · exact nomatch haio.symm.trans hop
  · rw [hsq]
    exact h.sq

/-! ### Queueing -/

/-- Data behind the queue. -/
theorem queue (h : Sending s) {data : List UInt8} (hroom : s.writeUsed + data.length ≤ s.writeBuf.length) :
    Sending (s.queue data) := by
  have hused : (s.writeBuf.take s.writeUsed).length = s.writeUsed := List.length_take_of_le h.used_le
  have hbuf : Buffer.write s.writeBuf s.writeUsed data =
      s.writeBuf.take s.writeUsed ++ data ++ (s.writeBuf.drop s.writeUsed).drop data.length := by
    have hwrite := @Buffer.write_front _ (s.writeBuf.take s.writeUsed) (s.writeBuf.drop s.writeUsed) data
      (by rw [List.length_drop]; omega)
    rwa [List.take_append_drop, hused] at hwrite
  have hpending : (s.queue data).pending = s.pending ++ data := by
    change ((Buffer.write s.writeBuf s.writeUsed data).take (s.writeUsed + data.length)).drop s.writeSent = _
    rw [hbuf, List.take_left' (by rw [List.length_append, hused]),
      List.drop_append_of_le_length (by rw [hused]; exact h.sent_le)]
    rfl
  refine ⟨Nat.le_trans h.sent_le (Nat.le_add_right _ _), ?_, ?_, ?_, ?_, h.reads, h.sq⟩
  · change _ ≤ (Buffer.write s.writeBuf s.writeUsed data).length
    rw [Buffer.length_write]
    exact hroom
  · change (Buffer.write s.writeBuf s.writeUsed data).length < _
    rw [Buffer.length_write]
    exact h.fits
  · change s.wire ++ _ = s.accepted ++ data
    rw [hpending, ← List.append_assoc, h.order]
  · intro op hop
    obtain ⟨bytes, rfl, hfront⟩ := h.flight op hop
    rw [hpending]
    exact ⟨bytes, rfl, hfront.trans (List.prefix_append _ _)⟩

/-- A block with more bytes behind the old ones. -/
theorem grow (h : Sending s) {more : List UInt8} (hfits : (s.writeBuf ++ more).length < 2 ^ 63) :
    Sending { s with writeBuf := s.writeBuf ++ more } := by
  have hpending : Conn.pending { s with writeBuf := s.writeBuf ++ more } = s.pending := by
    unfold Conn.pending
    rw [List.take_append_of_le_length h.used_le]
  refine ⟨h.sent_le, ?_, hfits, ?_, ?_, h.reads, h.sq⟩
  · rw [List.length_append]
    exact Nat.le_trans h.used_le (Nat.le_add_right _ _)
  · rw [hpending]
    exact h.order
  · intro op hop
    rw [hpending]
    exact h.flight op hop

end Sending

theorem le_growSize {need size : Nat} (fuel : Nat) : ∀ {n : Nat}, growSize need fuel n = some size → need ≤ size := by
  induction fuel with
  | zero =>
    intro n h
    exact nomatch h
  | succ fuel ih =>
    intro n h
    unfold growSize at h
    split at h
    · exact ih h
    · next hle =>
      obtain rfl := Option.some.inj h
      omega

theorem Sending.clientWrite {s : Conn} (h : Sending s) (w : Write) : Sending (clientWrite s w).2 := by
  have hneed : (s.writeUsed + w.data.bytes.length) % 2 ^ 64 = s.writeUsed + w.data.bytes.length := by
    have h1 := h.used_le
    have h2 := h.fits
    have h3 := w.data.fits
    exact Nat.mod_eq_of_lt (by omega)
  unfold Client.clientWrite
  simp only [hneed]
  split
  · exact h
  split
  · split
    · exact h.congr rfl rfl rfl rfl rfl rfl (.inl rfl)
    · next size hsize =>
      split
      · exact h
      · next buf hbuf =>
        have hle := le_growSize 65 hsize
        unfold Write.realloc at hbuf
        split at hbuf
        · next hlt =>
          obtain ⟨junk, -, rfl⟩ := Option.map_eq_some_iff.1 hbuf
          have hlength : (s.writeBuf ++ (List.range (size - s.writeBuf.length)).map junk).length = size := by
            rw [List.length_append, List.length_map, List.length_range]
            omega
          refine (h.grow (by rw [hlength]; exact hlt)).queue ?_
          rw [hlength]
          exact hle
        · cases hbuf
  · next hroom => exact h.queue (by omega)

theorem Sending.clientWrites (ws : List Write) : ∀ {s : Conn}, Sending s → Sending (clientWrites s ws) := by
  induction ws with
  | nil => exact fun h => h
  | cons w ws ih =>
    intro s h
    unfold Client.clientWrites
    split
    · exact h
    · exact ih (h.clientWrite w)

/-! ### Sending -/

namespace Sending

variable {s : Conn}

/-- The first pending bytes are sent. -/
theorem send (h : Sending s) (hidle : s.aio = .idle) {sent : List UInt8} (hfront : sent <+: s.pending) :
    Sending (s.send sent) := by
  obtain ⟨rest, hrest⟩ := hfront
  have hlength : s.pending.length = s.writeUsed - s.writeSent := by
    unfold Conn.pending
    rw [List.length_drop, List.length_take_of_le h.used_le]
  have hsum := congrArg List.length hrest
  rw [List.length_append, hlength] at hsum
  have hle := h.sent_le
  have hpending : (s.send sent).pending = rest := by
    change (s.writeBuf.take s.writeUsed).drop (s.writeSent + sent.length) = rest
    rw [← List.drop_drop]
    change s.pending.drop sent.length = rest
    rw [← hrest, List.drop_left]
  refine ⟨?_, h.used_le, h.fits, ?_, ?_, h.reads, h.sq⟩
  · change s.writeSent + sent.length ≤ s.writeUsed
    omega
  · change s.wire ++ sent ++ _ = s.accepted
    rw [hpending, List.append_assoc, hrest]
    exact h.order
  · intro bytes hb
    exact nomatch hidle.symm.trans hb

theorem rewind (h : Sending s) (hidle : s.aio = .idle) : Sending s.rewind := by
  unfold Conn.rewind
  split
  · next hall =>
    have hnil : s.pending = [] := by
      unfold Conn.pending
      exact List.drop_of_length_le (by rw [List.length_take_of_le h.used_le]; exact hall)
    refine ⟨Nat.le_refl _, Nat.zero_le _, h.fits, ?_, ?_, h.reads, h.sq⟩
    · change s.wire ++ [] = s.accepted
      rw [← hnil]
      exact h.order
    · intro bytes hb
      exact nomatch hidle.symm.trans hb
  · exact h

theorem idle (h : Sending s) : Sending { s with aio := .idle } := h.congr rfl rfl rfl rfl rfl rfl (.inr rfl)

theorem receive (h : Sending s) (off : Nat) (got : List UInt8) : Sending (s.receive off got) :=
  h.congr rfl rfl rfl rfl rfl rfl (.inl rfl)

theorem count (h : Sending s) (n : Nat) : Sending (s.count n) := by
  unfold Conn.count
  split <;> exact h.congr rfl rfl rfl rfl rfl rfl (.inl rfl)

theorem reapRead (h : Sending s) (a : Answers) : Sending (s.reapRead a).2 := by
  unfold Conn.reapRead
  split
  · next op n haio _ =>
    obtain ⟨off, size, rfl⟩ := h.reads op haio
    exact (h.idle.receive _ _).count _
  · exact h.idle.congr rfl rfl rfl rfl rfl rfl (.inl rfl)
  · exact h

theorem reapWrite (h : Sending s) (a : Answers) : Sending (s.reapWrite a).2 := by
  unfold Conn.reapWrite
  split
  · next op n haio _ =>
    obtain ⟨bytes, rfl, hfront⟩ := h.flight op haio
    have hsend : Sending ({ s with aio := .idle }.send (bytes.take n)) :=
      h.idle.send rfl ((List.take_prefix n bytes).trans hfront)
    simp only
    split
    · exact hsend.congr rfl rfl rfl rfl rfl rfl (.inl rfl)
    · exact (hsend.rewind rfl).congr rfl rfl rfl rfl rfl rfl (.inl rfl)
  · exact (h.idle.rewind rfl).congr rfl rfl rfl rfl rfl rfl (.inl rfl)
  · exact h

theorem writeNow (h : Sending s) (hidle : s.aio = .idle) (a : Answers) : Sending (s.writeNow a).2 := by
  unfold Conn.writeNow
  split
  · exact h.congr rfl rfl rfl rfl rfl rfl (.inl rfl)
  · next n _ =>
    simp only
    split
    · exact (h.send hidle (List.take_prefix n _)).rewind hidle
    · exact h.congr rfl rfl rfl rfl rfl rfl (.inl rfl)

/-- The entry of a write is of all the pending bytes. -/
theorem take_pending (h : Sending s) : s.take (.write s.writeSent (s.writeUsed - s.writeSent)) = .write s.pending := by
  have hsum : s.writeUsed = s.writeSent + (s.writeUsed - s.writeSent) := (Nat.add_sub_cancel' h.sent_le).symm
  unfold Conn.take Conn.pending
  rw [List.drop_take]

theorem submitWrite (h : Sending s) (a : Answers) (hok : a.aioWrite ≠ .stuck) : Sending (s.submitWrite a).2 := by
  unfold Conn.submitWrite
  split
  · next hcond =>
    have hs : Sending { s with writeRemaining := s.writeUsed - s.writeSent, sq := [] } :=
      h.congr rfl rfl rfl rfl rfl h.sq.symm (.inl rfl)
    rw [h.sq]
    cases hanswer : a.aioWrite with
    | refused => exact hs.writeNow hcond.1 a
    | accepted =>
      refine ⟨h.sent_le, h.used_le, h.fits, h.order, ?_, (fun _ hop => nomatch hop), rfl⟩
      intro op hop
      obtain rfl := Aio.write.inj hop
      exact ⟨s.pending, hs.take_pending, List.prefix_refl _⟩
    | stuck => exact absurd hanswer hok
  · exact h

theorem readNow (h : Sending s) (a : Answers) : Sending (s.readNow a).2 := by
  unfold Conn.readNow
  split
  · exact h.congr rfl rfl rfl rfl rfl rfl (.inl rfl)
  · exact (h.receive _ _).count _

theorem submitRead (h : Sending s) (a : Answers) (hok : a.aioRead ≠ .stuck) : Sending (s.submitRead a).2 := by
  unfold Conn.submitRead
  split
  · rw [h.sq]
    cases hanswer : a.aioRead with
    | refused =>
      have hs : Sending { s with sq := [] } := h.congr rfl rfl rfl rfl rfl h.sq.symm (.inl rfl)
      exact hs.readNow a
    | accepted =>
      exact ⟨h.sent_le, h.used_le, h.fits, h.order, (fun _ hop => nomatch hop),
        fun _ hop => ⟨_, _, (Aio.read.inj hop).symm⟩, rfl⟩
    | stuck => exact absurd hanswer hok
  · exact h

/-! ### The handlers -/

theorem shift (h : Sending s) : Sending s.shift := by
  unfold Conn.shift
  split
  · exact h.congr rfl rfl rfl rfl rfl rfl (.inl rfl)
  · split
    · exact h.congr rfl rfl rfl rfl rfl rfl (.inl rfl)
    · exact h

theorem dispatchIn (h : Sending s) (a : Answers) : Sending (s.dispatchIn a).2 := by
  unfold Conn.dispatchIn
  split
  · exact h
  · next c _ =>
    split
    · have hcall : Sending (s.callIn c) := Sending.clientWrites c.writes (h.congr rfl rfl rfl rfl rfl rfl (.inl rfl))
      simp only
      split
      · exact hcall
      · split
        · exact hcall
        · exact hcall.congr rfl rfl rfl rfl rfl rfl (.inl rfl)
        · exact hcall.congr rfl rfl rfl rfl rfl rfl (.inl rfl)
        · exact hcall.shift
        · split <;> exact hcall.shift.congr rfl rfl rfl rfl rfl rfl (.inl rfl)
    · exact h

theorem dispatchOut (h : Sending s) (a : Answers) : Sending (s.dispatchOut a).2 := by
  unfold Conn.dispatchOut
  split
  · exact h
  · next c _ =>
    split
    · have hcall := h.clientWrites c.writes
      simp only
      split
      · exact hcall
      · split <;> exact hcall.congr rfl rfl rfl rfl rfl rfl (.inl rfl)
    · exact h

theorem transfer (h : Sending s) (a : Answers) (hok : a.aioWrite ≠ .stuck ∧ a.aioRead ≠ .stuck) :
    Sending (s.transfer a).2 :=
  andThen_keeps (h.reapRead a) fun _ h => andThen_keeps (h.reapWrite a) fun _ h =>
    andThen_keeps (h.submitWrite a hok.1) fun _ h => h.submitRead a hok.2

end Sending

/-- No call is refused that leaves its entry in the submission queue. -/
def unstuck (_ : Conn) : Action → Prop
  | .step a => a.aioWrite ≠ .stuck ∧ a.aioRead ≠ .stuck
  | _ => True

instance (s : Conn) : ∀ x : Action, Decidable (unstuck s x)
  | .step _ => inferInstanceAs (Decidable (_ ∧ _))
  | .write _ => isTrue trivial
  | .close => isTrue trivial

namespace Sending

variable {s : Conn}

theorem clientStep (h : Sending s) (a : Answers) (hok : unstuck s (.step a)) : Sending (clientStep s a).2 := by
  unfold Client.clientStep
  split
  · exact h
  · refine andThen_keeps (h.transfer a hok) fun s h => andThen_keeps (h.dispatchIn a) fun s h =>
      andThen_keeps (h.dispatchOut a) fun s h => ?_
    unfold Conn.atEof
    split <;> exact h

theorem act (h : Sending s) (x : Action) (hok : unstuck s x) : Sending (act s x).2 := by
  unfold Client.act
  split
  · exact h
  · split
    · exact h.clientStep _ hok
    · exact h.clientWrite _
    · exact h.congr rfl rfl rfl rfl rfl rfl (.inl rfl)

end Sending

/-- The bytes of the write that is under way; any number of the first of them may have been sent. -/
def Conn.inFlight (s : Conn) : List UInt8 :=
  match s.aio with
  | .write (.write bytes) => bytes
  | _ => []

/-- At every point of every run in which no entry gets stuck, what has been sent is a prefix of what has been
accepted, the rest of which is pending in order. -/
theorem outbound_order (memory writeMemory : Object) (stream : List UInt8) (acts : List Action)
    (hok : Machine.Guarded act unstuck (create memory writeMemory stream) acts) :
    let s := Machine.run act (create memory writeMemory stream) acts
    s.wire ++ s.pending = s.accepted ∧ ∀ n, s.wire ++ s.inFlight.take n <+: s.accepted := by
  intro s
  have hstart : Sending (create memory writeMemory stream) :=
    ⟨Nat.le_refl _, Nat.zero_le _, writeMemory.fits, rfl, (fun _ hop => nomatch hop), (fun _ hop => nomatch hop), rfl⟩
  have h : Sending s := Machine.guarded_invariant (fun _ x h hx => h.act x hx) hstart hok
  refine ⟨h.order, ?_⟩
  intro n
  have hflight : s.inFlight <+: s.pending := by
    unfold Conn.inFlight
    split
    · next bytes haio =>
      obtain ⟨sent, hsent, hfront⟩ := h.flight _ haio
      rwa [Op.write.inj hsent]
    · exact List.nil_prefix
  rw [← h.order]
  exact List.prefix_append_right_inj _ |>.2 ((List.take_prefix n _).trans hflight)

/-- A block of `size` bytes. -/
def blockOf (size : Nat) (h : size < 2 ^ 63) : Object := ⟨List.replicate size 0, by rwa [List.length_replicate]⟩

/-- A step of a protocol without handlers: the operation under way gives `reaped`, a write is started or `write` is
called, and no read is. -/
def writeStep (reaped : Option (Option Nat)) (aioWrite : Submission) (write : Option Nat) : Action :=
  .step ⟨reaped, aioWrite, write, .refused, none, 11, none, none⟩

/-- Two bytes are queued. -/
def writeTwo : Action := .write ⟨⟨[7, 8], by decide⟩, none⟩

/-- Two bytes are queued, one is sent by `write` and one by `aio_write`. -/
theorem outbound_order_two :
    let acts := [writeTwo, writeStep none .refused (some 1), writeStep none .accepted none,
    writeStep (some (some 1)) .refused none]
    Machine.Guarded act unstuck (create (blockOf 4 (by decide)) (blockOf 4 (by decide)) []) acts ∧
      (Machine.run act (create (blockOf 4 (by decide)) (blockOf 4 (by decide)) []) acts).wire = [7, 8] ∧
      [7, 8] <+: (Machine.run act (create (blockOf 4 (by decide)) (blockOf 4 (by decide)) []) acts).accepted := by
  have hok : Machine.Guarded act unstuck (create (blockOf 4 (by decide)) (blockOf 4 (by decide)) [])
      [writeTwo, writeStep none .refused (some 1), writeStep none .accepted none,
        writeStep (some (some 1)) .refused none] := by decide
  have hwire : (Machine.run act (create (blockOf 4 (by decide)) (blockOf 4 (by decide)) [])
      [writeTwo, writeStep none .refused (some 1), writeStep none .accepted none,
        writeStep (some (some 1)) .refused none]).wire = [7, 8] := by decide
  have hsent := (outbound_order (blockOf 4 (by decide)) (blockOf 4 (by decide)) [] _ hok).2 0
  rw [List.take_zero, List.append_nil, hwire] at hsent
  exact ⟨hok, hwire, hsent⟩

/-- Two bytes are queued; `aio_write` is refused with its entry in the queue, and `write` sends the first.  What the
next submission sends is that entry, from the first byte on. -/
theorem outbound_order_stale :
    ¬∀ (memory writeMemory : Object) (stream : List UInt8) (acts : List Action),
      let s := Machine.run act (create memory writeMemory stream) acts
      s.wire <+: s.accepted := by
  intro hall
  have hstale := hall (blockOf 4 (by decide)) (blockOf 4 (by decide)) []
    [writeTwo, writeStep none .stuck (some 1), writeStep none .accepted none, writeStep (some (some 2)) .refused none]
  revert hstale
  decide

end JACLibc.Client
