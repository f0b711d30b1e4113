import JACLibc.Transit.Client

/-!
# What a client receives

The buffer holds the bytes received and not consumed, as long as `client_in` consumes only while no read is under way
and returns `CLIENT_OK` or `CLIENT_DONE` when it has consumed.  A read is started at `buf + buf_used` before the
handler is called; if the handler then consumes, the bytes that are left are moved to the front, and the read puts its
bytes where they ended before.  After the other codes the step returns before the buffer is shifted.
-/

namespace JACLibc.Client

open JACLibc.Aio (Submission)

/-! ### Phases that leave the inbound side alone -/

/-- The inbound side of `t` is that of `s`. -/
structure SameIn (t s : Conn) : Prop where
  buf : t.buf = s.buf
  used : t.used = s.used
  consumed : t.consumed = s.consumed
  aio : t.aio = s.aio
  stream : t.stream = s.stream
  received : t.received = s.received
  taken : t.taken = s.taken
  calls : t.calls = s.calls
  sq : t.sq = s.sq

theorem SameIn.refl (s : Conn) : SameIn s s := ⟨rfl, rfl, rfl, rfl, rfl, rfl, rfl, rfl, rfl⟩

theorem SameIn.trans {s t u : Conn} (h : SameIn t s) (h' : SameIn u t) : SameIn u s :=
  ⟨h'.buf.trans h.buf, h'.used.trans h.used, h'.consumed.trans h.consumed, h'.aio.trans h.aio, h'.stream.trans h.stream,
    h'.received.trans h.received, h'.taken.trans h.taken, h'.calls.trans h.calls, h'.sq.trans h.sq⟩

theorem sameIn_clientWrite (s : Conn) (w : Write) : SameIn (clientWrite s w).2 s := by
  unfold clientWrite
  simp only
  split
  · exact .refl s
  · split
    · split
      · exact ⟨rfl, rfl, rfl, rfl, rfl, rfl, rfl, rfl, rfl⟩
      · split
        · exact .refl s
        · exact ⟨rfl, rfl, rfl, rfl, rfl, rfl, rfl, rfl, rfl⟩
    · exact ⟨rfl, rfl, rfl, rfl, rfl, rfl, rfl, rfl, rfl⟩

theorem sameIn_clientWrites (ws : List Write) : ∀ s : Conn, SameIn (clientWrites s ws) s := by
  induction ws with
  | nil => exact .refl
  | cons w ws ih =>
    intro s
    unfold clientWrites
    split
    · exact .refl s
    · exact (sameIn_clientWrite s w).trans (ih _)

theorem SameIn.shift {s t : Conn} (h : SameIn t s) : SameIn t.shift s.shift := by
  unfold Conn.shift
  rw [h.consumed, h.used]
  split
  · exact ⟨by rw [h.buf], rfl, rfl, h.aio, h.stream, h.received, h.taken, h.calls, h.sq⟩
  · split
    · exact ⟨h.buf, rfl, rfl, h.aio, h.stream, h.received, h.taken, h.calls, h.sq⟩
    · exact h

/-! ### The buffer -/

/-- The buffer holds what was received of `whole` and not consumed, a read that is under way goes behind it, and no
entry of a refused call is left in the submission queue. -/
structure Receiving (whole : List UInt8) (s : Conn) : Prop where
  consumed : s.consumed = 0
  used_le : s.used ≤ s.buf.length
  taken_le : s.taken ≤ s.received.length
  bytes : s.buf.take s.used = s.received.drop s.taken
  order : s.received ++ s.stream = whole
  flight : ∀ op, s.aio = .read op → op = .read s.used (s.buf.length - s.used)
  writes : ∀ op, s.aio = .write op → ∃ bytes, op = .write bytes
  calls : ∀ c ∈ s.calls, c.1 = c.2
  sq : s.sq = []

namespace Receiving

variable {whole : List UInt8} {s t : Conn}

theorem congr (h : Receiving whole s) (hs : SameIn t s) : Receiving whole t := by
  obtain ⟨hbuf, hused, hconsumed, haio, hstream, hreceived, htaken, hcalls, hsq⟩ := hs
  refine ⟨?_, ?_, ?_, ?_, ?_, ?_, ?_, ?_, ?_⟩
  · rw [hconsumed]
    exact h.consumed
  · rw [hused, hbuf]
    exact h.used_le
  · rw [htaken, hreceived]
    exact h.taken_le
  · rw [hbuf, hused, hreceived, htaken]
    exact h.bytes
  · rw [hreceived, hstream]
    exact h.order
  · rw [haio, hused, hbuf]
    exact h.flight
  · rw [haio]
    exact h.writes
  · rw [hcalls]
    exact h.calls
  · rw [hsq]
    exact h.sq

theorem idle (h : Receiving whole s) : Receiving whole { s with aio := .idle } where
  consumed := h.consumed
  used_le := h.used_le
  taken_le := h.taken_le
  bytes := h.bytes
  order := h.order
  flight _ hr := nomatch hr
  writes _ hw := nomatch hw
  calls := h.calls
  sq := h.sq

/-- Bytes of the stream behind those in the buffer. -/
theorem receive (h : Receiving whole s) (hidle : s.aio = .idle) {got : List UInt8} (hgot : got <+: s.stream)
    (hroom : s.used + got.length ≤ s.buf.length) : Receiving whole ((s.receive s.used got).count got.length) := by
  obtain ⟨rest, hrest⟩ := hgot
  have hused : (s.buf.take s.used).length = s.used := List.length_take_of_le h.used_le
  have hbuf : Buffer.write s.buf s.used got = s.buf.take s.used ++ got ++ (s.buf.drop s.used).drop got.length := by
    have hwrite := @Buffer.write_front _ (s.buf.take s.used) (s.buf.drop s.used) got (by rw [List.length_drop]; omega)
    rwa [List.take_append_drop, hused] at hwrite
  have horder : s.received ++ got ++ s.stream.drop got.length = whole := by
    rw [← hrest, List.drop_left, List.append_assoc, hrest]
    exact h.order
  have hread : ∀ op, s.aio ≠ .read op := fun op hr => nomatch hidle.symm.trans hr
  have hwrite : ∀ op, s.aio ≠ .write op := fun op hw => nomatch hidle.symm.trans hw
  unfold Conn.count
  split
  · refine ⟨h.consumed, ?_, ?_, ?_, horder, fun op hr => absurd hr (hread op), fun op hw => absurd hw (hwrite op),
      h.calls, h.sq⟩
    · change s.used + got.length ≤ (Buffer.write s.buf s.used got).length
      rw [Buffer.length_write]
      exact hroom
    · change s.taken ≤ (s.received ++ got).length
      rw [List.length_append]
      exact Nat.le_trans h.taken_le (Nat.le_add_right _ _)
    · change (Buffer.write s.buf s.used got).take (s.used + got.length) = (s.received ++ got).drop s.taken
      rw [hbuf, List.take_left' (by rw [List.length_append, hused]), h.bytes, List.drop_append_of_le_length h.taken_le]
  · next hzero =>
    obtain rfl := List.length_eq_zero_iff.1 (Nat.eq_zero_of_not_pos hzero)
    rw [List.append_nil] at horder
    refine ⟨h.consumed, h.used_le, ?_, ?_, ?_, fun op hr => absurd hr (hread op), fun op hw => absurd hw (hwrite op),
      h.calls, h.sq⟩
    · change s.taken ≤ (s.received ++ []).length
      rw [List.append_nil]
      exact h.taken_le
    · change s.buf.take s.used = (s.received ++ []).drop s.taken
      rw [List.append_nil]
      exact h.bytes
    · change s.received ++ [] ++ _ = whole
      rw [List.append_nil]
      exact horder

theorem reapRead (h : Receiving whole s) (a : Answers) : Receiving whole (s.reapRead a).2 := by
  unfold Conn.reapRead
  split
  · next op n haio _ =>
    obtain rfl := h.flight op haio
    have hle := h.used_le
    refine h.idle.receive rfl (List.take_prefix _ _) ?_
    change s.used + (s.stream.take (min n (s.buf.length - s.used))).length ≤ s.buf.length
    rw [List.length_take]
    omega
  · exact h.idle.congr ⟨rfl, rfl, rfl, rfl, rfl, rfl, rfl, rfl, rfl⟩
  · exact h

theorem rewind (h : Receiving whole s) : Receiving whole s.rewind := by
  unfold Conn.rewind
  split
  · exact h.congr ⟨rfl, rfl, rfl, rfl, rfl, rfl, rfl, rfl, rfl⟩
  · exact h

theorem reapWrite (h : Receiving whole s) (a : Answers) : Receiving whole (s.reapWrite a).2 := by
  unfold Conn.reapWrite
  split
  · next op n haio _ =>
    obtain ⟨bytes, rfl⟩ := h.writes op haio
    have hsend : Receiving whole (({ s with aio := .idle }.perform n (.write bytes)).2.advance
      (bytes.take n).length) := h.idle.congr ⟨rfl, rfl, rfl, rfl, rfl, rfl, rfl, rfl, rfl⟩
    simp only
    split
    · exact hsend.congr ⟨rfl, rfl, rfl, rfl, rfl, rfl, rfl, rfl, rfl⟩
    · exact hsend.rewind.congr ⟨rfl, rfl, rfl, rfl, rfl, rfl, rfl, rfl, rfl⟩
  · exact h.idle.rewind.congr ⟨rfl, rfl, rfl, rfl, rfl, rfl, rfl, rfl, rfl⟩
  · exact h

theorem writeNow (h : Receiving whole s) (a : Answers) : Receiving whole (s.writeNow a).2 := by
  unfold Conn.writeNow
  split
  · exact h.congr ⟨rfl, rfl, rfl, rfl, rfl, rfl, rfl, rfl, rfl⟩
  · simp only
    split
    · exact Receiving.rewind (h.congr ⟨rfl, rfl, rfl, rfl, rfl, rfl, rfl, rfl, rfl⟩)
    · exact h.congr ⟨rfl, rfl, rfl, rfl, rfl, rfl, rfl, rfl, rfl⟩

theorem submitWrite (h : Receiving whole s) (a : Answers) (hok : a.aioWrite ≠ .stuck) :
    Receiving whole (s.submitWrite a).2 := by
  unfold Conn.submitWrite
  split
  · rw [h.sq]
    cases hanswer : a.aioWrite with
    | refused =>
      have hs : Receiving whole { s with writeRemaining := s.writeUsed - s.writeSent, sq := [] } :=
        ⟨h.consumed, h.used_le, h.taken_le, h.bytes, h.order, h.flight, h.writes, h.calls, rfl⟩
      exact hs.writeNow a
    | accepted =>
      exact ⟨h.consumed, h.used_le, h.taken_le, h.bytes, h.order, (fun _ hr => by cases hr),
        (fun _ hw => ⟨_, (Aio.write.inj hw).symm⟩), h.calls, rfl⟩
    | stuck => exact absurd hanswer hok
  · exact h

theorem readNow (h : Receiving whole s) (hidle : s.aio = .idle) (a : Answers) : Receiving whole (s.readNow a).2 := by
  unfold Conn.readNow
  split
  · exact h.congr ⟨rfl, rfl, rfl, rfl, rfl, rfl, rfl, rfl, rfl⟩
  · next n _ =>
    have hle := h.used_le
    refine h.receive hidle (List.take_prefix _ _) ?_
    rw [Conn.arrived, List.length_take]
    omega

theorem submitRead (h : Receiving whole s) (a : Answers) (hok : a.aioRead ≠ .stuck) :
    Receiving whole (s.submitRead a).2 := by
  unfold Conn.submitRead
  split
  · next hcond =>
    rw [h.sq]
    cases hanswer : a.aioRead with
    | refused =>
      have hs : Receiving whole { s with sq := [] } :=
        ⟨h.consumed, h.used_le, h.taken_le, h.bytes, h.order, h.flight, h.writes, h.calls, rfl⟩
      exact hs.readNow hcond.1 a
    | accepted =>
      exact ⟨h.consumed, h.used_le, h.taken_le, h.bytes, h.order, (fun _ hr => (Aio.read.inj hr).symm),
        (fun _ hw => by cases hw), h.calls, rfl⟩
    | stuck => exact absurd hanswer hok
  · exact h

theorem transfer (h : Receiving whole s) (a : Answers) (hok : a.aioWrite ≠ .stuck ∧ a.aioRead ≠ .stuck) :
    Receiving whole (s.transfer a).2 :=
  andThen_keeps (h.reapRead a) fun _ h => andThen_keeps (h.reapWrite a) fun _ h =>
    andThen_keeps (h.submitWrite a hok.1) fun _ h =>
    h.submitRead a hok.2

/-! ### The handler -/

/-- The buffer after `k` of its bytes are consumed and it is shifted. -/
theorem shift (h : Receiving whole s) {k : Nat} (hk : k ≤ s.used) (hread : k = 0 ∨ ∀ op, s.aio ≠ .read op)
    (hpos : 0 < s.used) {calls : List (List UInt8 × List UInt8)} (hcalls : ∀ c ∈ calls, c.1 = c.2) :
    Receiving whole (Conn.shift { s with calls := calls, consumed := k, taken := s.taken + k }) := by
  have hlength : (s.received.drop s.taken).length = s.used := by
    rw [← h.bytes, List.length_take_of_le h.used_le]
  rw [List.length_drop] at hlength
  have htaken := h.taken_le
  have hdrop : (s.buf.take s.used).drop k = s.received.drop (s.taken + k) := by
    rw [h.bytes, List.drop_drop]
  unfold Conn.shift
  split
  · next hcond =>
    have hleft : ((s.buf.take s.used).drop k).length = s.used - k := by
      rw [List.length_drop, List.length_take_of_le h.used_le]
    have hused := h.used_le
    have hbuf : Buffer.write s.buf 0 ((s.buf.take s.used).drop k) = (s.buf.take s.used).drop k ++
      s.buf.drop (s.used - k) := by
      have hwrite := @Buffer.write_front _ [] s.buf ((s.buf.take s.used).drop k) (by omega)
      rwa [List.nil_append, List.nil_append, hleft] at hwrite
    have hnone : ∀ op, s.aio ≠ .read op := hread.resolve_left (Nat.ne_of_gt hcond.1)
    refine ⟨rfl, ?_, ?_, ?_, h.order, fun op hr => absurd hr (hnone op), h.writes, hcalls, h.sq⟩
    · change s.used - k ≤ (Buffer.write s.buf 0 _).length
      rw [Buffer.length_write]
      omega
    · change s.taken + k ≤ s.received.length
      omega
    · change (Buffer.write s.buf 0 ((s.buf.take s.used).drop k)).take (s.used - k) = _
      rw [hbuf, List.take_left' hleft, hdrop]
  · split
    · next hall =>
      change k ≥ s.used at hall
      have hnone : ∀ op, s.aio ≠ .read op := hread.resolve_left (by omega)
      refine ⟨rfl, Nat.zero_le _, ?_, ?_, h.order, fun op hr => absurd hr (hnone op), h.writes, hcalls, h.sq⟩
      · change s.taken + k ≤ s.received.length
        omega
      · change [] = s.received.drop (s.taken + k)
        rw [List.drop_of_length_le (by omega)]
    · next hsome hall =>
      change ¬(k > 0 ∧ k < s.used) at hsome
      change ¬k ≥ s.used at hall
      obtain rfl : k = 0 := by omega
      exact ⟨rfl, h.used_le, h.taken_le, h.bytes, h.order, h.flight, h.writes, hcalls, h.sq⟩

end Receiving

/-- The state in which `client_in` is called in a step, if it is. -/
def Conn.calledIn (s : Conn) (a : Answers) : Option (Conn × Call) :=
  if ¬s.active ∨ s.hung then none
  else
    match s.transfer a, a.clientIn with
    | (none, t), some c => if t.used > t.consumed then some (t, c) else none
    | _, _ => none

def Aio.isRead : Aio → Bool
  | .read _ => true
  | _ => false

/-- No call is refused that leaves its entry in the submission queue; and `client_in` consumes nothing, or it consumes
while no read is under way and the buffer is shifted when it returns. -/
def inTime (s : Conn) : Action → Prop
  | .step a => (a.aioWrite ≠ .stuck ∧ a.aioRead ≠ .stuck) ∧ ∀ tc ∈ s.calledIn a, min tc.2.consume tc.1.used = 0 ∨
  (tc.1.aio.isRead = false ∧ (tc.2.code = .ok ∨ tc.2.code = .done))
  | _ => True

instance (s : Conn) : ∀ x : Action, Decidable (inTime s x)
  | .step a => inferInstanceAs (Decidable (_ ∧ ∀ tc ∈ s.calledIn a, _))
  | .write _ => isTrue trivial
  | .close => isTrue trivial

/-- What holds at all times: every call of `client_in` was shown the bytes it had not consumed, and the buffer holds
them unless a handler has not returned. -/
def Shown (whole : List UInt8) (s : Conn) : Prop := (∀ c ∈ s.calls, c.1 = c.2) ∧ (s.hung = false → Receiving whole s)

variable {whole : List UInt8} {s : Conn}

theorem Receiving.shown {t : Conn} (h : Receiving whole s) (hs : SameIn t s) : Shown whole t :=
  ⟨(h.congr hs).calls, fun _ => h.congr hs⟩

theorem Receiving.dispatchIn (h : Receiving whole s) (a : Answers)
    (hok : ∀ c, a.clientIn = some c → s.used > s.consumed →
      min c.consume s.used = 0 ∨ (s.aio.isRead = false ∧ (c.code = .ok ∨ c.code = .done))) :
    Shown whole (s.dispatchIn a).2 := by
  unfold Conn.dispatchIn
  split
  · exact h.shown (.refl s)
  · next c hc =>
    split
    · next hused =>
      have hcalls : ∀ x ∈ s.calls ++ [(s.buf.take s.used, s.received.drop s.taken)], x.1 = x.2 := by
        intro x hx
        rcases List.mem_append.1 hx with hx | hx
        · exact h.calls x hx
        · rw [List.mem_singleton.1 hx]
          exact h.bytes
      have hsame : SameIn (s.callIn c) { s with
          calls := s.calls ++ [(s.buf.take s.used, s.received.drop s.taken)]
          consumed := min c.consume s.used
          taken := s.taken + min c.consume s.used } := sameIn_clientWrites c.writes _
      have hnone : min c.consume s.used = 0 ∨ ∀ op, s.aio ≠ .read op := by
        refine (hok c hc hused).imp_right fun hread op haio => ?_
        rw [haio] at hread
        exact nomatch hread.1
      have hshift : Receiving whole (s.callIn c).shift :=
        (h.shift (Nat.min_le_right _ _) hnone (Nat.lt_of_le_of_lt (Nat.zero_le _) hused) hcalls).congr hsame.shift
      -- where the step returns before the shift, nothing was consumed
      have hkept : ¬(c.code = .ok ∨ c.code = .done) → Receiving whole (s.callIn c) := by
        intro hcode
        have hzero := (hok c hc hused).resolve_right fun hread => hcode hread.2
        rw [hzero] at hsame
        have hcalled : Receiving whole { s with
            calls := s.calls ++ [(s.buf.take s.used, s.received.drop s.taken)], consumed := 0, taken := s.taken + 0 } :=
          ⟨rfl, h.used_le, h.taken_le, h.bytes, h.order, h.flight, h.writes, hcalls, h.sq⟩
        exact hcalled.congr hsame
      simp only
      split
      · next hhung =>
        refine ⟨?_, fun hfalse => absurd (hhung.symm.trans hfalse) (by decide)⟩
        rw [hsame.calls]
        exact hcalls
      · split
        · next hcode => exact (hkept (by rw [hcode]; decide)).shown (.refl _)
        · next hcode => exact (hkept (by rw [hcode]; decide)).shown ⟨rfl, rfl, rfl, rfl, rfl, rfl, rfl, rfl, rfl⟩
        · next hcode => exact (hkept (by rw [hcode]; decide)).shown ⟨rfl, rfl, rfl, rfl, rfl, rfl, rfl, rfl, rfl⟩
        · exact hshift.shown (.refl _)
        · split <;> exact hshift.shown ⟨rfl, rfl, rfl, rfl, rfl, rfl, rfl, rfl, rfl⟩
    · exact h.shown (.refl s)

theorem Shown.congr {t : Conn} (h : Shown whole s) (hs : SameIn t s) (hhung : t.hung = false → s.hung = false) :
    Shown whole t := by
  refine ⟨?_, fun ht => (h.2 (hhung ht)).congr hs⟩
  rw [hs.calls]
  exact h.1

theorem hung_clientWrites (ws : List Write) (hhung : (clientWrites s ws).hung = false) : s.hung = false := by
  cases ws with
  | nil => exact hhung
  | cons w ws =>
    unfold clientWrites at hhung
    split at hhung
    · exact hhung
    · next h => simpa using h

theorem Shown.dispatchOut (h : Shown whole s) (a : Answers) : Shown whole (s.dispatchOut a).2 := by
  unfold Conn.dispatchOut
  split
  · exact h
  · next c _ =>
    split
    · have hcall : Shown whole (clientWrites s c.writes) :=
        h.congr (sameIn_clientWrites c.writes s) (hung_clientWrites c.writes)
      simp only
      split
      · exact hcall
      · split <;> exact hcall.congr ⟨rfl, rfl, rfl, rfl, rfl, rfl, rfl, rfl, rfl⟩ fun hh => hh
    · exact h

theorem Receiving.clientStep (h : Receiving whole s) (hhung : s.hung = false) (a : Answers) (hok : inTime s (.step a)) :
    Shown whole (clientStep s a).2 := by
  unfold Client.clientStep
  split
  · exact h.shown (.refl s)
  · next hactive =>
    have ht := h.transfer a hok.1
    rcases htransfer : s.transfer a with ⟨_ | code, t⟩
    · rw [htransfer] at ht
      have hin : Shown whole (t.dispatchIn a).2 := by
        refine ht.dispatchIn a ?_
        intro c hc hused
        refine hok.2 (t, c) ?_
        unfold Conn.calledIn
        rw [if_neg (by simpa using ⟨not_not.1 hactive, hhung⟩), htransfer, hc]
        simp [hused]
      change Shown whole (andThen (t.dispatchIn a) _).2
      refine andThen_keeps hin fun s h => andThen_keeps (h.dispatchOut a) fun s h => ?_
      unfold Conn.atEof
      split <;> exact h
    · rw [htransfer] at ht
      exact ht.shown (.refl t)

theorem Shown.act (h : Shown whole s) (x : Action) (hok : inTime s x) : Shown whole (act s x).2 := by
  unfold Client.act
  split
  · exact h
  · next hhung =>
    have hfalse : s.hung = false := by simpa using hhung
    have hs := h.2 hfalse
    split
    · exact hs.clientStep hfalse _ hok
    · exact hs.shown (sameIn_clientWrite s _)
    · exact hs.shown ⟨rfl, rfl, rfl, rfl, rfl, rfl, rfl, rfl, rfl⟩

/-- In every run in which `client_in` consumes in time: the bytes received are the first of the stream, every call was
shown those of them that it had not consumed, and as long as the calls return the buffer holds them. -/
theorem inbound_order (memory writeMemory : Object) (stream : List UInt8) (acts : List Action)
    (hok : Machine.Guarded act inTime (create memory writeMemory stream) acts) :
    let s := Machine.run act (create memory writeMemory stream) acts
    (∀ c ∈ s.calls, c.1 = c.2) ∧ (s.hung = false → s.buf.take s.used = s.received.drop s.taken ∧
      s.received ++ s.stream = stream) := by
  intro s
  have hstart : Receiving stream (create memory writeMemory stream) :=
    ⟨rfl, Nat.zero_le _, Nat.le_refl _, rfl, rfl, (fun _ hr => nomatch hr), (fun _ hw => nomatch hw),
      (fun _ hc => nomatch hc), rfl⟩
  have h : Shown stream s := Machine.guarded_invariant (fun _ x h hx => h.act x hx) (hstart.shown (.refl _)) hok
  exact ⟨h.1, fun hhung => ⟨(h.2 hhung).bytes, (h.2 hhung).order⟩⟩

/-- A block of `CLIENT_BUF_SIZE` bytes. -/
def block : Object := ⟨List.replicate 8192 0, by rw [List.length_replicate]; decide⟩

/-- A step of a protocol without `client_out` that has nothing to send: the read under way gives `reaped`, another one
is started or gives `read` at once, and `client_in` consumes `consume` bytes. -/
def readStep (reaped : Option (Option Nat)) (aioRead : Submission) (read : Option Nat) (consume : Nat) : Action :=
  .step ⟨reaped, .accepted, none, aioRead, read, 0, some ⟨consume, [], .ok⟩, none⟩

/-- With blocking reads of two bytes each, one byte is consumed and then the rest. -/
theorem inbound_order_blocking :
    let acts := [readStep none .refused (some 2) 1, readStep none .refused (some 2) 3]
    Machine.Guarded act inTime (create block block [1, 2, 3, 4]) acts ∧
      ∀ c ∈ (Machine.run act (create block block [1, 2, 3, 4]) acts).calls, c.1 = c.2 := by
  have hok : Machine.Guarded act inTime (create block block [1, 2, 3, 4])
      [readStep none .refused (some 2) 1, readStep none .refused (some 2) 3] := by decide +kernel
  exact ⟨hok, (inbound_order block block [1, 2, 3, 4] _ hok).1⟩

/-- Two reads of two bytes; the second is under way when one byte of the first is consumed. -/
theorem inbound_order_lost :
    ¬∀ (memory writeMemory : Object) (stream : List UInt8) (acts : List Action),
      ∀ c ∈ (Machine.run act (create memory writeMemory stream) acts).calls, c.1 = c.2 := by
  intro hall
  have hlost : ([2, 2, 3], [2, 3, 4]) ∈ (Machine.run act (create block block [1, 2, 3, 4])
      [readStep none .accepted none 0, readStep (some (some 2)) .accepted none 1,
        readStep (some (some 2)) .accepted none 0]).calls := by
    decide +kernel
  exact absurd (hall block block [1, 2, 3, 4] _ _ hlost) (by decide)

end JACLibc.Client
