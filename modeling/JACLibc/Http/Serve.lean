import JACLibc.Http.Request
import JACLibc.Lib.Run
import JACLibc.Transit.Aio

/-!
# Serving a connection

`serve_step` of `transit/serve.h`: it reaps the read that is under way, starts another one, and gives the bytes that
have come to `http_feed`.  What the system calls of a step answer is in `Answers`; the bytes that the peer has sent and
that have not been read are in `stream`.  The operations that the kernel has taken are in `flight`, and at most one of
them completes between two steps: a read puts its bytes into the buffer at the place given when it was started.  All of
them report to the one control block of the connection.  The handler is seen through the requests that it is called
with: pointers are resolved in the buffer as it is during the call.

A connection serves one request that comes in pieces, as long as none of the pieces ends between the end of the first
header line and the end of the request: from then on `hcount` is not 0 and the parser is not called again.  Another
request after it is not served: `http_reset` leaves `_line_start` where the first one ended, and the fields of the
first one are overwritten by the bytes that are moved to the front before the handler is called.  An `aio_read` that
fails with its entry in the submission queue has its bytes read twice, and an accepted `aio_write`, after which the
state stays idle, may have its completion taken for that of a read.
-/

namespace JACLibc.Http

open JACLibc.Aio (Entry Submission)

/-- A request as the handler sees it. -/
structure View where
  method : Method
  path : Option (List UInt8)
  query : Option (List UInt8)
  authority : Option (List UInt8)
  version : Version
  hdrs : List (List UInt8 × List UInt8)
  contentLen : Nat
  chunked : Bool
  keepAlive : Bool
  upgrade : Bool
  upgradeProto : Option (List UInt8)
  deriving DecidableEq

def view (f : Fields) (buf : Buf) : View where
  method := f.method
  path := f.path.map (str buf)
  query := f.query.map (str buf)
  authority := f.authority.map (str buf)
  version := f.version
  hdrs := f.hdrs.map fun h => (str buf h.1, str buf h.2)
  contentLen := f.contentLen
  chunked := f.chunked
  keepAlive := f.keepAlive
  upgrade := f.upgrade
  upgradeProto := f.upgradeProto.map (str buf)

/-- `__aio_state` -/
inductive Aio
  | idle
  | read
  | write
  deriving DecidableEq

/-- `serve_conn_t`, and `sq`, the entries of the submission queue.  `writeLeft` is `__write_remaining`, and nothing when
`__write_ptr` is NULL.  Not in the source: `flight`, the operations that the kernel has taken and that have not
completed, `stream`, the bytes that have not been read, and `calls`, the requests that the handler has been called
with. -/
structure Conn where
  req : Req
  buf : Buf
  used : Nat
  active : Bool
  requestCount : Nat
  maxRequests : Int
  aio : Aio
  sq : List Entry
  flight : List Entry
  writeLeft : Option Nat
  stream : List UInt8
  calls : List View

/-- What the system calls of one step answer, and what the handler has prepared: nothing for an error, or a number of
bytes.  `reaped` is which of the operations under way has completed, if one has, and with what; `flush` is the `write`
that follows the handler; `file` is whether the file of the response, if there is one, could be sent. -/
structure Answers where
  reaped : Option (Nat × Option Nat)
  aioRead : Submission
  read : Option Nat
  aioWrite : Submission
  write : Option Nat
  response : Nat
  flush : Option Nat
  file : Bool

/-- Bytes stored in a buffer from `off` on. -/
def overwrite (buf : Buf) (off : Nat) (data : List UInt8) : Buf := buf.take off ++ data ++ buf.drop (off + data.length)

/-- `n` bytes, but not more than `size` or than there are, are read into the buffer at `off`. -/
def Conn.receive (s : Conn) (off size n : Nat) : List UInt8 × Conn :=
  let got := s.stream.take (min n size)
  (got, { s with buf := overwrite s.buf off got, stream := s.stream.drop got.length })

def Conn.close (s : Conn) : Conn := { s with active := false }

/-- What both reads do with the number of bytes that they gave; the flag is whether the step goes on. -/
def Conn.count (s : Conn) (n : Nat) : Bool × Conn :=
  if n > 0 then (true, { s with used := s.used + n })
  else if s.req.hdrs.length = 0 then (false, s.close)
  else (true, s)

/-- The operation that has completed, and its result. -/
def Conn.completed (s : Conn) (a : Answers) : Option (Entry × Option Nat) :=
  a.reaped.bind fun x => (s.flight[x.1]?).map fun e => (e, x.2)

/-- The operation is not under way any more. -/
def Conn.land (s : Conn) (e : Entry) : Conn := { s with flight := s.flight.erase e }

/-- An operation is done with at most `n` bytes: their number, and the connection.  The bytes of a response are not
followed any further. -/
def Conn.perform (s : Conn) (n : Nat) : Entry → Nat × Conn
  | .read off size => ((s.receive off size n).1.length, (s.receive off size n).2)
  | .write _ size => (min n size, s)

/-- Phase 1: an operation that is under way may be complete.  In the idle state nobody asks for its result. -/
def Conn.reap (s : Conn) (a : Answers) : Bool × Conn :=
  match s.completed a with
  | none => (true, s)
  | some (e, out) =>
    let r := (s.land e).perform (out.getD 0) e
    match s.aio with
    | .idle => (true, r.2)
    | .read =>
      match out with
      | some _ => { r.2 with aio := .idle }.count r.1
      | none => (false, { r.2 with aio := .idle }.close)
    | .write =>
      match s.writeLeft, out with
      | none, _ => (true, r.2)
      | some _, none => (false, { r.2 with aio := .idle, writeLeft := none }.close)
      | some left, some _ =>
        (true, { r.2 with aio := .idle, writeLeft := if 0 < r.1 ∧ r.1 < left then some (left - r.1) else none })

/-- A call of `aio_read` or `aio_write`. -/
def Conn.submit (s : Conn) (e : Entry) (answer : Submission) : Conn :=
  { s with sq := (Aio.submit s.sq e answer).2, flight := s.flight ++ (Aio.submit s.sq e answer).1.toList }

/-- "Fallback to blocking read" -/
def Conn.readNow (s : Conn) (a : Answers) : Bool × Conn :=
  match a.read with
  | none => (false, s.close)
  | some n =>
    let (got, s) := s.receive s.used (s.buf.length - s.used) n
    s.count got.length

/-- The first half of phase 2: a read is started, or made at once where `aio_read` refuses. -/
def Conn.submitRead (s : Conn) (a : Answers) : Bool × Conn :=
  if s.aio = .idle ∧ s.used < s.buf.length ∧ s.writeLeft = none then
    let s := s.submit (.read s.used (s.buf.length - s.used)) a.aioRead
    if a.aioRead = .accepted then (true, { s with aio := .read }) else s.readNow a
  else (true, s)

/-- "Fallback to blocking write" -/
def Conn.writeNow (s : Conn) (a : Answers) : Bool × Conn :=
  match a.write with
  | none => (false, s.close)
  | some n => if n > 0 then (true, { s with writeLeft := none }) else (false, s.close)

/-- The second half of phase 2; an accepted `aio_write` leaves the state idle. -/
def Conn.submitWrite (s : Conn) (a : Answers) : Bool × Conn :=
  match s.writeLeft with
  | none => (true, s)
  | some left =>
    if s.aio = .idle ∧ left > 0 then
      let s := s.submit (.write 0 left) a.aioWrite
      if a.aioWrite = .accepted then (true, s) else s.writeNow a
    else (true, s)

/-- `sc->handler(sc)` -/
def Conn.call (s : Conn) : Conn := { s with calls := s.calls ++ [view s.req.toFields s.buf] }

/-- What is left of a response of `len` bytes after it has been queued, and written if no operation is under way;
nothing if that fails. -/
def Conn.queue (s : Conn) (a : Answers) : Option (Option Nat) :=
  if a.response = 0 then some s.writeLeft
  else if s.aio = .idle then
    match a.flush with
    | none => none
    | some n => if a.response ≤ n then some none else some (some (a.response - n))
  else some (some a.response)

/-- From `send_response` on. -/
def Conn.respond (s : Conn) (a : Answers) : Int × Conn :=
  match s.queue a with
  | none => (-1, s.close)
  | some left =>
    let s := { s with writeLeft := left }
    if ¬a.file then (-1, s.close)
    else
      let s := { s with requestCount := s.requestCount + 1 }
      if ¬s.req.keepAlive ∨ (s.requestCount : Int) ≥ s.maxRequests then (-1, s.close)
      else (0, { s with req := reset s.req })

section Step

variable (strtoul : List UInt8 → Nat)

/-- Phase 3: the parser is called as long as no header has been counted. -/
def Conn.dispatch (s : Conn) (a : Answers) : Int × Conn :=
  if s.req.hdrs.length = 0 ∧ s.used > 0 then
    let ans := feed strtoul s.req s.buf s.used
    let s := { s with req := ans.req, buf := ans.buf }
    match ans.stat with
    | .more => (1, s)
    | .error => s.respond a
    | .upgrade => (0, s.call)
    | .headers =>
      let s :=
        if ans.consumed < s.used then
          { s with buf := overwrite s.buf 0 ((s.buf.take s.used).drop ans.consumed), used := s.used - ans.consumed }
        else { s with used := 0 }
      s.call.respond a
  else (0, s)

/-- `serve_step` -/
def serveStep (s : Conn) (a : Answers) : Int × Conn :=
  if ¬s.active then (-1, s)
  else
    match s.reap a with
    | (false, s) => (-1, s)
    | (true, s) =>
      match s.submitRead a with
      | (false, s) => (-1, s)
      | (true, s) =>
        match s.submitWrite a with
        | (false, s) => (-1, s)
        | (true, s) => s.dispatch strtoul a

end Step

/-- `serve_accept` with a buffer that holds `memory`, of a peer that sends `stream`. -/
def accept (memory : Buf) (stream : List UInt8) : Conn where
  req := init
  buf := memory
  used := 0
  active := true
  requestCount := 0
  maxRequests := 100
  aio := .idle
  sq := []
  flight := []
  writeLeft := none
  stream := stream
  calls := []

/-- A request parsed alone, from a fresh `http_init`. -/
def alone (strtoul : List UInt8 → Nat) (r : Request) : View :=
  view (feed strtoul init r.bytes r.bytes.length).req.toFields (feed strtoul init r.bytes r.bytes.length).buf

/-! ### The strings of a request -/

theorem view_append {f : Fields} {b : Buf} {p : Nat} (hp : b[p]? = some 0) (hf : f.Below p) (t : Buf) :
    view f (b ++ t) = view f b := by
  have hopt : ∀ o : Option Nat, (∀ x ∈ o, x ≤ p) → o.map (str (b ++ t)) = o.map (str b) := by
    intro o ho
    cases o with
    | none => rfl
    | some x => exact congrArg some (str_append hp (ho x rfl))
  have hhdrs : (f.hdrs.map fun h => (str (b ++ t) h.1, str (b ++ t) h.2)) = f.hdrs.map fun h =>
    (str b h.1, str b h.2) := by
    apply List.map_congr_left
    intro h hh
    rw [str_append hp (hf.hdrs h hh).1, str_append hp (hf.hdrs h hh).2]
  rw [view, view, hopt _ hf.path, hopt _ hf.query, hopt _ hf.authority, hopt _ hf.upgradeProto, hhdrs]

/-! ### A connection without bytes to come -/

section Run

variable {strtoul : List UInt8 → Nat} {s : Conn} {a : Answers}

/-- All bytes have been read and handled. -/
structure Served (calls : List View) (s : Conn) : Prop where
  stream : s.stream = []
  calls : s.calls = calls
  handled : s.used = 0 ∨ s.req.hdrs ≠ []

variable {calls : List View}

theorem Served.count (h : Served calls s) : Served calls (s.count 0).2 := by
  rw [Conn.count, if_neg (Nat.lt_irrefl 0)]
  split
  · exact ⟨h.stream, h.calls, h.handled⟩
  · exact h

theorem Served.receive (h : Served calls s) (off size n : Nat) :
    (s.receive off size n).1 = [] ∧ Served calls (s.receive off size n).2 := by
  have hgot : s.stream.take (min n size) = [] := by rw [h.stream, List.take_nil]
  simp only [Conn.receive, hgot]
  exact ⟨trivial, h.stream, h.calls, h.handled⟩

/-- A step does not take the completion of a write for that of a read. -/
def ReadsOnly (s : Conn) (a : Answers) : Prop := s.aio = .read → ∀ x ∈ s.completed a, x.1.isRead = true

instance (s : Conn) (a : Answers) : Decidable (ReadsOnly s a) :=
  inferInstanceAs (Decidable (_ → ∀ x ∈ s.completed a, _))

theorem Served.perform (h : Served calls s) (n : Nat) (e : Entry) : Served calls (s.perform n e).2 := by
  cases e with
  | read off size => exact (h.receive off size n).2
  | write off size => exact h

theorem Served.reap (h : Served calls s) (hreads : ReadsOnly s a) : Served calls (s.reap a).2 := by
  unfold Conn.reap
  split
  · exact h
  · next e out hdone =>
    have hflight : Served calls (s.land e) := ⟨h.stream, h.calls, h.handled⟩
    have hdo := hflight.perform (out.getD 0) e
    dsimp only
    split
    · exact hdo
    · next haio =>
      split
      · next n =>
        cases e with
        | read off size =>
          obtain ⟨hgot, hs⟩ := hflight.receive off size n
          simp only [Conn.perform, Option.getD_some, hgot, List.length_nil]
          exact Served.count ⟨hs.stream, hs.calls, hs.handled⟩
        | write off size => cases hreads haio _ hdone
      · exact ⟨hdo.stream, hdo.calls, hdo.handled⟩
    · split
      · exact hdo
      · exact ⟨hdo.stream, hdo.calls, hdo.handled⟩
      · exact ⟨hdo.stream, hdo.calls, hdo.handled⟩

theorem Served.submit (h : Served calls s) (e : Entry) (answer : Submission) : Served calls (s.submit e answer) :=
  ⟨h.stream, h.calls, h.handled⟩

theorem Served.readNow (h : Served calls s) : Served calls (s.readNow a).2 := by
  unfold Conn.readNow
  split
  · exact ⟨h.stream, h.calls, h.handled⟩
  · next n _ =>
    obtain ⟨hgot, hs⟩ := h.receive s.used (s.buf.length - s.used) n
    simp only [hgot, List.length_nil]
    exact hs.count

theorem Served.submitRead (h : Served calls s) : Served calls (s.submitRead a).2 := by
  unfold Conn.submitRead
  split
  · simp only
    split
    · exact ⟨h.stream, h.calls, h.handled⟩
    · exact (h.submit _ _).readNow
  · exact h

theorem Served.submitWrite (h : Served calls s) : Served calls (s.submitWrite a).2 := by
  unfold Conn.submitWrite
  split
  · exact h
  · next left _ =>
    split
    · have hs := h.submit (.write 0 left) a.aioWrite
      simp only
      split
      · exact hs
      · unfold Conn.writeNow
        split
        · exact ⟨h.stream, h.calls, h.handled⟩
        · split <;> exact ⟨h.stream, h.calls, h.handled⟩
    · exact h

theorem Served.step (h : Served calls s) (hreads : ReadsOnly s a) : Served calls (serveStep strtoul s a).2 := by
  have hreap := h.reap hreads
  unfold serveStep
  split
  · exact h
  rcases h1 : s.reap a with ⟨_ | _, s1⟩
  · simpa [h1] using hreap
  have hs1 : Served calls s1 := by simpa [h1] using hreap
  rcases h2 : s1.submitRead a with ⟨_ | _, s2⟩
  · simpa [h2] using hs1.submitRead (a := a)
  have hs2 : Served calls s2 := by simpa [h2] using hs1.submitRead (a := a)
  rcases h3 : s2.submitWrite a with ⟨_ | _, s3⟩
  · simpa [h2, h3] using hs2.submitWrite (a := a)
  have hs3 : Served calls s3 := by simpa [h3] using hs2.submitWrite (a := a)
  simp only [h2, h3]
  -- there is nothing to parse
  rw [Conn.dispatch, if_neg]
  · exact hs3
  · rintro ⟨hhdrs, hused⟩
    rcases hs3.handled with h0 | hne
    · omega
    · exact hne (List.length_eq_zero_iff.1 hhdrs)

theorem Served.respond (h : Served calls s) (h0 : s.used = 0) : Served calls (s.respond a).2 := by
  unfold Conn.respond
  split
  · exact ⟨h.stream, h.calls, h.handled⟩
  · dsimp only
    split
    · exact ⟨h.stream, h.calls, h.handled⟩
    · split
      · exact ⟨h.stream, h.calls, h.handled⟩
      · exact ⟨h.stream, h.calls, .inl h0⟩

/-! ### A request that is coming in -/

variable {r : Request} {k k' : Nat}

/-- The bytes up to `k` have been given to the parser, and those up to `k'` are in the buffer. -/
structure Filled (strtoul : List UInt8 → Nat) (r : Request) (k k' : Nat) (s : Conn) : Prop where
  short : k < r.firstEnd
  le : k ≤ k'
  active : s.active = true
  stream : s.stream = r.bytes.drop k'
  used : s.used = k'
  req : s.req = (feed strtoul init (r.bytes.take k) k).req
  buf : ∃ t, s.buf = (feed strtoul init (r.bytes.take k) k).buf ++ (r.bytes.take k').drop k ++ t
  fits : r.bytes.length ≤ s.buf.length
  writeLeft : s.writeLeft = none
  calls : s.calls = []
  sq : s.sq = []

theorem Filled.le_length (h : Filled strtoul r k k' s) : k ≤ r.bytes.length := h.short.le.trans (firstEnd_le r)

theorem Filled.hdrs (h : Filled strtoul r k k' s) : s.req.hdrs = [] := by
  rw [h.req]
  exact (feed_short strtoul r h.short).2

theorem length_feed_take (strtoul : List UInt8 → Nat) (hk : k ≤ r.bytes.length) :
    (r.bytes.take k).length = k ∧ (feed strtoul init (r.bytes.take k) k).buf.length = k := by
  have hlen : (r.bytes.take k).length = k := by
    rw [List.length_take]
    omega
  obtain ⟨hbuf, -⟩ := feed_append strtoul (r := init) (Nat.le_refl 0) (r.bytes.take k) []
  rw [hlen] at hbuf
  exact ⟨hlen, hbuf⟩

/-- The next bytes are read into their place. -/
theorem Filled.receive (h : Filled strtoul r k k' s) {size n : Nat} (hn : 0 < n) (hsize : size = s.buf.length - k')
    (hmore : s.stream ≠ []) :
    ∃ m, 0 < m ∧ (s.receive k' size n).1.length = m ∧ k' + m ≤ r.bytes.length ∧
      Filled strtoul r k (k' + m) { (s.receive k' size n).2 with used := k' + m } := by
  obtain ⟨t, ht⟩ := h.buf
  obtain ⟨-, hA⟩ := length_feed_take strtoul h.le_length
  have hle := h.le
  have hfits := h.fits
  have hk' : k' < r.bytes.length := by
    by_contra hge
    exact hmore (h.stream.trans (List.drop_eq_nil_of_le (Nat.not_lt.1 hge)))
  obtain ⟨A, hAdef⟩ : ∃ A, A = (feed strtoul init (r.bytes.take k) k).buf ++ (r.bytes.take k').drop k := ⟨_, rfl⟩
  have hAlen : A.length = k' := by
    rw [hAdef, List.length_append, hA, List.length_drop, List.length_take]
    omega
  rw [← hAdef] at ht
  have hbuf : s.buf.length = k' + t.length := by rw [ht, List.length_append, hAlen]
  obtain ⟨got, hgot⟩ : ∃ got, got = s.stream.take (min n size) := ⟨_, rfl⟩
  have hm : got.length = min (min n size) (r.bytes.length - k') := by
    rw [hgot, h.stream, List.length_take, List.length_drop]
  have htake : r.bytes.take (k' + got.length) = r.bytes.take k' ++ got := by
    rw [List.take_add, ← h.stream, hgot]
    congr 1
    rw [List.length_take, List.take_eq_take_iff]
    omega
  simp only [Conn.receive, ← hgot]
  refine ⟨got.length, by omega, rfl, by omega, h.short, by omega, h.active, ?_, rfl, h.req, ⟨t.drop got.length, ?_⟩, ?_,
    h.writeLeft, h.calls, h.sq⟩
  · rw [h.stream, List.drop_drop]
  · rw [htake, List.drop_append_of_le_length (by rw [List.length_take]; omega), ← List.append_assoc, ← hAdef,
      overwrite, ht, List.take_left' hAlen, List.drop_append, hAlen, Nat.add_sub_cancel_left,
      List.drop_eq_nil_of_le (by omega), List.nil_append]
  · simp only [overwrite, List.length_append, List.length_take, List.length_drop]
    omega

/-- No operation is under way, or a read to the place where the next byte belongs. -/
def Conn.Aimed (s : Conn) (k : Nat) : Prop :=
  (s.aio = .idle ∧ s.flight = []) ∨ (s.aio = .read ∧ s.flight = [.read k (s.buf.length - k)])

/-- What can complete is the one read. -/
theorem completed_single {e : Entry} {x : Entry × Option Nat} (hflight : s.flight = [e])
    (hdone : s.completed a = some x) :
    x.1 = e ∧ ∃ i, a.reaped = some (i, x.2) := by
  unfold Conn.completed at hdone
  obtain ⟨⟨i, out⟩, hreaped, hx⟩ := Option.bind_eq_some_iff.1 hdone
  obtain ⟨e', he', rfl⟩ := Option.map_eq_some_iff.1 hx
  rw [hflight] at he'
  exact ⟨List.mem_singleton.1 (List.mem_of_getElem? he'), i, hreaped⟩

theorem Filled.reap (h : Filled strtoul r k k' s) (haim : s.Aimed k') (hmore : s.stream ≠ [])
    (hk' : k' ≤ r.bytes.length) (hreaped : ∀ x ∈ a.reaped, x.2 ≠ none ∧ x.2 ≠ some 0) :
    ∃ k'' s', s.reap a = (true, s') ∧ Filled strtoul r k k'' s' ∧ s'.Aimed k'' ∧ k'' ≤ r.bytes.length := by
  rcases hdone : s.completed a with _ | ⟨e, out⟩
  · exact ⟨k', s, by simp only [Conn.reap, hdone], h, haim, hk'⟩
  rcases haim with ⟨hidle, hflight⟩ | ⟨hread, hflight⟩
  · unfold Conn.completed at hdone
    obtain ⟨x, -, hx⟩ := Option.bind_eq_some_iff.1 hdone
    rw [hflight] at hx
    exact nomatch hx
  · obtain ⟨he, i, hr⟩ := completed_single hflight hdone
    obtain ⟨herr, heof⟩ := hreaped _ hr
    obtain rfl : e = _ := he
    rcases out with _ | n
    · exact absurd rfl herr
    · have hn : 0 < n := Nat.pos_of_ne_zero fun h0 => heof (congrArg some h0)
      obtain ⟨t, ht⟩ : ∃ t, t = s.land (.read k' (s.buf.length - k')) := ⟨_, rfl⟩
      have hlanded : t.flight = [] := by rw [ht, Conn.land, hflight, List.erase_cons_head]
      have hfilled : Filled strtoul r k k' t := ht ▸
        ⟨h.short, h.le, h.active, h.stream, h.used, h.req, h.buf, h.fits, h.writeLeft, h.calls, h.sq⟩
      have hsize : s.buf.length - k' = t.buf.length - k' := by rw [ht, Conn.land]
      obtain ⟨m, hm, hgot, hle, hf⟩ := hfilled.receive hn hsize (by rw [ht]; exact hmore)
      have hused : (t.receive k' (s.buf.length - k') n).2.used = k' := hfilled.used
      refine ⟨k' + m, { (t.receive k' (s.buf.length - k') n).2 with used := k' + m, aio := .idle }, ?_, ?_,
        .inl ⟨rfl, hlanded⟩, hle⟩
      · simp only [Conn.reap, hdone, hread, ← ht, Conn.perform, Option.getD_some, hgot, Conn.count, if_pos hm, hused]
      · exact ⟨hf.short, hf.le, hf.active, hf.stream, hf.used, hf.req, hf.buf, hf.fits, hf.writeLeft, hf.calls, hf.sq⟩

theorem Filled.readNow (h : Filled strtoul r k k' s) (hidle : s.aio = .idle) (hflight : s.flight = [])
    (hmore : s.stream ≠ []) (herr : a.read ≠ none) (heof : a.read ≠ some 0) :
    ∃ k'' s', s.readNow a = (true, s') ∧ Filled strtoul r k k'' s' ∧ s'.Aimed k'' ∧ k'' ≤ r.bytes.length := by
  unfold Conn.readNow
  rcases hr : a.read with _ | n
  · exact absurd hr herr
  · have hn : 0 < n := Nat.pos_of_ne_zero fun h0 => heof (hr.trans (congrArg some h0))
    obtain ⟨m, hm, hgot, hle, hf⟩ := h.receive hn rfl hmore
    have hused : (s.receive k' (s.buf.length - k') n).2.used = k' := h.used
    refine ⟨k' + m, { (s.receive k' (s.buf.length - k') n).2 with used := k' + m }, ?_, hf, .inl ⟨hidle, hflight⟩, hle⟩
    simp only [h.used, Conn.count, hgot, if_pos hm, hused]

theorem Filled.submitRead (h : Filled strtoul r k k' s) (haim : s.Aimed k') (hk' : k' ≤ r.bytes.length)
    (hstuck : a.aioRead ≠ .stuck)
    (hok : a.aioRead = .accepted ∨ (s.stream ≠ [] ∧ a.read ≠ none ∧ a.read ≠ some 0)) :
    ∃ k'' s', s.submitRead a = (true, s') ∧ Filled strtoul r k k'' s' ∧ s'.Aimed k'' ∧ k'' ≤ r.bytes.length := by
  unfold Conn.submitRead
  by_cases hcond : s.aio = .idle ∧ s.used < s.buf.length ∧ s.writeLeft = none
  swap
  · rw [if_neg hcond]
    exact ⟨k', s, rfl, h, haim, hk'⟩
  have hflight : s.flight = [] := by
    rcases haim with ⟨-, hflight⟩ | ⟨hread, -⟩
    · exact hflight
    · exact nomatch hcond.1.symm.trans hread
  rw [if_pos hcond]
  simp only
  cases haio : a.aioRead with
  | accepted =>
    have hsubmit : s.submit (.read s.used (s.buf.length - s.used)) .accepted =
        { s with sq := [], flight := [.read k' (s.buf.length - k')] } := by
      rw [Conn.submit, h.sq, hflight, h.used]
      rfl
    rw [if_pos rfl, hsubmit]
    exact ⟨k', _, rfl, ⟨h.short, h.le, h.active, h.stream, h.used, h.req, h.buf, h.fits, h.writeLeft, h.calls, rfl⟩,
      .inr ⟨rfl, rfl⟩, hk'⟩
  | refused =>
    obtain ⟨hmore, herr, heof⟩ := hok.resolve_left (by rw [haio]; decide)
    have hsubmit : s.submit (.read s.used (s.buf.length - s.used)) .refused = s := by
      rw [Conn.submit, Aio.submit_refused, Option.toList_none, List.append_nil]
    rw [if_neg (by decide), hsubmit]
    exact h.readNow hcond.1 hflight hmore herr heof
  | stuck => exact absurd haio hstuck

theorem Filled.submitWrite (h : Filled strtoul r k k' s) : s.submitWrite a = (true, s) := by
  simp only [Conn.submitWrite, h.writeLeft]

/-- The parser answers as if it had got the bytes so far at once; what lies behind them in the buffer is left alone. -/
theorem Filled.feed (h : Filled strtoul r k k' s) (hk' : k' ≤ r.bytes.length) :
    ∃ ans t, feed strtoul s.req s.buf k' = ans ∧ ans.stat = (Http.feed strtoul init (r.bytes.take k') k').stat ∧
      ans.consumed = (Http.feed strtoul init (r.bytes.take k') k').consumed ∧
      ans.req.toFields = (Http.feed strtoul init (r.bytes.take k') k').req.toFields ∧
      ans.buf = (Http.feed strtoul init (r.bytes.take k') k').buf ++ t ∧ ans.buf.length = s.buf.length ∧
      (ans.stat = .more → ans.req = (Http.feed strtoul init (r.bytes.take k') k').req) := by
  have hle := h.le
  obtain ⟨t, ht⟩ := h.buf
  obtain ⟨hlen, hbuflen⟩ := length_feed_take strtoul h.le_length
  obtain ⟨hlen', hbuflen'⟩ := length_feed_take strtoul hk'
  have htake : r.bytes.take k ++ (r.bytes.take k').drop k = r.bytes.take k' := by
    have := List.take_append_drop k (r.bytes.take k')
    rwa [List.take_take, Nat.min_eq_left hle] at this
  have hmore := (feed_short strtoul r h.short).1
  have hnext := feed_next strtoul (r.bytes.take k) ((r.bytes.take k').drop k) t (by rw [hlen]; exact hmore)
  rw [htake, hlen, hlen', ← ht, ← h.req] at hnext
  obtain ⟨ans, hans, hstat, hcons, hfields, hbuf, hreq⟩ := hnext
  refine ⟨ans, t, hans, hstat, hcons, hfields, hbuf, ?_, hreq⟩
  rw [hbuf, ht, List.length_append, List.length_append, List.length_append, hbuflen, hbuflen', List.length_drop, hlen']
  omega

/-- The parser is given a part without the end of the first header line, or all of the request. -/
theorem Filled.dispatch (h : Filled strtoul r k k' s) (haim : s.Aimed k')
    (hsplit : k' < r.firstEnd ∨ k' = r.bytes.length) :
    (Filled strtoul r k' k' (s.dispatch strtoul a).2 ∧ (s.dispatch strtoul a).2.Aimed k') ∨
      Served [alone strtoul r] (s.dispatch strtoul a).2 := by
  have hle := h.le
  have hlast := firstEnd_le r
  have hk' : k' ≤ r.bytes.length := by omega
  unfold Conn.dispatch
  by_cases h0 : k' = 0
  · have hk : k = k' := by omega
    rw [if_neg (by rw [h.used]; omega)]
    exact .inl ⟨hk ▸ h, haim⟩
  rw [if_pos ⟨by rw [h.hdrs, List.length_nil], by rw [h.used]; omega⟩]
  obtain ⟨ans, t, hans, hstat, hcons, hfields, hbuf, hsame, hreq⟩ := h.feed hk'
  rw [h.used, hans]
  dsimp only
  rcases hsplit with hshort | hall
  · -- the parser waits for more
    have hstat' : ans.stat = .more := hstat.trans (feed_short strtoul r hshort).1
    rw [hstat']
    dsimp only
    refine .inl ⟨⟨hshort, Nat.le_refl _, h.active, h.stream, rfl, hreq hstat', ⟨t, ?_⟩, ?_, h.writeLeft, h.calls,
      h.sq⟩, ?_⟩
    · rw [hbuf, List.drop_eq_nil_of_le (List.length_take_le _ _), List.append_nil]
    · rw [hsame]
      exact h.fits
    · simp only [Conn.Aimed, hsame]
      exact haim
  · -- the request is complete
    subst hall
    obtain ⟨g, b, offset, p, hfeed, hp, hbelow, hne⟩ := feed_request strtoul r
    rw [List.take_length] at hstat hcons hfields hbuf
    have hview : view ans.req.toFields ans.buf = alone strtoul r := by
      rw [hfields, hbuf, alone, hfeed]
      exact view_append hp hbelow t
    have hstream : s.stream = [] := by rw [h.stream, List.drop_length]
    have hcalls : s.calls ++ [view ans.req.toFields ans.buf] = [alone strtoul r] := by
      rw [h.calls, hview, List.nil_append]
    rw [hfeed] at hstat hcons hfields
    right
    by_cases hup : g.upgrade = true
    · rw [hstat, if_pos hup]
      refine ⟨hstream, hcalls, .inr ?_⟩
      have : ans.req.hdrs = g.hdrs := congrArg Fields.hdrs hfields
      exact this ▸ hne
    · rw [hstat, if_neg hup]
      dsimp only
      rw [if_neg (by rw [hcons]; exact Nat.lt_irrefl _)]
      exact Served.respond ⟨hstream, hcalls, .inl rfl⟩ rfl

/-! ### Runs -/

/-- The steps that serve at most one request: no completion of a write is taken for that of a read; and as long as bytes
are to come, no `aio_read` leaves its entry in the submission queue, the reads give some of the bytes, no blocking read
is made when all have come, and what has come when the parser is called is all of the request or does not contain the
end of its first header line. -/
def ServeOk (reqs : List Request) (s : Conn) (a : Answers) : Prop :=
  ReadsOnly s a ∧
  (s.stream ≠ [] →
    (∀ x ∈ a.reaped, x.2 ≠ none ∧ x.2 ≠ some 0) ∧ a.aioRead ≠ .stuck ∧
    (a.aioRead = .accepted ∨ ((s.reap a).2.stream ≠ [] ∧ a.read ≠ none ∧ a.read ≠ some 0)) ∧
    ∀ r ∈ reqs, ((s.reap a).2.submitRead a).2.stream = [] ∨
      r.bytes.length - ((s.reap a).2.submitRead a).2.stream.length < r.firstEnd)

instance (reqs : List Request) (s : Conn) (a : Answers) : Decidable (ServeOk reqs s a) :=
  inferInstanceAs (Decidable (_ ∧ (_ → (∀ x ∈ a.reaped, _) ∧ _ ∧ _ ∧ _)))

theorem Filled.step (h : Filled strtoul r k k s) (haim : s.Aimed k) (hok : ServeOk [r] s a) :
    (∃ k', Filled strtoul r k' k' (serveStep strtoul s a).2 ∧ (serveStep strtoul s a).2.Aimed k') ∨
      Served [alone strtoul r] (serveStep strtoul s a).2 := by
  have hk : k < r.bytes.length := h.short.trans_le (firstEnd_le r)
  have hmore : s.stream ≠ [] := by
    rw [h.stream]
    intro hnil
    have := List.drop_eq_nil_iff.1 hnil
    omega
  obtain ⟨hreaped, hstuck, hread, hall⟩ := hok.2 hmore
  have hsplit := hall r (List.mem_singleton_self r)
  obtain ⟨k1, s1, h1, hf1, haim1, hk1⟩ := h.reap haim hmore hk.le hreaped
  rw [h1] at hread hsplit
  obtain ⟨k2, s2, h2, hf2, haim2, hk2⟩ := hf1.submitRead haim1 hk1 hstuck hread
  simp only [h2, hf2.stream, List.drop_eq_nil_iff, List.length_drop] at hsplit
  simp only [serveStep, h.active, not_true_eq_false, if_false, h1, h2, hf2.submitWrite]
  rcases hf2.dispatch haim2 (a := a) (by omega) with hwait | hserved
  · exact .inl ⟨k2, hwait⟩
  · exact .inr hserved

theorem filled_accept (strtoul : List UInt8 → Nat) (r : Request) {memory : Buf}
    (hfit : r.bytes.length ≤ memory.length) :
    Filled strtoul r 0 0 (accept memory r.bytes) ∧ (accept memory r.bytes).Aimed 0 := by
  refine ⟨⟨?_, Nat.le_refl _, rfl, rfl, rfl, ?_, ⟨memory, ?_⟩, hfit, rfl, rfl, rfl⟩, .inl ⟨rfl, rfl⟩⟩
  · rw [Request.firstEnd]
    omega
  · rfl
  · rfl

/-- On a connection with at most one request, and with steps that all meet `ServeOk`, the handler is called with that
request as it is parsed alone, once and not before all of it has been read. -/
theorem serve_pipelined (strtoul : List UInt8 → Nat) (reqs : List Request) (hone : reqs.length ≤ 1) (memory : Buf)
    (hfit : ∀ r ∈ reqs, r.bytes.length ≤ memory.length) (answers : List Answers)
    (hok : Machine.Guarded (serveStep strtoul) (ServeOk reqs) (accept memory (reqs.flatMap Request.bytes)) answers) :
    (Machine.run (serveStep strtoul) (accept memory (reqs.flatMap Request.bytes)) answers).calls <+:
    reqs.map (alone strtoul) ∧
      ((Machine.run (serveStep strtoul) (accept memory (reqs.flatMap Request.bytes)) answers).stream = [] →
        (Machine.run (serveStep strtoul) (accept memory (reqs.flatMap Request.bytes)) answers).calls =
        reqs.map (alone strtoul)) := by
  match reqs, hone with
  | [], _ =>
    have hserved : Served [] (accept memory []) := ⟨rfl, rfl, .inl rfl⟩
    have hrun : Served [] (Machine.run (serveStep strtoul) (accept memory []) answers) :=
      Machine.guarded_invariant (fun _ _ hs ha => hs.step ha.1) hserved hok
    simp only [List.flatMap_nil, List.map_nil, hrun.calls]
    exact ⟨⟨_, rfl⟩, fun _ => trivial⟩
  | [r], _ =>
    have hbytes : [r].flatMap Request.bytes = r.bytes := by simp
    rw [hbytes] at hok ⊢
    have hstart := filled_accept strtoul r (hfit r (List.mem_singleton_self r))
    have hrun := Machine.guarded_invariant
      (I := fun s => (∃ k, Filled strtoul r k k s ∧ s.Aimed k) ∨ Served [alone strtoul r] s)
      (fun s a hs ha => hs.elim (fun ⟨k, hf, haim⟩ => hf.step haim ha) (fun hserved => .inr (hserved.step ha.1)))
      (.inl ⟨0, hstart⟩) hok
    rcases hrun with ⟨k, hf, -⟩ | hserved
    · rw [hf.calls, hf.stream]
      refine ⟨⟨_, rfl⟩, fun hnil => ?_⟩
      have hk : k < r.bytes.length := hf.short.trans_le (firstEnd_le r)
      have := List.drop_eq_nil_iff.1 hnil
      omega
    · rw [hserved.calls]
      exact ⟨⟨[], List.append_nil _⟩, fun _ => rfl⟩

end Run

/-! ### Connections -/

/-- A request with two headers. -/
def ping : Request where
  method := lit "GET"
  target := lit "/a?b"
  version := lit "HTTP/1.1"
  first := (lit "Host", lit " x")
  others := [(lit "Accept", lit " *")]
  words := by decide +kernel
  keys := by decide +kernel
  values := by decide +kernel

/-- A step whose reads give `n` bytes: by a read that is reaped, after which another one is started, and by a blocking
one. -/
def reaps (n : Nat) : Answers := ⟨some (0, some n), .accepted, none, .accepted, none, 10, some 10, true⟩

def reads (n : Nat) : Answers := ⟨none, .refused, some n, .accepted, none, 10, some 10, true⟩

theorem serve_pipelined_ping :
    (Machine.run (serveStep fun _ => 0) (accept (List.replicate 64 0) ([ping].flatMap Request.bytes)) [reads 7,
    reaps 1, reaps 64]).calls =
      [alone (fun _ => 0) ping] :=
  (serve_pipelined (fun _ => 0) [ping] (by decide) (List.replicate 64 0) (by decide) [reads 7, reaps 1, reaps 64]
    (by decide)).2 (by decide)

/-- Two requests that come at once, two requests that come one after the other, and one that comes in two parts: all
bytes have been read, and the handler is called with neither of the requests as it was sent, with the first one only,
and not at all. -/
theorem serve_pipelined_broken :
    (let s := Machine.run (serveStep fun _ => 0) (accept (List.replicate 128 0) ([ping, ping].flatMap Request.bytes))
      [reaps 0, reaps 128, ⟨none, .accepted, none, .accepted, none, 10, some 10, true⟩]
    s.stream = [] ∧ s.calls.length = 2 ∧ ∀ v ∈ s.calls, v ≠ alone (fun _ => 0) ping) ∧
    (let s := Machine.run (serveStep fun _ => 0) (accept (List.replicate 128 0) ([ping, ping].flatMap Request.bytes))
      [reads ping.bytes.length, reads ping.bytes.length]
    s.stream = [] ∧ s.calls = [alone (fun _ => 0) ping]) ∧
    (let s := Machine.run (serveStep fun _ => 0) (accept (List.replicate 128 0) ([ping].flatMap Request.bytes))
      [reads ping.firstEnd, reads 128, reads 128]
    s.stream = [] ∧ s.calls = []) := by
  refine ⟨?_, ?_, ?_⟩ <;> decide +kernel

end JACLibc.Http
