import JACLibc.CString
import JACLibc.Lib.Buffer
import JACLibc.Lib.Run
import JACLibc.Transit.Aio

/-!
# A client connection

`client_step` and `client_write` of `transit/client.h`.  What the system calls of a step answer is in `Answers`, with
what the protocol's handlers do in it: how much they consume, what they queue with `client_write` and what they
return.  A read by `aio_read` puts its bytes into the buffer when it is reaped, at the place given when it was
submitted; a write by `aio_write` sends a prefix of the bytes that were in the range when the kernel took it.  The
kernel may take another entry of the submission queue than the one of the call, and what is reaped is then what that
one gives.  A system call that fails has moved no byte.

`conn` and `proto` are not NULL.  A protocol need not have both handlers.  What the handlers of an upgrade do is part
of what `client_in` and `client_out` do.
-/

namespace JACLibc.Client

open JACLibc.Aio (Entry Submission submit)

/-- The return codes. -/
inductive Code
  | ok
  | done
  | upgrade
  | close
  | error
  deriving DecidableEq

/-- `CLIENT_CLOSE` and `CLIENT_ERROR` as the numbers that go to `last_error`. -/
def Code.negated : Code → Int
  | .close => 1
  | .error => 2
  | _ => 0

def CLIENT_MAX_REQUESTS : Nat := 1000

/-- An operation that the kernel has taken: a read with its place and size, or a write with its bytes. -/
inductive Op
  | read (off size : Nat)
  | write (bytes : List UInt8)
  deriving DecidableEq

/-- `__aio_state`, with the operation that is under way. -/
inductive Aio
  | idle
  | read (op : Op)
  | write (op : Op)
  deriving DecidableEq

/-- `client_conn_t`, and `sq`, the entries of the submission queue.  Not in the source: `stream`, the bytes that the
peer has sent and that have not been read, `received`, those that have been, `taken`, how many of them `client_in` has
consumed, and `calls`, what was in the buffer at each call of `client_in` beside what was not consumed then;
`accepted`, the data that `client_write` took, and `wire`, what has been sent; and `hung`, that `client_write` did not
return. -/
structure Conn where
  buf : List UInt8
  used : Nat
  consumed : Nat
  writeBuf : List UInt8
  writeUsed : Nat
  writeSent : Nat
  active : Bool
  requestCount : Nat
  lastError : Int
  errorOp : String
  readEof : Bool
  aio : Aio
  sq : List Entry
  writeRemaining : Nat
  stream : List UInt8
  received : List UInt8
  taken : Nat
  calls : List (List UInt8 × List UInt8)
  accepted : List UInt8
  wire : List UInt8
  hung : Bool

/-! ### Queueing -/

/-- `while (new_size < need) new_size *= 2;`: nothing if it does not end.  A size is zero after 64 doublings, and
stays zero. -/
def growSize (need : Nat) : Nat → Nat → Option Nat
  | 0, _ => none
  | fuel + 1, size => if size < need then growSize need fuel (size * 2 % 2 ^ 64) else some size

/-- A call of `client_write`: the data, and what `realloc` gives if it is called: nothing, or a block whose bytes
behind the old ones are those of `junk`.  No block is larger than `PTRDIFF_MAX`. -/
structure Write where
  data : Object
  junk : Option (Nat → UInt8)

/-- `realloc(cc->write_buf, size)` -/
def Write.realloc (w : Write) (old : List UInt8) (size : Nat) : Option (List UInt8) :=
  if size < 2 ^ 63 then w.junk.map fun junk => old ++ (List.range (size - old.length)).map junk else none

/-- The data queued in a buffer that has the space. -/
def Conn.queue (s : Conn) (data : List UInt8) : Conn :=
  { s with
    writeBuf := Buffer.write s.writeBuf s.writeUsed data
    writeUsed := s.writeUsed + data.length
    accepted := s.accepted ++ data }

/-- `client_write` -/
def clientWrite (s : Conn) (w : Write) : Code × Conn :=
  let data := w.data.bytes
  if data = [] then (.error, s)
  else
    let need := (s.writeUsed + data.length) % 2 ^ 64
    if need > s.writeBuf.length then
      match growSize need 65 (s.writeBuf.length * 2 % 2 ^ 64) with
      | none => (.error, { s with hung := true })
      | some size =>
        match w.realloc s.writeBuf size with
        | none => (.error, s)
        | some buf => (.ok, { s with writeBuf := buf }.queue data)
    else (.ok, s.queue data)

/-- Calls of `client_write` one after another. -/
def clientWrites (s : Conn) : List Write → Conn
  | [] => s
  | w :: ws => if s.hung then s else clientWrites (clientWrite s w).2 ws

/-! ### A step -/

/-- What a handler does when it is called: it consumes a prefix of the buffer (`client_in` only), queues data, and
returns. -/
structure Call where
  consume : Nat
  writes : List Write
  code : Code

/-- What the system calls of a step answer, nothing for an error or a number of bytes, with `errno`; and the handlers
of the protocol. `reaped` is nothing while the operation is in progress. -/
structure Answers where
  reaped : Option (Option Nat)
  aioWrite : Submission
  write : Option Nat
  aioRead : Submission
  read : Option Nat
  errno : Int
  clientIn : Option Call
  clientOut : Option Call

/-- A phase of the step: the code if the step returns there, and the connection. -/
abbrev Phase := Option Code × Conn

/-- The next phase, if the step goes on. -/
def andThen (p : Phase) (f : Conn → Phase) : Phase :=
  match p with
  | (some code, s) => (some code, s)
  | (none, s) => f s

def Conn.fail (s : Conn) (error : Int) (op : String) (code : Code) : Phase :=
  (some code, { s with lastError := error, errorOp := op })

/-- The bytes that a read of `size` bytes gives, at most `n` and not more than there are. -/
def Conn.arrived (s : Conn) (size n : Nat) : List UInt8 := s.stream.take (min n size)

/-- The bytes `got` are read into the buffer at `off`. -/
def Conn.receive (s : Conn) (off : Nat) (got : List UInt8) : Conn :=
  { s with buf := Buffer.write s.buf off got, stream := s.stream.drop got.length, received := s.received ++ got }

/-- What both reads do with the number of bytes that they gave. -/
def Conn.count (s : Conn) (n : Nat) : Conn :=
  if n > 0 then { s with used := s.used + n } else { s with readEof := true }

/-- The operation is done with at most `n` bytes: their number, and the connection. -/
def Conn.perform (s : Conn) (n : Nat) : Op → Nat × Conn
  | .read off size => ((s.arrived size n).length, s.receive off (s.arrived size n))
  | .write bytes => ((bytes.take n).length, { s with wire := s.wire ++ bytes.take n })

/-- Phase 1, "Check read completion". -/
def Conn.reapRead (s : Conn) (a : Answers) : Phase :=
  match s.aio, a.reaped with
  | .read op, some (some n) =>
    let r := { s with aio := .idle }.perform n op
    (none, r.2.count r.1)
  | .read _, some none => { s with aio := .idle }.fail a.errno "aio_read" .close
  | _, _ => (none, s)

/-- `cc->write_sent += n` -/
def Conn.advance (s : Conn) (n : Nat) : Conn := { s with writeSent := s.writeSent + n }

/-- The bytes `sent` are put on the wire. -/
def Conn.send (s : Conn) (sent : List UInt8) : Conn :=
  { s with wire := s.wire ++ sent, writeSent := s.writeSent + sent.length }

/-- `if (cc->write_sent >= cc->write_used)` the buffer is empty again. -/
def Conn.rewind (s : Conn) : Conn := if s.writeSent ≥ s.writeUsed then { s with writeUsed := 0, writeSent := 0 } else s

/-- Phase 1, "Check write completion". -/
def Conn.reapWrite (s : Conn) (a : Answers) : Phase :=
  match s.aio, a.reaped with
  | .write op, some (some n) =>
    let r := { s with aio := .idle }.perform n op
    if 0 < r.1 ∧ r.1 < s.writeRemaining then (none, { r.2.advance r.1 with writeRemaining := s.writeRemaining - r.1 })
    else (none, { (r.2.advance r.1).rewind with writeRemaining := 0 })
  | .write _, some none => { { s with aio := .idle }.rewind with writeRemaining := 0 }.fail a.errno "aio_write" .close
  | _, _ => (none, s)

/-- The bytes that are queued and not sent. -/
def Conn.pending (s : Conn) : List UInt8 := (s.writeBuf.take s.writeUsed).drop s.writeSent

/-- The kernel takes an entry; a buffer that `realloc` has moved since is read where it is now. -/
def Conn.take (s : Conn) : Entry → Op
  | .read off size => .read off size
  | .write off size => .write ((s.writeBuf.drop off).take size)

/-- "Fallback to blocking write" -/
def Conn.writeNow (s : Conn) (a : Answers) : Phase :=
  match a.write with
  | none => s.fail a.errno "write" .close
  | some n =>
    let sent := s.pending.take n
    if sent.length > 0 then (none, (s.send sent).rewind) else s.fail a.errno "write" .close

/-- Phase 2: a write is submitted, or made at once where `aio_write` does not accept it. -/
def Conn.submitWrite (s : Conn) (a : Answers) : Phase :=
  if s.aio = .idle ∧ s.writeUsed > s.writeSent then
    let r := submit s.sq (.write s.writeSent (s.writeUsed - s.writeSent)) a.aioWrite
    let s := { s with writeRemaining := s.writeUsed - s.writeSent, sq := r.2 }
    match r.1 with
    | some e => (none, { s with aio := .write (s.take e) })
    | none => s.writeNow a
  else (none, s)

/-- "Fallback to blocking read" -/
def Conn.readNow (s : Conn) (a : Answers) : Phase :=
  match a.read with
  | none => s.fail a.errno "read" .close
  | some n =>
    let got := s.arrived (s.buf.length - s.used) n
    (none, (s.receive s.used got).count got.length)

/-- Phase 2: a read is submitted, or made at once where `aio_read` does not accept it. -/
def Conn.submitRead (s : Conn) (a : Answers) : Phase :=
  if s.aio = .idle ∧ ¬s.readEof ∧ s.used < s.buf.length then
    let r := submit s.sq (.read s.used (s.buf.length - s.used)) a.aioRead
    let s := { s with sq := r.2 }
    match r.1 with
    | some e => (none, { s with aio := .read (s.take e) })
    | none => s.readNow a
  else (none, s)

/-- "Shift buffer if proto consumed bytes" -/
def Conn.shift (s : Conn) : Conn :=
  if s.consumed > 0 ∧ s.consumed < s.used then
    { s with
      buf := Buffer.write s.buf 0 ((s.buf.take s.used).drop s.consumed)
      used := s.used - s.consumed
      consumed := 0 }
  else if s.consumed ≥ s.used then { s with used := 0, consumed := 0 }
  else s

/-- `cc->proto->client_in(cc)`: what is in the buffer is noted, and a prefix of it consumed. -/
def Conn.callIn (s : Conn) (c : Call) : Conn :=
  let k := min c.consume s.used
  clientWrites
    { s with calls := s.calls ++ [(s.buf.take s.used, s.received.drop s.taken)], consumed := k, taken := s.taken + k }
    c.writes

/-- Phase 3, inbound. -/
def Conn.dispatchIn (s : Conn) (a : Answers) : Phase :=
  match a.clientIn with
  | none => (none, s)
  | some c =>
    if s.used > s.consumed then
      let s := s.callIn c
      if s.hung then (some .error, s)
      else
        match c.code with
        | .upgrade => (some .upgrade, s)
        | .close => s.fail Code.close.negated "proto_in" .close
        | .error => s.fail Code.error.negated "proto_in" .error
        | .ok => (none, s.shift)
        | .done =>
          let s := { s.shift with requestCount := s.requestCount + 1 }
          if s.requestCount ≥ CLIENT_MAX_REQUESTS then (some .close, s) else (none, s)
    else (none, s)

/-- Phase 3, outbound. -/
def Conn.dispatchOut (s : Conn) (a : Answers) : Phase :=
  match a.clientOut with
  | none => (none, s)
  | some c =>
    if s.aio = .idle then
      let s := clientWrites s c.writes
      if s.hung then (some .error, s)
      else
        match c.code with
        | .close => s.fail Code.close.negated "proto_out" .close
        | .error => s.fail Code.error.negated "proto_out" .error
        | .upgrade => (some .upgrade, s)
        | _ => (none, s)
    else (none, s)

/-- "EOF Handling" -/
def Conn.atEof (s : Conn) : Phase :=
  if s.readEof ∧ s.used = 0 ∧ s.writeUsed = 0 ∧ s.aio = .idle then (some .close, s) else (some .ok, s)

/-- Phases 1 and 2. -/
def Conn.transfer (s : Conn) (a : Answers) : Phase :=
  andThen (s.reapRead a) fun s => andThen (s.reapWrite a) fun s => andThen (s.submitWrite a) fun s => s.submitRead a

/-- `client_step` -/
def clientStep (s : Conn) (a : Answers) : Phase :=
  if ¬s.active then (some .error, s)
  else andThen (s.transfer a) fun s => andThen (s.dispatchIn a) fun s => andThen (s.dispatchOut a) fun s => s.atEof

/-- What every phase keeps, the step keeps. -/
theorem andThen_keeps {I : Conn → Prop} {p : Phase} {f : Conn → Phase} (hp : I p.2) (hf : ∀ s, I s → I (f s).2) :
    I (andThen p f).2 := by
  unfold andThen
  split
  · exact hp
  · exact hf _ hp

/-! ### Runs -/

/-- What the program does with the connection. -/
inductive Action
  | step (a : Answers)
  | write (w : Write)
  | close

/-- One call; after a call that does not return there is no other. -/
def act (s : Conn) (act : Action) : Option Code × Conn :=
  if s.hung then (none, s)
  else
    match act with
    | .step a => clientStep s a
    | .write w => (some (clientWrite s w).1, (clientWrite s w).2)
    | .close => (none, { s with active := false })

/-- `client_conn_create` with the blocks that `malloc` gave (of no size where it gave none), for a peer that sends
`stream`. -/
def create (memory writeMemory : Object) (stream : List UInt8) : Conn where
  buf := memory.bytes
  used := 0
  consumed := 0
  writeBuf := writeMemory.bytes
  writeUsed := 0
  writeSent := 0
  active := true
  requestCount := 0
  lastError := 0
  errorOp := ""
  readEof := false
  aio := .idle
  sq := []
  writeRemaining := 0
  stream := stream
  received := []
  taken := 0
  calls := []
  accepted := []
  wire := []
  hung := false

end JACLibc.Client
