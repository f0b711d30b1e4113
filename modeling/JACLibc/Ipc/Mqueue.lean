import JACLibc.CString
import JACLibc.Lib.Priority
import JACLibc.Lib.Run
import Mathlib.Logic.Function.Basic

/-!
# Message queues

The pool of queues, the descriptors and the notifications of `mqueue.h`.  A step is a call up to the point where it
returns or waits on the condition variable, or what a waiting call does when it is woken or times out.  All of it is
done under the lock of the queue or the pool, but the checks that the descriptor and its queue are in use, which come
before the lock is taken: here nothing comes between them and the rest of the step.  The events of a step say what
became of the queues.
-/

namespace JACLibc.Mqueue

/-- The error numbers of `mqueue.h`. -/
inductive Error where
  | EINVAL
  | EBADF
  | ENOENT
  | ENFILE
  | EEXIST
  | EMFILE
  | EMSGSIZE
  | EAGAIN
  | ETIMEDOUT
  | EBUSY
  deriving DecidableEq, Repr

/-- `__JACL_MQ_MAX` -/
abbrev JACL_MQ_MAX : Nat := 64

/-- `__JACL_MQ_DESC_MAX` -/
abbrev JACL_MQ_DESC_MAX : Nat := 256

def O_RDONLY : BitVec 32 := 0

def O_WRONLY : BitVec 32 := 1

def O_ACCMODE : BitVec 32 := 3

def O_CREAT : BitVec 32 := 0x40

def O_EXCL : BitVec 32 := 0x80

def O_NONBLOCK : BitVec 32 := 0x800

/-- `struct mq_attr` -/
structure Attr where
  mq_flags : BitVec 64
  mq_maxmsg : Int
  mq_msgsize : Int
  mq_curmsgs : Int
  deriving DecidableEq

/-- `__jacl_mq_node_t`; `len` is the length of `data`. -/
structure Node where
  data : List UInt8
  prio : Nat
  deriving DecidableEq

/-- `__jacl_mq_t`; `head` has the nodes of the list. -/
structure Mq where
  name : CString
  active : Bool
  attr : Attr
  head : List Node
  refcount : Int
  unlinked : Bool

/-- `__jacl_mq_desc_t` -/
structure Desc where
  active : Bool
  pool_idx : Fin JACL_MQ_MAX
  oflags : BitVec 32

/-- `struct sigevent`, with pointers as numbers. -/
structure Sigevent where
  sigev_notify : Int
  sigev_signo : Int
  sigev_value : Nat
  sigev_notify_function : Nat
  sigev_notify_attributes : Nat
  deriving DecidableEq

/-- `memset(&n->sev, 0, sizeof(n->sev));` -/
def Sigevent.zero : Sigevent := ⟨0, 0, 0, 0, 0⟩

/-- `__jacl_mq_notify_t` -/
structure Notify where
  registered : Bool
  notify_pid : Int
  sev : Sigevent

def SIGEV_SIGNAL : Int := 0

def SIGEV_THREAD : Int := 2

def SIGUSR1 : Int := 10

/-- What `__jacl_mq_do_notify` sets off: `kill` or `pthread_create`. -/
inductive Notice
  | kill (pid sig : Int)
  | thread (function value attributes : Nat)
  deriving DecidableEq

/-- What a call that waits has still to do; `send` and `receive` are the loop of the call and what follows it. -/
inductive Request
  | send (msg : List UInt8) (prio : Nat)
  | receive (msg_len : Nat)

/-- A call on `mq`; `timed` tells `mq_timedsend` and `mq_timedreceive`, `desc` is the descriptor it was made with. -/
structure Waiting where
  desc : Fin JACL_MQ_DESC_MAX
  mq : Fin JACL_MQ_MAX
  timed : Bool
  request : Request

structure State where
  pool : Fin JACL_MQ_MAX → Mq
  descs : Fin JACL_MQ_DESC_MAX → Desc
  notify : Fin JACL_MQ_MAX → Notify
  waiting : List Waiting

private theorem noName : (0 : UInt8) ∉ [] := List.not_mem_nil

/-- The static memory before the first call. -/
def State.start : State where
  pool _ := ⟨⟨[], noName⟩, false, ⟨0, 0, 0, 0⟩, [], 0, false⟩
  descs _ := ⟨false, 0, 0⟩
  notify _ := ⟨false, 0, .zero⟩
  waiting := []

/-- What a call returns or stores. -/
inductive Answer
  | ret (n : Int)
  | error (e : Error)
  | received (data : List UInt8) (prio : Nat)
  | attr (a : Attr)
  | waits
  deriving DecidableEq

/-- What becomes of a queue. -/
inductive Event
  | created (mq : Fin JACL_MQ_MAX)
  | destroyed (mq : Fin JACL_MQ_MAX)
  | sent (mq : Fin JACL_MQ_MAX) (node : Node)
  | took (mq : Fin JACL_MQ_MAX) (node : Node)
  | registered (mq : Fin JACL_MQ_MAX)
  | noticed (mq : Fin JACL_MQ_MAX) (notice : Option Notice)
  deriving DecidableEq

structure Output where
  answer : Answer
  events : List Event

def Output.error (e : Error) : Output := ⟨.error e, []⟩

/-! ### Opening and closing -/

/-- `__jacl_mq_name_valid` of a pointer that is not NULL -/
def nameValid (name : CString) : Bool :=
  match name.bytes with
  | c :: s => c == asc '/' && s != [] && !s.contains (asc '/') && decide (s.length + 1 < 256)
  | [] => false

namespace State

def setMq (s : State) (i : Fin JACL_MQ_MAX) (mq : Mq) : State := { s with pool := Function.update s.pool i mq }

def setDesc (s : State) (d : Fin JACL_MQ_DESC_MAX) (desc : Desc) : State :=
  { s with descs := Function.update s.descs d desc }

def setNotify (s : State) (i : Fin JACL_MQ_MAX) (n : Notify) : State :=
  { s with notify := Function.update s.notify i n }

/-- `__jacl_mq_find` -/
def find (s : State) (name : CString) : Option (Fin JACL_MQ_MAX) :=
  (List.finRange JACL_MQ_MAX).find? fun i =>
    (s.pool i).active && !(s.pool i).unlinked && strcmp (s.pool i).name.bytes name.bytes == 0

/-- The queue that `__jacl_mq_alloc` makes of a slot: `mq_maxmsg` and `mq_msgsize` stay. -/
def fresh (mq : Mq) (name : CString) : Mq :=
  { mq with
    name, active := true, refcount := 0, unlinked := false, head := []
    attr := { mq.attr with mq_flags := 0, mq_curmsgs := 0 } }

/-- `__jacl_mq_alloc` -/
def alloc (s : State) (name : CString) : Option (Fin JACL_MQ_MAX × State) :=
  ((List.finRange JACL_MQ_MAX).find? fun i => !(s.pool i).active).map fun i =>
    (i, (s.setMq i (fresh (s.pool i) name)).setNotify i ⟨false, 0, .zero⟩)

/-- `__jacl_mq_desc_alloc` -/
def descAlloc (s : State) (i : Fin JACL_MQ_MAX) (oflag : BitVec 32) : Option (Fin JACL_MQ_DESC_MAX × State) :=
  ((List.finRange JACL_MQ_DESC_MAX).find? fun d => !(s.descs d).active).map fun d =>
    (d, s.setDesc d ⟨true, i, oflag &&& O_ACCMODE⟩)

/-- `__jacl_mq_destroy` -/
def destroy (s : State) (i : Fin JACL_MQ_MAX) : State := s.setMq i { s.pool i with head := [], active := false }

/-- `mq_open` once the queue is there: the descriptor, the count and the flag. -/
def openQueue (s : State) (i : Fin JACL_MQ_MAX) (oflag : BitVec 32) : Answer × State :=
  match s.descAlloc i oflag with
  | none => (.error .EMFILE, s)
  | some (d, s) =>
    let mq := s.pool i
    let flags := if oflag &&& O_NONBLOCK ≠ 0 then mq.attr.mq_flags ||| O_NONBLOCK.setWidth 64 else mq.attr.mq_flags
    (.ret d.val, s.setMq i { mq with refcount := mq.refcount + 1, attr := { mq.attr with mq_flags := flags } })

/-- `attr`, if it is not NULL, or the defaults. -/
def withAttr (mq : Mq) : Option Attr → Mq
  | some attr => { mq with attr := { attr with mq_curmsgs := mq.attr.mq_curmsgs } }
  | none => { mq with attr := { mq.attr with mq_maxmsg := 10, mq_msgsize := 8192 } }

/-- `mq_open`; `attr` is the fourth argument, which is read only when a queue is made. -/
def mqOpen (s : State) (name : Option CString) (oflag : BitVec 32) (attr : Option Attr) : Output × State :=
  match name with
  | none => (.error .EINVAL, s)
  | some name =>
    if !nameValid name then (.error .EINVAL, s)
    else if oflag &&& O_EXCL ≠ 0 ∧ oflag &&& O_CREAT = 0 then (.error .EINVAL, s)
    else
      match s.find name with
      | none =>
        if oflag &&& O_CREAT = 0 then (.error .ENOENT, s)
        else
          match s.alloc name with
          | none => (.error .ENFILE, s)
          | some (i, s) =>
            if attr.any fun a => decide (a.mq_maxmsg ≤ 0 ∨ a.mq_msgsize ≤ 0) then (⟨.error .EINVAL, [.created i]⟩, s)
            else
              let (answer, s) := openQueue (s.setMq i (withAttr (s.pool i) attr)) i oflag
              (⟨answer, [.created i]⟩, s)
      | some i =>
        if oflag &&& O_CREAT ≠ 0 then (.error .EEXIST, s)
        else
          let (answer, s) := openQueue s i oflag
          (⟨answer, []⟩, s)

/-- An active descriptor. -/
def lookup (s : State) (mqdes : Int) : Option (Fin JACL_MQ_DESC_MAX) :=
  if h : 0 ≤ mqdes ∧ mqdes < JACL_MQ_DESC_MAX then
    let d : Fin JACL_MQ_DESC_MAX := ⟨mqdes.toNat, by omega⟩
    if (s.descs d).active then some d else none
  else none

/-- `mq_close` in the process `pid` -/
def mqClose (pid : Int) (s : State) (mqdes : Int) : Output × State :=
  match s.lookup mqdes with
  | none => (.error .EBADF, s)
  | some d =>
    let i := (s.descs d).pool_idx
    let s := if (s.notify i).notify_pid = pid
      then s.setNotify i { s.notify i with registered := false, notify_pid := 0 } else s
    let s := s.setDesc d { s.descs d with active := false }
    let s := s.setMq i { s.pool i with refcount := (s.pool i).refcount - 1 }
    if (s.pool i).refcount = 0 ∧ (s.pool i).unlinked then (⟨.ret 0, [.destroyed i]⟩, s.destroy i) else (⟨.ret 0, []⟩, s)

/-- `mq_unlink` -/
def mqUnlink (s : State) (name : Option CString) : Output × State :=
  match name with
  | none => (.error .EINVAL, s)
  | some name =>
    if !nameValid name then (.error .EINVAL, s)
    else
      match s.find name with
      | none => (.error .ENOENT, s)
      | some i =>
        let s := s.setMq i { s.pool i with unlinked := true }
        if (s.pool i).refcount = 0 then (⟨.ret 0, [.destroyed i]⟩, s.destroy i) else (⟨.ret 0, []⟩, s)

/-! ### Sending and receiving -/

/-- `__jacl_mq_do_notify` of a registered process -/
def notice (n : Notify) : Option Notice :=
  if n.sev.sigev_notify = SIGEV_SIGNAL then
    some (.kill n.notify_pid (if n.sev.sigev_signo ≠ 0 then n.sev.sigev_signo else SIGUSR1))
  else if n.sev.sigev_notify = SIGEV_THREAD ∧ n.sev.sigev_notify_function ≠ 0 then
    some (.thread n.sev.sigev_notify_function n.sev.sigev_value n.sev.sigev_notify_attributes)
  else none

/-- `__jacl_mq_do_notify` -/
def doNotify (s : State) (i : Fin JACL_MQ_MAX) : List Event × State :=
  if (s.notify i).registered then ([.noticed i (notice (s.notify i))], s.setNotify i ⟨false, 0, .zero⟩) else ([], s)

/-- The loop of `mq_send` or `mq_receive`, entered under the lock, and what follows it; `none` where it has to wait. -/
def attempt (s : State) (i : Fin JACL_MQ_MAX) (timed : Bool) : Request → Option (Output × State)
  | .send msg prio =>
    let mq := s.pool i
    if mq.attr.mq_curmsgs ≥ mq.attr.mq_maxmsg then
      if !timed && mq.attr.mq_flags &&& O_NONBLOCK.setWidth 64 ≠ 0 then some (.error .EAGAIN, s) else none
    else
      let node : Node := ⟨msg, prio⟩
      let curmsgs := mq.attr.mq_curmsgs + 1
      let s :=
        s.setMq i
        { mq with head := Priority.insert Node.prio node mq.head, attr := { mq.attr with mq_curmsgs := curmsgs } }
      let (events, s) := if curmsgs = 1 then s.doNotify i else ([], s)
      some (⟨.ret 0, .sent i node :: events⟩, s)
  | .receive msg_len =>
    let mq := s.pool i
    match mq.head with
    | [] => if !timed && mq.attr.mq_flags &&& O_NONBLOCK.setWidth 64 ≠ 0 then some (.error .EAGAIN, s) else none
    | node :: rest =>
      if msg_len < node.data.length then some (.error .EMSGSIZE, s)
      else
        some (⟨.received node.data node.prio, [.took i node]⟩,
          s.setMq i { mq with head := rest, attr := { mq.attr with mq_curmsgs := mq.attr.mq_curmsgs - 1 } })

/-- A call enters its loop: it returns or waits. -/
def enter (s : State) (w : Waiting) : Output × State :=
  (s.attempt w.mq w.timed w.request).getD (⟨.waits, []⟩, { s with waiting := s.waiting ++ [w] })

/-- The checks of `abs_timeout` in the timed calls, of which `none` is no timed call and `some none` NULL. -/
def timeoutValid : Option (Option Int) → Bool
  | none => true
  | some none => false
  | some (some tv_nsec) => 0 ≤ tv_nsec ∧ tv_nsec < 1000000000

/-- `mq_send` and `mq_timedsend` -/
def mqSend (s : State) (mqdes : Int) (msg : Option (List UInt8)) (prio : Nat) (abs_timeout : Option (Option Int)) :
    Output × State :=
  match s.lookup mqdes with
  | none => (.error .EBADF, s)
  | some d =>
    let i := (s.descs d).pool_idx
    if !(s.pool i).active then (.error .EBADF, s)
    else if !timeoutValid abs_timeout then (.error .EINVAL, s)
    else
      match msg with
      | none => (.error .EINVAL, s)
      | some msg =>
        if msg.length > (BitVec.ofInt 64 (s.pool i).attr.mq_msgsize).toNat then (.error .EMSGSIZE, s)
        else if (s.descs d).oflags = O_RDONLY then (.error .EBADF, s)
        else s.enter ⟨d, i, abs_timeout.isSome, .send msg prio⟩

/-- `mq_receive` and `mq_timedreceive`; `msg_ptr` tells whether the pointer is not NULL. -/
def mqReceive (s : State) (mqdes : Int) (msg_ptr : Bool) (msg_len : Nat) (abs_timeout : Option (Option Int)) :
    Output × State :=
  match s.lookup mqdes with
  | none => (.error .EBADF, s)
  | some d =>
    let i := (s.descs d).pool_idx
    if !(s.pool i).active then (.error .EBADF, s)
    else if !timeoutValid abs_timeout then (.error .EINVAL, s)
    else if !msg_ptr then (.error .EINVAL, s)
    else if (s.descs d).oflags = O_WRONLY then (.error .EBADF, s)
    else (s.setNotify i { s.notify i with registered := false, notify_pid := 0 }).enter ⟨d, i, abs_timeout.isSome,
      .receive msg_len⟩

/-- The waiting call `k` is woken. -/
def wake (s : State) (k : Nat) : Output × State :=
  match s.waiting[k]? with
  | none => (⟨.waits, []⟩, s)
  | some w => ((s.attempt w.mq w.timed w.request).map fun r =>
    (r.1, { r.2 with waiting := s.waiting.eraseIdx k })).getD (⟨.waits, []⟩, s)

/-- `pthread_cond_timedwait` answers `ETIMEDOUT` to the waiting call `k`. -/
def timeout (s : State) (k : Nat) : Output × State :=
  match s.waiting[k]? with
  | none => (⟨.waits, []⟩, s)
  | some w => if w.timed then (.error .ETIMEDOUT, { s with waiting := s.waiting.eraseIdx k }) else (⟨.waits, []⟩, s)

/-! ### Notification and attributes -/

/-- `mq_notify` in the process `pid` -/
def mqNotify (pid : Int) (s : State) (mqdes : Int) (notification : Option Sigevent) : Output × State :=
  match s.lookup mqdes with
  | none => (.error .EBADF, s)
  | some d =>
    let i := (s.descs d).pool_idx
    if !(s.pool i).active then (.error .EBADF, s)
    else
      match notification with
      | none =>
        (⟨.ret 0, []⟩, if (s.notify i).registered ∧ (s.notify i).notify_pid = pid then s.setNotify i ⟨false, 0, .zero⟩
          else s)
      | some sev => if (s.notify i).registered then (.error .EBUSY, s) else (⟨.ret 0, [.registered i]⟩,
        s.setNotify i ⟨true, pid, sev⟩)

/-- `mq_getattr`; `mqstat` tells whether the pointer is not NULL. -/
def mqGetattr (s : State) (mqdes : Int) (mqstat : Bool) : Output × State :=
  if !mqstat then (.error .EINVAL, s)
  else
    match s.lookup mqdes with
    | none => (.error .EBADF, s)
    | some d =>
      let mq := s.pool (s.descs d).pool_idx
      if !mq.active then (.error .EBADF, s) else (⟨.attr mq.attr, []⟩, s)

/-- `mq_setattr`; what it stores in `omqstat` is the answer. -/
def mqSetattr (s : State) (mqdes : Int) (mqstat : Option Attr) : Output × State :=
  match mqstat with
  | none => (.error .EINVAL, s)
  | some mqstat =>
    match s.lookup mqdes with
    | none => (.error .EBADF, s)
    | some d =>
      let i := (s.descs d).pool_idx
      let mq := s.pool i
      if !mq.active then (.error .EBADF, s)
      else
        let flags := (mq.attr.mq_flags &&& ~~~(O_NONBLOCK.setWidth 64)) ||| (mqstat.mq_flags &&& O_NONBLOCK.setWidth 64)
        (⟨.attr mq.attr, []⟩, s.setMq i { mq with attr := { mq.attr with mq_flags := flags } })

end State

/-! ### Runs -/

inductive Call
  | open (name : Option CString) (oflag : BitVec 32) (attr : Option Attr)
  | close (mqdes : Int)
  | unlink (name : Option CString)
  | send (mqdes : Int) (msg : Option (List UInt8)) (prio : Nat) (abs_timeout : Option (Option Int))
  | receive (mqdes : Int) (msg_ptr : Bool) (msg_len : Nat) (abs_timeout : Option (Option Int))
  | wake (k : Nat)
  | timeout (k : Nat)
  | notify (mqdes : Int) (notification : Option Sigevent)
  | getattr (mqdes : Int) (mqstat : Bool)
  | setattr (mqdes : Int) (mqstat : Option Attr)

def step (pid : Int) (s : State) : Call → Output × State
  | .open name oflag attr => s.mqOpen name oflag attr
  | .close mqdes => s.mqClose pid mqdes
  | .unlink name => s.mqUnlink name
  | .send mqdes msg prio abs_timeout => s.mqSend mqdes msg prio abs_timeout
  | .receive mqdes msg_ptr msg_len abs_timeout => s.mqReceive mqdes msg_ptr msg_len abs_timeout
  | .wake k => s.wake k
  | .timeout k => s.timeout k
  | .notify mqdes notification => s.mqNotify pid mqdes notification
  | .getattr mqdes mqstat => s.mqGetattr mqdes mqstat
  | .setattr mqdes mqstat => s.mqSetattr mqdes mqstat

end JACLibc.Mqueue
