import JACLibc.Ipc.Mqueue

/-!
# Semaphores

The slots, the named semaphores, the sets and the undo log of `sys/sem.h`.  A step is a call up to the point where it
returns or waits on a condition variable, or what a waiting call does when it is woken or times out; a waiting call
can be woken at any time.  The events of a step say how it changed the values.
-/

namespace JACLibc.Sem

open Mqueue (O_CREAT O_EXCL)

/-- The error numbers of `sys/sem.h`. -/
inductive Error where
  | EINVAL
  | ENOSPC
  | EEXIST
  | ENOENT
  | ENFILE
  | ETIMEDOUT
  | EAGAIN
  | EFBIG
  | EFAULT
  deriving DecidableEq, Repr

/-- `__JACL_SEM_SLOT_MAX` -/
abbrev JACL_SEM_SLOT_MAX : Nat := 1024

/-- `__JACL_SEM_NAMED_MAX` -/
abbrev JACL_SEM_NAMED_MAX : Nat := 64

/-- `__JACL_SEM_UNDO_MAX` -/
abbrev JACL_SEM_UNDO_MAX : Nat := 4096

/-- `__JACL_SYSV_SEMSET_MAX` -/
abbrev JACL_SYSV_SEMSET_MAX : Nat := 64

/-- `__JACL_SYSV_MAX_SEMS` -/
abbrev JACL_SYSV_MAX_SEMS : Nat := 256

def IPC_CREAT : BitVec 32 := 0x200

def IPC_EXCL : BitVec 32 := 0x400

def IPC_NOWAIT : BitVec 16 := 0x800

def IPC_PRIVATE : Int := 0

def SEM_UNDO : BitVec 16 := 0x1000

/-- A place in `__jacl_sem_slots`. -/
abbrev Index := Fin JACL_SEM_SLOT_MAX

/-- `__jacl_sem_primitive_t` -/
structure Primitive where
  value : BitVec 32
  last_pid : Int
  ncnt : BitVec 32
  zcnt : BitVec 32
  anonymous : Bool
  deriving DecidableEq

/-- `__jacl_sem_slot_t` -/
structure Slot where
  active : Bool
  p : Primitive
  deriving DecidableEq

/-- `__jacl_sem_named_t` -/
structure Named where
  active : Bool
  name : CString
  unlinked : Bool
  refcount : Int
  slot_idx : Index

/-- `__jacl_sem_undo_entry_t`; no `slot_idx` is -1. -/
structure Undo where
  pid : Int
  slot_idx : Option Index
  adjust : Int
  deriving DecidableEq

/-- `__jacl_sysv_semset_t` -/
structure Semset where
  active : Bool
  key : Int
  sem_nsems : Nat
  slot_indices : Nat → Index

/-- `struct sembuf` -/
structure Sembuf where
  sem_num : BitVec 16
  sem_op : BitVec 16
  sem_flg : BitVec 16
  deriving DecidableEq

/-- What a waiting call goes on with: the loop of `__jacl_sem_wait_core` or that of `semop`. -/
inductive Request
  | wait (timed : Bool)
  | op (semid : Fin JACL_SYSV_SEMSET_MAX) (sops : List Sembuf)

/-- A call that waits at the condition variable of `idx` and is counted in `zcnt` or in `ncnt`. -/
structure Waiting where
  idx : Index
  zero : Bool
  request : Request

structure State where
  slots : Index → Slot
  named : Fin JACL_SEM_NAMED_MAX → Named
  semsets : Fin JACL_SYSV_SEMSET_MAX → Semset
  undo : Fin JACL_SEM_UNDO_MAX → Undo
  waiting : List Waiting

private theorem noName : (0 : UInt8) ∉ [] := List.not_mem_nil

/-- The static memory before the first call, and the undo log as `__jacl_sem_undo_init` leaves it. -/
def State.start : State where
  slots _ := ⟨false, 0, 0, 0, 0, false⟩
  named _ := ⟨false, ⟨[], noName⟩, false, 0, 0⟩
  semsets _ := ⟨false, 0, 0, fun _ => 0⟩
  undo _ := ⟨0, none, 0⟩
  waiting := []

/-- What a call returns or stores; `overrun` is the write behind `sorted_indices`, after which the code has no
meaning. -/
inductive Answer
  | ret (n : Int)
  | error (e : Error)
  | sem (idx : Index)
  | array (values : List (BitVec 16))
  | waits
  | overrun
  deriving DecidableEq

/-- What becomes of the values: a new semaphore, `SETVAL` or `SETALL`, and an operation that adds `op`. -/
inductive Event
  | made (idx : Index) (value : BitVec 32)
  | set (idx : Index) (value : BitVec 32)
  | change (idx : Index) (op : Int) (undo : Bool)
  deriving DecidableEq

structure Output where
  answer : Answer
  events : List Event
  deriving DecidableEq

def Output.error (e : Error) : Output := ⟨.error e, []⟩

namespace State

def setSlot (s : State) (idx : Index) (slot : Slot) : State := { s with slots := Function.update s.slots idx slot }

def setNamed (s : State) (i : Fin JACL_SEM_NAMED_MAX) (n : Named) : State :=
  { s with named := Function.update s.named i n }

def setSemset (s : State) (k : Fin JACL_SYSV_SEMSET_MAX) (set : Semset) : State :=
  { s with semsets := Function.update s.semsets k set }

def setPrimitive (s : State) (idx : Index) (p : Primitive) : State := s.setSlot idx { s.slots idx with p }

def setValue (s : State) (idx : Index) (value : BitVec 32) : State := s.setPrimitive idx { (s.slots idx).p with value }

/-! ### Slots and names -/

/-- `__jacl_sem_slot_alloc`, with what `__jacl_sem_primitive_init` stores. -/
def slotAlloc (s : State) (val : BitVec 32) (anonymous : Bool) : Option (Index × State) :=
  ((List.finRange JACL_SEM_SLOT_MAX).find? fun idx => !(s.slots idx).active).map fun idx =>
    (idx, s.setSlot idx ⟨true, val, 0, 0, 0, anonymous⟩)

/-- `__jacl_sem_slot_free` -/
def slotFree (s : State) (idx : Index) : State :=
  if (s.slots idx).active then s.setSlot idx { s.slots idx with active := false } else s

/-- `__jacl_sem_named_find_by_name` -/
def namedFindByName (s : State) (name : CString) : Option (Fin JACL_SEM_NAMED_MAX) :=
  (List.finRange JACL_SEM_NAMED_MAX).find? fun i =>
    (s.named i).active && !(s.named i).unlinked && strcmp (s.named i).name.bytes name.bytes == 0

/-- `__jacl_sem_named_find_by_slot` -/
def namedFindBySlot (s : State) (idx : Index) : Option (Fin JACL_SEM_NAMED_MAX) :=
  (List.finRange JACL_SEM_NAMED_MAX).find? fun i => (s.named i).active && (s.named i).slot_idx == idx

/-- `__jacl_sem_named_find_free` -/
def namedFindFree (s : State) : Option (Fin JACL_SEM_NAMED_MAX) :=
  (List.finRange JACL_SEM_NAMED_MAX).find? fun i => !(s.named i).active

/-- A place in the table of the slots. -/
def index (sem : Int) : Option Index :=
  if h : 0 ≤ sem ∧ sem < JACL_SEM_SLOT_MAX then some ⟨sem.toNat, by omega⟩ else none

/-- `__jacl_sem_resolve` of a pointer, or of NULL. -/
def resolve (s : State) (sem : Option Int) : Option Index :=
  (sem.bind index).bind fun idx => if (s.slots idx).active then some idx else none

/-- `__jacl_sem_name_valid` -/
def nameValid : Option CString → Bool
  | none => false
  | some name =>
    match name.bytes with
    | c :: _ :: _ => c == asc '/'
    | _ => false

/-- `strncpy(name, ..., 255)` and the NUL behind it -/
def shortName (name : CString) : CString := ⟨name.bytes.take 255, fun h => name.noNul (List.mem_of_mem_take h)⟩

/-- `sem_init`; `sem` tells whether the pointer is not NULL. -/
def semInit (s : State) (sem : Bool) (value : BitVec 32) : Output × State :=
  if !sem then (.error .EINVAL, s)
  else
    match s.slotAlloc value true with
    | none => (.error .ENOSPC, s)
    | some (idx, s) => (⟨.sem idx, [.made idx value]⟩, s)

/-- `sem_destroy` -/
def semDestroy (s : State) (sem : Option Int) : Output × State :=
  match s.resolve sem with
  | none => (.error .EINVAL, s)
  | some idx => if !(s.slots idx).p.anonymous then (.error .EINVAL, s) else (⟨.ret 0, []⟩, s.slotFree idx)

/-- `sem_open`; `value` is the fourth argument, which is read only with `O_CREAT`. -/
def semOpen (s : State) (name : Option CString) (oflag : BitVec 32) (value : BitVec 32) : Output × State :=
  match name with
  | none => (.error .EINVAL, s)
  | some name =>
    if !nameValid (some name) then (.error .EINVAL, s)
    else if oflag &&& O_EXCL ≠ 0 ∧ oflag &&& O_CREAT = 0 then (.error .EINVAL, s)
    else
      match s.namedFindByName name with
      | some i =>
        if oflag &&& O_CREAT ≠ 0 ∧ oflag &&& O_EXCL ≠ 0 then (.error .EEXIST, s)
        else (⟨.sem (s.named i).slot_idx, []⟩,
          s.setNamed i { s.named i with refcount := wrapInt ((s.named i).refcount + 1) })
      | none =>
        if oflag &&& O_CREAT = 0 then (.error .ENOENT, s)
        else
          match s.namedFindFree with
          | none => (.error .ENFILE, s)
          | some i =>
            match s.slotAlloc value false with
            | none => (.error .ENOSPC, s)
            | some (idx, s) => (⟨.sem idx, [.made idx value]⟩, s.setNamed i ⟨true, shortName name, false, 1, idx⟩)

/-- What `sem_close` and `sem_unlink` do with the entry in the end: it goes with its slot once it is unlinked and
nobody has it open. -/
def settle (s : State) (i : Fin JACL_SEM_NAMED_MAX) (n : Named) : State :=
  if n.refcount = 0 ∧ n.unlinked then (s.setNamed i { n with active := false }).slotFree n.slot_idx else s.setNamed i n

/-- `sem_close` -/
def semClose (s : State) (sem : Int) : Output × State :=
  match (index sem).bind s.namedFindBySlot with
  | none => (.error .EINVAL, s)
  | some i =>
    if (s.named i).refcount ≤ 0 then (.error .EINVAL, s)
    else (⟨.ret 0, []⟩, s.settle i { s.named i with refcount := (s.named i).refcount - 1 })

/-- `sem_unlink` -/
def semUnlink (s : State) (name : Option CString) : Output × State :=
  match name with
  | none => (.error .EINVAL, s)
  | some name =>
    match s.namedFindByName name with
    | none => (.error .ENOENT, s)
    | some i =>
      if (s.named i).unlinked then (.error .ENOENT, s) else (⟨.ret 0, []⟩,
        s.settle i { s.named i with unlinked := true })

/-! ### Waiting -/

/-- `p->ncnt++` or `p->zcnt++`, or with `-1` the other way -/
def count (s : State) (idx : Index) (zero : Bool) (n : BitVec 32) : State :=
  s.setPrimitive idx
    (if zero then { (s.slots idx).p with zcnt := (s.slots idx).p.zcnt + n }
      else { (s.slots idx).p with ncnt := (s.slots idx).p.ncnt + n })

/-- The call waits at a condition variable. -/
def await (s : State) (w : Waiting) : State := { s.count w.idx w.zero 1 with waiting := s.waiting ++ [w] }

/-- The waiting call `k` goes on. -/
def leave (s : State) (k : Nat) (w : Waiting) : State :=
  { s.count w.idx w.zero (-1) with waiting := s.waiting.eraseIdx k }

def setLastPid (s : State) (idx : Index) (pid : Int) : State :=
  s.setPrimitive idx { (s.slots idx).p with last_pid := pid }

/-- The loop of `__jacl_sem_wait_core` -/
def waitLoop (s : State) (idx : Index) (timed : Bool) : Output × State :=
  if (s.slots idx).p.value = 0 then (⟨.waits, []⟩, s.await ⟨idx, false, .wait timed⟩)
  else (⟨.ret 0, [.change idx (-1) false]⟩, s.setValue idx ((s.slots idx).p.value - 1))

/-- `__jacl_sem_wait_core` -/
def waitCore (pid : Int) (s : State) (sem : Option Int) (timed : Bool) : Output × State :=
  match s.resolve sem with
  | none => (.error .EINVAL, s)
  | some idx => (s.setLastPid idx pid).waitLoop idx timed

/-- `sem_wait` -/
def semWait (pid : Int) (s : State) (sem : Option Int) : Output × State := s.waitCore pid sem false

/-- `sem_timedwait` and `sem_clockwait`; of `abs_timeout` only `tv_nsec` is checked. -/
def semTimedwait (pid : Int) (s : State) (sem : Option Int) (abs_timeout : Option Int) : Output × State :=
  match abs_timeout with
  | none => (.error .EINVAL, s)
  | some tv_nsec => if tv_nsec < 0 ∨ tv_nsec ≥ 1000000000 then (.error .EINVAL, s) else s.waitCore pid sem true

/-- `sem_trywait` -/
def semTrywait (pid : Int) (s : State) (sem : Option Int) : Output × State :=
  match s.resolve sem with
  | none => (.error .EINVAL, s)
  | some idx =>
    let s := s.setLastPid idx pid
    if (s.slots idx).p.value = 0 then (.error .EAGAIN, s)
    else (⟨.ret 0, [.change idx (-1) false]⟩, s.setValue idx ((s.slots idx).p.value - 1))

/-- `sem_post` -/
def semPost (pid : Int) (s : State) (sem : Option Int) : Output × State :=
  match s.resolve sem with
  | none => (.error .EINVAL, s)
  | some idx =>
    let s := s.setLastPid idx pid
    (⟨.ret 0, [.change idx 1 false]⟩, s.setValue idx ((s.slots idx).p.value + 1))

/-- `sem_getvalue`; `sval` tells whether the pointer is not NULL. -/
def semGetvalue (s : State) (sem : Option Int) (sval : Bool) : Output × State :=
  match s.resolve sem with
  | none => (.error .EINVAL, s)
  | some idx => if !sval then (.error .EINVAL, s) else (⟨.ret (s.slots idx).p.value.toInt, []⟩, s)

/-! ### The undo log -/

def setUndo (s : State) (i : Fin JACL_SEM_UNDO_MAX) (u : Undo) : State := { s with undo := Function.update s.undo i u }

/-- The entry that `__jacl_sem_undo_add` finds: the process's own for the slot, else the first that is free. -/
def undoFind (s : State) (me : Int) (idx : Index) : Option (Fin JACL_SEM_UNDO_MAX) :=
  ((List.finRange JACL_SEM_UNDO_MAX).find? fun i => (s.undo i).pid == me && (s.undo i).slot_idx == some idx).or
    ((List.finRange JACL_SEM_UNDO_MAX).find? fun i => (s.undo i).pid == 0)

/-- `__jacl_sem_undo_add` -/
def undoAdd (me : Int) (s : State) (idx : Index) (op : Int) : State :=
  if op = 0 then s
  else
    match s.undoFind me idx with
    | none => s
    | some i => s.setUndo i ⟨me, some idx, (s.undo i).adjust + op⟩

/-! ### Sets -/

/-- `__jacl_sysv_find_by_key` -/
def sysvFindByKey (s : State) (key : Int) : Option (Fin JACL_SYSV_SEMSET_MAX) :=
  (List.finRange JACL_SYSV_SEMSET_MAX).find? fun k => (s.semsets k).active && (s.semsets k).key == key

/-- `__jacl_sysv_find_free` -/
def sysvFindFree (s : State) : Option (Fin JACL_SYSV_SEMSET_MAX) :=
  (List.finRange JACL_SYSV_SEMSET_MAX).find? fun k => !(s.semsets k).active

/-- The first `n` slots of the set are freed and the set is not in use any more. -/
def disband (s : State) (k : Fin JACL_SYSV_SEMSET_MAX) (n : Nat) : State :=
  let s := (List.range n).foldl (fun t i => t.slotFree ((s.semsets k).slot_indices i)) s
  s.setSemset k { s.semsets k with active := false }

/-- A turn of the loop of `semget` for the semaphore `i`, and `next` for the others; where a slot is missing, those
before go back. -/
def fillTurn (s : State) (k : Fin JACL_SYSV_SEMSET_MAX) (i : Nat) (next : State → List Index × Bool × State) :
    Option (Index × State) → List Index × Bool × State
  | none => ([], false, s.disband k i)
  | some (idx, s) =>
    let set := s.semsets k
    let r := next (s.setSemset k { set with slot_indices := Function.update set.slot_indices i idx })
    (idx :: r.1, r.2)

/-- The loop of `semget` from the semaphore `i` on, with `n` of them to go: the slots it took, and whether there were
enough. -/
def fill (s : State) (k : Fin JACL_SYSV_SEMSET_MAX) (i : Nat) : Nat → List Index × Bool × State
  | 0 => ([], true, s)
  | n + 1 => s.fillTurn k i (fun t => t.fill k (i + 1) n) (s.slotAlloc 0 false)

/-- `semget` -/
def semget (s : State) (key nsems : Int) (semflg : BitVec 32) : Output × State :=
  if nsems < 0 ∨ nsems > JACL_SYSV_MAX_SEMS then (.error .EINVAL, s)
  else
    match if key ≠ IPC_PRIVATE then s.sysvFindByKey key else none with
    | some k =>
      if semflg &&& IPC_CREAT ≠ 0 ∧ semflg &&& IPC_EXCL ≠ 0 then (.error .EEXIST, s) else (⟨.ret k.val, []⟩, s)
    | none =>
      if semflg &&& IPC_CREAT = 0 ∧ key ≠ IPC_PRIVATE then (.error .ENOENT, s)
      else
        match s.sysvFindFree with
        | none => (.error .ENOSPC, s)
        | some k =>
          let set := s.semsets k
          let r := (s.setSemset k ⟨true, key, nsems.toNat, set.slot_indices⟩).fill k 0 nsems.toNat
          (⟨if r.2.1 then .ret k.val else .error .ENOSPC, r.1.map fun idx => .made idx 0⟩, r.2.2)

/-- The slot of an operation. -/
def slotOf (s : State) (semid : Fin JACL_SYSV_SEMSET_MAX) (op : Sembuf) : Index :=
  (s.semsets semid).slot_indices op.sem_num.toNat

/-- `__jacl_sem_check_block`: where the vector would block, and whether it waits there for zero. -/
def checkBlock (s : State) (semid : Fin JACL_SYSV_SEMSET_MAX) (sops : List Sembuf) : Option (Index × Bool) :=
  sops.findSome? fun op =>
    let value := (s.slots (s.slotOf semid op)).p.value
    if op.sem_op.toInt < 0 ∧ value < BitVec.ofInt 32 (-op.sem_op.toInt) then some (s.slotOf semid op, false)
    else if op.sem_op.toInt = 0 ∧ value ≠ 0 then some (s.slotOf semid op, true)
    else none

/-- `__jacl_sem_has_nowait` -/
def hasNowait (sops : List Sembuf) : Bool := sops.any fun op => op.sem_flg &&& IPC_NOWAIT ≠ 0

/-- `op.sem_flg & SEM_UNDO` -/
def undone (op : Sembuf) : Bool := op.sem_flg &&& SEM_UNDO ≠ 0

/-- The loop of `__jacl_sem_apply_ops` -/
def applyOp (pid : Int) (semid : Fin JACL_SYSV_SEMSET_MAX) (s : State) (op : Sembuf) : State :=
  let idx := s.slotOf semid op
  let value := (s.slots idx).p.value
  let s :=
    if op.sem_op.toInt < 0 then s.setValue idx (value - BitVec.ofInt 32 (-op.sem_op.toInt))
    else if op.sem_op.toInt > 0 then s.setValue idx (value + BitVec.ofInt 32 op.sem_op.toInt)
    else s
  let s := if op.sem_op.toInt ≠ 0 ∧ undone op then s.undoAdd pid idx op.sem_op.toInt else s
  s.setLastPid idx pid

/-- `__jacl_sem_apply_ops` -/
def applyOps (pid : Int) (s : State) (semid : Fin JACL_SYSV_SEMSET_MAX) (sops : List Sembuf) : State :=
  sops.foldl (applyOp pid semid) s

/-- The loop of `semop`; where it waits it lets go of the locks first, and checks again when it is woken, as every
wait here does. -/
def opLoop (pid : Int) (s : State) (semid : Fin JACL_SYSV_SEMSET_MAX) (sops : List Sembuf) : Output × State :=
  match s.checkBlock semid sops with
  | some (idx, zero) =>
    if hasNowait sops then (.error .EAGAIN, s) else (⟨.waits, []⟩, s.await ⟨idx, zero, .op semid sops⟩)
  | none =>
    (⟨.ret 0, sops.map fun op => .change (s.slotOf semid op) op.sem_op.toInt (undone op)⟩, s.applyOps pid semid sops)

/-- A set in use. -/
def semset (s : State) (semid : Int) : Option (Fin JACL_SYSV_SEMSET_MAX) :=
  if h : 0 ≤ semid ∧ semid < JACL_SYSV_SEMSET_MAX then
    let k : Fin JACL_SYSV_SEMSET_MAX := ⟨semid.toNat, by omega⟩
    if (s.semsets k).active then some k else none
  else none

/-- `semop` of a vector, or of NULL -/
def semop (pid : Int) (s : State) (semid : Int) (sops : Option (List Sembuf)) : Output × State :=
  match s.semset semid, sops with
  | none, _ => (.error .EINVAL, s)
  | _, none => (.error .EINVAL, s)
  | some k, some sops =>
    if sops = [] then (.error .EINVAL, s)
    else if sops.any fun op => op.sem_num.toNat ≥ (s.semsets k).sem_nsems then (.error .EFBIG, s)
    else if sops.length > JACL_SYSV_MAX_SEMS then (⟨.overrun, []⟩, s)
    else s.opLoop pid k sops

/-! ### Control -/

end State

/-- The commands of `semctl` with their argument; `array` of `GETALL` tells whether the pointer is not NULL. -/
inductive Command
  | rmid
  | getval
  | setval (val : BitVec 32)
  | getall (array : Bool)
  | setall (array : Option (Nat → BitVec 16))
  | getpid
  | getncnt
  | getzcnt
  | other

namespace State

/-- `__jacl_semctl_setall` -/
def semctlSetall (s : State) (k : Fin JACL_SYSV_SEMSET_MAX) (array : Nat → BitVec 16) : State :=
  (List.range (s.semsets k).sem_nsems).foldl (fun t i => t.setValue ((s.semsets k).slot_indices i)
    ((array i).setWidth 32)) s

/-- The semaphore `semnum` of a set. -/
def member (s : State) (k : Fin JACL_SYSV_SEMSET_MAX) (semnum : Int) : Option Index :=
  if semnum < 0 ∨ semnum ≥ (s.semsets k).sem_nsems then none else some ((s.semsets k).slot_indices semnum.toNat)

/-- `__jacl_semctl_getval` and `__jacl_semctl_getinfo` -/
def semctlGet (s : State) (k : Fin JACL_SYSV_SEMSET_MAX) (semnum : Int) (info : Primitive → Int) : Output × State :=
  match s.member k semnum with
  | none => (.error .EINVAL, s)
  | some idx => (⟨.ret (info (s.slots idx).p), []⟩, s)

/-- `semctl`, less `IPC_STAT` and `IPC_SET` -/
def semctl (s : State) (semid semnum : Int) (cmd : Command) : Output × State :=
  match s.semset semid with
  | none => (.error .EINVAL, s)
  | some k =>
    match cmd with
    | .rmid => (⟨.ret 0, []⟩, s.disband k (s.semsets k).sem_nsems)
    | .getval => s.semctlGet k semnum fun p => p.value.toInt
    | .setval val =>
      match s.member k semnum with
      | none => (.error .EINVAL, s)
      | some idx => (⟨.ret 0, [.set idx val]⟩, s.setValue idx val)
    | .getall array =>
      if !array then (.error .EFAULT, s)
      else
        (⟨.array ((List.range (s.semsets k).sem_nsems).map fun i =>
          (s.slots ((s.semsets k).slot_indices i)).p.value.setWidth 16), []⟩, s)
    | .setall none => (.error .EFAULT, s)
    | .setall (some array) =>
      (⟨.ret 0, (List.range (s.semsets k).sem_nsems).map fun i =>
        .set ((s.semsets k).slot_indices i) ((array i).setWidth 32)⟩, s.semctlSetall k array)
    | .getpid => s.semctlGet k semnum fun p => p.last_pid
    | .getncnt => s.semctlGet k semnum fun p => p.ncnt.toInt
    | .getzcnt => s.semctlGet k semnum fun p => p.zcnt.toInt
    | .other => (.error .EINVAL, s)

/-! ### Runs -/

/-- The waiting call `k` is woken. -/
def wake (pid : Int) (s : State) (k : Nat) : Output × State :=
  match s.waiting[k]? with
  | none => (⟨.waits, []⟩, s)
  | some w =>
    match w.request with
    | .wait timed => (s.leave k w).waitLoop w.idx timed
    | .op semid sops => (s.leave k w).opLoop pid semid sops

/-- `pthread_cond_timedwait` answers `ETIMEDOUT` to the waiting call `k`. -/
def timeout (s : State) (k : Nat) : Output × State :=
  match s.waiting[k]? with
  | none => (⟨.waits, []⟩, s)
  | some w =>
    match w.request with
    | .wait true => (.error .ETIMEDOUT, s.leave k w)
    | _ => (⟨.waits, []⟩, s)

end State

inductive Call
  | init (sem : Bool) (value : BitVec 32)
  | destroy (sem : Option Int)
  | open (name : Option CString) (oflag : BitVec 32) (value : BitVec 32)
  | close (sem : Int)
  | unlink (name : Option CString)
  | wait (sem : Option Int)
  | timedwait (sem : Option Int) (abs_timeout : Option Int)
  | trywait (sem : Option Int)
  | post (sem : Option Int)
  | getvalue (sem : Option Int) (sval : Bool)
  | semget (key nsems : Int) (semflg : BitVec 32)
  | semop (semid : Int) (sops : Option (List Sembuf))
  | semctl (semid semnum : Int) (cmd : Command)
  | wake (k : Nat)
  | timeout (k : Nat)

def step (pid : Int) (s : State) : Call → Output × State
  | .init sem value => s.semInit sem value
  | .destroy sem => s.semDestroy sem
  | .open name oflag value => s.semOpen name oflag value
  | .close sem => s.semClose sem
  | .unlink name => s.semUnlink name
  | .wait sem => s.semWait pid sem
  | .timedwait sem abs_timeout => s.semTimedwait pid sem abs_timeout
  | .trywait sem => s.semTrywait pid sem
  | .post sem => s.semPost pid sem
  | .getvalue sem sval => s.semGetvalue sem sval
  | .semget key nsems semflg => s.semget key nsems semflg
  | .semop semid sops => s.semop pid semid sops
  | .semctl semid semnum cmd => s.semctl semid semnum cmd
  | .wake k => s.wake pid k
  | .timeout k => s.timeout k

end JACLibc.Sem
