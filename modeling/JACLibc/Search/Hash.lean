import JACLibc.CString
import JACLibc.Lib.Run

/-!
# The hash table of `search.h`

`hcreate`, `hdestroy` and `hsearch`: one global table with open addressing.  The two statics `__jacl_h_tbl` and
`__jacl_h_cap` are the fields of `HTable`; an `ENTRY` with a NULL key is an empty cell (`none`), as `calloc` leaves
it.
-/

namespace JACLibc

inductive ACTION where
  | FIND
  | ENTER
  deriving DecidableEq, Repr

/-- An `ENTRY` with a non-NULL key; `data` is an opaque pointer. -/
structure ENTRY (D : Type*) where
  key : CString
  data : D
  deriving DecidableEq

/-- The statics `__jacl_h_tbl` and `__jacl_h_cap`. -/
structure HTable (D : Type*) where
  tbl : Option (List (Option (ENTRY D)))
  cap : Nat

variable {D : Type*}

/-- `hcreate`; `calloced` tells whether `calloc` returned memory. -/
def hcreate (calloced : Bool) (nel : Nat) (t : HTable D) : Int × HTable D :=
  if t.tbl.isSome then (0, t)
  else
    let cap := if nel > 0 then nel else 64
    if calloced then (1, ⟨some (List.replicate cap none), cap⟩) else (0, ⟨none, cap⟩)

def hdestroy (_ : HTable D) : HTable D := ⟨none, 0⟩

/-- `h = ((h << 5) + h) + *s`, in `unsigned long`; the `char` is sign-extended. -/
def hashStep (h : BitVec 64) (s : UInt8) : BitVec 64 := ((h <<< 5) + h) + s.toBitVec.signExtend 64

def hashKey (key : CString) : Nat := (key.bytes.foldl hashStep 5381).toNat

/-- How the probing loop of `hsearch` ends. -/
inductive Probe where
  /-- the cell `idx` has a NULL key -/
  | vacant (idx : Nat)
  /-- the cell `idx` has the key looked for -/
  | hit (idx : Nat)
  /-- the loop came back to its first cell -/
  | full
  deriving DecidableEq, Repr

/-- The cell `__jacl_h_tbl[idx]`. -/
def cell (slots : List (Option (ENTRY D))) (idx : Nat) : Option (ENTRY D) := slots[idx]?.join

/-- The do-while loop of `hsearch`; `none` when it has not ended after `fuel` rounds. -/
def probe (slots : List (Option (ENTRY D))) (cap : Nat) (key : CString) (start : Nat) : Nat → Nat → Option Probe
  | 0, _ => none
  | fuel + 1, idx =>
    match cell slots idx with
    | none => some (.vacant idx)
    | some e =>
      if strcmp e.key.bytes key.bytes = 0 then some (.hit idx)
      else if (idx + 1) % cap ≠ start then probe slots cap key start fuel ((idx + 1) % cap)
      else some .full

/-- `hsearch`.  The answer is the index of the returned cell or the error number; `none` would be a call that does
not return. -/
def hsearch (t : HTable D) (key : Option CString) (data : D) (action : ACTION) :
    Option (Except Errno Nat) × HTable D :=
  match t.tbl, key with
  | some slots, some key =>
    let start := hashKey key % t.cap
    match probe slots t.cap key start t.cap start with
    | none => (none, t)
    | some (.vacant idx) =>
      if action = .ENTER then (some (.ok idx), { t with tbl := some (slots.set idx (some ⟨key, data⟩)) })
      else (some (.error .ESRCH), t)
    | some (.hit idx) =>
      if action = .ENTER then
        (some (.ok idx), { t with tbl := some (slots.modify idx (Option.map fun e => { e with data := data })) })
      else (some (.ok idx), t)
    | some .full => (some (.error .ENOSPC), t)
  | _, _ => (some (.error .EINVAL), t)

/-- The entry an index returned by `hsearch` points at. -/
def HTable.entryAt (t : HTable D) (idx : Nat) : Option (ENTRY D) := t.tbl.bind fun slots => cell slots idx

/-- One call of `hsearch` with a non-NULL key. -/
structure HCall (D : Type*) where
  key : CString
  data : D
  action : ACTION

def hstep (t : HTable D) (c : HCall D) : Option (Except Errno Nat) × HTable D :=
  hsearch t (some c.key) c.data c.action

end JACLibc
