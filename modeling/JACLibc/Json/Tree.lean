import JACLibc.Lib.Run
import Mathlib.Logic.Function.Basic

/-!
# The nodes of `core/jsio.h`

A `jsio_t` has a list of children, threaded from `first` through `next`, and points back with `parent`.  The heap maps
the addresses of the nodes that are allocated to their fields, 0 is `NULL`, and `top` lies above every node there has
been; it bounds the walks along the lists.  A function is `none` where the code reads or writes through a pointer to
no node, or does not come to an end.

`js_notify` does nothing outside the JavaScript runtime, and `JS_PUBLIC_ROOT` is `NULL`.  Keys and values play no part.
-/

namespace JACLibc.Json

inductive JsType
  | null | array | boolean | string | number | object | function
  deriving DecidableEq, Repr

/-- `jsio_t` -/
structure Node where
  type : JsType
  length : Nat
  next : Nat
  first : Nat
  parent : Nat
  deriving DecidableEq, Repr

structure Heap where
  node : Nat → Option Node
  top : Nat

namespace Heap

def empty : Heap := ⟨fun _ => none, 0⟩

/-- A store into the node at `x`. -/
def modify (h : Heap) (x : Nat) (f : Node → Node) : Option Heap :=
  (h.node x).map fun n => { h with node := Function.update h.node x (some (f n)) }

def setNext (h : Heap) (x v : Nat) : Option Heap := h.modify x fun n => { n with next := v }

def setFirst (h : Heap) (x v : Nat) : Option Heap := h.modify x fun n => { n with first := v }

def setParent (h : Heap) (x v : Nat) : Option Heap := h.modify x fun n => { n with parent := v }

/-- `x->length++` -/
def incLength (h : Heap) (x : Nat) : Option Heap := h.modify x fun n => { n with length := n.length + 1 }

/-- `x->length--` -/
def decLength (h : Heap) (x : Nat) : Option Heap := h.modify x fun n => { n with length := n.length - 1 }

/-- `free(x)` -/
def free (h : Heap) (x : Nat) : Option Heap :=
  (h.node x).map fun _ => { h with node := Function.update h.node x none }

end Heap

/-- `js_create`, where `malloc` answers `x`. -/
def jsCreate (h : Heap) (type : JsType) (x : Nat) : Heap :=
  if x = 0 then h else ⟨Function.update h.node x (some ⟨type, 0, 0, 0, 0⟩), max h.top (x + 1)⟩

/-- `while (q->next) q = q->next;` -/
def last (h : Heap) : Nat → Nat → Option Nat
  | 0, _ => none
  | fuel + 1, q => do
    let n ← h.node q
    if n.next = 0 then some q else last h fuel n.next

/-- `js_attach` -/
def jsAttach (h : Heap) (c p : Nat) : Option Heap :=
  if c = 0 ∨ p = 0 then some h
  else do
    let h ← h.setParent c p
    let np ← h.node p
    let h ←
      if np.first = 0 then h.setFirst p c
      else do
        let q ← last h h.top np.first
        h.setNext q c
    h.incLength p

/-- `while (curr && curr != c) { prev = curr; curr = curr->next; }` -/
def find (h : Heap) (c : Nat) : Nat → Nat → Nat → Option (Nat × Nat)
  | 0, _, _ => none
  | fuel + 1, prev, curr =>
    if curr ≠ 0 ∧ curr ≠ c then do
      let n ← h.node curr
      find h c fuel curr n.next
    else some (prev, curr)

/-- `js_detach` -/
def jsDetach (h : Heap) (c : Nat) : Option Heap :=
  if c = 0 then some h
  else do
    let nc ← h.node c
    if nc.parent = 0 then some h
    else do
      let np ← h.node nc.parent
      let (prev, curr) ← find h c (h.top + 1) 0 np.first
      let h ←
        if curr = c then do
          let h ← if prev ≠ 0 then h.setNext prev nc.next else h.setFirst nc.parent nc.next
          h.decLength nc.parent
        else some h
      let h ← h.setNext c 0
      h.setParent c 0

mutual

/-- `js_delete` -/
def jsDelete : Nat → Heap → Nat → Option Heap
  | 0, _, _ => none
  | fuel + 1, h, x =>
    if x = 0 then some h
    else do
      let h ← jsDetach h x
      let nx ← h.node x
      let h ← deleteAll fuel h nx.first
      h.free x

/-- `for (c = x->first; c; c = t) { t = c->next; js_delete(c); }` -/
def deleteAll : Nat → Heap → Nat → Option Heap
  | 0, _, _ => none
  | fuel + 1, h, c =>
    if c = 0 then some h
    else do
      let nc ← h.node c
      let h ← jsDelete fuel h c
      deleteAll fuel h nc.next

end

/-- Calls and turns enough to delete every node. -/
def deleteFuel (h : Heap) : Nat := 2 * h.top + 2

/-- `while (p && p->next != o) p = p->next;` -/
def before (h : Heap) (o : Nat) : Nat → Nat → Option Nat
  | 0, _ => none
  | fuel + 1, p =>
    if p = 0 then some 0
    else do
      let n ← h.node p
      if n.next ≠ o then before h o fuel n.next else some p

/-- `js_replace` -/
def jsReplace (h : Heap) (o n : Nat) : Option Heap :=
  if o = 0 ∨ n = 0 then some h
  else do
    let no ← h.node o
    let h ← h.setNext n no.next
    let no ← h.node o
    let h ← h.setParent n no.parent
    let nn ← h.node n
    let h ←
      if nn.parent = 0 then some h
      else do
        let np ← h.node nn.parent
        if np.first = o then h.setFirst nn.parent n
        else do
          let p ← before h o (h.top + 1) np.first
          if p ≠ 0 then h.setNext p n else some h
    let h ← h.setNext o 0
    let h ← h.setParent o 0
    jsDelete (deleteFuel h) h o

/-- `js_push` -/
def jsPush (h : Heap) (a v : Nat) : Option Heap :=
  if a = 0 then some h
  else do
    let na ← h.node a
    if na.type = .array then jsAttach h v a else some h

/-- `while (c->next) { p = c; c = c->next; }` -/
def lastTwo (h : Heap) : Nat → Nat → Nat → Option (Nat × Nat)
  | 0, _, _ => none
  | fuel + 1, p, c => do
    let n ← h.node c
    if n.next = 0 then some (p, c) else lastTwo h fuel c n.next

/-- `js_pop` -/
def jsPop (h : Heap) (a : Nat) : Option (Nat × Heap) :=
  if a = 0 then some (0, h)
  else do
    let na ← h.node a
    if na.type ≠ .array ∨ na.first = 0 then some (0, h)
    else do
      let (p, c) ← lastTwo h h.top 0 na.first
      let h ← if p ≠ 0 then h.setNext p 0 else h.setFirst a 0
      let h ← h.setNext c 0
      let h ← h.setParent c 0
      let h ← h.decLength a
      some (c, h)

/-- `js_unshift` -/
def jsUnshift (h : Heap) (a v : Nat) : Option Heap :=
  if a = 0 then some h
  else do
    let na ← h.node a
    if na.type = .array then do
      let h ← h.setNext v na.first
      let h ← h.setParent v a
      let h ← h.setFirst a v
      h.incLength a
    else some h

/-- `js_shift` -/
def jsShift (h : Heap) (a : Nat) : Option (Nat × Heap) :=
  if a = 0 then some (0, h)
  else do
    let na ← h.node a
    if na.type ≠ .array ∨ na.first = 0 then some (0, h)
    else do
      let nc ← h.node na.first
      let h ← h.setFirst a nc.next
      let h ← h.setNext na.first 0
      let h ← h.setParent na.first 0
      let h ← h.decLength a
      some (na.first, h)

/-- The calls of a program; `create` says which address `malloc` answers. -/
inductive Op
  | create (type : JsType) (x : Nat)
  | attach (c p : Nat)
  | detach (c : Nat)
  | replace (o n : Nat)
  | delete (x : Nat)
  | push (a v : Nat)
  | pop (a : Nat)
  | unshift (a v : Nat)
  | shift (a : Nat)

/-- The pointer a call answers, 0 for the functions without an answer, and the heap after it. -/
def exec (h : Heap) : Op → Option (Nat × Heap)
  | .create type x => some (x, jsCreate h type x)
  | .attach c p => (jsAttach h c p).map (0, ·)
  | .detach c => (jsDetach h c).map (0, ·)
  | .replace o n => (jsReplace h o n).map (0, ·)
  | .delete x => (jsDelete (deleteFuel h) h x).map (0, ·)
  | .push a v => (jsPush h a v).map (0, ·)
  | .pop a => jsPop h a
  | .unshift a v => (jsUnshift h a v).map (0, ·)
  | .shift a => jsShift h a

/-- One call of a run: its answer, if there is one, and the heap after it. -/
def step (h : Heap) (op : Op) : Option Nat × Heap :=
  match exec h op with
  | some (r, h) => (some r, h)
  | none => (none, h)

end JACLibc.Json
