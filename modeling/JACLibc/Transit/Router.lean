import JACLibc.Lib.Linked
import JACLibc.Transit.Route
import Mathlib.Data.List.GetD

/-!
# The router

`route_add` appends a node to the list of routes, `route_remove` takes all nodes of a pattern and a handler out in one
pass, and `route_forward` goes through the list and calls the handlers of the routes that match.  A node is a block of
memory, and a pointer to no block in use cannot be read.  Along every sequence of calls the nodes hold the routes that
were added and not removed, in the order in which they were added, and `last` points at the final one (`router_list`);
from there `route_forward` calls the handlers that match up to the first that does not answer 0, unless more than
`ROUTE_FORWARD_MAX` forwards came before.
-/

namespace JACLibc.Route

/-- `route_t`; a handler is the address of its function. -/
structure Node where
  pattern : CString
  handler : Nat
  next : Nat

/-- The blocks in use. -/
abbrev Mem := Nat → Option Node

/-- An answer of `calloc`: NULL, or a block that is not in use. -/
structure Calloc where
  block : Mem → Nat
  fresh : ∀ mem, block mem = 0 ∨ mem (block mem) = none

/-- `struct router` beside the memory; the number of blocks in use bounds the turns of the loops. -/
structure Router where
  mem : Mem
  blocks : Nat
  routes : Nat
  last : Nat

namespace Router

variable (r : Router)

/-- The block at an address. -/
def node (a : Nat) : Except Fault Node :=
  match r.mem a with
  | some n => .ok n
  | none => .error .read

/-- `a->next = next` -/
def setNext (a next : Nat) : Except Fault Router := do
  let n ← r.node a
  return { r with mem := Function.update r.mem a (some { n with next }) }

/-- The block `a` is in use, with `n` in it. -/
def alloc (a : Nat) (n : Node) : Router := { r with mem := Function.update r.mem a (some n), blocks := r.blocks + 1 }

def free (a : Nat) : Router := { r with mem := Function.update r.mem a none, blocks := r.blocks - 1 }

/-- `router_create`, of the list. -/
def empty : Router := ⟨fun _ => none, 0, 0, 0⟩

end Router

/-- `route_add` on a router that is not NULL. -/
def routeAdd (r : Router) (pattern : Option CString) (handler : Nat) (calloc : Calloc) : Except Fault (Int × Router) :=
  match pattern with
  | none => .ok (-1, r)
  | some pattern =>
    if handler = 0 then .ok (-1, r)
    else
      let route := calloc.block r.mem
      if route = 0 then .ok (-1, r)
      else
        let r := r.alloc route ⟨pattern, handler, 0⟩
        if r.routes = 0 then .ok (0, { r with routes := route, last := route })
        else do
          let r ← r.setNext r.last route
          return (0, { r with last := route })

/-- `if (prev) prev->next = next; else r->routes = next;` -/
def linkOver (r : Router) (prev next : Nat) : Except Fault Router :=
  if prev ≠ 0 then r.setNext prev next else .ok { r with routes := next }

/-- What the loop of `route_remove` does with a node that is to go. -/
def removeNode (r : Router) (prev cur next : Nat) : Except Fault Router := do
  let r ← linkOver r prev next
  return (if r.last = cur then { r with last := prev } else r).free cur

/-- `while (cur)` in `route_remove` -/
def removeLoop (pattern : CString) (handler : Nat) : Nat → Router → Nat → Nat → Int → Except Fault (Int × Router)
  | 0, r, cur, _, deleted => if cur = 0 then .ok (deleted, r) else .error .turns
  | turns + 1, r, cur, prev, deleted =>
    if cur = 0 then .ok (deleted, r)
    else do
      let n ← r.node cur
      if strcmp n.pattern.bytes pattern.bytes = 0 ∧ n.handler = handler then
        let r ← removeNode r prev cur n.next
        removeLoop pattern handler turns r n.next prev (wrapInt (deleted + 1))
      else removeLoop pattern handler turns r n.next cur deleted

/-- `route_remove` on a router that is not NULL. -/
def routeRemove (r : Router) (pattern : Option CString) (handler : Nat) : Except Fault (Int × Router) :=
  match pattern with
  | none => .ok (-1, r)
  | some pattern => if handler = 0 then .ok (-1, r) else removeLoop pattern handler r.blocks r r.routes 0 0

def ROUTE_MATCH_MAX : Nat := 16

def ROUTE_FORWARD_MAX : Int := 16

/-- A call of a handler. -/
structure Invocation where
  handler : Nat
  argv : List Nat
  argc : Int

/-- What comes of `route_forward`: the answer, what the handlers leave of the world, and the calls of handlers. -/
structure Outcome (σ : Type) where
  ret : Int
  world : σ
  calls : List Invocation

section Forward

variable {σ : Type} (ovf : Int → Option Int) (spec : Spec) (call : σ → Invocation → Int × σ)

/-- `while (cur)` in `route_forward` -/
def forwardLoop (r : Router) (path : CString) : Nat → Nat → Int → σ → Except Fault (Outcome σ)
  | 0, cur, matched, w => if cur = 0 then .ok ⟨if matched > 0 then 0 else -1, w, []⟩ else .error .turns
  | turns + 1, cur, matched, w =>
    if cur = 0 then .ok ⟨if matched > 0 then 0 else -1, w, []⟩
    else do
      let n ← r.node cur
      let (argc, argv) ← routeMatch ovf path n.pattern spec ROUTE_MATCH_MAX
      if argc > 0 then
        let (result, w) := call w ⟨n.handler, argv, argc⟩
        if result ≠ 0 then return ⟨result, w, [⟨n.handler, argv, argc⟩]⟩
        let out ← forwardLoop r path turns n.next (wrapInt (matched + 1)) w
        return { out with calls := ⟨n.handler, argv, argc⟩ :: out.calls }
      else forwardLoop r path turns n.next matched w

/-- `route_forward` with a context that is not NULL, whose `hops` are given, and a router in it; the answer comes with
the new `hops`. -/
def routeForward (r : Router) (hops : Int) (path : Option CString) (w : σ) : Except Fault (Int × Outcome σ) :=
  match path with
  | none => .ok (hops, ⟨-1, w, []⟩)
  | some path =>
    if hops > ROUTE_FORWARD_MAX then .ok (wrapInt (hops + 1), ⟨0, w, []⟩)
    else do return (wrapInt (hops + 1), ← forwardLoop ovf spec call r path r.blocks r.routes 0 w)

end Forward

/-! ### What the list is for -/

/-- A route, as it was added. -/
structure Entry where
  pattern : CString
  handler : Nat
  deriving DecidableEq

/-- The calls that change the list. -/
inductive Op
  | add (pattern : Option CString) (handler : Nat) (calloc : Calloc)
  | remove (pattern : Option CString) (handler : Nat)

def step (r : Router) : Op → Except Fault (Int × Router)
  | .add pattern handler calloc => routeAdd r pattern handler calloc
  | .remove pattern handler => routeRemove r pattern handler

/-- The routes and the answer of the call before: an answer 0 adds the route. -/
def Op.apply (l : List Entry) (answer : Int) : Op → List Entry
  | .add (some pattern) handler _ => if answer = 0 then l ++ [⟨pattern, handler⟩] else l
  | .remove (some pattern) handler => if handler = 0 then l else l.filter (· ≠ ⟨pattern, handler⟩)
  | _ => l

/-- The calls of a run with their answers, and the router behind it. -/
def run : Router → List Op → Except Fault (List (Op × Int) × Router)
  | r, [] => .ok ([], r)
  | r, op :: ops => do
    let (answer, r) ← step r op
    let (trace, r) ← run r ops
    return ((op, answer) :: trace, r)

/-- The routes that were added and not removed, in the order in which they were added. -/
def listed (l : List Entry) (trace : List (Op × Int)) : List Entry := trace.foldl (fun l x => x.1.apply l x.2) l

namespace Router

variable (r : Router)

/-- `a->next`, where `a` is in use -/
def link (a : Nat) : Nat := (r.mem a).elim 0 Node.next

/-- What a node holds. -/
def entry (a : Nat) : Option Entry := (r.mem a).map fun n => ⟨n.pattern, n.handler⟩

/-- The nodes at these addresses, linked in this order from `routes` on and different from one another, hold the
routes, and `last` points at the final one. -/
structure Holds (nodes : List Nat) (l : List Entry) : Prop where
  chain : Linked.Chain r.link r.routes nodes
  distinct : nodes.Nodup
  last : r.last = nodes.getLastD 0
  entries : nodes.map r.entry = l.map some
  blocks : r.blocks = nodes.length

variable {r}

theorem node_eq {a : Nat} {e : Entry} (h : r.entry a = some e) : r.node a = .ok ⟨e.pattern, e.handler, r.link a⟩ := by
  unfold entry at h
  obtain ⟨n, hn, rfl⟩ := Option.map_eq_some_iff.1 h
  rw [node, link, hn]
  rfl

/-- A store of a link changes the link only. -/
theorem setNext_eq {a : Nat} {e : Entry} (h : r.entry a = some e) (next : Nat) : ∃ r', r.setNext a next = .ok r' ∧
    r'.link = Function.update r.link a next ∧ r'.entry = r.entry ∧ r'.routes = r.routes ∧ r'.last = r.last ∧
    r'.blocks = r.blocks := by
  refine ⟨{ r with mem := Function.update r.mem a (some ⟨e.pattern, e.handler, next⟩) }, ?_, ?_, ?_, rfl, rfl, rfl⟩
  · rw [setNext, node_eq h]
    rfl
  · funext b
    by_cases hb : b = a
    · subst hb
      simp [link]
    · simp [link, hb]
  · funext b
    by_cases hb : b = a
    · subst hb
      rw [h]
      simp [entry]
    · simp [entry, hb]

theorem alloc_link (a : Nat) (n : Node) : (r.alloc a n).link = Function.update r.link a n.next := by
  funext b
  by_cases hb : b = a
  · subst hb
    simp [link, alloc]
  · simp [link, alloc, hb]

theorem alloc_entry (a : Nat) (n : Node) :
    (r.alloc a n).entry = Function.update r.entry a (some ⟨n.pattern, n.handler⟩) := by
  funext b
  by_cases hb : b = a
  · subst hb
    simp [entry, alloc]
  · simp [entry, alloc, hb]

theorem free_link (a : Nat) : (r.free a).link = Function.update r.link a 0 := by
  funext b
  by_cases hb : b = a
  · subst hb
    simp [link, free]
  · simp [link, free, hb]

theorem free_entry (a : Nat) : (r.free a).entry = Function.update r.entry a none := by
  funext b
  by_cases hb : b = a
  · subst hb
    simp [entry, free]
  · simp [entry, free, hb]

theorem Holds.entry_mem {nodes : List Nat} {l : List Entry} (h : r.Holds nodes l) {a : Nat} (ha : a ∈ nodes) :
    ∃ e, r.entry a = some e := by
  have hmem : r.entry a ∈ l.map some := h.entries ▸ List.mem_map_of_mem ha
  obtain ⟨e, -, he⟩ := List.mem_map.1 hmem
  exact ⟨e, he.symm⟩

/-- A block that is not in use is no node. -/
theorem Holds.not_mem {nodes : List Nat} {l : List Entry} (h : r.Holds nodes l) {a : Nat} (ha : r.mem a = none) :
    a ∉ nodes := by
  intro hmem
  obtain ⟨e, he⟩ := h.entry_mem hmem
  rw [entry, ha] at he
  cases he

/-- A node behind the final one. -/
theorem Holds.append {nodes : List Nat} {l : List Entry} (h : r.Holds nodes l) (r' : Router) {route : Nat}
    (hnot : route ∉ nodes) (hchain : Linked.Chain r'.link r'.routes (nodes ++ [route]))
    (hkeep : ∀ a ∈ nodes, r'.entry a = r.entry a) {e : Entry} (hnew : r'.entry route = some e)
    (hlast : r'.last = route) (hblocks : r'.blocks = r.blocks + 1) :
    r'.Holds (nodes ++ [route]) (l ++ [e]) where
  chain := hchain
  distinct := by
    rw [List.nodup_append]
    refine ⟨h.distinct, List.nodup_singleton _, ?_⟩
    rintro a ha b hb rfl
    exact hnot (List.mem_singleton.1 hb ▸ ha)
  last := by simp [hlast]
  entries := by
    rw [List.map_append, List.map_append, List.map_congr_left hkeep, h.entries]
    simp [hnew]
  blocks := by rw [hblocks, h.blocks, List.length_append, List.length_singleton]

theorem empty_holds : empty.Holds [] [] := ⟨rfl, List.nodup_nil, rfl, rfl, rfl⟩

end Router

/-! ### Adding -/

theorem routeAdd_holds {r : Router} {nodes : List Nat} {l : List Entry} (h : r.Holds nodes l)
    (pattern : Option CString) (handler : Nat) (calloc : Calloc) :
    ∃ answer r' nodes', routeAdd r pattern handler calloc = .ok (answer, r') ∧
      r'.Holds nodes' ((Op.add pattern handler calloc).apply l answer) := by
  have refused : ∀ p : Option CString, r.Holds nodes ((Op.add p handler calloc).apply l (-1)) := by
    intro p
    cases p <;> exact h
  cases pattern with
  | none => exact ⟨-1, r, nodes, rfl, refused none⟩
  | some pattern =>
    rw [routeAdd]
    by_cases hh : handler = 0
    · exact ⟨-1, r, nodes, if_pos hh, refused _⟩
    rw [if_neg hh]
    by_cases h0 : calloc.block r.mem = 0
    · exact ⟨-1, r, nodes, if_pos h0, refused _⟩
    simp only [if_neg h0]
    have hnot := h.not_mem ((calloc.fresh r.mem).resolve_left h0)
    generalize calloc.block r.mem = route at h0 hnot ⊢
    have hkeep : ∀ a ∈ nodes, (r.alloc route ⟨pattern, handler, 0⟩).entry a = r.entry a := by
      intro a ha
      have hne : a ≠ route := fun e => hnot (e ▸ ha)
      rw [Router.alloc_entry, Function.update_of_ne hne]
    have hnew : (r.alloc route ⟨pattern, handler, 0⟩).entry route = some ⟨pattern, handler⟩ := by
      rw [Router.alloc_entry, Function.update_self]
    have hend : (r.alloc route ⟨pattern, handler, 0⟩).link route = 0 := by
      rw [Router.alloc_link, Function.update_self]
    by_cases hroutes : r.routes = 0
    · have hnodes : nodes = [] := by
        cases nodes with
        | nil => rfl
        | cons a nodes => exact absurd (h.chain.1.symm.trans hroutes) h.chain.2.1
      subst hnodes
      let r' : Router := { r.alloc route ⟨pattern, handler, 0⟩ with routes := route, last := route }
      exact ⟨0, r', [] ++ [route], if_pos hroutes, h.append r' hnot ⟨rfl, h0, hend⟩ hkeep hnew rfl rfl⟩
    · have hne : nodes ≠ [] := by
        rintro rfl
        exact hroutes h.chain
      obtain ⟨ys, y, rfl⟩ : ∃ ys y, nodes = ys ++ [y] := ⟨_, _, (List.dropLast_append_getLast hne).symm⟩
      have hy : y ∈ ys ++ [y] := by simp
      have hys : y ∉ ys := fun hmem => (List.nodup_append.1 h.distinct).2.2 y hmem y (by simp) rfl
      have hyr : y ∉ [route] := by
        rintro hmem
        exact hnot (List.mem_singleton.1 hmem ▸ hy)
      have hlast : r.last = y := by
        rw [h.last]
        simp
      obtain ⟨e, he⟩ := h.entry_mem hy
      obtain ⟨r₂, hset, hlink₂, hentry₂, hroutes₂, -, hblocks₂⟩ := Router.setNext_eq ((hkeep y hy).trans he) route
      refine ⟨0, { r₂ with last := route }, (ys ++ [y]) ++ [route], ?_, ?_⟩
      · change (if r.routes = 0 then _ else
          (r.alloc route ⟨pattern, handler, 0⟩).setNext r.last route >>= fun r =>
            pure ((0 : Int), { r with last := route })) = _
        rw [if_neg hroutes, hlast, hset]
        rfl
      refine h.append { r₂ with last := route } hnot ?_ (fun a ha => (congrFun hentry₂ a).trans (hkeep a ha))
        ((congrFun hentry₂ route).trans hnew) rfl hblocks₂
      change Linked.Chain r₂.link r₂.routes ((ys ++ [y]) ++ [route])
      rw [hlink₂, hroutes₂, Router.alloc_link, List.append_assoc]
      refine Linked.Chain.redirect (h.chain.update hnot 0) hys ⟨rfl, h0, ?_⟩ hyr
      exact Function.update_self _ _ _

/-! ### Removing -/

theorem getLastD_append_cons (ks : List Nat) (x : Nat) (xs : List Nat) (d : Nat) :
    (ks ++ x :: xs).getLastD d = (x :: xs).getLast (by simp) := by
  rw [List.getLastD_eq_getLast?, List.getLast?_eq_some_getLast (by simp), Option.getD_some,
    List.getLast_append_of_ne_nil]

theorem Router.Holds.split {r : Router} {ks rs : List Nat} {a : Nat} {lk lr : List Entry} {e : Entry}
    (h : r.Holds (ks ++ a :: rs) (lk ++ e :: lr)) (hlen : ks.length = lk.length) :
    ks.map r.entry = lk.map some ∧ r.entry a = some e ∧ rs.map r.entry = lr.map some := by
  have hmap := h.entries
  rw [List.map_append, List.map_append, List.map_cons, List.map_cons] at hmap
  obtain ⟨hk, htail⟩ := List.append_inj hmap (by simpa using hlen)
  obtain ⟨ha, hr⟩ := List.cons.inj htail
  exact ⟨hk, ha, hr⟩

/-- The link over a node, in `routes` or in the node before it. -/
theorem linkOver_chain {r : Router} {ks rs : List Nat} {a : Nat} {lk lr : List Entry} {e : Entry}
    (h : r.Holds (ks ++ a :: rs) (lk ++ e :: lr)) :
    ∃ r₁, linkOver r (ks.getLastD 0) (r.link a) = .ok r₁ ∧
      Linked.Chain r₁.link r₁.routes (ks ++ rs) ∧ r₁.entry = r.entry ∧ r₁.last = r.last ∧ r₁.blocks = r.blocks := by
  have hbehind := h.chain.behind
  cases hks : ks.reverse with
  | nil =>
    obtain rfl : ks = [] := List.reverse_eq_nil_iff.1 hks
    exact ⟨{ r with routes := r.link a }, rfl, hbehind, rfl, rfl, rfl⟩
  | cons p ks' =>
    obtain rfl : ks = ks'.reverse ++ [p] := by rw [← List.reverse_reverse ks, hks, List.reverse_cons]
    have hp : p ∈ ks'.reverse ++ [p] ++ a :: rs := by simp
    have hnodup := h.distinct
    rw [List.append_assoc, List.nodup_append] at hnodup
    have hpk : p ∉ ks'.reverse := fun hmem => hnodup.2.2 p hmem p (by simp) rfl
    have hpr : p ∉ rs := by
      have := (List.nodup_cons.1 hnodup.2.1).1
      exact fun hmem => this (by simp [hmem])
    obtain ⟨e', he'⟩ := h.entry_mem hp
    obtain ⟨r₁, hset, hlink, hentry, hroutes, hlast, hblocks⟩ := Router.setNext_eq he' (r.link a)
    have hprev : (ks'.reverse ++ [p]).getLastD 0 = p := by simp
    refine ⟨r₁, ?_, ?_, hentry, hlast, hblocks⟩
    · rw [linkOver, hprev, if_pos (h.chain.ne_zero hp), hset]
    · have hchain := h.chain
      rw [List.append_assoc] at hchain
      rw [hlink, hroutes, List.append_assoc]
      exact hchain.redirect hpk hbehind hpr

/-- A node is taken out from between those before it, which stay, and those behind it. -/
theorem removeNode_holds {r : Router} {ks rs : List Nat} {a : Nat} {lk lr : List Entry} {e : Entry}
    (h : r.Holds (ks ++ a :: rs) (lk ++ e :: lr)) (hlen : ks.length = lk.length) :
    ∃ r', removeNode r (ks.getLastD 0) a (r.link a) = .ok r' ∧ r'.Holds (ks ++ rs) (lk ++ lr) := by
  obtain ⟨hk, -, hr⟩ := h.split hlen
  obtain ⟨r₁, hstep, hchain, hentry, hlast, hblocks⟩ := linkOver_chain h
  have hnodup := h.distinct
  rw [List.nodup_append, List.nodup_cons] at hnodup
  obtain ⟨hks, ⟨har, hrs⟩, hdisj⟩ := hnodup
  have hnot : a ∉ ks ++ rs := by
    simp only [List.mem_append, not_or]
    exact ⟨fun hmem => hdisj a hmem a List.mem_cons_self rfl, har⟩
  have hlast₁ : r₁.last = rs.getLastD a := by
    rw [hlast, h.last, getLastD_append_cons]
    cases rs with
    | nil => rfl
    | cons x xs => exact (getLastD_append_cons [] x xs a).symm
  refine ⟨(if r₁.last = a then { r₁ with last := ks.getLastD 0 } else r₁).free a, ?_, ?_⟩
  · rw [removeNode, hstep]
    rfl
  · have hsame : ∀ r₂ : Router, r₂.link = r₁.link → r₂.routes = r₁.routes → r₂.entry = r₁.entry →
      r₂.blocks = r₁.blocks →
        r₂.last = (ks ++ rs).getLastD 0 → (r₂.free a).Holds (ks ++ rs) (lk ++ lr) := by
      intro r₂ hlink₂ hroutes₂ hentry₂ hblocks₂ hlast₂
      constructor
      · change Linked.Chain (r₂.free a).link r₂.routes _
        rw [Router.free_link, hlink₂, hroutes₂]
        exact hchain.update hnot 0
      · rw [List.nodup_append]
        exact ⟨hks, hrs, fun x hx y hy => hdisj x hx y (List.mem_cons_of_mem _ hy)⟩
      · exact hlast₂
      · have hkeep : ∀ x ∈ ks ++ rs, (r₂.free a).entry x = r.entry x := by
          intro x hx
          have hne : x ≠ a := fun e => hnot (e ▸ hx)
          rw [Router.free_entry, Function.update_of_ne hne, hentry₂, hentry]
        rw [List.map_congr_left hkeep, List.map_append, List.map_append, hk, hr]
      · change r₂.blocks - 1 = _
        rw [hblocks₂, hblocks, h.blocks]
        simp only [List.length_append, List.length_cons]
        omega
    by_cases hla : r₁.last = a
    · rw [if_pos hla]
      refine hsame _ rfl rfl rfl rfl ?_
      cases rs with
      | nil => simp
      | cons x xs =>
        refine absurd ?_ har
        rw [← hla, hlast₁, ← List.nil_append (x :: xs), getLastD_append_cons]
        exact List.getLast_mem _
    · rw [if_neg hla]
      refine hsame _ rfl rfl rfl rfl ?_
      cases rs with
      | nil => exact absurd hlast₁ hla
      | cons x xs => rw [hlast₁, getLastD_append_cons, ← getLastD_append_cons [] x xs a, List.nil_append]

/-- Behind the nodes `ks`, which stay, the loop takes out those of the pattern and the handler. -/
theorem removeLoop_holds (pattern : CString) (handler : Nat) {r : Router} {ks rs : List Nat} {lk lr : List Entry}
    {turns : Nat} (h : r.Holds (ks ++ rs) (lk ++ lr)) (hlen : ks.length = lk.length) (hturns : rs.length ≤ turns)
    (deleted : Int) :
    ∃ n r' nodes, removeLoop pattern handler turns r (rs.headD 0) (ks.getLastD 0) deleted = .ok (n, r') ∧
      r'.Holds nodes (lk ++ lr.filter (· ≠ ⟨pattern, handler⟩)) := by
  have hlen' : rs.length = lr.length := by
    have := congrArg List.length h.entries
    simp only [List.length_map, List.length_append] at this
    omega
  induction rs generalizing r ks lk lr turns deleted with
  | nil =>
    obtain rfl : lr = [] := List.length_eq_zero_iff.1 hlen'.symm
    refine ⟨deleted, r, ks ++ [], ?_, h⟩
    cases turns <;> rfl
  | cons a rs ih =>
    obtain ⟨e, lr, rfl⟩ : ∃ e lr', lr = e :: lr' :=
      List.exists_cons_of_length_pos (by rw [← hlen']; exact Nat.succ_pos _)
    obtain ⟨turns, rfl⟩ : ∃ k, turns = k + 1 := ⟨turns - 1, by rw [List.length_cons] at hturns; omega⟩
    simp only [List.length_cons, Nat.add_right_cancel_iff, Nat.add_le_add_iff_right] at hlen' hturns
    have ha : a ≠ 0 := h.chain.ne_zero (by simp)
    have hentry : r.entry a = some e := (h.split hlen).2.1
    have hnext : r.link a = rs.headD 0 := (h.chain.behind (l := ks)).start_eq
    rw [List.headD_cons, removeLoop, if_neg ha, Router.node_eq hentry, ok_bind]
    have hcmp : (strcmp e.pattern.bytes pattern.bytes = 0 ∧ e.handler = handler) ↔ e = ⟨pattern, handler⟩ := by
      rw [CString.strcmp_eq_zero]
      cases e
      simp
    by_cases he : e = ⟨pattern, handler⟩
    · rw [if_pos (hcmp.2 he), List.filter_cons_of_neg (by simp [he])]
      obtain ⟨r', hremove, hholds⟩ := removeNode_holds h hlen
      rw [hremove, ok_bind, hnext]
      exact ih hholds hlen hturns _ hlen'
    · rw [if_neg (mt hcmp.1 he), List.filter_cons_of_pos (by simpa using he), hnext]
      have hlast : a = (ks ++ [a]).getLastD 0 := by simp
      have hholds : r.Holds ((ks ++ [a]) ++ rs) ((lk ++ [e]) ++ lr) := by simpa using h
      have := ih hholds (by simp [hlen]) hturns deleted hlen'
      rw [← hlast, List.append_assoc] at this
      exact this

theorem routeRemove_holds {r : Router} {nodes : List Nat} {l : List Entry} (h : r.Holds nodes l)
    (pattern : Option CString) (handler : Nat) : ∃ answer r' nodes', routeRemove r pattern handler = .ok (answer, r') ∧
      r'.Holds nodes' ((Op.remove pattern handler).apply l answer) := by
  cases pattern with
  | none => exact ⟨-1, r, nodes, rfl, h⟩
  | some pattern =>
    rw [routeRemove]
    by_cases hh : handler = 0
    · refine ⟨-1, r, nodes, if_pos hh, ?_⟩
      rw [Op.apply, if_pos hh]
      exact h
    · obtain ⟨n, r', nodes', hloop, hholds⟩ :=
        removeLoop_holds pattern handler (show r.Holds ([] ++ nodes) ([] ++ l) from h) rfl
        (Nat.le_of_eq h.blocks.symm) 0
      refine ⟨n, r', nodes', ?_, ?_⟩
      · rw [if_neg hh, h.chain.start_eq]
        exact hloop
      · rw [Op.apply, if_neg hh]
        exact hholds

/-- Every call keeps the list what it is for. -/
theorem step_holds {r : Router} {nodes : List Nat} {l : List Entry} (h : r.Holds nodes l) (op : Op) :
    ∃ answer r' nodes', step r op = .ok (answer, r') ∧ r'.Holds nodes' (op.apply l answer) := by
  cases op with
  | add pattern handler calloc => exact routeAdd_holds h pattern handler calloc
  | remove pattern handler => exact routeRemove_holds h pattern handler

theorem run_holds {r : Router} {nodes : List Nat} {l : List Entry} (h : r.Holds nodes l) (ops : List Op) :
    ∃ trace r' nodes', run r ops = .ok (trace, r') ∧ trace.map Prod.fst = ops ∧ r'.Holds nodes' (listed l trace) := by
  induction ops generalizing r nodes l with
  | nil => exact ⟨[], r, nodes, rfl, rfl, h⟩
  | cons op ops ih =>
    obtain ⟨answer, r₁, nodes₁, hstep, h₁⟩ := step_holds h op
    obtain ⟨trace, r', nodes', hrun, htrace, h'⟩ := ih h₁
    refine ⟨(op, answer) :: trace, r', nodes', ?_, by rw [List.map_cons, htrace], h'⟩
    simp only [run, hstep, ok_bind, hrun]
    rfl

/-! ### Forwarding -/

section Forward

variable {σ : Type} (ovf : Int → Option Int) (spec : Spec) (call : σ → Invocation → Int × σ)

/-- The calls for the routes that match the path. -/
def hits (path : CString) (l : List Entry) : List Invocation :=
  l.filterMap fun e =>
    match routeMatch ovf path e.pattern spec ROUTE_MATCH_MAX with
    | .ok (argc, argv) => if argc > 0 then some ⟨e.handler, argv, argc⟩ else none
    | .error _ => none

/-- The answers, if all these calls were made. -/
def replies : σ → List Invocation → List Int
  | _, [] => []
  | w, i :: is => (call w i).1 :: replies (call w i).2 is

/-- The calls up to the first that does not answer 0, and with it. -/
def called (w : σ) (is : List Invocation) : List Invocation :=
  is.take (((replies call w is).takeWhile (· = 0)).length + 1)

/-- The first answer that is not 0, or what is left to say where there is none and `matched` calls were made. -/
def answer (w : σ) (matched : Int) (is : List Invocation) : Int :=
  ((replies call w is).find? (· ≠ 0)).getD (if wrapInt matched > 0 then 0 else -1)

/-- The calls, the world behind them, and the answer. -/
def dispatched (w : σ) (matched : Int) (is : List Invocation) : Outcome σ :=
  ⟨answer call w matched is, (called call w is).foldl (fun w i => (call w i).2) w, called call w is⟩

variable {call}

theorem dispatched_stop {w : σ} {matched : Int} {i : Invocation} {is : List Invocation} (h : (call w i).1 ≠ 0) :
    dispatched call w matched (i :: is) = ⟨(call w i).1, (call w i).2, [i]⟩ := by
  simp [dispatched, answer, called, replies, h]

theorem dispatched_next {w : σ} {matched : Int} {i : Invocation} {is : List Invocation} (h : (call w i).1 = 0) :
    dispatched call w matched (i :: is) =
      { dispatched call (call w i).2 matched is with
        calls := i :: (dispatched call (call w i).2 matched is).calls } := by
  simp [dispatched, answer, called, replies, h]

theorem forwardLoop_eq {r : Router} {path : CString} {rs : List Nat} {l : List Entry} {cur turns : Nat}
    {matched : Int} {w : σ} (hchain : Linked.Chain r.link cur rs) (hentries : rs.map r.entry = l.map some)
    (hturns : rs.length ≤ turns) (hmatch : ∀ e ∈ l, ∃ x, routeMatch ovf path e.pattern spec ROUTE_MATCH_MAX = .ok x) :
    forwardLoop ovf spec call r path turns cur (wrapInt matched) w =
      .ok (dispatched call w (matched + (hits ovf spec path l).length) (hits ovf spec path l)) := by
  induction rs generalizing l cur turns matched w with
  | nil =>
    obtain rfl : l = [] := List.map_eq_nil_iff.1 hentries.symm
    obtain rfl : cur = 0 := hchain
    have hnone : dispatched call w (matched + (hits ovf spec path []).length) (hits ovf spec path []) =
        ⟨if wrapInt matched > 0 then 0 else -1, w, []⟩ := by
      simp [dispatched, answer, called, replies, hits]
    rw [hnone]
    cases turns <;> rfl
  | cons a rs ih =>
    obtain ⟨e, l, rfl⟩ : ∃ e l', l = e :: l' := by
      cases l with
      | nil => cases hentries
      | cons e l => exact ⟨e, l, rfl⟩
    obtain ⟨turns, rfl⟩ : ∃ k, turns = k + 1 := ⟨turns - 1, by rw [List.length_cons] at hturns; omega⟩
    obtain ⟨rfl, ha, hchain⟩ := hchain
    obtain ⟨hentry, hentries⟩ := List.cons.inj hentries
    obtain ⟨⟨argc, argv⟩, hx⟩ := hmatch e List.mem_cons_self
    have hrest := fun m w => @ih _ _ _ m w hchain hentries (Nat.le_of_succ_le_succ hturns)
      fun e' he' => hmatch e' (List.mem_cons_of_mem _ he')
    rw [forwardLoop, if_neg ha, Router.node_eq hentry, ok_bind]
    simp only [hx, ok_bind]
    by_cases hargc : argc > 0
    · have hhits : hits ovf spec path (e :: l) = ⟨e.handler, argv, argc⟩ :: hits ovf spec path l := by
        simp [hits, hx, hargc]
      rw [if_pos hargc, hhits]
      by_cases hret : (call w ⟨e.handler, argv, argc⟩).1 = 0
      · have hwrap : wrapInt (wrapInt matched + 1) = wrapInt (matched + 1) := Int.bmod_add_bmod
        have hcount : matched + (((hits ovf spec path l).length + 1 : Nat) : Int) = matched + 1 +
          (hits ovf spec path l).length := by
          omega
        rw [if_neg (not_not.2 hret), dispatched_next hret, hwrap, hrest, ok_bind, List.length_cons, hcount]
        rfl
      · rw [if_pos hret, dispatched_stop hret]
        rfl
    · have hhits : hits ovf spec path (e :: l) = hits ovf spec path l := by
        simp [hits, hx, hargc]
      rw [if_neg hargc, hhits, hrest]

/-- Along every sequence of calls the list is the routes that were added and not removed, in order, with `last` at the
final node. `route_forward` then calls the handlers of those that match up to the first that does not answer 0 and
gives its answer, and otherwise 0 or -1, unless there were too many forwards before; a pattern that `route_match`
cannot read is left out. -/
theorem router_list (ops : List Op) :
    ∃ trace r nodes, run .empty ops = .ok (trace, r) ∧ trace.map Prod.fst = ops ∧ r.Holds nodes (listed [] trace) ∧
      ∀ (σ : Type) (ovf : Int → Option Int) (spec : Spec) (call : σ → Invocation → Int × σ) (w : σ) (hops : Int)
      (path : CString),
        (∃ e ∈ listed [] trace, ∃ f, routeMatch ovf path e.pattern spec ROUTE_MATCH_MAX = .error f) ∨
        routeForward ovf spec call r hops (some path) w = .ok (wrapInt (hops + 1),
          if hops > ROUTE_FORWARD_MAX then ⟨0, w, []⟩
          else dispatched call w (hits ovf spec path (listed [] trace)).length
          (hits ovf spec path (listed [] trace))) := by
  obtain ⟨trace, r, nodes, hrun, htrace, h⟩ := run_holds Router.empty_holds ops
  refine ⟨trace, r, nodes, hrun, htrace, h, fun σ ovf spec call w hops path => ?_⟩
  by_cases hfault : ∃ e ∈ listed [] trace, ∃ f, routeMatch ovf path e.pattern spec ROUTE_MATCH_MAX = .error f
  · exact .inl hfault
  · right
    have hmatch : ∀ e ∈ listed [] trace, ∃ x, routeMatch ovf path e.pattern spec ROUTE_MATCH_MAX = .ok x := by
      intro e he
      cases hx : routeMatch ovf path e.pattern spec ROUTE_MATCH_MAX with
      | ok x => exact ⟨x, rfl⟩
      | error f => exact absurd ⟨e, he, f, hx⟩ hfault
    rw [routeForward]
    by_cases hhops : hops > ROUTE_FORWARD_MAX
    · rw [if_pos hhops, if_pos hhops]
    · have hloop : forwardLoop ovf spec call r path r.blocks r.routes (wrapInt 0) w = _ :=
        forwardLoop_eq ovf spec h.chain h.entries (Nat.le_of_eq h.blocks.symm) hmatch
      rw [Int.zero_add] at hloop
      rw [if_neg hhops, if_neg hhops]
      change (forwardLoop ovf spec call r path r.blocks r.routes (wrapInt 0) w >>= _) = _
      rw [hloop]
      rfl

end Forward

/-- With 17 hops in the context, the handler of the only route is not called, though the route matches. -/
theorem router_forward_limit :
    ∃ trace r, run .empty [.add (some ⟨lit "/", by decide⟩) 7 ⟨fun mem => if (mem 1).isSome then 0 else 1, fun mem => by
        cases h : mem 1 with
        | none => exact .inr h
        | some c => exact .inl rfl⟩] = .ok (trace, r) ∧
      routeForward some ⟨asc '*', asc '/', asc '\\'⟩ (fun (n : Nat) _ => (0, n + 1)) r 17 (some ⟨lit "/", by decide⟩)
      0 =
        .ok (18, ⟨0, 0, []⟩) ∧
      (hits some ⟨asc '*', asc '/', asc '\\'⟩ ⟨lit "/", by decide⟩ (listed [] trace)).length = 1 :=
  ⟨_, _, rfl, rfl, by decide⟩

end JACLibc.Route
