import JACLibc.Json.TreeRun
import JACLibc.Format.Number
import Mathlib.Data.List.Chain
import Mathlib.Data.List.GetD
import Mathlib.Data.List.Iterate
import Mathlib.Logic.Relation

/-!
# Paths of the nodes of `core/jsio.h`

`js_path` writes down how a node is reached from the root, a `[i]` for a member of an array and a `.key` for the
others, and `js_resolve` goes that way.  It looks into arrays and objects only, and an index is an `int`: it comes
back to the node where every node above is an object or an array in which the index fits (`path_resolves`).
-/

namespace JACLibc.Json

open Linked Function Machine

/-! ### The functions -/

def JS_MAX_DEPTH : Nat := 64

/-- `for (int j = 0; j < i && c; j++) c = c->next;` -/
def nth (h : Heap) : Nat → Nat → Option Nat
  | 0, c => some c
  | i + 1, c =>
    if c = 0 then some 0
    else do
      let n ← h.node c
      nth h i n.next

/-- `js_index` -/
def jsIndex (h : Heap) (a : Nat) (i : Int) : Option Nat :=
  if a = 0 then some 0
  else do
    let na ← h.node a
    if na.type ≠ .array ∨ i < 0 then some 0 else nth h i.toNat na.first

/-- The loop of `js_indexof`.  The counter is an `int`; it is taken to wrap around. -/
def indexofLoop (h : Heap) (v : Nat) : Nat → Nat → Int → Option Int
  | 0, _, _ => none
  | fuel + 1, c, i =>
    if c = 0 then some (-1)
    else if c = v then some i
    else do
      let n ← h.node c
      indexofLoop h v fuel n.next (wrapInt (i + 1))

/-- `js_indexof` -/
def jsIndexof (h : Heap) (a v : Nat) : Option Int :=
  if a = 0 then some (-1)
  else do
    let na ← h.node a
    if na.type ≠ .array ∨ v = 0 then some (-1) else indexofLoop h v (h.top + 1) na.first 0

section

variable (h : Heap) (keys : Nat → Option CString)

/-- The loop of `js_property`; `keys` are the fields `key` of the nodes. -/
def propertyLoop (key : List UInt8) : Nat → Nat → Option Nat
  | 0, _ => none
  | fuel + 1, c =>
    if c = 0 then some 0
    else if ∃ k ∈ keys c, strcmp k.bytes key = 0 then some c
    else do
      let n ← h.node c
      propertyLoop key fuel n.next

/-- `js_property` -/
def jsProperty (o : Nat) (key : List UInt8) : Option Nat :=
  if o = 0 then some 0
  else do
    let no ← h.node o
    if no.type ≠ .object then some 0 else propertyLoop h keys key (h.top + 1) no.first

/-- What `snprintf` leaves in the buffer for the node `cur`. -/
def segment (cur : Nat) : Option (List UInt8) := do
  let nc ← h.node cur
  let inArray ← if nc.parent = 0 then some false else (h.node nc.parent).map fun np => decide (np.type = .array)
  if inArray then (jsIndexof h nc.parent cur).map fun i => (asc '[' :: (decText i ++ [asc ']'])).take 63
  else some ((keys cur).elim [] fun k => (asc '.' :: k.bytes).take 63)

/-- The loop of `js_path` that makes the segments, with `left` turns left before `JS_MAX_DEPTH`; `malloc` says which
of the allocations succeed.  The answer is `NULL` if one does not. -/
def segments (malloc : Nat → Bool) : Nat → Nat → Nat → Option (Option (List (List UInt8)))
  | 0, _, _ => some (some [])
  | left + 1, n, cur =>
    if cur = 0 then some (some [])
    else do
      let s ← segment h keys cur
      if malloc n then do
        let nc ← h.node cur
        (segments malloc left (n + 1) nc.parent).map (·.map (s :: ·))
      else some none

/-- The text without a `.` in front. -/
def stripDot (path : List UInt8) : List UInt8 := if deref path = asc '.' then path.tail else path

/-- `js_path` -/
def jsPath (malloc : Nat → Bool) (v : Nat) : Option (Option (List UInt8)) :=
  if v = 0 then some none
  else (segments h keys malloc JS_MAX_DEPTH 0 v).map fun made =>
    made.bind fun l => if malloc l.length then some (stripDot l.reverse.flatten) else none

/-- `strpbrk(path, ".[")` passes over the byte. -/
def inKey (b : UInt8) : Bool := b ≠ asc '.' ∧ b ≠ asc '['

/-- The `while` loop of `js_resolve`.  Behind an index without `]` the code reads `*path` through `NULL`. -/
def resolveLoop : Nat → Nat → List UInt8 → Option Nat
  | 0, _, _ => none
  | fuel + 1, cur, path =>
    if path = [] ∨ cur = 0 then some cur
    else if deref path = asc '[' then do
      let cur ← jsIndex h cur (atoi path.tail)
      match path.dropWhile (· ≠ asc ']') with
      | [] => none
      | _ :: path => resolveLoop fuel cur path
    else
      let path := path.dropWhile (· = asc '.')
      if path = [] then some cur
      else
        do
          let cur ← jsProperty h keys cur ((path.takeWhile inKey).take 63)
          if path.dropWhile inKey = [] then some cur else resolveLoop fuel cur (path.dropWhile inKey)

/-- `js_resolve` -/
def jsResolve (root : Nat) (path : Option (List UInt8)) : Option Nat :=
  match path with
  | none => some 0
  | some path => if root = 0 then some 0 else resolveLoop h keys ((stripDot path).length + 1) root (stripDot path)

end

/-! ### The loops -/

variable {h : Heap} {keys : Nat → Option CString} {K : Nat → List Nat} {a c p r v x : Nat} {l : List Nat}

private theorem nth_eq (hc : Chain h.view.next c l) (hl : ∀ x ∈ l, h.view.live x) (i : Nat) :
    nth h i c = some (l.getD i 0) := by
  induction i generalizing c l with
  | zero =>
    cases l with
    | nil => exact congrArg some hc
    | cons x l => exact congrArg some hc.1
  | succ i ih =>
    cases l with
    | nil =>
      obtain rfl : c = 0 := hc
      rfl
    | cons x l =>
      obtain ⟨rfl, hne, hrest⟩ := hc
      obtain ⟨n, hn, -, -, hnext, -⟩ := Heap.read (hl c List.mem_cons_self)
      rw [← hnext] at hrest
      rw [nth, if_neg hne, hn]
      exact ih hrest fun y hy => hl y (List.mem_cons_of_mem _ hy)

private theorem wrapInt_add (a b : Int) : wrapInt (wrapInt a + b) = wrapInt (a + b) := Int.bmod_add_bmod

private theorem indexofLoop_eq (hc : Chain h.view.next c l) (hl : ∀ x ∈ l, h.view.live x) (hv : v ∈ l) {fuel : Nat}
    (hf : l.length < fuel) (i : Int) : indexofLoop h v fuel c (wrapInt i) = some (wrapInt (i + l.idxOf v)) := by
  induction l generalizing c fuel i with
  | nil => simp at hv
  | cons x l ih =>
    obtain ⟨fuel, rfl⟩ : ∃ k, fuel = k + 1 := ⟨fuel - 1, by omega⟩
    obtain ⟨rfl, hne, hrest⟩ := hc
    rw [indexofLoop, if_neg hne]
    by_cases e : c = v
    · subst e
      simp
    · obtain ⟨n, hn, -, -, hnext, -⟩ := Heap.read (hl c List.mem_cons_self)
      have hv' : v ∈ l := (List.mem_cons.1 hv).resolve_left fun h => e h.symm
      have hrun := ih (hnext ▸ hrest) (fun y hy => hl y (List.mem_cons_of_mem _ hy)) hv' (by simpa using hf) (i + 1)
      rw [if_neg e, hn, wrapInt_add, List.idxOf_cons_ne _ e]
      simp only [Option.bind_eq_bind, Option.bind_some, hrun]
      congr 2
      push_cast
      omega

private theorem propertyLoop_eq (hc : Chain h.view.next c l) (hl : ∀ x ∈ l, h.view.live x) (key : List UInt8)
    {fuel : Nat} (hf : l.length < fuel) :
    propertyLoop h keys key fuel c = some ((l.find? fun c => decide (∃ k ∈ keys c, strcmp k.bytes key = 0)).getD
    0) := by
  induction l generalizing c fuel with
  | nil =>
    obtain ⟨fuel, rfl⟩ : ∃ k, fuel = k + 1 := ⟨fuel - 1, by omega⟩
    obtain rfl : c = 0 := hc
    rfl
  | cons x l ih =>
    obtain ⟨fuel, rfl⟩ : ∃ k, fuel = k + 1 := ⟨fuel - 1, by omega⟩
    obtain ⟨rfl, hne, hrest⟩ := hc
    rw [propertyLoop, if_neg hne]
    by_cases e : ∃ k ∈ keys c, strcmp k.bytes key = 0
    · rw [if_pos e, List.find?_cons_of_pos (by simpa using e)]
      rfl
    · obtain ⟨n, hn, -, -, hnext, -⟩ := Heap.read (hl c List.mem_cons_self)
      rw [if_neg e, hn, List.find?_cons_of_neg (by simpa using e)]
      exact ih (hnext ▸ hrest) (fun y hy => hl y (List.mem_cons_of_mem _ hy)) (by simpa using hf)

/-! ### The functions on a tree -/

private theorem Tree.jsIndex_array (t : Tree h.view K) (ha : h.view.type a = some .array) (i : Int) :
    jsIndex h a i = some (if i < 0 then 0 else (K a).getD i.toNat 0) := by
  have hlive : h.view.live a := by
    intro hnone
    simp [Heap.view, hnone] at ha
  obtain ⟨n, hn, htype, -, -, hfirst, -⟩ := Heap.read hlive
  have htype' : n.type = .array := by simpa [htype] using ha
  rw [jsIndex, if_neg (t.ne_null hlive), hn]
  by_cases hi : i < 0
  · simp [hi]
  · simp only [Option.bind_eq_bind, Option.bind_some, htype', hi, ne_eq, not_true_eq_false, or_self, if_false]
    exact nth_eq (hfirst ▸ t.chain a) (fun x hx => (t.listed a x hx).1) _

private theorem Tree.jsIndexof_array (t : Tree h.view K) (ha : h.view.type a = some .array) (hv : v ∈ K a) :
    jsIndexof h a v = some (wrapInt ((K a).idxOf v)) := by
  have hlive := t.live_of_mem hv
  obtain ⟨n, hn, htype, -, -, hfirst, -⟩ := Heap.read hlive
  have htype' : n.type = .array := by simpa [htype] using ha
  have hloop := indexofLoop_eq (hfirst ▸ t.chain a) (fun x hx => (t.listed a x hx).1) hv
    (Nat.lt_succ_of_le (t.length_le a)) 0
  rw [jsIndexof, if_neg (t.ne_null hlive), hn]
  simp only [Option.bind_eq_bind, Option.bind_some, htype', t.ne_null (t.listed a v hv).1, ne_eq, not_true_eq_false,
    or_self, if_false]
  rw [Int.zero_add] at hloop
  exact hloop

private theorem Tree.jsProperty_object (t : Tree h.view K) (ha : h.view.type a = some .object) (key : List UInt8) :
    jsProperty h keys a key = some (((K a).find? fun c => decide (∃ k ∈ keys c, strcmp k.bytes key = 0)).getD 0) := by
  have hlive : h.view.live a := by
    intro hnone
    simp [Heap.view, hnone] at ha
  obtain ⟨n, hn, htype, -, -, hfirst, -⟩ := Heap.read hlive
  have htype' : n.type = .object := by simpa [htype] using ha
  rw [jsProperty, if_neg (t.ne_null hlive), hn]
  simp only [Option.bind_eq_bind, Option.bind_some, htype', ne_eq, not_true_eq_false, if_false]
  exact propertyLoop_eq (hfirst ▸ t.chain a) (fun x hx => (t.listed a x hx).1) key (Nat.lt_succ_of_le (t.length_le a))

/-- Other nodes have nothing at an index. -/
private theorem Tree.jsIndex_other (t : Tree h.view K) (hlive : h.view.live a) (ha : h.view.type a ≠ some .array)
    (i : Int) :
    jsIndex h a i = some 0 := by
  obtain ⟨n, hn, htype, -⟩ := Heap.read hlive
  have htype' : n.type ≠ .array := by simpa [htype] using ha
  rw [jsIndex, if_neg (t.ne_null hlive), hn]
  simp [htype']

private theorem Tree.jsProperty_other (t : Tree h.view K) (hlive : h.view.live a) (ha : h.view.type a ≠ some .object)
    (key : List UInt8) : jsProperty h keys a key = some 0 := by
  obtain ⟨n, hn, htype, -⟩ := Heap.read hlive
  have htype' : n.type ≠ .object := by simpa [htype] using ha
  rw [jsProperty, if_neg (t.ne_null hlive), hn]
  simp [htype']

/-- What the lookups answer is `NULL` or a child. -/
private theorem Tree.jsIndex_mem (t : Tree h.view K) (hlive : h.view.live a) {i : Int} (hr : jsIndex h a i = some r) :
    r = 0 ∨ r ∈ K a := by
  by_cases ha : h.view.type a = some .array
  · rw [t.jsIndex_array ha, Option.some.injEq] at hr
    subst hr
    split
    · exact .inl rfl
    · rw [List.getD_eq_getElem?_getD]
      cases e : (K a)[i.toNat]? with
      | none => exact .inl rfl
      | some x => exact .inr (List.mem_of_getElem? e)
  · rw [t.jsIndex_other hlive ha, Option.some.injEq] at hr
    exact .inl hr.symm

private theorem Tree.jsProperty_mem (t : Tree h.view K) (hlive : h.view.live a) {key : List UInt8}
    (hr : jsProperty h keys a key = some r) : r = 0 ∨ r ∈ K a := by
  by_cases ha : h.view.type a = some .object
  · rw [t.jsProperty_object ha, Option.some.injEq] at hr
    subst hr
    cases e : (K a).find? fun c => decide (∃ k ∈ keys c, strcmp k.bytes key = 0) with
    | none => exact .inl rfl
    | some x => exact .inr (List.mem_of_find?_eq_some e)
  · rw [t.jsProperty_other hlive ha, Option.some.injEq] at hr
    exact .inl hr.symm

/-! ### Where `js_resolve` can get -/

/-- The way up from `r` comes by `a`. -/
def Below (v : View) (a r : Nat) : Prop := ∃ n, v.parent^[n] r = a

/-- The way up from `x` ends. -/
def Rooted (v : View) (x : Nat) : Prop := Below v 0 x

private theorem Below.child (t : Tree h.view K) (hc : c ∈ K a) (hr : Below h.view c r) : Below h.view a r := by
  obtain ⟨n, hn⟩ := hr
  refine ⟨n + 1, ?_⟩
  rw [iterate_succ_apply', hn, (t.listed a c hc).2]

private theorem Rooted.child (t : Tree h.view K) (hc : c ∈ K a) (hr : Rooted h.view a) : Rooted h.view c := by
  obtain ⟨n, hn⟩ := hr
  refine ⟨n + 1, ?_⟩
  rw [iterate_succ_apply, (t.listed a c hc).2, hn]

/-- No way up that ends comes by a node twice. -/
private theorem Rooted.acyclic (t : Tree h.view K) (hr : Rooted h.view x) (hx : h.view.live x) {m : Nat}
    (hm : h.view.parent^[m] x = x) : m = 0 := by
  by_contra hne
  obtain ⟨n, hn⟩ := hr
  have hnull : h.view.parent 0 = 0 := by simp [Heap.view, not_not.1 t.null]
  have hle : n ≤ m * n := Nat.le_mul_of_pos_left n (by omega)
  have hzero : h.view.parent^[m * n] x = 0 := by
    rw [show m * n = (m * n - n) + n by omega, iterate_add_apply, hn, iterate_fixed hnull]
  have hself : h.view.parent^[m * n] x = x := by
    rw [iterate_mul]
    exact iterate_fixed hm n
  exact t.ne_null hx (hself.symm.trans hzero)

/-- What lies below one child lies below no other. -/
private theorem Rooted.disjoint (t : Tree h.view K) (hx : Rooted h.view x) (ha : a ∈ K x) (hc : c ∈ K x)
    (har : Below h.view a r) (hcr : Below h.view c r) : a = c := by
  obtain ⟨i, hi⟩ := har
  obtain ⟨j, hj⟩ := hcr
  have hxi : h.view.parent^[i + 1] r = x := by rw [iterate_succ_apply', hi, (t.listed x a ha).2]
  have hxj : h.view.parent^[j + 1] r = x := by rw [iterate_succ_apply', hj, (t.listed x c hc).2]
  have hij : i = j := by
    rcases Nat.le_total i j with hle | hle
    · have hback : h.view.parent^[j - i] x = x := by
        rw [← hxi, ← iterate_add_apply, show j - i + (i + 1) = j + 1 by omega, hxj]
        exact hxi.symm
      have := hx.acyclic t (t.live_of_mem ha) hback
      omega
    · have hback : h.view.parent^[i - j] x = x := by
        rw [← hxj, ← iterate_add_apply, show i - j + (j + 1) = i + 1 by omega, hxi]
        exact hxj.symm
      have := hx.acyclic t (t.live_of_mem ha) hback
      omega
  subst hij
  exact hi.symm.trans hj

private theorem resolveLoop_null {fuel : Nat} {path : List UInt8} (hr : resolveLoop h keys fuel 0 path = some r) :
    r = 0 := by
  cases fuel with
  | zero => simp [resolveLoop] at hr
  | succ fuel =>
    rw [resolveLoop, if_pos (.inr rfl), Option.some.injEq] at hr
    exact hr.symm

/-- One turn of the loop: the end, or a lookup from whose answer the loop goes on. -/
private theorem resolveLoop_cases {fuel : Nat} {path : List UInt8}
    (hr : resolveLoop h keys (fuel + 1) x path = some r) :
    r = x ∨ ∃ y, ((∃ i, jsIndex h x i = some y) ∨ ∃ key, jsProperty h keys x key = some y) ∧
      (r = y ∨ ∃ rest, resolveLoop h keys fuel y rest = some r) := by
  rw [resolveLoop] at hr
  split at hr
  · exact .inl (Option.some.inj hr).symm
  · split at hr
    · obtain ⟨y, hy, hr⟩ := Option.bind_eq_some_iff.1 hr
      split at hr
      · cases hr
      · exact .inr ⟨y, .inl ⟨_, hy⟩, .inr ⟨_, hr⟩⟩
    · simp only at hr
      split at hr
      · exact .inl (Option.some.inj hr).symm
      · obtain ⟨y, hy, hr⟩ := Option.bind_eq_some_iff.1 hr
        split at hr
        · exact .inr ⟨y, .inr ⟨_, hy⟩, .inl (Option.some.inj hr).symm⟩
        · exact .inr ⟨y, .inr ⟨_, hy⟩, .inr ⟨_, hr⟩⟩

/-- `js_resolve` goes down only. -/
private theorem Tree.resolveLoop_below (t : Tree h.view K) {fuel : Nat} {path : List UInt8} (hx : h.view.live x)
    (hr : resolveLoop h keys fuel x path = some r) : r = 0 ∨ Below h.view x r := by
  induction fuel generalizing x path with
  | zero => simp [resolveLoop] at hr
  | succ fuel ih =>
    rcases resolveLoop_cases hr with rfl | ⟨y, hy, hrest⟩
    · exact .inr ⟨0, rfl⟩
    · have hmem : y = 0 ∨ y ∈ K x := by
        rcases hy with ⟨i, hy⟩ | ⟨key, hy⟩
        · exact t.jsIndex_mem hx hy
        · exact t.jsProperty_mem hx hy
      rcases hmem with rfl | hmem
      · rcases hrest with rfl | ⟨rest, hrest⟩
        · exact .inl rfl
        · exact .inl (resolveLoop_null hrest)
      · rcases hrest with rfl | ⟨rest, hrest⟩
        · exact .inr (Below.child t hmem ⟨0, rfl⟩)
        · exact (ih (t.listed x y hmem).1 hrest).imp_right (Below.child t hmem)

/-- It does not leave a node that is neither an array nor an object. -/
private theorem Tree.resolveLoop_other (t : Tree h.view K) {fuel : Nat} {path : List UInt8} (hx : h.view.live x)
    (harray : h.view.type x ≠ some .array) (hobject : h.view.type x ≠ some .object)
    (hr : resolveLoop h keys fuel x path = some r) : r = 0 ∨ r = x := by
  cases fuel with
  | zero => simp [resolveLoop] at hr
  | succ fuel =>
    rcases resolveLoop_cases hr with rfl | ⟨y, hy, hrest⟩
    · exact .inr rfl
    · obtain rfl : y = 0 := by
        rcases hy with ⟨i, hy⟩ | ⟨key, hy⟩
        · rw [t.jsIndex_other hx harray] at hy
          exact (Option.some.inj hy).symm
        · rw [t.jsProperty_other hx hobject] at hy
          exact (Option.some.inj hy).symm
      rcases hrest with rfl | ⟨rest, hrest⟩
      · exact .inl rfl
      · exact .inl (resolveLoop_null hrest)

/-! ### The segments -/

/-- The segment that leads from `p` to `c`. -/
def hop (v : View) (K : Nat → List Nat) (keys : Nat → Option CString) (p c : Nat) : List UInt8 :=
  if v.type p = some .array then asc '[' :: (decText (wrapInt ((K p).idxOf c)) ++ [asc ']'])
  else (keys c).elim [] fun k => (asc '.' :: k.bytes).take 63

/-- The segments from `p` along the nodes of a list. -/
def trail (v : View) (K : Nat → List Nat) (keys : Nat → Option CString) : Nat → List Nat → List UInt8
  | _, [] => []
  | p, c :: l => hop v K keys p c ++ trail v K keys c l

private theorem trail_concat (v : View) (p : Nat) (l : List Nat) (c : Nat) :
    trail v K keys p (l ++ [c]) = trail v K keys p l ++ hop v K keys ((p :: l).getLast (by simp)) c := by
  induction l generalizing p with
  | nil => simp [trail]
  | cons x l ih => simp [trail, ih]

/-- A segment starts with `.` or `[`. -/
private theorem hop_start (v : View) (p c : Nat) : ∀ b ∈ (hop v K keys p c).head?, b = asc '.' ∨ b = asc '[' := by
  unfold hop
  split
  · simp
  · cases keys c <;> simp

private theorem trail_start (v : View) (p : Nat) (l : List Nat) :
    ∀ b ∈ (trail v K keys p l).head?, b = asc '.' ∨ b = asc '[' := by
  induction l generalizing p with
  | nil => simp [trail]
  | cons c l ih =>
    rw [trail]
    cases e : hop v K keys p c with
    | nil => exact ih c
    | cons b s =>
      have := @hop_start keys K v p c
      simpa [e] using this

/-- The text of an index fits into the buffer. -/
private theorem length_index (i : Int) : (asc '[' :: (decText (wrapInt i) ++ [asc ']'])).length ≤ 63 := by
  have hlen : ∀ b : BitVec 32, (asc '[' :: (decText b.toInt ++ [asc ']'])).length ≤ 63 := by
    intro b
    have := length_decText b
    rw [List.length_cons, List.length_append, List.length_singleton]
    omega
  rw [wrapInt, ← BitVec.toInt_ofInt]
  exact hlen _

private theorem Tree.segment_child (t : Tree h.view K) (hc : c ∈ K p) :
    segment h keys c = some (hop h.view K keys p c) := by
  obtain ⟨hlive, hpar⟩ := t.listed p c hc
  have hp := t.live_of_mem hc
  obtain ⟨nc, hnc, -, -, -, -, hparent⟩ := Heap.read hlive
  obtain ⟨np, hnp, htype, -⟩ := Heap.read hp
  have hparent' : nc.parent = p := hparent.trans hpar
  rw [segment, hnc]
  simp only [Option.bind_eq_bind, Option.bind_some, hparent', t.ne_null hp, if_false, hnp, Option.map_some,
    decide_eq_true_eq]
  unfold hop
  by_cases ha : np.type = .array
  · have harray : h.view.type p = some .array := by rw [htype, ha]
    rw [if_pos ha, if_pos harray, t.jsIndexof_array harray hc, Option.map_some, List.take_of_length_le (length_index _)]
  · rw [if_neg ha, if_neg (by simpa [htype] using ha)]

private theorem segment_root (hlive : h.view.live r) (hroot : h.view.parent r = 0) (hkey : keys r = none) :
    segment h keys r = some [] := by
  obtain ⟨n, hn, -, -, -, -, hparent⟩ := Heap.read hlive
  rw [segment, hn]
  simp [hparent.trans hroot, hkey]

/-! ### What `js_path` answers -/

/-- The loop of `js_path` climbs from the last node of a way to the root. -/
private theorem Tree.segments_climb (t : Tree h.view K) (hlive : h.view.live r) (hroot : h.view.parent r = 0)
    (hkey : keys r = none) (malloc : Nat → Bool) {l : List Nat} (hl : (r :: l).IsChain fun p c => c ∈ K p)
    {left : Nat} (hleft : l.length < left) (n : Nat) :
    ∃ made : List (List UInt8), made.length = l.length + 1 ∧ made.reverse.flatten = trail h.view K keys r l ∧
      segments h keys malloc left n ((r :: l).getLast (by simp)) =
        some (if ∀ k < l.length + 1, malloc (n + k) then some made else none) := by
  induction l using List.reverseRecOn generalizing left n with
  | nil =>
    obtain ⟨left, rfl⟩ : ∃ k, left = k + 1 := ⟨left - 1, by omega⟩
    obtain ⟨nr, hnr, -, -, -, -, hparent⟩ := Heap.read hlive
    refine ⟨[[]], rfl, rfl, ?_⟩
    have hstop : segments h keys malloc left (n + 1) 0 = some (some []) := by
      cases left <;> simp [segments]
    rw [List.getLast_singleton, segments, if_neg (t.ne_null hlive), segment_root hlive hroot hkey]
    by_cases hm : malloc n
    · simp [hm, hnr, hparent.trans hroot, hstop]
    · simp [hm]
  | append_singleton l c ih =>
    obtain ⟨left, rfl⟩ : ∃ k, left = k + 1 := ⟨left - 1, by omega⟩
    rw [← List.cons_append, List.isChain_append] at hl
    obtain ⟨hl, -, hlast⟩ := hl
    have hc : c ∈ K ((r :: l).getLast (by simp)) := hlast _ (List.getLast?_eq_some_getLast _) c rfl
    obtain ⟨hclive, hcpar⟩ := t.listed _ c hc
    obtain ⟨nc, hnc, -, -, -, -, hparent⟩ := Heap.read hclive
    obtain ⟨made, hlen, hflat, hmade⟩ := ih hl (by simp at hleft; omega) (n + 1)
    refine ⟨hop h.view K keys ((r :: l).getLast (by simp)) c :: made, by simp [hlen], ?_, ?_⟩
    · rw [List.reverse_cons, List.flatten_append, hflat, trail_concat]
      simp
    · have hall : (∀ k < (l ++ [c]).length + 1, malloc (n + k)) ↔ malloc n ∧ ∀ k < l.length + 1,
        malloc (n + 1 + k) := by
        constructor
        · intro hk
          refine ⟨hk 0 (by simp), fun k hlt => ?_⟩
          rw [show n + 1 + k = n + (k + 1) by omega]
          exact hk (k + 1) (by simpa using hlt)
        · rintro ⟨h0, hk⟩ k hlt
          cases k with
          | zero => exact h0
          | succ k =>
            rw [show n + (k + 1) = n + 1 + k by omega]
            exact hk k (by simpa using hlt)
      have hgoal : (r :: (l ++ [c])).getLast (by simp) = c := by simp
      rw [hgoal, segments, if_neg (t.ne_null hclive), t.segment_child hc]
      simp only [Option.bind_eq_bind, Option.bind_some, hnc, hparent.trans hcpar, hmade, Option.map_some, hall]
      by_cases hm : malloc n
      · simp only [hm, if_true, true_and]
        split <;> rfl
      · simp [hm]

theorem Tree.jsPath_eq (t : Tree h.view K) (hlive : h.view.live r) (hroot : h.view.parent r = 0) (hkey : keys r = none)
    (malloc : Nat → Bool) {l : List Nat} (hl : (r :: l).IsChain fun p c => c ∈ K p) (hdepth : l.length < JS_MAX_DEPTH) :
    jsPath h keys malloc ((r :: l).getLast (by simp)) =
      some (if ∀ k < l.length + 2, malloc k then some (stripDot (trail h.view K keys r l)) else none) := by
  obtain ⟨made, hlen, hflat, hmade⟩ := t.segments_climb hlive hroot hkey malloc hl hdepth 0
  have hne : (r :: l).getLast (by simp) ≠ 0 := by
    rcases List.eq_nil_or_concat' l with rfl | ⟨l, c, rfl⟩
    · exact t.ne_null hlive
    · rw [← List.cons_append, List.isChain_append] at hl
      have hc := hl.2.2 _ (List.getLast?_eq_some_getLast (by simp)) c rfl
      simpa using t.ne_null (t.listed _ c hc).1
  have hall : (∀ k < l.length + 2, malloc k) ↔ (∀ k < l.length + 1, malloc (0 + k)) ∧ malloc (l.length + 1) := by
    simp only [Nat.zero_add]
    exact Nat.forall_lt_succ_right
  rw [jsPath, if_neg hne, hmade, Option.map_some, Option.some.injEq, if_congr hall rfl rfl]
  by_cases hms : ∀ k < l.length + 1, malloc (0 + k)
  · rw [if_pos hms, Option.bind_some, hlen, hflat]
    by_cases hm : malloc (l.length + 1)
    · rw [if_pos hm, if_pos ⟨hms, hm⟩]
    · rw [if_neg hm, if_neg fun e => hm e.2]
  · rw [if_neg hms, if_neg fun e => hms e.1]
    rfl

/-! ### The way back -/

/-- What is asked of the keys below an object. -/
structure WellNamed (k : CString) : Prop where
  nonempty : k.bytes ≠ []
  short : k.bytes.length ≤ 62
  dot : asc '.' ∉ k.bytes
  bracket : asc '[' ∉ k.bytes

/-- The children of the objects below `r` have keys of their own. -/
structure Keyed (v : View) (K : Nat → List Nat) (keys : Nat → Option CString) (r : Nat) : Prop where
  named : ∀ p, Below v r p → v.type p = some .object → ∀ c ∈ K p, ∃ k ∈ keys c, WellNamed k
  unique : ∀ p, Below v r p → v.type p = some .object → ∀ c ∈ K p, ∀ d ∈ K p, keys c = keys d → c = d

/-- `js_resolve` gets from `p` to its child `c`: it looks into objects and arrays, and up to the index `INT_MAX`. -/
def Leads (v : View) (K : Nat → List Nat) (p c : Nat) : Prop :=
  v.type p = some .object ∨ v.type p = some .array ∧ ((K p).idxOf c : Int) ≤ INT_MAX

private theorem Keyed.child (t : Tree h.view K) (hc : c ∈ K p) (hk : Keyed h.view K keys p) : Keyed h.view K keys c :=
  ⟨fun q hq => hk.named q (hq.child t hc), fun q hq => hk.unique q (hq.child t hc)⟩

private theorem decText_bracket (i : Int) : asc ']' ∉ decText i := by
  have hdigit : ∀ d < 10, asc ']' ≠ digitChar false d := by decide
  have hnum : ∀ v, asc ']' ∉ numText 10 v := by
    intro v hmem
    obtain ⟨d, hd, he⟩ := mem_numText (by decide) hmem
    exact hdigit d hd he
  unfold decText
  split
  · rw [List.mem_cons]
    rintro (he | he)
    · exact absurd he (by decide)
    · exact hnum _ he
  · exact hnum _

/-- A turn of the loop at an index. -/
private theorem resolveLoop_index {fuel : Nat} (hx : x ≠ 0) (i : Int) (rest : List UInt8) :
    resolveLoop h keys (fuel + 1) x (asc '[' :: (decText i ++ [asc ']']) ++ rest) =
      (jsIndex h x (atoi (decText i ++ asc ']' :: rest))).bind fun y => resolveLoop h keys fuel y rest := by
  have hdrop : (asc '[' :: (decText i ++ asc ']' :: rest)).dropWhile (· ≠ asc ']') = asc ']' :: rest := by
    rw [List.dropWhile_cons_of_pos (by decide), List.dropWhile_append_of_pos]
    · rw [List.dropWhile_cons_of_neg (by simp)]
    · intro b hb
      have hne : b ≠ asc ']' := fun e => decText_bracket i (e ▸ hb)
      simpa using hne
  rw [List.cons_append, List.append_assoc, List.singleton_append, resolveLoop, if_neg (by simp [hx]), deref_cons,
    if_pos rfl, hdrop]
  rfl

/-- A turn of the loop at a key, with a `.` in front or without. -/
private theorem Tree.resolveLoop_key (t : Tree h.view K) (hk : Keyed h.view K keys x)
    (hobject : h.view.type x = some .object) (hc : c ∈ K x) {k : CString} (hkey : keys c = some k)
    (hnamed : WellNamed k) {rest path : List UInt8} (hrest : ∀ b ∈ rest.head?, b = asc '.' ∨ b = asc '[')
    (hpath : path = asc '.' :: k.bytes ++ rest ∨ path = k.bytes ++ rest) {fuel : Nat} :
    resolveLoop h keys (fuel + 2) x path = resolveLoop h keys (fuel + 1) c rest := by
  have hx := t.ne_null (t.live_of_mem hc)
  obtain ⟨b, k', hbk⟩ := List.exists_cons_of_ne_nil hnamed.nonempty
  have hplain : ∀ x ∈ k.bytes, inKey x = true := by
    intro y hy
    have hdot : y ≠ asc '.' := fun e => hnamed.dot (e ▸ hy)
    have hbracket : y ≠ asc '[' := fun e => hnamed.bracket (e ▸ hy)
    simp [inKey, hdot, hbracket]
  obtain ⟨hbdot, hbbracket⟩ : b ≠ asc '.' ∧ b ≠ asc '[' := by simpa [inKey] using hplain b (by simp [hbk])
  have hdots : path.dropWhile (· = asc '.') = k.bytes ++ rest := by
    have hkey : (k.bytes ++ rest).dropWhile (· = asc '.') = k.bytes ++ rest := by
      rw [hbk, List.cons_append, List.dropWhile_cons_of_neg (by simpa using hbdot)]
    rcases hpath with rfl | rfl
    · rw [List.cons_append, List.dropWhile_cons_of_pos (by simp), hkey]
    · exact hkey
  have hfirst : path ≠ [] ∧ deref path ≠ asc '[' := by
    rcases hpath with rfl | rfl
    · exact ⟨by simp, show asc '.' ≠ asc '[' by decide⟩
    · rw [hbk]
      exact ⟨by simp, hbbracket⟩
  have hcut : (k.bytes ++ rest).takeWhile inKey = k.bytes ∧ (k.bytes ++ rest).dropWhile inKey = rest := by
    rw [List.takeWhile_append_of_pos hplain, List.dropWhile_append_of_pos hplain]
    cases rest with
    | nil => simp
    | cons y rest =>
      have hstop : ¬inKey y = true := by
        rcases hrest y rfl with rfl | rfl <;> decide
      rw [List.takeWhile_cons_of_neg hstop, List.dropWhile_cons_of_neg hstop, List.append_nil]
      exact ⟨rfl, rfl⟩
  have hprop : jsProperty h keys x k.bytes = some c := by
    rw [t.jsProperty_object hobject]
    cases e : (K x).find? fun c => decide (∃ k' ∈ keys c, strcmp k'.bytes k.bytes = 0) with
    | none =>
      have := List.find?_eq_none.1 e c hc
      simp [hkey, CString.strcmp_eq_zero] at this
    | some d =>
      have hd := List.find?_some e
      obtain ⟨k', hk', heq⟩ := of_decide_eq_true hd
      rw [CString.strcmp_eq_zero] at heq
      subst heq
      rw [hk.unique x ⟨0, rfl⟩ hobject c hc d (List.mem_of_find?_eq_some e) (hkey.trans hk'.symm)]
      rfl
  rw [resolveLoop, if_neg (by simp [hfirst.1, hx]), if_neg hfirst.2]
  simp only [hdots, hcut, List.take_of_length_le (hnamed.short.trans (by decide : 62 ≤ 63)), hprop, Option.bind_eq_bind,
    Option.bind_some]
  rw [if_neg (by simp [hnamed.nonempty])]
  split
  · rename_i hnil
    rw [hnil, resolveLoop, if_pos (.inl rfl)]
  · rfl

private theorem Tree.below_last (t : Tree h.view K) (hl : (c :: l).IsChain fun p c => c ∈ K p) :
    Below h.view c ((c :: l).getLast (by simp)) := by
  induction l generalizing c with
  | nil => exact ⟨0, rfl⟩
  | cons x l ih =>
    obtain ⟨hx, hl⟩ := List.isChain_cons_cons.1 hl
    exact (ih hl).child t hx

private theorem Tree.live_last (t : Tree h.view K) (hc : h.view.live c) (hl : (c :: l).IsChain fun p c => c ∈ K p) :
    h.view.live ((c :: l).getLast (by simp)) := by
  induction l generalizing c with
  | nil => exact hc
  | cons x l ih =>
    obtain ⟨hx, hl⟩ := List.isChain_cons_cons.1 hl
    exact ih (t.listed _ x hx).1 hl

/-- Behind a wrong index there is no way to the node. -/
private theorem Tree.lost (t : Tree h.view K) (hrooted : Rooted h.view x) (hc : c ∈ K x) (hv : h.view.live v)
    (hbelow : Below h.view c v) (hover : INT_MAX < ((K x).idxOf c : Int)) {fuel : Nat} (s rest : List UInt8) :
    (jsIndex h x (atoi s)).bind (fun y => resolveLoop h keys fuel y rest) ≠ some v := by
  intro he
  obtain ⟨y, hy, hr⟩ := Option.bind_eq_some_iff.1 he
  have hlive := t.live_of_mem hc
  rcases t.jsIndex_mem hlive hy with rfl | hmem
  · exact t.ne_null hv (resolveLoop_null hr)
  · have hyv : Below h.view y v := (t.resolveLoop_below (t.listed x y hmem).1 hr).resolve_left (t.ne_null hv)
    obtain rfl := hrooted.disjoint t hmem hc hyv hbelow
    have harray : h.view.type x = some .array := by
      by_contra hne
      rw [t.jsIndex_other hlive hne, Option.some.injEq] at hy
      exact t.ne_null (t.listed x y hmem).1 hy.symm
    rw [t.jsIndex_array harray, Option.some.injEq] at hy
    have hle : atoi s ≤ INT_MAX := wrapInt_le _
    split at hy
    · exact t.ne_null (t.listed x y hmem).1 hy.symm
    · have hlt : (atoi s).toNat < (K x).length := by
        by_contra hge
        rw [List.getD_eq_default _ _ (by omega)] at hy
        exact t.ne_null (t.listed x y hmem).1 hy.symm
      rw [List.getD_eq_getElem _ _ hlt] at hy
      rw [← hy, (t.nodup x).idxOf_getElem] at hover
      omega

private theorem length_rest {b : UInt8} {s rest : List UInt8} {fuel : Nat} (hf : (b :: s ++ rest).length < fuel + 1) :
    rest.length < fuel := by
  rw [List.length_append, List.length_cons] at hf
  omega

/-- The way along a list of nodes: `js_resolve` comes to its last node if it gets from each to the next. -/
theorem Tree.resolveLoop_trail (t : Tree h.view K) (hx : h.view.live x) (hrooted : Rooted h.view x)
    (hk : Keyed h.view K keys x) (hl : (x :: l).IsChain fun p c => c ∈ K p) {path : List UInt8} {fuel : Nat}
    (hf : path.length < fuel) (hpath : path = trail h.view K keys x l ∨
    path = stripDot (stripDot (trail h.view K keys x l))) :
    resolveLoop h keys fuel x path = some ((x :: l).getLast (by simp)) ↔ (x :: l).IsChain (Leads h.view K) := by
  induction l generalizing x path fuel with
  | nil =>
    obtain ⟨fuel, rfl⟩ : ∃ k, fuel = k + 1 := ⟨fuel - 1, by omega⟩
    obtain rfl : path = [] := by
      rcases hpath with rfl | rfl <;> rfl
    simp [resolveLoop]
  | cons c l ih =>
    obtain ⟨hc, hl⟩ := List.isChain_cons_cons.1 hl
    have hv := t.live_last (t.listed x c hc).1 hl
    have hbelow := t.below_last hl
    rw [List.isChain_cons_cons, List.getLast_cons (by simp)]
    by_cases hobject : h.view.type x = some .object
    · -- a key, whose `.` may be gone
      have hleads : Leads h.view K x c := .inl hobject
      obtain ⟨k, hkey, hnamed⟩ := hk.named x ⟨0, rfl⟩ hobject c hc
      have hhop : hop h.view K keys x c = asc '.' :: k.bytes := by
        rw [hop, if_neg (by simp [hobject]), hkey, Option.elim_some, List.take_of_length_le]
        have := hnamed.short
        rw [List.length_cons]
        omega
      have hstrip : stripDot (stripDot (trail h.view K keys x (c :: l))) = k.bytes ++ trail h.view K keys c l := by
        obtain ⟨b, k', hbk⟩ := List.exists_cons_of_ne_nil hnamed.nonempty
        have hb : b ≠ asc '.' := fun e => hnamed.dot (by simp [hbk, e])
        rw [trail, hhop, List.cons_append, stripDot, stripDot, deref_cons, if_pos rfl, List.tail_cons, hbk,
          List.cons_append, deref_cons, if_neg hb]
      have hcases : path = asc '.' :: k.bytes ++ trail h.view K keys c l ∨
        path = k.bytes ++ trail h.view K keys c l := by
        rw [hstrip, trail, hhop] at hpath
        exact hpath
      have hpos : 0 < k.bytes.length := List.length_pos_iff.2 hnamed.nonempty
      have hlen : (trail h.view K keys c l).length + 2 ≤ fuel := by
        rcases hcases with rfl | rfl <;> simp at hf <;> omega
      obtain ⟨fuel, rfl⟩ : ∃ m, fuel = m + 2 := ⟨fuel - 2, by omega⟩
      rw [t.resolveLoop_key hk hobject hc hkey hnamed (trail_start _ _ _) hcases,
        ih (t.listed x c hc).1 (hrooted.child t hc) (hk.child t hc) hl (by omega) (.inl rfl)]
      exact (and_iff_right hleads).symm
    · by_cases harray : h.view.type x = some .array
      · -- an index
        have hhop : hop h.view K keys x c = asc '[' :: (decText (wrapInt ((K x).idxOf c)) ++ [asc ']']) := by
          rw [hop, if_pos harray]
        have hpath' : path = asc '[' :: (decText (wrapInt ((K x).idxOf c)) ++ [asc ']']) ++
          trail h.view K keys c l := by
          rw [trail, hhop] at hpath
          rcases hpath with rfl | rfl
          · rfl
          · have hstay : ∀ s, stripDot (asc '[' :: s) = asc '[' :: s :=
              fun s => if_neg (show asc '[' ≠ asc '.' by decide)
            rw [List.cons_append, hstay, hstay]
        subst hpath'
        obtain ⟨fuel, rfl⟩ := Nat.exists_eq_succ_of_ne_zero (Nat.ne_zero_of_lt hf)
        rw [resolveLoop_index (t.ne_null hx)]
        by_cases hle : ((K x).idxOf c : Int) ≤ INT_MAX
        · have hleads : Leads h.view K x c := .inr ⟨harray, hle⟩
          have hnonneg : ¬((K x).idxOf c : Int) < 0 := not_lt.2 (Int.natCast_nonneg _)
          have htext : decText (wrapInt ((K x).idxOf c)) = numText 10 ((K x).idxOf c) := by
            rw [wrapInt_of_le (Int.natCast_nonneg _) hle, decText, if_neg hnonneg, Int.natAbs_natCast]
          have hends : EndsNumber 10 (asc ']' :: trail h.view K keys c l) := endsNumber_cons (by decide) _
          have hindex : jsIndex h x (atoi (decText (wrapInt ((K x).idxOf c)) ++ asc ']' :: trail h.view K keys c l)) =
            some c := by
            rw [htext, atoi_numText hle hends, t.jsIndex_array harray, if_neg hnonneg, Int.toNat_natCast,
              List.getD_eq_getElem _ _ (List.idxOf_lt_length_of_mem hc), List.getElem_idxOf]
          rw [hindex, Option.bind_some, ih (t.listed x c hc).1 (hrooted.child t hc) (hk.child t hc) hl
            (length_rest hf) (.inl rfl)]
          exact (and_iff_right hleads).symm
        · have hleads : ¬Leads h.view K x c := by
            rintro (h1 | ⟨-, h2⟩)
            · exact hobject h1
            · exact hle h2
          exact iff_of_false (t.lost hrooted hc hv hbelow (not_le.1 hle) _ _) fun h => hleads h.1
      · -- nothing is looked up below the node
        have hleads : ¬Leads h.view K x c := by
          rintro (h1 | ⟨h2, -⟩)
          · exact hobject h1
          · exact harray h2
        refine iff_of_false (fun he => ?_) fun h => hleads h.1
        rcases t.resolveLoop_other hx harray hobject he with e | e
        · exact t.ne_null hv e
        · obtain ⟨n, hn⟩ := hbelow.child t hc
          rw [e] at hbelow
          obtain ⟨n, hn⟩ := hbelow
          have hloop : h.view.parent^[n + 1] x = x := by rw [iterate_succ_apply', hn, (t.listed x c hc).2]
          exact absurd (hrooted.acyclic t hx hloop) (by omega)

/-- In a tree under a root without a key, with keys below its objects that are told apart: the path of a node that is
less than `JS_MAX_DEPTH` below the root leads back to it exactly if the allocations of `js_path` succeed and every
node above it is an object, or an array in which the next node on the way has an index up to `INT_MAX`. -/
theorem path_resolves (t : Tree h.view K) (hlive : h.view.live r) (hroot : h.view.parent r = 0) (hkey : keys r = none)
    (hk : Keyed h.view K keys r) (hl : (r :: l).IsChain fun p c => c ∈ K p) (hv : (r :: l).getLast? = some v)
    (hdepth : l.length < JS_MAX_DEPTH) (malloc : Nat → Bool) :
    (jsPath h keys malloc v).bind (jsResolve h keys r) = some v ↔
      (∀ k < l.length + 2, malloc k) ∧ (r :: l).IsChain (Leads h.view K) := by
  obtain rfl : (r :: l).getLast (by simp) = v := by
    rw [List.getLast?_eq_some_getLast (by simp)] at hv
    exact Option.some.inj hv
  rw [t.jsPath_eq hlive hroot hkey malloc hl hdepth, Option.bind_some]
  by_cases hm : ∀ k < l.length + 2, malloc k
  · rw [if_pos hm, jsResolve, if_neg (t.ne_null hlive),
      t.resolveLoop_trail hlive ⟨1, by rw [iterate_one, hroot]⟩ hk hl (Nat.lt_succ_self _) (.inr rfl)]
    exact (and_iff_right hm).symm
  · rw [if_neg hm, jsResolve]
    refine iff_of_false (fun he => ?_) fun h => hm h.1
    exact t.ne_null (t.live_last hlive hl) (Option.some.inj he).symm

/-- A heap made by calls. -/
private theorem tree_made {ops : List Op} (hv : Guarded step Valid Heap.empty ops) :
    Tree (run step Heap.empty ops).view (run step Heap.empty ops).kids :=
  (threaded_run ⟨_, tree_empty⟩ hv).tree

/-- An array of an object with one member. -/
def nested : Heap :=
  run step Heap.empty [.create .array 8, .create .object 16, .create .null 24, .attach 16 8, .attach 24 16]

/-- The key of that member. -/
def nestedKeys (x : Nat) : Option CString := if x = 24 then some ⟨lit "k", by decide⟩ else none

theorem path_resolves_nested : (jsPath nested nestedKeys (fun _ => true) 24).bind (jsResolve nested nestedKeys 8) =
    some 24 := by
  have t : Tree nested.view nested.kids := tree_made (by decide)
  have hobject : ∀ p, nested.view.type p = some .object → p = 16 := by
    intro p hp
    have hlt : p < nested.view.top := t.below p fun hnone => by simp [Heap.view, hnone] at hp
    have htop : nested.view.top = 25 := by decide
    have hall : ∀ p < 25, nested.view.type p = some .object → p = 16 := by decide
    exact hall p (htop ▸ hlt) hp
  have hkids : nested.kids 8 = [16] ∧ nested.kids 16 = [24] := by decide
  have hk : Keyed nested.view nested.kids nestedKeys 8 := by
    constructor
    · intro p _ hp c hc
      rw [hobject p hp, hkids.2, List.mem_singleton] at hc
      subst hc
      exact ⟨⟨lit "k", by decide⟩, rfl, by decide, by decide, by decide, by decide⟩
    · intro p _ hp c hc d hd _
      rw [hobject p hp, hkids.2, List.mem_singleton] at hc hd
      rw [hc, hd]
  have hl : [8, 16, 24].IsChain fun p c => c ∈ nested.kids p := by simp [hkids]
  have hleads : [8, 16, 24].IsChain (Leads nested.view nested.kids) := by
    have harray : nested.view.type 8 = some .array := by decide
    have hobject' : nested.view.type 16 = some .object := by decide
    refine .cons_cons (.inr ⟨harray, ?_⟩) (.cons_cons (.inl hobject') (.singleton _))
    rw [hkids.1, List.idxOf_cons_self]
    decide
  exact (path_resolves t (by simp only [Heap.view]; decide) (by decide) rfl hk hl rfl (by decide) fun _ => true).2
    ⟨fun _ _ => rfl, hleads⟩

/-- A number with a child. -/
def underNumber : Heap := run step Heap.empty [.create .number 8, .create .null 16, .attach 16 8]

/-- The path of the child is empty and leads to the number. -/
theorem path_under_number :
    Tree underNumber.view underNumber.kids ∧ underNumber.view.parent 8 = 0 ∧ underNumber.kids 8 = [16] ∧
      Keyed underNumber.view underNumber.kids (fun _ => none) 8 ∧
      (jsPath underNumber (fun _ => none) (fun _ => true) 16).bind (jsResolve underNumber (fun _ => none) 8) =
      some 8 := by
  have t : Tree underNumber.view underNumber.kids := tree_made (by decide)
  have hobject : ∀ p, underNumber.view.type p ≠ some .object := by
    intro p hp
    have hlt : p < underNumber.view.top := t.below p fun hnone => by simp [Heap.view, hnone] at hp
    have htop : underNumber.view.top = 17 := by decide
    have hall : ∀ p < 17, underNumber.view.type p ≠ some .object := by decide
    exact hall p (htop ▸ hlt) hp
  exact ⟨t, by decide, by decide, ⟨fun p _ hp => absurd hp (hobject p), fun p _ hp => absurd hp (hobject p)⟩,
    by decide⟩

end JACLibc.Json
