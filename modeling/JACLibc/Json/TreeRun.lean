import JACLibc.Json.TreeSpec

/-!
# Runs of the tree functions of `core/jsio.h`

A program makes nodes and calls the functions in any order, on nodes that are allocated; a node that it puts on a list
is on none before.  In every heap it reaches the lists of children are well linked, and a call changes the list of a
node only where it puts a child in or takes one out.
-/

namespace JACLibc.Json

open Linked Function Machine

/-! ### The children of a node -/

/-- The nodes met from `c` along `next`. -/
def walk (h : Heap) : Nat → Nat → List Nat
  | 0, _ => []
  | fuel + 1, c =>
    match h.node c with
    | none => []
    | some n => c :: walk h fuel n.next

/-- The list that starts at `p->first`. -/
def Heap.kids (h : Heap) (p : Nat) : List Nat :=
  match h.node p with
  | none => []
  | some n => walk h h.top n.first

variable {h : Heap} {K L : Nat → List Nat} {l l' m m' : List Nat} {c x p : Nat}

private theorem walk_eq {fuel : Nat} (h0 : ¬h.view.live 0) (hc : Chain h.view.next c l) (hl : ∀ x ∈ l, h.view.live x)
    (hf : l.length ≤ fuel) : walk h fuel c = l := by
  induction l generalizing c fuel with
  | nil =>
    obtain rfl : c = 0 := hc
    cases fuel with
    | zero => rfl
    | succ fuel => simp [walk, show h.node 0 = none from not_not.1 h0]
  | cons x l ih =>
    obtain ⟨fuel, rfl⟩ : ∃ k, fuel = k + 1 := ⟨fuel - 1, by simp at hf; omega⟩
    obtain ⟨rfl, -, hrest⟩ := hc
    obtain ⟨n, hn, -, -, hnext, -⟩ := Heap.read (hl c (by simp))
    simp only [walk, hn, hnext, List.cons.injEq, true_and]
    exact ih hrest (fun z hz => hl z (List.mem_cons_of_mem _ hz)) (by simpa using hf)

theorem Tree.kids_eq (t : Tree h.view K) (p : Nat) : h.kids p = K p := by
  by_cases hp : h.view.live p
  · obtain ⟨n, hn, -, -, -, hfirst, -⟩ := Heap.read hp
    simp only [Heap.kids, hn, hfirst]
    exact walk_eq t.null (t.chain p) (fun x hx => (t.listed p x hx).1) (t.length_le p)
  · simp [Heap.kids, not_not.1 hp, t.dead p hp]

/-- What the links promise. -/
structure WellLinked (h : Heap) : Prop where
  ends : ∀ p n, h.node p = some n → Chain h.view.next n.first (h.kids p)
  length : ∀ p n, h.node p = some n → n.length = (h.kids p).length
  parent : ∀ p, ∀ c ∈ h.kids p, ∃ n, h.node c = some n ∧ n.parent = p
  once : ∀ p, (h.kids p).Nodup
  one : ∀ p q, ∀ c ∈ h.kids p, c ∈ h.kids q → p = q

theorem Tree.wellLinked (t : Tree h.view K) : WellLinked h := by
  have hK : h.kids = K := funext t.kids_eq
  refine ⟨?_, ?_, ?_, ?_, ?_⟩ <;> rw [hK]
  · intro p n hn
    have := t.chain p
    simpa [Heap.view, hn] using this
  · intro p n hn
    have := t.length p
    simpa [Heap.view, hn] using this
  · intro p c hc
    obtain ⟨hlive, hpar⟩ := t.listed p c hc
    obtain ⟨n, hn, -, -, -, -, hp⟩ := Heap.read hlive
    exact ⟨n, hn, hp.trans hpar⟩
  · exact t.nodup
  · intro p q c hp hq
    exact (t.listed p c hp).2.symm.trans (t.listed q c hq).2

/-! ### The order of the untouched children -/

/-- The members that two lists have in common stand in the same order on both. -/
def SameOrder (l l' : List Nat) : Prop := l.filter (· ∈ l') = l'.filter (· ∈ l)

theorem SameOrder.refl (l : List Nat) : SameOrder l l := rfl

theorem SameOrder.nil (l : List Nat) : SameOrder l [] := by simp [SameOrder]

/-- A part of a list is exchanged for members that it does not have. -/
theorem SameOrder.splice {k : List Nat} (hnd : (l ++ (m ++ k)).Nodup) (hm : ∀ x ∈ m', x ∉ l ++ (m ++ k)) :
    SameOrder (l ++ (m ++ k)) (l ++ (m' ++ k)) := by
  obtain ⟨hl, hmk, hlmk⟩ := List.nodup_append.1 hnd
  obtain ⟨hm', hk, hmk'⟩ := List.nodup_append.1 hmk
  have hout : m.filter (fun x => decide (x ∈ l ++ (m' ++ k))) = [] := by
    rw [List.filter_eq_nil_iff]
    intro x hx
    simp only [List.mem_append, decide_eq_true_eq]
    rintro (h1 | h1 | h1)
    · exact hlmk x h1 x (by simp [hx]) rfl
    · exact hm x h1 (by simp [hx])
    · exact hmk' x hx x h1 rfl
  have hin : m'.filter (fun x => decide (x ∈ l ++ (m ++ k))) = [] := by
    rw [List.filter_eq_nil_iff]
    intro x hx
    simpa using hm x hx
  rw [SameOrder, List.filter_append, List.filter_append, List.filter_append, List.filter_append, hout, hin]
  congr 1
  · exact List.filter_congr fun x hx => by simp [hx]
  · rw [List.nil_append, List.nil_append]
    exact List.filter_congr fun x hx => by simp [hx]

theorem SameOrder.erase (hl : l.Nodup) (c : Nat) : SameOrder l (l.erase c) := by
  by_cases hc : c ∈ l
  · obtain ⟨l, m, rfl⟩ := List.append_of_mem hc
    have hcl : c ∉ l := by
      have := (List.nodup_middle.1 hl).notMem
      simp at this
      exact this.1
    rw [List.erase_append_right _ hcl, List.erase_cons_head]
    change SameOrder (l ++ ([c] ++ m)) (l ++ ([] ++ m))
    exact .splice hl (by simp)
  · rw [List.erase_of_not_mem hc]
    exact .refl l

/-- Members that are on both lists keep their order. -/
theorem SameOrder.filter_eq (hs : SameOrder l l') {U : Nat → Bool} (hl : ∀ x, U x → x ∈ l) (hl' : ∀ x, U x → x ∈ l') :
    l.filter U = l'.filter U := by
  have hboth : ∀ k k' : List Nat, (∀ x, U x → x ∈ k') → k.filter U = (k.filter (· ∈ k')).filter U := by
    intro k k' hk
    rw [List.filter_filter]
    refine List.filter_congr fun x _ => ?_
    by_cases hx : U x
    · simp [hx, hk x hx]
    · simp [hx]
  rw [hboth l l' hl', hboth l' l hl, hs]

/-! ### One call -/

/-- `NULL`, or a node that is allocated. -/
def Heap.Ptr (h : Heap) (x : Nat) : Prop := x = 0 ∨ (h.node x).isSome

/-- A node without `parent` and `next`. -/
def Heap.Detached (h : Heap) (x : Nat) : Prop := ∃ n ∈ h.node x, n.parent = 0 ∧ n.next = 0

def Heap.IsArray (h : Heap) (a : Nat) : Prop := ∃ n ∈ h.node a, n.type = .array

/-- The calls a program may make: with pointers to nodes, and inserting only nodes that are detached.  Nothing is
asked about the ancestors of the node inserted. -/
def Valid (h : Heap) : Op → Prop
  | .create _ x => h.node x = none
  | .attach c p => h.Ptr c ∧ h.Ptr p ∧ (c ≠ 0 → p ≠ 0 → h.Detached c)
  | .push a v => h.Ptr a ∧ h.Ptr v ∧ (h.IsArray a → v ≠ 0 → h.Detached v)
  | .unshift a v => h.Ptr a ∧ (h.IsArray a → h.Detached v)
  | .replace o n => h.Ptr o ∧ h.Ptr n ∧ (o ≠ 0 → n ≠ 0 → h.Detached n)
  | .detach x | .delete x | .pop x | .shift x => h.Ptr x

instance (x : Nat) : Decidable (h.Ptr x) := inferInstanceAs (Decidable (_ ∨ _))

instance (x : Nat) : Decidable (h.Detached x) :=
  match hx : h.node x with
  | none => isFalse fun ⟨_, hn, _⟩ => by simp [hx] at hn
  | some n => decidable_of_iff (n.parent = 0 ∧ n.next = 0) (by simp [Heap.Detached, hx])

instance (a : Nat) : Decidable (h.IsArray a) :=
  match ha : h.node a with
  | none => isFalse fun ⟨_, hn, _⟩ => by simp [ha] at hn
  | some n => decidable_of_iff (n.type = .array) (by simp [Heap.IsArray, ha])

instance : ∀ op, Decidable (Valid h op)
  | .create _ _ => inferInstanceAs (Decidable (_ = none))
  | .attach _ _ | .push _ _ | .replace _ _ => inferInstanceAs (Decidable (_ ∧ _ ∧ (_ → _)))
  | .unshift _ _ => inferInstanceAs (Decidable (_ ∧ (_ → _)))
  | .detach _ | .delete _ | .pop _ | .shift _ => inferInstanceAs (Decidable (h.Ptr _))

theorem Heap.Ptr.live (hp : h.Ptr x) (hx : x ≠ 0) : h.view.live x :=
  Option.isSome_iff_ne_none.1 (hp.resolve_left hx)

theorem Heap.Detached.live (hd : h.Detached x) : h.view.live x ∧ h.view.parent x = 0 := by
  obtain ⟨n, hn, hparent, -⟩ := hd
  rw [Option.mem_def] at hn
  simp [Heap.view, hn, hparent]

theorem Heap.IsArray.type (ha : h.IsArray x) : h.view.type x = some .array := by
  obtain ⟨n, hn, htype⟩ := ha
  rw [Option.mem_def] at hn
  simp [Heap.view, hn, htype]

/-- The heap and the lists after a call. -/
def After (h : Heap) (K : Nat → List Nat) (op : Op) : Prop :=
  ∃ r h' L, exec h op = some (r, h') ∧ Tree h'.view L ∧ ∀ p, SameOrder (K p) (L p)

private theorem sameOrder_update {q : Nat} (hq : SameOrder (K q) l) (p : Nat) : SameOrder (K p) (update K q l p) := by
  by_cases hp : p = q
  · subst hp
    rwa [update_self]
  · rw [update_of_ne hp]
    exact .refl _

private theorem after_create (t : Tree h.view K) (type : JsType) (hx : h.node x = none) :
    After h K (.create type x) := by
  by_cases hx0 : x = 0
  · exact ⟨x, h, K, by simp [exec, jsCreate, hx0], t, fun p => .refl _⟩
  · refine ⟨x, _, K, rfl, ?_, fun p => .refl _⟩
    -- the fields of the new node are 0, as the maps said before
    have hsame : ∀ g : Node → Nat, g ⟨type, 0, 0, 0, 0⟩ = 0 →
        (fun y => ((update h.node x (some ⟨type, 0, 0, 0, 0⟩) y).map g).getD 0) = fun y =>
        ((h.node y).map g).getD 0 := by
      intro g hg
      funext y
      by_cases hy : y = x
      · subst hy
        simp [hx, hg]
      · simp [hy]
    have hlive : ∀ y, update h.node x (some ⟨type, 0, 0, 0, 0⟩) y ≠ none ↔ h.node y ≠ none ∨ y = x := by
      intro y
      by_cases hy : y = x
      · subst hy
        simp
      · simp [hy]
    rw [jsCreate, if_neg hx0]
    simp only [Heap.view]
    rw [hsame (·.length) rfl, hsame (·.next) rfl, hsame (·.first) rfl, hsame (·.parent) rfl]
    refine ⟨?_, ?_, t.chain, t.length, t.nodup, ?_, t.child, t.root, ?_⟩
    · intro h0
      rcases (hlive 0).1 h0 with h0 | h0
      · exact t.null h0
      · exact hx0 h0.symm
    · intro y hy
      rcases (hlive y).1 hy with hy | rfl
      · exact Nat.lt_of_lt_of_le (t.below y hy) (Nat.le_max_left _ _)
      · exact Nat.lt_of_lt_of_le (Nat.lt_succ_self y) (Nat.le_max_right _ _)
    · intro p c hc
      exact ⟨(hlive c).2 (.inl (t.listed p c hc).1), (t.listed p c hc).2⟩
    · intro p hp
      exact t.dead p fun h1 => hp ((hlive p).2 (.inl h1))

private theorem after_none (t : Tree h.view K) {op : Op} {r : Nat} (he : exec h op = some (r, h)) : After h K op :=
  ⟨r, h, K, he, t, fun _ => .refl _⟩

private theorem sameOrder_append (t : Tree h.view K) (hroot : h.view.parent c = 0) (p : Nat) :
    SameOrder (K p) (K p ++ [c]) := by
  have hs : SameOrder (K p ++ ([] ++ [])) (K p ++ ([c] ++ [])) := by
    refine .splice (by simpa using t.nodup p) fun x hx => ?_
    obtain rfl := List.mem_singleton.1 hx
    simpa using t.not_mem hroot p
  simpa using hs

private theorem after_attach (t : Tree h.view K) (hv : Valid h (.attach c p)) : After h K (.attach c p) := by
  obtain ⟨hc, hp, hd⟩ := hv
  by_cases h0 : c = 0 ∨ p = 0
  · exact after_none t (r := 0) (by simp [exec, jsAttach, h0])
  · obtain ⟨hc0, hp0⟩ := not_or.1 h0
    have hroot := (hd hc0 hp0).live.2
    obtain ⟨h', e, t'⟩ := jsAttach_spec t (hp.live hp0) (hc.live hc0) hroot
    exact ⟨0, h', _, by simp [exec, e], t', sameOrder_update (sameOrder_append t hroot p)⟩

private theorem after_push {a : Nat} (t : Tree h.view K) (hv : Valid h (.push a c)) : After h K (.push a c) := by
  obtain ⟨ha, hc, hd⟩ := hv
  by_cases ha0 : a = 0
  · exact after_none t (r := 0) (by simp [exec, jsPush, ha0])
  · obtain ⟨n, hn, -⟩ := Heap.read (ha.live ha0)
    by_cases htype : n.type = .array
    · obtain ⟨r, h', L, e, t', hs⟩ := after_attach (c := c) (p := a) t ⟨hc, ha, fun hc0 _ => hd ⟨n, hn, htype⟩ hc0⟩
      refine ⟨r, h', L, ?_, t', hs⟩
      rw [← e]
      simp [exec, jsPush, ha0, hn, htype]
    · exact after_none t (r := 0) (by simp [exec, jsPush, ha0, hn, htype])

private theorem after_unshift {a : Nat} (t : Tree h.view K) (hv : Valid h (.unshift a c)) :
    After h K (.unshift a c) := by
  obtain ⟨ha, hd⟩ := hv
  by_cases ha0 : a = 0
  · exact after_none t (r := 0) (by simp [exec, jsUnshift, ha0])
  · obtain ⟨n, hn, -⟩ := Heap.read (ha.live ha0)
    by_cases htype : n.type = .array
    · have harr : h.IsArray a := ⟨n, hn, htype⟩
      obtain ⟨hc, hroot⟩ := (hd harr).live
      obtain ⟨h', e, hv⟩ := jsUnshift_spec t harr.type (ha.live ha0) hc
      refine ⟨0, h', _, by simp [exec, e], hv ▸ t.cons (ha.live ha0) hc hroot, sameOrder_update ?_⟩
      change SameOrder ([] ++ ([] ++ K a)) ([] ++ ([c] ++ K a))
      refine .splice (by simpa using t.nodup a) fun x hx => ?_
      obtain rfl := List.mem_singleton.1 hx
      simpa using t.not_mem hroot a
    · exact after_none t (r := 0) (by simp [exec, jsUnshift, ha0, hn, htype])

private theorem sameOrder_unlink {q : Nat} (t : Tree h.view K) (hK : K q = l ++ c :: m) (p : Nat) :
    SameOrder (K p) (update K q (l ++ m) p) := by
  refine sameOrder_update ?_ p
  rw [hK]
  change SameOrder (l ++ ([c] ++ m)) (l ++ ([] ++ m))
  exact .splice (by simpa [hK] using t.nodup q) (by simp)

private theorem after_detach (t : Tree h.view K) (hx : h.Ptr x) : After h K (.detach x) := by
  by_cases hx0 : x = 0
  · exact after_none t (r := 0) (by simp [exec, jsDetach, hx0])
  · obtain ⟨h', e, t', -⟩ := jsDetach_tree t (hx.live hx0)
    exact ⟨0, h', _, by simp [exec, e], t', fun p => .erase (t.nodup p) x⟩

private theorem after_pop (t : Tree h.view K) (hx : h.Ptr x) : After h K (.pop x) := by
  by_cases hx0 : x = 0
  · exact after_none t (r := 0) (by simp [exec, jsPop, hx0])
  · obtain ⟨n, hn, -, -, -, hfirst, -⟩ := Heap.read (hx.live hx0)
    by_cases htype : n.type = .array
    · rcases List.eq_nil_or_concat' (K x) with hK | ⟨l, c, hK⟩
      · have hempty : n.first = 0 := by rw [hfirst, (t.chain x).start_eq, hK, List.headD_nil]
        exact after_none t (r := 0) (by simp [exec, jsPop, hx0, hn, hempty])
      · obtain ⟨h', e, hv⟩ := jsPop_spec t (Heap.IsArray.type ⟨n, hn, htype⟩) hK
        refine ⟨c, h', _, e, hv ▸ t.unlink hK, sameOrder_unlink t hK⟩
    · exact after_none t (r := 0) (by simp [exec, jsPop, hx0, hn, htype])

private theorem after_shift (t : Tree h.view K) (hx : h.Ptr x) : After h K (.shift x) := by
  by_cases hx0 : x = 0
  · exact after_none t (r := 0) (by simp [exec, jsShift, hx0])
  · obtain ⟨n, hn, -, -, -, hfirst, -⟩ := Heap.read (hx.live hx0)
    by_cases htype : n.type = .array
    · cases hK : K x with
      | nil =>
        have hempty : n.first = 0 := by rw [hfirst, (t.chain x).start_eq, hK, List.headD_nil]
        exact after_none t (r := 0) (by simp [exec, jsShift, hx0, hn, hempty])
      | cons c m =>
        obtain ⟨h', e, hv⟩ := jsShift_spec t (Heap.IsArray.type ⟨n, hn, htype⟩) hK
        exact ⟨c, h', _, e, hv ▸ t.unlink (l := []) hK, sameOrder_unlink (l := []) t hK⟩
    · exact after_none t (r := 0) (by simp [exec, jsShift, hx0, hn, htype])

/-- `js_delete` keeps the order, and empties the lists of what it deletes. -/
private theorem Deleted.sameOrder {v w : View} (t : Tree v K) (hd : Deleted v K x w L) (p : Nat) :
    SameOrder (K p) (L p) := by
  by_cases hp : w.live p
  · rw [(hd.kept p hp).2.2.2]
    exact .erase (t.nodup p) x
  · rw [hd.tree.dead p hp]
    exact .nil _

private theorem after_delete (t : Tree h.view K) (hx : h.Ptr x) : After h K (.delete x) := by
  by_cases hx0 : x = 0
  · exact after_none t (r := 0) (by simp [exec, deleteFuel, jsDelete, hx0])
  · obtain ⟨h', L, e, hd⟩ := jsDelete_spec t (hx.live hx0)
    exact ⟨0, h', L, by simp [exec, e], hd.tree, hd.sameOrder t⟩

private theorem after_replace {o n : Nat} (t : Tree h.view K) (hv : Valid h (.replace o n)) :
    After h K (.replace o n) := by
  obtain ⟨ho, hn, hd⟩ := hv
  by_cases h0 : o = 0 ∨ n = 0
  · exact after_none t (r := 0) (by simp [exec, jsReplace, h0])
  · obtain ⟨ho0, hn0⟩ := not_or.1 h0
    have hlive := ho.live ho0
    obtain ⟨hnlive, hnroot⟩ := (hd ho0 hn0).live
    by_cases hroot : h.view.parent o = 0
    · obtain ⟨h1, e1, v1⟩ := jsReplace_root t hlive hroot hnlive hnroot
      obtain ⟨h', L, e, hdel⟩ := jsDelete_spec (h := h1) (x := o) (v1 ▸ t) (v1 ▸ hlive)
      exact ⟨0, h', L, by simp [exec, e1, e], hdel.tree, hdel.sameOrder (v1 ▸ t)⟩
    · obtain ⟨l, m, hK⟩ := List.append_of_mem (t.child o hroot)
      obtain ⟨h1, e1, v1⟩ := jsReplace_links t hK hnlive hnroot
      have t1 := t.swap hK hnlive hnroot
      rw [← v1] at t1
      have hroot1 : h1.view.parent o = 0 := by simp [v1, View.swap]
      obtain ⟨h', L, e, hdel⟩ := jsDelete_spec (h := h1) (x := o) t1 (by rw [v1]; exact hlive)
      refine ⟨0, h', L, by simp [exec, e1, e], hdel.tree, fun p => ?_⟩
      by_cases hp : h'.view.live p
      · rw [(hdel.kept p hp).2.2.2, List.erase_of_not_mem (t1.not_mem hroot1 p)]
        refine sameOrder_update ?_ p
        rw [hK]
        change SameOrder (l ++ ([o] ++ m)) (l ++ ([n] ++ m))
        refine .splice (by simpa [hK] using t.nodup (h.view.parent o)) fun x hx => ?_
        obtain rfl := List.mem_singleton.1 hx
        simpa [hK] using t.not_mem hnroot (h.view.parent o)
      · rw [hdel.tree.dead p hp]
        exact .nil _

/-- Every valid call comes to an end, keeps the invariant and the order of the children that stay. -/
theorem exec_spec (t : Tree h.view K) {op : Op} (hv : Valid h op) : After h K op := by
  cases op with
  | create type x => exact after_create t type hv
  | attach c p => exact after_attach t hv
  | detach x => exact after_detach t hv
  | replace o n => exact after_replace t hv
  | delete x => exact after_delete t hv
  | push a v => exact after_push t hv
  | pop a => exact after_pop t hv
  | unshift a v => exact after_unshift t hv
  | shift a => exact after_shift t hv

/-! ### Runs -/

theorem tree_empty : Tree Heap.empty.view fun _ => [] := by
  refine ⟨?_, ?_, ?_, ?_, ?_, ?_, ?_, ?_, ?_⟩ <;> simp [Heap.view, Heap.empty, Chain]

/-- A heap with well-linked lists. -/
def Threaded (h : Heap) : Prop := ∃ K, Tree h.view K

theorem Threaded.tree (hl : Threaded h) : Tree h.view h.kids := by
  obtain ⟨K, t⟩ := hl
  rwa [funext t.kids_eq]

private theorem step_spec {op : Op} (hl : Threaded h) (hv : Valid h op) :
    (step h op).1 ≠ none ∧ Threaded (step h op).2 ∧ ∀ p, SameOrder (h.kids p) ((step h op).2.kids p) := by
  obtain ⟨K, t⟩ := hl
  obtain ⟨r, h', L, e, t', hs⟩ := exec_spec t hv
  have hstep : step h op = (some r, h') := by rw [step, e]
  rw [hstep]
  refine ⟨by simp, ⟨L, t'⟩, fun p => ?_⟩
  rw [t.kids_eq p, t'.kids_eq p]
  exact hs p

theorem threaded_run {ops : List Op} (hl : Threaded h) (hv : Guarded step Valid h ops) : Threaded (run step h ops) :=
  guarded_invariant (I := Threaded) (fun _ _ hl hv => (step_spec hl hv).2.1) hl hv

private theorem trace_answers {ops : List Op} (hl : Threaded h) (hv : Guarded step Valid h ops) :
    ∀ a ∈ trace step h ops, a.2 ≠ none := by
  induction ops generalizing h with
  | nil => simp [trace]
  | cons op ops ih =>
    obtain ⟨hans, hl', -⟩ := step_spec hl hv.1
    intro a ha
    rcases List.mem_cons.1 ha with rfl | ha
    · exact hans
    · exact ih hl' hv.2 a ha

/-- Children that stay on a list through a run keep their order. -/
private theorem run_order {ops : List Op} {U : Nat → Bool} (hl : Threaded h) (hv : Guarded step Valid h ops)
    (hU : ∀ k ≤ ops.length, ∀ x, U x → x ∈ (run step h (ops.take k)).kids p) :
    (h.kids p).filter U = ((run step h ops).kids p).filter U := by
  induction ops generalizing h with
  | nil => rfl
  | cons op ops ih =>
    obtain ⟨-, hl', hs⟩ := step_spec hl hv.1
    have hnow : ∀ x, U x → x ∈ h.kids p := hU 0 (Nat.zero_le _)
    have hthen : ∀ x, U x → x ∈ (step h op).2.kids p := by simpa [run] using hU 1 (by simp)
    rw [(hs p).filter_eq hnow hthen]
    refine ih hl' hv.2 fun k hk => ?_
    simpa [run] using hU (k + 1) (by simpa using hk)

/-- In every run of valid calls from no nodes at all, every call comes to an end, and then: the length of every node
is the number of nodes on its list, these have it as their parent, and no node is on two lists or twice on one; and
whichever children of a node stay on its list from one state of the run to a later one are in the same order in both.
-/
theorem json_tree_invariant (ops : List Op) (hv : Guarded step Valid Heap.empty ops) :
    (∀ a ∈ trace step Heap.empty ops, a.2 ≠ none) ∧ WellLinked (run step Heap.empty ops) ∧
      ∀ before since, ops = before ++ since → ∀ (p : Nat) (U : Nat → Bool),
        (∀ k ≤ since.length, ∀ x, U x → x ∈ (run step Heap.empty (before ++ since.take k)).kids p) →
        ((run step Heap.empty before).kids p).filter U = ((run step Heap.empty ops).kids p).filter U := by
  have hempty : Threaded Heap.empty := ⟨_, tree_empty⟩
  refine ⟨trace_answers hempty hv, ?_, ?_⟩
  · obtain ⟨K, t⟩ := threaded_run hempty hv
    exact t.wellLinked
  · rintro before since rfl p U hU
    obtain ⟨hbefore, hsince⟩ := guarded_append.1 hv
    rw [run_append]
    refine run_order (threaded_run hempty hbefore) hsince fun k hk => ?_
    rw [← run_append]
    exact hU k hk

/-- The calls of `json_tree_invariant_calls`: an array of three nodes, the second of which is replaced, with a child
below the third that goes away with it. -/
def someCalls : List Op :=
  [.create .array 8, .create .string 16, .create .null 24, .create .object 32, .create .null 40, .create .number 48,
    .push 8 24, .unshift 8 16, .attach 32 8, .attach 40 32, .replace 24 48, .delete 32, .pop 8]

theorem json_tree_invariant_calls :
    (run step Heap.empty someCalls).kids 8 = [16] ∧ WellLinked (run step Heap.empty someCalls) :=
  ⟨by decide, (json_tree_invariant someCalls (by decide)).2.1⟩

end JACLibc.Json
