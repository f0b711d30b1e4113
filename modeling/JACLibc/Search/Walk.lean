import JACLibc.Search.TreeSpec

/-!
# `twalk`

`twalk` hands a node to the action of the caller together with the kind of the visit and the depth.  A visit of the
model also has the place of the node, the turns from the root to it, so that two nodes are told apart whatever their
addresses are.

A leaf is visited as a leaf besides its three visits as a node, and `postorder` comes behind both subtrees
(`twalk_visits`).
-/

namespace JACLibc

/-- `VISIT` -/
inductive VISIT where
  | preorder | postorder | endorder | leaf
  deriving DecidableEq, Repr

/-- The link that is followed from a node. -/
inductive Side where
  | left | right
  deriving DecidableEq, Repr

variable {K : Type*}

/-- A call of the action: the node by its place, its address and its key, and the arguments `which` and `depth`. -/
structure Visit (K : Type*) where
  place : List Side
  addr : Nat
  key : K
  which : VISIT
  depth : Nat
  deriving DecidableEq, Repr

namespace TNode

/-- `__jacl_t_walk` -/
def walk (place : List Side) (d : Nat) : TNode K → List (Visit K)
  | null => []
  | node a k l r =>
    ⟨place, a, k, .preorder, d⟩ :: ((if l.ptr = none ∧ r.ptr = none then [⟨place, a, k, .leaf, d⟩] else []) ++
      walk (place ++ [.left]) (d + 1) l ++ walk (place ++ [.right]) (d + 1) r ++ [⟨place, a, k, .postorder, d⟩,
      ⟨place, a, k, .endorder, d⟩])

/-- The link at a place. -/
def linkAt : List Side → TNode K → TNode K
  | [], t => t
  | _ :: _, null => null
  | .left :: p, node _ _ l _ => linkAt p l
  | .right :: p, node _ _ _ r => linkAt p r

/-- The keys of the leaves, from left to right. -/
def leafKeys : TNode K → List K
  | null => []
  | node _ k l r => if l.ptr = none ∧ r.ptr = none then [k] else l.leafKeys ++ r.leafKeys

/-- The keys, those of the two subtrees of a node in front of its own. -/
def childrenFirst : TNode K → List K
  | null => []
  | node _ k l r => l.childrenFirst ++ r.childrenFirst ++ [k]

/-- The visits of one node. -/
def visits (place : List Side) (d : Nat) : TNode K → List (Visit K)
  | null => []
  | node a k l r =>
    (if l.ptr = none ∧ r.ptr = none then [.preorder, .leaf, .postorder, .endorder] else [.preorder, .postorder,
      .endorder]).map
      fun which => ⟨place, a, k, which, d⟩

end TNode

/-- `twalk` -/
def twalk (root : TNode K) : List (Visit K) := root.walk [] 0

open TNode
open Compar (TotalPreorder)

/-! ### The visits of a node -/

theorem ptr_eq_none {t : TNode K} : t.ptr = none ↔ t = .null := by
  cases t <;> simp [ptr]

/-- A walk stays below the place where it starts. -/
theorem walk_place {t : TNode K} {place : List Side} {d : Nat} {v : Visit K} (hv : v ∈ t.walk place d) :
    place <+: v.place := by
  induction t generalizing place d with
  | null => cases hv
  | node a k l r ihl ihr =>
    have hown : ∀ which, place <+: (⟨place, a, k, which, d⟩ : Visit K).place := fun _ => List.prefix_refl place
    simp only [walk, List.mem_cons, List.mem_append] at hv
    rcases hv with rfl | ((hv | hv) | hv) | rfl | rfl | hv
    · exact hown _
    · split at hv
      · obtain rfl := List.mem_singleton.1 hv
        exact hown _
      · cases hv
    · exact (List.prefix_append place [.left]).trans (ihl hv)
    · exact (List.prefix_append place [.right]).trans (ihr hv)
    · exact hown _
    · exact hown _
    · cases hv

/-- Another place is not met. -/
theorem walk_filter_other (t : TNode K) {place p : List Side} (d : Nat) (hp : ¬place <+: p) :
    (t.walk place d).filter (fun v => v.place = p) = [] := by
  rw [List.filter_eq_nil_iff]
  intro v hv
  have hplace := walk_place hv
  simp only [decide_eq_true_eq]
  exact fun h => hp (h ▸ hplace)

/-- A node is met once for each of its visits, at the depth of its place. -/
theorem walk_filter (t : TNode K) (place p : List Side) (d : Nat) :
    (t.walk place d).filter (fun v => v.place = place ++ p) = (t.linkAt p).visits (place ++ p) (d + p.length) := by
  induction t generalizing place p d with
  | null => cases p <;> rfl
  | node a k l r ihl ihr =>
    rcases p with _ | ⟨side, p⟩
    · have hother : ∀ side, ¬place ++ [side] <+: place := by
        intro side h
        have := h.length_le
        rw [List.length_append, List.length_singleton] at this
        omega
      rw [List.append_nil, List.length_nil, Nat.add_zero, walk, linkAt, visits]
      simp only [List.filter_cons, List.filter_append, walk_filter_other l (d + 1) (hother .left),
        walk_filter_other r (d + 1) (hother .right)]
      by_cases hleaf : l.ptr = none ∧ r.ptr = none
      · simp [hleaf]
      · simp [hleaf]
    · have hown : place ≠ place ++ side :: p := by simp
      have hsplit : ∀ s : Side, place ++ s :: p = (place ++ [s]) ++ p := by simp
      have hturn : ∀ s s' : Side, s ≠ s' → ¬place ++ [s] <+: place ++ s' :: p := by
        intro s s' hne h
        rw [List.prefix_append_right_inj, List.cons_prefix_cons] at h
        exact hne h.1
      have hleaf : (if l.ptr = none ∧ r.ptr = none then [(⟨place, a, k, .leaf, d⟩ : Visit K)] else []).filter
          (fun v => v.place = place ++ side :: p) = [] := by
        split <;> simp
      rw [walk]
      simp only [List.filter_cons, List.filter_append, hleaf, decide_eq_false hown, List.filter_nil]
      cases side with
      | left =>
        rw [walk_filter_other r (d + 1) (hturn .right .left (by decide)), hsplit, ihl]
        simp [linkAt, Nat.add_assoc, Nat.add_comm 1]
      | right =>
        rw [walk_filter_other l (d + 1) (hturn .left .right (by decide)), hsplit, ihr]
        simp [linkAt, Nat.add_assoc, Nat.add_comm 1]

/-! ### The order of the visits -/

theorem walk_leaves (t : TNode K) (place : List Side) (d : Nat) :
    ((t.walk place d).filter (fun v => v.which = .leaf)).map Visit.key = t.leafKeys := by
  induction t generalizing place d with
  | null => rfl
  | node a k l r ihl ihr =>
    rw [walk, leafKeys]
    by_cases hleaf : l.ptr = none ∧ r.ptr = none
    · obtain ⟨rfl, rfl⟩ := And.imp ptr_eq_none.1 ptr_eq_none.1 hleaf
      simp [ptr, walk]
    · simp [hleaf, List.filter_append, ihl, ihr]

theorem walk_postorder (t : TNode K) (place : List Side) (d : Nat) :
    ((t.walk place d).filter (fun v => v.which = .postorder)).map Visit.key = t.childrenFirst := by
  induction t generalizing place d with
  | null => rfl
  | node a k l r ihl ihr =>
    have hleaf : (if l.ptr = none ∧ r.ptr = none then [(⟨place, a, k, .leaf, d⟩ : Visit K)] else []).filter
        (fun v => v.which = .postorder) = [] := by
      split <;> simp
    rw [walk, childrenFirst]
    simp [List.filter_append, hleaf, ihl, ihr]

theorem leafKeys_sublist (t : TNode K) : t.leafKeys.Sublist t.keys := by
  induction t with
  | null => exact List.Sublist.refl _
  | node a k l r ihl ihr =>
    rw [leafKeys, keys_node]
    split
    · exact List.singleton_sublist.2 (by simp)
    · exact ihl.append (ihr.cons k)

/-! ### Walks of the trees that the calls build -/

variable {compar : K → K → Int}

/-- In every tree that `tsearch` and `tdelete` build, a leaf is visited in preorder, as a leaf, in postorder and in
endorder, and an inner node in preorder, postorder and endorder, always with its depth; no other node is visited.  The
leaves come in ascending order of their keys, and the postorder visit of a node comes behind those of its two
subtrees. -/
theorem twalk_visits (hc : TotalPreorder compar) (calls : List (TCall K)) :
    let t := Machine.run (tstep compar) .null calls
    (∀ p, (twalk t).filter (fun v => v.place = p) = (t.linkAt p).visits p p.length) ∧
    (((twalk t).filter (fun v => v.which = .leaf)).map Visit.key = t.leafKeys ∧
    t.leafKeys.Pairwise fun a b => compar a b < 0) ∧
    ((twalk t).filter (fun v => v.which = .postorder)).map Visit.key = t.childrenFirst := by
  intro t
  refine ⟨fun p => ?_, ⟨walk_leaves t [] 0, ?_⟩, walk_postorder t [] 0⟩
  · have h := walk_filter t [] p 0
    rwa [List.nil_append, Nat.zero_add] at h
  · exact (tree_inv hc calls).ordered.sublist (leafKeys_sublist t)

/-- Three insertions: the two leaves are visited in the order of their keys. -/
theorem twalk_visits_three :
    ((twalk (Machine.run (tstep fun a b : Int => a - b) .null [.tsearch (some 10) 2, .tsearch (some 11) 3,
    .tsearch (some 12) 1])).filter
      (fun v => v.which = .leaf)).map Visit.key = [1, 3] :=
  (twalk_visits ⟨fun a b => by omega, fun a b c => by omega⟩ _).2.1.1.trans (by decide)

/-- The only node of a tree is visited in preorder too. -/
theorem twalk_single : ¬∀ calls : List (TCall Int),
    let t := Machine.run (tstep fun a b => a - b) .null calls
    (∀ p a k l r, t.linkAt p = .node a k l r → (twalk t).filter (fun v => v.place = p) =
      (if l.ptr = none ∧ r.ptr = none then [.leaf] else [.preorder, .postorder, .endorder]).map fun which =>
      ⟨p, a, k, which, p.length⟩) ∧
    ((twalk t).filter (fun v => v.which = .postorder ∨ v.which = .leaf)).map Visit.key = t.keys ∧
    t.keys.Pairwise fun a b => a - b < 0 := by
  intro h
  have hroot := (h [.tsearch (some 10) 1]).1 [] 10 1 .null .null rfl
  exact absurd hroot (by decide)

end JACLibc
