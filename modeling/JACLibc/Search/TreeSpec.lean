import JACLibc.Search.Tree
import JACLibc.Lib.Compar
import Mathlib.Data.List.Basic

/-!
# The tree is an ordered set of keys

The invariant is that the in-order sequence of the keys is strictly increasing (`Ordered`), which rules out
duplicates too.  `tsearch` puts a missing key at its place in the sequence, and `tdelete` takes the key out of it: in
all three deletion shapes the in-order sequence of the tree that replaces the node is that of its two subtrees
(`keys_tUnlink`).

The presence of a key after a run is read off the trace: the last call that had an effect on it was an insertion
(`lastInserted`).
-/

namespace JACLibc

open Compar (TotalPreorder)

variable {K : Type*} {compar : K → K → Int}

namespace TNode

/-- The nodes in order, each with its address. -/
def nodes : TNode K → List (Nat × K)
  | null => []
  | node a k l r => nodes l ++ (a, k) :: nodes r

/-- The keys in order. -/
def keys (t : TNode K) : List K := t.nodes.map Prod.snd

@[simp] theorem keys_null : (null : TNode K).keys = [] := rfl

@[simp] theorem keys_node (a : Nat) (k : K) (l r : TNode K) : (node a k l r).keys = l.keys ++ k :: r.keys := by
  simp [keys, nodes]

/-- The keys are strictly increasing in order: a binary search tree without duplicate keys. -/
def Ordered (compar : K → K → Int) (t : TNode K) : Prop := t.keys.Pairwise fun a b => compar a b < 0

theorem Ordered.left {a : Nat} {k : K} {l r : TNode K} (h : Ordered compar (node a k l r)) : Ordered compar l := by
  unfold Ordered at h ⊢
  rw [keys_node, List.pairwise_append] at h
  exact h.1

theorem Ordered.right {a : Nat} {k : K} {l r : TNode K} (h : Ordered compar (node a k l r)) : Ordered compar r := by
  unfold Ordered at h ⊢
  rw [keys_node, List.pairwise_append, List.pairwise_cons] at h
  exact h.2.1.2

theorem Ordered.lt_of_mem_left {a : Nat} {k : K} {l r : TNode K} (h : Ordered compar (node a k l r)) {x : K}
    (hx : x ∈ l.keys) : compar x k < 0 := by
  unfold Ordered at h
  rw [keys_node, List.pairwise_append] at h
  exact h.2.2 x hx k (by simp)

theorem Ordered.lt_of_mem_right {a : Nat} {k : K} {l r : TNode K} (h : Ordered compar (node a k l r)) {x : K}
    (hx : x ∈ r.keys) : compar k x < 0 := by
  unfold Ordered at h
  rw [keys_node, List.pairwise_append, List.pairwise_cons] at h
  exact h.2.1.1 x hx

theorem ordered_node (hc : TotalPreorder compar) {a : Nat} {k : K} {l r : TNode K} (hl : Ordered compar l)
    (hr : Ordered compar r) (hlk : ∀ x ∈ l.keys, compar x k < 0) (hkr : ∀ x ∈ r.keys, compar k x < 0) :
    Ordered compar (node a k l r) := by
  unfold Ordered
  rw [keys_node, List.pairwise_append, List.pairwise_cons]
  refine ⟨hl, ⟨hkr, hr⟩, fun x hx y hy => ?_⟩
  rcases List.mem_cons.1 hy with rfl | hy
  · exact hlk x hx
  · exact hc.lt_trans (hlk x hx) (hkr y hy)

end TNode

open TNode

/-! ### Finding -/

/-- A key on the left of a node is not equal to a key that compares greater than the node, and the other way
round. -/
private theorem ne_of_lt_node (hc : TotalPreorder compar) {key k x : K} (h : compar key k < 0) (hx : compar k x < 0) :
    compar key x ≠ 0 := by
  have := hc.lt_trans h hx
  omega

private theorem ne_of_gt_node (hc : TotalPreorder compar) {key k x : K} (h : 0 < compar key k) (hx : compar x k < 0) :
    compar key x ≠ 0 := by
  have := hc.lt_trans hx ((hc.swap k key).2 h)
  have := (hc.swap x key).1 this
  omega

/-- The walk ends at a node whose key compares equal. -/
theorem tWalk_node {key k : K} {t l r : TNode K} {a : Nat} (h : tWalk compar key t = .node a k l r) :
    compar key k = 0 ∧ (a, k) ∈ t.nodes := by
  induction t with
  | null => simp [tWalk] at h
  | node a' k' l' r' ihl ihr =>
    unfold tWalk at h
    split at h
    · rename_i h0
      cases h
      exact ⟨h0, by simp [nodes]⟩
    · split at h
      · exact ⟨(ihl h).1, by simp [nodes, (ihl h).2]⟩
      · exact ⟨(ihr h).1, by simp [nodes, (ihr h).2]⟩

/-- In a search tree the walk ends at NULL exactly when no key compares equal. -/
theorem tWalk_eq_null (hc : TotalPreorder compar) {key : K} {t : TNode K} (ht : Ordered compar t) :
    tWalk compar key t = .null ↔ ∀ x ∈ t.keys, compar key x ≠ 0 := by
  induction t with
  | null => simp [tWalk]
  | node a k l r ihl ihr =>
    unfold tWalk
    simp only [keys_node, List.mem_append, List.mem_cons]
    split
    · rename_i h0
      simp only [reduceCtorEq, false_iff, not_forall]
      exact ⟨k, by simp, by simpa using h0⟩
    · rename_i h0
      split
      · rename_i hlt
        rw [ihl ht.left]
        refine ⟨fun h x hx => ?_, fun h x hx => h x (by simp [hx])⟩
        rcases hx with hx | rfl | hx
        · exact h x hx
        · exact h0
        · exact ne_of_lt_node hc hlt (ht.lt_of_mem_right hx)
      · rename_i hgt
        rw [ihr ht.right]
        refine ⟨fun h x hx => ?_, fun h x hx => h x (by simp [hx])⟩
        rcases hx with hx | rfl | hx
        · exact ne_of_gt_node hc (by omega) (ht.lt_of_mem_left hx)
        · exact h0
        · exact h x hx

/-! ### Inserting -/

theorem mem_keys_tInsert {key : K} {m : Option Nat} {t : TNode K} (h : tWalk compar key t = .null) {x : K} :
    x ∈ (tInsert compar m key t).keys ↔ x ∈ t.keys ∨ (x = key ∧ m.isSome) := by
  induction t with
  | null => cases m <;> simp [tInsert, tNew]
  | node a k l r ihl ihr =>
    unfold tWalk at h
    unfold tInsert
    split at h
    · cases h
    · rename_i h0
      split at h
      · rename_i hlt
        simp only [h0, hlt, ↓reduceIte, keys_node, List.mem_append, List.mem_cons, ihl h]
        grind
      · rename_i hgt
        simp only [h0, hgt, ↓reduceIte, keys_node, List.mem_append, List.mem_cons, ihr h]
        grind

theorem ordered_tInsert (hc : TotalPreorder compar) {key : K} {m : Option Nat} {t : TNode K}
    (ht : Ordered compar t) (h : tWalk compar key t = .null) : Ordered compar (tInsert compar m key t) := by
  induction t with
  | null => cases m <;> simp [tInsert, tNew, Ordered]
  | node a k l r ihl ihr =>
    unfold tWalk at h
    unfold tInsert
    split at h
    · cases h
    · rename_i h0
      split at h
      · rename_i hlt
        simp only [h0, hlt, ↓reduceIte]
        refine ordered_node hc (ihl ht.left h) ht.right (fun x hx => ?_) (fun x hx => ht.lt_of_mem_right hx)
        rcases (mem_keys_tInsert h).1 hx with hx | ⟨rfl, -⟩
        · exact ht.lt_of_mem_left hx
        · exact hlt
      · rename_i hgt
        simp only [h0, hgt, ↓reduceIte]
        refine ordered_node hc ht.left (ihr ht.right h) (fun x hx => ht.lt_of_mem_left hx) (fun x hx => ?_)
        rcases (mem_keys_tInsert h).1 hx with hx | ⟨rfl, -⟩
        · exact ht.lt_of_mem_right hx
        · exact (hc.swap k x).2 (by omega)

/-! ### Deleting -/

/-- Unlinking the successor takes the first key off the sequence, whether it is the child itself or a left
descendant. -/
theorem keys_unlinkSucc (d : K) (a : Nat) (k : K) (l r : TNode K) :
    (TNode.node a k l r).keys = succKey d (.node a k l r) :: (unlinkSucc (.node a k l r)).keys := by
  induction l generalizing a k r with
  | null => simp [succKey, unlinkSucc]
  | node a' k' l' r' ihl _ =>
    have := ihl a' k' r'
    rw [keys_node, this]
    simp [succKey, unlinkSucc]

/-- The three deletion shapes: the node's key goes, the keys of its subtrees stay in order. -/
theorem keys_tUnlink (a : Nat) (k : K) (l r : TNode K) : (tUnlink (.node a k l r)).keys = l.keys ++ r.keys := by
  cases l with
  | null => simp [tUnlink]
  | node a' k' l' r' =>
    cases r with
    | null => simp [tUnlink]
    | node b m l'' r'' =>
      simp only [tUnlink]
      rw [keys_node, ← keys_unlinkSucc]

private theorem keys_tRemove_sublist (key : K) (t : TNode K) : (tRemove compar key t).keys.Sublist t.keys := by
  induction t with
  | null => simp [tRemove]
  | node a k l r ihl ihr =>
    unfold tRemove
    split
    · rw [keys_tUnlink, keys_node]
      exact (List.Sublist.refl _).append (List.sublist_cons_self _ _)
    · split
      · simpa only [keys_node] using ihl.append (List.Sublist.refl _)
      · simpa only [keys_node] using (List.Sublist.refl _).append (ihr.cons_cons k)

theorem ordered_tRemove {key : K} {t : TNode K} (ht : Ordered compar t) : Ordered compar (tRemove compar key t) :=
  List.Pairwise.sublist (keys_tRemove_sublist key t) ht

theorem mem_keys_tRemove (hc : TotalPreorder compar) {key : K} {t : TNode K} (ht : Ordered compar t) {x : K} :
    x ∈ (tRemove compar key t).keys ↔ x ∈ t.keys ∧ compar key x ≠ 0 := by
  induction t with
  | null => simp [tRemove]
  | node a k l r ihl ihr =>
    -- a key in one subtree compares unequal to the deleted key when that key belongs elsewhere
    have hleft : 0 ≤ compar key k → x ∈ l.keys → compar key x ≠ 0 := by
      intro hge hx
      have := hc.lt_of_lt_of_le (ht.lt_of_mem_left hx) (hc.le_swap.2 hge)
      have := (hc.swap x key).1 this
      omega
    have hright : compar key k ≤ 0 → x ∈ r.keys → compar key x ≠ 0 := by
      intro hle hx
      have := hc.lt_of_le_of_lt hle (ht.lt_of_mem_right hx)
      omega
    unfold tRemove
    split
    · rename_i h0
      rw [keys_tUnlink, keys_node]
      simp only [List.mem_append, List.mem_cons]
      constructor
      · rintro (hx | hx)
        · exact ⟨.inl hx, hleft (by omega) hx⟩
        · exact ⟨.inr (.inr hx), hright (by omega) hx⟩
      · rintro ⟨hx | rfl | hx, hne⟩
        · exact .inl hx
        · exact absurd h0 hne
        · exact .inr hx
    · rename_i h0
      split
      · rename_i hlt
        simp only [keys_node, List.mem_append, List.mem_cons, ihl ht.left]
        constructor
        · rintro (⟨hx, hne⟩ | rfl | hx)
          · exact ⟨.inl hx, hne⟩
          · exact ⟨.inr (.inl rfl), h0⟩
          · exact ⟨.inr (.inr hx), hright (by omega) hx⟩
        · rintro ⟨hx | rfl | hx, hne⟩
          · exact .inl ⟨hx, hne⟩
          · exact .inr (.inl rfl)
          · exact .inr (.inr hx)
      · rename_i hgt
        simp only [keys_node, List.mem_append, List.mem_cons, ihr ht.right]
        constructor
        · rintro (hx | rfl | ⟨hx, hne⟩)
          · exact ⟨.inl hx, hleft (by omega) hx⟩
          · exact ⟨.inr (.inl rfl), h0⟩
          · exact ⟨.inr (.inr hx), hne⟩
        · rintro ⟨hx | rfl | hx, hne⟩
          · exact .inl hx
          · exact .inr (.inl rfl)
          · exact .inr (.inr ⟨hx, hne⟩)

/-! ### The calls so far -/

/-- The effect of one call on the presence of `k`: a `tsearch` of the key that returns a node leaves it present, a
`tdelete` of the key leaves it absent. -/
def treeEffect (compar : K → K → Int) (k : K) (old : Bool) : TCall K × Except Errno (Option Nat) → Bool
  | (.tsearch _ key, .ok (some _)) => if compar k key = 0 then true else old
  | (.tdelete key, _) => if compar k key = 0 then false else old
  | _ => old

/-- The last call with an effect on `k` was an insertion. -/
def lastInserted (compar : K → K → Int) (tr : List (TCall K × Except Errno (Option Nat))) (k : K) : Bool :=
  tr.foldl (treeEffect compar k) false

/-- The tree is a search tree whose keys are those whose last effect was an insertion. -/
structure TreeInv (compar : K → K → Int) (tr : List (TCall K × Except Errno (Option Nat))) (t : TNode K) : Prop where
  ordered : Ordered compar t
  present : ∀ k, (∃ x ∈ t.keys, compar k x = 0) ↔ lastInserted compar tr k = true

private theorem tsearch_present {key : K} {m : Option Nat} {t l r : TNode K} {a : Nat} {k : K}
    (h : tWalk compar key t = .node a k l r) : tsearch compar m key t = (.ok (some a), t) := by
  unfold tsearch; rw [h]

private theorem tsearch_absent {key : K} {m : Option Nat} {t : TNode K} (h : tWalk compar key t = .null) :
    tsearch compar m key t = (.ok m, tInsert compar m key t) := by
  unfold tsearch; rw [h]

/-- `tdelete` leaves the tree with the key removed; when it is not there this is the same tree. -/
private theorem tdelete_tree (key : K) (t : TNode K) :
    (tWalk compar key t = .null ∧ (tdelete compar key t).2 = t) ∨
    (tdelete compar key t).2 = tRemove compar key t := by
  cases t with
  | null => exact .inl ⟨rfl, rfl⟩
  | node a k l r =>
    unfold tdelete
    rcases tWalk compar key (.node a k l r) with _ | _
    · exact .inl ⟨rfl, rfl⟩
    · exact .inr rfl

theorem mem_keys_tdelete (hc : TotalPreorder compar) {key : K} {t : TNode K} (ht : Ordered compar t) {x : K} :
    x ∈ (tdelete compar key t).2.keys ↔ x ∈ t.keys ∧ compar key x ≠ 0 := by
  rcases tdelete_tree key t with ⟨hw, h⟩ | h
  · rw [h]
    exact ⟨fun hx => ⟨hx, (tWalk_eq_null hc ht).1 hw x hx⟩, fun hx => hx.1⟩
  · rw [h]
    exact mem_keys_tRemove hc ht

private theorem ordered_tdelete {key : K} {t : TNode K} (ht : Ordered compar t) :
    Ordered compar (tdelete compar key t).2 := by
  rcases tdelete_tree key t with ⟨-, h⟩ | h
  · rw [h]; exact ht
  · rw [h]; exact ordered_tRemove ht

/-- Two keys that compare equal compare equal to the same keys. -/
private theorem eq_congr (hc : TotalPreorder compar) {a b x : K} (h : compar a b = 0) :
    compar a x = 0 ↔ compar b x = 0 := by
  have hba := hc.eq_swap.1 h
  have key : ∀ {a b : K}, compar a b = 0 → compar b a = 0 → compar b x = 0 → compar a x = 0 := by
    intro a b h h' hx
    have h1 := hc.trans a b x (by omega) (by omega)
    have h2 := hc.trans x b a (by rw [hc.le_swap]; omega) (by omega)
    rw [hc.le_swap] at h2
    omega
  exact ⟨key hba h, key h hba⟩

private theorem treeInv_step (hc : TotalPreorder compar) (tr : List (TCall K × Except Errno (Option Nat)))
    (t : TNode K) (c : TCall K) (h : TreeInv compar tr t) :
    TreeInv compar (tr ++ [(c, (tstep compar t c).1)]) (tstep compar t c).2 := by
  have happ : ∀ (c : TCall K × Except Errno (Option Nat)) k,
      lastInserted compar (tr ++ [c]) k = treeEffect compar k (lastInserted compar tr k) c := by
    intro c k; simp [lastInserted]
  cases c with
  | tsearch m key =>
    rcases hw : tWalk compar key t with _ | ⟨a, k', l, r⟩
    · simp only [tstep, tsearch_absent hw]
      refine ⟨ordered_tInsert hc h.ordered hw, fun k => ?_⟩
      rw [happ]
      have hmem : (∃ x ∈ (tInsert compar m key t).keys, compar k x = 0) ↔
          (∃ x ∈ t.keys, compar k x = 0) ∨ (compar k key = 0 ∧ m.isSome) := by
        simp only [mem_keys_tInsert hw, or_and_right, exists_or, and_assoc, exists_eq_left]
        rw [and_comm (a := m.isSome = true)]
      rw [hmem, h.present]
      cases m with
      | none => simp [treeEffect]
      | some a => by_cases hk : compar k key = 0 <;> simp [treeEffect, hk]
    · simp only [tstep, tsearch_present hw]
      refine ⟨h.ordered, fun k => ?_⟩
      rw [happ, treeEffect]
      split
      · rename_i hk
        have hw' := tWalk_node hw
        refine ⟨fun _ => rfl, fun _ => ⟨k', List.mem_map_of_mem hw'.2, ?_⟩⟩
        rw [eq_congr hc hk]
        exact hw'.1
      · exact h.present k
  | tfind key =>
    refine ⟨h.ordered, fun k => ?_⟩
    rw [happ]
    exact h.present k
  | tdelete key =>
    refine ⟨ordered_tdelete h.ordered, fun k => ?_⟩
    rw [happ]
    simp only [tstep, treeEffect, mem_keys_tdelete hc h.ordered]
    split
    · rename_i hk
      simp only [Bool.false_eq_true, iff_false, not_exists, not_and]
      rintro x ⟨-, hne⟩ hx
      exact hne ((eq_congr hc hk).1 hx)
    · rename_i hk
      rw [← h.present]
      refine exists_congr fun x => ⟨fun hx => ⟨hx.1.1, hx.2⟩, fun hx => ⟨⟨hx.1, fun hkx => hk ?_⟩, hx.2⟩⟩
      rw [eq_congr hc hx.2]
      exact hc.eq_swap.1 hkx

/-! ### The whole run -/

theorem tree_inv (hc : TotalPreorder compar) (calls : List (TCall K)) :
    TreeInv compar (Machine.trace (tstep compar) .null calls) (Machine.run (tstep compar) .null calls) :=
  Machine.trace_invariant (treeInv_step hc) ⟨by simp [Ordered], by simp [lastInserted]⟩ calls

/-- `tfind` finds a node exactly when the walk does. -/
private theorem tfind_eq_some {key : K} {t : TNode K} {a : Nat} :
    tfind compar key t = .ok (some a) ↔ ∃ k l r, tWalk compar key t = .node a k l r := by
  cases t with
  | null => simp [tfind, tWalk]
  | node a' k' l' r' =>
    simp only [tfind, Except.ok.injEq]
    rcases tWalk compar key (.node a' k' l' r') with _ | ⟨b, k, l, r⟩ <;> simp [ptr]

/-- After every sequence of calls on one root, with any allocation failures: the tree is a search tree without
duplicate keys; `tfind` finds a node exactly when the last effect on the key was an insertion, and then the node has
that key and `tsearch` returns it and changes nothing; `tsearch` of a missing key adds that key alone, and nothing
when the allocation fails; `tdelete` removes its key and no other. -/
theorem tree_ordered_set (hc : TotalPreorder compar) (calls : List (TCall K)) :
    let tr := Machine.trace (tstep compar) .null calls
    let s := Machine.run (tstep compar) .null calls
    Ordered compar s ∧
    (∀ k, (∃ a, tfind compar k s = .ok (some a)) ↔ lastInserted compar tr k = true) ∧
    (∀ k a, tfind compar k s = .ok (some a) →
      (∃ k', (a, k') ∈ s.nodes ∧ compar k k' = 0) ∧ ∀ m, tsearch compar m k s = (.ok (some a), s)) ∧
    (∀ k m, (∀ a, tfind compar k s ≠ .ok (some a)) → (tsearch compar m k s).1 = .ok m ∧
      ∀ x, x ∈ (tsearch compar m k s).2.keys ↔ x ∈ s.keys ∨ (x = k ∧ m.isSome)) ∧
    (∀ k x, x ∈ (tdelete compar k s).2.keys ↔ x ∈ s.keys ∧ compar k x ≠ 0) := by
  intro tr s
  have hinv : TreeInv compar tr s := tree_inv hc calls
  have hfound : ∀ k, (∃ a, tfind compar k s = .ok (some a)) ↔ ∃ x ∈ s.keys, compar k x = 0 := by
    intro k
    rw [← not_iff_not, not_exists, not_exists]
    have hnull : (∀ a, ¬tfind compar k s = .ok (some a)) ↔ tWalk compar k s = .null := by
      simp only [tfind_eq_some, not_exists]
      rcases tWalk compar k s with _ | ⟨a, k', l, r⟩
      · simp
      · simp only [reduceCtorEq, iff_false, not_forall, not_not]
        exact ⟨a, k', l, r, rfl⟩
    rw [hnull, tWalk_eq_null hc hinv.ordered]
    simp
  refine ⟨hinv.ordered, fun k => (hfound k).trans (hinv.present k), fun k a ha => ?_, fun k m hno => ?_,
    fun k x => mem_keys_tdelete hc hinv.ordered⟩
  · obtain ⟨k', l, r, hw⟩ := tfind_eq_some.1 ha
    exact ⟨⟨k', (tWalk_node hw).2, (tWalk_node hw).1⟩, fun m => tsearch_present hw⟩
  · have hw : tWalk compar k s = .null := by
      rcases hw : tWalk compar k s with _ | ⟨a, k', l, r⟩
      · rfl
      · exact absurd (tfind_eq_some.2 ⟨k', l, r, hw⟩) (hno a)
    rw [tsearch_absent hw]
    exact ⟨rfl, fun x => mem_keys_tInsert hw⟩

/-- Subtraction compares integers. -/
private theorem sub_totalPreorder : TotalPreorder (fun a b : Int => a - b) :=
  ⟨fun a b => by omega, fun a b c => by omega⟩

/-- Three insertions and the deletion of the root, which has two children: `tfind` still finds the successor. -/
theorem tree_ordered_set_two_children :
    ∃ a, tfind (fun a b : Int => a - b) 3 (Machine.run (tstep fun a b : Int => a - b) .null
      [.tsearch (some 10) 2, .tsearch (some 11) 1, .tsearch (some 12) 3, .tdelete 2]) = .ok (some a) :=
  ((tree_ordered_set sub_totalPreorder _).2.1 3).2 (by decide)

end JACLibc
