import JACLibc.Json.Tree
import JACLibc.Lib.Linked
import Mathlib.Data.List.Perm.Subperm
import Mathlib.Data.Finset.Card
import Mathlib.Data.Finset.Range

/-!
# The lists of children of `core/jsio.h`

`Tree` is the invariant of the heap beside the list of children that every node has: the list is threaded through the
links, its length is stored in the node, and the members point back.  Every function is described by what it does to
the maps of the fields (`View`) and to these lists; `js_attach` and `js_unshift` put a node in, `js_detach`, `js_pop`
and `js_shift` take one out, and `js_replace` puts one in the place of another, which `js_delete` then takes away with
everything below it.
-/

namespace JACLibc.Json

open Linked Function

/-! ### The fields as maps -/

/-- The fields of all nodes; they are 0 where there is no node. -/
structure View where
  live : Nat → Prop
  top : Nat
  type : Nat → Option JsType
  length : Nat → Nat
  next : Nat → Nat
  first : Nat → Nat
  parent : Nat → Nat

def Heap.view (h : Heap) : View where
  live x := h.node x ≠ none
  top := h.top
  type x := (h.node x).map (·.type)
  length x := ((h.node x).map (·.length)).getD 0
  next x := ((h.node x).map (·.next)).getD 0
  first x := ((h.node x).map (·.first)).getD 0
  parent x := ((h.node x).map (·.parent)).getD 0

variable {h : Heap} {x c q v fuel : Nat}

/-- What is read from a node is what the maps say. -/
theorem Heap.read (hx : h.view.live x) :
    ∃ n, h.node x = some n ∧ h.view.type x = some n.type ∧ n.length = h.view.length x ∧ n.next = h.view.next x ∧
      n.first = h.view.first x ∧ n.parent = h.view.parent x := by
  obtain ⟨n, hn⟩ := Option.ne_none_iff_exists'.1 hx
  exact ⟨n, hn, by simp [view, hn]⟩

private theorem map_update {α : Type*} (f : Nat → Option Node) (x : Nat) (n : Node) (g : Option Node → α) :
    (fun y => g (update f x (some n) y)) = update (fun y => g (f y)) x (g (some n)) := by
  funext y
  by_cases hy : y = x
  · subst hy
    simp
  · simp [hy]

private theorem update_same {α : Type*} {f : Nat → α} {x : Nat} {a : α} (ha : f x = a) : update f x a = f := by
  rw [← ha, update_eq_self]

private theorem modify_view (hx : h.view.live x) (f : Node → Node) (hf : ∀ n, (f n).type = n.type) :
    ∃ n h', h.node x = some n ∧ h.modify x f = some h' ∧ h'.view = { h.view with
      length := update h.view.length x (f n).length, next := update h.view.next x (f n).next,
      first := update h.view.first x (f n).first, parent := update h.view.parent x (f n).parent } := by
  obtain ⟨n, hn⟩ := Option.ne_none_iff_exists'.1 hx
  refine ⟨n, { h with node := update h.node x (some (f n)) }, hn, by rw [Heap.modify, hn]; rfl, ?_⟩
  have hlive : update (fun y => h.node y ≠ none) x (some (f n) ≠ none) = fun y => h.node y ≠ none :=
    update_same (by simp [hn])
  have htype : update (fun y => (h.node y).map (·.type)) x (some (f n).type) = fun y => (h.node y).map (·.type) :=
    update_same (by simp [hn, hf])
  simp only [Heap.view, map_update h.node x (f n) (· ≠ none), map_update h.node x (f n) (·.map (·.type)),
    map_update h.node x (f n) fun o => (o.map (·.length)).getD 0, map_update h.node x (f n) fun o =>
    (o.map (·.next)).getD 0, map_update h.node x (f n) fun o =>
      (o.map (·.first)).getD 0, map_update h.node x (f n) fun o => (o.map (·.parent)).getD 0,
    Option.map_some, Option.getD_some, hlive, htype]

theorem setNext_view (hx : h.view.live x) (v : Nat) :
    ∃ h', h.setNext x v = some h' ∧ h'.view = { h.view with next := update h.view.next x v } := by
  obtain ⟨n, h', hn, hh', hv⟩ := modify_view hx (fun n => { n with next := v }) fun _ => rfl
  refine ⟨h', hh', ?_⟩
  rw [hv, update_same (by simp [Heap.view, hn]), update_same (f := h.view.first) (by simp [Heap.view, hn]),
    update_same (f := h.view.parent) (by simp [Heap.view, hn])]

theorem setFirst_view (hx : h.view.live x) (v : Nat) :
    ∃ h', h.setFirst x v = some h' ∧ h'.view = { h.view with first := update h.view.first x v } := by
  obtain ⟨n, h', hn, hh', hv⟩ := modify_view hx (fun n => { n with first := v }) fun _ => rfl
  refine ⟨h', hh', ?_⟩
  rw [hv, update_same (by simp [Heap.view, hn]), update_same (f := h.view.next) (by simp [Heap.view, hn]),
    update_same (f := h.view.parent) (by simp [Heap.view, hn])]

theorem setParent_view (hx : h.view.live x) (v : Nat) :
    ∃ h', h.setParent x v = some h' ∧ h'.view = { h.view with parent := update h.view.parent x v } := by
  obtain ⟨n, h', hn, hh', hv⟩ := modify_view hx (fun n => { n with parent := v }) fun _ => rfl
  refine ⟨h', hh', ?_⟩
  rw [hv, update_same (by simp [Heap.view, hn]), update_same (f := h.view.next) (by simp [Heap.view, hn]),
    update_same (f := h.view.first) (by simp [Heap.view, hn])]

theorem incLength_view (hx : h.view.live x) : ∃ h', h.incLength x = some h' ∧
    h'.view = { h.view with length := update h.view.length x (h.view.length x + 1) } := by
  obtain ⟨n, h', hn, hh', hv⟩ := modify_view hx (fun n => { n with length := n.length + 1 }) fun _ => rfl
  refine ⟨h', hh', ?_⟩
  rw [hv, update_same (f := h.view.next) (by simp [Heap.view, hn]),
    update_same (f := h.view.first) (by simp [Heap.view, hn]),
    update_same (f := h.view.parent) (by simp [Heap.view, hn])]
  simp [Heap.view, hn]

theorem decLength_view (hx : h.view.live x) : ∃ h', h.decLength x = some h' ∧
    h'.view = { h.view with length := update h.view.length x (h.view.length x - 1) } := by
  obtain ⟨n, h', hn, hh', hv⟩ := modify_view hx (fun n => { n with length := n.length - 1 }) fun _ => rfl
  refine ⟨h', hh', ?_⟩
  rw [hv, update_same (f := h.view.next) (by simp [Heap.view, hn]),
    update_same (f := h.view.first) (by simp [Heap.view, hn]),
    update_same (f := h.view.parent) (by simp [Heap.view, hn])]
  simp [Heap.view, hn]

/-! ### The invariant -/

/-- The fields thread the list `K p` of children through every node `p`, and no other node is on a list. -/
structure Tree (v : View) (K : Nat → List Nat) : Prop where
  null : ¬v.live 0
  below : ∀ x, v.live x → x < v.top
  chain : ∀ p, Chain v.next (v.first p) (K p)
  length : ∀ p, v.length p = (K p).length
  nodup : ∀ p, (K p).Nodup
  listed : ∀ p, ∀ c ∈ K p, v.live c ∧ v.parent c = p
  child : ∀ c, v.parent c ≠ 0 → c ∈ K (v.parent c)
  root : ∀ c, v.parent c = 0 → v.next c = 0
  dead : ∀ p, ¬v.live p → K p = []

namespace Tree

variable {v w : View} {K : Nat → List Nat} {c n o p q y : Nat} {l m L : List Nat}

theorem live_of_mem (t : Tree v K) (hc : c ∈ K p) : v.live p := by
  by_contra hp
  rw [t.dead p hp] at hc
  simp at hc

theorem ne_null (t : Tree v K) (hp : v.live p) : p ≠ 0 := fun e => t.null (e ▸ hp)

theorem parent_ne (t : Tree v K) (hc : c ∈ K p) : v.parent c ≠ 0 := by
  rw [(t.listed p c hc).2]
  exact t.ne_null (t.live_of_mem hc)

/-- A node without parent is on no list. -/
theorem not_mem (t : Tree v K) (hc : v.parent c = 0) (p : Nat) : c ∉ K p := fun h => t.parent_ne h hc

theorem length_le (t : Tree v K) (p : Nat) : (K p).length ≤ v.top := by
  have hsub : K p ⊆ List.range v.top := fun c hc => List.mem_range.2 (t.below c (t.listed p c hc).1)
  simpa using (List.subperm_of_subset (t.nodup p) hsub).length_le

/-- A change of the list of `q` to `L` that leaves alone what is on other lists. -/
theorem edit (t : Tree v K) (hq : v.live q) (hlive : w.live = v.live) (htop : w.top = v.top)
    (hfirst : ∀ p, p ≠ q → w.first p = v.first p) (hlength : ∀ p, p ≠ q → w.length p = v.length p)
    (hchain : Chain w.next (w.first q) L) (hL : L.Nodup) (hlen : w.length q = L.length)
    (hin : ∀ c ∈ L, v.live c ∧ w.parent c = q ∧ (v.parent c = q ∨ v.parent c = 0))
    (hout : ∀ c ∈ K q, c ∉ L → w.parent c = 0 ∧ w.next c = 0)
    (hother : ∀ c, c ∉ K q → c ∉ L → w.parent c = v.parent c ∧ w.next c = v.next c) : Tree w (update K q L) := by
  have hsep : ∀ p, p ≠ q → ∀ c ∈ K p, c ∉ K q ∧ c ∉ L := by
    intro p hp c hc
    have hpar := (t.listed p c hc).2
    refine ⟨fun h => hp (hpar.symm.trans (t.listed q c h).2), fun h => ?_⟩
    rcases (hin c h).2.2 with h' | h'
    · exact hp (hpar.symm.trans h')
    · exact t.parent_ne hc h'
  refine ⟨hlive ▸ t.null, fun x hx => htop ▸ t.below x (hlive ▸ hx), fun p => ?_, fun p => ?_, fun p => ?_,
    fun p c hc => ?_, fun c hc => ?_, fun c hc => ?_, fun p hp => ?_⟩
  · by_cases hp : p = q
    · subst hp
      rwa [update_self]
    · rw [update_of_ne hp, hfirst p hp]
      exact (t.chain p).congr fun c hc => (hother c (hsep p hp c hc).1 (hsep p hp c hc).2).2
  · by_cases hp : p = q
    · subst hp
      rwa [update_self]
    · rw [update_of_ne hp, hlength p hp, t.length]
  · by_cases hp : p = q
    · subst hp
      rwa [update_self]
    · rw [update_of_ne hp]
      exact t.nodup p
  · by_cases hp : p = q
    · subst hp
      rw [update_self] at hc
      exact ⟨hlive ▸ (hin c hc).1, (hin c hc).2.1⟩
    · rw [update_of_ne hp] at hc
      rw [(hother c (hsep p hp c hc).1 (hsep p hp c hc).2).1, hlive]
      exact t.listed p c hc
  · by_cases hcL : c ∈ L
    · rwa [(hin c hcL).2.1, update_self]
    · by_cases hcq : c ∈ K q
      · exact absurd (hout c hcq hcL).1 hc
      · rw [(hother c hcq hcL).1] at hc ⊢
        have hne : v.parent c ≠ q := fun e => hcq (e ▸ t.child c hc)
        rw [update_of_ne hne]
        exact t.child c hc
  · by_cases hcL : c ∈ L
    · rw [(hin c hcL).2.1] at hc
      exact absurd hc (t.ne_null hq)
    · by_cases hcq : c ∈ K q
      · exact (hout c hcq hcL).2
      · rw [(hother c hcq hcL).1] at hc
        rw [(hother c hcq hcL).2]
        exact t.root c hc
  · have hne : p ≠ q := fun e => hp (hlive ▸ e ▸ hq)
    rw [update_of_ne hne]
    exact t.dead p (hlive ▸ hp)

end Tree

namespace View

/-- `c` taken out of the list of `q`, where `y` is the node before it and 0 if there is none. -/
def unlink (v : View) (q y c : Nat) : View :=
  { v with
    first := if y = 0 then update v.first q (v.next c) else v.first
    next := update (if y = 0 then v.next else update v.next y (v.next c)) c 0
    length := update v.length q (v.length q - 1)
    parent := update v.parent c 0 }

/-- `c` put in front of the list of `q`. -/
def cons (v : View) (q c : Nat) : View :=
  { v with
    first := update v.first q c
    next := update v.next c (v.first q)
    length := update v.length q (v.length q + 1)
    parent := update v.parent c q }

/-- `c` put behind the last node `y` of the list of `q`. -/
def append (v : View) (q y c : Nat) : View :=
  { v with
    next := update v.next y c
    length := update v.length q (v.length q + 1)
    parent := update v.parent c q }

/-- `n` put in the place of `o` on the list of `q`, where `y` is the node before `o` and 0 if there is none. -/
def swap (v : View) (q y o n : Nat) : View :=
  { v with
    first := if y = 0 then update v.first q n else v.first
    next := update (if y = 0 then update v.next n (v.next o) else update (update v.next n (v.next o)) y n) o 0
    parent := update (update v.parent n q) o 0 }

end View

namespace Tree

variable {v w : View} {K : Nat → List Nat} {c n o p q y : Nat} {l m L : List Nat}

theorem unlink (t : Tree v K) (hK : K q = l ++ c :: m) :
    Tree (v.unlink q (l.getLast?.getD 0) c) (update K q (l ++ m)) := by
  have hc : c ∈ K q := by simp [hK]
  have hnd : (l ++ c :: m).Nodup := hK ▸ t.nodup q
  obtain ⟨hcl, hcm⟩ : c ∉ l ∧ c ∉ m := by simpa using (List.nodup_middle.1 hnd).notMem
  have hchain : Chain v.next (v.first q) (l ++ c :: m) := hK ▸ t.chain q
  refine t.edit (t.live_of_mem hc) rfl rfl ?_ ?_ ?_ (List.nodup_middle.1 hnd).of_cons ?_ ?_ ?_ ?_
  · intro p hp
    simp only [View.unlink]
    split <;> simp [hp]
  · intro p hp
    simp [View.unlink, hp]
  · -- the links before `c` lead over it
    rcases List.eq_nil_or_concat' l with rfl | ⟨l, y, rfl⟩
    · simpa [View.unlink] using hchain.behind.update hcm 0
    · have hy : y ≠ 0 := hchain.ne_zero (by simp)
      obtain ⟨hyl, hym⟩ : y ∉ l ∧ y ∉ m := by
        have := (List.nodup_middle.1 (by simpa using hnd : (l ++ y :: c :: m).Nodup)).notMem
        simp at this
        exact ⟨this.1, this.2.2⟩
      have hre := Chain.redirect (by simpa using hchain : Chain v.next (v.first q) (l ++ y :: c :: m)) hyl
        hchain.behind hym
      have hcut : c ∉ l ++ y :: m := by
        simp at hcl ⊢
        grind
      simpa [View.unlink, hy] using hre.update hcut 0
  · simp [View.unlink, t.length, hK]
  · intro x hx
    have hxc : x ≠ c := by
      rintro rfl
      simp [hcl, hcm] at hx
    have hxq : x ∈ K q := by
      rw [hK]
      simp at hx ⊢
      grind
    obtain ⟨h1, h2⟩ := t.listed q x hxq
    exact ⟨h1, by simpa [View.unlink, hxc] using h2, .inl h2⟩
  · intro x hx hxl
    obtain rfl : x = c := by
      rw [hK] at hx
      simp at hx hxl
      grind
    simp [View.unlink]
  · intro x hx hxl
    have hxc : x ≠ c := fun e => hx (e ▸ hc)
    refine ⟨by simp [View.unlink, hxc], ?_⟩
    rcases List.eq_nil_or_concat' l with rfl | ⟨l, y, rfl⟩
    · simp [View.unlink, hxc]
    · have hxy : x ≠ y := by
        rintro rfl
        simp at hxl
      simp only [View.unlink, update_of_ne hxc]
      split <;> simp [hxy]

theorem cons (t : Tree v K) (hq : v.live q) (hc : v.live c) (hroot : v.parent c = 0) :
    Tree (v.cons q c) (update K q (c :: K q)) := by
  have hcq := t.not_mem hroot q
  refine t.edit hq rfl rfl ?_ ?_ ?_ (List.nodup_cons.2 ⟨hcq, t.nodup q⟩) ?_ ?_ ?_ ?_
  · intro p hp
    simp [View.cons, hp]
  · intro p hp
    simp [View.cons, hp]
  · simpa [View.cons] using (t.chain q).push (t.ne_null hc) hcq
  · simp [View.cons, t.length]
  · intro x hx
    rcases List.mem_cons.1 hx with rfl | hx
    · exact ⟨hc, by simp [View.cons], .inr hroot⟩
    · obtain ⟨h1, h2⟩ := t.listed q x hx
      have hxc : x ≠ c := fun e => hcq (e ▸ hx)
      exact ⟨h1, by simpa [View.cons, hxc] using h2, .inl h2⟩
  · intro x hx hxl
    exact absurd (List.mem_cons_of_mem _ hx) hxl
  · intro x _ hxl
    have hxc : x ≠ c := fun e => hxl (e ▸ List.mem_cons_self)
    simp [View.cons, hxc]

theorem append (t : Tree v K) (hK : K q = l ++ [y]) (hc : v.live c) (hroot : v.parent c = 0) :
    Tree (v.append q y c) (update K q (K q ++ [c])) := by
  have hcq := t.not_mem hroot q
  have hyq : y ∈ K q := by simp [hK]
  have hyl : y ∉ l := by
    have := t.nodup q
    rw [hK, List.nodup_append] at this
    intro h
    exact this.2.2 y h y (by simp) rfl
  have hyc : y ≠ c := fun e => hcq (e ▸ hyq)
  have hone : Chain v.next c [c] := ⟨rfl, t.ne_null hc, t.root c hroot⟩
  refine t.edit (t.live_of_mem hyq) rfl rfl (fun _ _ => rfl) ?_ ?_ ?_ ?_ ?_ ?_ ?_
  · intro p hp
    simp [View.append, hp]
  · have hre := Chain.redirect (hK ▸ t.chain q) hyl hone (by simpa using hyc)
    simpa [View.append, hK] using hre
  · rw [List.nodup_append]
    refine ⟨t.nodup q, List.nodup_singleton c, ?_⟩
    rintro x hx z hz rfl
    exact hcq (List.mem_singleton.1 hz ▸ hx)
  · simp [View.append, t.length]
  · intro x hx
    rcases List.mem_append.1 hx with hx | hx
    · obtain ⟨h1, h2⟩ := t.listed q x hx
      have hxc : x ≠ c := fun e => hcq (e ▸ hx)
      exact ⟨h1, by simpa [View.append, hxc] using h2, .inl h2⟩
    · obtain rfl := List.mem_singleton.1 hx
      exact ⟨hc, by simp [View.append], .inr hroot⟩
  · intro x hx hxl
    exact absurd (List.mem_append_left _ hx) hxl
  · intro x hx hxl
    have hxc : x ≠ c := fun e => hxl (by simp [e])
    have hxy : x ≠ y := fun e => hx (e ▸ hyq)
    simp [View.append, hxc, hxy]

theorem swap (t : Tree v K) (hK : K q = l ++ o :: m) (hn : v.live n) (hroot : v.parent n = 0) :
    Tree (v.swap q (l.getLast?.getD 0) o n) (update K q (l ++ n :: m)) := by
  have ho : o ∈ K q := by simp [hK]
  have hnq := t.not_mem hroot q
  have hno : n ≠ o := fun e => hnq (e ▸ ho)
  obtain ⟨hnl, hnm⟩ : n ∉ l ∧ n ∉ m := by
    rw [hK] at hnq
    simp at hnq
    exact ⟨hnq.1, hnq.2.2⟩
  have hnd : (l ++ o :: m).Nodup := hK ▸ t.nodup q
  obtain ⟨hol, hom⟩ : o ∉ l ∧ o ∉ m := by simpa using (List.nodup_middle.1 hnd).notMem
  have hchain : Chain v.next (v.first q) (l ++ o :: m) := hK ▸ t.chain q
  have hnew : Chain (update v.next n (v.next o)) n (n :: m) := hchain.behind.push (t.ne_null hn) hnm
  refine t.edit (t.live_of_mem ho) rfl rfl ?_ (fun _ _ => rfl) ?_ ?_ ?_ ?_ ?_ ?_
  · intro p hp
    simp only [View.swap]
    split <;> simp [hp]
  · rcases List.eq_nil_or_concat' l with rfl | ⟨l, y, rfl⟩
    · simpa [View.swap] using hnew.update (by simp [Ne.symm hno, hom] : o ∉ n :: m) 0
    · have hy : y ≠ 0 := hchain.ne_zero (by simp)
      obtain ⟨hyl, hym⟩ : y ∉ l ∧ y ∉ m := by
        have := (List.nodup_middle.1 (by simpa using hnd : (l ++ y :: o :: m).Nodup)).notMem
        simp at this
        exact ⟨this.1, this.2.2⟩
      have hold : Chain (update v.next n (v.next o)) (v.first q) (l ++ y :: o :: m) := by
        refine Chain.update (by simpa using hchain) ?_ _
        simp at hnl ⊢
        grind
      have hyn : y ≠ n := by
        rintro rfl
        simp at hnl
      have hre := hold.redirect hyl hnew (by simp [hyn, hym])
      have hcut : o ∉ l ++ y :: n :: m := by
        simp at hol ⊢
        grind
      simpa [View.swap, hy] using hre.update hcut 0
  · rw [List.nodup_middle, List.nodup_cons]
    exact ⟨by simp [hnl, hnm], (List.nodup_middle.1 hnd).of_cons⟩
  · simp [View.swap, t.length, hK]
  · intro x hx
    by_cases hxn : x = n
    · subst hxn
      exact ⟨hn, by simp [View.swap, hno], .inr hroot⟩
    · have hxo : x ≠ o := by
        rintro rfl
        simp at hx
        grind
      have hxq : x ∈ K q := by
        rw [hK]
        simp at hx ⊢
        grind
      obtain ⟨h1, h2⟩ := t.listed q x hxq
      exact ⟨h1, by simpa [View.swap, hxo, hxn] using h2, .inl h2⟩
  · intro x hx hxl
    obtain rfl : x = o := by
      rw [hK] at hx
      simp at hx hxl
      grind
    simp [View.swap]
  · intro x hx hxl
    have hxo : x ≠ o := fun e => hx (e ▸ ho)
    have hxn : x ≠ n := fun e => hxl (by simp [e])
    refine ⟨by simp [View.swap, hxo, hxn], ?_⟩
    rcases List.eq_nil_or_concat' l with rfl | ⟨l, y, rfl⟩
    · simp [View.swap, hxo, hxn]
    · have hxy : x ≠ y := by
        rintro rfl
        simp at hxl
      simp only [View.swap, update_of_ne hxo]
      split <;> simp [hxy, hxn]

end Tree

/-! ### The walks along a list -/

section Walks

variable {l m : List Nat} {y o p : Nat}

theorem last_eq (hc : Chain h.view.next q (l ++ [y])) (hl : ∀ x ∈ l ++ [y], h.view.live x) (hf : l.length < fuel) :
    last h fuel q = some y := by
  induction l generalizing q fuel with
  | nil =>
    obtain ⟨fuel, rfl⟩ : ∃ k, fuel = k + 1 := ⟨fuel - 1, by omega⟩
    obtain ⟨rfl, -, hend⟩ := hc
    obtain ⟨n, hn, -, -, hnext, -⟩ := Heap.read (hl q (by simp))
    simp only [Chain] at hend
    simp [last, hn, hnext, hend]
  | cons x l ih =>
    obtain ⟨fuel, rfl⟩ : ∃ k, fuel = k + 1 := ⟨fuel - 1, by omega⟩
    obtain ⟨rfl, -, hrest⟩ := hc
    obtain ⟨n, hn, -, -, hnext, -⟩ := Heap.read (hl q (by simp))
    have hne : h.view.next q ≠ 0 := by
      rw [hrest.start_eq]
      cases l with
      | nil => simpa using hrest.ne_zero (x := y) (by simp)
      | cons z l => simpa using hrest.ne_zero (x := z) (by simp)
    simp only [last, hn, hnext, if_neg hne, Option.bind_eq_bind, Option.bind_some]
    exact ih hrest (fun z hz => hl z (List.mem_cons_of_mem _ hz)) (by simpa using hf)

theorem lastTwo_eq (hc : Chain h.view.next q (l ++ [y])) (hl : ∀ x ∈ l ++ [y], h.view.live x) (hf : l.length < fuel) :
    lastTwo h fuel p q = some (l.getLast?.getD p, y) := by
  induction l generalizing p q fuel with
  | nil =>
    obtain ⟨fuel, rfl⟩ : ∃ k, fuel = k + 1 := ⟨fuel - 1, by omega⟩
    obtain ⟨rfl, -, hend⟩ := hc
    obtain ⟨n, hn, -, -, hnext, -⟩ := Heap.read (hl q (by simp))
    simp only [Chain] at hend
    simp [lastTwo, hn, hnext, hend]
  | cons x l ih =>
    obtain ⟨fuel, rfl⟩ : ∃ k, fuel = k + 1 := ⟨fuel - 1, by omega⟩
    obtain ⟨rfl, -, hrest⟩ := hc
    obtain ⟨n, hn, -, -, hnext, -⟩ := Heap.read (hl q (by simp))
    have hne : h.view.next q ≠ 0 := by
      rw [hrest.start_eq]
      cases l with
      | nil => simpa using hrest.ne_zero (x := y) (by simp)
      | cons z l => simpa using hrest.ne_zero (x := z) (by simp)
    simp only [lastTwo, hn, hnext, if_neg hne, Option.bind_eq_bind, Option.bind_some, List.getLast?_cons,
      Option.getD_some]
    exact ih hrest (fun z hz => hl z (List.mem_cons_of_mem _ hz)) (by simpa using hf)

theorem find_eq (hc : Chain h.view.next q (l ++ c :: m)) (hl : ∀ x ∈ l, h.view.live x) (hcl : c ∉ l)
    (hf : l.length < fuel) :
    find h c fuel p q = some (l.getLast?.getD p, c) := by
  induction l generalizing p q fuel with
  | nil =>
    obtain ⟨fuel, rfl⟩ : ∃ k, fuel = k + 1 := ⟨fuel - 1, by omega⟩
    obtain ⟨rfl, -⟩ := hc
    simp [find]
  | cons x l ih =>
    obtain ⟨fuel, rfl⟩ : ∃ k, fuel = k + 1 := ⟨fuel - 1, by omega⟩
    obtain ⟨rfl, hne, hrest⟩ := hc
    obtain ⟨n, hn, -, -, hnext, -⟩ := Heap.read (hl q (by simp))
    obtain ⟨hcq, hcl⟩ : c ≠ q ∧ c ∉ l := by simpa using hcl
    simp only [find, if_pos (And.intro hne (Ne.symm hcq)), hn, hnext, Option.bind_eq_bind, Option.bind_some,
      List.getLast?_cons, Option.getD_some]
    exact ih hrest (fun z hz => hl z (List.mem_cons_of_mem _ hz)) hcl (by simpa using hf)

theorem before_eq (hc : Chain h.view.next q (l ++ y :: o :: m)) (hl : ∀ x ∈ l ++ [y], h.view.live x)
    (hnd : (l ++ y :: o :: m).Nodup) (hf : l.length < fuel) : before h o fuel q = some y := by
  induction l generalizing q fuel with
  | nil =>
    obtain ⟨fuel, rfl⟩ : ∃ k, fuel = k + 1 := ⟨fuel - 1, by omega⟩
    obtain ⟨rfl, hne, hrest⟩ := hc
    obtain ⟨n, hn, -, -, hnext, -⟩ := Heap.read (hl q (by simp))
    simp [before, hne, hn, hnext, hrest.start_eq]
  | cons x l ih =>
    obtain ⟨fuel, rfl⟩ : ∃ k, fuel = k + 1 := ⟨fuel - 1, by omega⟩
    obtain ⟨rfl, hne, hrest⟩ := hc
    obtain ⟨n, hn, -, -, hnext, -⟩ := Heap.read (hl q (by simp))
    obtain ⟨-, hnd⟩ := List.nodup_cons.1 hnd
    have hno : h.view.next q ≠ o := by
      rw [hrest.start_eq]
      cases l with
      | nil =>
        rintro (rfl : y = o)
        simp at hnd
      | cons z l =>
        rintro (rfl : z = o)
        simp at hnd
    simp only [before, if_neg hne, hn, hnext, if_pos hno, Option.bind_eq_bind, Option.bind_some]
    exact ih hrest (fun z hz => hl z (List.mem_cons_of_mem _ hz)) hnd (by simpa using hf)

end Walks

/-! ### Putting in and taking out -/

section Functions

variable {K : Nat → List Nat} {a y n o p : Nat} {l m : List Nat}

private theorem live_last (t : Tree h.view K) (hK : K q = l ++ m) (hy : l.getLast?.getD 0 ≠ 0) :
    h.view.live (l.getLast?.getD 0) := by
  rcases List.eq_nil_or_concat' l with rfl | ⟨l, y, rfl⟩
  · simp at hy
  · simpa using (t.listed q y (by simp [hK])).1

theorem jsDetach_spec (t : Tree h.view K) (hK : K q = l ++ c :: m) :
    ∃ h', jsDetach h c = some h' ∧ h'.view = h.view.unlink q (l.getLast?.getD 0) c := by
  have hc : c ∈ K q := by simp [hK]
  obtain ⟨hlive, hpar⟩ := t.listed q c hc
  have hq := t.live_of_mem hc
  have hcl : c ∉ l := by
    have := (List.nodup_middle.1 (hK ▸ t.nodup q)).notMem
    simp at this
    exact this.1
  obtain ⟨nc, hnc, -, -, hnext, -, hparent⟩ := Heap.read hlive
  obtain ⟨np, hnp, -, -, -, hfirst, -⟩ := Heap.read hq
  have hlen := t.length_le q
  rw [hK] at hlen
  simp at hlen
  have hfind : find h c (h.top + 1) 0 (h.view.first q) = some (l.getLast?.getD 0, c) :=
    find_eq (hK ▸ t.chain q) (fun x hx => (t.listed q x (by simp [hK, hx])).1) hcl
      (Nat.lt_succ_of_le (Nat.le_trans (Nat.le_add_right _ _) hlen))
  simp only [jsDetach, if_neg (t.ne_null hlive), hnc, hparent, hpar, if_neg (t.ne_null hq), hnp, hfirst, hfind, hnext,
    Option.bind_eq_bind, Option.bind_some, if_true]
  by_cases hy : l.getLast?.getD 0 = 0
  · obtain ⟨h1, e1, v1⟩ := setFirst_view hq (h.view.next c)
    obtain ⟨h2, e2, v2⟩ := decLength_view (h := h1) (x := q) (by simpa [v1] using hq)
    obtain ⟨h3, e3, v3⟩ := setNext_view (h := h2) (x := c) (by simpa [v1, v2] using hlive) 0
    obtain ⟨h4, e4, v4⟩ := setParent_view (h := h3) (x := c) (by simpa [v1, v2, v3] using hlive) 0
    refine ⟨h4, by simp [hy, e1, e2, e3, e4], ?_⟩
    simp [v1, v2, v3, v4, View.unlink, hy]
  · obtain ⟨h1, e1, v1⟩ := setNext_view (live_last t hK hy) (h.view.next c)
    obtain ⟨h2, e2, v2⟩ := decLength_view (h := h1) (x := q) (by simpa [v1] using hq)
    obtain ⟨h3, e3, v3⟩ := setNext_view (h := h2) (x := c) (by simpa [v1, v2] using hlive) 0
    obtain ⟨h4, e4, v4⟩ := setParent_view (h := h3) (x := c) (by simpa [v1, v2, v3] using hlive) 0
    refine ⟨h4, by simp [hy, e1, e2, e3, e4], ?_⟩
    simp [v1, v2, v3, v4, View.unlink, hy]

theorem jsPop_spec (t : Tree h.view K) (ha : h.view.type a = some .array) (hK : K a = l ++ [c]) :
    ∃ h', jsPop h a = some (c, h') ∧ h'.view = h.view.unlink a (l.getLast?.getD 0) c := by
  have hc : c ∈ K a := by simp [hK]
  have hlive := (t.listed a c hc).1
  have hchain : Chain h.view.next (h.view.first a) (l ++ [c]) := hK ▸ t.chain a
  have hend : h.view.next c = 0 := hchain.behind
  have hq := t.live_of_mem hc
  obtain ⟨na, hna, htype, -, -, hfirst, -⟩ := Heap.read hq
  have harray : na.type = .array := (Option.some.inj (ha.symm.trans htype)).symm
  have hne : h.view.first a ≠ 0 := by
    rw [hchain.start_eq]
    cases l with
    | nil => simpa using t.ne_null hlive
    | cons x l => simpa using hchain.ne_zero (x := x) (by simp)
  have hlen := t.length_le a
  rw [hK, List.length_append] at hlen
  have hlast : lastTwo h h.top 0 (h.view.first a) = some (l.getLast?.getD 0, c) :=
    lastTwo_eq hchain (fun x hx => (t.listed a x (hK ▸ hx)).1) hlen
  simp only [jsPop, if_neg (t.ne_null hq), hna, harray, hfirst, hlast, Option.bind_eq_bind, Option.bind_some]
  by_cases hy : l.getLast?.getD 0 = 0
  · obtain ⟨h1, e1, v1⟩ := setFirst_view hq 0
    obtain ⟨h2, e2, v2⟩ := setNext_view (h := h1) (x := c) (by simpa [v1] using hlive) 0
    obtain ⟨h3, e3, v3⟩ := setParent_view (h := h2) (x := c) (by simpa [v1, v2] using hlive) 0
    obtain ⟨h4, e4, v4⟩ := decLength_view (h := h3) (x := a) (by simpa [v1, v2, v3] using hq)
    refine ⟨h4, by simp [hne, hy, e1, e2, e3, e4], ?_⟩
    simp [v1, v2, v3, v4, View.unlink, hy, hend]
  · obtain ⟨h1, e1, v1⟩ := setNext_view (live_last t hK hy) 0
    obtain ⟨h2, e2, v2⟩ := setNext_view (h := h1) (x := c) (by simpa [v1] using hlive) 0
    obtain ⟨h3, e3, v3⟩ := setParent_view (h := h2) (x := c) (by simpa [v1, v2] using hlive) 0
    obtain ⟨h4, e4, v4⟩ := decLength_view (h := h3) (x := a) (by simpa [v1, v2, v3] using hq)
    refine ⟨h4, by simp [hne, hy, e1, e2, e3, e4], ?_⟩
    simp [v1, v2, v3, v4, View.unlink, hy, hend]

theorem jsShift_spec (t : Tree h.view K) (ha : h.view.type a = some .array) (hK : K a = c :: m) :
    ∃ h', jsShift h a = some (c, h') ∧ h'.view = h.view.unlink a 0 c := by
  have hc : c ∈ K a := by simp [hK]
  have hlive := (t.listed a c hc).1
  have hq := t.live_of_mem hc
  obtain ⟨na, hna, htype, -, -, hfirst, -⟩ := Heap.read hq
  have harray : na.type = .array := (Option.some.inj (ha.symm.trans htype)).symm
  have hhead : h.view.first a = c := by rw [(t.chain a).start_eq, hK, List.headD_cons]
  obtain ⟨nc, hnc, -, -, hnext, -⟩ := Heap.read hlive
  simp only [jsShift, if_neg (t.ne_null hq), hna, harray, hfirst, hhead, hnc, hnext, Option.bind_eq_bind,
    Option.bind_some]
  obtain ⟨h1, e1, v1⟩ := setFirst_view hq (h.view.next c)
  obtain ⟨h2, e2, v2⟩ := setNext_view (h := h1) (x := c) (by simpa [v1] using hlive) 0
  obtain ⟨h3, e3, v3⟩ := setParent_view (h := h2) (x := c) (by simpa [v1, v2] using hlive) 0
  obtain ⟨h4, e4, v4⟩ := decLength_view (h := h3) (x := a) (by simpa [v1, v2, v3] using hq)
  refine ⟨h4, by simp [t.ne_null hlive, e1, e2, e3, e4], ?_⟩
  simp [v1, v2, v3, v4, View.unlink]

theorem jsUnshift_spec (t : Tree h.view K) (ha : h.view.type a = some .array) (hq : h.view.live a)
    (hc : h.view.live c) :
    ∃ h', jsUnshift h a c = some h' ∧ h'.view = h.view.cons a c := by
  obtain ⟨na, hna, htype, -, -, hfirst, -⟩ := Heap.read hq
  have harray : na.type = .array := (Option.some.inj (ha.symm.trans htype)).symm
  simp only [jsUnshift, if_neg (t.ne_null hq), hna, harray, hfirst, Option.bind_eq_bind, Option.bind_some, if_true]
  obtain ⟨h1, e1, v1⟩ := setNext_view hc (h.view.first a)
  obtain ⟨h2, e2, v2⟩ := setParent_view (h := h1) (x := c) (by simpa [v1] using hc) a
  obtain ⟨h3, e3, v3⟩ := setFirst_view (h := h2) (x := a) (by simpa [v1, v2] using hq) c
  obtain ⟨h4, e4, v4⟩ := incLength_view (h := h3) (x := a) (by simpa [v1, v2, v3] using hq)
  refine ⟨h4, by simp [e1, e2, e3, e4], ?_⟩
  simp [v1, v2, v3, v4, View.cons]

/-- `js_attach` puts a node behind the last child; in front, when there is none. -/
theorem jsAttach_spec (t : Tree h.view K) (hq : h.view.live q) (hc : h.view.live c) (hroot : h.view.parent c = 0) :
    ∃ h', jsAttach h c q = some h' ∧ Tree h'.view (update K q (K q ++ [c])) := by
  obtain ⟨h1, e1, v1⟩ := setParent_view hc q
  obtain ⟨np, hnp, -, -, -, hfirst, -⟩ := Heap.read (h := h1) (x := q) (by simpa [v1] using hq)
  have hnull : ¬(c = 0 ∨ q = 0) := by
    rintro (e | e)
    · exact t.ne_null hc e
    · exact t.ne_null hq e
  simp only [jsAttach, if_neg hnull, e1, hnp, hfirst, v1, Option.bind_eq_bind, Option.bind_some]
  rcases List.eq_nil_or_concat' (K q) with hK | ⟨l, y, hK⟩
  · have hempty : h.view.first q = 0 := by rw [(t.chain q).start_eq, hK, List.headD_nil]
    obtain ⟨h2, e2, v2⟩ := setFirst_view (h := h1) (x := q) (by simpa [v1] using hq) c
    obtain ⟨h3, e3, v3⟩ := incLength_view (h := h2) (x := q) (by simpa [v1, v2] using hq)
    refine ⟨h3, by simp [hempty, e2, e3], ?_⟩
    have hview : h3.view = h.view.cons q c := by
      simp [v1, v2, v3, View.cons, hempty, update_same (t.root c hroot)]
    have hcons := t.cons hq hc hroot
    rw [hK] at hcons
    rw [hview, hK]
    exact hcons
  · have hchain : Chain h1.view.next (h.view.first q) (l ++ [y]) := by
      rw [v1]
      exact hK ▸ t.chain q
    have hne : h.view.first q ≠ 0 := by
      rw [hchain.start_eq]
      cases l with
      | nil => simpa using hchain.ne_zero (x := y) (by simp)
      | cons x l => simpa using hchain.ne_zero (x := x) (by simp)
    have htop : h1.top = h.top := congrArg View.top v1
    have hlen := t.length_le q
    rw [hK, List.length_append] at hlen
    have hlast : last h1 h1.top (h.view.first q) = some y := by
      refine last_eq hchain (fun x hx => ?_) (htop ▸ hlen)
      simpa [v1] using (t.listed q x (hK ▸ hx)).1
    have hy : h.view.live y := (t.listed q y (by simp [hK])).1
    obtain ⟨h2, e2, v2⟩ := setNext_view (h := h1) (x := y) (by simpa [v1] using hy) c
    obtain ⟨h3, e3, v3⟩ := incLength_view (h := h2) (x := q) (by simpa [v1, v2] using hq)
    refine ⟨h3, by simp [hne, hlast, e2, e3], ?_⟩
    have hview : h3.view = h.view.append q y c := by simp [v1, v2, v3, View.append]
    rw [hview]
    exact t.append hK hc hroot

/-- The links of `js_replace` on a node that is on a list, before it deletes that node. -/
theorem jsReplace_links (t : Tree h.view K) (hK : K q = l ++ o :: m) (hn : h.view.live n)
    (hroot : h.view.parent n = 0) :
    ∃ h', jsReplace h o n = jsDelete (deleteFuel h') h' o ∧ h'.view = h.view.swap q (l.getLast?.getD 0) o n := by
  have ho : o ∈ K q := by simp [hK]
  obtain ⟨hlive, hpar⟩ := t.listed q o ho
  have hq := t.live_of_mem ho
  have hno : o ≠ n := by
    rintro rfl
    exact t.not_mem hroot q ho
  obtain ⟨no, hno1, -, -, hnext, -⟩ := Heap.read hlive
  obtain ⟨h1, e1, v1⟩ := setNext_view hn (h.view.next o)
  obtain ⟨no', hno2, -, -, -, -, hparent⟩ := Heap.read (h := h1) (x := o) (by simpa [v1] using hlive)
  obtain ⟨h2, e2, v2⟩ := setParent_view (h := h1) (x := n) (by simpa [v1] using hn) q
  obtain ⟨nn, hnn, -, -, -, -, hparent'⟩ := Heap.read (h := h2) (x := n) (by simpa [v1, v2] using hn)
  obtain ⟨np, hnp, -, -, -, hfirst, -⟩ := Heap.read (h := h2) (x := q) (by simpa [v1, v2] using hq)
  have hnull : ¬(o = 0 ∨ n = 0) := by
    rintro (e | e)
    · exact t.ne_null hlive e
    · exact t.ne_null hn e
  have hpar1 : no'.parent = q := by simp [hparent, v1, hpar]
  have hpar2 : nn.parent = q := by simp [hparent', v2]
  have hfirst2 : np.first = h.view.first q := by simp [hfirst, v1, v2]
  simp only [jsReplace, if_neg hnull, hno1, hnext, e1, hno2, hpar1, e2, hnn, hpar2, if_neg (t.ne_null hq), hnp, hfirst2,
    Option.bind_eq_bind, Option.bind_some]
  have hchain : Chain h.view.next (h.view.first q) (l ++ o :: m) := hK ▸ t.chain q
  rcases List.eq_nil_or_concat' l with rfl | ⟨l, y, rfl⟩
  · have hhead : h.view.first q = o := by rw [hchain.start_eq, List.nil_append, List.headD_cons]
    obtain ⟨h3, e3, v3⟩ := setFirst_view (h := h2) (x := q) (by simpa [v1, v2] using hq) n
    obtain ⟨h4, e4, v4⟩ := setNext_view (h := h3) (x := o) (by simpa [v1, v2, v3] using hlive) 0
    obtain ⟨h5, e5, v5⟩ := setParent_view (h := h4) (x := o) (by simpa [v1, v2, v3, v4] using hlive) 0
    refine ⟨h5, by simp [hhead, e3, e4, e5], ?_⟩
    simp [v1, v2, v3, v4, v5, View.swap]
  · have hy : h.view.live y := (t.listed q y (by simp [hK])).1
    have hnd : (l ++ y :: o :: m).Nodup := by simpa [hK] using t.nodup q
    have hne : h.view.first q ≠ o := by
      rw [hchain.start_eq]
      cases l with
      | nil =>
        rintro (rfl : y = o)
        simp at hnd
      | cons x l =>
        rintro (rfl : x = o)
        simp at hnd
    have hchain2 : Chain h2.view.next (h.view.first q) (l ++ y :: o :: m) := by
      have hnl : n ∉ l ++ y :: o :: m := by simpa [hK] using t.not_mem hroot q
      rw [v2, v1]
      exact Chain.update (by simpa using hchain) hnl _
    have htop : h2.top = h.top := (congrArg View.top v2).trans (congrArg View.top v1)
    have hlen := t.length_le q
    rw [hK] at hlen
    simp at hlen
    have hbefore : before h2 o (h2.top + 1) (h.view.first q) = some y := by
      refine before_eq hchain2 (fun x hx => ?_) hnd ?_
      · have hx' : x ∈ K q := by
          rw [hK]
          simp at hx ⊢
          grind
        simpa [v1, v2] using (t.listed q x hx').1
      · rw [htop]
        exact Nat.lt_succ_of_le (Nat.le_trans (by omega) hlen)
    obtain ⟨h3, e3, v3⟩ := setNext_view (h := h2) (x := y) (by simpa [v1, v2] using hy) n
    obtain ⟨h4, e4, v4⟩ := setNext_view (h := h3) (x := o) (by simpa [v1, v2, v3] using hlive) 0
    obtain ⟨h5, e5, v5⟩ := setParent_view (h := h4) (x := o) (by simpa [v1, v2, v3, v4] using hlive) 0
    refine ⟨h5, by simp [hne, hbefore, t.ne_null hy, e3, e4, e5], ?_⟩
    simp [v1, v2, v3, v4, v5, View.swap, t.ne_null hy]

/-- On a node that is on no list the links of `js_replace` change nothing. -/
theorem jsReplace_root (t : Tree h.view K) (ho : h.view.live o) (hroot : h.view.parent o = 0) (hn : h.view.live n)
    (hnroot : h.view.parent n = 0) : ∃ h', jsReplace h o n = jsDelete (deleteFuel h') h' o ∧ h'.view = h.view := by
  obtain ⟨no, hno1, -, -, hnext, -⟩ := Heap.read ho
  obtain ⟨h1, e1, v1⟩ := setNext_view hn (h.view.next o)
  rw [t.root o hroot, update_same (t.root n hnroot)] at v1
  obtain ⟨no', hno2, -, -, -, -, hparent⟩ := Heap.read (h := h1) (x := o) (v1 ▸ ho)
  obtain ⟨h2, e2, v2⟩ := setParent_view (h := h1) (x := n) (v1 ▸ hn) 0
  rw [v1, update_same hnroot] at v2
  obtain ⟨nn, hnn, -, -, -, -, hparent'⟩ := Heap.read (h := h2) (x := n) (v2 ▸ hn)
  obtain ⟨h3, e3, v3⟩ := setNext_view (h := h2) (x := o) (v2 ▸ ho) 0
  rw [v2, update_same (t.root o hroot)] at v3
  obtain ⟨h4, e4, v4⟩ := setParent_view (h := h3) (x := o) (v3 ▸ ho) 0
  rw [v3, update_same hroot] at v4
  have hnull : ¬(o = 0 ∨ n = 0) := by
    rintro (e | e)
    · exact t.ne_null ho e
    · exact t.ne_null hn e
  have hpar1 : no'.parent = 0 := by rw [hparent, v1, hroot]
  have hpar2 : nn.parent = 0 := by rw [hparent', v2, hnroot]
  refine ⟨h4, ?_, v4⟩
  simp only [jsReplace, if_neg hnull, hno1, hnext, e1, hno2, hpar1, e2, hnn, hpar2, if_true, e3, e4,
    Option.bind_eq_bind, Option.bind_some]

theorem erase_of_parent_ne (t : Tree h.view K) (hp : h.view.parent c ≠ p) : (K p).erase c = K p :=
  List.erase_of_not_mem fun hc => hp (t.listed p c hc).2

private theorem update_erase (t : Tree h.view K) (hK : K q = l ++ c :: m) : update K q (l ++ m) = fun p =>
    (K p).erase c := by
  have hc : c ∈ K q := by simp [hK]
  have hcl : c ∉ l := by
    have := (List.nodup_middle.1 (hK ▸ t.nodup q)).notMem
    simp at this
    exact this.1
  funext p
  by_cases hp : p = q
  · subst hp
    rw [update_self, hK, List.erase_append_right _ hcl, List.erase_cons_head]
  · rw [update_of_ne hp, erase_of_parent_ne t]
    rw [(t.listed q c hc).2]
    exact Ne.symm hp

/-- `js_detach` on any node. -/
theorem jsDetach_tree (t : Tree h.view K) (hx : h.view.live x) : ∃ h', jsDetach h x = some h' ∧
    Tree h'.view (fun p => (K p).erase x) ∧ h'.view.live = h.view.live ∧ h'.view.top = h.view.top ∧
    h'.view.parent = update h.view.parent x 0 := by
  by_cases hpar : h.view.parent x = 0
  · obtain ⟨n, hn, -, -, -, -, hp⟩ := Heap.read hx
    refine ⟨h, by simp [jsDetach, t.ne_null hx, hn, hp, hpar], ?_, rfl, rfl, (update_same hpar).symm⟩
    have hK : (fun p => (K p).erase x) = K := funext fun p => List.erase_of_not_mem (t.not_mem hpar p)
    rw [hK]
    exact t
  · obtain ⟨l, m, hK⟩ := List.append_of_mem (t.child x hpar)
    obtain ⟨h', hh', hv⟩ := jsDetach_spec t hK
    refine ⟨h', hh', ?_, by rw [hv]; rfl, by rw [hv]; rfl, by rw [hv]; rfl⟩
    rw [hv, ← update_erase t hK]
    exact t.unlink hK

end Functions

/-! ### Deleting a node with everything below it -/

section Delete

variable {K : Nat → List Nat}

/-- A node that is on no list and has none goes away. -/
theorem free_tree (t : Tree h.view K) (hx : h.view.live x) (hroot : h.view.parent x = 0) (hK : K x = []) :
    ∃ h', h.free x = some h' ∧ Tree h'.view K ∧ h'.view.top = h.view.top ∧ h'.view.parent = h.view.parent ∧
      ∀ y, h'.view.live y ↔ h.view.live y ∧ y ≠ x := by
  obtain ⟨n, hn, -, hlength, hnext, hfirst, hparent⟩ := Heap.read hx
  have hzero : n.length = 0 ∧ n.next = 0 ∧ n.first = 0 ∧ n.parent = 0 := by
    refine ⟨by rw [hlength, t.length, hK]; rfl, by rw [hnext, t.root x hroot], ?_, by rw [hparent, hroot]⟩
    have := (t.chain x).start_eq
    rw [hK] at this
    rw [hfirst, this, List.headD_nil]
  -- the fields of `x` are 0 already
  have hsame : ∀ g : Node → Nat, g n = 0 →
      (fun y => ((update h.node x none y).map g).getD 0) = fun y => ((h.node y).map g).getD 0 := by
    intro g hg
    funext y
    by_cases hy : y = x
    · subst hy
      simp [hn, hg]
    · simp [hy]
  have hlive : ∀ y, update h.node x none y ≠ none ↔ h.node y ≠ none ∧ y ≠ x := by
    intro y
    by_cases hy : y = x
    · subst hy
      simp
    · simp [hy]
  refine ⟨{ h with node := update h.node x none }, by simp [Heap.free, hn], ?_, rfl, hsame _ hzero.2.2.2, hlive⟩
  have hview : Heap.view { h with node := update h.node x none } =
      { h.view with
        live := fun y => update h.node x none y ≠ none, type := fun y => (update h.node x none y).map (·.type) } := by
    simp only [Heap.view, hsame _ hzero.1, hsame _ hzero.2.1, hsame _ hzero.2.2.1, hsame _ hzero.2.2.2]
  rw [hview]
  refine ⟨fun h0 => t.null ((hlive 0).1 h0).1, fun y hy => t.below y ((hlive y).1 hy).1, t.chain, t.length, t.nodup, ?_,
    t.child, t.root, ?_⟩
  · intro p c hc
    obtain ⟨h1, h2⟩ := t.listed p c hc
    have hcx : c ≠ x := by
      rintro rfl
      exact t.not_mem hroot p hc
    exact ⟨(hlive c).2 ⟨h1, hcx⟩, h2⟩
  · intro p hp
    by_cases hpx : p = x
    · subst hpx
      exact hK
    · exact t.dead p fun h1 => hp ((hlive p).2 ⟨h1, hpx⟩)

/-- The nodes that are on some list. -/
def View.attached (v : View) : Finset Nat := (Finset.range v.top).filter (v.parent · ≠ 0)

theorem Tree.mem_attached {v : View} {c : Nat} (t : Tree v K) : c ∈ v.attached ↔ v.parent c ≠ 0 := by
  rw [View.attached, Finset.mem_filter, Finset.mem_range, and_iff_right_iff_imp]
  exact fun hc => t.below c (t.listed _ c (t.child c hc)).1

/-- What `js_delete` of `x` leaves. -/
structure Deleted (v : View) (K : Nat → List Nat) (x : Nat) (w : View) (L : Nat → List Nat) : Prop where
  tree : Tree w L
  top : w.top = v.top
  kept : ∀ y, w.live y → v.live y ∧ y ≠ x ∧ w.parent y = v.parent y ∧ L y = (K y).erase x
  roots : ∀ y, v.live y → v.parent y = 0 → y ≠ x → w.live y

/-- What the loop over the children of `x` leaves. -/
structure Emptied (v : View) (K : Nat → List Nat) (x : Nat) (w : View) (L : Nat → List Nat) : Prop where
  tree : Tree w L
  top : w.top = v.top
  nil : L x = []
  kept : ∀ y, w.live y → v.live y ∧ w.parent y = v.parent y ∧ (y ≠ x → L y = K y)
  roots : ∀ y, v.live y → v.parent y = 0 → w.live y

/-- Deleting a child and then its siblings. -/
theorem Deleted.emptied {v w u : View} {L M : Nat → List Nat} {x c : Nat} (t : Tree v K) (hc : c ∈ K x)
    (hd : Deleted v K c w L) (he : Emptied w L x u M) : Emptied v K x u M := by
  have hcx := (t.listed x c hc).2
  refine ⟨he.tree, he.top.trans hd.top, he.nil, ?_, ?_⟩
  · intro y hy
    obtain ⟨h1, h2, h3⟩ := he.kept y hy
    obtain ⟨g1, -, g3, g4⟩ := hd.kept y h1
    refine ⟨g1, h2.trans g3, fun hyx => ?_⟩
    rw [h3 hyx, g4]
    exact List.erase_of_not_mem fun hcy => hyx ((t.listed y c hcy).2.symm.trans hcx)
  · intro y hy hroot
    have hyc : y ≠ c := by
      rintro rfl
      exact t.parent_ne hc hroot
    have hy' := hd.roots y hy hroot hyc
    exact he.roots y hy' ((hd.kept y hy').2.2.1.trans hroot)

/-- Both functions come to an end: every call takes one node off the lists, for good. -/
private theorem delete_spec (fuel : Nat) :
    (∀ (h : Heap) (K : Nat → List Nat) (x : Nat), Tree h.view K → h.view.live x →
      2 * (h.view.attached.erase x).card + 2 ≤ fuel →
      ∃ h' K', jsDelete fuel h x = some h' ∧ Deleted h.view K x h'.view K') ∧
    ∀ (h : Heap) (K : Nat → List Nat) (x : Nat), Tree h.view K → h.view.live x → h.view.parent x = 0 →
      2 * h.view.attached.card + 1 ≤ fuel →
      ∃ h' K', deleteAll fuel h (h.view.first x) = some h' ∧ Emptied h.view K x h'.view K' := by
  induction fuel with
  | zero => exact ⟨fun _ _ _ _ _ hf => absurd hf (by omega), fun _ _ _ _ _ _ hf => absurd hf (by omega)⟩
  | succ fuel ih =>
    refine ⟨fun h K x t hx hf => ?_, fun h K x t hx hroot hf => ?_⟩
    · obtain ⟨h1, e1, t1, hlive, htop, hpar⟩ := jsDetach_tree t hx
      have hx1 : h1.view.live x := hlive ▸ hx
      have hroot1 : h1.view.parent x = 0 := by rw [hpar, update_self]
      have hatt : h1.view.attached ⊆ h.view.attached.erase x := by
        intro y hy
        rw [t1.mem_attached, hpar] at hy
        have hyx : y ≠ x := by
          rintro rfl
          simp at hy
        rw [update_of_ne hyx] at hy
        exact Finset.mem_erase.2 ⟨hyx, t.mem_attached.2 hy⟩
      have hcard := Finset.card_le_card hatt
      obtain ⟨h2, K2, e2, he⟩ := ih.2 h1 _ x t1 hx1 hroot1 (by omega)
      have hx2 := he.roots x hx1 hroot1
      have hroot2 : h2.view.parent x = 0 := (he.kept x hx2).2.1.trans hroot1
      obtain ⟨h3, e3, t3, htop3, hpar3, hlive3⟩ := free_tree he.tree hx2 hroot2 he.nil
      obtain ⟨n1, hn1, -, -, -, hfirst, -⟩ := Heap.read hx1
      refine ⟨h3, K2, by simp [jsDelete, t.ne_null hx, e1, hn1, hfirst, e2, e3], t3, ?_, ?_, ?_⟩
      · rw [htop3, he.top, htop]
      · intro y hy
        obtain ⟨hy2, hyx⟩ := (hlive3 y).1 hy
        obtain ⟨h1', h2', h3'⟩ := he.kept y hy2
        refine ⟨hlive ▸ h1', hyx, ?_, h3' hyx⟩
        rw [hpar3, h2', hpar, update_of_ne hyx]
      · intro y hy hrooty hyx
        refine (hlive3 y).2 ⟨he.roots y (hlive ▸ hy) ?_, hyx⟩
        rw [hpar, update_of_ne hyx, hrooty]
    · cases hK : K x with
      | nil =>
        have hfirst : h.view.first x = 0 := by rw [(t.chain x).start_eq, hK, List.headD_nil]
        exact ⟨h, K, by simp [deleteAll, hfirst], t, rfl, hK, fun y hy => ⟨hy, rfl, fun _ => rfl⟩, fun y hy _ => hy⟩
      | cons c cs =>
        have hc : c ∈ K x := by simp [hK]
        obtain ⟨hlivec, hparc⟩ := t.listed x c hc
        have hfirst : h.view.first x = c := by rw [(t.chain x).start_eq, hK, List.headD_cons]
        have hcatt : c ∈ h.view.attached := t.mem_attached.2 (t.parent_ne hc)
        have hcard := Finset.card_erase_of_mem hcatt
        have hpos : 0 < h.view.attached.card := Finset.card_pos.2 ⟨c, hcatt⟩
        obtain ⟨h1, K1, e1, hd⟩ := ih.1 h K c t hlivec (by omega)
        have hxc : x ≠ c := by
          rintro rfl
          exact t.parent_ne hc hroot
        have hx1 := hd.roots x hx hroot hxc
        obtain ⟨-, -, hpar1, hK1⟩ := hd.kept x hx1
        have hatt : h1.view.attached ⊆ h.view.attached.erase c := by
          intro y hy
          rw [hd.tree.mem_attached] at hy
          obtain ⟨-, hyc, hpary, -⟩ := hd.kept y (hd.tree.listed _ y (hd.tree.child y hy)).1
          exact Finset.mem_erase.2 ⟨hyc, t.mem_attached.2 (hpary ▸ hy)⟩
        have hcard1 := Finset.card_le_card hatt
        obtain ⟨h2, K2, e2, he⟩ := ih.2 h1 K1 x hd.tree hx1 (hpar1.trans hroot) (by omega)
        -- the next sibling, read before its predecessor is deleted, is now the first child
        have hnext : h.view.next c = h1.view.first x := by
          have hbehind : Chain h.view.next (h.view.next c) cs := Chain.behind (l := []) (by simpa [hK] using t.chain x)
          rw [hbehind.start_eq, (hd.tree.chain x).start_eq, hK1, hK, List.erase_cons_head]
        obtain ⟨nc, hnc, -, -, hnextc, -⟩ := Heap.read hlivec
        refine ⟨h2, K2, ?_, hd.emptied t hc he⟩
        simp [deleteAll, hfirst, t.ne_null hlivec, hnc, e1, hnextc, hnext, e2]

theorem jsDelete_spec (t : Tree h.view K) (hx : h.view.live x) :
    ∃ h' K', jsDelete (deleteFuel h) h x = some h' ∧ Deleted h.view K x h'.view K' := by
  refine (delete_spec _).1 h K x t hx ?_
  have hsub : h.view.attached.erase x ⊆ Finset.range h.view.top :=
    fun y hy => Finset.mem_of_mem_filter y (Finset.mem_of_mem_erase hy)
  have hcard := Finset.card_le_card hsub
  rw [Finset.card_range] at hcard
  exact Nat.add_le_add_right (Nat.mul_le_mul_left 2 hcard) 2

end Delete

end JACLibc.Json
