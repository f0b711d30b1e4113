import JACLibc.Lib.Run
import Mathlib.Data.List.Nodup
import Mathlib.Data.List.Range

/-!
# The protocol list of `transit/proto.h`

A list has an array of `PROTO_LIST_MAX` protocols, its length, and the protocol that upgrades from no other, `main`.
`proto_add` adds the parent of a protocol first, and `proto_remove` closes the gap.  What the list is for is `Lists`:
the protocols in the array are different, each stands behind the one it upgrades from, and `main` is the only root.
The calls keep this under conditions that they do not test (`proto_list_invariant`): the room for all that is added,
and that no parent is refused or removed.
-/

namespace JACLibc.Protocols

def PROTO_LIST_MAX : Nat := 32

/-- A protocol, as its definition function and the chain of its `from` links.  Two protocols are the same when their
`def` is. -/
inductive Proto
  | root (id : Nat)
  | child (id : Nat) (parent : Proto)
  deriving DecidableEq

/-- The protocol that `from` answers with, when it is not NULL. -/
def Proto.from? : Proto → Option Proto
  | root _ => none
  | child _ parent => some parent

/-- `struct proto_list`; `stores` are the indices at which `proto` has been written, oldest first.  A store behind the
array is noted there and has no other effect. -/
structure ProtoList where
  proto : List (Option Proto)
  length : Nat
  main : Option Proto
  stores : List Nat
  size : proto.length = PROTO_LIST_MAX
  deriving DecidableEq

/-- `proto_list` -/
def protoList : ProtoList := ⟨List.replicate PROTO_LIST_MAX none, 0, none, [], List.length_replicate⟩

/-- `pl->proto[i] = p` -/
def ProtoList.store (pl : ProtoList) (i : Nat) (p : Option Proto) : ProtoList :=
  { pl with proto := pl.proto.set i p, stores := pl.stores ++ [i], size := by rw [List.length_set, pl.size] }

/-- `proto_find` of a function that is not NULL. -/
def protoFind (pl : ProtoList) (fn : Proto) : Option Proto := ((pl.proto.take pl.length).find? (· = some fn)).join

/-- `pl->proto[pl->length++] = p` -/
def ProtoList.push (pl : ProtoList) (p : Proto) : ProtoList :=
  { pl.store pl.length (some p) with length := pl.length + 1 }

/-- `proto_add` of a function that answers with a protocol. -/
def addProto : Proto → ProtoList → Option Proto × ProtoList
  | .root id, pl =>
    if pl.length ≥ PROTO_LIST_MAX then (none, pl)
    else
      match protoFind pl (.root id) with
      | some p => (some p, pl)
      | none =>
        if pl.main = none then (some (.root id), { pl with main := some (.root id) }.push (.root id))
        else if pl.main ≠ some (.root id) then (none, pl)
        else (some (.root id), pl.push (.root id))
  | .child id parent, pl =>
    if pl.length ≥ PROTO_LIST_MAX then (none, pl)
    else
      match protoFind pl (.child id parent) with
      | some p => (some p, pl)
      | none => (some (.child id parent), (addProto parent pl).2.push (.child id parent))

/-- `proto_add`; `none` is a NULL function, or one that answers NULL. -/
def protoAdd (fn : Option Proto) (pl : ProtoList) : Option Proto × ProtoList :=
  match fn with
  | some fn => addProto fn pl
  | none => (none, pl)

/-- The body of the loop of `proto_remove`: `rem` and the list. -/
def removeStep (fn : Proto) (s : Option Proto × ProtoList) (i : Nat) : Option Proto × ProtoList :=
  if s.2.proto.getD i none = some fn then (s.2.proto.getD i none, s.2)
  else if s.1.isSome then (s.1, s.2.store (i - 1) (s.2.proto.getD i none))
  else s

/-- The end of `proto_remove`, when the loop has found the protocol. -/
def removeEnd (rem : Proto) (pl : ProtoList) : ProtoList :=
  let pl := pl.store pl.length none
  let pl := if pl.length ≠ 0 then { pl with length := pl.length - 1 } else pl
  if pl.main = some rem then { pl with main := none } else pl

/-- `proto_remove` -/
def protoRemove (fn : Option Proto) (pl : ProtoList) : ProtoList :=
  match fn with
  | none => pl
  | some fn =>
    match (List.range pl.length).foldl (removeStep fn) (none, pl) with
    | (some rem, pl) => removeEnd rem pl
    | (none, pl) => pl

inductive Call
  | add (fn : Option Proto)
  | remove (fn : Option Proto)

/-- A call, with the answer of `proto_add`. -/
def step (pl : ProtoList) : Call → Option Proto × ProtoList
  | .add fn => protoAdd fn pl
  | .remove fn => (none, protoRemove fn pl)

/-! ### What the list is for -/

/-- Every protocol stands behind the one it upgrades from. -/
def ParentsFirst (l : List Proto) : Prop := ∀ l₁ p l₂, l = l₁ ++ p :: l₂ → ∀ q, p.from? = some q → q ∈ l₁

/-- `pl` holds the protocols `l`. -/
structure Lists (pl : ProtoList) (l : List Proto) : Prop where
  proto : pl.proto.take pl.length = l.map some
  length : pl.length = l.length
  stores : ∀ i ∈ pl.stores, i < PROTO_LIST_MAX
  nodup : l.Nodup
  parents : ParentsFirst l
  main : ∀ p, pl.main = some p ↔ p ∈ l ∧ p.from? = none

/-- The protocols in use. -/
def ProtoList.protos (pl : ProtoList) : List Proto := (pl.proto.take pl.length).filterMap id

/-- The protocols that have to be added for `p`, its first ancestor that is not in `l` in front. -/
def missing (l : List Proto) : Proto → List Proto
  | .root id => if .root id ∈ l then [] else [.root id]
  | .child id parent => if .child id parent ∈ l then [] else missing l parent ++ [.child id parent]

/-- An addition is refused as a whole, because the list is full or there is a main protocol already, or there is room
for the protocol and its ancestors, and no root among them is refused. -/
def AddOk (pl : ProtoList) (p : Proto) : Prop :=
  PROTO_LIST_MAX ≤ pl.length ∨ p.from? = none ∨
    pl.length + (missing pl.protos p).length ≤ PROTO_LIST_MAX ∧
    (pl.main = none ∨ ∀ q ∈ missing pl.protos p, q.from? ≠ none)

/-- A protocol that is removed from the list upgrades to no other one there, and the list is not full. -/
def RemoveOk (pl : ProtoList) (p : Proto) : Prop :=
  p ∈ pl.protos → pl.length < PROTO_LIST_MAX ∧ ∀ q ∈ pl.protos, q.from? ≠ some p

def CallOk (pl : ProtoList) : Call → Prop
  | .add (some p) => AddOk pl p
  | .remove (some p) => RemoveOk pl p
  | _ => True

instance (pl : ProtoList) : ∀ c, Decidable (CallOk pl c)
  | .add (some _) => inferInstanceAs (Decidable (_ ∨ _))
  | .remove (some _) => inferInstanceAs (Decidable (_ → _))
  | .add none => isTrue trivial
  | .remove none => isTrue trivial

/-! ### Additions -/

section Add

variable {pl : ProtoList} {l : List Proto}

theorem Lists.protos_eq (h : Lists pl l) : pl.protos = l := by
  unfold ProtoList.protos
  rw [h.proto, List.filterMap_map]
  exact List.filterMap_some

theorem Lists.length_le (h : Lists pl l) : l.length ≤ PROTO_LIST_MAX := by
  have hlen := congrArg List.length h.proto
  rw [List.length_take, List.length_map, pl.size] at hlen
  omega

theorem Lists.find (h : Lists pl l) (p : Proto) : protoFind pl p = if p ∈ l then some p else none := by
  unfold protoFind
  rw [h.proto]
  by_cases hp : p ∈ l
  · have hfind : (l.map some).find? (· = some p) = some (some p) := by
      obtain ⟨q, hq⟩ := Option.isSome_iff_exists.1
        (List.find?_isSome.2 ⟨some p, List.mem_map_of_mem hp,
          decide_eq_true rfl⟩ : ((l.map some).find? (· = some p)).isSome)
      have heq : decide (q = some p) = true := List.find?_some (p := fun q => decide (q = some p)) hq
      rw [hq, of_decide_eq_true heq]
    rw [hfind, if_pos hp]
    rfl
  · have hfind : (l.map some).find? (· = some p) = none := by
      rw [List.find?_eq_none]
      intro q hq
      obtain ⟨r, hr, rfl⟩ := List.mem_map.1 hq
      simp only [decide_eq_true_eq, Option.some.injEq]
      exact fun e => hp (e ▸ hr)
    rw [hfind, if_neg hp]
    rfl

theorem parentsFirst_concat {p : Proto} (hl : ParentsFirst l) (hp : ∀ q, p.from? = some q → q ∈ l) :
    ParentsFirst (l ++ [p]) := by
  intro l₁ r l₂ heq q hq
  rcases List.eq_nil_or_concat l₂ with rfl | ⟨l₂, r', rfl⟩
  · obtain ⟨rfl, hr⟩ := List.append_inj' heq rfl
    obtain rfl := List.singleton_inj.1 hr
    exact hp q hq
  · rw [List.concat_eq_append, ← List.cons_append, ← List.append_assoc] at heq
    exact hl l₁ r l₂ (List.append_inj' heq rfl).1 q hq

theorem take_set_succ (cells : List (Option Proto)) {n : Nat} (hn : n < cells.length) (c : Option Proto) :
    (cells.set n c).take (n + 1) = cells.take n ++ [c] := by
  rw [List.take_succ_eq_append_getElem (by rwa [List.length_set]), List.getElem_set_self,
    List.take_set_of_le (Nat.le_refl n)]

/-- A protocol stored behind the others, its parent among them. -/
theorem Lists.push (h : Lists pl l) {p : Proto} (hroom : l.length < PROTO_LIST_MAX) (hp : p ∉ l)
    (hparent : ∀ q, p.from? = some q → q ∈ l) {main : Option Proto}
    (hmain : ∀ q, main = some q ↔ q ∈ l ++ [p] ∧ q.from? = none) :
    Lists ({ pl with main := main }.push p) (l ++ [p]) where
  proto := by
    change (pl.proto.set pl.length (some p)).take (pl.length + 1) = _
    rw [take_set_succ _ (by rw [pl.size, h.length]; exact hroom), h.proto, List.map_append]
    rfl
  length := by
    change pl.length + 1 = _
    rw [h.length, List.length_append, List.length_singleton]
  stores := by
    intro i hi
    rcases List.mem_append.1 hi with hi | hi
    · exact h.stores i hi
    · rw [List.mem_singleton.1 hi]
      exact h.length ▸ hroom
  nodup := List.nodup_append.2 ⟨h.nodup, List.nodup_singleton p, by
    intro q hq r hr e
    exact hp (List.mem_singleton.1 hr ▸ e ▸ hq)⟩
  parents := parentsFirst_concat h.parents hparent
  main := hmain

theorem missing_of_mem {p : Proto} (hp : p ∈ l) : missing l p = [] := by
  cases p with
  | root id => rw [missing, if_pos hp]
  | child id parent => rw [missing, if_pos hp]

/-- What is missing for a protocol are ancestors of it. -/
theorem sizeOf_missing {p q : Proto} (hq : q ∈ missing l p) : sizeOf q ≤ sizeOf p := by
  induction p with
  | root id =>
    rw [missing] at hq
    split at hq
    · exact absurd hq List.not_mem_nil
    · rw [List.mem_singleton.1 hq]
  | child id parent ih =>
    rw [missing] at hq
    split at hq
    · exact absurd hq List.not_mem_nil
    · rcases List.mem_append.1 hq with hq | hq
      · have := ih hq
        simp only [Proto.child.sizeOf_spec]
        omega
      · rw [List.mem_singleton.1 hq]

theorem mem_missing_or (l : List Proto) (p : Proto) : p ∈ l ++ missing l p := by
  by_cases hp : p ∈ l
  · exact List.mem_append_left _ hp
  · apply List.mem_append_right
    cases p with
    | root id => rw [missing, if_neg hp]; exact List.mem_singleton_self _
    | child id parent => rw [missing, if_neg hp]; exact List.mem_append_right _ (List.mem_singleton_self _)

/-- An addition with room for everything that is missing and no root refused. -/
theorem addProto_spec (p : Proto) (h : Lists pl l) (hfull : pl.length < PROTO_LIST_MAX)
    (hroom : l.length + (missing l p).length ≤ PROTO_LIST_MAX)
    (hroot : pl.main = none ∨ ∀ q ∈ missing l p, q.from? ≠ none) :
    (addProto p pl).1 = some p ∧ Lists (addProto p pl).2 (l ++ missing l p) := by
  induction p with
  | root id =>
    rw [addProto, if_neg (by omega), h.find]
    by_cases hp : .root id ∈ l
    · rw [missing_of_mem hp, if_pos hp, List.append_nil]
      exact ⟨rfl, h⟩
    · have hmissing : missing l (.root id) = [.root id] := by rw [missing, if_neg hp]
      rw [hmissing] at hroom hroot ⊢
      have hmain : pl.main = none := hroot.resolve_right fun hall => hall _ (List.mem_singleton_self _) rfl
      rw [if_neg hp, if_pos hmain]
      refine ⟨rfl, h.push hroom hp (by simp [Proto.from?]) fun q => ?_⟩
      -- no protocol listed before is a root
      have hnone : ∀ q ∈ l, q.from? ≠ none := by
        intro q hq hfrom
        have := (h.main q).2 ⟨hq, hfrom⟩
        rw [hmain] at this
        exact absurd this (by simp)
      constructor
      · intro hq
        rw [← Option.some.inj hq]
        exact ⟨List.mem_append_right _ (List.mem_singleton_self _), rfl⟩
      · rintro ⟨hq, hfrom⟩
        rcases List.mem_append.1 hq with hq | hq
        · exact absurd hfrom (hnone q hq)
        · rw [List.mem_singleton.1 hq]
  | child id parent ih =>
    rw [addProto, if_neg (by omega), h.find]
    by_cases hp : .child id parent ∈ l
    · rw [missing_of_mem hp, if_pos hp, List.append_nil]
      exact ⟨rfl, h⟩
    · have hmissing : missing l (.child id parent) = missing l parent ++ [.child id parent] := by
        rw [missing, if_neg hp]
      rw [hmissing] at hroom hroot ⊢
      rw [List.length_append, List.length_singleton] at hroom
      rw [if_neg hp, ← List.append_assoc]
      obtain ⟨-, hparent⟩ := ih (by omega) (hroot.imp_right fun hall q hq => hall q (List.mem_append_left _ hq))
      refine ⟨rfl, hparent.push (by rw [List.length_append]; omega) ?_ ?_ fun q => ?_⟩
      · intro hmem
        rcases List.mem_append.1 hmem with hmem | hmem
        · exact hp hmem
        · have := sizeOf_missing hmem
          simp only [Proto.child.sizeOf_spec] at this
          omega
      · intro q hq
        rw [← Option.some.inj hq]
        exact mem_missing_or l parent
      · rw [hparent.main q, List.mem_append (s := l ++ missing l parent), List.mem_singleton]
        constructor
        · exact fun ⟨hq, hfrom⟩ => ⟨.inl hq, hfrom⟩
        · rintro ⟨hq | rfl, hfrom⟩
          · exact ⟨hq, hfrom⟩
          · exact absurd hfrom (by simp [Proto.from?])

/-- An answer of NULL changes nothing, whatever is in the list. -/
theorem protoAdd_refused {fn : Option Proto} {pl : ProtoList} (h : (protoAdd fn pl).1 = none) :
    (protoAdd fn pl).2 = pl := by
  cases fn with
  | none => rfl
  | some p =>
    unfold protoAdd at h ⊢
    cases p with
    | root id =>
      simp only [addProto] at h ⊢
      split at h
      · rw [if_pos ‹_›]
      · rw [if_neg ‹_›]
        split at h
        · exact absurd h (by simp)
        · split at h
          · exact absurd h (by simp)
          · rw [if_neg ‹_›]
            split at h
            · rw [if_pos ‹_›]
            · exact absurd h (by simp)
    | child id parent =>
      simp only [addProto] at h ⊢
      split at h
      · rw [if_pos ‹_›]
      · split at h <;> exact absurd h (by simp)

/-- An addition that is fine keeps the list. -/
theorem Lists.add (h : Lists pl l) {p : Proto} (hok : AddOk pl p) : ∃ l', Lists (addProto p pl).2 l' := by
  by_cases hfull : PROTO_LIST_MAX ≤ pl.length
  · refine ⟨l, ?_⟩
    cases p with
    | root id => rwa [addProto, if_pos hfull]
    | child id parent => rwa [addProto, if_pos hfull]
  · rw [AddOk, h.protos_eq, h.length] at hok
    rcases hok with hok | hok | ⟨hroom, hroot⟩
    · exact absurd hok (h.length ▸ hfull)
    · by_cases hmain : pl.main = none
      · have hlen : (missing l p).length ≤ 1 := by
          cases p with
          | root id => rw [missing]; split <;> simp
          | child id parent => exact absurd hok (by simp [Proto.from?])
        exact ⟨_, (addProto_spec p h (by omega) (by rw [← h.length]; omega) (.inl hmain)).2⟩
      · cases p with
        | root id =>
          by_cases hmem : .root id ∈ l
          · exact ⟨_, (addProto_spec _ h (by omega) (by rw [missing_of_mem hmem]; exact h.length_le) (.inr (by
              rw [missing_of_mem hmem]; simp))).2⟩
          · -- another main protocol: the root is refused
            have hne : pl.main ≠ some (.root id) := fun e => hmem ((h.main _).1 e).1
            refine ⟨l, ?_⟩
            rwa [addProto, if_neg hfull, h.find, if_neg hmem, if_neg hmain, if_pos hne]
        | child id parent => exact absurd hok (by simp [Proto.from?])
    · exact ⟨_, (addProto_spec p h (by omega) hroom hroot).2⟩

end Add

/-! ### Removals -/

section Remove

variable {pl : ProtoList} {p : Proto} {a b : List Proto} {junk : List (Option Proto)}

theorem getD_map_append (a : List Proto) (c : Option Proto) (rest : List (Option Proto)) :
    (a.map some ++ c :: rest).getD a.length none = c := by
  rw [List.getD_eq_getElem?_getD, List.getElem?_append_right (by rw [List.length_map]), List.length_map, Nat.sub_self]
  rfl

/-- The loop passes over the protocols before the one that is removed. -/
theorem removeLoop_before (hproto : pl.proto = a.map some ++ junk) (hp : p ∉ a) :
    (List.range a.length).foldl (removeStep p) (none, pl) = (none, pl) := by
  have key : ∀ k ≤ a.length, (List.range k).foldl (removeStep p) (none, pl) = (none, pl) := by
    intro k hk
    induction k with
    | zero => rfl
    | succ k ih =>
      have hne : pl.proto.getD k none ≠ some p := by
        rw [hproto, List.getD_eq_getElem?_getD, List.getElem?_append_left (by rwa [List.length_map]), List.getElem?_map,
          List.getElem?_eq_getElem hk]
        exact fun e => hp (Option.some.inj e ▸ List.getElem_mem hk)
      rw [List.range_succ, List.foldl_append, ih (by omega), List.foldl_cons, List.foldl_nil, removeStep, if_neg hne]
      simp
  exact key _ (Nat.le_refl _)

/-- What the loop has made of the array when it has moved down the protocols `c` behind the one that is removed; `d`
are still to be moved, and the protocol before them stands twice. -/
structure Moving (pl : ProtoList) (p : Proto) (a : List Proto) (junk : List (Option Proto))
    (s : Option Proto × ProtoList) (c d : List Proto) : Prop where
  rem : s.1 = some p
  proto : ∃ x, s.2.proto = (a ++ c).map some ++ x :: (d.map some ++ junk)
  length : s.2.length = pl.length
  main : s.2.main = pl.main
  stores : ∀ i ∈ s.2.stores, i < PROTO_LIST_MAX

theorem Moving.step {s : Option Proto × ProtoList} {c d : List Proto} {r : Proto}
    (h : Moving pl p a junk s c (r :: d)) (hr : r ≠ p) :
    Moving pl p a junk (removeStep p s ((a ++ c).length + 1)) (c ++ [r]) d := by
  obtain ⟨x, hx⟩ := h.proto
  have hget : s.2.proto.getD ((a ++ c).length + 1) none = some r := by
    have hcut : s.2.proto = ((a ++ c).map some ++ [x]) ++ some r :: (d.map some ++ junk) := by rw [hx]; simp
    have hlen : ((a ++ c).map some ++ [x]).length = (a ++ c).length + 1 := by
      rw [List.length_append, List.length_map, List.length_singleton]
    rw [hcut, List.getD_eq_getElem?_getD, List.getElem?_append_right (by rw [hlen]), hlen, Nat.sub_self]
    rfl
  have hsize : (a ++ c).length < PROTO_LIST_MAX := by
    rw [← s.2.size, hx]
    simp
  rw [removeStep, hget, if_neg (by simpa using hr), if_pos (by rw [h.rem]; rfl), Nat.add_sub_cancel]
  refine ⟨h.rem, ⟨some r, ?_⟩, h.length, h.main, ?_⟩
  · change s.2.proto.set (a ++ c).length (some r) = _
    rw [hx, List.set_append_right _ _ (by rw [List.length_map]), List.length_map, Nat.sub_self, List.set_cons_zero]
    simp
  · intro i hi
    rcases List.mem_append.1 hi with hi | hi
    · exact h.stores i hi
    · rw [List.mem_singleton.1 hi]
      exact hsize

/-- The loop closes the gap. -/
theorem removeLoop_spec (hproto : pl.proto = (a ++ p :: b).map some ++ junk) (hnodup : (a ++ p :: b).Nodup)
    (hstores : ∀ i ∈ pl.stores, i < PROTO_LIST_MAX) :
    Moving pl p a junk ((List.range (a ++ p :: b).length).foldl (removeStep p) (none, pl)) b [] := by
  have hp : p ∉ a := fun hmem => (List.nodup_append.1 hnodup).2.2 p hmem p List.mem_cons_self rfl
  have hb : p ∉ b := (List.nodup_cons.1 (List.nodup_append.1 hnodup).2.1).1
  -- the places behind `p`, one after another
  have key : ∀ c d, b = c ++ d →
      Moving pl p a junk ((List.range (a.length + 1 + c.length)).foldl (removeStep p) (none, pl)) c d := by
    intro c
    induction c using List.reverseRecOn with
    | nil =>
      intro d hd
      have hsplit : pl.proto = a.map some ++ (some p :: (b.map some ++ junk)) := by rw [hproto]; simp
      rw [List.length_nil, Nat.add_zero, List.range_succ, List.foldl_append, removeLoop_before hsplit hp,
        List.foldl_cons, List.foldl_nil, removeStep, hsplit, getD_map_append, if_pos rfl]
      refine ⟨rfl, ⟨some p, ?_⟩, rfl, rfl, hstores⟩
      rw [hsplit, hd]
      simp
    | append_singleton c r ih =>
      intro d hd
      have hmoving := ih (r :: d) (by rw [hd, List.append_assoc]; rfl)
      have hr : r ≠ p := by
        rintro rfl
        exact hb (by rw [hd]; simp)
      have hstep := hmoving.step hr
      rw [List.length_append, List.length_singleton, ← Nat.add_assoc, List.range_succ, List.foldl_append,
        List.foldl_cons, List.foldl_nil]
      rw [List.length_append] at hstep
      rwa [show a.length + 1 + c.length = a.length + c.length + 1 by omega] at hstep ⊢
  have hlen : (a ++ p :: b).length = a.length + 1 + b.length := by
    rw [List.length_append, List.length_cons]
    omega
  rw [hlen]
  exact key b [] (List.append_nil b).symm

theorem parentsFirst_remove (hl : ParentsFirst (a ++ p :: b)) (hp : ∀ q ∈ a ++ p :: b, q.from? ≠ some p) :
    ParentsFirst (a ++ b) := by
  intro l₁ r l₂ heq q hq
  have hqp : q ≠ p := by
    rintro rfl
    refine hp r ?_ hq
    have hmem : r ∈ a ++ b := by rw [heq]; simp
    rcases List.mem_append.1 hmem with hmem | hmem
    · exact List.mem_append_left _ hmem
    · exact List.mem_append_right _ (List.mem_cons_of_mem _ hmem)
  have behind : ∀ y, b = y ++ r :: l₂ → q ∈ a ++ y := by
    intro y hy
    have hmem := hl (a ++ p :: y) r l₂ (by rw [hy, List.append_assoc]; rfl) q hq
    rcases List.mem_append.1 hmem with hmem | hmem
    · exact List.mem_append_left _ hmem
    · exact List.mem_append_right _ ((List.mem_cons.1 hmem).resolve_left hqp)
  rcases List.append_eq_append_iff.1 heq with ⟨y, rfl, hb⟩ | ⟨c, ha, hc⟩
  · exact behind y hb
  · cases c with
    | nil =>
      have := behind [] hc.symm
      rwa [List.append_nil, ha, List.append_nil] at this
    | cons c₀ c =>
      obtain ⟨rfl, rfl⟩ := List.cons.inj hc
      exact hl l₁ r (c ++ p :: b) (by rw [ha, List.append_assoc]; rfl) q hq

/-- A removal that is fine takes the protocol out and keeps the order of the others. -/
theorem Lists.remove {l : List Proto} (h : Lists pl l) (hok : RemoveOk pl p) :
    Lists (protoRemove (some p) pl) (l.erase p) := by
  have hcut : pl.proto = l.map some ++ pl.proto.drop pl.length := by rw [← h.proto, List.take_append_drop]
  rw [RemoveOk, h.protos_eq] at hok
  by_cases hp : p ∈ l
  · obtain ⟨hlen, hchild⟩ := hok hp
    obtain ⟨a, b, rfl⟩ := List.append_of_mem hp
    have hpa : p ∉ a := fun hmem => (List.nodup_append.1 h.nodup).2.2 p hmem p List.mem_cons_self rfl
    have hpb : p ∉ b := (List.nodup_cons.1 (List.nodup_append.1 h.nodup).2.1).1
    rw [List.erase_append_right _ hpa, List.erase_cons_head]
    have hmoving := removeLoop_spec hcut h.nodup h.stores
    have hlength := h.length
    rw [List.length_append, List.length_cons] at hlength
    obtain ⟨⟨rem, pl'⟩, hs⟩ : ∃ s, (List.range (a ++ p :: b).length).foldl (removeStep p) (none, pl) = s := ⟨_, rfl⟩
    rw [hs] at hmoving
    obtain ⟨hrem, ⟨x, hx⟩, hlen', hmain, hstores⟩ := hmoving
    simp only at hrem hx hlen' hmain hstores
    subst hrem
    have htake : (pl'.proto.set pl'.length none).take (pl'.length - 1) = (a ++ b).map some := by
      rw [List.take_set_of_le (by omega), hx, hlen', List.take_append_of_le_length (by simp; omega),
        List.take_of_length_le (by simp; omega)]
    have hlists : ∀ main, (∀ q, main = some q ↔ q ∈ a ++ b ∧ q.from? = none) →
        Lists { pl'.store pl'.length none with length := pl'.length - 1, main := main } (a ++ b) := by
      intro main hmain
      refine ⟨htake, ?_, ?_, h.nodup.sublist (List.Sublist.append_left (List.sublist_cons_self p b) a),
        parentsFirst_remove h.parents hchild, hmain⟩
      · change pl'.length - 1 = _
        rw [List.length_append]
        omega
      · intro i hi
        rcases List.mem_append.1 hi with hi | hi
        · exact hstores i hi
        · rw [List.mem_singleton.1 hi, hlen']
          exact hlen
    have hmem : ∀ q, q ∈ a ++ p :: b ↔ q = p ∨ q ∈ a ++ b := by
      intro q
      simp only [List.mem_append, List.mem_cons]
      exact or_left_comm
    have hnot : p ∉ a ++ b := fun hmem => (List.mem_append.1 hmem).elim hpa hpb
    simp only [protoRemove, h.length, hs, removeEnd]
    rw [if_pos (show (pl'.store pl'.length none).length ≠ 0 by change pl'.length ≠ 0; omega)]
    by_cases hroot : pl'.main = some p
    · rw [if_pos (show ({ pl'.store pl'.length none with length := (pl'.store pl'.length none).length - 1 } :
        ProtoList).main = some p from
        hroot)]
      refine hlists none fun q => ⟨fun e => absurd e (by simp), ?_⟩
      rintro ⟨hq, hfrom⟩
      have := (h.main q).2 ⟨(hmem q).2 (.inr hq), hfrom⟩
      rw [← hmain, hroot] at this
      exact absurd (Option.some.inj this ▸ hq) hnot
    · rw [if_neg (show ¬({ pl'.store pl'.length none with length := (pl'.store pl'.length none).length - 1 } :
        ProtoList).main = some p
        from hroot)]
      refine hlists pl'.main fun q => ?_
      rw [hmain, h.main q, hmem]
      constructor
      · rintro ⟨rfl | hq, hfrom⟩
        · exact absurd (by rw [hmain]; exact (h.main q).2 ⟨hp, hfrom⟩) hroot
        · exact ⟨hq, hfrom⟩
      · rintro ⟨hq, hfrom⟩
        exact ⟨.inr hq, hfrom⟩
  · -- nothing to remove
    simp only [protoRemove, h.length, removeLoop_before hcut hp, List.erase_of_not_mem hp]
    exact h

end Remove

/-! ### Runs -/

theorem lists_protoList : Lists protoList [] where
  proto := rfl
  length := rfl
  stores := by simp [protoList]
  nodup := List.nodup_nil
  parents l₁ p l₂ h := absurd h.symm (by simp)
  main p := by simp [protoList]

theorem lists_step {pl : ProtoList} {l : List Proto} (h : Lists pl l) {c : Call} (hok : CallOk pl c) :
    ∃ l', Lists (step pl c).2 l' := by
  cases c with
  | add fn =>
    cases fn with
    | none => exact ⟨l, h⟩
    | some p => exact h.add hok
  | remove fn =>
    cases fn with
    | none => exact ⟨l, h⟩
    | some p => exact ⟨_, h.remove hok⟩

/-- What holds of a list: at most `PROTO_LIST_MAX` protocols, no store behind the array, the protocols different and
each behind its parent, `main` the only root; and an addition that answers NULL leaves it as it is. -/
def Holds (pl : ProtoList) : Prop :=
  pl.length ≤ PROTO_LIST_MAX ∧ (∃ l, Lists pl l) ∧ ∀ fn, (protoAdd fn pl).1 = none → (protoAdd fn pl).2 = pl

/-- Every run of calls that are fine. -/
theorem proto_list_invariant {calls : List Call} (hok : Machine.Guarded step CallOk protoList calls) :
    Holds (Machine.run step protoList calls) := by
  obtain ⟨l, h⟩ := Machine.guarded_invariant (I := fun pl => ∃ l, Lists pl l) (fun _ _ ⟨_, h⟩ hok => lists_step h hok)
    ⟨[], lists_protoList⟩ hok
  exact ⟨by rw [h.length]; exact h.length_le, ⟨l, h⟩, fun fn => protoAdd_refused⟩

/-- Two protocols that upgrade from a third one, which comes with the first of them, and the removal of the first. -/
theorem proto_list_invariant_upgrades :
    Holds (Machine.run step protoList
      [.add (some (.child 2 (.root 1))), .add (some (.child 3 (.root 1))), .remove (some (.child 2 (.root 1))),
      .add (some (.root 4))]) ∧
    (Machine.run step protoList
      [.add (some (.child 2 (.root 1))), .add (some (.child 3 (.root 1))), .remove (some (.child 2 (.root 1))),
        .add (some (.root 4))]).protos = [.root 1, .child 3 (.root 1)] :=
  ⟨proto_list_invariant (by decide), by decide⟩

/-- What breaks the list: a protocol whose root is refused, since there is another one; a protocol and its parent
where there is room for one; the removal of a parent; and a removal from a full list, which stores behind the array.
-/
theorem proto_list_broken :
    ¬Holds (Machine.run step protoList [.add (some (.root 0)), .add (some (.child 2 (.root 1)))]) ∧
    ¬Holds (Machine.run step protoList
      (((List.range 30).map fun i => .add (some (.child i (.root 0)))) ++
      [.add (some (.child 41 (.child 40 (.root 0))))])) ∧
    ¬Holds (Machine.run step protoList [.add (some (.child 2 (.root 1))), .remove (some (.root 1))]) ∧
    ¬Holds (Machine.run step protoList
      (((List.range 31).map fun i => .add (some (.child i (.root 0)))) ++ [.remove (some (.child 0 (.root 0)))])) := by
  -- a protocol listed before its parent, and a store behind the array
  have orphan : ∀ {pl : ProtoList} (l₁ : List Proto) (p : Proto) (l₂ : List Proto) {q : Proto},
    pl.protos = l₁ ++ p :: l₂ →
      p.from? = some q → q ∉ l₁ → ¬Holds pl := by
    intro pl l₁ p l₂ q hl hq hnot h
    obtain ⟨-, ⟨l, hlists⟩, -⟩ := h
    exact hnot (hlists.parents l₁ p l₂ (by rw [← hlists.protos_eq, hl]) q hq)
  have stray : ∀ {pl : ProtoList}, (∃ i ∈ pl.stores, ¬i < PROTO_LIST_MAX) → ¬Holds pl := by
    rintro pl ⟨i, hi, hnot⟩ ⟨-, ⟨l, hlists⟩, -⟩
    exact hnot (hlists.stores i hi)
  refine ⟨?_, stray (by decide +kernel), ?_, stray (by decide +kernel)⟩
  · exact orphan [.root 0] (.child 2 (.root 1)) [] (by decide) rfl (by decide)
  · exact orphan [] (.child 2 (.root 1)) [] (by decide) rfl (by decide)

end JACLibc.Protocols
