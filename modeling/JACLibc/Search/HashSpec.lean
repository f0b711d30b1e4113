import JACLibc.Search.Hash
import JACLibc.Lib.Cyclic
import Mathlib.Data.Finset.Card
import Mathlib.Data.List.Nodup

/-!
# The hash table is a bounded map

The invariant `HInv` of the table: no key is stored twice, and no empty cell lies between the home cell of a stored
key and the cell that holds it.  With it the probing loop of `hsearch` ends at the cell of the key when the key is
stored, at the first empty cell on the walk when it is not, and finds the table full only when every cell holds
another key (`probe_spec`).

`Represents` ties the table to the calls made so far: the cells hold exactly the keys entered, with the data of the
latest successful `ENTER`.  It is extended by every call (`hstep_represents`), which gives `hsearch_bounded_map` for
every sequence of calls.
-/

namespace JACLibc

open Cyclic

variable {D : Type*}

/-! ### The probing loop -/

/-- The cell `idx` holds an entry for another key than `key`. -/
def Other (slots : List (Option (ENTRY D))) (key : CString) (idx : Nat) : Prop :=
  ∃ e, cell slots idx = some e ∧ e.key ≠ key

/-- What the loop has found when it ends, in terms of the walk from `start`. -/
def ProbeResult (slots : List (Option (ENTRY D))) (cap : Nat) (key : CString) (start : Nat) : Probe → Prop
  | .vacant idx => ∃ t < cap, walk cap start t = idx ∧ cell slots idx = none ∧
      ∀ u < t, Other slots key (walk cap start u)
  | .hit idx => ∃ t < cap, walk cap start t = idx ∧ (∃ e, cell slots idx = some e ∧ e.key = key) ∧
      ∀ u < t, Other slots key (walk cap start u)
  | .full => ∀ u < cap, Other slots key (walk cap start u)

private theorem probe_from (slots : List (Option (ENTRY D))) {cap : Nat} (key : CString) {start : Nat}
    (hs : start < cap) (fuel t : Nat) (hf : fuel + t = cap) (ht : t < cap)
    (hbefore : ∀ u < t, Other slots key (walk cap start u)) :
    ∃ r, probe slots cap key start fuel (walk cap start t) = some r ∧ ProbeResult slots cap key start r := by
  induction fuel generalizing t with
  | zero => omega
  | succ fuel ih =>
    unfold probe
    rcases hc : cell slots (walk cap start t) with _ | e
    · exact ⟨_, rfl, t, ht, rfl, hc, hbefore⟩
    · by_cases hk : e.key = key
      · simp only [CString.strcmp_eq_zero, hk, ↓reduceIte]
        exact ⟨_, rfl, t, ht, rfl, ⟨e, hc, hk⟩, hbefore⟩
      · have hupto : ∀ u < t + 1, Other slots key (walk cap start u) := by
          intro u hu
          rcases Nat.lt_succ_iff_lt_or_eq.1 hu with hu | rfl
          · exact hbefore u hu
          · exact ⟨e, hc, hk⟩
        simp only [CString.strcmp_eq_zero, hk, ↓reduceIte, walk_succ]
        by_cases hback : walk cap start (t + 1) = start
        · have hlast := (walk_succ_eq_start hs ht).1 hback
          simp only [hback, ne_eq, not_true_eq_false, ↓reduceIte]
          exact ⟨_, rfl, fun u hu => hupto u (by omega)⟩
        · have hmore : t + 1 < cap := by
            have := (walk_succ_eq_start hs ht).not.1 hback
            omega
          simp only [ne_eq, hback, not_false_eq_true, ↓reduceIte]
          exact ih (t + 1) (by omega) hmore hupto

/-- The loop ends within `cap` rounds, with one of the three results. -/
theorem probe_spec (slots : List (Option (ENTRY D))) {cap : Nat} (key : CString) {start : Nat} (hs : start < cap) :
    ∃ r, probe slots cap key start cap start = some r ∧ ProbeResult slots cap key start r := by
  have h := probe_from slots key hs cap 0 (by omega) (by omega) (by omega)
  rwa [walk_zero hs] at h

/-! ### The invariant -/

/-- The home cell of a key. -/
def home (cap : Nat) (key : CString) : Nat := hashKey key % cap

/-- No key twice, and every stored key reachable from its home cell over occupied cells. -/
structure HInv (cap : Nat) (slots : List (Option (ENTRY D))) : Prop where
  length : slots.length = cap
  pos : 0 < cap
  unique : ∀ i j e f, cell slots i = some e → cell slots j = some f → e.key = f.key → i = j
  reach : ∀ t < cap, ∀ e, cell slots (walk cap (home cap e.key) t) = some e →
    ∀ u < t, cell slots (walk cap (home cap e.key) u) ≠ none

theorem HInv.home_lt {cap : Nat} {slots : List (Option (ENTRY D))} (h : HInv cap slots) (key : CString) :
    home cap key < cap := Nat.mod_lt _ h.pos

private theorem cell_lt {slots : List (Option (ENTRY D))} {i : Nat} {e : ENTRY D} (h : cell slots i = some e) :
    i < slots.length := by
  by_contra hi
  simp [cell, List.getElem?_eq_none (Nat.le_of_not_lt hi)] at h

private theorem cell_replicate (cap i : Nat) : cell (List.replicate cap (none : Option (ENTRY D))) i = none := by
  unfold cell
  rw [List.getElem?_replicate]
  split <;> rfl

private theorem hinv_replicate {cap : Nat} (h : 0 < cap) : HInv cap (List.replicate cap (none : Option (ENTRY D))) where
  length := by simp
  pos := h
  unique := by simp [cell_replicate]
  reach := by simp [cell_replicate]

private theorem cell_set {slots : List (Option (ENTRY D))} {i : Nat} (hi : i < slots.length) (x : Option (ENTRY D))
    (j : Nat) : cell (slots.set i x) j = if j = i then x else cell slots j := by
  unfold cell
  by_cases h : j = i
  · subst h; simp [hi]
  · rw [List.getElem?_set_ne (Ne.symm h)]; simp [h]

private theorem cell_modify (slots : List (Option (ENTRY D))) (i : Nat) (d : D) (j : Nat) :
    cell (slots.modify i (Option.map fun e => { e with data := d })) j =
      if j = i then (cell slots j).map fun e => { e with data := d } else cell slots j := by
  unfold cell
  by_cases h : j = i
  · subst h
    rcases hj : slots[j]? with _ | x <;> simp [hj]
  · rw [List.getElem?_modify_ne _ _ (Ne.symm h)]; simp [h]

/-- A stored key is found: the walk from its home cell meets neither an empty cell nor another cell with it
before. -/
private theorem probe_stored {cap : Nat} {slots : List (Option (ENTRY D))} (h : HInv cap slots) {i : Nat}
    {e : ENTRY D} (hi : cell slots i = some e) :
    probe slots cap e.key (home cap e.key) cap (home cap e.key) = some (.hit i) := by
  have hlt := cell_lt hi
  rw [h.length] at hlt
  obtain ⟨t, ht, hw⟩ := exists_walk (h.home_lt e.key) hlt
  obtain ⟨r, hr, hres⟩ := probe_spec slots e.key (h.home_lt e.key)
  rw [hr]
  congr 1
  cases r with
  | vacant idx =>
    obtain ⟨u, hu, rfl, hnone, hother⟩ := hres
    rcases Nat.lt_trichotomy u t with hut | rfl | hut
    · exact absurd hnone (h.reach t ht e (by rw [hw, hi]) u hut)
    · rw [hw, hi] at hnone; cases hnone
    · obtain ⟨f, hf, hne⟩ := hother t hut
      rw [hw, hi] at hf
      cases hf
      exact absurd rfl hne
  | hit idx =>
    obtain ⟨_, _, _, ⟨f, hf, hk⟩, _⟩ := hres
    rw [h.unique idx i f e hf hi hk]
  | full =>
    obtain ⟨f, hf, hne⟩ := hres t ht
    rw [hw, hi] at hf
    cases hf
    exact absurd rfl hne

/-- A key that is not stored is not found: the loop ends at an empty cell before which every cell of the walk is
occupied, or every cell is occupied. -/
private theorem probe_absent {cap : Nat} {slots : List (Option (ENTRY D))} (h : HInv cap slots) {key : CString}
    (habs : ∀ i e, cell slots i = some e → e.key ≠ key) :
    (∃ t < cap, probe slots cap key (home cap key) cap (home cap key) = some (.vacant (walk cap (home cap key) t)) ∧
      cell slots (walk cap (home cap key) t) = none ∧ ∀ u < t, cell slots (walk cap (home cap key) u) ≠ none) ∨
    (probe slots cap key (home cap key) cap (home cap key) = some .full ∧ ∀ i < cap, cell slots i ≠ none) := by
  obtain ⟨r, hr, hres⟩ := probe_spec slots key (h.home_lt key)
  cases r with
  | vacant idx =>
    obtain ⟨t, ht, rfl, hnone, hother⟩ := hres
    refine .inl ⟨t, ht, hr, hnone, fun u hu => ?_⟩
    obtain ⟨f, hf, _⟩ := hother u hu
    simp [hf]
  | hit idx =>
    obtain ⟨_, _, _, ⟨f, hf, hk⟩, _⟩ := hres
    exact absurd hk (habs idx f hf)
  | full =>
    refine .inr ⟨hr, fun i hi => ?_⟩
    obtain ⟨t, ht, rfl⟩ := exists_walk (h.home_lt key) hi
    obtain ⟨f, hf, _⟩ := hres t ht
    simp [hf]

/-- Storing a new key in the first empty cell of its walk keeps the invariant. -/
private theorem hinv_set {cap : Nat} {slots : List (Option (ENTRY D))} (h : HInv cap slots) {e : ENTRY D}
    (habs : ∀ i f, cell slots i = some f → f.key ≠ e.key) {t : Nat} (ht : t < cap)
    (hocc : ∀ u < t, cell slots (walk cap (home cap e.key) u) ≠ none) :
    HInv cap (slots.set (walk cap (home cap e.key) t) (some e)) := by
  have hi : walk cap (home cap e.key) t < slots.length := by rw [h.length]; exact walk_lt h.pos _ _
  refine ⟨by simp [h.length], h.pos, ?_, ?_⟩
  · intro i j f g hf hg hk
    rw [cell_set hi] at hf hg
    split at hf <;> split at hg
    · omega
    · cases hf; exact absurd hk.symm (habs j g hg)
    · cases hg; exact absurd hk (habs i f hf)
    · exact h.unique i j f g hf hg hk
  · intro s hs f hf u hu hnone
    rw [cell_set hi] at hf hnone
    split at hnone
    · cases hnone
    · split at hf
      · rename_i hne heq
        cases hf
        -- the new entry itself: it sits `t` steps from its home cell
        have hst : s = t := walk_injOn _ hs ht heq
        exact hocc u (hst ▸ hu) hnone
      · exact h.reach s hs f hf u hu hnone

/-- Replacing the data of a stored key keeps the invariant. -/
private theorem hinv_modify {cap : Nat} {slots : List (Option (ENTRY D))} (h : HInv cap slots) (i : Nat) (d : D) :
    HInv cap (slots.modify i (Option.map fun e => { e with data := d })) := by
  -- every cell of the new table holds the same key as before
  have hkey : ∀ j e, cell (slots.modify i (Option.map fun e => { e with data := d })) j = some e →
      ∃ f, cell slots j = some f ∧ f.key = e.key := by
    intro j e he
    rw [cell_modify] at he
    split at he
    · obtain ⟨f, hf, rfl⟩ := Option.map_eq_some_iff.1 he
      exact ⟨f, hf, rfl⟩
    · exact ⟨e, he, rfl⟩
  refine ⟨by simp [h.length], h.pos, ?_, ?_⟩
  · intro j k e f he hf hk
    obtain ⟨e', he', hek⟩ := hkey j e he
    obtain ⟨f', hf', hfk⟩ := hkey k f hf
    exact h.unique j k e' f' he' hf' (by rw [hek, hfk, hk])
  · intro t ht e he u hu hnone
    obtain ⟨f, hf, hfk⟩ := hkey _ e he
    rw [← hfk] at hf hnone
    refine h.reach t ht f hf u hu ?_
    rw [cell_modify] at hnone
    split at hnone
    · exact Option.map_eq_none_iff.1 hnone
    · exact hnone

/-! ### The calls so far -/

/-- The answer of a call that returns an entry. -/
def Succeeded (r : Option (Except Errno Nat)) : Prop := ∃ i, r = some (.ok i)

instance (r : Option (Except Errno Nat)) : Decidable (Succeeded r) :=
  match r with
  | some (.ok i) => .isTrue ⟨i, rfl⟩
  | some (.error _) => .isFalse (by rintro ⟨_, h⟩; cases h)
  | none => .isFalse (by rintro ⟨_, h⟩; cases h)

/-- What one call does to the map: a successful `ENTER` of a key gives the key its data. -/
def enterEffect (k : CString) (old : Option D) (c : HCall D × Option (Except Errno Nat)) : Option D :=
  if c.1.action = .ENTER ∧ c.1.key = k ∧ Succeeded c.2 then some c.1.data else old

/-- The data of the latest successful `ENTER` of `k` among the calls, oldest first. -/
def lastEnter (tr : List (HCall D × Option (Except Errno Nat))) (k : CString) : Option D :=
  tr.foldl (enterEffect k) none

/-- The keys of the successful `ENTER` calls. -/
def enteredKeys (tr : List (HCall D × Option (Except Errno Nat))) : Finset CString :=
  (tr.filterMap fun c => if c.1.action = .ENTER ∧ Succeeded c.2 then some c.1.key else none).toFinset

theorem lastEnter_append (tr : List (HCall D × Option (Except Errno Nat))) (c : HCall D × Option (Except Errno Nat))
    (k : CString) : lastEnter (tr ++ [c]) k = enterEffect k (lastEnter tr k) c := by
  simp [lastEnter]

theorem mem_enteredKeys {tr : List (HCall D × Option (Except Errno Nat))} {k : CString} :
    k ∈ enteredKeys tr ↔ (lastEnter tr k).isSome := by
  induction tr using List.reverseRecOn with
  | nil => simp [enteredKeys, lastEnter]
  | append_singleton tr c ih =>
    rw [lastEnter_append, enterEffect]
    have hsplit : k ∈ enteredKeys (tr ++ [c]) ↔
        k ∈ enteredKeys tr ∨ (c.1.action = .ENTER ∧ Succeeded c.2) ∧ c.1.key = k := by
      simp only [enteredKeys, List.filterMap_append, List.toFinset_append, Finset.mem_union]
      by_cases hc : c.1.action = .ENTER ∧ Succeeded c.2
      · simp [List.filterMap, hc.1, hc.2, eq_comm]
      · simp only [List.filterMap, hc, ↓reduceIte, false_and, or_false, List.toFinset_nil, Finset.notMem_empty]
    rw [hsplit, ih]
    by_cases hc : c.1.action = .ENTER ∧ c.1.key = k ∧ Succeeded c.2
    · simp [hc]
    · have : ¬((c.1.action = .ENTER ∧ Succeeded c.2) ∧ c.1.key = k) := fun h => hc ⟨h.1.1, h.2, h.1.2⟩
      simp [hc, this]

/-- The cells hold exactly the keys entered, each with the data of its latest successful `ENTER`. -/
structure Represents (cap : Nat) (tr : List (HCall D × Option (Except Errno Nat))) (t : HTable D) : Prop where
  cap_eq : t.cap = cap
  slots : ∃ slots, t.tbl = some slots ∧ HInv cap slots ∧
    ∀ k d, (∃ i, cell slots i = some ⟨k, d⟩) ↔ lastEnter tr k = some d

/-! ### One call -/

/-- A call with a stored key returns its cell, and an `ENTER` replaces its data. -/
private theorem hstep_of_stored {cap : Nat} {slots : List (Option (ENTRY D))} (h : HInv cap slots) {i : Nat}
    {e : ENTRY D} (hi : cell slots i = some e) {c : HCall D} (hk : c.key = e.key) :
    hstep ⟨some slots, cap⟩ c = (some (.ok i), ⟨some (if c.action = .ENTER then
      slots.modify i (Option.map fun e => { e with data := c.data }) else slots), cap⟩) := by
  have hp := probe_stored h hi
  rw [← hk] at hp
  unfold home at hp
  by_cases ha : c.action = .ENTER <;> simp [hstep, hsearch, hp, ha]

/-- A call with a key that is not stored: an `ENTER` stores it in the first empty cell of its walk; without an
empty cell, or for a `FIND`, the call fails and changes nothing. -/
private theorem hstep_of_absent {cap : Nat} {slots : List (Option (ENTRY D))} (h : HInv cap slots) {c : HCall D}
    (habs : ∀ i e, cell slots i = some e → e.key ≠ c.key) :
    (∃ t < cap, cell slots (walk cap (home cap c.key) t) = none ∧
      (∀ u < t, cell slots (walk cap (home cap c.key) u) ≠ none) ∧
      hstep ⟨some slots, cap⟩ c = if c.action = .ENTER then (some (.ok (walk cap (home cap c.key) t)),
        ⟨some (slots.set (walk cap (home cap c.key) t) (some ⟨c.key, c.data⟩)), cap⟩)
        else (some (.error .ESRCH), ⟨some slots, cap⟩)) ∨
    ((∀ i < cap, cell slots i ≠ none) ∧ hstep ⟨some slots, cap⟩ c = (some (.error .ENOSPC), ⟨some slots, cap⟩)) := by
  rcases probe_absent h habs with ⟨t, ht, hp, hfree, hocc⟩ | ⟨hp, hfull⟩
  · refine .inl ⟨t, ht, hfree, hocc, ?_⟩
    unfold home at hp ⊢
    by_cases ha : c.action = .ENTER <;> simp [hstep, hsearch, hp, ha]
  · refine .inr ⟨hfull, ?_⟩
    unfold home at hp
    simp [hstep, hsearch, hp]

/-- The key of a call is stored in some cell, or in none. -/
private theorem stored_or_absent (slots : List (Option (ENTRY D))) (k : CString) :
    (∃ i e, cell slots i = some e ∧ k = e.key) ∨ ∀ i e, cell slots i = some e → e.key ≠ k := by
  by_cases h : ∃ i e, cell slots i = some e ∧ k = e.key
  · exact .inl h
  · exact .inr fun i e hi hk => h ⟨i, e, hi, hk.symm⟩

/-- The cells of all keys but `k` are the same in both tables. -/
def SameBut (k : CString) (slots slots' : List (Option (ENTRY D))) : Prop :=
  ∀ i e, e.key ≠ k → (cell slots' i = some e ↔ cell slots i = some e)

private theorem sameBut_modify {slots : List (Option (ENTRY D))} {i : Nat} {e : ENTRY D} (hi : cell slots i = some e)
    (d : D) : SameBut e.key slots (slots.modify i (Option.map fun e => { e with data := d })) := by
  intro j f hf
  rw [cell_modify]
  split
  · rename_i hji
    subst hji
    rw [hi]
    constructor
    · intro h; cases h; exact absurd rfl hf
    · intro h; cases h; exact absurd rfl hf
  · rfl

private theorem sameBut_set {slots : List (Option (ENTRY D))} {i : Nat} (hlt : i < slots.length)
    (hi : cell slots i = none) (e : ENTRY D) : SameBut e.key slots (slots.set i (some e)) := by
  intro j f hf
  rw [cell_set hlt]
  split
  · rename_i hji
    subst hji
    rw [hi]
    constructor
    · intro h; cases h; exact absurd rfl hf
    · intro h; cases h
  · rfl

/-- How the answer of a call and the new table follow from the old one: the key is stored; it is new and an `ENTER`
finds an empty cell; it is new and the call fails. -/
inductive HOutcome (cap : Nat) (slots : List (Option (ENTRY D))) (c : HCall D) :
    Option (Except Errno Nat) → List (Option (ENTRY D)) → Prop
  | stored (slots' : List (Option (ENTRY D))) (i : Nat) (e : ENTRY D) : cell slots i = some e → e.key = c.key →
      cell slots' i = some ⟨c.key, if c.action = .ENTER then c.data else e.data⟩ →
      HOutcome cap slots c (some (.ok i)) slots'
  | entered (slots' : List (Option (ENTRY D))) (i : Nat) : c.action = .ENTER →
      (∀ j e, cell slots j = some e → e.key ≠ c.key) → i < cap → cell slots i = none →
      cell slots' i = some ⟨c.key, c.data⟩ → HOutcome cap slots c (some (.ok i)) slots'
  | failed (err : Errno) : (∀ j e, cell slots j = some e → e.key ≠ c.key) →
      (c.action = .ENTER → ∀ i < cap, cell slots i ≠ none) → HOutcome cap slots c (some (.error err)) slots

/-- Every call on a table that meets the invariant returns, keeps the invariant, and leaves the other keys alone. -/
theorem hstep_outcome {cap : Nat} {slots : List (Option (ENTRY D))} (h : HInv cap slots) (c : HCall D) :
    ∃ slots', (hstep ⟨some slots, cap⟩ c).2 = ⟨some slots', cap⟩ ∧ HInv cap slots' ∧
      SameBut c.key slots slots' ∧ HOutcome cap slots c (hstep ⟨some slots, cap⟩ c).1 slots' := by
  have hrefl : SameBut c.key slots slots := fun _ _ _ => Iff.rfl
  rcases stored_or_absent slots c.key with ⟨i, e, hi, hk⟩ | habs
  · rw [hstep_of_stored h hi hk]
    by_cases ha : c.action = .ENTER
    · simp only [ha, ↓reduceIte]
      refine ⟨_, rfl, hinv_modify h i c.data, hk ▸ sameBut_modify hi c.data, .stored _ i e hi hk.symm ?_⟩
      simp [cell_modify, hi, hk, ha]
    · simp only [ha, ↓reduceIte]
      exact ⟨slots, rfl, h, hrefl, .stored _ i e hi hk.symm (by simp [hi, hk, ha])⟩
  · rcases hstep_of_absent h habs with ⟨t, ht, hfree, hocc, heq⟩ | ⟨hfull, heq⟩
    · rw [heq]
      by_cases ha : c.action = .ENTER
      · have hi : walk cap (home cap c.key) t < slots.length := by rw [h.length]; exact walk_lt h.pos _ _
        simp only [ha, ↓reduceIte]
        refine ⟨_, rfl, hinv_set h (e := ⟨c.key, c.data⟩) habs ht hocc, sameBut_set hi hfree ⟨c.key, c.data⟩, ?_⟩
        exact .entered _ _ ha habs (walk_lt h.pos _ _) hfree (by simp [cell_set hi])
      · simp only [ha, ↓reduceIte]
        exact ⟨slots, rfl, h, hrefl, .failed _ habs (fun h' => absurd h' ha)⟩
    · rw [heq]
      exact ⟨slots, rfl, h, hrefl, .failed _ habs (fun _ => hfull)⟩

/-- The key of a call has exactly the data that the trace extended by the call gives it. -/
private theorem outcome_key {cap : Nat} {slots slots' : List (Option (ENTRY D))} {c : HCall D}
    {r : Option (Except Errno Nat)} {tr : List (HCall D × Option (Except Errno Nat))} (h' : HInv cap slots')
    (hmap : ∀ d, (∃ i, cell slots i = some ⟨c.key, d⟩) ↔ lastEnter tr c.key = some d)
    (ho : HOutcome cap slots c r slots') (d : D) :
    (∃ i, cell slots' i = some ⟨c.key, d⟩) ↔ enterEffect c.key (lastEnter tr c.key) (c, r) = some d := by
  -- in a table with the invariant the one cell of a key tells its data
  have honly : ∀ i d', cell slots' i = some ⟨c.key, d'⟩ → ((∃ j, cell slots' j = some ⟨c.key, d⟩) ↔ d' = d) := by
    intro i d' hi
    constructor
    · rintro ⟨j, hj⟩
      rw [h'.unique j i _ _ hj hi rfl, hi] at hj
      simpa using hj
    · rintro rfl; exact ⟨i, hi⟩
  cases ho with
  | stored _ i e hi hk hnew =>
    rw [honly i _ hnew]
    have hold : lastEnter tr c.key = some e.data := (hmap e.data).1 ⟨i, by rw [hi, ← hk]⟩
    by_cases ha : c.action = .ENTER <;> simp [enterEffect, Succeeded, ha, hold]
  | entered _ i ha habs hlt hfree hnew =>
    rw [honly i _ hnew]
    simp [enterEffect, Succeeded, ha]
  | failed err habs hfull =>
    rw [hmap]
    simp [enterEffect, Succeeded]

/-- Every call extends the map by its own effect. -/
theorem hstep_represents {cap : Nat} (tr : List (HCall D × Option (Except Errno Nat))) (t : HTable D) (c : HCall D)
    (h : Represents cap tr t) : Represents cap (tr ++ [(c, (hstep t c).1)]) (hstep t c).2 := by
  obtain ⟨hcap, slots, htbl, hinv, hmap⟩ := h
  obtain ⟨tbl, tcap⟩ := t
  subst hcap htbl
  obtain ⟨slots', hs', hinv', hsame, ho⟩ := hstep_outcome hinv c
  refine ⟨by rw [hs'], slots', by rw [hs'], hinv', fun k d => ?_⟩
  rw [lastEnter_append]
  by_cases hck : c.key = k
  · subst hck
    exact outcome_key hinv' (hmap c.key) ho d
  · have heff : enterEffect k (lastEnter tr k) (c, (hstep ⟨some slots, tcap⟩ c).1) = lastEnter tr k := by
      simp [enterEffect, hck]
    rw [heff, ← hmap]
    exact exists_congr fun i => hsame i _ (Ne.symm hck)

/-! ### Counting the stored keys -/

private theorem mem_stored {slots : List (Option (ENTRY D))} {e : ENTRY D} :
    e ∈ slots.filterMap id ↔ ∃ i, cell slots i = some e := by
  simp only [List.mem_filterMap, id_eq, cell, Option.join_eq_some_iff]
  constructor
  · rintro ⟨_, hm, rfl⟩
    obtain ⟨i, hi⟩ := List.mem_iff_getElem?.1 hm
    exact ⟨i, by simp [hi]⟩
  · rintro ⟨i, hi⟩
    exact ⟨_, List.mem_of_getElem? hi, rfl⟩

private theorem stored_nodup {slots : List (Option (ENTRY D))}
    (h : ∀ i j e f, cell slots i = some e → cell slots j = some f → e.key = f.key → i = j) :
    ((slots.filterMap id).map ENTRY.key).Nodup := by
  induction slots with
  | nil => simp
  | cons x slots ih =>
    have htail : ((slots.filterMap id).map ENTRY.key).Nodup := by
      apply ih
      intro i j e f he hf hk
      have := h (i + 1) (j + 1) e f (by simpa [cell] using he) (by simpa [cell] using hf) hk
      omega
    cases x with
    | none => simpa using htail
    | some e =>
      simp only [List.filterMap_cons, id_eq, List.map_cons, List.nodup_cons]
      refine ⟨fun hm => ?_, htail⟩
      obtain ⟨f, hf, hk⟩ := List.mem_map.1 hm
      obtain ⟨j, hj⟩ := mem_stored.1 hf
      have := h 0 (j + 1) e f (by simp [cell]) (by simpa [cell] using hj) hk.symm
      omega

/-- The number of keys entered is the number of occupied cells. -/
private theorem card_enteredKeys {cap : Nat} {slots : List (Option (ENTRY D))}
    {tr : List (HCall D × Option (Except Errno Nat))} (h : HInv cap slots)
    (hmap : ∀ k d, (∃ i, cell slots i = some ⟨k, d⟩) ↔ lastEnter tr k = some d) :
    (enteredKeys tr).card = (slots.filterMap id).length := by
  have hset : enteredKeys tr = ((slots.filterMap id).map ENTRY.key).toFinset := by
    ext k
    rw [mem_enteredKeys, Option.isSome_iff_exists, List.mem_toFinset, List.mem_map]
    constructor
    · rintro ⟨d, hd⟩
      exact ⟨⟨k, d⟩, mem_stored.2 ((hmap k d).2 hd), rfl⟩
    · rintro ⟨e, he, rfl⟩
      exact ⟨e.data, (hmap e.key e.data).1 (mem_stored.1 he)⟩
  rw [hset, List.toFinset_card_of_nodup (stored_nodup h.unique), List.length_map]

/-- All `cap` cells are occupied exactly when as many keys have been entered. -/
private theorem card_eq_cap_iff {cap : Nat} {slots : List (Option (ENTRY D))}
    {tr : List (HCall D × Option (Except Errno Nat))} (h : HInv cap slots)
    (hmap : ∀ k d, (∃ i, cell slots i = some ⟨k, d⟩) ↔ lastEnter tr k = some d) :
    (enteredKeys tr).card = cap ↔ ∀ i < cap, cell slots i ≠ none := by
  rw [card_enteredKeys h hmap]
  conv => lhs; rhs; rw [← h.length]
  rw [List.length_filterMap_eq_countP, List.countP_eq_length]
  constructor
  · intro hall i hi hnone
    rw [← h.length] at hi
    have := hall _ (List.getElem_mem hi)
    simp [cell, List.getElem?_eq_getElem hi] at hnone
    simp [hnone] at this
  · intro hall x hx
    obtain ⟨i, hi⟩ := List.mem_iff_getElem?.1 hx
    have hlt : i < cap := by rw [← h.length]; exact (List.getElem?_eq_some_iff.1 hi).1
    have := hall i hlt
    cases x with
    | none => simp [cell, hi] at this
    | some e => simp

/-! ### The whole run -/

/-- A table fresh from a successful `hcreate` represents the empty map. -/
private theorem represents_hcreate {calloced : Bool} {nel : Nat} (hnel : 0 < nel) {t₀ t : HTable D}
    (hc : hcreate calloced nel t₀ = (1, t)) : Represents nel [] t := by
  unfold hcreate at hc
  split at hc
  · simp at hc
  · split at hc
    · simp only [Prod.mk.injEq, true_and] at hc
      subst hc
      refine ⟨rfl, _, rfl, hinv_replicate hnel, fun k d => ?_⟩
      simp [cell_replicate, lastEnter]
    · simp at hc

/-- After `hcreate(nel)` and any calls of `hsearch`: a `FIND` returns the entry of its key, with the data of the
latest successful `ENTER`, exactly when the key has been entered; an `ENTER` fails exactly when its key is new and
`nel` keys are stored, and otherwise returns the entry with its data; no call changes the entry of another key. -/
theorem hsearch_bounded_map {calloced : Bool} {nel : Nat} (hnel : 0 < nel) {t₀ t : HTable D}
    (hc : hcreate calloced nel t₀ = (1, t)) (calls : List (HCall D)) :
    let tr := Machine.trace hstep t calls
    let s := Machine.run hstep t calls
    (∀ c : HCall D, c.action = .FIND →
      (∀ d, lastEnter tr c.key = some d → ∃ i, hstep s c = (some (.ok i), s) ∧ s.entryAt i = some ⟨c.key, d⟩) ∧
      (lastEnter tr c.key = none → ∃ err, hstep s c = (some (.error err), s))) ∧
    (∀ c : HCall D, c.action = .ENTER →
      ((∃ err, (hstep s c).1 = some (.error err)) ↔ lastEnter tr c.key = none ∧ (enteredKeys tr).card = nel) ∧
      (¬(lastEnter tr c.key = none ∧ (enteredKeys tr).card = nel) →
        ∃ i, (hstep s c).1 = some (.ok i) ∧ (hstep s c).2.entryAt i = some ⟨c.key, c.data⟩)) ∧
    (∀ (c : HCall D) i e, e.key ≠ c.key → ((hstep s c).2.entryAt i = some e ↔ s.entryAt i = some e)) := by
  intro tr s
  obtain ⟨hcap, slots, htbl, hinv, hmap⟩ :=
    Machine.trace_invariant hstep_represents (represents_hcreate hnel hc) calls
  have hs : s = ⟨some slots, nel⟩ := by rw [← htbl, ← hcap]
  have hnone : ∀ k, (∀ i e, cell slots i = some e → e.key ≠ k) ↔ lastEnter tr k = none := by
    intro k
    rw [Option.eq_none_iff_forall_ne_some]
    constructor
    · intro h d hd
      obtain ⟨i, hi⟩ := (hmap k d).2 hd
      exact h i _ hi rfl
    · intro h i e hi hk
      exact h e.data ((hmap k e.data).1 ⟨i, by rw [hi, ← hk]⟩)
  have hcard := card_eq_cap_iff hinv hmap
  simp only [hs]
  refine ⟨fun c ha => ?_, fun c ha => ?_, fun c i e hne => ?_⟩
  · have hfind : c.action ≠ .ENTER := by simp [ha]
    rcases stored_or_absent slots c.key with ⟨i, e, hi, hk⟩ | habs
    · have hd : lastEnter tr c.key = some e.data := (hmap _ _).1 ⟨i, by rw [hi, hk]⟩
      rw [hstep_of_stored hinv hi hk]
      simp only [hfind, ↓reduceIte]
      refine ⟨fun d h => ⟨i, rfl, ?_⟩, fun h => absurd h (by rw [hd]; simp)⟩
      rw [hd] at h
      simp [HTable.entryAt, hi, hk, ← Option.some.inj h]
    · refine ⟨fun d h => absurd h (by rw [(hnone _).1 habs]; simp), fun _ => ?_⟩
      rcases hstep_of_absent hinv habs with ⟨_, _, _, _, heq⟩ | ⟨_, heq⟩
      · exact ⟨.ESRCH, by rw [heq]; simp [hfind]⟩
      · exact ⟨.ENOSPC, heq⟩
  · obtain ⟨slots', hs', -, -, ho⟩ := hstep_outcome hinv c
    rw [hs', ← hnone, hcard]
    cases ho' : (hstep ⟨some slots, nel⟩ c).1 with
    | none => rw [ho'] at ho; cases ho
    | some r =>
      rw [ho'] at ho
      cases ho with
      | stored _ i e hi hk hnew =>
        refine ⟨⟨fun h => by simp at h, fun h => absurd hk (h.1 i e hi)⟩, fun _ => ⟨i, rfl, ?_⟩⟩
        simpa [HTable.entryAt, ha] using hnew
      | entered _ i _ habs hlt hfree hnew =>
        refine ⟨⟨fun h => by simp at h, fun h => absurd hfree (h.2 i hlt)⟩, fun _ => ⟨i, rfl, ?_⟩⟩
        simpa [HTable.entryAt] using hnew
      | failed err habs hfull =>
        exact ⟨⟨fun _ => ⟨habs, hfull ha⟩, fun _ => ⟨err, rfl⟩⟩, fun h => absurd ⟨habs, hfull ha⟩ h⟩
  · obtain ⟨slots', hs', -, hsame, -⟩ := hstep_outcome hinv c
    rw [hs']
    exact hsame i e hne

/-- One cell, one `ENTER` of the key `"a"`: the `FIND` that follows returns its data. -/
theorem hsearch_bounded_map_one :
    ∃ i, hstep (Machine.run hstep ⟨some [none], 1⟩ [⟨⟨[97], by decide⟩, 7, .ENTER⟩])
        ⟨⟨[97], by decide⟩, 0, .FIND⟩ =
      (some (.ok i), Machine.run hstep ⟨some [none], 1⟩ [⟨⟨[97], by decide⟩, (7 : Nat), .ENTER⟩]) := by
  have h := hsearch_bounded_map (show 0 < 1 by decide) (show hcreate true 1 (⟨none, 0⟩ : HTable Nat) =
    (1, ⟨some [none], 1⟩) from rfl) [⟨⟨[97], by decide⟩, 7, .ENTER⟩]
  obtain ⟨i, hi, -⟩ := (h.1 ⟨⟨[97], by decide⟩, 0, .FIND⟩ rfl).1 7 (by decide)
  exact ⟨i, hi⟩

end JACLibc
