import JACLibc.Wordexp.Scan
import JACLibc.Lib.Run

/-!
# `wordexp` and `wordfree`

The word vector is a list of slots, as many as were last asked for.  What `realloc` adds to it is `junk`, until
`memset` or a word is written there.  To free what a junk slot or one outside the vector holds is a fault of the model
(`Mach.fault`).
-/

namespace JACLibc.Wordexp

inductive Slot where
  | junk
  | null
  | word (w : Word)
  deriving DecidableEq

/-- `wordexp_t` -/
structure WordexpT where
  we_wordc : ℕ
  we_wordv : Option (List Slot)
  we_offs : ℕ
  deriving DecidableEq

/-- The structure of a caller, the state of the parser, the requests for the vector so far and the words that
`wordfree` has freed. -/
structure Mach where
  pw : WordexpT
  st : St
  vecs : ℕ
  freed : List ℕ
  fault : Bool
  deriving DecidableEq

/-- The loop of `wordfree`: the words it frees, and whether it passes on anything else. -/
def freeSlots : ℕ → List Slot → List ℕ × Bool
  | 0, _ => ([], false)
  | n + 1, [] => ((freeSlots n []).1, true)
  | n + 1, .junk :: v => ((freeSlots n v).1, true)
  | n + 1, .null :: v => freeSlots n v
  | n + 1, .word w :: v => (w.id :: (freeSlots n v).1, (freeSlots n v).2)

/-- `wordfree` -/
def wordfree (m : Mach) : Mach :=
  match m.pw.we_wordv with
  | none => m
  | some v =>
    let r := freeSlots m.pw.we_wordc v
    { m with pw := { m.pw with we_wordc := 0, we_wordv := none }, freed := m.freed ++ r.1, fault := m.fault || r.2 }

theorem wordfree_st (m : Mach) : (wordfree m).st = m.st := by
  unfold wordfree
  split <;> rfl

/-- `realloc(vec, cap * sizeof(char *))` -/
def resize (v : List Slot) (cap : ℕ) : List Slot := v.take cap ++ List.replicate (cap - v.length) .junk

/-- `memset(vec + idx, 0, (cap - idx) * sizeof(char *));` -/
def clear (v : List Slot) (idx : ℕ) : List Slot := v.take idx ++ List.replicate (v.length - idx) .null

/-- `vec[idx++] = w; vec[idx] = NULL;` -/
def store (v : List Slot) (idx : ℕ) (w : Word) : List Slot := (v.set idx (.word w)).set (idx + 1) .null

/-! ### The slots -/

section Slots

variable {v : List Slot} {idx cap : ℕ}

@[simp]
theorem length_resize (v : List Slot) (cap : ℕ) : (resize v cap).length = cap := by
  rw [resize, List.length_append, List.length_take, List.length_replicate]
  omega

theorem take_resize (hv : idx ≤ v.length) (hcap : idx ≤ cap) : (resize v cap).take idx = v.take idx := by
  rw [resize, List.take_append_of_le_length (by rw [List.length_take]; omega), List.take_take, min_eq_left hcap]

theorem length_clear (hidx : idx ≤ v.length) : (clear v idx).length = v.length := by
  rw [clear, List.length_append, List.length_take, List.length_replicate]
  omega

theorem take_clear (hidx : idx ≤ v.length) : (clear v idx).take idx = v.take idx := by
  rw [clear, List.take_append_of_le_length (by rw [List.length_take]; omega), List.take_take, min_self]

theorem getElem?_clear {i : ℕ} (hidx : idx ≤ i) (hi : i < v.length) : (clear v idx)[i]? = some .null := by
  have htake : (v.take idx).length = idx := by
    rw [List.length_take]
    omega
  rw [clear, List.getElem?_append_right (by omega), htake, List.getElem?_replicate, if_pos (by omega)]

@[simp]
theorem length_store (v : List Slot) (idx : ℕ) (w : Word) : (store v idx w).length = v.length := by
  rw [store, List.length_set, List.length_set]

theorem take_store (hidx : idx < v.length) (w : Word) : (store v idx w).take (idx + 1) = v.take idx ++ [.word w] := by
  rw [store, List.take_set_of_le (Nat.le_refl _), List.take_add_one, List.getElem?_set_self hidx,
    List.take_set_of_le (Nat.le_refl _)]
  rfl

theorem getElem?_store (hidx : idx + 1 < v.length) (w : Word) : (store v idx w)[idx + 1]? = some .null := by
  rw [store, List.getElem?_set_self (by rw [List.length_set]; exact hidx)]

end Slots

/-- What the loop of `wordexp` leaves behind. -/
structure LoopEnd where
  err : Option Err
  v : List Slot
  idx : ℕ
  vecs : ℕ
  st : St
  deriving DecidableEq

variable (W : World)

/-- The loop of `wordexp` over the words; `n` counts the requests for the vector. -/
def wordsLoop (flags : BitVec 32) (v : List Slot) (idx n : ℕ) (p : List UInt8) (s : St) : LoopEnd :=
  match _h : p.dropWhile isBlank with
  | [] => ⟨none, v, idx, n, s⟩
  | c :: p' =>
    match parseWord W flags (c :: p') s with
    | (.error e, s) => ⟨some e, v, idx, n, s⟩
    | (.ok (w, r), s) =>
      if v.length ≤ idx + 2 then
        if W.vecMem n then wordsLoop flags (store (clear (resize v (v.length * 2)) idx) idx w) (idx + 1) (n + 1) r s
        else ⟨some .WRDE_NOSPACE, v, idx, n + 1, s⟩
      else wordsLoop flags (store v idx w) (idx + 1) n r s
termination_by p.length
decreasing_by
  all_goals
    have hblank : isBlank c = false := by
      have hne : p.dropWhile isBlank ≠ [] := by rw [_h]; exact List.cons_ne_nil c p'
      have := List.head_dropWhile_not isBlank hne
      simpa [_h] using this
    have hle : (c :: p').length ≤ p.length := by
      rw [← _h]
      exact List.length_dropWhile_le _ _
    exact (r.2.2 ⟨c, rfl, fun _ => hblank⟩).trans_le hle

section WordsLoop

variable {W} {flags : BitVec 32} {p : List UInt8} {s : St}

theorem wordsLoop_nil (v : List Slot) (idx n : ℕ) (hp : p.dropWhile isBlank = []) :
    wordsLoop W flags v idx n p s = ⟨none, v, idx, n, s⟩ := by
  rw [wordsLoop.eq_def]
  split
  · rfl
  · rename_i hcons
    rw [hp] at hcons
    cases hcons

variable {c : UInt8} {p' : List UInt8} {s' : St} (hp : p.dropWhile isBlank = c :: p')

include hp

theorem wordsLoop_error (v : List Slot) (idx n : ℕ) {e : Err} (hw : parseWord W flags (c :: p') s = (.error e, s')) :
    wordsLoop W flags v idx n p s = ⟨some e, v, idx, n, s'⟩ := by
  rw [wordsLoop.eq_def]
  split
  · rename_i hnil
    rw [hp] at hnil
    cases hnil
  · rename_i hcons
    rw [hp] at hcons
    cases hcons
    rw [hw]

/-- A word, and the loop behind it. -/
theorem wordsLoop_word (v : List Slot) (idx n : ℕ) {w : Word}
    {r : { r : List UInt8 // r.length ≤ (c :: p').length ∧ (Starts 0 (c :: p') → r.length < (c :: p').length) }}
    (hw : parseWord W flags (c :: p') s = (.ok (w, r), s')) : wordsLoop W flags v idx n p s =
      if v.length ≤ idx + 2 then
        if W.vecMem n then wordsLoop W flags (store (clear (resize v (v.length * 2)) idx) idx w) (idx + 1)
        (n + 1) r.1 s'
        else ⟨some .WRDE_NOSPACE, v, idx, n + 1, s'⟩
      else wordsLoop W flags (store v idx w) (idx + 1) n r.1 s' := by
  rw [wordsLoop.eq_def]
  split
  · rename_i hnil
    rw [hp] at hnil
    cases hnil
  · rename_i hcons
    rw [hp] at hcons
    cases hcons
    rw [hw]

end WordsLoop

/-- `wordexp`: the error it answers, if any, and the state behind the call. -/
def wordexp (words : List UInt8) (flags : BitVec 32) (m : Mach) : Option Err × Mach :=
  let m := if HasFlag flags WRDE_REUSE then wordfree m else m
  let off := if HasFlag flags WRDE_DOOFFS then m.pw.we_offs else 0
  let idx := if HasFlag flags WRDE_APPEND ∧ off < m.pw.we_wordc then m.pw.we_wordc else off
  if W.vecMem m.vecs then
    let e := wordsLoop W flags (clear (resize (m.pw.we_wordv.getD []) (idx + 16)) idx) idx (m.vecs + 1) words m.st
    (e.err,
      { m with
        pw := { m.pw with we_wordv := some e.v, we_wordc := if e.err = none then e.idx else m.pw.we_wordc }
        st := e.st, vecs := e.vecs })
  else (some .WRDE_NOSPACE, { m with vecs := m.vecs + 1 })

/-- Nothing is set and nothing is put out, and all memory is granted. -/
def emptyWorld : World := ⟨fun _ => none, fun _ _ => some [], fun _ => true, fun _ => true⟩

/-- A caller with a structure that is zeroed. -/
def zeroed : Mach := ⟨⟨0, none, 0⟩, ⟨0, 0, []⟩, 0, [], false⟩

end JACLibc.Wordexp
