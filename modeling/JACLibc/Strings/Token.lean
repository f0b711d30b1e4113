import JACLibc.CString
import Mathlib.Data.List.Forall2
import Mathlib.Logic.Function.Iterate

/-!
# `strtok_r`

A call takes the first run of bytes that are not delimiters off the text that is left, and `*save` says what is left
behind it.  So the calls go through the maximal runs of the string from left to right (`strtok_r_runs`), whatever
delimiters stand in front, behind and between them.

Memory is the list of its bytes, and a pointer into it is an offset.
-/

namespace JACLibc.Token

/-! ### The functions -/

/-- `strchr` on the bytes of a string: the offset of the character, possibly of the NUL. -/
def strchr (c : UInt8) : List UInt8 → Option Nat
  | [] => if c = 0 then some 0 else none
  | x :: s => if x = c then some 0 else (strchr c s).map (· + 1)

/-- `strspn` -/
def strspn (accept : List UInt8) : List UInt8 → Nat
  | [] => 0
  | c :: s => if c ≠ 0 ∧ (strchr c accept).isSome then strspn accept s + 1 else 0

/-- `strcspn` -/
def strcspn (reject : List UInt8) : List UInt8 → Nat
  | [] => 0
  | c :: s => if c ≠ 0 ∧ ¬(strchr c reject).isSome then strcspn reject s + 1 else 0

/-- What a call leaves behind: the returned pointer, `*save` and the memory. -/
structure Tok where
  ret : Option Nat
  save : Option Nat
  mem : List UInt8
  deriving DecidableEq

/-- `strtok_r`; `delim` and `save` are not NULL. -/
def strtok_r (mem : List UInt8) (s : Option Nat) (delim : CString) (save : Option Nat) : Tok :=
  match s.or save with
  | none => ⟨none, save, mem⟩
  | some p =>
    let p := p + strspn delim.bytes (mem.drop p)
    if deref (mem.drop p) = 0 then ⟨none, none, mem⟩
    else
      let q := p + strcspn delim.bytes (mem.drop p)
      if deref (mem.drop q) ≠ 0 then ⟨some p, some (q + 1), mem.set q 0⟩ else ⟨some p, some q, mem⟩

/-- The calls on the string at `a`: the first one with the string, the others with NULL. -/
def calls (mem : List UInt8) (a : Nat) (delim : CString) (save : Option Nat) : Nat → Tok
  | 0 => strtok_r mem (some a) delim save
  | n + 1 => strtok_r (calls mem a delim save n).mem none delim (calls mem a delim save n).save

/-! ### Runs -/

/-- A byte of the string that is no delimiter stands at `k`. -/
def InToken (delim s : List UInt8) (k : Nat) : Prop := ∃ c ∈ s[k]?, c ∉ delim

/-- The bytes from `i` to `j` are no delimiters, and neither end can be moved outwards. -/
structure MaximalRun (delim s : List UInt8) (i j : Nat) : Prop where
  nonempty : i < j
  inside : ∀ k, i ≤ k → k < j → InToken delim s k
  left : i = 0 ∨ ¬InToken delim s (i - 1)
  right : ¬InToken delim s j

section

variable {delim d w t : List UInt8} (hd : ∀ c ∈ d, c ∈ delim)

include hd in
theorem not_inToken_delims {k : Nat} (hk : k < d.length) (v : List UInt8) : ¬InToken delim (d ++ v) k := by
  rintro ⟨c, hc, hmem⟩
  rw [List.getElem?_append_left hk] at hc
  exact hmem (hd c (List.mem_of_getElem? hc))

theorem inToken_run (hw : ∀ c ∈ w, c ∉ delim) {k : Nat} (hk : d.length ≤ k) (hk' : k < d.length + w.length)
    (v : List UInt8) :
    InToken delim (d ++ (w ++ v)) k := by
  rw [InToken, List.getElem?_append_right hk, List.getElem?_append_left (by omega), List.getElem?_eq_getElem (by omega)]
  exact ⟨_, rfl, hw _ (List.getElem_mem _)⟩

theorem inToken_append (k : Nat) : InToken delim (d ++ t) (d.length + k) ↔ InToken delim t k := by
  rw [InToken, List.getElem?_append_right (Nat.le_add_right _ _), Nat.add_sub_cancel_left, InToken]

theorem not_inToken_delim {c : UInt8} (hc : c ∈ delim) : ¬InToken delim (c :: t) 0 := by
  rintro ⟨x, hx, hmem⟩
  obtain rfl := Option.some.inj hx
  exact hmem hc

theorem not_inToken_end {k : Nat} (hk : t.length ≤ k) : ¬InToken delim t k := by
  rintro ⟨c, hc, -⟩
  rw [List.getElem?_eq_none hk] at hc
  cases hc

include hd in
/-- There are only delimiters. -/
theorem not_maximalRun_delims {i j : Nat} : ¬MaximalRun delim d i j := by
  intro h
  have hi := h.inside i (Nat.le_refl i) h.nonempty
  by_cases hk : i < d.length
  · exact not_inToken_delims hd hk [] (by rwa [List.append_nil])
  · exact not_inToken_end (by omega) hi

include hd in
/-- Runs of a text that begins with delimiters and a run of its own: that one, and those of the rest behind the
delimiter that ends it. -/
theorem maximalRun_cons (hw : ∀ c ∈ w, c ∉ delim) (hne : w ≠ []) (ht : ¬InToken delim t 0) {i j : Nat} :
    MaximalRun delim (d ++ (w ++ t)) i j ↔ (i = d.length ∧ j = d.length + w.length) ∨
      ∃ i' j', i = d.length + w.length + 1 + i' ∧ j = d.length + w.length + 1 + j' ∧ MaximalRun delim t.tail i' j' := by
  have hpos := List.length_pos_of_ne_nil hne
  have hbehind : ∀ k, InToken delim (d ++ (w ++ t)) (d.length + (w.length + k)) ↔ InToken delim t k := fun k => by
    rw [inToken_append, inToken_append]
  have hend : ¬InToken delim (d ++ (w ++ t)) (d.length + w.length) := fun h => ht ((hbehind 0).1 h)
  have hrest : ∀ k, InToken delim (d ++ (w ++ t)) (d.length + w.length + 1 + k) ↔ InToken delim t.tail k := by
    intro k
    rw [show d.length + w.length + 1 + k = d.length + (w.length + (k + 1)) by omega, hbehind, InToken, InToken]
    cases t <;> simp
  constructor
  · intro h
    have hi := h.inside i (Nat.le_refl i) h.nonempty
    have hlow : d.length ≤ i := by
      by_contra hlt
      exact not_inToken_delims hd (by omega) _ hi
    rcases Nat.lt_trichotomy i (d.length + w.length) with hlt | heq | hgt
    · left
      have hi' : i = d.length := by
        by_contra hne'
        rcases h.left with h0 | hleft
        · omega
        · exact hleft (inToken_run hw (by omega) (by omega) t)
      refine ⟨hi', ?_⟩
      by_contra hne'
      rcases Nat.lt_or_gt_of_ne hne' with hj | hj
      · have := h.nonempty
        exact h.right (inToken_run hw (by omega) hj t)
      · exact hend (h.inside _ (by omega) hj)
    · exact absurd (heq ▸ hi) hend
    · right
      obtain ⟨i', rfl⟩ : ∃ i', i = d.length + w.length + 1 + i' := ⟨i - (d.length + w.length + 1), by omega⟩
      obtain ⟨j', rfl⟩ : ∃ j', j = d.length + w.length + 1 + j' :=
        ⟨j - (d.length + w.length + 1), by have := h.nonempty; omega⟩
      refine ⟨i', j', rfl, rfl,
        ⟨by have := h.nonempty; omega, fun k hk hk' => ?_, ?_, fun hj => h.right ((hrest j').2 hj)⟩⟩
      · exact (hrest k).1 (h.inside _ (by omega) (by omega))
      · rcases Nat.eq_zero_or_pos i' with h0 | hpos'
        · exact .inl h0
        · right
          intro hk
          rcases h.left with h0 | hleft
          · omega
          · rw [show d.length + w.length + 1 + i' - 1 = d.length + w.length + 1 + (i' - 1) by omega] at hleft
            exact hleft ((hrest _).2 hk)
  · rintro (⟨rfl, rfl⟩ | ⟨i', j', rfl, rfl, h⟩)
    · refine ⟨by omega, fun k hk hk' => inToken_run hw hk hk' t, ?_, hend⟩
      by_cases h0 : d.length = 0
      · exact .inl h0
      · exact .inr (not_inToken_delims hd (by omega) _)
    · refine ⟨by have := h.nonempty; omega, fun k hk hk' => ?_, .inr fun hk => ?_, fun hj => h.right ((hrest j').1 hj)⟩
      · obtain ⟨k', rfl⟩ : ∃ k', k = d.length + w.length + 1 + k' := ⟨k - (d.length + w.length + 1), by omega⟩
        exact (hrest k').2 (h.inside k' (by omega) (by omega))
      · rcases Nat.eq_zero_or_pos i' with rfl | hpos'
        · exact hend (by rwa [show d.length + w.length + 1 + 0 - 1 = d.length + w.length by omega] at hk)
        · rcases h.left with h0 | hleft
          · omega
          · rw [show d.length + w.length + 1 + i' - 1 = d.length + w.length + 1 + (i' - 1) by omega] at hk
            exact hleft ((hrest _).1 hk)

end

/-! ### A call -/

section

variable {delim : CString} {d w t : List UInt8}

theorem strchr_isSome {c : UInt8} (hc : c ≠ 0) (s : List UInt8) : (strchr c s).isSome ↔ c ∈ s := by
  induction s with
  | nil => simp [strchr, hc]
  | cons x s ih =>
    rw [strchr, List.mem_cons]
    by_cases hx : x = c
    · simp [hx]
    · rw [if_neg hx, Option.isSome_map, ih]
      simp [Ne.symm hx]

theorem strspn_append (h0 : 0 ∉ d) (hd : ∀ c ∈ d, c ∈ delim.bytes) (ht : deref t ∉ delim.bytes) :
    strspn delim.bytes (d ++ t) = d.length := by
  induction d with
  | nil =>
    rcases t with _ | ⟨c, t⟩
    · rfl
    · rw [List.nil_append, strspn, if_neg]
      · rfl
      · rintro ⟨hc, hmem⟩
        exact ht ((strchr_isSome hc _).1 hmem)
  | cons c d ih =>
    have hc : c ≠ 0 := fun h => h0 (h ▸ List.mem_cons_self)
    rw [List.cons_append, strspn, if_pos ⟨hc, (strchr_isSome hc _).2 (hd c List.mem_cons_self)⟩,
      ih (fun h => h0 (List.mem_cons_of_mem _ h)) fun x hx => hd x (List.mem_cons_of_mem _ hx), List.length_cons]

theorem strcspn_append (h0 : 0 ∉ w) (hw : ∀ c ∈ w, c ∉ delim.bytes) (ht : deref t = 0 ∨ deref t ∈ delim.bytes) :
    strcspn delim.bytes (w ++ t) = w.length := by
  induction w with
  | nil =>
    rcases t with _ | ⟨c, t⟩
    · rfl
    · rw [List.nil_append, strcspn, if_neg]
      · rfl
      · rintro ⟨hc, hmem⟩
        rcases ht with h | h
        · exact hc h
        · exact hmem ((strchr_isSome hc _).2 h)
  | cons c w ih =>
    have hc : c ≠ 0 := fun h => h0 (h ▸ List.mem_cons_self)
    have hmem : ¬(strchr c delim.bytes).isSome = true := fun h => hw c List.mem_cons_self ((strchr_isSome hc _).1 h)
    rw [List.cons_append, strcspn, if_pos ⟨hc, hmem⟩, ih (fun h => h0 (List.mem_cons_of_mem _ h)) fun x hx =>
      hw x (List.mem_cons_of_mem _ hx), List.length_cons]

variable (pre rest : List UInt8) (s : Option Nat) (save : Option Nat) (hp : s.or save = some pre.length)

include hp in
/-- Only delimiters are left. -/
theorem strtok_r_delims (h0 : 0 ∉ d) (hd : ∀ c ∈ d, c ∈ delim.bytes) :
    strtok_r (pre ++ (d ++ 0 :: rest)) s delim save = ⟨none, none, pre ++ (d ++ 0 :: rest)⟩ := by
  have hspan : strspn delim.bytes (d ++ 0 :: rest) = d.length := strspn_append h0 hd delim.noNul
  have hdrop : (pre ++ (d ++ 0 :: rest)).drop (pre.length + d.length) = 0 :: rest := by
    rw [List.drop_length_add_append, List.drop_left]
  simp only [strtok_r, hp, List.drop_left, hspan, hdrop, deref_cons, if_true]

include hp in
/-- A run is left behind delimiters, and the text ends behind it. -/
theorem strtok_r_last (h0 : 0 ∉ d) (hd : ∀ c ∈ d, c ∈ delim.bytes) (h0' : 0 ∉ w) (hw : ∀ c ∈ w, c ∉ delim.bytes)
    (hne : w ≠ []) :
    strtok_r (pre ++ (d ++ (w ++ 0 :: rest))) s delim save =
      ⟨some (pre.length + d.length), some (pre.length + d.length + w.length), pre ++ (d ++ (w ++ 0 :: rest))⟩ := by
  obtain ⟨c, w', rfl⟩ := List.exists_cons_of_ne_nil hne
  have hc : c ≠ 0 := fun h => h0' (h ▸ List.mem_cons_self)
  have hspan : strspn delim.bytes (d ++ (c :: w' ++ 0 :: rest)) = d.length :=
    strspn_append h0 hd (hw c List.mem_cons_self)
  have hcspan : strcspn delim.bytes (c :: w' ++ 0 :: rest) = (c :: w').length := strcspn_append h0' hw (.inl rfl)
  have hdrop : (pre ++ (d ++ (c :: w' ++ 0 :: rest))).drop (pre.length + d.length) = c :: w' ++ 0 :: rest := by
    rw [List.drop_length_add_append, List.drop_left]
  have hend : (pre ++ (d ++ (c :: w' ++ 0 :: rest))).drop (pre.length + d.length + (c :: w').length) = 0 :: rest := by
    rw [← List.drop_drop, hdrop, List.drop_left]
  simp only [strtok_r, hp, List.drop_left, hspan, hdrop, hcspan, hend]
  rw [if_neg (show ¬deref (c :: w' ++ 0 :: rest) = 0 from hc), if_neg (by simp)]

include hp in
/-- A run is left behind delimiters, and a delimiter ends it. -/
theorem strtok_r_next (h0 : 0 ∉ d) (hd : ∀ c ∈ d, c ∈ delim.bytes) (h0' : 0 ∉ w) (hw : ∀ c ∈ w, c ∉ delim.bytes)
    (hne : w ≠ []) {x : UInt8} (hx : x ∈ delim.bytes) :
    strtok_r (pre ++ (d ++ (w ++ x :: rest))) s delim save =
      ⟨some (pre.length + d.length), some (pre.length + d.length + w.length + 1), pre ++ (d ++ (w ++ 0 :: rest))⟩ := by
  obtain ⟨c, w', rfl⟩ := List.exists_cons_of_ne_nil hne
  have hc : c ≠ 0 := fun h => h0' (h ▸ List.mem_cons_self)
  have hx0 : x ≠ 0 := fun h => delim.noNul (h ▸ hx)
  have hspan : strspn delim.bytes (d ++ (c :: w' ++ x :: rest)) = d.length :=
    strspn_append h0 hd (hw c List.mem_cons_self)
  have hcspan : strcspn delim.bytes (c :: w' ++ x :: rest) = (c :: w').length := strcspn_append h0' hw (.inr hx)
  have hdrop : (pre ++ (d ++ (c :: w' ++ x :: rest))).drop (pre.length + d.length) = c :: w' ++ x :: rest := by
    rw [List.drop_length_add_append, List.drop_left]
  have hend : (pre ++ (d ++ (c :: w' ++ x :: rest))).drop (pre.length + d.length + (c :: w').length) = x :: rest := by
    rw [← List.drop_drop, hdrop, List.drop_left]
  have hset : (pre ++ (d ++ (c :: w' ++ x :: rest))).set (pre.length + d.length + (c :: w').length) 0 =
      pre ++ (d ++ (c :: w' ++ 0 :: rest)) := by
    rw [show pre.length + d.length + (c :: w').length = (pre ++ (d ++ c :: w')).length by simp; omega,
      show pre ++ (d ++ (c :: w' ++ x :: rest)) = (pre ++ (d ++ c :: w')) ++ x :: rest by
        simp, List.set_append_right _ _ (Nat.le_refl _)]
    simp
  simp only [strtok_r, hp, List.drop_left, hspan, hdrop, hcspan, hend, hset]
  rw [if_neg (show ¬deref (c :: w' ++ x :: rest) = 0 from hc), if_pos (show deref (x :: rest) ≠ 0 from hx0)]

end

/-! ### All calls -/

/-- The next call, with NULL. -/
def next (delim : CString) (r : Tok) : Tok := strtok_r r.mem none delim r.save

theorem calls_eq (mem : List UInt8) (a : Nat) (delim : CString) (save : Option Nat) (n : Nat) :
    calls mem a delim save n = (next delim)^[n + 1] ⟨none, some a, mem⟩ := by
  induction n with
  | zero => rfl
  | succ n ih => rw [calls, Function.iterate_succ_apply', ← ih, next]

/-- The text has a delimiter wherever a call has changed it. -/
def Kept (delim : CString) (t t' : List UInt8) : Prop := List.Forall₂ (fun c c' => c' = c ∨ c ∈ delim.bytes) t t'

theorem Kept.refl (delim : CString) (t : List UInt8) : Kept delim t t := List.forall₂_same.2 fun _ _ => .inl rfl

/-- What the calls from one on find in the text `t` that is left: its runs, in order, and after them nothing. -/
structure Finds (delim : CString) (pre t rest : List UInt8) (runs : List (Nat × Nat)) : Prop where
  runs_iff : ∀ i j, (i, j) ∈ runs ↔ MaximalRun delim.bytes t i j
  sorted : runs.Pairwise fun x y => x.2 < y.1
  ret : ∀ r : Tok, r.save = some pre.length → r.mem = pre ++ (t ++ 0 :: rest) → ∀ n,
    ((next delim)^[n + 1] r).ret = (runs[n]?).map fun x => pre.length + x.1
  mem : ∀ r : Tok, r.save = some pre.length → r.mem = pre ++ (t ++ 0 :: rest) → ∀ n,
    ∃ t', ((next delim)^[n + 1] r).mem = pre ++ (t' ++ 0 :: rest) ∧ Kept delim t t' ∧
      ∀ k ≤ n, ∀ i j, runs[k]? = some (i, j) → (CString.of (t'.drop i ++ 0 :: rest)).bytes = (t.drop i).take (j - i)

theorem next_none (delim : CString) (mem : List UInt8) (n : Nat) :
    (next delim)^[n] ⟨none, none, mem⟩ = ⟨none, none, mem⟩ := by
  induction n with
  | zero => rfl
  | succ n ih => rw [Function.iterate_succ_apply', ih]; rfl

section

variable {delim : CString} {d w t : List UInt8} (pre rest : List UInt8) (h0 : 0 ∉ d) (hd : ∀ c ∈ d, c ∈ delim.bytes)

include h0 hd in
theorem Finds.delims : Finds delim pre d rest [] := by
  have hnext : ∀ r : Tok, r.save = some pre.length → r.mem = pre ++ (d ++ 0 :: rest) → ∀ n,
      (next delim)^[n + 1] r = ⟨none, none, pre ++ (d ++ 0 :: rest)⟩ := by
    intro r hsave hmem n
    rw [Function.iterate_succ_apply, next, hmem, strtok_r_delims pre rest none r.save hsave h0 hd, next_none]
  refine ⟨fun i j => ?_, List.Pairwise.nil, fun r hsave hmem n => ?_, fun r hsave hmem n => ?_⟩
  · exact iff_of_false List.not_mem_nil (not_maximalRun_delims hd)
  · rw [hnext r hsave hmem]
    rfl
  · rw [hnext r hsave hmem]
    exact ⟨d, rfl, Kept.refl delim d, fun k _ i j hk => by simp at hk⟩

variable (h0' : 0 ∉ w) (hw : ∀ c ∈ w, c ∉ delim.bytes) (hne : w ≠ [])

include h0 hd h0' hw hne in
theorem Finds.last : Finds delim pre (d ++ w) rest [(d.length, d.length + w.length)] := by
  have hnext : ∀ r : Tok, r.save = some pre.length → r.mem = pre ++ (d ++ w ++ 0 :: rest) →
      next delim r = ⟨some (pre.length + d.length), some (pre.length + d.length + w.length),
        pre ++ (d ++ w ++ 0 :: rest)⟩ := by
    intro r hsave hmem
    rw [next, hmem, List.append_assoc, strtok_r_last pre rest none r.save hsave h0 hd h0' hw hne]
  have hend : ∀ n, (next delim)^[n + 1] ⟨some (pre.length + d.length), some (pre.length + d.length + w.length),
      pre ++ (d ++ w ++ 0 :: rest)⟩ = ⟨none, none, pre ++ (d ++ w ++ 0 :: rest)⟩ := by
    intro n
    have hcall := @strtok_r_delims delim [] (pre ++ (d ++ w)) rest none (some (pre.length + d.length + w.length))
      (by simp [Nat.add_assoc]) List.not_mem_nil (fun _ h => absurd h List.not_mem_nil)
    rw [List.nil_append, List.append_assoc] at hcall
    rw [Function.iterate_succ_apply, next, hcall, next_none]
  have hrun : (CString.of ((d ++ w).drop d.length ++ 0 :: rest)).bytes = ((d ++ w).drop d.length).take (d.length +
    w.length - d.length) := by
    rw [List.drop_left, CString.of_append h0', Nat.add_sub_cancel_left, List.take_length]
  have hstate : ∀ r : Tok, r.save = some pre.length → r.mem = pre ++ (d ++ w ++ 0 :: rest) → ∀ n,
      ((next delim)^[n + 1] r).ret = (if n = 0 then some (pre.length + d.length) else none) ∧
        ((next delim)^[n + 1] r).mem = pre ++ (d ++ w ++ 0 :: rest) := by
    intro r hsave hmem n
    rw [Function.iterate_succ_apply, hnext r hsave hmem]
    rcases n with _ | n
    · exact ⟨rfl, rfl⟩
    · rw [hend]
      exact ⟨rfl, rfl⟩
  refine ⟨fun i j => ?_, List.pairwise_singleton _ _, fun r hsave hmem n => ?_, fun r hsave hmem n => ?_⟩
  · have hcons := maximalRun_cons (t := []) hd hw hne (not_inToken_end (Nat.le_refl _)) (i := i) (j := j)
    rw [List.append_nil] at hcons
    rw [hcons, List.mem_singleton, Prod.mk.injEq]
    refine ⟨.inl, ?_⟩
    rintro (h | ⟨i', j', -, -, h⟩)
    · exact h
    · exact absurd (h.inside i' (Nat.le_refl _) h.nonempty) (not_inToken_end (Nat.zero_le _))
  · rw [(hstate r hsave hmem n).1]
    rcases n with _ | n <;> rfl
  · refine ⟨d ++ w, (hstate r hsave hmem n).2, Kept.refl delim _, fun k _ i j hk => ?_⟩
    rcases k with _ | k
    · obtain ⟨rfl, rfl⟩ := Prod.mk.inj (Option.some.inj hk)
      exact hrun
    · simp at hk

include h0 hd h0' hw hne in
theorem Finds.next {x : UInt8} (hx : x ∈ delim.bytes) {runs : List (Nat × Nat)}
    (h : Finds delim (pre ++ (d ++ (w ++ [0]))) t rest runs) :
    Finds delim pre (d ++ (w ++ x :: t)) rest
      ((d.length, d.length + w.length) :: runs.map fun r => (d.length + w.length + 1 + r.1,
      d.length + w.length + 1 + r.2)) := by
  have hnext : ∀ r : Tok, r.save = some pre.length → r.mem = pre ++ (d ++ (w ++ x :: t) ++ 0 :: rest) →
      Token.next delim r = ⟨some (pre.length + d.length), some (pre ++ (d ++ (w ++ [0]))).length,
        pre ++ (d ++ (w ++ [0])) ++ (t ++ 0 :: rest)⟩ := by
    intro r hsave hmem
    have hcall := strtok_r_next pre (t ++ 0 :: rest) none r.save hsave h0 hd h0' hw hne hx
    rw [Token.next, hmem]
    simp only [List.append_assoc, List.cons_append, List.nil_append, List.length_append, List.length_singleton]
      at hcall ⊢
    rw [hcall]
    simp only [Nat.add_assoc]
  refine ⟨fun i j => ?_, ?_, fun r hsave hmem n => ?_, fun r hsave hmem n => ?_⟩
  · rw [maximalRun_cons hd hw hne (not_inToken_delim hx), List.mem_cons, Prod.mk.injEq, List.mem_map]
    refine or_congr Iff.rfl ⟨?_, ?_⟩
    · rintro ⟨⟨i', j'⟩, hmem, heq⟩
      obtain ⟨rfl, rfl⟩ := Prod.mk.inj heq
      exact ⟨i', j', rfl, rfl, (h.runs_iff i' j').1 hmem⟩
    · rintro ⟨i', j', rfl, rfl, hrun⟩
      exact ⟨(i', j'), (h.runs_iff i' j').2 hrun, rfl⟩
  · refine List.pairwise_cons.2 ⟨fun y hy => ?_, ?_⟩
    · obtain ⟨z, -, rfl⟩ := List.mem_map.1 hy
      dsimp only
      omega
    · exact (h.sorted.map _ fun a b hab => by dsimp only; omega)
  · rw [Function.iterate_succ_apply, hnext r hsave hmem]
    rcases n with _ | n
    · rfl
    · rw [h.ret _ rfl rfl, List.getElem?_cons_succ, List.getElem?_map, Option.map_map]
      refine congrArg (fun f => Option.map f _) (funext fun y => ?_)
      simp only [Function.comp, List.length_append, List.length_singleton]
      omega
  · rw [Function.iterate_succ_apply, hnext r hsave hmem]
    have hfirst : ∀ t' : List UInt8, (CString.of ((d ++ (w ++ 0 :: t')).drop d.length ++ 0 :: rest)).bytes =
        ((d ++ (w ++ x :: t)).drop d.length).take (d.length + w.length - d.length) := by
      intro t'
      rw [List.drop_left, List.drop_left, List.append_assoc, List.cons_append, CString.of_append h0',
        Nat.add_sub_cancel_left, List.take_left]
    have hkept : ∀ {t' : List UInt8}, Kept delim t t' → Kept delim (d ++ (w ++ x :: t)) (d ++ (w ++ 0 :: t')) :=
      fun hk =>
      List.rel_append (Kept.refl delim d) (List.rel_append (Kept.refl delim w) (.cons (.inr hx) hk))
    rcases n with _ | n
    · refine ⟨d ++ (w ++ 0 :: t), by simp, hkept (Kept.refl delim t), fun k hk i j hget => ?_⟩
      obtain rfl := Nat.le_zero.1 hk
      obtain ⟨rfl, rfl⟩ := Prod.mk.inj (Option.some.inj hget)
      exact hfirst t
    · obtain ⟨t', hmem', hk', hruns⟩ := h.mem ⟨some (pre.length + d.length), some (pre ++ (d ++ (w ++ [0]))).length,
        pre ++ (d ++ (w ++ [0])) ++ (t ++ 0 :: rest)⟩ rfl rfl n
      refine ⟨d ++ (w ++ 0 :: t'), by rw [hmem']; simp, hkept hk', fun k hk i j hget => ?_⟩
      rcases k with _ | k
      · obtain ⟨rfl, rfl⟩ := Prod.mk.inj (Option.some.inj hget)
        exact hfirst t'
      · rw [List.getElem?_cons_succ, List.getElem?_map] at hget
        obtain ⟨⟨i', j'⟩, hget', heq⟩ := Option.map_eq_some_iff.1 hget
        obtain ⟨rfl, rfl⟩ := Prod.mk.inj heq
        have hdrop : ∀ (y : UInt8) (u : List UInt8), (d ++ (w ++ y :: u)).drop (d.length + w.length + 1 + i') =
          u.drop i' := by
          intro y u
          rw [show d.length + w.length + 1 + i' = d.length +
            (w.length + (1 + i')) by
            omega, List.drop_length_add_append, List.drop_length_add_append, Nat.add_comm 1, List.drop_succ_cons]
        rw [hdrop, hdrop, show d.length + w.length + 1 + j' - (d.length + w.length + 1 + i') = j' - i' by omega]
        exact hruns k (by omega) i' j' hget'

end

theorem exists_finds (delim : CString) (rest t : List UInt8) (h0 : 0 ∉ t) (pre : List UInt8) :
    ∃ runs, Finds delim pre t rest runs := by
  obtain ⟨n, hn⟩ : ∃ n, t.length < n := ⟨_, Nat.lt_succ_self _⟩
  induction n generalizing t pre with
  | zero => exact absurd hn (Nat.not_lt_zero _)
  | succ n ih =>
    have hd : ∀ c ∈ t.takeWhile (· ∈ delim.bytes), c ∈ delim.bytes :=
      fun c hc => by simpa using List.mem_takeWhile_imp hc
    have hsplit : t.takeWhile (· ∈ delim.bytes) ++ t.dropWhile (· ∈ delim.bytes) = t := List.takeWhile_append_dropWhile
    generalize t.takeWhile (· ∈ delim.bytes) = d at hd hsplit
    have hhead : ∀ c ∈ (t.dropWhile (· ∈ delim.bytes)).head?, c ∉ delim.bytes := by
      intro c hc
      have := List.head?_dropWhile_not (fun c => decide (c ∈ delim.bytes)) t
      rw [Option.mem_def] at hc
      rw [hc] at this
      simpa using this
    generalize t.dropWhile (· ∈ delim.bytes) = u at hsplit hhead
    subst hsplit
    rw [List.mem_append, not_or] at h0
    rcases u with _ | ⟨c, u⟩
    · rw [List.append_nil]
      exact ⟨_, Finds.delims pre rest h0.1 hd⟩
    · have hw : ∀ x ∈ (c :: u).takeWhile (· ∉ delim.bytes), x ∉ delim.bytes :=
        fun x hx => by simpa using List.mem_takeWhile_imp hx
      have hne : (c :: u).takeWhile (· ∉ delim.bytes) ≠ [] := by
        rw [List.takeWhile_cons_of_pos (by simpa using hhead c rfl)]
        exact List.cons_ne_nil _ _
      have hsplit : (c :: u).takeWhile (· ∉ delim.bytes) ++ (c :: u).dropWhile (· ∉ delim.bytes) = c :: u :=
        List.takeWhile_append_dropWhile
      have hhead' : ∀ x ∈ ((c :: u).dropWhile (· ∉ delim.bytes)).head?, x ∈ delim.bytes := by
        intro x hx
        have := List.head?_dropWhile_not (fun c => decide (c ∉ delim.bytes)) (c :: u)
        rw [Option.mem_def] at hx
        rw [hx] at this
        simpa using this
      generalize (c :: u).takeWhile (· ∉ delim.bytes) = w at hw hne hsplit
      generalize (c :: u).dropWhile (· ∉ delim.bytes) = v at hsplit hhead'
      rw [← hsplit] at h0 hn ⊢
      have h0' := h0.2
      rw [List.mem_append, not_or] at h0'
      rcases v with _ | ⟨x, v⟩
      · rw [List.append_nil]
        exact ⟨_, Finds.last pre rest h0.1 hd h0'.1 hw hne⟩
      · obtain ⟨runs, hruns⟩ := ih v (fun h => h0'.2 (List.mem_cons_of_mem _ h)) (pre ++ (d ++ (w ++ [0]))) (by
          simp only [List.length_append, List.length_cons] at hn
          omega)
        exact ⟨_, Finds.next pre rest h0.1 hd h0'.1 hw hne (hhead' x rfl) hruns⟩

/-- The calls of `strtok_r` on a string give its maximal runs of bytes that are no delimiters, one after the other
from the left, and then NULL for ever.  What has been returned stays a string with the bytes of its run, and only
delimiters of the string are changed. -/
theorem strtok_r_runs (delim s : CString) (pre rest : List UInt8) (save : Option Nat) :
    ∃ runs : List (Nat × Nat), (∀ i j, (i, j) ∈ runs ↔ MaximalRun delim.bytes s.bytes i j) ∧
    runs.Pairwise (fun x y => x.2 < y.1) ∧
      ∀ n, (calls (pre ++ (s.bytes ++ 0 :: rest)) pre.length delim save n).ret =
      (runs[n]?).map (fun x => pre.length + x.1) ∧
        ∃ t, (calls (pre ++ (s.bytes ++ 0 :: rest)) pre.length delim save n).mem = pre ++ (t ++ 0 :: rest) ∧
          List.Forall₂ (fun c c' => c' = c ∨ c ∈ delim.bytes) s.bytes t ∧
          ∀ k ≤ n, ∀ i j, runs[k]? = some (i, j) →
          (CString.of (t.drop i ++ 0 :: rest)).bytes = (s.bytes.drop i).take (j - i) := by
  obtain ⟨runs, hruns⟩ := exists_finds delim rest s.bytes s.noNul pre
  refine ⟨runs, hruns.runs_iff, hruns.sorted, fun n => ?_⟩
  rw [calls_eq]
  exact ⟨hruns.ret _ rfl rfl n, hruns.mem _ rfl rfl n⟩

end JACLibc.Token
