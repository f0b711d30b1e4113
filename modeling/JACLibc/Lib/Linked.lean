import Mathlib.Logic.Function.Basic
import Mathlib.Data.List.Nodup

/-!
# Lists threaded through memory

`Chain next start l` says that the addresses of `l`, in this order, are met from `start` by following `next`, and that
0 ends the list.  A chain is read again after stores that leave the links of its members alone (`Chain.congr`); a member
is put in front (`Chain.push`), the first one is taken out (`Chain.tail`), and one further behind is unlinked by the
store of its link into its predecessor (`Chain.unlink`).  The store of any link into a member makes the members behind
it those of the chain which the link starts (`Chain.redirect`).
-/

namespace Linked

variable {next next' : Nat → Nat} {start x y : Nat} {l : List Nat}

def Chain (next : Nat → Nat) : Nat → List Nat → Prop
  | start, [] => start = 0
  | start, x :: l => start = x ∧ x ≠ 0 ∧ Chain next (next x) l

theorem Chain.congr (h : Chain next start l) (hn : ∀ x ∈ l, next' x = next x) : Chain next' start l := by
  induction l generalizing start with
  | nil => exact h
  | cons x l ih =>
    obtain ⟨h1, h2, h3⟩ := h
    refine ⟨h1, h2, ?_⟩
    rw [hn x List.mem_cons_self]
    exact ih h3 fun y hy => hn y (List.mem_cons_of_mem _ hy)

/-- A store into no member. -/
theorem Chain.update (h : Chain next start l) (hx : x ∉ l) (z : Nat) : Chain (Function.update next x z) start l := by
  apply h.congr
  intro y hy
  have hne : y ≠ x := fun e => hx (e ▸ hy)
  exact Function.update_of_ne hne _ _

/-- A chain that does not start at 0 has its start as its first member. -/
theorem Chain.tail (h : Chain next start l) (hs : start ≠ 0) :
    ∃ l', l = start :: l' ∧ Chain next (next start) l' := by
  cases l with
  | nil => exact absurd h hs
  | cons x l =>
    obtain ⟨rfl, -, h3⟩ := h
    exact ⟨l, rfl, h3⟩

theorem Chain.ne_zero (h : Chain next start l) (hx : x ∈ l) : x ≠ 0 := by
  induction l generalizing start with
  | nil => simp at hx
  | cons y l ih =>
    obtain ⟨-, h2, h3⟩ := h
    rcases List.mem_cons.1 hx with rfl | hx
    · exact h2
    · exact ih h3 hx

theorem Chain.push (h : Chain next start l) (hx : x ≠ 0) (hl : x ∉ l) :
    Chain (Function.update next x start) x (x :: l) := by
  refine ⟨rfl, hx, ?_⟩
  rw [Function.update_self]
  exact h.update hl _

/-- The link of a member is a member, unless it ends the list. -/
theorem Chain.next_mem (h : Chain next start l) (hy : y ∈ l) (hn : next y ≠ 0) : next y ∈ l := by
  induction l generalizing start with
  | nil => simp at hy
  | cons z l ih =>
    obtain ⟨rfl, -, h3⟩ := h
    rcases List.mem_cons.1 hy with rfl | hy
    · obtain ⟨l', rfl, -⟩ := h3.tail hn
      simp
    · exact List.mem_cons_of_mem _ (ih h3 hy)

theorem Chain.unlink (h : Chain next start l) (hd : l.Nodup) (hy : y ∈ l) (hyx : next y = x) (hx : x ≠ 0) :
    Chain (Function.update next y (next x)) start (l.erase x) := by
  induction l generalizing start with
  | nil => simp at hy
  | cons z l ih =>
    obtain ⟨rfl, hz, h3⟩ := h
    obtain ⟨hzl, hd'⟩ := List.nodup_cons.1 hd
    by_cases e : start = y
    · -- the predecessor is the first member: its link leads over `x`, the next one
      subst e
      rw [hyx] at h3
      obtain ⟨l', rfl, h4⟩ := h3.tail hx
      have hsx : start ≠ x := fun e => hzl (e ▸ List.mem_cons_self)
      rw [List.erase_cons_tail (by simpa using hsx), List.erase_cons_head]
      refine ⟨rfl, hz, ?_⟩
      rw [Function.update_self]
      exact h4.update (fun hw => hzl (List.mem_cons_of_mem _ hw)) _
    · have hy' : y ∈ l := (List.mem_cons.1 hy).resolve_left (Ne.symm e)
      have hxl : x ∈ l := hyx ▸ h3.next_mem hy' (hyx ▸ hx)
      have hsx : start ≠ x := fun e => hzl (e ▸ hxl)
      rw [List.erase_cons_tail (by simpa using hsx)]
      refine ⟨rfl, hz, ?_⟩
      rw [Function.update_of_ne e]
      exact ih h3 hd' hy'

theorem Chain.start_eq (h : Chain next start l) : start = l.headD 0 := by
  cases l with
  | nil => exact h
  | cons x l => exact h.1

/-- The link of a member starts the chain of the members behind it. -/
theorem Chain.behind {m : List Nat} (h : Chain next start (l ++ x :: m)) : Chain next (next x) m := by
  induction l generalizing start with
  | nil => exact h.2.2
  | cons y l ih => exact ih h.2.2

theorem Chain.redirect {m m' : List Nat} {z : Nat} (h : Chain next start (l ++ y :: m)) (hl : y ∉ l)
    (hm : Chain next z m') (hy : y ∉ m') : Chain (Function.update next y z) start (l ++ y :: m') := by
  induction l generalizing start with
  | nil =>
    obtain ⟨h1, h2, -⟩ := h
    refine ⟨h1, h2, ?_⟩
    rw [Function.update_self]
    exact hm.update hy _
  | cons x l ih =>
    obtain ⟨h1, h2, h3⟩ := h
    obtain ⟨hxy, hl'⟩ : y ≠ x ∧ y ∉ l := by simpa using hl
    refine ⟨h1, h2, ?_⟩
    rw [Function.update_of_ne (Ne.symm hxy)]
    exact ih h3 hl'

end Linked
