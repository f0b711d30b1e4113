import JACLibc.Memory.Session

/-!
# What `realloc` keeps

`realloc` promises room for the new size and the old contents up to the smaller of the two sizes; where it fails, the
block and the bounds of the thread's chunk are as they were.  The growth in place breaks it: a size that the 32-bit
rounding spoils makes the block smaller than it was.
-/

namespace JACLibc

/-- What `realloc` of the block at `p` to `n` bytes promises. -/
def ReallocContract (s : Heap) (p n : Nat) (mmap : Nat → Option Nat) : Prop :=
  let u := s.mem (p - HDR) - HDR
  let s' := (realloc s (some p) n mmap).2
  (∀ q, (realloc s (some p) n mmap).1 = some q →
    n ≤ s'.mem (q - HDR) - HDR ∧ ∀ k < min u n, s'.mem (q + k) = s.mem (p + k)) ∧
  ((realloc s (some p) n mmap).1 = none →
    s'.tlsOff = s.tlsOff ∧ s'.tlsEnd = s.tlsEnd ∧ ∀ x, p - HDR ≤ x → x < p + u → s'.mem x = s.mem x)

variable {s s' : Heap} {T T' : Nat → Option Block} {A A' : Nat → Option Nat} {a m n : Nat} {mmap : Nat → Option Nat}

private theorem ReallocSpec.contract (h : HeapInv s T A) (hocc : Occ T A a m) (hn : n ≠ 0)
    (hr : ReallocSpec s (realloc s (some (a + 24)) n mmap).2 T T' A A' a m n (realloc s (some (a + 24)) n mmap).1) :
    ReallocContract s (a + 24) n mmap := by
  obtain ⟨hsize, hmin⟩ := h.occ_size hocc
  simp only [ReallocContract, HDR, Nat.add_sub_cancel, hsize]
  constructor
  · intro q hq
    obtain ⟨x, k, rfl, hx, -, hfit⟩ := hr.fresh hq
    have hk : (realloc s (some (a + 24)) n mmap).2.mem x = k := (hr.inv.occ_size hx).1
    rw [Nat.add_sub_cancel, hk]
    exact ⟨by omega, hr.contents hq⟩
  · intro hq
    obtain ⟨-, hoff, hend, hsame⟩ := hr.failed hq hn
    refine ⟨hoff, hend, ?_⟩
    intro x h1 h2
    exact hsame x h1 (by omega)

/-- In every state that legal and sound calls reach, a sound `realloc` of a live block does what it promises. -/
theorem realloc_contract {staticHeap : Nat} (hpos : 0 < staticHeap) (mem : Nat → Nat) (calls : List Call)
    (hg : Machine.Guarded Session.step (fun c call => c.Legal call ∧ c.Sound call) (Session.init staticHeap mem) calls)
    {p n : Nat} (hn : 0 < n) {mmap : Nat → Option Nat}
    (hl : (Machine.run Session.step (Session.init staticHeap mem) calls).Legal (.realloc (some p) n mmap))
    (hs : (Machine.run Session.step (Session.init staticHeap mem) calls).Sound (.realloc (some p) n mmap)) :
    ReallocContract (Machine.run Session.step (Session.init staticHeap mem) calls).heap p n mmap := by
  obtain ⟨T, A, h⟩ := Machine.guarded_invariant (I := fun c => ∃ T A, SessionInv c T A)
    (fun c call h hok => sessionInv_step h hok.1 hok.2) ⟨_, _, (sessionInv_init hpos mem).1⟩ hg
  obtain ⟨k, hk⟩ := hl.1 p rfl
  obtain ⟨a, m, rfl, hocc, -⟩ := h.live hk
  obtain ⟨T', A', hr⟩ := realloc_inv h.inv h.held hocc hl.2 hs
  exact hr.contract h.inv hocc (by omega)

/-- The one block of the arena, with a byte written into it, grows from 100 to 200 bytes where it is. -/
theorem realloc_contract_grows :
    ReallocContract (Machine.run Session.step (Session.init 4096 fun _ => 0) [.malloc 100 fun _ => none,
    .write 4120 7]).heap
      4120 200 fun _ => none := by
  refine realloc_contract (by decide) _ _ ?_ (by decide) ⟨?_, fun sz p hp => (nomatch hp)⟩ ?_
  · exact ⟨⟨fun sz p hp => (nomatch hp), fun _ => Nat.zero_le _⟩, ⟨⟨(4120, 100), by decide⟩, trivial⟩, trivial⟩
  · intro p hp
    obtain rfl := Option.some.inj hp
    exact ⟨100, by decide⟩
  · refine ⟨fun h0 => absurd h0 (by decide), fun h0 => absurd h0 (by decide), fun _ _ => by decide, ?_⟩
    intro hgrow _
    exact absurd hgrow (by decide)

/-- `2^32` bytes are answered with the same block, of which the header alone is left. -/
theorem realloc_contract_wrapped :
    Machine.Guarded Session.step Session.Legal (Session.init 4096 fun _ => 0)
      [.malloc 100 fun _ => none, .realloc (some 4120) (2 ^ 32) fun _ => none] ∧
    ¬ReallocContract (Machine.run Session.step (Session.init 4096 fun _ => 0) [.malloc 100 fun _ => none]).heap 4120
    (2 ^ 32)
      fun _ => none := by
  refine ⟨⟨fun sz p hp => (nomatch hp), ⟨?_, fun sz p hp => (nomatch hp)⟩, trivial⟩, ?_⟩
  · intro p hp
    obtain rfl := Option.some.inj hp
    exact ⟨100, by decide⟩
  · rintro ⟨hroom, -⟩
    have hle := (hroom 4120 (by decide)).1
    revert hle
    decide

end JACLibc
