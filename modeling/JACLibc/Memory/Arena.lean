import JACLibc.Lib.Run
import JACLibc.Memory.HeapMalloc

/-!
# Many threads and one arena

The threads share the cursor and the flag `__jacl_once`; each has its own chunk of the arena.  A call of `malloc`
first goes through `__jacl_membin_init`, which reads the flag, tries to be the one that sets it, and then sets the
cursor to 0, and then asks the recycling cache or the arena.  These are the steps that threads interleave;
`__jacl_alloc_arena` touches nothing that is shared but the cursor, by one atomic addition, and is one step.

The state remembers how many chunks were asked for, the chunks that were handed out, and the blocks that were cut.
Chunks are disjoint (`chunks_disjoint`) as long as no chunk is asked for when the 32-bit cursor has wrapped, or by one
thread while another is about to set the cursor to 0.
-/

namespace JACLibc

/-- Where a thread is in `malloc`: it has read `__jacl_once` as 0, it has set it, or it is initialised. -/
inductive Phase
  | idle
  | checked
  | won
  | ready
  deriving DecidableEq

/-- The bytes `[lo, hi)` of the static heap, handed out to a thread. -/
structure Chunk where
  owner : Nat
  lo : Nat
  hi : Nat
  deriving DecidableEq

/-- `__jacl_tls_off` and `__jacl_tls_end`, and the chunk that they run through. -/
structure Thread where
  phase : Phase
  off : Nat
  fin : Nat
  chunk : Chunk
  deriving DecidableEq

/-- A block `[off, off+need)` cut by a thread, and the chunk that the thread had when it cut it. -/
structure ArenaBlock where
  thread : Nat
  chunk : Chunk
  off : Nat
  need : Nat

structure Threads where
  once : Bool
  heap : Heap
  thread : Nat → Thread
  refills : Nat
  chunks : List Chunk
  blocks : List ArenaBlock

/-- The steps of a thread: it reads `__jacl_once`, tries to set it, sets the cursor to 0, is served by the recycling
cache, or calls `__jacl_alloc_arena`. -/
inductive Act
  | load (i : Nat)
  | cas (i : Nat)
  | store (i : Nat)
  | recycle (i : Nat)
  | arena (i n : Nat)

def Act.thread : Act → Nat
  | load i | cas i | store i | recycle i | arena i _ => i

namespace Threads

def init (s : Heap) : Threads :=
  ⟨false, { s with cursor := 0 }, fun i => ⟨.idle, 0, 0, ⟨i, 0, 0⟩⟩, 0, [], []⟩

def setThread (c : Threads) (i : Nat) (t : Thread) : Threads := { c with thread := Function.update c.thread i t }

def setPhase (c : Threads) (i : Nat) (ph : Phase) : Threads := c.setThread i { c.thread i with phase := ph }

@[simp] theorem setPhase_self (c : Threads) (i : Nat) (ph : Phase) :
    (c.setPhase i ph).thread i = { c.thread i with phase := ph } := Function.update_self _ _ _

@[simp] theorem setPhase_of_ne (c : Threads) {i k : Nat} (ph : Phase) (h : k ≠ i) :
    (c.setPhase i ph).thread k = c.thread k :=
  Function.update_of_ne h _ _

/-- The heap as thread `i` sees it. -/
def view (c : Threads) (i : Nat) : Heap := { c.heap with tlsOff := (c.thread i).off, tlsEnd := (c.thread i).fin }

/-- A request for `n` bytes makes thread `i` ask for a chunk. -/
def asks (c : Threads) (i n : Nat) : Bool :=
  n ≤ JACL_SMALL_MAX && (c.thread i).fin < (c.thread i).off + allocNeed n

/-- The chunk of thread `i` once it has been refilled, if it has to be. -/
def refilled (c : Threads) (i n : Nat) : Option Chunk :=
  match c.asks i n, tlsRefill (c.view i) with
  | true, (true, s) => some ⟨i, s.tlsOff, s.tlsEnd⟩
  | _, _ => none

/-- `__jacl_alloc_arena` by thread `i`. -/
def arena (c : Threads) (i n : Nat) : Threads :=
  let (r, s) := allocArena (c.view i) n (allocNeed n)
  let chunk := (c.refilled i n).getD (c.thread i).chunk
  { c with
    heap := s
    thread := Function.update c.thread i ⟨.idle, s.tlsOff, s.tlsEnd, chunk⟩
    refills := if c.asks i n then c.refills + 1 else c.refills
    chunks := (c.refilled i n).toList ++ c.chunks
    blocks := (r.map fun p => ⟨i, chunk, p - HDR - s.staticHeap, allocNeed n⟩).toList ++ c.blocks }

/-- One step of a thread; a step that its phase does not allow does nothing. -/
def step (c : Threads) (a : Act) : Unit × Threads :=
  ((), match a with
    | .load i => if (c.thread i).phase = .idle then c.setPhase i (if c.once then .ready else .checked) else c
    | .cas i =>
      if (c.thread i).phase = .checked then
        if c.once then c.setPhase i .ready else { c with once := true }.setPhase i .won
      else c
    | .store i => if (c.thread i).phase = .won then { c with heap := { c.heap with cursor := 0 } }.setPhase i .ready
      else c
    | .recycle i => if (c.thread i).phase = .ready then c.setPhase i .idle else c
    | .arena i n => if (c.thread i).phase = .ready then c.arena i n else c)

/-- No chunk is asked for after `2^20` earlier ones, nor while a thread is about to set the cursor. -/
def Timely (c : Threads) : Act → Prop
  | .arena i n => (c.thread i).phase = .ready → c.asks i n = true →
      c.refills < 2 ^ 20 ∧ ∀ k, (c.thread k).phase ≠ .won
  | _ => True

/-- The chunks are disjoint, and every block was cut from a chunk of its thread. -/
def ChunksOk (c : Threads) : Prop :=
  c.chunks.Pairwise (fun a b => a.hi ≤ b.lo ∨ b.hi ≤ a.lo) ∧
    (∀ a ∈ c.chunks, a.hi ≤ ARENA_LIMIT) ∧
    ∀ b ∈ c.blocks, b.chunk ∈ c.chunks ∧ b.chunk.owner = b.thread ∧ b.chunk.lo ≤ b.off ∧ b.off + b.need ≤ b.chunk.hi

end Threads

/-! ### What a step does -/

/-- The other threads keep their chunks and phases. -/
private theorem step_frame {c : Threads} {a : Act} {k : Nat} (hk : a.thread ≠ k) :
    (c.step a).2.thread k = c.thread k := by
  have hk' : k ≠ a.thread := Ne.symm hk
  cases a with
  | load i =>
    dsimp only [Threads.step]
    split
    · exact Threads.setPhase_of_ne _ _ hk'
    · rfl
  | cas i =>
    dsimp only [Threads.step]
    split
    · split
      · exact Threads.setPhase_of_ne _ _ hk'
      · exact Threads.setPhase_of_ne _ _ hk'
    · rfl
  | store i =>
    dsimp only [Threads.step]
    split
    · exact Threads.setPhase_of_ne _ _ hk'
    · rfl
  | recycle i =>
    dsimp only [Threads.step]
    split
    · exact Threads.setPhase_of_ne _ _ hk'
    · rfl
  | arena i n =>
    dsimp only [Threads.step]
    split
    · exact Function.update_of_ne hk' _ _
    · rfl

private theorem run_frame {c : Threads} {acts : List Act} {k : Nat} (hk : ∀ a ∈ acts, a.thread ≠ k) :
    (Machine.run Threads.step c acts).thread k = c.thread k := by
  induction acts generalizing c with
  | nil => rfl
  | cons a acts ih =>
    rw [Machine.run, ih fun b hb => hk b (List.mem_cons_of_mem _ hb)]
    exact step_frame (hk a List.mem_cons_self)

/-- What `__jacl_alloc_arena` leaves of the fields of a thread's view, and what it answers. -/
private structure Cuts (v s : Heap) (r : Option Nat) (start need fin cursor : Nat) : Prop where
  answer : r = some (v.staticHeap + start + 24)
  off : s.tlsOff = start + need
  fin : s.tlsEnd = fin
  cursor : s.cursor = cursor
  static : s.staticHeap = v.staticHeap

variable {c : Threads} {v : Heap} {i n : Nat}

private theorem allocArena_fit (hend : v.tlsEnd ≤ ARENA_LIMIT) (hn : n ≤ JACL_SMALL_MAX)
    (hfit : v.tlsOff + allocNeed n ≤ v.tlsEnd) :
    Cuts v (allocArena v n (allocNeed n)).2 (allocArena v n (allocNeed n)).1 v.tlsOff
    (allocNeed n) v.tlsEnd v.cursor := by
  have hroom : ¬v.tlsOff + allocNeed n > ARENA_LIMIT := by omega
  have hmod : (v.tlsOff + allocNeed n) % 2 ^ 32 = v.tlsOff + allocNeed n := by
    rw [ARENA_LIMIT] at hend
    omega
  rw [allocArena, if_neg (by omega), if_pos hfit]
  simp only [not_true_eq_false, false_or, if_neg hroom]
  exact ⟨rfl, hmod, rfl, rfl, rfl⟩

private theorem allocArena_full (hmod : v.cursor % JACL_TLS_CHUNK = 0) (hn : n ≤ JACL_SMALL_MAX)
    (hfit : v.tlsEnd < v.tlsOff + allocNeed n) (hcur : ARENA_LIMIT ≤ v.cursor) :
    allocArena v n (allocNeed n) = (none, { v with cursor := (v.cursor + JACL_TLS_CHUNK) % 2 ^ 32 }) := by
  rw [allocArena, if_neg (by omega), if_neg (by omega), tlsRefill_eq hmod, if_pos hcur]
  simp only [Bool.false_eq_true, not_false_eq_true, true_or, if_true]

private theorem allocArena_refill (hmod : v.cursor % JACL_TLS_CHUNK = 0) (hn : n ≤ JACL_SMALL_MAX)
    (hfit : v.tlsEnd < v.tlsOff + allocNeed n) (hcur : v.cursor < ARENA_LIMIT) :
    Cuts v (allocArena v n (allocNeed n)).2 (allocArena v n (allocNeed n)).1 v.cursor (allocNeed n)
      (v.cursor + JACL_TLS_CHUNK) ((v.cursor + JACL_TLS_CHUNK) % 2 ^ 32) := by
  have hneed := (allocNeed_small hn).2
  rw [JACL_TLS_CHUNK] at hmod
  have hroom : ¬v.cursor + allocNeed n > ARENA_LIMIT := by
    rw [ARENA_LIMIT] at *
    omega
  have hmod' : (v.cursor + allocNeed n) % 2 ^ 32 = v.cursor + allocNeed n := by
    rw [ARENA_LIMIT] at hcur
    omega
  rw [allocArena, if_neg (by omega), if_neg (by omega), tlsRefill_eq hmod, if_neg (by omega)]
  simp only [not_true_eq_false, false_or, if_neg hroom]
  exact ⟨rfl, hmod', rfl, rfl, rfl⟩

private theorem refilled_eq (hmod : c.heap.cursor % JACL_TLS_CHUNK = 0) :
    c.refilled i n = if c.asks i n = true ∧ c.heap.cursor < ARENA_LIMIT then
      some ⟨i, c.heap.cursor, c.heap.cursor + JACL_TLS_CHUNK⟩ else none := by
  have hmod' : (c.view i).cursor % JACL_TLS_CHUNK = 0 := hmod
  have hview : (c.view i).cursor = c.heap.cursor := rfl
  rw [Threads.refilled, tlsRefill_eq hmod', hview]
  by_cases hcur : c.heap.cursor < ARENA_LIMIT
  · rw [if_neg (Nat.not_le.mpr hcur)]
    cases c.asks i n with
    | false => rw [if_neg fun h => nomatch h.1]
    | true => rw [if_pos ⟨rfl, hcur⟩]
  · rw [if_pos (Nat.not_lt.mp hcur), if_neg fun h => hcur h.2]
    cases c.asks i n with
    | false => rfl
    | true => rfl

/-! ### The invariant -/

structure ThreadsInv (c : Threads) : Prop where
  cursor : c.heap.cursor = 4096 * c.refills % 2 ^ 32
  bound : c.refills ≤ 2 ^ 20
  early : c.once = false → c.refills = 0 ∧ ∀ k, (c.thread k).phase ≠ .won ∧ (c.thread k).phase ≠ .ready
  setting : ∀ k, (c.thread k).phase = .won → c.refills = 0
  order : c.chunks.Pairwise fun a b => b.hi ≤ a.lo
  chunk : ∀ a ∈ c.chunks, a.hi ≤ 4096 * c.refills ∧ a.hi ≤ ARENA_LIMIT
  thread : ∀ k, (c.thread k).off ≤ (c.thread k).fin ∧ (c.thread k).fin ≤ ARENA_LIMIT ∧
    ((c.thread k).fin = 0 ∨ (c.thread k).chunk ∈ c.chunks ∧ (c.thread k).chunk.lo ≤ (c.thread k).off ∧
      (c.thread k).fin = (c.thread k).chunk.hi)
  owner : ∀ k, (c.thread k).chunk.owner = k
  blocks : ∀ b ∈ c.blocks, b.chunk ∈ c.chunks ∧ b.chunk.owner = b.thread ∧ b.chunk.lo ≤ b.off ∧
    b.off + b.need ≤ b.chunk.hi

theorem ThreadsInv.chunksOk (h : ThreadsInv c) : c.ChunksOk :=
  ⟨h.order.imp Or.inr, fun a ha => (h.chunk a ha).2, h.blocks⟩

theorem threadsInv_init (s : Heap) : ThreadsInv (Threads.init s) := by
  refine ⟨rfl, Nat.zero_le _, fun _ => ⟨rfl, fun k => ⟨?_, ?_⟩⟩, fun k hk => rfl, List.Pairwise.nil, ?_, ?_,
    fun _ => rfl, ?_⟩
  · intro he
    cases he
  · intro he
    cases he
  · intro a ha
    cases ha
  · intro k
    exact ⟨le_rfl, Nat.zero_le _, Or.inl rfl⟩
  · intro b hb
    cases hb

/-- A step that moves a thread to another phase. -/
private theorem ThreadsInv.setPhase (h : ThreadsInv c) {ph : Phase} (hwon : ph = .won → c.refills = 0)
    (hready : c.once = false → ph ≠ .won ∧ ph ≠ .ready) : ThreadsInv (c.setPhase i ph) := by
  have hphase : ∀ k, ((c.setPhase i ph).thread k).phase = if k = i then ph else (c.thread k).phase := by
    intro k
    split
    · next he => rw [he, Threads.setPhase_self]
    · next he => rw [Threads.setPhase_of_ne _ _ he]
  have hrest : ∀ k, ((c.setPhase i ph).thread k).off = (c.thread k).off ∧
      ((c.setPhase i ph).thread k).fin = (c.thread k).fin ∧
      ((c.setPhase i ph).thread k).chunk = (c.thread k).chunk := by
    intro k
    by_cases hk : k = i
    · rw [hk, Threads.setPhase_self]
      exact ⟨rfl, rfl, rfl⟩
    · rw [Threads.setPhase_of_ne _ _ hk]
      exact ⟨rfl, rfl, rfl⟩
  refine ⟨h.cursor, h.bound, ?_, ?_, h.order, h.chunk, ?_, ?_, h.blocks⟩
  · intro ho
    refine ⟨(h.early ho).1, fun k => ?_⟩
    rw [hphase]
    split
    · exact hready ho
    · exact (h.early ho).2 k
  · intro k hk
    rw [hphase] at hk
    split at hk
    · exact hwon hk
    · exact h.setting k hk
  · intro k
    obtain ⟨h1, h2, h3⟩ := hrest k
    rw [h1, h2, h3]
    exact h.thread k
  · intro k
    rw [(hrest k).2.2]
    exact h.owner k

/-- A step of thread `i` that may hand it a new chunk and may cut a block from the chunk it then has. -/
private structure ArenaStep (c c' : Threads) (i : Nat) (t : Thread) (new : Option Chunk) (cut : Option ArenaBlock) :
    Prop where
  once : c'.once = c.once
  thread : c'.thread = Function.update c.thread i t
  chunks : c'.chunks = new.toList ++ c.chunks
  blocks : c'.blocks = cut.toList ++ c.blocks

private theorem ThreadsInv.arenaStep {c' : Threads} {t : Thread} {new : Option Chunk} {cut : Option ArenaBlock}
    (h : ThreadsInv c) (hs : ArenaStep c c' i t new cut) (hready : (c.thread i).phase = .ready)
    (hidle : t.phase = .idle) (hcur : c'.heap.cursor = 4096 * c'.refills % 2 ^ 32) (hle : c.refills ≤ c'.refills)
    (hbound : c'.refills ≤ 2 ^ 20) (hwon : c'.refills = c.refills ∨ ∀ k, (c.thread k).phase ≠ .won)
    (hnew : ∀ a, new = some a → 4096 * c.refills ≤ a.lo ∧ a.hi ≤ 4096 * c'.refills ∧ a.hi ≤ ARENA_LIMIT)
    (ht : t.off ≤ t.fin ∧ t.fin ≤ ARENA_LIMIT ∧
      (t.fin = 0 ∨ t.chunk ∈ c'.chunks ∧ t.chunk.lo ≤ t.off ∧ t.fin = t.chunk.hi))
    (howner : t.chunk.owner = i)
    (hcut : ∀ b, cut = some b →
      b.chunk ∈ c'.chunks ∧ b.chunk.owner = b.thread ∧ b.chunk.lo ≤ b.off ∧ b.off + b.need ≤ b.chunk.hi) :
    ThreadsInv c' := by
  have honce : c.once = true := by
    by_contra ho
    exact ((h.early (Bool.not_eq_true _ ▸ ho)).2 i).2 hready
  have hmono : ∀ a ∈ c.chunks, a ∈ c'.chunks := by
    intro a ha
    rw [hs.chunks]
    exact List.mem_append_right _ ha
  refine ⟨hcur, hbound, ?_, ?_, ?_, ?_, ?_, ?_, ?_⟩
  · intro ho
    rw [hs.once, honce] at ho
    cases ho
  · intro k hk
    rw [hs.thread, Function.update_apply] at hk
    split at hk
    · rw [hidle] at hk
      cases hk
    · rcases hwon with hsame | hno
      · rw [hsame]
        exact h.setting k hk
      · exact absurd hk (hno k)
  · rw [hs.chunks]
    cases new with
    | none => exact h.order
    | some a =>
      refine List.pairwise_cons.mpr ⟨fun b hb => ?_, h.order⟩
      have h1 := (h.chunk b hb).1
      have h2 := (hnew a rfl).1
      omega
  · intro a ha
    rw [hs.chunks, List.mem_append, Option.mem_toList] at ha
    rcases ha with ha | ha
    · exact (hnew a ha).2
    · have h1 := h.chunk a ha
      exact ⟨by omega, h1.2⟩
  · intro k
    rw [hs.thread, Function.update_apply]
    split
    · exact ht
    · obtain ⟨h1, h2, h3⟩ := h.thread k
      exact ⟨h1, h2, h3.imp_right fun h4 => ⟨hmono _ h4.1, h4.2⟩⟩
  · intro k
    rw [hs.thread, Function.update_apply]
    split
    · next hk => exact howner.trans hk.symm
    · exact h.owner k
  · intro b hb
    rw [hs.blocks, List.mem_append, Option.mem_toList] at hb
    rcases hb with hb | hb
    · exact hcut b hb
    · obtain ⟨h1, h2⟩ := h.blocks b hb
      exact ⟨hmono _ h1, h2⟩

/-- The chunk a thread has is the one its offsets run through; a thread without one asks for every request. -/
private theorem ThreadsInv.chunk_of_fit (h : ThreadsInv c) (hn : n ≤ JACL_SMALL_MAX)
    (hfit : (c.thread i).off + allocNeed n ≤ (c.thread i).fin) :
    (c.thread i).chunk ∈ c.chunks ∧ (c.thread i).chunk.lo ≤ (c.thread i).off ∧
    (c.thread i).fin = (c.thread i).chunk.hi := by
  have hneed := (allocNeed_small hn).1
  rcases (h.thread i).2.2 with h0 | h1
  · omega
  · exact h1

private theorem ThreadsInv.cursor_mod (h : ThreadsInv c) : c.heap.cursor % JACL_TLS_CHUNK = 0 := by
  rw [h.cursor, JACL_TLS_CHUNK]
  omega

private theorem asks_iff : c.asks i n = true ↔ n ≤ JACL_SMALL_MAX ∧
    (c.thread i).fin < (c.thread i).off + allocNeed n := by
  rw [Threads.asks, Bool.and_eq_true, decide_eq_true_iff, decide_eq_true_iff]

private theorem arena_refills : (c.arena i n).refills = if c.asks i n then c.refills + 1 else c.refills := rfl

/-- The step of a call that `__jacl_alloc_arena` refuses. -/
private theorem arena_none {s : Heap} (hal : allocArena (c.view i) n (allocNeed n) = (none, s))
    (hnew : c.refilled i n = none) :
    ArenaStep c (c.arena i n) i ⟨.idle, s.tlsOff, s.tlsEnd, (c.thread i).chunk⟩ none none ∧
      (c.arena i n).heap.cursor = s.cursor := by
  rw [Threads.arena, hal, hnew]
  exact ⟨⟨rfl, rfl, rfl, rfl⟩, rfl⟩

/-- The step of a call that cuts a block at `start` of the chunk `k`. -/
private theorem arena_cut {start fin cursor : Nat} {new : Option Chunk} {k : Chunk} (hnew : c.refilled i n = new)
    (hk : new.getD (c.thread i).chunk = k)
    (hal : Cuts (c.view i) (allocArena (c.view i) n (allocNeed n)).2 (allocArena (c.view i) n (allocNeed n)).1 start
    (allocNeed n)
      fin cursor) :
    ArenaStep c (c.arena i n) i ⟨.idle, start + allocNeed n, fin, k⟩ new (some ⟨i, k, start, allocNeed n⟩) ∧
      (c.arena i n).heap.cursor = cursor := by
  obtain ⟨h1, h2, h3, h4, h5⟩ := hal
  have hoff : (c.view i).staticHeap + start + 24 - HDR - (c.view i).staticHeap = start := by
    rw [HDR]
    omega
  refine ⟨⟨rfl, ?_, ?_, ?_⟩, h4⟩
  · rw [← h2, ← h3, ← hk, ← hnew]
    rfl
  · rw [← hnew]
    rfl
  · rw [Threads.arena]
    dsimp only
    rw [h1, h5, Option.map_some, hoff, hnew, hk]

private theorem ThreadsInv.arena_large (h : ThreadsInv c) (hready : (c.thread i).phase = .ready)
    (hn : JACL_SMALL_MAX < n) :
    ThreadsInv (c.arena i n) := by
  have hask : c.asks i n = false := by
    rw [← Bool.not_eq_true, asks_iff]
    omega
  have hnone : c.refilled i n = none := by
    rw [refilled_eq h.cursor_mod, hask, if_neg fun he => by cases he.1]
  have hal : allocArena (c.view i) n (allocNeed n) = (none, c.view i) := by rw [allocArena, if_pos hn]
  have hrefills : (c.arena i n).refills = c.refills := by
    rw [arena_refills, hask]
    rfl
  obtain ⟨hstep, hcur⟩ := arena_none hal hnone
  refine h.arenaStep hstep hready rfl ?_ hrefills.ge ?_ (Or.inl hrefills) (fun a ha => by cases ha) ?_ (h.owner i)
    (fun b hb => by cases hb)
  · rw [hcur, hrefills, ← h.cursor]
    rfl
  · rw [hrefills]
    exact h.bound
  · rw [hstep.chunks]
    exact h.thread i

private theorem ThreadsInv.arena_fit (h : ThreadsInv c) (hready : (c.thread i).phase = .ready) (hn : n ≤ JACL_SMALL_MAX)
    (hfit : (c.thread i).off + allocNeed n ≤ (c.thread i).fin) : ThreadsInv (c.arena i n) := by
  obtain ⟨hmem, hlo, hhi⟩ := h.chunk_of_fit hn hfit
  have hask : c.asks i n = false := by
    rw [← Bool.not_eq_true, asks_iff]
    omega
  have hnone : c.refilled i n = none := by
    rw [refilled_eq h.cursor_mod, hask, if_neg fun he => nomatch he.1]
  have hrefills : (c.arena i n).refills = c.refills := by
    rw [arena_refills, hask]
    rfl
  obtain ⟨hstep, hcur⟩ := arena_cut hnone rfl (allocArena_fit (h.thread i).2.1 hn hfit)
  refine h.arenaStep hstep hready rfl ?_ hrefills.ge ?_ (Or.inl hrefills) (fun a ha => nomatch ha) ?_ (h.owner i) ?_
  · rw [hcur, hrefills, ← h.cursor]
    rfl
  · rw [hrefills]
    exact h.bound
  · rw [hstep.chunks]
    exact ⟨hfit, (h.thread i).2.1, Or.inr ⟨hmem, Nat.le_trans hlo (Nat.le_add_right _ _), hhi⟩⟩
  · intro b hb
    cases hb
    rw [hstep.chunks]
    exact ⟨hmem, h.owner i, hlo, Nat.le_trans hfit hhi.le⟩

/-- A chunk is asked for: the cursor is still where the earlier requests left it, so the answer is past all of their
chunks. -/
private theorem ThreadsInv.arena_asks (h : ThreadsInv c) (hready : (c.thread i).phase = .ready)
    (hask : c.asks i n = true) (hlt : c.refills < 2 ^ 20) (hwon : ∀ k, (c.thread k).phase ≠ .won) :
    ThreadsInv (c.arena i n) := by
  obtain ⟨hn, hfit⟩ := asks_iff.mp hask
  have hcursor : c.heap.cursor = 4096 * c.refills := by
    have := h.cursor
    omega
  have hrefills : (c.arena i n).refills = c.refills + 1 := by
    rw [arena_refills, hask]
    rfl
  have hnext : (c.heap.cursor + JACL_TLS_CHUNK) % 2 ^ 32 = 4096 * (c.arena i n).refills % 2 ^ 32 := by
    rw [hcursor, hrefills, JACL_TLS_CHUNK]
    omega
  have hle : c.refills ≤ (c.arena i n).refills := by omega
  have hbound : (c.arena i n).refills ≤ 2 ^ 20 := by omega
  by_cases hcur : c.heap.cursor < ARENA_LIMIT
  · have hnew : c.refilled i n = some ⟨i, c.heap.cursor, c.heap.cursor + JACL_TLS_CHUNK⟩ := by
      rw [refilled_eq h.cursor_mod, if_pos ⟨hask, hcur⟩]
    have hlim : c.heap.cursor + JACL_TLS_CHUNK ≤ ARENA_LIMIT := by
      rw [hcursor, ARENA_LIMIT, JACL_TLS_CHUNK] at *
      omega
    have hneed := allocNeed_small hn
    obtain ⟨hstep, hcur'⟩ := arena_cut hnew rfl (allocArena_refill h.cursor_mod hn hfit hcur)
    have hmem : (⟨i, c.heap.cursor, c.heap.cursor + JACL_TLS_CHUNK⟩ : Chunk) ∈ (c.arena i n).chunks := by
      rw [hstep.chunks]
      exact List.mem_cons_self
    have hend : c.heap.cursor + allocNeed n ≤ c.heap.cursor + JACL_TLS_CHUNK := by
      rw [JACL_TLS_CHUNK]
      omega
    refine h.arenaStep hstep hready rfl (hcur'.trans hnext) hle hbound (Or.inr hwon) ?_ ?_ rfl ?_
    · intro a ha
      cases ha
      refine ⟨hcursor.ge, ?_, hlim⟩
      show c.heap.cursor + JACL_TLS_CHUNK ≤ _
      rw [hcursor, hrefills, JACL_TLS_CHUNK]
      omega
    · exact ⟨hend, hlim, Or.inr ⟨hmem, Nat.le_add_right _ _, rfl⟩⟩
    · intro b hb
      cases hb
      exact ⟨hmem, rfl, le_rfl, hend⟩
  · have hnone : c.refilled i n = none := by
      rw [refilled_eq h.cursor_mod, if_neg fun he => hcur he.2]
    obtain ⟨hstep, hcur'⟩ := arena_none (allocArena_full h.cursor_mod hn hfit (Nat.not_lt.mp hcur)) hnone
    refine h.arenaStep hstep hready rfl (hcur'.trans hnext) hle hbound (Or.inr hwon) (fun a ha => by cases ha) ?_
      (h.owner i) (fun b hb => by cases hb)
    rw [hstep.chunks]
    exact h.thread i

private theorem ThreadsInv.arena (h : ThreadsInv c) (hready : (c.thread i).phase = .ready)
    (ht : c.Timely (.arena i n)) :
    ThreadsInv (c.arena i n) := by
  rcases Nat.lt_or_ge JACL_SMALL_MAX n with hn | hn
  · exact h.arena_large hready hn
  · rcases Nat.lt_or_ge (c.thread i).fin ((c.thread i).off + allocNeed n) with hfit | hfit
    · have hask : c.asks i n = true := asks_iff.mpr ⟨hn, hfit⟩
      obtain ⟨hlt, hwon⟩ := ht hready hask
      exact h.arena_asks hready hask hlt hwon
    · exact h.arena_fit hready hn hfit

theorem threadsInv_step (h : ThreadsInv c) {a : Act} (ht : c.Timely a) : ThreadsInv (c.step a).2 := by
  cases a with
  | load i =>
    dsimp only [Threads.step]
    split
    · refine h.setPhase ?_ ?_
      · intro he
        split at he
        · cases he
        · cases he
      · intro ho
        rw [ho]
        exact ⟨Phase.noConfusion, Phase.noConfusion⟩
    · exact h
  | cas i =>
    dsimp only [Threads.step]
    split
    · split
      · next ho => exact h.setPhase (fun he => nomatch he) fun he => absurd (he.symm.trans ho) Bool.false_ne_true
      · next ho =>
        have hno := h.early (Bool.not_eq_true _ ▸ ho)
        have h' : ThreadsInv { c with once := true } :=
          ⟨h.cursor, h.bound, Bool.noConfusion, h.setting, h.order, h.chunk, h.thread, h.owner, h.blocks⟩
        exact h'.setPhase (fun _ => hno.1) fun he => nomatch he
    · exact h
  | store i =>
    dsimp only [Threads.step]
    split
    · next hwon =>
      have hzero := h.setting i hwon
      have honce : c.once = true := by
        by_contra ho
        exact ((h.early (Bool.not_eq_true _ ▸ ho)).2 i).1 hwon
      have h' : ThreadsInv { c with heap := { c.heap with cursor := 0 } } := by
        refine ⟨?_, h.bound, h.early, h.setting, h.order, h.chunk, h.thread, h.owner, h.blocks⟩
        show 0 = 4096 * c.refills % 2 ^ 32
        omega
      exact h'.setPhase (fun he => nomatch he) fun he => absurd (he.symm.trans honce) Bool.false_ne_true
    · exact h
  | recycle i =>
    dsimp only [Threads.step]
    split
    · exact h.setPhase (fun he => nomatch he) fun _ => ⟨Phase.noConfusion, Phase.noConfusion⟩
    · exact h
  | arena i n =>
    dsimp only [Threads.step]
    split
    · next hready => exact h.arena hready ht
    · exact h

/-- In every run that asks for no chunk after the cursor has wrapped, nor between the setting of `__jacl_once` and
that of the cursor, the chunks are disjoint and the blocks lie in the chunks of their threads. -/
theorem chunks_disjoint (s : Heap) (acts : List Act)
    (hg : Machine.Guarded Threads.step Threads.Timely (Threads.init s) acts) :
    (Machine.run Threads.step (Threads.init s) acts).ChunksOk := by
  have hinv : ThreadsInv (Machine.run Threads.step (Threads.init s) acts) :=
    Machine.guarded_invariant (I := ThreadsInv) (fun _ _ h ht => threadsInv_step h ht) (threadsInv_init s) hg
  exact hinv.chunksOk

/-- Two threads that meet in `__jacl_membin_init`. -/
theorem chunks_disjoint_two :
    Machine.Guarded Threads.step Threads.Timely (Threads.init (membinInit 4096 fun _ => 0))
      [.load 0, .load 1, .cas 0, .cas 1, .store 0, .arena 1 100, .arena 0 100] ∧
    (Machine.run Threads.step (Threads.init (membinInit 4096 fun _ => 0))
      [.load 0, .load 1, .cas 0, .cas 1, .store 0, .arena 1 100, .arena 0 100]).ChunksOk := by
  have hidle : ∀ acts : List Act, (∀ a ∈ acts, a.thread < 2) → ∀ k,
      ((Machine.run Threads.step (Threads.init (membinInit 4096 fun _ => 0)) acts).thread (k + 2)).phase ≠ .won := by
    intro acts hacts k
    rw [run_frame fun a ha => by have := hacts a ha; omega]
    exact Phase.noConfusion
  have hg : Machine.Guarded Threads.step Threads.Timely (Threads.init (membinInit 4096 fun _ => 0))
      [.load 0, .load 1, .cas 0, .cas 1, .store 0, .arena 1 100, .arena 0 100] := by
    refine ⟨trivial, trivial, trivial, trivial, trivial, fun _ _ => ⟨by decide, ?_⟩,
      fun _ _ => ⟨by decide, ?_⟩, trivial⟩
    · intro k
      match k with
      | 0 => decide
      | 1 => decide
      | k + 2 => exact hidle [.load 0, .load 1, .cas 0, .cas 1, .store 0] (by decide) k
    · intro k
      match k with
      | 0 => decide
      | 1 => decide
      | k + 2 => exact hidle [.load 0, .load 1, .cas 0, .cas 1, .store 0, .arena 1 100] (by decide) k
  exact ⟨hg, chunks_disjoint _ _ hg⟩

/-! ### The wrap -/

/-- The request of a thread that has no chunk. -/
def request (i : Nat) : List Act := [.load i, .arena i 100]

/-- The calls that take the 16 chunks of the arena. -/
def taken : List Act :=
  [.load 0, .cas 0, .store 0, .arena 0 100] ++ ((List.range 15).map fun k => request (k + 1)).flatten

/-- Thread 16 has no chunk, and `j` were asked for. -/
private structure Full (c : Threads) (j : Nat) : Prop where
  once : c.once = true
  thread : c.thread 16 = ⟨.idle, 0, 0, ⟨16, 0, 0⟩⟩
  cursor : c.heap.cursor = 4096 * j % 2 ^ 32
  chunk : ⟨0, 0, 4096⟩ ∈ c.chunks

private theorem request_eq {j : Nat} (h : Full c j) :
    Machine.run Threads.step c (request 16) = (c.setPhase 16 .ready).arena 16 100 := by
  have hload : (c.step (.load 16)).2 = c.setPhase 16 .ready := by
    dsimp only [Threads.step]
    rw [h.thread, h.once]
    rfl
  have hphase : ((c.setPhase 16 .ready).thread 16).phase = .ready := by
    rw [Threads.setPhase_self]
  show ((c.step (.load 16)).2.step (.arena 16 100)).2 = _
  rw [hload]
  dsimp only [Threads.step]
  rw [if_pos hphase]

/-- The request of thread 16 once it is past `__jacl_membin_init`. -/
private theorem request_asks {j : Nat} (h : Full c j) : (c.setPhase 16 .ready).asks 16 100 = true := by
  rw [asks_iff, Threads.setPhase_self, h.thread]
  decide

private theorem full_mod {j : Nat} (h : Full c j) : (c.setPhase 16 .ready).heap.cursor % JACL_TLS_CHUNK = 0 := by
  show c.heap.cursor % JACL_TLS_CHUNK = 0
  rw [h.cursor, JACL_TLS_CHUNK]
  omega

/-- A request that finds the arena full moves the cursor and nothing else. -/
private theorem full_request {j : Nat} (h : Full c j) (hlo : 16 ≤ j) (hhi : j < 2 ^ 20) :
    Full (Machine.run Threads.step c (request 16)) (j + 1) := by
  obtain ⟨hn, hfit⟩ := asks_iff.mp (request_asks h)
  have hcur : ARENA_LIMIT ≤ c.heap.cursor := by
    rw [h.cursor, ARENA_LIMIT]
    omega
  have hnone : (c.setPhase 16 .ready).refilled 16 100 = none := by
    rw [refilled_eq (full_mod h), if_neg fun he => absurd he.2 (Nat.not_lt.mpr hcur)]
  obtain ⟨hstep, hcur'⟩ := arena_none (i := 16) (allocArena_full (full_mod h) hn hfit hcur) hnone
  rw [request_eq h]
  refine ⟨?_, ?_, ?_, ?_⟩
  · rw [hstep.once]
    exact h.once
  · rw [hstep.thread, Function.update_self, Threads.setPhase_self, h.thread]
    show (⟨.idle, ((c.setPhase 16 .ready).thread 16).off, ((c.setPhase 16 .ready).thread 16).fin, _⟩ : Thread) = _
    rw [Threads.setPhase_self, h.thread]
  · rw [hcur']
    show (c.heap.cursor + JACL_TLS_CHUNK) % 2 ^ 32 = _
    rw [h.cursor, JACL_TLS_CHUNK]
    omega
  · rw [hstep.chunks]
    exact h.chunk

private theorem full_requests {j : Nat} (h : Full c j) (hlo : 16 ≤ j) (k : Nat) (hk : j + k ≤ 2 ^ 20) :
    Full (Machine.run Threads.step c (List.replicate k (request 16)).flatten) (j + k) := by
  induction k generalizing c j with
  | zero => exact h
  | succ k ih =>
    rw [List.replicate_succ, List.flatten_cons, Machine.run_append]
    have hnext := ih (full_request h hlo (by omega)) (by omega) (by omega)
    rwa [Nat.add_right_comm, Nat.add_assoc] at hnext

/-- The cursor has wrapped, and the first chunk is handed out again. -/
private theorem full_wrapped (h : Full c (2 ^ 20)) : ¬(Machine.run Threads.step c (request 16)).ChunksOk := by
  obtain ⟨hn, hfit⟩ := asks_iff.mp (request_asks h)
  have hcur : c.heap.cursor = 0 := h.cursor.trans (by decide)
  have hlt : c.heap.cursor < ARENA_LIMIT := by
    rw [hcur]
    decide
  have hnew : (c.setPhase 16 .ready).refilled 16 100 = some ⟨16, 0, 4096⟩ := by
    rw [refilled_eq (full_mod h), if_pos ⟨request_asks h, hlt⟩]
    show some (⟨16, c.heap.cursor, c.heap.cursor + JACL_TLS_CHUNK⟩ : Chunk) = _
    rw [hcur, JACL_TLS_CHUNK]
  obtain ⟨hstep, -⟩ := arena_cut hnew rfl (allocArena_refill (full_mod h) hn hfit hlt)
  rw [request_eq h]
  rintro ⟨hpair, -⟩
  rw [hstep.chunks] at hpair
  have hdisj := (List.pairwise_cons.mp hpair).1 ⟨0, 0, 4096⟩ h.chunk
  revert hdisj
  decide

private theorem full_taken : Full (Machine.run Threads.step (Threads.init (membinInit 4096 fun _ => 0)) taken) 16 := by
  refine ⟨?_, ?_, ?_, ?_⟩ <;> decide +kernel

/-- The cursor wraps: the 16 chunks are taken and a thread without one goes on asking until it is given the first
again. -/
def wrappedRun : List Act := taken ++ (List.replicate (2 ^ 20 - 16) (request 16)).flatten ++ request 16

/-- Thread 1 finds `__jacl_once` set and takes a chunk before thread 0 sets the cursor. -/
def racedRun : List Act := [.load 0, .cas 0, .load 1, .arena 1 100, .store 0, .arena 0 100]

theorem chunks_overlap :
    ¬(Machine.run Threads.step (Threads.init (membinInit 4096 fun _ => 0)) wrappedRun).ChunksOk ∧
    ¬(Machine.run Threads.step (Threads.init (membinInit 4096 fun _ => 0)) racedRun).ChunksOk := by
  constructor
  · rw [wrappedRun, Machine.run_append, Machine.run_append]
    exact full_wrapped (full_requests full_taken (Nat.le_refl _) (2 ^ 20 - 16) (by decide))
  · rintro ⟨hpair, -⟩
    have hchunks : (Machine.run Threads.step (Threads.init (membinInit 4096 fun _ => 0)) racedRun).chunks =
        [⟨0, 0, 4096⟩, ⟨1, 0, 4096⟩] := by decide
    rw [hchunks] at hpair
    revert hpair
    decide

end JACLibc
