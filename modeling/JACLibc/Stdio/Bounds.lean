import JACLibc.Stdio.Output

/-!
# The bounds of a buffer

No call stores a byte at `_end` or beyond and `_ptr` never passes `_end`, as long as every call meets `BoundsOk`.  The
condition keeps out the calls that leave the buffer: an `fwrite` that takes `_bufsiz` bytes for free although a flush
has freed less, or although the stream cannot be flushed; the reset of `_ptr` to the 33rd byte of a smaller memory
buffer; and a read of `_cnt` bytes when `_ptr` has been moved since they were counted.
-/

namespace JACLibc.Stdio

variable {K : Kernel} {f g : File}

/-- The buffer is in order.  `data_le` is what a flush to a descriptor starts from; `switched` says that a stream that
has been switched from writing to reading has been reset. -/
structure InBounds (f : File) : Prop where
  ptr_le : f.ptr ≤ f.end_
  inside : f.outside = false
  pos : 0 < f.bufsiz
  bound : f.end_ < 2 ^ 64
  size : f.end_ = if f.mem then f.bufsiz else OVRBUF
  bufsiz : f.mem = false → f.bufsiz = BUFSIZ
  full : f.mem = true → f.bufmode = .full
  data_le : f.mem = false → f.wr = true → OVRSIZ ≤ f.ptr
  grows : f.grows = true → OVRSIZ ≤ f.end_
  switched : f.wr = false → f.lastOp = .write → OVRSIZ ≤ f.end_

theorem InBounds.file_end (h : InBounds f) (hmem : f.mem = false) : f.end_ = BUFSIZ + OVRSIZ := by
  rw [h.size, hmem]
  rfl

theorem InBounds.mem_end (h : InBounds f) (hmem : f.mem = true) : f.end_ = f.bufsiz := by
  rw [h.size, hmem]
  rfl

theorem InBounds.le_end (h : InBounds f) (hmem : f.mem = true → OVRSIZ ≤ f.end_) : OVRSIZ ≤ f.end_ := by
  cases hm : f.mem with
  | true => exact hmem hm
  | false =>
    rw [h.file_end hm]
    exact Nat.le_add_left _ _

theorem InBounds.reset (h : InBounds f) (hle : OVRSIZ ≤ f.end_) : InBounds f.reset :=
  ⟨hle, h.inside, h.pos, h.bound, h.size, h.bufsiz, h.full, fun _ _ => Nat.le_refl _, h.grows, fun _ _ => hle⟩

/-- Only the fields of the buffer matter. -/
theorem InBounds.other (h : InBounds f) (cnt : Nat) (rd eof err : Bool) (file : List UInt8) (pos calls : Nat)
    (out : List UInt8) :
    InBounds { f with
      cnt := cnt, rd := rd, eof := eof, err := err, file := file, pos := pos, calls := calls, out := out } :=
  ⟨h.ptr_le, h.inside, h.pos, h.bound, h.size, h.bufsiz, h.full, h.data_le, h.grows, h.switched⟩

theorem InBounds.advance (h : InBounds f) {p : Nat} (hle : f.ptr ≤ p) (hp : p ≤ f.end_) :
    InBounds { f with ptr := p } :=
  ⟨hp, h.inside, h.pos, h.bound, h.size, h.bufsiz, h.full, fun hmem hwr => (h.data_le hmem hwr).trans hle, h.grows,
    h.switched⟩

theorem InBounds.lastOp (h : InBounds f) (op : LastOp) (hop : f.wr = true ∨ op ≠ .write) :
    InBounds { f with lastOp := op } := by
  refine ⟨h.ptr_le, h.inside, h.pos, h.bound, h.size, h.bufsiz, h.full, h.data_le, h.grows, ?_⟩
  intro hwr hw
  rcases hop with hop | hop
  · exact absurd hop (by simpa using hwr)
  · exact absurd hw hop

/-- Bytes that fit are stored inside. -/
theorem InBounds.store (h : InBounds f) {off : Nat} {data : List UInt8} (hfit : off + data.length ≤ f.end_) :
    InBounds (f.store off data) := by
  have hinside : (f.store off data).outside = false := by
    simp only [File.store, h.inside, Bool.false_or, decide_eq_false_iff_not]
    omega
  exact ⟨h.ptr_le, hinside, h.pos, h.bound, h.size, h.bufsiz, h.full, h.data_le, h.grows, h.switched⟩

theorem InBounds.put (h : InBounds f) {data : List UInt8} (hfit : f.ptr + data.length ≤ f.end_) :
    InBounds (f.put data) :=
  (h.store hfit).advance (Nat.le_add_right _ _) hfit

/-! ### Flushing -/

/-- What a flush keeps. -/
structure Kept (f g : File) : Prop where
  mem : g.mem = f.mem
  grows : g.grows = f.grows
  rd : g.rd = f.rd
  wr : g.wr = f.wr
  bufmode : g.bufmode = f.bufmode
  end_ : f.end_ ≤ g.end_

theorem Kept.refl (f : File) : Kept f f := ⟨rfl, rfl, rfl, rfl, rfl, Nat.le_refl _⟩

theorem Kept.trans {u : File} (h : Kept f g) (h' : Kept g u) : Kept f u :=
  ⟨h'.mem.trans h.mem, h'.grows.trans h.grows, h'.rd.trans h.rd, h'.wr.trans h.wr, h'.bufmode.trans h.bufmode,
    h.end_.trans h'.end_⟩

/-- The buffer of a growing stream can be doubled. -/
def Doubles (f : File) : Prop := f.mem = true → f.grows = true → 2 * f.bufsiz < 2 ^ 64

/-- A flush to a descriptor: it fails, or `_ptr` goes back by the number of bytes accepted. -/
theorem flushFd_bounds (h : InBounds f) (hmem : f.mem = false) (hwr : f.wr = true) {ok : Bool}
    (hg : flushFd K f = (ok, g)) :
    InBounds g ∧ Kept f g ∧ g.end_ = f.end_ ∧ g.bufsiz = f.bufsiz ∧
      (ok = true → f.ptr ≠ OVRSIZ →
        ∃ k, K.write f.calls (f.ptr - OVRSIZ) = some k ∧ g.ptr = f.ptr - min k (f.ptr - OVRSIZ) ∧
        g.calls = f.calls + 1) := by
  have hle := h.data_le hmem hwr
  have hpl := h.ptr_le
  by_cases hptr : f.ptr = OVRSIZ
  · rw [flushFd_none hptr, Prod.mk.injEq] at hg
    obtain ⟨rfl, rfl⟩ := hg
    exact ⟨h, .refl f, rfl, rfl, fun _ hne => absurd hptr hne⟩
  cases hk : K.write f.calls (f.ptr - OVRSIZ) with
  | none =>
    have hdiff : ptrDiff f.ptr OVRSIZ = f.ptr - OVRSIZ := ptrDiff_of_le hle (hpl.trans_lt h.bound)
    have hn : ¬f.ptr - OVRSIZ = 0 := by omega
    simp only [flushFd, hdiff, if_neg hn, sysWrite, hk, Prod.mk.injEq] at hg
    obtain ⟨rfl, rfl⟩ := hg
    exact ⟨h.other _ _ _ _ _ _ _ _, ⟨rfl, rfl, rfl, rfl, rfl, Nat.le_refl _⟩, rfl, rfl, fun hok => absurd hok (by simp)⟩
  | some k =>
    obtain ⟨w, hw⟩ : ∃ w, w = min k (f.ptr - OVRSIZ) := ⟨_, rfl⟩
    obtain ⟨buf, hflush, -⟩ := flushFd_write hle hpl h.bound hptr hk hw
    rw [hflush, Prod.mk.injEq] at hg
    obtain ⟨rfl, rfl⟩ := hg
    refine ⟨⟨?_, h.inside, h.pos, h.bound, h.size, h.bufsiz, h.full, fun _ _ => ?_, h.grows, by simp [hwr]⟩,
      ⟨rfl, rfl, rfl, rfl, rfl, Nat.le_refl _⟩, rfl, rfl, fun _ _ => ⟨k, rfl, by rw [← hw], rfl⟩⟩
    · simp only
      omega
    · simp only
      omega

/-- The two steps of `__jacl_flush_mem`: a full buffer is doubled, and a NUL is stored behind the text. -/
def File.doubled (f : File) : File :=
  if f.ptr ≥ f.end_ then
    { f with
      buf := fun x => if f.bufsiz ≤ x ∧ x < 2 * f.bufsiz then 0 else f.buf x
      end_ := 2 * f.bufsiz, bufsiz := 2 * f.bufsiz }
  else f

def File.terminated (f : File) : File :=
  { (if f.grows ∧ f.ptr < f.bufsiz then f.store f.ptr [0] else f) with lastOp := .write }

theorem File.doubled_ptr (f : File) : f.doubled.ptr = f.ptr := by
  unfold File.doubled
  split <;> rfl

theorem File.terminated_eq (f : File) :
    f.terminated.ptr = f.ptr ∧ f.terminated.end_ = f.end_ ∧ f.terminated.bufsiz = f.bufsiz ∧ Kept f f.terminated := by
  unfold File.terminated
  split
  · exact ⟨rfl, rfl, rfl, rfl, rfl, rfl, rfl, rfl, Nat.le_refl _⟩
  · exact ⟨rfl, rfl, rfl, rfl, rfl, rfl, rfl, rfl, Nat.le_refl _⟩

theorem flushMem_eq (h : ¬(f.ptr ≥ f.end_ ∧ ¬f.grows)) : flushMem f = (true, f.doubled.terminated) := by
  rw [flushMem, if_neg h, File.terminated, File.doubled_ptr]
  rfl

theorem InBounds.doubled (h : InBounds f) (hmem : f.mem = true) (hwr : f.wr = true) (hd : Doubles f)
    (hok : ¬(f.ptr ≥ f.end_ ∧ ¬f.grows)) :
    InBounds f.doubled ∧ Kept f f.doubled ∧ (f.ptr < f.end_ ∨ (f.grows = true ∧ f.doubled.bufsiz = 2 * f.bufsiz)) := by
  have hpl := h.ptr_le
  have hend := h.mem_end hmem
  have hpos := h.pos
  unfold File.doubled
  by_cases hfull : f.ptr ≥ f.end_
  · rw [if_pos hfull]
    have hgrows : f.grows = true := by
      by_contra hn
      exact hok ⟨hfull, hn⟩
    have hdouble := hd hmem hgrows
    have hroom := h.grows hgrows
    refine ⟨⟨?_, h.inside, ?_, hdouble, by simp [hmem], by simp [hmem], h.full, h.data_le, fun _ => ?_, by simp [hwr]⟩,
      ⟨rfl, rfl, rfl, rfl, rfl, ?_⟩, .inr ⟨hgrows, rfl⟩⟩ <;> simp only <;> omega
  · rw [if_neg hfull]
    exact ⟨h, .refl f, .inl (by omega)⟩

theorem InBounds.terminated (h : InBounds f) (hmem : f.mem = true) (hwr : f.wr = true) : InBounds f.terminated := by
  have hend := h.mem_end hmem
  unfold File.terminated
  by_cases hc : f.grows = true ∧ f.ptr < f.bufsiz
  · rw [if_pos hc]
    have hfit : f.ptr + [(0 : UInt8)].length ≤ f.end_ := by
      simp only [List.length_cons, List.length_nil]
      omega
    exact (h.store hfit).lastOp _ (.inl hwr)
  · rw [if_neg hc]
    exact h.lastOp _ (.inl hwr)

/-- A flush of a memory stream: it fails, or it doubles the buffer when it is full. -/
theorem flushMem_bounds (h : InBounds f) (hmem : f.mem = true) (hwr : f.wr = true) (hd : Doubles f) {ok : Bool}
    (hg : flushMem f = (ok, g)) :
    InBounds g ∧ Kept f g ∧ (ok = true → g.ptr = f.ptr ∧
    (f.ptr < f.end_ ∨ (f.grows = true ∧ g.bufsiz = 2 * f.bufsiz))) := by
  by_cases hfail : f.ptr ≥ f.end_ ∧ ¬f.grows
  · rw [flushMem, if_pos hfail, Prod.mk.injEq] at hg
    obtain ⟨rfl, rfl⟩ := hg
    exact ⟨h.other _ _ _ _ _ _ _ _,
      ⟨rfl, rfl, rfl, rfl, rfl, Nat.le_refl _⟩, fun hok => absurd hok (by simp)⟩
  rw [flushMem_eq hfail, Prod.mk.injEq] at hg
  obtain ⟨rfl, rfl⟩ := hg
  obtain ⟨hb, hk, hcase⟩ := h.doubled hmem hwr hd hfail
  obtain ⟨hptr, -, hsiz, hk'⟩ := f.doubled.terminated_eq
  refine ⟨hb.terminated (hk.mem.trans hmem) (hk.wr.trans hwr), hk.trans hk', fun _ => ⟨hptr.trans f.doubled_ptr, ?_⟩⟩
  rw [hsiz]
  exact hcase

theorem bufferFlush_bounds (h : InBounds f) (hd : f.wr = true → Doubles f) {ok : Bool}
    (hg : bufferFlush K f = (ok, g)) :
    InBounds g ∧ Kept f g := by
  rw [bufferFlush] at hg
  cases hwr : f.wr with
  | false =>
    simp only [hwr, Bool.false_eq_true, not_false_eq_true, if_true, Prod.mk.injEq] at hg
    rw [← hg.2]
    exact ⟨h, .refl f⟩
  | true =>
    cases hmem : f.mem with
    | true =>
      simp only [hwr, hmem, not_true_eq_false, if_false, if_true] at hg
      obtain ⟨hb, hk, -⟩ := flushMem_bounds h hmem hwr (hd hwr) hg
      exact ⟨hb, hk⟩
    | false =>
      simp only [hwr, hmem, not_true_eq_false, if_false, Bool.false_eq_true] at hg
      obtain ⟨hb, hk, -⟩ := flushFd_bounds h hmem hwr hg
      exact ⟨hb, hk⟩

theorem bufferOutput_bounds (h : InBounds f) (hd : Doubles f) {ok : Bool} (hg : bufferOutput K f = (ok, g)) :
    InBounds g ∧ Kept f g := by
  rw [bufferOutput] at hg
  split at hg
  · rw [Prod.mk.injEq] at hg
    rw [← hg.2]
    exact ⟨h, .refl f⟩
  · split at hg
    · exact bufferFlush_bounds h (fun _ => hd) hg
    · rw [Prod.mk.injEq] at hg
      rw [← hg.2]
      exact ⟨h, .refl f⟩

/-- What a successful flush of a full buffer makes free. -/
theorem bufferOutput_full (h : InBounds f) (hd : Doubles f) (hwr : f.wr = true) (hfull : f.ptr = f.end_)
    (hg : bufferOutput K f = (true, g)) :
    (f.mem = false ∧ ∃ k, K.write f.calls f.bufsiz = some k ∧ g.ptr + min k f.bufsiz = g.end_ ∧ g.end_ = f.end_ ∧
      g.bufsiz = f.bufsiz ∧ g.calls = f.calls + 1) ∨
    (f.mem = true ∧ f.grows = true ∧ g.ptr = f.ptr ∧ g.bufsiz = 2 * f.bufsiz) := by
  rw [bufferOutput, if_neg (by simp [hwr]), if_pos (.inr (.inl (by omega))), bufferFlush, if_neg (by simp [hwr])] at hg
  cases hmem : f.mem with
  | false =>
    rw [if_neg (by simp [hmem])] at hg
    have hend := h.file_end hmem
    have hsiz := h.bufsiz hmem
    have hpos := h.pos
    obtain ⟨-, -, hend', hsiz', hcase⟩ := flushFd_bounds h hmem hwr hg
    have hn : f.ptr - OVRSIZ = f.bufsiz := by omega
    obtain ⟨k, hk, hptr, hcalls⟩ := hcase rfl (by omega)
    rw [hn] at hk hptr
    exact .inl ⟨rfl, k, hk, by omega, hend', hsiz', hcalls⟩
  | true =>
    rw [if_pos (by simp [hmem])] at hg
    obtain ⟨-, -, hcase⟩ := flushMem_bounds h hmem hwr hd hg
    obtain ⟨hptr, hlt | ⟨hgrows, hsiz⟩⟩ := hcase rfl
    · omega
    · exact .inr ⟨rfl, hgrows, hptr, hsiz⟩

/-! ### Switching -/

theorem switchToWrite_bounds (h : InBounds f) (hr : f.wr = false → OVRSIZ ≤ f.end_) : InBounds (switchToWrite f) := by
  unfold switchToWrite
  by_cases hc : f.rd = true ∧ ¬f.wr = true
  · rw [if_pos hc]
    have hle := hr (by simpa using hc.2)
    exact ⟨hle, h.inside, h.pos, h.bound, h.size, h.bufsiz, h.full, fun _ _ => Nat.le_refl _, h.grows, fun _ _ => hle⟩
  · rw [if_neg hc]
    exact h

/-- A stream that `__jacl_switch_to_read` has switched has been reset; one that was reading is as it was. -/
theorem switchToRead_bounds (h : InBounds f) (hd : Doubles f)
    (hr : f.mem = true → f.wr = true → f.ptr < f.end_ → OVRSIZ ≤ f.end_) {ok : Bool} (hg : switchToRead K f = (ok, g)) :
    InBounds g ∧ (ok = true → g.wr = false ∧ (g = f ∨ g.cnt = 0)) := by
  rw [switchToRead] at hg
  cases hwr : f.wr with
  | false =>
    rw [if_neg (by simp [hwr]), Prod.mk.injEq] at hg
    obtain ⟨rfl, rfl⟩ := hg
    exact ⟨h, fun _ => ⟨hwr, .inl rfl⟩⟩
  | true =>
    rw [if_pos hwr] at hg
    rcases hu : bufferFlush K f with ⟨_ | _, u⟩
    · obtain ⟨hb, -⟩ := bufferFlush_bounds h (fun _ => hd) hu
      simp only [hu, Prod.mk.injEq] at hg
      obtain ⟨rfl, rfl⟩ := hg
      exact ⟨hb, fun hok => absurd hok (by simp)⟩
    · obtain ⟨hb, hk⟩ := bufferFlush_bounds h (fun _ => hd) hu
      simp only [hu, Prod.mk.injEq] at hg
      obtain ⟨rfl, rfl⟩ := hg
      have hle : OVRSIZ ≤ u.end_ := by
        apply hb.le_end
        intro hmem
        rw [hk.mem] at hmem
        rw [bufferFlush, if_neg (by simp [hwr]), if_pos hmem] at hu
        obtain ⟨-, -, hcase⟩ := flushMem_bounds h hmem hwr hd hu
        rcases (hcase rfl).2 with hlt | ⟨hgrows, -⟩
        · exact (hr hmem hwr hlt).trans hk.end_
        · exact (h.grows hgrows).trans hk.end_
      exact ⟨⟨hle, hb.inside, hb.pos, hb.bound, hb.size, hb.bufsiz, hb.full, fun _ _ => Nat.le_refl _, hb.grows,
        fun _ _ => hle⟩, fun _ => ⟨rfl, .inr rfl⟩⟩

/-! ### Reading -/

/-- `read` of at most `BUFSIZ` bytes fills the buffer of a file; `_cnt` of them are left behind `_ptr`. -/
theorem bufferReload_bounds (h : InBounds f) (hmem : f.mem = false) {c : Option UInt8}
    (hg : bufferReload K f = (c, g)) :
    InBounds g ∧ (c.isSome → g.lastOp = .read ∧ g.ptr + g.cnt ≤ g.end_) := by
  have hend := h.file_end hmem
  have hr : InBounds f.reset := h.reset (by omega)
  rw [bufferReload] at hg
  cases hrd : f.rd with
  | false =>
    rw [if_pos (by simp [hrd]), Prod.mk.injEq] at hg
    obtain ⟨rfl, rfl⟩ := hg
    exact ⟨h, by simp⟩
  | true =>
    rw [if_neg (by simp [hrd])] at hg
    cases hk : K.read f.calls (min BUFSIZ (f.file.length - f.pos)) with
    | none =>
      simp only [File.reset, hk, Prod.mk.injEq] at hg
      obtain ⟨rfl, rfl⟩ := hg
      exact ⟨hr.other _ _ _ _ _ _ _ _, by simp⟩
    | some k =>
      obtain ⟨got, hgot⟩ : ∃ got, got = (f.file.drop f.pos).take (min k BUFSIZ) := ⟨_, rfl⟩
      have hlen : got.length ≤ BUFSIZ := by
        rw [hgot, List.length_take]
        omega
      have hs : InBounds (f.reset.store f.reset.ptr got) := hr.store (by simp only [File.reset]; omega)
      have hfile : f.reset.file.drop f.reset.pos = f.file.drop f.pos := rfl
      have hcalls : K.read f.reset.calls (min BUFSIZ (f.reset.file.length - f.reset.pos)) = some k := hk
      simp only [hcalls, hfile, ← hgot] at hg
      split at hg
      · rw [Prod.mk.injEq] at hg
        obtain ⟨rfl, rfl⟩ := hg
        exact ⟨hs.other _ _ _ _ _ _ _ _, by simp⟩
      · rename_i hne
        rw [Prod.mk.injEq] at hg
        obtain ⟨rfl, rfl⟩ := hg
        refine ⟨⟨?_, hs.inside, hs.pos, hs.bound, hs.size, hs.bufsiz, hs.full, fun _ _ => Nat.le_add_right _ _,
          hs.grows, by simp⟩, fun _ => ⟨rfl, ?_⟩⟩ <;> simp only [File.reset, File.store] <;> omega

/-- Where a byte is given although `_cnt` is 0, the bytes that `_cnt` then counts are in the buffer. -/
theorem bufferInput_bounds (h : InBounds f) (hr : f.rd = true → f.lastOp = .write → (f.wr = true → Doubles f) ∧
    OVRSIZ ≤ f.end_)
    (hcnt : f.mem = false → f.lastOp ≠ .write → 0 < f.cnt → f.ptr < f.end_) {c : Option UInt8}
    (hg : bufferInput K f = (c, g)) :
    InBounds g ∧ (f.cnt = 0 → c.isSome → g.lastOp = .read ∧ g.ptr + g.cnt ≤ g.end_) := by
  rw [bufferInput] at hg
  cases hrd : f.rd with
  | false =>
    rw [if_pos (by simp [hrd]), Prod.mk.injEq] at hg
    obtain ⟨rfl, rfl⟩ := hg
    exact ⟨h, by simp⟩
  | true =>
    rw [if_neg (by simp [hrd])] at hg
    -- the stream after a pending flush
    obtain ⟨u, hu, hub, hucnt, huptr⟩ : ∃ u, u = (if f.lastOp = .write then (bufferFlush K f).2.reset else f) ∧
      InBounds u ∧
        (f.cnt = 0 → u.cnt = 0) ∧ (u.mem = false → 0 < u.cnt → u.ptr < u.end_) := by
      refine ⟨_, rfl, ?_⟩
      by_cases hop : f.lastOp = .write
      · rw [if_pos hop]
        obtain ⟨hd, hle⟩ := hr hrd hop
        obtain ⟨hb, hk⟩ := bufferFlush_bounds (K := K) h hd rfl
        exact ⟨hb.reset (hle.trans hk.end_), fun _ => rfl, fun _ hpos => absurd hpos (by simp [File.reset])⟩
      · rw [if_neg hop]
        exact ⟨h, id, fun hmem hpos => hcnt hmem hop hpos⟩
    simp only [← hu] at hg
    cases hmem : u.mem with
    | true =>
      rw [if_pos hmem] at hg
      split at hg
      · rw [Prod.mk.injEq] at hg
        obtain ⟨rfl, rfl⟩ := hg
        exact ⟨hub.other _ _ _ _ _ _ _ _, by simp⟩
      · rw [Prod.mk.injEq] at hg
        obtain ⟨rfl, rfl⟩ := hg
        rename_i hlt
        have hptr : u.ptr + 1 ≤ u.end_ := by omega
        refine ⟨(hub.advance (Nat.le_succ _) hptr).lastOp _ (.inr (by simp)), ?_⟩
        intro h0 _
        refine ⟨rfl, ?_⟩
        simp only [hucnt h0]
        exact hptr
    | false =>
      rw [if_neg (by simp [hmem])] at hg
      by_cases hpos : u.cnt > 0
      · rw [if_pos hpos, Prod.mk.injEq] at hg
        obtain ⟨rfl, rfl⟩ := hg
        refine ⟨(hub.advance (Nat.le_succ _) (huptr hmem hpos)).other _ _ _ _ _ _ _ _, ?_⟩
        intro h0
        have := hucnt h0
        omega
      · rw [if_neg hpos] at hg
        obtain ⟨hb, hsome⟩ := bufferReload_bounds hub hmem hg
        exact ⟨hb, fun _ => hsome⟩

theorem fgetc_bounds (h : InBounds f) (hd : Doubles f) (hr : f.mem = true → f.wr = true → f.ptr < f.end_ →
    OVRSIZ ≤ f.end_)
    (hcnt : f.mem = false → f.wr = false → f.lastOp ≠ .write → 0 < f.cnt → f.ptr < f.end_) :
    InBounds (fgetc K f).2 := by
  rw [fgetc]
  rcases hu : switchToRead K f with ⟨_ | _, u⟩
  · exact (switchToRead_bounds h hd hr hu).1
  · obtain ⟨hb, hcase⟩ := switchToRead_bounds h hd hr hu
    obtain ⟨hwr, heq⟩ := hcase rfl
    refine (bufferInput_bounds (c := (bufferInput K u).1) hb ?_ ?_ rfl).1
    · intro _ hop
      exact ⟨fun hw => absurd hw (by simp [hwr]), hb.switched hwr hop⟩
    · intro hmem hop hpos
      rcases heq with rfl | h0
      · exact hcnt hmem hwr hop hpos
      · omega

theorem ungetc_bounds (h : InBounds f) (hd : Doubles f) (hr : f.mem = true → f.wr = true → f.ptr < f.end_ →
    OVRSIZ ≤ f.end_)
    (c : Int) : InBounds (ungetc K c f).2 := by
  rw [ungetc]
  by_cases hc : c = -1
  · rw [if_pos hc]
    exact h
  rw [if_neg hc]
  rcases hu : switchToRead K f with ⟨_ | _, u⟩
  · exact (switchToRead_bounds h hd hr hu).1
  · obtain ⟨hb, hcase⟩ := switchToRead_bounds h hd hr hu
    obtain ⟨hwr, -⟩ := hcase rfl
    dsimp only
    by_cases h0 : u.ptr = 0
    · rw [if_pos h0]
      exact hb
    · rw [if_neg h0]
      have hle := hb.ptr_le
      have hs := hb.store (show u.ptr - 1 + [toByte c].length ≤ u.end_ by simp; omega)
      exact ⟨(Nat.sub_le _ _).trans hle, hs.inside, hs.pos, hs.bound, hs.size, hs.bufsiz, hs.full,
        fun _ hw => absurd hw (by simp [File.store, hwr]), hs.grows, hs.switched⟩

theorem freadLoop_bounds {fuel left : Nat} (h : InBounds f) (hcnt : f.ptr + min f.cnt left ≤ f.end_)
    (hr : f.rd = true → f.lastOp = .write → f.cnt < left → Doubles f ∧ OVRSIZ ≤ f.end_) :
    InBounds (freadLoop K fuel left f).2 := by
  induction fuel generalizing f left with
  | zero => exact h
  | succ fuel ih =>
    rw [freadLoop]
    by_cases hleft : left = 0
    · rw [if_pos hleft]
      exact h
    rw [if_neg hleft]
    by_cases hpos : f.cnt > 0
    · rw [if_pos hpos]
      -- after this turn nothing is left to copy, or `_cnt` is 0
      refine ih (f := { f with ptr := f.ptr + min f.cnt left, cnt := f.cnt - min f.cnt left })
        ((h.advance (Nat.le_add_right _ _) hcnt).other _ _ _ _ _ _ _ _) ?_ ?_
      · simp only
        omega
      · intro hrd hop hlt
        simp only at hlt
        exact hr hrd hop (by omega)
    · rw [if_neg hpos]
      have h0 : f.cnt = 0 := by omega
      rcases hu : bufferInput K f with ⟨_ | c, u⟩
      · exact (bufferInput_bounds h (fun hrd hop => ⟨fun _ => (hr hrd hop (by omega)).1, (hr hrd hop (by omega)).2⟩)
          (fun _ _ hp => absurd hp hpos) hu).1
      · obtain ⟨hb, hsome⟩ := bufferInput_bounds h (fun hrd hop => ⟨fun _ => (hr hrd hop (by omega)).1,
          (hr hrd hop (by omega)).2⟩)
          (fun _ _ hp => absurd hp hpos) hu
        obtain ⟨hop, hle⟩ := hsome h0 rfl
        exact ih hb (by omega) (fun _ hw => absurd hw (by simp [hop]))

theorem fread_bounds (h : InBounds f) {size nmemb : Nat} (hcnt : f.ptr + min f.cnt (total size nmemb) ≤ f.end_)
    (hr : f.rd = true → f.lastOp = .write → f.cnt < total size nmemb → Doubles f ∧ OVRSIZ ≤ f.end_) :
    InBounds (fread K size nmemb f).2 := by
  rw [fread]
  split
  · exact h
  · exact freadLoop_bounds h hcnt hr

/-! ### Writing -/

/-- The stream that `fputc` stores into. -/
def File.readied (f : File) : File := if (switchToWrite f).lastOp = .read then (switchToWrite f).reset
    else switchToWrite f

theorem readied_bounds (h : InBounds f) (hd : Doubles f) (hr : f.wr = false ∨ f.lastOp = .read → OVRSIZ ≤ f.end_)
    (hwr : (switchToWrite f).wr = true) :
    InBounds f.readied ∧ Doubles f.readied ∧ f.readied.wr = true ∧
    ((f.lastOp ≠ .read ∧ f.readied = f) ∨ f.readied.ptr = OVRSIZ) := by
  have hs := switchToWrite_bounds h (fun hw => hr (.inl hw))
  have hsd : Doubles (switchToWrite f) := by
    unfold switchToWrite
    split
    · exact hd
    · exact hd
  unfold File.readied
  by_cases hop : (switchToWrite f).lastOp = .read
  · rw [if_pos hop]
    refine ⟨hs.reset ?_, hsd, hwr, .inr rfl⟩
    unfold switchToWrite at hop ⊢
    split
    · exact hr (.inl (by simp_all))
    · rename_i hc
      rw [if_neg hc] at hop
      exact hr (.inr hop)
  · rw [if_neg hop]
    refine ⟨hs, hsd, hwr, ?_⟩
    unfold switchToWrite at hop ⊢
    split
    · exact .inr rfl
    · rename_i hc
      rw [if_neg hc] at hop
      exact .inl ⟨hop, rfl⟩

theorem InBounds.doubles_line (h : InBounds f) (hline : f.bufmode = .line) : Doubles f := by
  intro hmem
  rw [h.full hmem] at hline
  exact absurd hline (by simp)

/-- A full buffer that has been flushed with success has room for a byte. -/
theorem bufferOutput_room (h : InBounds f) (hd : Doubles f) (hwr : f.wr = true) (hfull : f.ptr = f.end_)
    (hw : f.mem = false → K.write f.calls f.bufsiz ≠ some 0) (hg : bufferOutput K f = (true, g)) : g.ptr < g.end_ := by
  have hpos := h.pos
  obtain ⟨hb, hk⟩ := bufferOutput_bounds h hd hg
  rcases bufferOutput_full h hd hwr hfull hg with ⟨hmem, k, hk', hptr, -⟩ | ⟨hmem, -, hptr, hsiz⟩
  · have hk0 : k ≠ 0 := by
      rintro rfl
      exact hw hmem hk'
    omega
  · have hend := h.mem_end hmem
    have hend' := hb.mem_end (hk.mem.trans hmem)
    omega

theorem fputc_bounds (h : InBounds f) (hd : Doubles f) (hr : f.wr = false ∨ f.lastOp = .read → OVRSIZ ≤ f.end_)
    (hw : f.mem = false → f.wr = true → f.lastOp ≠ .read → f.bufmode ≠ .unbuffered → f.ptr = f.end_ →
      K.write f.calls f.bufsiz ≠ some 0) (c : Int) : InBounds (fputc K c f).2 := by
  have hdef : (if (switchToWrite f).lastOp = .read then (switchToWrite f).reset else switchToWrite f) = f.readied := rfl
  simp only [fputc, hdef]
  by_cases hwr : (switchToWrite f).wr = true
  swap
  · rw [if_pos hwr]
    exact switchToWrite_bounds h (fun hf => hr (.inl hf))
  rw [if_neg (not_not.2 hwr)]
  obtain ⟨hb, hbd, hbwr, hcase⟩ := readied_bounds h hd hr hwr
  by_cases hun : f.readied.bufmode = .unbuffered ∧ ¬f.readied.mem
  · rw [if_pos hun]
    simp only [sysWrite]
    cases K.write f.readied.calls 1 with
    | none => exact hb.other _ _ _ _ _ _ _ _
    | some k => exact (hb.other _ _ _ _ _ _ _ _).lastOp _ (.inl hbwr)
  rw [if_neg hun]
  rcases hu : (if f.readied.ptr ≥ f.readied.end_ then bufferOutput K f.readied else (true, f.readied)) with ⟨_ | _, u⟩
  · split at hu
    · exact (bufferOutput_bounds hb hbd hu).1
    · simp at hu
  -- there is room for the byte
  obtain ⟨hub, huwr, hlt⟩ : InBounds u ∧ u.wr = true ∧ u.ptr < u.end_ := by
    split at hu
    · rename_i hfull
      have hfull' : f.readied.ptr = f.readied.end_ := Nat.le_antisymm hb.ptr_le hfull
      obtain ⟨hub, huk⟩ := bufferOutput_bounds hb hbd hu
      refine ⟨hub, huk.wr.trans hbwr, bufferOutput_room hb hbd hbwr hfull' ?_ hu⟩
      intro hmem
      rcases hcase with ⟨hop, heq⟩ | hptr
      · rw [heq] at hmem hbwr hfull' hun ⊢
        exact hw hmem hbwr hop (fun hm => hun ⟨hm, by simp [hmem]⟩) hfull'
      · have hend := hb.file_end hmem
        simp only [BUFSIZ] at hend
        omega
    · rename_i hlt
      rw [Prod.mk.injEq] at hu
      obtain ⟨-, rfl⟩ := hu
      exact ⟨hb, hbwr, by omega⟩
  dsimp only
  have hput : InBounds { u.put [toByte c] with lastOp := .write } :=
    (hub.put (show u.ptr + [toByte c].length ≤ u.end_ from hlt)).lastOp _ (.inl huwr)
  by_cases hline : (u.put [toByte c]).bufmode = .line ∧ c = 10
  · rw [if_pos hline]
    rcases hv : bufferOutput K { u.put [toByte c] with lastOp := .write } with ⟨_ | _, v⟩
    · exact (bufferOutput_bounds hput (hput.doubles_line hline.1) hv).1
    · exact (bufferOutput_bounds hput (hput.doubles_line hline.1) hv).1
  · rw [if_neg hline]
    exact hput

/-- There is room for `n` bytes, or `fwrite` makes room for them: a full memory buffer is not flushed, or its double
is enough; and whenever `fwrite` finds the buffer of a file full, `write` fails, or accepts all of it, or as much as
is still to be copied. -/
def Room (K : Kernel) (f : File) (n : Nat) : Prop :=
  n ≤ f.end_ - f.ptr ∨
    (f.wr = true ∧ Doubles f ∧ (f.mem = true → f.grows = true → n ≤ f.end_ - f.ptr + f.bufsiz) ∧
      (f.mem = false → ∀ i, f.end_ - f.ptr + i * f.bufsiz < n → (∀ j < i, K.write (f.calls + j) f.bufsiz ≠ none) →
        ∀ k, K.write (f.calls + i) f.bufsiz = some k → min f.bufsiz (n - (f.end_ - f.ptr + i * f.bufsiz)) ≤ k))

/-- The stream after `m` bytes have been copied into its buffer. -/
structure Copied (f : File) (m : Nat) (g : File) : Prop where
  ptr : g.ptr = f.ptr + m
  end_ : g.end_ = f.end_
  bufsiz : g.bufsiz = f.bufsiz
  calls : g.calls = f.calls
  kept : Kept f g

/-- Bytes that fit are copied, and the condition holds for the rest. -/
theorem Room.copied {n m : Nat} (hroom : Room K f n) (hm : m ≤ f.end_ - f.ptr) (hg : Copied f m g) :
    Room K g (n - m) := by
  have hptr := hg.ptr
  have hend := hg.end_
  rcases hroom with hle | ⟨hwr, hd, hgrow, hwrite⟩
  · refine .inl ?_
    omega
  · refine .inr ⟨hg.kept.wr.trans hwr, ?_, ?_, ?_⟩
    · intro hmem hgrows
      rw [hg.bufsiz]
      exact hd (hg.kept.mem ▸ hmem) (hg.kept.grows ▸ hgrows)
    · intro hmem hgrows
      have := hgrow (hg.kept.mem ▸ hmem) (hg.kept.grows ▸ hgrows)
      have := hg.bufsiz
      omega
    · intro hmem i hi hnone k hk
      rw [hptr, hend, hg.bufsiz] at hi ⊢
      rw [hg.bufsiz, hg.calls] at hk hnone
      have := hwrite (hg.kept.mem ▸ hmem) i (by omega) hnone k hk
      omega

/-- A full buffer of a file has been flushed for bytes that then fit: the condition holds for the rest. -/
theorem Room.flushed {n k : Nat} (hroom : Room K f n) (hn : 0 < n) (hfull : f.ptr = f.end_) (hmem : f.mem = false)
    (hk : K.write f.calls f.bufsiz = some k) (hptr : g.ptr + min k f.bufsiz = g.end_)
    (hsiz : g.bufsiz = f.bufsiz) (hcalls : g.calls = f.calls + 1) (hkept : Kept f g) :
    g.ptr + min n g.bufsiz ≤ g.end_ ∧ ∀ u, Copied g (min n g.bufsiz) u → Room K u (n - min n g.bufsiz) := by
  obtain ⟨hwr, -, -, hwrite⟩ : _ ∧ _ ∧ _ ∧ _ := hroom.resolve_left (by omega)
  have hkn := hwrite hmem 0 (by omega) (by simp) k (by rw [Nat.add_zero]; exact hk)
  rw [Nat.zero_mul, Nat.add_zero] at hkn
  refine ⟨by omega, fun u hu => ?_⟩
  have humem : u.mem = false := hu.kept.mem.trans (hkept.mem.trans hmem)
  refine .inr ⟨hu.kept.wr.trans (hkept.wr.trans hwr), ?_, ?_, ?_⟩
  · intro hm
    rw [humem] at hm
    exact absurd hm (by simp)
  · intro hm
    rw [humem] at hm
    exact absurd hm (by simp)
  · -- bytes are left only if the whole buffer has been flushed and filled again
    intro _ i hi hnone k' hk'
    have hmul : (i + 1) * f.bufsiz = i * f.bufsiz + f.bufsiz := Nat.succ_mul _ _
    rw [hu.ptr, hu.end_, hu.bufsiz, hsiz] at hi ⊢
    rw [hu.bufsiz, hu.calls, hcalls, hsiz, Nat.add_assoc, Nat.add_comm 1 i] at hk'
    have hbefore : ∀ j < i + 1, K.write (f.calls + j) f.bufsiz ≠ none := by
      rintro (_ | j) hj
      · rw [Nat.add_zero, hk]
        simp
      · have := hnone j (by omega)
        rwa [hu.bufsiz, hu.calls, hcalls, hsiz, Nat.add_assoc, Nat.add_comm 1 j] at this
    have := hwrite hmem (i + 1) (by omega) hbefore k' hk'
    omega

/-- One turn of the loop of `fwrite`: the bytes fit, and the condition holds for the rest. -/
theorem room_turn (h : InBounds f) {n : Nat} (hn : 0 < n) (hroom : Room K f n)
    (hg : (if ptrDiff f.end_ f.ptr = 0 then bufferOutput K f else (true, f)) = (true, g)) {m : Nat}
    (hm : m = min n (if ptrDiff f.end_ f.ptr = 0 then g.bufsiz else ptrDiff f.end_ f.ptr)) :
    InBounds g ∧ g.ptr + m ≤ g.end_ ∧ ∀ u, Copied g m u → Room K u (n - m) := by
  have hpl := h.ptr_le
  have hdiff : ptrDiff f.end_ f.ptr = f.end_ - f.ptr := ptrDiff_of_le hpl h.bound
  rw [hdiff] at hg hm
  by_cases hfull : f.end_ - f.ptr = 0
  · rw [if_pos hfull] at hg hm
    subst hm
    have heq : f.ptr = f.end_ := by omega
    obtain ⟨hwr, hd, hgrow, -⟩ : _ ∧ _ ∧ _ ∧ _ := hroom.resolve_left (by omega)
    obtain ⟨hb, hk⟩ := bufferOutput_bounds h hd hg
    rcases bufferOutput_full h hd hwr heq hg with ⟨hmem, k, hk', hptr, -, hsiz, hcalls⟩ | ⟨hmem, hgrows, hptr, hsiz⟩
    · exact ⟨hb, hroom.flushed hn heq hmem hk' hptr hsiz hcalls hk⟩
    · have hend := h.mem_end hmem
      have hend' := hb.mem_end (hk.mem.trans hmem)
      have hle := hgrow hmem hgrows
      refine ⟨hb, by omega, fun u hu => .inl ?_⟩
      rw [hu.ptr, hu.end_]
      omega
  · rw [if_neg hfull] at hg hm
    rw [Prod.mk.injEq] at hg
    obtain ⟨-, rfl⟩ := hg
    exact ⟨h, by omega, fun u hu => hroom.copied (by omega) hu⟩

theorem fwriteLoop_bounds {fuel : Nat} (data : List UInt8) (newline : Bool) (h : InBounds f)
    (hroom : Room K f data.length) :
    InBounds (fwriteLoop K fuel data newline f).2.2 := by
  induction fuel generalizing f data newline with
  | zero => exact h
  | succ fuel ih =>
    rw [fwriteLoop]
    by_cases hdata : data.length = 0
    · rw [if_pos hdata]
      exact h
    rw [if_neg hdata]
    dsimp only
    rcases hu : (if ptrDiff f.end_ f.ptr = 0 then bufferOutput K f else (true, f)) with ⟨_ | _, u⟩
    · -- a flush that fails
      have hdiff : ptrDiff f.end_ f.ptr = f.end_ - f.ptr := ptrDiff_of_le h.ptr_le h.bound
      rw [hdiff] at hu
      split at hu
      · obtain ⟨-, hd, -⟩ : _ ∧ _ ∧ _ := hroom.resolve_left (by omega)
        exact (bufferOutput_bounds h hd hu).1
      · simp at hu
    · dsimp only
      obtain ⟨m, hm⟩ : ∃ m, m = min data.length (if ptrDiff f.end_ f.ptr = 0 then u.bufsiz
        else ptrDiff f.end_ f.ptr) := ⟨_, rfl⟩
      obtain ⟨hb, hfit, hnext⟩ := room_turn h (Nat.pos_of_ne_zero hdata) hroom hu hm
      have hlen : (data.take m).length = m := by
        rw [List.length_take, hm]
        omega
      rw [← hm]
      refine ih (f := u.put (data.take m)) (data.drop m) _ (hb.put (by rw [hlen]; exact hfit)) ?_
      rw [List.length_drop]
      exact hnext _ ⟨by rw [File.put, hlen], rfl, rfl, rfl, rfl, rfl, rfl, rfl, rfl, Nat.le_refl _⟩

theorem fwrite_bounds (h : InBounds f) {data : List UInt8} {size nmemb : Nat} (hlen : data.length = size * nmemb)
    (hroom : f.mem = true ∨ (f.bufmode ≠ .unbuffered ∧ ¬(f.ptr = 0 ∧ total size nmemb ≥ f.bufsiz)) →
    Room K f (total size nmemb)) :
    InBounds (fwrite K data size nmemb f).2 := by
  rw [fwrite]
  split
  · exact h
  dsimp only
  split
  · -- the data goes to `write` at once
    simp only [sysWrite]
    cases K.write f.calls (total size nmemb) with
    | none => exact h.other _ _ _ _ _ _ _ _
    | some k => exact h.other _ _ _ _ _ _ _ _
  · rename_i hbuffer
    have htake : (data.take (total size nmemb)).length = total size nmemb := by
      rw [List.length_take, hlen]
      exact Nat.min_eq_left (Nat.mod_le _ _)
    have hroom' : Room K f (data.take (total size nmemb)).length := by
      rw [htake]
      apply hroom
      cases hm : f.mem with
      | true => exact .inl rfl
      | false => exact .inr (not_or.1 fun hc => hbuffer ⟨by simp [hm], hc⟩)
    have hb : InBounds (fwriteLoop K (total size nmemb) (data.take (total size nmemb)) false f).2.2 :=
      fwriteLoop_bounds _ _ h hroom'
    dsimp only
    split
    · rename_i hline
      exact (bufferOutput_bounds hb (hb.doubles_line hline.1) rfl).1
    · exact hb

theorem fseek_bounds (h : InBounds f) (hd : Doubles f) (offset : Int) (whence : Whence) :
    InBounds (fseek K offset whence f).2 := by
  rw [fseek]
  rcases hu : (if f.wr then bufferFlush K f else (true, f)) with ⟨ok, u⟩
  have hb : InBounds u := by
    split at hu
    · exact (bufferFlush_bounds h (fun _ => hd) hu).1
    · rw [Prod.mk.injEq] at hu
      rw [← hu.2]
      exact h
  cases ok with
  | false => exact hb
  | true =>
    dsimp only
    by_cases hmem : u.mem = true
    · rw [if_pos hmem]
      split
      · exact hb
      · rename_i hpos
        have hend := hb.mem_end hmem
        refine ⟨?_, hb.inside, hb.pos, hb.bound, hb.size, hb.bufsiz, hb.full, by simp [hmem], hb.grows, by simp⟩
        simp only
        omega
    · rw [if_neg hmem]
      generalize lseek u (if whence = .cur ∧ u.rd ∧ u.cnt > 0 then offset - u.cnt else offset) whence = result
      split
      · exact hb
      · refine ⟨?_, hb.inside, hb.pos, ?_, by simp [File.reset, hmem], hb.bufsiz, hb.full,
          fun _ _ => Nat.le_refl _, ?_, by simp⟩
        · simp [File.reset, OVRBUF, OVRSIZ]
        · simp [OVRBUF, BUFSIZ, OVRSIZ]
        · intro _
          simp [OVRBUF, OVRSIZ]

/-! ### Runs -/

/-- The calls that keep to the buffer.  The first part of the condition on `fwrite` is what its caller promises. -/
def BoundsOk (K : Kernel) (f : File) : Act → Prop
  | .fputc _ =>
    Doubles f ∧ (f.wr = false ∨ f.lastOp = .read → OVRSIZ ≤ f.end_) ∧
      (f.mem = false → f.wr = true → f.lastOp ≠ .read → f.bufmode ≠ .unbuffered → f.ptr = f.end_ →
        K.write f.calls f.bufsiz ≠ some 0)
  | .fwrite data size nmemb =>
    data.length = size * nmemb ∧
      (f.mem = true ∨ (f.bufmode ≠ .unbuffered ∧ ¬(f.ptr = 0 ∧ total size nmemb ≥ f.bufsiz)) →
      Room K f (total size nmemb))
  | .fgetc =>
    Doubles f ∧ (f.mem = true → f.wr = true → f.ptr < f.end_ → OVRSIZ ≤ f.end_) ∧
      (f.mem = false → f.wr = false → f.lastOp ≠ .write → 0 < f.cnt → f.ptr < f.end_)
  | .ungetc _ => Doubles f ∧ (f.mem = true → f.wr = true → f.ptr < f.end_ → OVRSIZ ≤ f.end_)
  | .fread size nmemb =>
    f.ptr + min f.cnt (total size nmemb) ≤ f.end_ ∧
      (f.rd = true → f.lastOp = .write → f.cnt < total size nmemb → Doubles f ∧ OVRSIZ ≤ f.end_)
  | .fseek _ _ | .fflush => Doubles f
  | .ftell => True
  | .setvbuf _ _ _ _ | .fclose _ _ => False

theorem step_bounds (h : InBounds f) {act : Act} (hok : BoundsOk K f act) : InBounds (step K f act).2 := by
  cases act with
  | fputc c => exact fputc_bounds h hok.1 hok.2.1 hok.2.2 c
  | fwrite data size nmemb => exact fwrite_bounds h hok.1 hok.2
  | fgetc => exact fgetc_bounds h hok.1 hok.2.1 hok.2.2
  | fread size nmemb => exact fread_bounds h hok.1 hok.2
  | ungetc c => exact ungetc_bounds h hok.1 hok.2 c
  | fseek offset whence => exact fseek_bounds h hok offset whence
  | ftell => exact h
  | fflush =>
    change InBounds (fflush K f).2
    rw [fflush]
    split
    · exact (bufferFlush_bounds h (fun _ => hok) rfl).1
    · exact h
  | setvbuf buf memory mode size => exact hok.elim
  | fclose fsync close => exact hok.elim

theorem run_bounds {acts : List Act} (h : InBounds f) (hok : Machine.Guarded (step K) (BoundsOk K) f acts) :
    InBounds (Machine.run (step K) f acts) :=
  Machine.guarded_invariant (I := InBounds) (fun _ _ hs ha => step_bounds hs ha) h hok

/-- The streams that can be opened. -/
inductive Opened : File → Prop
  | file (rd wr : Bool) (mode : BufMode) (memory : Nat → UInt8) (content : List UInt8) :
    Opened (streamAlloc rd wr mode memory content)
  | fmemopen (rd wr append : Bool) (memory : Nat → UInt8) (size : Nat) (pos : 0 < size) (bound : size < 2 ^ 64) :
    Opened (fmemopen rd wr append memory size)
  | openMemstream : Opened openMemstream

theorem inBounds_of_opened (h : Opened f) : InBounds f := by
  cases h with
  | file rd wr mode memory content =>
    refine ⟨?_, rfl, ?_, ?_, rfl, fun _ => rfl, ?_, fun _ _ => Nat.le_refl _, ?_, ?_⟩ <;>
      simp [streamAlloc, OVRBUF, BUFSIZ, OVRSIZ]
  | fmemopen rd wr append memory size pos bound =>
    refine ⟨?_, rfl, pos, bound, rfl, ?_, fun _ => rfl, ?_, ?_, ?_⟩
    · simp only [fmemopen]
      split
      · cases hidx : (List.range size).findIdx? fun i => memory i = 0 with
        | none => exact Nat.le_refl _
        | some i =>
          have := List.findIdx?_eq_some_iff_getElem.1 hidx
          obtain ⟨hi, -⟩ := this
          rw [List.length_range] at hi
          exact Nat.le_of_lt hi
      · exact Nat.zero_le _
    · simp [fmemopen]
    · simp [fmemopen]
    · simp [fmemopen, streamAlloc]
    · simp [fmemopen, streamAlloc]
  | openMemstream =>
    refine ⟨?_, rfl, ?_, ?_, rfl, ?_, fun _ => rfl, ?_, ?_, ?_⟩ <;> simp [openMemstream, streamAlloc, BUFSIZ, OVRSIZ]

/-- In every run of calls on a stream that all meet `BoundsOk`, `_ptr` is at most `_end` and no byte has been stored
at `_end` or beyond. -/
theorem buffer_bounds (K : Kernel) (f : File) (hf : Opened f) (acts : List Act)
    (hok : Machine.Guarded (step K) (BoundsOk K) f acts) :
    (Machine.run (step K) f acts).ptr ≤ (Machine.run (step K) f acts).end_ ∧
      (Machine.run (step K) f acts).outside = false :=
  ⟨(run_bounds (inBounds_of_opened hf) hok).ptr_le, (run_bounds (inBounds_of_opened hf) hok).inside⟩

/-- A buffer of 64 bytes that is written, read from the start and pushed back to. -/
def boundsDemo : List Act := [.fputc 97, .fwrite [98, 99] 1 2, .fseek 0 .set, .fread 1 2, .ungetc 98, .fgetc]

theorem buffer_bounds_memory :
    (Machine.run (step wholeKernel) (fmemopen true true false (fun _ => 0) 64) boundsDemo).ptr ≤
      (Machine.run (step wholeKernel) (fmemopen true true false (fun _ => 0) 64) boundsDemo).end_ ∧
    (Machine.run (step wholeKernel) (fmemopen true true false (fun _ => 0) 64) boundsDemo).outside = false := by
  have hd : ∀ f : File, f.grows = false → Doubles f := fun f hf _ hg => absurd hg (by simp [hf])
  refine buffer_bounds wholeKernel _ (.fmemopen true true false (fun _ => 0) 64 (by decide) (by decide)) boundsDemo ?_
  exact ⟨⟨hd _ rfl, by decide, by decide⟩, ⟨rfl, fun _ => .inl (by decide)⟩, hd _ (by decide),
    ⟨by decide, fun _ hop => absurd hop (by decide)⟩, ⟨hd _ (by decide), by decide⟩,
    ⟨hd _ (by decide), by decide, by decide⟩, trivial⟩

/-- `fwrite` after a short `write`, `fwrite` to a stream that grows, and the switch to reading of a small buffer. -/
theorem buffer_bounds_broken :
    (let f := Machine.run (step byteKernel) (streamAlloc false true .full (fun _ => 0) [])
      [.fwrite (List.replicate 1024 0) 1 1024, .fwrite [0, 0] 1 2]
    f.ptr = 1057 ∧ f.end_ = 1056 ∧ f.outside = true) ∧
    (let f := Machine.run (step byteKernel) openMemstream [.fwrite (List.replicate 2049 0) 1 2049]
    f.ptr = 2049 ∧ f.end_ = 2048 ∧ f.outside = true) ∧
    (let f := Machine.run (step byteKernel) (fmemopen true true false (fun _ => 0) 8) [.fputc 97, .fgetc]
    f.ptr = 32 ∧ f.end_ = 8) := by
  refine ⟨?_, ?_, ?_⟩ <;> decide +kernel

end JACLibc.Stdio
