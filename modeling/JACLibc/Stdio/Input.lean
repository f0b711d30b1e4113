import JACLibc.Stdio.Stream

/-!
# Reading and pushing back

The abstract machine of an input stream has the bytes that are pushed back, last one first, and the offset of the next
byte of the file.  `Reads` relates it to a stream that only reads: the unread bytes of the buffer are those pushed
back, then those of the file up to the position of the descriptor, and what is in front of `_ptr` leaves room for
`OVRSIZ` pushed-back bytes.
-/

namespace JACLibc.Stdio

variable {f : File} {off n m : Nat} {data : List UInt8}

/-! ### The abstract machine -/

/-- A stack of pushed-back bytes on top of a file that has been read up to `next`. -/
structure Reader where
  stack : List UInt8
  next : Nat

namespace Reader

variable (file : List UInt8)

/-- The next byte: from the stack, then from the file. -/
def get (a : Reader) : Option UInt8 × Reader :=
  match a.stack with
  | c :: s => (some c, { a with stack := s })
  | [] =>
    match file.drop a.next with
    | c :: _ => (some c, { a with next := a.next + 1 })
    | [] => (none, a)

/-- Up to `n` bytes, one after the other. -/
def read : Nat → Reader → List UInt8 × Reader
  | 0, a => ([], a)
  | n + 1, a =>
    match a.get file with
    | (none, a) => ([], a)
    | (some c, a) => (c :: (read n a).1, (read n a).2)

variable {file}

theorem read_succ_some {a b : Reader} {c : UInt8} (h : a.get file = (some c, b)) :
    a.read file (n + 1) = (c :: (b.read file n).1, (b.read file n).2) := by rw [read, h]

theorem read_succ_none {a b : Reader} (h : a.get file = (none, b)) : a.read file (n + 1) = ([], b) := by rw [read, h]

/-- A read that gets all its bytes can be cut in two. -/
theorem read_add {a b : Reader} (h : a.read file m = (data, b)) (hl : data.length = m) :
    a.read file (m + n) = (data ++ (b.read file n).1, (b.read file n).2) := by
  induction m generalizing a data with
  | zero =>
    obtain ⟨rfl, rfl⟩ : [] = data ∧ a = b := by simpa [read] using h
    simp
  | succ m ih =>
    obtain ⟨r, a', hget⟩ : ∃ r a', a.get file = (r, a') := ⟨_, _, rfl⟩
    cases r with
    | none =>
      rw [read_succ_none hget, Prod.mk.injEq] at h
      rw [← h.1] at hl
      simp at hl
    | some c =>
      rw [read_succ_some hget, Prod.mk.injEq] at h
      obtain ⟨rfl, rfl⟩ := h
      rw [Nat.add_right_comm, read_succ_some hget, ih rfl (by simpa using hl), List.cons_append]

end Reader

/-! ### A stream that reads -/

/-- `read` gives at least one byte where there is one. -/
def Kernel.Reads (K : Kernel) : Prop := ∀ t n, 0 < n → ∃ k, K.read t n = some k ∧ 0 < k

theorem Kernel.Reads.zero_or {K : Kernel} (hK : K.Reads) (t n : Nat) :
    n = 0 ∨ ∃ k, K.read t n = some k ∧ 0 < k := by
  rcases Nat.eq_zero_or_pos n with h | h
  · exact .inl h
  · exact .inr (hK t n h)

/-- The stream stands where the abstract machine does. -/
structure Reads (f : File) (a : Reader) : Prop where
  rd : f.rd = true
  wr : f.wr = false
  mem : f.mem = false
  lastOp : f.lastOp ≠ .write
  next_le : a.next ≤ f.pos
  cnt : f.cnt = a.stack.length + (f.pos - a.next)
  unread : f.bytes f.ptr f.cnt = a.stack ++ (f.file.drop a.next).take (f.pos - a.next)
  room : OVRSIZ ≤ f.ptr + a.stack.length

variable {K : Kernel} {a : Reader}

/-- An unread byte of the buffer is the next one of the abstract machine. -/
theorem Reads.pop (h : Reads f a) (hcnt : 0 < f.cnt) : ∃ b, a.get f.file = (some (f.buf f.ptr), b) ∧
    Reads { f with ptr := f.ptr + 1, cnt := f.cnt - 1 } b := by
  obtain ⟨n, hn⟩ : ∃ n, f.cnt = n + 1 := ⟨f.cnt - 1, by omega⟩
  have hbytes := h.unread
  rw [hn, File.bytes_succ] at hbytes
  have hc := h.cnt
  have hroom := h.room
  cases hs : a.stack with
  | cons c s =>
    rw [hs, List.cons_append, List.cons.injEq] at hbytes
    refine ⟨{ a with stack := s }, by rw [Reader.get, hs, hbytes.1], h.rd, h.wr, h.mem, h.lastOp, h.next_le, ?_, ?_, ?_⟩
    · simp only [hs, List.length_cons] at hc
      simp only
      omega
    · simp only [hn, Nat.add_sub_cancel]
      exact hbytes.2
    · simp only [hs, List.length_cons] at hroom
      simp only
      omega
  | nil =>
    rw [hs, List.nil_append] at hbytes
    simp only [hs, List.length_nil, Nat.zero_add] at hc hroom
    have hk : f.pos - a.next = n + 1 := by omega
    cases hd : f.file.drop a.next with
    | nil => simp [hd] at hbytes
    | cons c t =>
      rw [hd, hk, List.take_succ_cons, List.cons.injEq] at hbytes
      have ht : f.file.drop (a.next + 1) = t := by rw [← List.drop_drop, hd, List.drop_succ_cons, List.drop_zero]
      refine ⟨{ a with next := a.next + 1 }, by simp only [Reader.get, hs, hd,
        hbytes.1], h.rd, h.wr, h.mem, h.lastOp, ?_, ?_, ?_, ?_⟩
      · simp only
        omega
      · simp only [hs, List.length_nil]
        omega
      · simp only [hn, Nat.add_sub_cancel, hs, List.nil_append, ht]
        refine hbytes.2.trans ?_
        congr 1
        omega
      · simp only [hs, List.length_nil]
        omega

/-- Unread bytes of the buffer are read together. -/
theorem Reads.pops (h : Reads f a) (hn : n ≤ f.cnt) : ∃ b, a.read f.file n = (f.bytes f.ptr n, b) ∧
    Reads { f with ptr := f.ptr + n, cnt := f.cnt - n } b := by
  induction n generalizing f a with
  | zero => exact ⟨a, rfl, h⟩
  | succ n ih =>
    obtain ⟨b, hget, hb⟩ := h.pop (by omega)
    obtain ⟨c, hread, hc⟩ := ih hb (by simp only; omega)
    refine ⟨c, ?_, ?_⟩
    · rw [Reader.read_succ_some hget, File.bytes_succ, hread]
      rfl
    · have h1 : f.ptr + (n + 1) = f.ptr + 1 + n := by omega
      have h2 : f.cnt - (n + 1) = f.cnt - 1 - n := by omega
      rw [h1, h2]
      exact hc

theorem bufferReload_reads (hK : K.Reads) (h : Reads f a) (hcnt : f.cnt = 0) :
    (bufferReload K f).1 = (a.get f.file).1 ∧ Reads (bufferReload K f).2 (a.get f.file).2 ∧
      (bufferReload K f).2.file = f.file := by
  have hc := h.cnt
  have hnext := h.next_le
  have hstack : a.stack = [] := List.length_eq_zero_iff.1 (by omega)
  have hpos : a.next = f.pos := by omega
  have hget : ∀ c t, f.file.drop f.pos = c :: t → a.get f.file = (some c, { a with next := a.next + 1 }) := by
    intro c t hd
    simp only [Reader.get, hstack, hpos, hd]
  -- an empty buffer is what the abstract machine has at the end of the file
  have hempty : ∀ g : File, g.rd = f.rd → g.wr = f.wr → g.mem = f.mem → g.lastOp = f.lastOp → g.pos = f.pos →
    g.cnt = 0 →
      g.ptr = OVRSIZ → Reads g a := by
    intro g h1 h2 h3 h4 h5 h6 h7
    refine ⟨h1.trans h.rd, h2.trans h.wr, h3.trans h.mem, h4 ▸ h.lastOp, h5 ▸ h.next_le, ?_, ?_, ?_⟩
    · rw [h5, h6]
      omega
    · simp [h5, h6, File.bytes, hstack, hpos]
    · rw [h7]
      omega
  simp only [bufferReload, h.rd, not_true_eq_false, if_false]
  rcases hK.zero_or f.reset.calls (min BUFSIZ (f.reset.file.length - f.reset.pos)) with hm | ⟨k, hk, hk0⟩
  · have hd : f.file.drop f.pos = [] := by
      rw [List.drop_eq_nil_iff]
      simp only [File.reset, BUFSIZ] at hm
      omega
    have hnone : a.get f.file = (none, a) := by simp only [Reader.get, hstack, hpos, hd]
    rw [hnone]
    cases K.read f.reset.calls (min BUFSIZ (f.reset.file.length - f.reset.pos)) with
    | none => exact ⟨rfl, hempty _ rfl rfl rfl rfl rfl rfl rfl, rfl⟩
    | some k =>
      have hgot : (f.reset.file.drop f.reset.pos).take (min k BUFSIZ) = [] := by simp [File.reset, hd]
      simp only [hgot, List.length_nil, if_true]
      exact ⟨trivial, hempty _ rfl rfl rfl rfl rfl rfl rfl, rfl⟩
  · rw [hk]
    cases hd : f.file.drop f.pos with
    | nil =>
      have hnone : a.get f.file = (none, a) := by simp only [Reader.get, hstack, hpos, hd]
      have hgot : (f.reset.file.drop f.reset.pos).take (min k BUFSIZ) = [] := by simp [File.reset, hd]
      rw [hnone]
      simp only [hgot, List.length_nil, if_true]
      exact ⟨trivial, hempty _ rfl rfl rfl rfl rfl rfl rfl, rfl⟩
    | cons c t =>
      obtain ⟨j, hj⟩ : ∃ j, min k BUFSIZ = j + 1 := ⟨min k BUFSIZ - 1, by simp only [BUFSIZ]; omega⟩
      have hgot : (f.reset.file.drop f.reset.pos).take (min k BUFSIZ) = c :: t.take j := by
        rw [hj]
        simp [File.reset, hd]
      rw [hget c t hd]
      simp only [hgot]
      have hstore := f.reset.bytes_store OVRSIZ (c :: t.take j)
      rw [List.length_cons, File.bytes_succ, List.cons.injEq] at hstore
      have ht : f.file.drop (a.next + 1) = t := by rw [hpos, ← List.drop_drop, hd, List.drop_succ_cons, List.drop_zero]
      simp only [List.length_cons, Nat.add_one_ne_zero, if_false, Nat.add_sub_cancel]
      refine ⟨congrArg some hstore.1, ⟨h.rd, h.wr, h.mem, by simp, ?_, ?_, ?_, ?_⟩, rfl⟩
      · simp only [File.reset]
        omega
      · simp only [File.reset, hstack, List.length_nil]
        omega
      · refine hstore.2.trans ?_
        rw [hstack, List.nil_append]
        change t.take j = (f.file.drop (a.next + 1)).take (f.pos + ((t.take j).length + 1) - (a.next + 1))
        rw [ht, hpos, show f.pos + ((t.take j).length + 1) - (f.pos + 1) = (t.take j).length by omega]
        simp
      · simp [File.reset, File.store]
        omega

theorem bufferInput_reads (hK : K.Reads) (h : Reads f a) :
    (bufferInput K f).1 = (a.get f.file).1 ∧ Reads (bufferInput K f).2 (a.get f.file).2 ∧
    (bufferInput K f).2.file = f.file := by
  rw [bufferInput, if_neg (by simp [h.rd])]
  simp only [if_neg h.lastOp]
  rw [if_neg (by simp [h.mem])]
  by_cases hcnt : f.cnt > 0
  · rw [if_pos hcnt]
    obtain ⟨b, hget, hb⟩ := h.pop hcnt
    rw [hget]
    exact ⟨rfl, hb, rfl⟩
  · rw [if_neg hcnt]
    exact bufferReload_reads hK h (by omega)

theorem switchToRead_reads (h : Reads f a) : switchToRead K f = (true, f) := by simp [switchToRead, h.wr]

theorem fgetc_reads (hK : K.Reads) (h : Reads f a) :
    (fgetc K f).1 = (a.get f.file).1 ∧ Reads (fgetc K f).2 (a.get f.file).2 ∧ (fgetc K f).2.file = f.file := by
  rw [fgetc, switchToRead_reads h]
  exact bufferInput_reads hK h

theorem freadLoop_reads (hK : K.Reads) {fuel left : Nat} (h : Reads f a) (hf : left ≤ fuel) :
    (freadLoop K fuel left f).1 = (a.read f.file left).1 ∧ Reads (freadLoop K fuel left f).2 (a.read f.file left).2 ∧
      (freadLoop K fuel left f).2.file = f.file := by
  induction fuel generalizing f a left with
  | zero =>
    obtain rfl : left = 0 := by omega
    exact ⟨rfl, h, rfl⟩
  | succ fuel ih =>
    rw [freadLoop]
    by_cases hleft : left = 0
    · subst hleft
      exact ⟨rfl, h, rfl⟩
    rw [if_neg hleft]
    by_cases hcnt : f.cnt > 0
    · rw [if_pos hcnt]
      obtain ⟨b, hread, hb⟩ := h.pops (Nat.min_le_left f.cnt left)
      obtain ⟨h1, h2, h3⟩ := ih hb (show left - min f.cnt left ≤ fuel by omega)
      have hadd := Reader.read_add (n := left - min f.cnt left) hread (by simp)
      rw [Nat.add_sub_cancel' (Nat.min_le_right f.cnt left)] at hadd
      rw [hadd]
      exact ⟨congrArg (f.bytes f.ptr (min f.cnt left) ++ ·) h1, h2, h3⟩
    · rw [if_neg hcnt]
      obtain ⟨left, rfl⟩ : ∃ k, left = k + 1 := ⟨left - 1, by omega⟩
      obtain ⟨h1, h2, h3⟩ := bufferInput_reads hK h
      obtain ⟨r, g, hin⟩ : ∃ r g, bufferInput K f = (r, g) := ⟨_, _, rfl⟩
      obtain ⟨r', b, hget⟩ : ∃ r' b, a.get f.file = (r', b) := ⟨_, _, rfl⟩
      rw [hin, hget] at h1 h2
      rw [hin] at h3 ⊢
      obtain rfl : r = r' := h1
      cases r with
      | none =>
        rw [Reader.read_succ_none hget]
        exact ⟨rfl, h2, h3⟩
      | some c =>
        rw [Reader.read_succ_some hget]
        obtain ⟨g1, g2, g3⟩ := ih h2 (show left ≤ fuel by omega)
        rw [h3] at g1 g2
        exact ⟨congrArg (c :: ·) g1, g2, g3.trans h3⟩

theorem fread_reads (hK : K.Reads) (size nmemb : Nat) (h : Reads f a) :
    (fread K size nmemb f).1 = ((a.read f.file (total size nmemb)).1,
    (a.read f.file (total size nmemb)).1.length / size) ∧
      Reads (fread K size nmemb f).2 (a.read f.file (total size nmemb)).2 ∧ (fread K size nmemb f).2.file = f.file := by
  rw [fread]
  by_cases h0 : size = 0 ∨ nmemb = 0
  · have htotal : total size nmemb = 0 := by rcases h0 with rfl | rfl <;> simp [total]
    rw [if_pos h0, htotal, Reader.read]
    exact ⟨by simp, h, rfl⟩
  · rw [if_neg h0]
    obtain ⟨h1, h2, h3⟩ := freadLoop_reads hK h (Nat.le_refl (total size nmemb))
    exact ⟨by simp only [h1], h2, h3⟩

/-- `ungetc` pushes a byte, or it is out of room, with `OVRSIZ` bytes pushed back, and leaves the stream alone. -/
theorem ungetc_reads {c : Int} (h : Reads f a) (hc : c ≠ -1) :
    ((ungetc K c f).1 = some (toByte c) ∧ Reads (ungetc K c f).2 { a with stack := toByte c :: a.stack } ∧
      (ungetc K c f).2.file = f.file) ∨
    (ungetc K c f = (none, f) ∧ OVRSIZ ≤ a.stack.length) := by
  have hroom := h.room
  simp only [ungetc, if_neg hc, switchToRead_reads h]
  by_cases hptr : f.ptr = 0
  · rw [if_pos hptr]
    exact .inr ⟨rfl, by omega⟩
  · rw [if_neg hptr]
    refine .inl ⟨rfl, ⟨h.rd, h.wr, h.mem, h.lastOp, h.next_le, ?_, ?_, ?_⟩, rfl⟩
    · have hcnt := h.cnt
      change f.cnt + 1 = (toByte c :: a.stack).length + (f.pos - a.next)
      rw [List.length_cons]
      omega
    · have hstore := f.bytes_store (f.ptr - 1) [toByte c]
      have hkeep : (f.store (f.ptr - 1) [toByte c]).bytes f.ptr f.cnt = f.bytes f.ptr f.cnt :=
        File.store_before f [toByte c] (by simp; omega)
      change (f.store (f.ptr - 1) [toByte c]).bytes (f.ptr - 1) (f.cnt + 1) =
        toByte c :: a.stack ++ (f.file.drop a.next).take (f.pos - a.next)
      rw [File.bytes_succ, Nat.sub_add_cancel (Nat.pos_of_ne_zero hptr), hkeep, h.unread]
      simpa [File.bytes_succ, File.bytes] using hstore
    · simp only [List.length_cons]
      omega

/-! ### Runs -/

namespace Reader

variable (file : List UInt8)

/-- The calls of the abstract machine.  It may refuse to push a byte back when there are `OVRSIZ` of them. -/
inductive Step : Reader → Act → Ret → Reader → Prop
  | fgetc (a : Reader) : Step a .fgetc (.char (a.get file).1) (a.get file).2
  | fread (a : Reader) (size nmemb : Nat) :
    Step a (.fread size nmemb)
      (.data (a.read file (total size nmemb)).1 ((a.read file (total size nmemb)).1.length / size))
      (a.read file (total size nmemb)).2
  | push (a : Reader) (c : Int) : c ≠ -1 →
    Step a (.ungetc c) (.char (some (toByte c))) { a with stack := toByte c :: a.stack }
  | refuse (a : Reader) (c : Int) : c = -1 ∨ OVRSIZ ≤ a.stack.length → Step a (.ungetc c) (.char none) a

/-- Runs of the abstract machine with their answers. -/
inductive Run : Reader → List (Act × Ret) → Reader → Prop
  | nil (a : Reader) : Run a [] a
  | cons {a b c : Reader} {act : Act} {r : Ret} {tr : List (Act × Ret)} : Step file a act r b → Run b tr c →
    Run a ((act, r) :: tr) c

end Reader

/-- The functions that read and push back. -/
def Act.IsInput : Act → Prop
  | .fgetc | .fread _ _ | .ungetc _ => True
  | _ => False

/-- Every call is a call of the abstract machine, with the same answer. -/
theorem step_reads (hK : K.Reads) (h : Reads f a) {act : Act} (hact : act.IsInput) :
    ∃ b, Reader.Step f.file a act (step K f act).1 b ∧ Reads (step K f act).2 b ∧ (step K f act).2.file = f.file := by
  cases act with
  | fgetc =>
    obtain ⟨h1, h2, h3⟩ := fgetc_reads hK h
    refine ⟨(a.get f.file).2, ?_, h2, h3⟩
    simp only [step, h1]
    exact .fgetc a
  | fread size nmemb =>
    obtain ⟨h1, h2, h3⟩ := fread_reads hK size nmemb h
    refine ⟨(a.read f.file (total size nmemb)).2, ?_, h2, h3⟩
    simp only [step, h1]
    exact .fread a size nmemb
  | ungetc c =>
    by_cases hc : c = -1
    · refine ⟨a, ?_, ?_, ?_⟩
      · simp only [step, ungetc, if_pos hc]
        exact .refuse a c (.inl hc)
      · simpa only [step, ungetc, if_pos hc] using h
      · simp only [step, ungetc, if_pos hc]
    · rcases ungetc_reads (K := K) h hc with ⟨h1, h2, h3⟩ | ⟨h1, h2⟩
      · refine ⟨{ a with stack := toByte c :: a.stack }, ?_, h2, h3⟩
        simp only [step, h1]
        exact .push a c hc
      · refine ⟨a, ?_, ?_, ?_⟩
        · simp only [step, h1]
          exact .refuse a c (.inr h2)
        · simpa only [step, h1] using h
        · simp only [step, h1]
  | _ => exact hact.elim

theorem run_reads (hK : K.Reads) {acts : List Act} (h : Reads f a) (hacts : ∀ act ∈ acts, act.IsInput) :
    ∃ b, Reader.Run f.file a (Machine.trace (step K) f acts) b ∧ Reads (Machine.run (step K) f acts) b := by
  induction acts generalizing f a with
  | nil => exact ⟨a, .nil a, h⟩
  | cons act acts ih =>
    obtain ⟨b, hstep, hb, hfile⟩ := step_reads hK h (hacts act List.mem_cons_self)
    obtain ⟨c, hrun, hc⟩ := ih hb fun x hx => hacts x (List.mem_cons_of_mem _ hx)
    rw [hfile] at hrun
    exact ⟨c, .cons hstep hrun, hc⟩

theorem reads_streamAlloc (mode : BufMode) (memory : Nat → UInt8) (file : List UInt8) :
    Reads (streamAlloc true false mode memory file) ⟨[], 0⟩ :=
  ⟨rfl, rfl, rfl, by simp [streamAlloc], Nat.le_refl _, rfl, rfl, Nat.le_refl _⟩

/-- For every file and every way `read` splits it, a read-only stream answers as a stack of pushed-back bytes on the
rest of the file does, which refuses a byte only with `OVRSIZ` of them pushed back; and an `ungetc` that fails changes
nothing. -/
theorem input_pushback (K : Kernel) (hK : K.Reads) (mode : BufMode) (memory : Nat → UInt8) (file : List UInt8)
    (acts : List Act) (hacts : ∀ act ∈ acts, act.IsInput) :
    (∃ a, Reader.Run file ⟨[], 0⟩ (Machine.trace (step K) (streamAlloc true false mode memory file) acts) a) ∧
      ∀ c, (step K (Machine.run (step K) (streamAlloc true false mode memory file) acts) (.ungetc c)).1 = .char none →
        (step K (Machine.run (step K) (streamAlloc true false mode memory file) acts) (.ungetc c)).2 =
          Machine.run (step K) (streamAlloc true false mode memory file) acts := by
  obtain ⟨a, hrun, ha⟩ := run_reads hK (reads_streamAlloc mode memory file) hacts
  refine ⟨⟨a, hrun⟩, fun c hfail => ?_⟩
  by_cases hc : c = -1
  · simp only [step, ungetc, if_pos hc]
  · rcases ungetc_reads (K := K) ha hc with ⟨h1, -⟩ | ⟨h1, -⟩
    · simp [step, h1] at hfail
    · simp only [step, h1]

/-- A kernel that moves one byte at a time. -/
def slowKernel : Kernel := ⟨fun _ _ => some 1, fun _ _ => some 1⟩

theorem input_pushback_slow :
    Machine.trace (step slowKernel) (streamAlloc true false .full (fun _ => 0) (lit "abc"))
        [.fgetc, .ungetc 120, .fread 1 3, .fgetc] =
      [(.fgetc, .char (some 97)), (.ungetc 120, .char (some 120)), (.fread 1 3, .data [120, 98, 99] 3),
      (.fgetc, .char none)] ∧
    ∃ a, Reader.Run (lit "abc") ⟨[], 0⟩ (Machine.trace (step slowKernel) (streamAlloc true false .full (fun _ => 0)
    (lit "abc"))
      [.fgetc, .ungetc 120, .fread 1 3, .fgetc]) a :=
  ⟨by rfl, (input_pushback slowKernel (fun _ _ _ => ⟨1, rfl, Nat.one_pos⟩) .full (fun _ => 0) (lit "abc")
    [.fgetc, .ungetc 120, .fread 1 3, .fgetc] (by simp [Act.IsInput])).1⟩

end JACLibc.Stdio
