import JACLibc.Stdio.Input

/-!
# Reading from a stream that is open for update

A stream opened with `r+` has both `__SRD` and `__SWR`.  `fgetc` and `ungetc` clear `__SWR`, and from then on the
stream reads as a read-only one.  Until then `_ptr` must stay at the start of the data: the bytes in front of it count
as pending output. `fread` leaves it there only when it runs into the end of the file.
-/

namespace JACLibc.Stdio

variable {K : Kernel} {f : File} {a : Reader} {n : Nat}

/-! ### `fread` while `__SWR` is set -/

/-- Nothing that `__jacl_buffer_input` does depends on `__SWR`, unless the last operation was a write. -/
theorem bufferInput_wr (hop : f.lastOp ≠ .write) (w : Bool) :
    bufferInput K { f with wr := w } = ((bufferInput K f).1, { (bufferInput K f).2 with wr := w }) := by
  simp only [bufferInput, if_neg hop, bufferReload, File.reset]
  split
  · rfl
  split
  · split <;> rfl
  split
  · rfl
  split
  · rfl
  split
  · rfl
  · rfl

theorem bufferInput_lastOp (hop : f.lastOp ≠ .write) : (bufferInput K f).2.lastOp ≠ .write := by
  simp only [bufferInput, if_neg hop, bufferReload, File.reset]
  split
  · exact hop
  split
  · split
    · exact hop
    · simp
  split
  · exact hop
  split
  · exact hop
  split
  · exact hop
  · simp

theorem freadLoop_wr (fuel left : Nat) (hop : f.lastOp ≠ .write) (w : Bool) :
    freadLoop K fuel left { f with wr := w } = ((freadLoop K fuel left f).1,
    { (freadLoop K fuel left f).2 with wr := w }) := by
  induction fuel generalizing f left with
  | zero => rfl
  | succ fuel ih =>
    simp only [freadLoop]
    by_cases hleft : left = 0
    · rw [if_pos hleft, if_pos hleft]
    rw [if_neg hleft, if_neg hleft]
    by_cases hcnt : f.cnt > 0
    · rw [if_pos hcnt, if_pos hcnt]
      have hloop := ih (f := { f with ptr := f.ptr + min f.cnt left, cnt := f.cnt - min f.cnt left })
        (left - min f.cnt left) hop
      simp only [hloop]
      rfl
    · rw [if_neg hcnt, if_neg hcnt, bufferInput_wr hop w]
      have hop' := bufferInput_lastOp (K := K) hop
      cases hin : bufferInput K f with
      | mk r g =>
        rw [hin] at hop'
        cases r with
        | none => rfl
        | some c =>
          have hloop := ih (left - 1) hop'
          simp only [hloop]

/-- At the end of the file the buffer is left empty. -/
theorem bufferInput_none (h : Reads f a) (hnone : (bufferInput K f).1 = none) :
    (bufferInput K f).2.cnt = 0 ∧ (bufferInput K f).2.ptr = OVRSIZ := by
  rw [bufferInput, if_neg (by simp [h.rd])] at hnone ⊢
  simp only [if_neg h.lastOp] at hnone ⊢
  rw [if_neg (by simp [h.mem])] at hnone ⊢
  by_cases hcnt : f.cnt > 0
  · rw [if_pos hcnt] at hnone
    simp at hnone
  rw [if_neg hcnt, bufferReload, if_neg (by simp [h.rd])] at hnone ⊢
  dsimp only at hnone ⊢
  cases hread : K.read f.reset.calls (min BUFSIZ (f.reset.file.length - f.reset.pos)) with
  | none => exact ⟨rfl, rfl⟩
  | some k =>
    rw [hread] at hnone
    dsimp only at hnone ⊢
    by_cases hgot : ((f.reset.file.drop f.reset.pos).take (min k BUFSIZ)).length = 0
    · rw [if_pos hgot]
      exact ⟨rfl, rfl⟩
    · rw [if_neg hgot] at hnone
      cases hnone

/-- A read that does not get all its bytes leaves the buffer empty. -/
theorem freadLoop_short (hK : K.Reads) {fuel left : Nat} (h : Reads f a) (hf : left ≤ fuel)
    (hshort : (freadLoop K fuel left f).1.length < left) :
    (freadLoop K fuel left f).2.cnt = 0 ∧ (freadLoop K fuel left f).2.ptr = OVRSIZ := by
  induction fuel generalizing f a left with
  | zero =>
    simp [freadLoop] at hshort
    omega
  | succ fuel ih =>
    simp only [freadLoop] at hshort ⊢
    by_cases hleft : left = 0
    · rw [if_pos hleft] at hshort
      simp at hshort
      omega
    rw [if_neg hleft] at hshort ⊢
    by_cases hcnt : f.cnt > 0
    · rw [if_pos hcnt] at hshort ⊢
      obtain ⟨b, -, hb⟩ := h.pops (Nat.min_le_left f.cnt left)
      refine ih hb (by omega) ?_
      simp only [List.length_append, File.length_bytes] at hshort
      omega
    · rw [if_neg hcnt] at hshort ⊢
      obtain ⟨-, h2, -⟩ := bufferInput_reads hK h
      have hnone := bufferInput_none (K := K) h
      cases hin : bufferInput K f with
      | mk r g =>
        rw [hin] at h2 hnone hshort
        cases r with
        | none => exact hnone rfl
        | some c =>
          refine ih h2 (by omega) ?_
          simp only [List.length_cons] at hshort
          omega

theorem Reader.length_read (file : List UInt8) (next n : Nat) :
    ((Reader.mk [] next).read file n).1.length = min n (file.length - next) ∧
      ((Reader.mk [] next).read file n).2.stack = [] := by
  induction n generalizing next with
  | zero => simp [Reader.read]
  | succ n ih =>
    cases hd : file.drop next with
    | nil =>
      have hlen : file.length ≤ next := List.drop_eq_nil_iff.1 hd
      have hget : (Reader.mk [] next).get file = (none, ⟨[], next⟩) := by simp only [Reader.get, hd]
      rw [Reader.read_succ_none hget]
      refine ⟨?_, rfl⟩
      simp only [List.length_nil]
      omega
    | cons c t =>
      have hlen : next < file.length := by
        by_contra hle
        rw [List.drop_eq_nil_of_le (by omega)] at hd
        cases hd
      have hget : (Reader.mk [] next).get file = (some c, ⟨[], next + 1⟩) := by simp only [Reader.get, hd]
      rw [Reader.read_succ_some hget]
      refine ⟨?_, (ih (next + 1)).2⟩
      rw [List.length_cons, (ih (next + 1)).1]
      omega

/-! ### A stream open for update -/

/-- Before the first `fgetc` or `ungetc`: nothing is buffered. -/
structure Idle (f : File) (a : Reader) : Prop where
  rd : f.rd = true
  wr : f.wr = true
  mem : f.mem = false
  lastOp : f.lastOp ≠ .write
  cnt : f.cnt = 0
  ptr : f.ptr = OVRSIZ
  stack : a.stack = []
  next : a.next = f.pos

/-- The stream and the abstract machine, in both modes. -/
def Updates (f : File) (a : Reader) : Prop := Idle f a ∨ Reads f a

theorem Idle.reads (h : Idle f a) : Reads { f with wr := false } a := by
  refine ⟨h.rd, rfl, h.mem, h.lastOp, Nat.le_of_eq h.next, ?_, ?_, ?_⟩
  · simp [h.cnt, h.stack, h.next]
  · simp [h.cnt, h.stack, h.next, File.bytes]
  · simp [h.ptr, h.stack]

/-- There is no output to flush. -/
theorem Idle.flush (h : Idle f a) : bufferFlush K f = (true, f) := by
  simp [bufferFlush, h.wr, h.mem, flushFd, h.ptr, ptrDiff, OVRSIZ]

theorem Idle.switchToRead (h : Idle f a) : Stdio.switchToRead K f = (true, { f with wr := false }) := by
  rw [Stdio.switchToRead, if_pos h.wr, h.flush]
  have hreset : { f with wr := false, rd := true }.reset = { f with wr := false } := by
    simp only [File.reset, h.rd, h.cnt, h.ptr]
  simp only [hreset]

/-- `fread` into the end of the file leaves the stream idle. -/
theorem fread_idle (hK : K.Reads) {size nmemb : Nat} (h : Idle f a) (hend : f.file.length - f.pos < total size nmemb) :
    (fread K size nmemb f).1 = ((a.read f.file (total size nmemb)).1,
    (a.read f.file (total size nmemb)).1.length / size) ∧
      Idle (fread K size nmemb f).2 (a.read f.file (total size nmemb)).2 ∧ (fread K size nmemb f).2.file = f.file := by
  have h0 : ¬(size = 0 ∨ nmemb = 0) := by
    rintro (rfl | rfl) <;> simp [total] at hend
  have ha : a = ⟨[], f.pos⟩ := by
    cases a
    simp only [Reader.mk.injEq]
    exact ⟨h.stack, h.next⟩
  obtain ⟨hlen, hstack⟩ := Reader.length_read f.file f.pos (total size nmemb)
  rw [← ha] at hlen hstack
  obtain ⟨h1, h2, h3⟩ := freadLoop_reads hK h.reads (Nat.le_refl (total size nmemb))
  have hshort := freadLoop_short hK h.reads (Nat.le_refl (total size nmemb))
  rw [freadLoop_wr _ _ h.lastOp] at h1 h2 h3 hshort
  dsimp only at h1 h2 h3 hshort
  obtain ⟨hcnt, hptr⟩ := hshort (by rw [h1, hlen]; omega)
  have hwr := congrArg (·.2.wr) (freadLoop_wr (K := K) (f := f) (total size nmemb) (total size nmemb) h.lastOp true)
  have hsame : { f with wr := true } = f := by rw [← h.wr]
  rw [hsame] at hwr
  rw [fread, if_neg h0]
  dsimp only
  refine ⟨by rw [h1], ⟨h2.rd, hwr, h2.mem, h2.lastOp, hcnt, hptr, hstack, ?_⟩, h3⟩
  have hc := h2.cnt
  have hnext := h2.next_le
  dsimp only at hc hnext
  rw [hcnt, hstack, List.length_nil] at hc
  omega

theorem fgetc_updates (hK : K.Reads) (h : Updates f a) :
    (fgetc K f).1 = (a.get f.file).1 ∧ Reads (fgetc K f).2 (a.get f.file).2 ∧ (fgetc K f).2.file = f.file := by
  rcases h with h | h
  · rw [fgetc, h.switchToRead]
    exact bufferInput_reads hK h.reads
  · exact fgetc_reads hK h

/-- `ungetc` as on a stream that reads, which an idle one is turned into. -/
theorem ungetc_updates {c : Int} (h : Updates f a) (hc : c ≠ -1) :
    ((ungetc K c f).1 = some (toByte c) ∧ Reads (ungetc K c f).2 { a with stack := toByte c :: a.stack } ∧
      (ungetc K c f).2.file = f.file) ∨
    (ungetc K c f = (none, f) ∧ OVRSIZ ≤ a.stack.length) := by
  rcases h with h | h
  · have hsame : ungetc K c f = ungetc K c { f with wr := false } := by
      rw [ungetc, ungetc, if_neg hc, if_neg hc, h.switchToRead, switchToRead_reads h.reads]
    rw [hsame]
    rcases ungetc_reads (K := K) h.reads hc with h1 | ⟨-, h1⟩
    · exact .inl h1
    · rw [h.stack, OVRSIZ] at h1
      simp at h1
  · exact ungetc_reads h hc

/-- The offset of the next byte, where a pushed-back byte counts for the one before it. -/
def Reader.tell (a : Reader) : Int := a.next - a.stack.length

theorem ftell_updates (h : Updates f a) : ftell f = a.tell := by
  rcases h with h | h
  · simp [ftell, h.mem, h.wr, h.ptr, Reader.tell, h.stack, h.next]
  · have hc := h.cnt
    have hnext := h.next_le
    simp only [ftell, h.mem, h.wr, h.rd, Reader.tell, Bool.false_eq_true, if_false, if_true]
    omega

/-- The offset `fseek` asks for. -/
def Reader.target (file : List UInt8) (a : Reader) (offset : Int) : Whence → Int
  | .set => offset
  | .cur => a.tell + offset
  | .fromEnd => file.length + offset

theorem fseek_updates (offset : Int) (whence : Whence) (h : Updates f a) :
    (a.target f.file offset whence < 0 ∧ fseek K offset whence f = (false, f)) ∨
    (0 ≤ a.target f.file offset whence ∧ (fseek K offset whence f).1 = true ∧
      Updates (fseek K offset whence f).2 ⟨[], (a.target f.file offset whence).toNat⟩ ∧
      (fseek K offset whence f).2.file = f.file) := by
  have hflush : (if f.wr then bufferFlush K f else (true, f)) = (true, f) := by
    rcases h with h | h
    · rw [if_pos h.wr, h.flush]
    · rw [if_neg (by simp [h.wr])]
  have hmem : f.mem = false := by
    rcases h with h | h
    · exact h.mem
    · exact h.mem
  have htell : a.tell = f.pos - f.cnt ∧ f.rd = true := by
    rcases h with h | h
    · exact ⟨by simp [Reader.tell, h.stack, h.next, h.cnt], h.rd⟩
    · have hc := h.cnt
      have hnext := h.next_le
      exact ⟨by simp only [Reader.tell]; omega, h.rd⟩
  have hseek :
    Updates { f.reset with pos := (a.target f.file offset whence).toNat, eof := false, end_ := OVRBUF, lastOp := .none }
      ⟨[], (a.target f.file offset whence).toNat⟩ := by
    rcases h with h | h
    · exact .inl ⟨h.rd, h.wr, h.mem, by simp, rfl, rfl, rfl, rfl⟩
    · exact .inr ⟨h.rd, h.wr, h.mem, by simp, Nat.le_refl _, by simp [File.reset], by simp [File.reset, File.bytes],
        by simp [File.reset]⟩
  -- `lseek` is asked for the offset of the abstract machine
  have hresult : lseek f (if whence = .cur ∧ f.rd ∧ f.cnt > 0 then offset - f.cnt else offset) whence =
      a.target f.file offset whence := by
    cases whence with
    | set => simp [lseek, Reader.target]
    | cur =>
      simp only [lseek, Reader.target, htell.1, htell.2, true_and]
      by_cases hcnt : f.cnt > 0
      · rw [if_pos hcnt]
        omega
      · rw [if_neg hcnt]
        omega
    | fromEnd => simp [lseek, Reader.target]
  rw [fseek, hflush]
  dsimp only
  rw [if_neg (by simp [hmem]), hresult]
  by_cases hneg : a.target f.file offset whence < 0
  · rw [if_pos hneg]
    exact .inl ⟨hneg, rfl⟩
  · rw [if_neg hneg]
    exact .inr ⟨by omega, rfl, hseek, rfl⟩

/-! ### Runs -/

/-- The calls of the abstract machine with positions. -/
inductive Reader.UpdateStep (file : List UInt8) : Reader → Act → Ret → Reader → Prop
  | input {a b : Reader} {act : Act} {r : Ret} : Reader.Step file a act r b → UpdateStep file a act r b
  | ftell (a : Reader) : UpdateStep file a .ftell (.pos a.tell) a
  | seek (a : Reader) (offset : Int) (whence : Whence) : 0 ≤ a.target file offset whence →
    UpdateStep file a (.fseek offset whence) (.status true) ⟨[], (a.target file offset whence).toNat⟩
  | refuse (a : Reader) (offset : Int) (whence : Whence) : a.target file offset whence < 0 →
    UpdateStep file a (.fseek offset whence) (.status false) a
  | fflush (a : Reader) : UpdateStep file a .fflush (.status true) a
  | fclose (a : Reader) (fsync close ok : Bool) : UpdateStep file a (.fclose fsync close) (.status ok) a

inductive Reader.UpdateRun (file : List UInt8) : Reader → List (Act × Ret) → Reader → Prop
  | nil (a : Reader) : UpdateRun file a [] a
  | cons {a b c : Reader} {act : Act} {r : Ret} {tr : List (Act × Ret)} : Reader.UpdateStep file a act r b →
    UpdateRun file b tr c → UpdateRun file a ((act, r) :: tr) c

/-- The functions that read, push back, position, flush and close. -/
def Act.IsUpdate : Act → Prop
  | .fgetc | .fread _ _ | .ungetc _ | .fseek _ _ | .ftell | .fflush | .fclose _ _ => True
  | _ => False

/-- While `__SWR` is set, `fread` is called for nothing or for more bytes than the file has left. -/
def ReadOk (f : File) : Act → Prop
  | .fread size nmemb => f.wr = false ∨ total size nmemb = 0 ∨ f.file.length - f.pos < total size nmemb
  | _ => True

theorem Updates.flush (h : Updates f a) (hwr : f.wr = true) : bufferFlush K f = (true, f) := by
  rcases h with h | h
  · exact h.flush
  · rw [h.wr] at hwr
    cases hwr

theorem Updates.mem (h : Updates f a) : f.mem = false := by
  rcases h with h | h
  · exact h.mem
  · exact h.mem

/-- `fread` where `__SWR` is clear, or of nothing, or into the end of the file. -/
theorem fread_updates (hK : K.Reads) (h : Updates f a) {size nmemb : Nat} (hok : ReadOk f (.fread size nmemb)) :
    (fread K size nmemb f).1 = ((a.read f.file (total size nmemb)).1,
    (a.read f.file (total size nmemb)).1.length / size) ∧
      Updates (fread K size nmemb f).2 (a.read f.file (total size nmemb)).2 ∧
      (fread K size nmemb f).2.file = f.file := by
  rcases h with h | h
  · rcases hok with hok | hok | hok
    · rw [h.wr] at hok
      cases hok
    · have hzero : fread K size nmemb f = (([], 0), f) := by
        rw [fread, hok]
        split
        · rfl
        · simp [freadLoop]
      rw [hzero, hok, Reader.read]
      exact ⟨by simp, .inl h, rfl⟩
    · obtain ⟨h1, h2, h3⟩ := fread_idle hK h hok
      exact ⟨h1, .inl h2, h3⟩
  · obtain ⟨h1, h2, h3⟩ := fread_reads hK size nmemb h
    exact ⟨h1, .inr h2, h3⟩

theorem fflush_updates (h : Updates f a) : fflush K f = (true, f) := by
  rw [fflush]
  by_cases hwr : f.wr = true
  · rw [if_pos hwr, h.flush hwr]
  · rw [if_neg hwr]

theorem fclose_updates (h : Updates f a) (fsync close : Bool) : (fclose K fsync close f).2 = f := by
  rw [fclose, if_neg (by simp [h.mem])]
  by_cases hwr : f.wr = true
  · rw [if_pos hwr, h.flush hwr]
  · rw [if_neg hwr]

theorem step_updates (hK : K.Reads) (h : Updates f a) {act : Act} (hact : act.IsUpdate) (hok : ReadOk f act) :
    ∃ b, Reader.UpdateStep f.file a act (step K f act).1 b ∧ Updates (step K f act).2 b ∧
    (step K f act).2.file = f.file := by
  cases act with
  | fgetc =>
    obtain ⟨h1, h2, h3⟩ := fgetc_updates hK h
    refine ⟨(a.get f.file).2, .input ?_, .inr h2, h3⟩
    simp only [step, h1]
    exact .fgetc a
  | fread size nmemb =>
    obtain ⟨h1, h2, h3⟩ := fread_updates hK h hok
    refine ⟨(a.read f.file (total size nmemb)).2, .input ?_, h2, h3⟩
    simp only [step, h1]
    exact .fread a size nmemb
  | ungetc c =>
    by_cases hc : c = -1
    · refine ⟨a, .input ?_, ?_, ?_⟩
      · simp only [step, ungetc, if_pos hc]
        exact .refuse a c (.inl hc)
      · simpa only [step, ungetc, if_pos hc] using h
      · simp only [step, ungetc, if_pos hc]
    · rcases ungetc_updates (K := K) h hc with ⟨h1, h2, h3⟩ | ⟨h1, h2⟩
      · refine ⟨{ a with stack := toByte c :: a.stack }, .input ?_, .inr h2, h3⟩
        simp only [step, h1]
        exact .push a c hc
      · refine ⟨a, .input ?_, ?_, ?_⟩
        · simp only [step, h1]
          exact .refuse a c (.inr h2)
        · simpa only [step, h1] using h
        · simp only [step, h1]
  | ftell =>
    refine ⟨a, ?_, h, rfl⟩
    simp only [step, ftell_updates h]
    exact .ftell a
  | fseek offset whence =>
    rcases fseek_updates (K := K) offset whence h with ⟨h1, h2⟩ | ⟨h1, h2, h3, h4⟩
    · refine ⟨a, ?_, ?_, ?_⟩
      · simp only [step, h2]
        exact .refuse a offset whence h1
      · simpa only [step, h2] using h
      · simp only [step, h2]
    · refine ⟨_, ?_, h3, h4⟩
      simp only [step, h2]
      exact .seek a offset whence h1
  | fflush =>
    refine ⟨a, ?_, ?_, ?_⟩
    · simp only [step, fflush_updates h]
      exact .fflush a
    · simpa only [step, fflush_updates h] using h
    · simp only [step, fflush_updates h]
  | fclose fsync close =>
    refine ⟨a, .fclose a fsync close _, ?_, ?_⟩
    · simpa only [step, fclose_updates h] using h
    · simp only [step, fclose_updates h]
  | _ => exact hact.elim

theorem run_updates (hK : K.Reads) {acts : List Act} (h : Updates f a) (hacts : ∀ act ∈ acts, act.IsUpdate)
    (hok : Machine.Guarded (step K) ReadOk f acts) :
    (Machine.run (step K) f acts).file = f.file ∧ ∃ b, Reader.UpdateRun f.file a (Machine.trace (step K) f acts) b := by
  induction acts generalizing f a with
  | nil => exact ⟨rfl, a, .nil a⟩
  | cons act acts ih =>
    obtain ⟨b, hstep, hb, hfile⟩ := step_updates hK h (hacts act List.mem_cons_self) hok.1
    obtain ⟨hsame, c, hrun⟩ := ih hb (fun x hx => hacts x (List.mem_cons_of_mem _ hx)) hok.2
    rw [hfile] at hsame hrun
    exact ⟨hsame, c, .cons hstep hrun⟩

/-- In every run on a stream opened with `r+` without output, in which `fread` is called only once `fgetc` or `ungetc`
has cleared `__SWR`, or for nothing, or into the end of the file: the file stays as it is, and every byte and position
answered is that of the file, with the pushed-back bytes on top. -/
theorem update_reading (K : Kernel) (hK : K.Reads) (memory : Nat → UInt8) (file : List UInt8) (acts : List Act)
    (hacts : ∀ act ∈ acts, act.IsUpdate)
    (hok : Machine.Guarded (step K) ReadOk (streamAlloc true true .full memory file) acts) :
    (Machine.run (step K) (streamAlloc true true .full memory file) acts).file = file ∧
      ∃ a, Reader.UpdateRun file ⟨[], 0⟩ (Machine.trace (step K) (streamAlloc true true .full memory file) acts) a :=
  run_updates hK (.inl ⟨rfl, rfl, rfl, by simp [streamAlloc], rfl, rfl, rfl, rfl⟩) hacts hok

instance (f : File) : ∀ act, Decidable (ReadOk f act)
  | .fread _ _ => inferInstanceAs (Decidable (_ ∨ _ ∨ _))
  | .fputc _ | .fwrite _ _ _ | .fgetc | .ungetc _ | .fseek _ _ | .ftell | .fflush | .setvbuf _ _ _ _ | .fclose _ _ =>
    isTrue trivial

theorem update_reading_slow :
    (Machine.run (step slowKernel) (streamAlloc true true .full (fun _ => 0) (lit "abc"))
      [.fread 2 2, .fseek 1 .set, .fgetc, .ungetc 120, .fread 1 2, .ftell, .fclose true true]).file = lit "abc" :=
  (update_reading slowKernel (fun _ _ _ => ⟨1, rfl, Nat.one_pos⟩) (fun _ => 0) (lit "abc") _ (by simp [Act.IsUpdate])
    (by decide)).1

/-- One byte of a file of two is read, and `fclose` writes it behind them; `ftell` answers 3 before that. -/
theorem update_reading_writes :
    (Machine.run (step ⟨fun _ n => some n, fun _ n => some n⟩) (streamAlloc true true .full (fun _ => 0) (lit "ab"))
      [.fread 1 1, .fclose true true]).file = lit "aba" ∧
    Machine.trace (step ⟨fun _ n => some n, fun _ n => some n⟩) (streamAlloc true true .full (fun _ => 0) (lit "ab"))
      [.fread 1 1, .ftell] = [(.fread 1 1, .data (lit "a") 1), (.ftell, .pos 3)] := by
  refine ⟨by decide, by rfl⟩

end JACLibc.Stdio
