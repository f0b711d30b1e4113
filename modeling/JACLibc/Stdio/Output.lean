import JACLibc.Stdio.Stream

/-!
# Writing to a stream

A stream that only writes holds back the bytes between the start of the data and `_ptr`.  As long as every call meets
`OutputOk`, what `write` has accepted and what is held back are together the bytes that the calls have reported as
written. The condition keeps out the calls after which this fails: a flush that is called complete after a short
`write`, an `fwrite` that takes the whole buffer for free after one, `setvbuf` while bytes are held back or with a
buffer that has no room in front, and an unbuffered `fwrite` that ends inside an element.
-/

namespace JACLibc.Stdio

variable {K : Kernel} {f : File}

/-- `write` accepts at least one byte. -/
def Kernel.Writes (K : Kernel) : Prop := ∀ t n, 0 < n → ∃ k, K.write t n = some k ∧ 0 < k

/-- A write-only stream with room for pushed-back bytes in front of its data. -/
structure Writes (f : File) : Prop where
  rd : f.rd = false
  wr : f.wr = true
  mem : f.mem = false
  lastOp : f.lastOp ≠ .read
  le_ptr : OVRSIZ ≤ f.ptr
  ptr_le : f.ptr ≤ f.end_
  size : f.end_ = f.bufsiz + OVRSIZ
  pos : 0 < f.bufsiz
  bound : f.end_ < 2 ^ 64
  unbuffered : f.bufmode = .unbuffered → f.ptr = OVRSIZ

/-- The bytes held back. -/
def File.pending (f : File) : List UInt8 := f.bytes OVRSIZ (f.ptr - OVRSIZ)

/-- All bytes of the stream so far. -/
def File.sent (f : File) : List UInt8 := f.out ++ f.pending

/-! ### Flushing -/

theorem ptrDiff_of_le {a b : Nat} (h : b ≤ a) (ha : a < 2 ^ 64) : ptrDiff a b = a - b := by
  unfold ptrDiff
  omega

theorem sysWrite_some {data : Nat → UInt8} {n k : Nat} (h : K.write f.calls n = some k) :
    sysWrite K f data n = (some (min k n), { f with
      calls := f.calls + 1, file := overlay f.file f.pos ((List.range (min k n)).map data), pos := f.pos + min k n,
      out := f.out ++ (List.range (min k n)).map data }) := by
  simp [sysWrite, h]

/-- `__jacl_flush_partial` moves the bytes left to the start of the data, and `_ptr` goes back by the number of bytes
written. -/
theorem flushPartial_eq (hle : OVRSIZ ≤ f.ptr) (hpl : f.ptr ≤ f.end_) (hb : f.end_ < 2 ^ 64) {w : Nat}
    (hw : w ≤ f.ptr - OVRSIZ) :
    ∃ buf, flushPartial f w (f.ptr - OVRSIZ) = { f with buf := buf, ptr := f.ptr - w } ∧
      ∀ i < f.ptr - OVRSIZ - w, buf (OVRSIZ + i) = f.buf (OVRSIZ + w + i) := by
  unfold flushPartial
  by_cases hpart : w < f.ptr - OVRSIZ
  · rw [if_pos hpart]
    have hwrap : (OVRSIZ + (f.ptr - OVRSIZ - w)) % 2 ^ 64 = f.ptr - w := by
      rw [Nat.mod_eq_of_lt (by omega)]
      omega
    have hinside : ¬f.end_ < OVRSIZ + (f.ptr - OVRSIZ - w) := by omega
    refine ⟨fun x => if OVRSIZ ≤ x ∧ x < OVRSIZ + (f.ptr - OVRSIZ - w) then f.buf (x + w) else f.buf x,
      by simp only [hwrap, hinside, decide_false, Bool.or_false], ?_⟩
    intro i hi
    dsimp only
    rw [if_pos (by omega), Nat.add_right_comm]
  · rw [if_neg hpart]
    have hptr : OVRSIZ = f.ptr - w := by omega
    refine ⟨f.buf, congrArg (fun p => { f with ptr := p }) hptr, ?_⟩
    intro i hi
    omega

/-- What `__jacl_flush_fd` does when `write` accepts `k` bytes. -/
theorem flushFd_write (hle : OVRSIZ ≤ f.ptr) (hpl : f.ptr ≤ f.end_) (hb : f.end_ < 2 ^ 64) (hne : f.ptr ≠ OVRSIZ)
    {k w : Nat} (hk : K.write f.calls (f.ptr - OVRSIZ) = some k) (hw : w = min k (f.ptr - OVRSIZ)) :
    ∃ buf, flushFd K f = (true, { f with
        calls := f.calls + 1, file := overlay f.file f.pos (f.bytes OVRSIZ w), pos := f.pos + w, out :=
  f.out ++ f.bytes OVRSIZ w,
        buf := buf, ptr := f.ptr - w, lastOp := .write }) ∧
      ∀ i < f.ptr - OVRSIZ - w, buf (OVRSIZ + i) = f.buf (OVRSIZ + w + i) := by
  have hdiff : ptrDiff f.ptr OVRSIZ = f.ptr - OVRSIZ := ptrDiff_of_le hle (by omega)
  have hn : ¬f.ptr - OVRSIZ = 0 := by omega
  obtain ⟨buf, hpart, hbuf⟩ := flushPartial_eq
    (f := { f with
      calls := f.calls + 1, file := overlay f.file f.pos (f.bytes OVRSIZ w), pos := f.pos + w
      out := f.out ++ f.bytes OVRSIZ w }) hle hpl hb (w := w) (by simp only; omega)
  refine ⟨buf, ?_, hbuf⟩
  simp only [flushFd, hdiff, if_neg hn, sysWrite_some hk, ← hw]
  simp only [File.bytes] at hpart ⊢
  rw [hpart]

/-- A stream that writes: what is sent stays the same. -/
theorem flushFd_some {k : Nat} (h : Writes f) (hk : K.write f.calls (f.ptr - OVRSIZ) = some k) (hne : f.ptr ≠ OVRSIZ) :
    ∃ g, flushFd K f = (true, g) ∧ Writes g ∧ g.sent = f.sent ∧ g.calls = f.calls + 1 ∧ g.bufmode = f.bufmode ∧
      g.bufsiz = f.bufsiz ∧ g.ptr = f.ptr - min k (f.ptr - OVRSIZ) := by
  have hle := h.le_ptr
  have hpl := h.ptr_le
  obtain ⟨w, hw⟩ : ∃ w, w = min k (f.ptr - OVRSIZ) := ⟨_, rfl⟩
  obtain ⟨buf, hflush, hbuf⟩ := flushFd_write h.le_ptr h.ptr_le h.bound hne hk hw
  have hptr : f.ptr - w - OVRSIZ = f.ptr - OVRSIZ - w := by omega
  refine ⟨_, hflush, ⟨h.rd, h.wr, h.mem, by simp, ?_, ?_, h.size, h.pos, h.bound, ?_⟩, ?_, rfl, rfl, rfl, by rw [← hw]⟩
  · simp only
    omega
  · simp only
    omega
  · intro hun
    exact absurd (h.unbuffered hun) hne
  · have hsum : f.ptr - OVRSIZ = w + (f.ptr - OVRSIZ - w) := by omega
    have hadd : f.pending = f.bytes OVRSIZ w ++ f.bytes (OVRSIZ + w) (f.ptr - OVRSIZ - w) :=
      (congrArg (f.bytes OVRSIZ) hsum).trans (f.bytes_add OVRSIZ w _)
    have hrest : File.bytes { f with buf := buf } OVRSIZ (f.ptr - OVRSIZ - w) =
      f.bytes (OVRSIZ + w) (f.ptr - OVRSIZ - w) := by
      apply List.map_congr_left
      intro i hi
      exact hbuf i (List.mem_range.1 hi)
    rw [File.sent, File.sent, hadd, ← List.append_assoc, ← hrest]
    simp only [File.pending, hptr]
    rfl

theorem flushFd_none (h : f.ptr = OVRSIZ) : flushFd K f = (true, f) := by simp [flushFd, h, ptrDiff, OVRSIZ]

theorem bufferFlush_eq (h : Writes f) : bufferFlush K f = flushFd K f := by simp [bufferFlush, h.wr, h.mem]

/-- What a flush keeps. -/
structure Flushed (f g : File) : Prop where
  writes : Writes g
  sent : g.sent = f.sent
  bufmode : g.bufmode = f.bufmode
  bufsiz : g.bufsiz = f.bufsiz
  ptr_le : g.ptr ≤ f.ptr

theorem Flushed.refl (h : Writes f) : Flushed f f := ⟨h, rfl, rfl, rfl, Nat.le_refl _⟩

theorem bufferFlush_spec (hK : K.Writes) (h : Writes f) :
    ∃ g, bufferFlush K f = (true, g) ∧ Flushed f g ∧ (f.ptr ≠ OVRSIZ → g.ptr < f.ptr) := by
  rw [bufferFlush_eq h]
  have hle := h.le_ptr
  by_cases hptr : f.ptr = OVRSIZ
  · exact ⟨f, flushFd_none hptr, .refl h, fun hne => absurd hptr hne⟩
  · obtain ⟨k, hk, hk0⟩ := hK f.calls (f.ptr - OVRSIZ) (by omega)
    obtain ⟨g, hg, hw, hs, -, hm, hb, hp⟩ := flushFd_some h hk hptr
    exact ⟨g, hg, ⟨hw, hs, hm, hb, by omega⟩, fun _ => by omega⟩

/-- Nothing is held back, or the next `write` accepts all of it. -/
def Drains (K : Kernel) (f : File) : Prop :=
  f.ptr = OVRSIZ ∨ ∃ k, K.write f.calls (f.ptr - OVRSIZ) = some k ∧ f.ptr - OVRSIZ ≤ k

theorem bufferFlush_drains (h : Writes f) (hd : Drains K f) :
    ∃ g, bufferFlush K f = (true, g) ∧ Flushed f g ∧ g.ptr = OVRSIZ := by
  rw [bufferFlush_eq h]
  have hle := h.le_ptr
  by_cases hptr : f.ptr = OVRSIZ
  · exact ⟨f, flushFd_none hptr, .refl h, hptr⟩
  · rcases hd with hd | ⟨k, hk, hkn⟩
    · exact absurd hd hptr
    · obtain ⟨g, hg, hw, hs, -, hm, hb, hp⟩ := flushFd_some h hk hptr
      exact ⟨g, hg, ⟨hw, hs, hm, hb, by omega⟩, by omega⟩

/-- The condition under which `__jacl_buffer_output` flushes. -/
def Flushes (f : File) : Prop :=
  f.bufmode = .unbuffered ∨ f.ptr ≥ f.end_ ∨ (f.bufmode = .line ∧ f.ptr > OVRSIZ ∧ f.buf (f.ptr - 1) = asc '\n')

instance (f : File) : Decidable (Flushes f) := inferInstanceAs (Decidable (_ ∨ _ ∨ _))

theorem bufferOutput_eq (h : Writes f) : bufferOutput K f = if Flushes f then bufferFlush K f else (true, f) := by
  rw [bufferOutput, if_neg (by simp [h.wr])]
  rfl

theorem bufferOutput_spec (hK : K.Writes) (h : Writes f) : ∃ g, bufferOutput K f = (true, g) ∧ Flushed f g := by
  rw [bufferOutput_eq h]
  by_cases hf : Flushes f
  · rw [if_pos hf]
    obtain ⟨g, hg, hfl, -⟩ := bufferFlush_spec hK h
    exact ⟨g, hg, hfl⟩
  · rw [if_neg hf]
    exact ⟨f, rfl, .refl h⟩

/-! ### Putting bytes into the buffer -/

/-- Bytes that fit are held back behind the others. -/
theorem Writes.put (h : Writes f) (hmode : f.bufmode ≠ .unbuffered) {data : List UInt8}
    (hfit : f.ptr + data.length ≤ f.end_) (op : LastOp) (hop : op ≠ .read) :
    Writes { f.put data with lastOp := op } ∧ File.sent { f.put data with lastOp := op } = f.sent ++ data := by
  have hle := h.le_ptr
  refine ⟨⟨h.rd, h.wr, h.mem, hop, ?_, hfit, h.size, h.pos, h.bound, fun hun => absurd hun hmode⟩, ?_⟩
  · simp only [File.put]
    omega
  · have hbytes : (f.store f.ptr data).bytes OVRSIZ (f.ptr + data.length - OVRSIZ) = f.pending ++ data := by
      rw [show f.ptr + data.length - OVRSIZ = f.ptr - OVRSIZ + data.length by omega, File.bytes_add,
        Nat.add_sub_cancel' hle, File.bytes_store, f.store_after data (by omega)]
      rfl
    rw [File.sent, File.sent, List.append_assoc]
    exact congrArg (f.out ++ ·) hbytes

theorem fputc_spec (hK : K.Writes) (h : Writes f) (c : Int) :
    ∃ g, fputc K c f = (some (toByte c), g) ∧ Writes g ∧ g.sent = f.sent ++ [toByte c] := by
  have hswitch : switchToWrite f = f := by simp [switchToWrite, h.rd]
  simp only [fputc, hswitch]
  rw [if_neg (by simp [h.wr]), if_neg h.lastOp]
  by_cases hmode : f.bufmode = .unbuffered
  · rw [if_pos ⟨hmode, by simp [h.mem]⟩]
    obtain ⟨k, hk, hk0⟩ := hK f.calls 1 Nat.one_pos
    have hmin : min k 1 = 1 := by omega
    have hptr := h.unbuffered hmode
    rw [sysWrite_some hk, hmin]
    refine ⟨_, rfl, ⟨h.rd, h.wr, h.mem, by simp, h.le_ptr, h.ptr_le, h.size, h.pos, h.bound, h.unbuffered⟩, ?_⟩
    simp [File.sent, File.pending, hptr, File.bytes]
  rw [if_neg fun hm => hmode hm.1]
  -- a full buffer is flushed first, which makes room for a byte
  obtain ⟨g, hg, hfl, hroom⟩ : ∃ g, (if f.ptr ≥ f.end_ then bufferOutput K f else (true, f)) = (true, g) ∧ Flushed f g ∧
      g.ptr < g.end_ := by
    have hsize := h.size
    have hpos := h.pos
    by_cases hfull : f.ptr ≥ f.end_
    · rw [if_pos hfull, bufferOutput_eq h, if_pos (.inr (.inl hfull))]
      obtain ⟨g, hg, hfl, hlt⟩ := bufferFlush_spec hK h
      have hb := hfl.bufsiz
      have hsize' := hfl.writes.size
      have hlt' := hlt (by omega)
      have hpl := h.ptr_le
      exact ⟨g, hg, hfl, by omega⟩
    · rw [if_neg hfull]
      exact ⟨f, rfl, .refl h, by omega⟩
  rw [hg]
  dsimp only
  have hmode' : g.bufmode ≠ .unbuffered := hfl.bufmode ▸ hmode
  obtain ⟨hput, hsent⟩ := hfl.writes.put hmode' (show g.ptr + [toByte c].length ≤ g.end_ from hroom) .write (by simp)
  rw [hfl.sent] at hsent
  by_cases hline : (g.put [toByte c]).bufmode = .line ∧ c = 10
  · rw [if_pos hline]
    obtain ⟨g', hg', hfl'⟩ := bufferOutput_spec hK hput
    rw [hg']
    exact ⟨g', rfl, hfl'.writes, hfl'.sent.trans hsent⟩
  · rw [if_neg hline]
    exact ⟨_, rfl, hput, hsent⟩

/-! ### `fwrite` -/

/-- Whenever `fwrite` of `n` bytes finds the buffer full, `write` accepts all of it, or as much as is still to be
copied. -/
def Fits (K : Kernel) (f : File) (n : Nat) : Prop :=
  ∀ i, f.end_ - f.ptr + i * f.bufsiz < n →
    ∃ k, K.write (f.calls + i) f.bufsiz = some k ∧ min f.bufsiz (n - (f.end_ - f.ptr + i * f.bufsiz)) ≤ k

/-- One turn of the loop of `fwrite`: room is made, the bytes fit, and the condition holds for the rest. -/
theorem fwrite_turn (h : Writes f) {n : Nat} (hn : 0 < n) (hfit : Fits K f n) :
    ∃ g m, (if ptrDiff f.end_ f.ptr = 0 then bufferOutput K f else (true, f)) = (true, g) ∧ Flushed f g ∧
      m = min n (if ptrDiff f.end_ f.ptr = 0 then g.bufsiz else ptrDiff f.end_ f.ptr) ∧ 0 < m ∧ g.ptr + m ≤ g.end_ ∧
      ∀ u : File, u.ptr = g.ptr + m → u.end_ = g.end_ → u.bufsiz = g.bufsiz → u.calls = g.calls → Fits K u (n - m) := by
  have hsize := h.size
  have hpl := h.ptr_le
  have hpos := h.pos
  have hdiff : ptrDiff f.end_ f.ptr = f.end_ - f.ptr := ptrDiff_of_le hpl h.bound
  rw [hdiff]
  by_cases hroom : f.end_ - f.ptr = 0
  · simp only [if_pos hroom]
    obtain ⟨k, hk, hkn⟩ := hfit 0 (by omega)
    have hfull : f.ptr - OVRSIZ = f.bufsiz := by omega
    rw [Nat.add_zero, ← hfull] at hk
    obtain ⟨g, hg, hw, hs, hcalls, hm, hb, hp⟩ := flushFd_some h hk (by omega)
    have hsize' := hw.size
    rw [Nat.zero_mul, hroom, Nat.add_zero, Nat.sub_zero] at hkn
    refine ⟨g, min n g.bufsiz, ?_, ⟨hw, hs, hm, hb, by omega⟩, rfl, by omega, by omega, ?_⟩
    · rw [bufferOutput_eq h, if_pos (.inr (.inl (by omega))), bufferFlush_eq h, hg]
    · intro u hu1 hu2 hu3 hu4 i hi
      -- bytes are left only if the whole buffer has been flushed and filled again
      have hmul : (i + 1) * f.bufsiz = i * f.bufsiz + f.bufsiz := Nat.succ_mul _ _
      rw [hu1, hu2, hu3, hb] at hi
      obtain ⟨k', hk', hkn'⟩ := hfit (i + 1) (by omega)
      refine ⟨k', ?_, ?_⟩
      · rw [hu3, hu4, hcalls, hb, Nat.add_assoc, Nat.add_comm 1 i]
        exact hk'
      · rw [hu1, hu2, hu3, hb]
        omega
  · simp only [if_neg hroom]
    refine ⟨f, min n (f.end_ - f.ptr), rfl, .refl h, rfl, by omega, by omega, ?_⟩
    intro u hu1 hu2 hu3 hu4 i hi
    rw [hu1, hu2, hu3] at hi
    obtain ⟨k', hk', hkn'⟩ := hfit i (by omega)
    refine ⟨k', by rw [hu3, hu4]; exact hk', ?_⟩
    rw [hu1, hu2, hu3]
    omega

theorem fwriteLoop_spec {fuel : Nat} (data : List UInt8) (newline : Bool) (h : Writes f)
    (hmode : f.bufmode ≠ .unbuffered) (hfit : Fits K f data.length) (hf : data.length ≤ fuel) :
    ∃ nl g, fwriteLoop K fuel data newline f = (data.length, nl, g) ∧ Writes g ∧ g.sent = f.sent ++ data ∧
      g.bufmode = f.bufmode := by
  induction fuel generalizing f data newline with
  | zero =>
    obtain rfl : data = [] := List.length_eq_zero_iff.1 (by omega)
    exact ⟨newline, f, rfl, h, by simp, rfl⟩
  | succ fuel ih =>
    by_cases hdata : data.length = 0
    · obtain rfl : data = [] := List.length_eq_zero_iff.1 hdata
      exact ⟨newline, f, rfl, h, by simp, rfl⟩
    obtain ⟨g, m, hg, hfl, hm, hm0, hroom, hnext⟩ := fwrite_turn h (Nat.pos_of_ne_zero hdata) hfit
    have hlen : (data.take m).length = m := by
      rw [List.length_take, hm]
      omega
    obtain ⟨hput, hsent⟩ := hfl.writes.put (hfl.bufmode ▸ hmode) (show g.ptr + (data.take m).length ≤ g.end_ by omega)
      g.lastOp
      hfl.writes.lastOp
    have hrest : Fits K (g.put (data.take m)) (data.drop m).length := by
      rw [List.length_drop]
      exact hnext _ (by rw [File.put, hlen]) rfl rfl rfl
    obtain ⟨nl, u, hu, hw, hs, hb⟩ := ih (f := g.put (data.take m)) (data.drop m)
      (newline || decide (g.bufmode = .line ∧ asc '\n' ∈ data.take m)) hput (hfl.bufmode ▸ hmode) hrest
      (by rw [List.length_drop]; omega)
    refine ⟨nl, u, ?_, hw, ?_, hb.trans hfl.bufmode⟩
    · rw [fwriteLoop, if_neg hdata]
      simp only [hg, ← hm, hu, List.length_drop]
      congr 1
      omega
    · rw [hs]
      refine (congrArg (· ++ data.drop m) hsent).trans ?_
      rw [hfl.sent, List.append_assoc, List.take_append_drop]

/-! ### The calls -/

/-- The calls that a stream bears.  The first two parts of the condition on `fwrite` are what its caller promises. -/
def OutputOk (K : Kernel) (f : File) : Act → Prop
  | .fputc _ => True
  | .fwrite data size nmemb =>
    data.length = size * nmemb ∧ data.length < 2 ^ 64 ∧
      if f.bufmode = .unbuffered then ∀ k, K.write f.calls data.length = some k → size ∣ min k data.length
      else Fits K f data.length
  | .fflush | .fclose _ _ => Drains K f
  | .setvbuf buf _ mode size =>
    buf = false ∧ mode ≠ .unbuffered ∧ size + OVRSIZ < 2 ^ 64 ∧ (f.ptr = OVRSIZ ∨ (Flushes f ∧ Drains K f))
  | _ => False

/-- The bytes that a call reports as written. -/
def Act.written : Act × Ret → List UInt8
  | (.fputc c, .char (some _)) => [toByte c]
  | (.fwrite data size _, .count n) => data.take (n * size)
  | _ => []

theorem fwrite_spec (hK : K.Writes) (h : Writes f) {data : List UInt8} {size nmemb : Nat}
    (hok : OutputOk K f (.fwrite data size nmemb)) :
    ∃ n g, fwrite K data size nmemb f = (n, g) ∧ Writes g ∧ g.sent = f.sent ++ data.take (n * size) := by
  obtain ⟨hlen, hbound, hok⟩ := hok
  rw [fwrite]
  by_cases h0 : size = 0 ∨ nmemb = 0
  · rw [if_pos h0]
    exact ⟨0, f, rfl, h, by simp⟩
  rw [if_neg h0]
  obtain ⟨hs0, hn0⟩ := not_or.1 h0
  have htotal : total size nmemb = data.length := by rw [total, ← hlen, Nat.mod_eq_of_lt hbound]
  have hpos : 0 < data.length := by
    rw [hlen]
    exact Nat.mul_pos (Nat.pos_of_ne_zero hs0) (Nat.pos_of_ne_zero hn0)
  simp only [htotal]
  by_cases hmode : f.bufmode = .unbuffered
  · rw [if_pos ⟨by simp [h.mem], .inl hmode⟩]
    obtain ⟨k, hk, -⟩ := hK f.calls data.length hpos
    rw [if_pos hmode] at hok
    have hdvd := hok k hk
    rw [sysWrite_some hk]
    refine ⟨_, _, rfl, ⟨h.rd, h.wr, h.mem, h.lastOp, h.le_ptr, h.ptr_le, h.size, h.pos, h.bound, h.unbuffered⟩, ?_⟩
    have hptr := h.unbuffered hmode
    have htake : (List.range (min k data.length)).map (fun i => data.getD i 0) = data.take (min k data.length) := by
      apply List.ext_getElem
      · simp
      · intro i h1 h2
        have hi : i < data.length := by
          simp at h1
          omega
        simp [hi]
    rw [Nat.div_mul_cancel hdvd, ← htake]
    simp [File.sent, File.pending, hptr, File.bytes]
  · have hle := h.le_ptr
    rw [if_neg hmode] at hok
    rw [if_neg (by rintro ⟨-, hun | ⟨hptr, -⟩⟩; exacts [hmode hun, by rw [hptr, OVRSIZ] at hle; omega]),
      List.take_length]
    obtain ⟨nl, g, hg, hw, hs, hb⟩ := fwriteLoop_spec data false h hmode hok (Nat.le_refl _)
    rw [hg]
    dsimp only
    have hall : data.length / size * size = data.length := Nat.div_mul_cancel (hlen ▸ Nat.dvd_mul_right _ _)
    by_cases hnl : g.bufmode = .line ∧ nl = true
    · rw [if_pos hnl]
      obtain ⟨u, hu, hfl⟩ := bufferOutput_spec hK hw
      exact ⟨_, _, rfl, by rw [hu]; exact hfl.writes, by rw [hu, hall, List.take_length, hfl.sent, hs]⟩
    · rw [if_neg hnl]
      exact ⟨_, _, rfl, hw, by rw [hall, List.take_length, hs]⟩

theorem setvbuf_spec (h : Writes f) {buf : Bool} {memory : Nat → UInt8} {mode : BufMode} {size : Nat}
    (hok : OutputOk K f (.setvbuf buf memory mode size)) :
    ∃ g, setvbuf K buf memory mode size f = (true, g) ∧ Writes g ∧ g.sent = f.sent := by
  obtain ⟨hbuf, hmode, hsize, hdrain⟩ := hok
  -- nothing is held back once the output function has been called
  obtain ⟨g, hg, hfl, hptr⟩ : ∃ g, bufferOutput K f = (true, g) ∧ Flushed f g ∧ g.ptr = OVRSIZ := by
    rw [bufferOutput_eq h]
    by_cases hf : Flushes f
    · rw [if_pos hf]
      exact bufferFlush_drains h (hdrain.elim .inl (·.2))
    · rw [if_neg hf]
      exact ⟨f, rfl, .refl h, hdrain.resolve_right fun hd => hf hd.1⟩
  have hsent : g.out = f.sent := by
    rw [← hfl.sent, File.sent, File.pending, hptr, Nat.sub_self]
    simp [File.bytes]
  obtain ⟨n, hn, hn0, hnb⟩ : ∃ n, n = (if size > 0 then size else BUFSIZ) ∧ 0 < n ∧ n + OVRSIZ < 2 ^ 64 := by
    refine ⟨_, rfl, ?_⟩
    by_cases hs : size > 0
    · rw [if_pos hs]
      exact ⟨hs, hsize⟩
    · rw [if_neg hs]
      simp [BUFSIZ, OVRSIZ]
  simp only [setvbuf, if_pos h.wr, hg, if_neg hmode, hbuf, Bool.false_eq_true, if_false, ← hn, Nat.mod_eq_of_lt hnb]
  refine ⟨_, rfl, ⟨hfl.writes.rd, hfl.writes.wr, hfl.writes.mem, hfl.writes.lastOp, Nat.le_refl _, ?_, rfl, hn0, hnb,
    fun hun => absurd hun hmode⟩, ?_⟩
  · simp only
    omega
  · simp [File.sent, File.pending, File.bytes, hsent]

theorem fflush_spec (h : Writes f) (hd : Drains K f) :
    ∃ g, fflush K f = (true, g) ∧ Writes g ∧ g.sent = f.sent ∧ g.out = g.sent := by
  obtain ⟨g, hg, hfl, hptr⟩ := bufferFlush_drains h hd
  refine ⟨g, by rw [fflush, if_pos h.wr, hg], hfl.writes, hfl.sent, ?_⟩
  rw [File.sent, File.pending, hptr, Nat.sub_self]
  simp [File.bytes]

theorem fclose_eq (h : Writes f) (fsync close : Bool) :
    fclose K fsync close f = ((fflush K f).1 && fsync && close, (fflush K f).2) := by
  rw [fclose, if_neg (by simp [h.mem]), if_pos h.wr, fflush, if_pos h.wr]

theorem step_output (hK : K.Writes) (h : Writes f) {act : Act} (hok : OutputOk K f act) :
    Writes (step K f act).2 ∧ (step K f act).2.sent = f.sent ++ Act.written (act, (step K f act).1) := by
  cases act with
  | fputc c =>
    obtain ⟨g, hg, hw, hs⟩ := fputc_spec hK h c
    simp only [step, hg]
    exact ⟨hw, hs⟩
  | fwrite data size nmemb =>
    obtain ⟨n, g, hg, hw, hs⟩ := fwrite_spec hK h hok
    simp only [step, hg]
    exact ⟨hw, hs⟩
  | fflush =>
    obtain ⟨g, hg, hw, hs, -⟩ := fflush_spec h hok
    simp only [step, hg]
    exact ⟨hw, by rw [hs]; simp [Act.written]⟩
  | fclose fsync close =>
    obtain ⟨g, hg, hw, hs, -⟩ := fflush_spec h hok
    simp only [step, fclose_eq h, hg]
    exact ⟨hw, by rw [hs]; simp [Act.written]⟩
  | setvbuf buf memory mode size =>
    obtain ⟨g, hg, hw, hs⟩ := setvbuf_spec h hok
    simp only [step, hg]
    exact ⟨hw, by rw [hs]; simp [Act.written]⟩
  | _ => exact hok.elim

/-! ### Runs -/

theorem run_output (hK : K.Writes) {acts : List Act} (h : Writes f)
    (hok : Machine.Guarded (step K) (OutputOk K) f acts) :
    Writes (Machine.run (step K) f acts) ∧
      (Machine.run (step K) f acts).sent = f.sent ++ (Machine.trace (step K) f acts).flatMap Act.written := by
  induction acts generalizing f with
  | nil => exact ⟨h, by simp [Machine.run, Machine.trace]⟩
  | cons act acts ih =>
    obtain ⟨hw, hs⟩ := step_output hK h hok.1
    obtain ⟨hw', hs'⟩ := ih hw hok.2
    refine ⟨hw', ?_⟩
    rw [Machine.run, Machine.trace, List.flatMap_cons, hs', hs, List.append_assoc]

theorem writes_streamAlloc (mode : BufMode) (memory : Nat → UInt8) (file : List UInt8) :
    Writes (streamAlloc false true mode memory file) :=
  ⟨rfl, rfl, rfl, by simp [streamAlloc], Nat.le_refl _, by simp [streamAlloc, OVRBUF, OVRSIZ, BUFSIZ], rfl,
    by simp [streamAlloc, BUFSIZ], by simp [streamAlloc, OVRBUF, OVRSIZ, BUFSIZ], fun _ => rfl⟩

/-- In every run of output calls on a write-only stream that all meet `OutputOk`, the bytes delivered are a prefix of
those reported as written, and all of them after an `fflush` or `fclose` that answers 0. -/
theorem output_integrity (K : Kernel) (hK : K.Writes) (mode : BufMode) (memory : Nat → UInt8) (file : List UInt8)
    (acts : List Act) (hok : Machine.Guarded (step K) (OutputOk K) (streamAlloc false true mode memory file) acts) :
    (Machine.run (step K) (streamAlloc false true mode memory file) acts).out <+:
      (Machine.trace (step K) (streamAlloc false true mode memory file) acts).flatMap Act.written ∧
    ∀ before act, acts = before ++ [act] → (act = .fflush ∨ ∃ fsync close, act = .fclose fsync close) →
      (step K (Machine.run (step K) (streamAlloc false true mode memory file) before) act).1 = .status true →
      (Machine.run (step K) (streamAlloc false true mode memory file) acts).out =
        (Machine.trace (step K) (streamAlloc false true mode memory file) acts).flatMap Act.written := by
  have hstart : (streamAlloc false true mode memory file).sent = [] := rfl
  obtain ⟨-, hsent⟩ := run_output hK (writes_streamAlloc mode memory file) hok
  rw [hstart, List.nil_append] at hsent
  refine ⟨⟨_, hsent⟩, ?_⟩
  rintro before act rfl hact -
  obtain ⟨hbefore, hlast⟩ := Machine.guarded_append.1 hok
  obtain ⟨hw, -⟩ := run_output hK (writes_streamAlloc mode memory file) hbefore
  rw [← hsent, Machine.run_append]
  rcases hact with rfl | ⟨fsync, close, rfl⟩
  · obtain ⟨g, hg, -, -, hout⟩ := fflush_spec hw hlast.1
    simpa only [Machine.run, step, hg] using hout
  · obtain ⟨g, hg, -, -, hout⟩ := fflush_spec hw hlast.1
    simpa only [Machine.run, step, fclose_eq hw, hg] using hout

/-- `write` that accepts everything, and `write` that accepts one byte at a time. -/
def wholeKernel : Kernel := ⟨fun _ n => some n, fun _ n => some n⟩

def byteKernel : Kernel := ⟨fun _ _ => some 1, fun _ n => some n⟩

theorem wholeKernel_writes : wholeKernel.Writes := fun _ n hn => ⟨n, rfl, hn⟩

theorem byteKernel_writes : byteKernel.Writes := fun _ _ _ => ⟨1, rfl, Nat.one_pos⟩

theorem fits_wholeKernel (f : File) (n : Nat) : Fits wholeKernel f n := fun _ _ => ⟨f.bufsiz, rfl, Nat.min_le_left _ _⟩

theorem drains_wholeKernel (f : File) : Drains wholeKernel f := .inr ⟨_, rfl, Nat.le_refl _⟩

/-- A byte, three more in two calls, and the end of the stream. -/
def outputDemo : List Act :=
  [.setvbuf false (fun _ => 0) .line 64, .fputc 97, .fwrite [98, 10] 1 2, .fflush, .fwrite [99] 1 1, .fclose true true]

theorem output_integrity_whole :
    (Machine.trace (step wholeKernel) (streamAlloc false true .full (fun _ => 0) []) outputDemo).flatMap Act.written =
      [97, 98, 10, 99] ∧
    (Machine.run (step wholeKernel) (streamAlloc false true .full (fun _ => 0) []) outputDemo).out =
      [97, 98, 10, 99] := by
  have hok : Machine.Guarded (step wholeKernel) (OutputOk wholeKernel)
      (streamAlloc false true .full (fun _ => 0) []) outputDemo :=
    ⟨⟨rfl, by decide, by decide, .inl rfl⟩, trivial, ⟨rfl, by decide, fits_wholeKernel _ _⟩, drains_wholeKernel _,
      ⟨rfl, by decide, fits_wholeKernel _ _⟩, drains_wholeKernel _, trivial⟩
  have h := output_integrity wholeKernel wholeKernel_writes .full (fun _ => 0) [] outputDemo hok
  have hwritten : (Machine.trace (step wholeKernel) (streamAlloc false true .full (fun _ => 0) [])
      outputDemo).flatMap Act.written = [97, 98, 10, 99] := by decide
  refine ⟨hwritten, ?_⟩
  rw [← hwritten]
  exact h.2 (outputDemo.take 5) _ rfl (.inr ⟨true, true, rfl⟩) (by decide)

/-- Bytes are lost although the last call answers 0: after a short `write`, and after `setvbuf`. -/
theorem output_integrity_short :
    byteKernel.Writes ∧
    (let f := Machine.run (step byteKernel) (streamAlloc false true .full (fun _ => 0) []) [.fputc 97, .fputc 98]
    (step byteKernel f .fflush).1 = .status true ∧ (step byteKernel f .fflush).2.out = [97] ∧
      (step byteKernel f (.fclose true true)).1 = .status true ∧ (step byteKernel f (.fclose true true)).2.out = [97]) ∧
    (let f := Machine.run (step byteKernel) (streamAlloc false true .full (fun _ => 0) [])
      [.fputc 97, .setvbuf false (fun _ => 0) .full 64]
    (step byteKernel f (.fclose true true)).1 = .status true ∧ (step byteKernel f (.fclose true true)).2.out = []) := by
  refine ⟨byteKernel_writes, ?_, ?_⟩ <;> decide

end JACLibc.Stdio
