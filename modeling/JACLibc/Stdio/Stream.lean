import JACLibc.CString
import JACLibc.Lib.Run

/-!
# Streams of `stdio.h`

A `FILE` with the memory of its buffer and with the file that its descriptor is open on.  Pointers into the buffer are
offsets from `_base`, so that `_base` itself is 0 and `__JACL_BUF_DATA` is `OVRSIZ`; differences of pointers are of
type `size_t`. The system calls are answered by a `Kernel`, by number of the call and size of the transfer: `write`
accepts a part of the bytes offered or fails, `read` gives a part of the bytes there are up to the size asked for.

Streams with functions of their own (`__SCUSTOM`), locks, `errno` and failing allocations are left out, and so are the
fields `_read_pos`, `_write_pos`, `_orientation` and `_ovrsiz`, which nothing reads.
-/

namespace JACLibc.Stdio

def BUFSIZ : Nat := 1024

/-- The room for pushed-back bytes in front of the data. -/
def OVRSIZ : Nat := 32

def OVRBUF : Nat := BUFSIZ + OVRSIZ

/-- `_IOFBF`, `_IOLBF` and `_IONBF`. -/
inductive BufMode
  | full | line | unbuffered
  deriving DecidableEq, Repr

/-- The values of `_last_op`. -/
inductive LastOp
  | none | read | write
  deriving DecidableEq, Repr

inductive Whence
  | set | cur | fromEnd
  deriving DecidableEq, Repr

/-- What the system calls answer: to the call with this number and size, an error or a number of bytes. -/
structure Kernel where
  write : Nat → Nat → Option Nat
  read : Nat → Nat → Option Nat

/-- `FILE`, with the memory from `_base` on, and the file of its descriptor.  The flags are `__SRD`, `__SWR`,
`__SEOF`, `__SERR` and `__SMEM`; `grows` stands for the state of `open_memstream` in `_tmpfname`.  Not in the source:
`out`, all bytes that `write` has accepted, and `outside`, whether a byte was stored at `_end` or beyond. -/
structure File where
  cnt : Nat
  ptr : Nat
  end_ : Nat
  buf : Nat → UInt8
  rd : Bool
  wr : Bool
  eof : Bool
  err : Bool
  mem : Bool
  grows : Bool
  bufmode : BufMode
  lastOp : LastOp
  bufsiz : Nat
  file : List UInt8
  pos : Nat
  calls : Nat
  out : List UInt8
  outside : Bool

namespace File

/-- `n` bytes of the buffer from `off` on. -/
def bytes (f : File) (off n : Nat) : List UInt8 := (List.range n).map fun i => f.buf (off + i)

/-- Bytes stored into the buffer from `off` on. -/
def store (f : File) (off : Nat) (data : List UInt8) : File :=
  { f with
    buf := fun x => if off ≤ x ∧ x < off + data.length then data.getD (x - off) 0 else f.buf x
    outside := f.outside || (0 < data.length ∧ f.end_ < off + data.length) }

/-- Bytes stored at `_ptr`, which moves behind them. -/
def put (f : File) (data : List UInt8) : File := { f.store f.ptr data with ptr := f.ptr + data.length }

/-- `__JACL_BUF_RESET` -/
def reset (f : File) : File := { f with cnt := 0, ptr := OVRSIZ }

end File

/-- A difference of two pointers. -/
def ptrDiff (a b : Nat) : Nat := (a + (2 ^ 64 - b)) % 2 ^ 64

/-- The content of a file after a write of `data` at `pos`; a gap is filled with zeros. -/
def overlay (file : List UInt8) (pos : Nat) (data : List UInt8) : List UInt8 :=
  file.take pos ++ List.replicate (pos - file.length) 0 ++ data ++ file.drop (pos + data.length)

section Functions

variable (K : Kernel)

/-- `write` of `n` bytes that start with `data 0`. -/
def sysWrite (f : File) (data : Nat → UInt8) (n : Nat) : Option Nat × File :=
  match K.write f.calls n with
  | none => (none, { f with calls := f.calls + 1 })
  | some k =>
    let accepted := (List.range (min k n)).map data
    (some (min k n), { f with
      calls := f.calls + 1, file := overlay f.file f.pos accepted, pos := f.pos + accepted.length, out :=
        f.out ++ accepted })

/-- `__jacl_flush_partial` -/
def flushPartial (f : File) (written toWrite : Nat) : File :=
  if written < toWrite then
    { f with
      buf := fun x => if OVRSIZ ≤ x ∧ x < OVRSIZ + (toWrite - written) then f.buf (x + written) else f.buf x
      outside := f.outside || f.end_ < OVRSIZ + (toWrite - written)
      ptr := (OVRSIZ + (toWrite - written)) % 2 ^ 64 }
  else { f with ptr := OVRSIZ }

/-- `__jacl_flush_fd`: whether the answer is 0, not `EOF`. -/
def flushFd (f : File) : Bool × File :=
  let toWrite := ptrDiff f.ptr OVRSIZ
  if toWrite = 0 then (true, f)
  else
    match sysWrite K f (fun i => f.buf (OVRSIZ + i)) toWrite with
    | (none, f) => (false, { f with err := true })
    | (some written, f) => (true, { flushPartial f written toWrite with lastOp := .write })

/-- `__jacl_flush_mem` -/
def flushMem (f : File) : Bool × File :=
  let written := f.ptr
  if f.ptr ≥ f.end_ ∧ ¬f.grows then (false, { f with err := true })
  else
    let f :=
      if f.ptr ≥ f.end_ then
        { f with
          buf := fun x => if f.bufsiz ≤ x ∧ x < 2 * f.bufsiz then 0 else f.buf x
          end_ := 2 * f.bufsiz, bufsiz := 2 * f.bufsiz }
      else f
    let f := if f.grows ∧ written < f.bufsiz then f.store written [0] else f
    (true, { f with lastOp := .write })

/-- `__jacl_buffer_flush` -/
def bufferFlush (f : File) : Bool × File :=
  if ¬f.wr then (true, f) else if f.mem then flushMem f else flushFd K f

/-- `__jacl_buffer_output` -/
def bufferOutput (f : File) : Bool × File :=
  if ¬f.wr then (true, f)
  else if f.bufmode = .unbuffered ∨ f.ptr ≥ f.end_ ∨
      (f.bufmode = .line ∧ f.ptr > OVRSIZ ∧ f.buf (f.ptr - 1) = asc '\n') then bufferFlush K f
  else (true, f)

/-- `__jacl_buffer_reload`; no byte for `EOF`. -/
def bufferReload (f : File) : Option UInt8 × File :=
  if ¬f.rd then (none, f)
  else
    let f := f.reset
    match K.read f.calls (min BUFSIZ (f.file.length - f.pos)) with
    | none => (none, { f with calls := f.calls + 1, err := true })
    | some k =>
      let got := (f.file.drop f.pos).take (min k BUFSIZ)
      let f := { f.store f.ptr got with calls := f.calls + 1, pos := f.pos + got.length }
      if got.length = 0 then (none, { f with eof := true })
      else (some (f.buf f.ptr), { f with cnt := got.length - 1, lastOp := .read, ptr := f.ptr + 1 })

/-- `__jacl_buffer_input` -/
def bufferInput (f : File) : Option UInt8 × File :=
  if ¬f.rd then (none, f)
  else
    let f := if f.lastOp = .write then (bufferFlush K f).2.reset else f
    if f.mem then
      if f.ptr ≥ f.end_ then (none, { f with eof := true })
      else (some (f.buf f.ptr), { f with lastOp := .read, ptr := f.ptr + 1 })
    else if f.cnt > 0 then (some (f.buf f.ptr), { f with cnt := f.cnt - 1, ptr := f.ptr + 1 })
    else bufferReload K f

/-- `__jacl_switch_to_read` -/
def switchToRead (f : File) : Bool × File :=
  if f.wr then
    match bufferFlush K f with
    | (false, f) => (false, f)
    | (true, f) => (true, { f with wr := false, rd := true }.reset)
  else (true, f)

/-- `__jacl_switch_to_write` -/
def switchToWrite (f : File) : File :=
  if f.rd ∧ ¬f.wr then { f with rd := false, wr := true }.reset else f

/-- `fgetc` -/
def fgetc (f : File) : Option UInt8 × File :=
  match switchToRead K f with
  | (false, f) => (none, f)
  | (true, f) => bufferInput K f

/-- `(unsigned char)c` -/
def toByte (c : Int) : UInt8 := (c % 256).toNat.toUInt8

/-- `fputc` -/
def fputc (c : Int) (f : File) : Option UInt8 × File :=
  let f := switchToWrite f
  if ¬f.wr then (none, f)
  else
    let f := if f.lastOp = .read then f.reset else f
    if f.bufmode = .unbuffered ∧ ¬f.mem then
      match sysWrite K f (fun _ => toByte c) 1 with
      | (none, f) => (none, { f with err := true })
      | (some _, f) => (some (toByte c), { f with lastOp := .write })
    else
      match if f.ptr ≥ f.end_ then bufferOutput K f else (true, f) with
      | (false, f) => (none, f)
      | (true, f) =>
        let f := { f.put [toByte c] with lastOp := .write }
        if f.bufmode = .line ∧ c = 10 then
          match bufferOutput K f with
          | (false, f) => (none, f)
          | (true, f) => (some (toByte c), f)
        else (some (toByte c), f)

/-- `ungetc` -/
def ungetc (c : Int) (f : File) : Option UInt8 × File :=
  if c = -1 then (none, f)
  else
    match switchToRead K f with
    | (false, f) => (none, f)
    | (true, f) =>
      if f.ptr = 0 then (none, f)
      else (some (toByte c), { f.store (f.ptr - 1) [toByte c] with ptr := f.ptr - 1, cnt := f.cnt + 1, eof := false })

/-- The loop of `fread`, with `left` bytes to copy: the bytes copied. -/
def freadLoop : Nat → Nat → File → List UInt8 × File
  | 0, _, f => ([], f)
  | fuel + 1, left, f =>
    if left = 0 then ([], f)
    else if f.cnt > 0 then
      let avail := min f.cnt left
      let (rest, g) := freadLoop fuel (left - avail) { f with ptr := f.ptr + avail, cnt := f.cnt - avail }
      (f.bytes f.ptr avail ++ rest, g)
    else
      match bufferInput K f with
      | (none, f) => ([], f)
      | (some c, f) =>
        let (rest, g) := freadLoop fuel (left - 1) f
        (c :: rest, g)

/-- `size * nmemb` -/
def total (size nmemb : Nat) : Nat := size * nmemb % 2 ^ 64

/-- `fread`: the bytes copied and the answer. -/
def fread (size nmemb : Nat) (f : File) : (List UInt8 × Nat) × File :=
  if size = 0 ∨ nmemb = 0 then (([], 0), f)
  else
    let (copied, f) := freadLoop K (total size nmemb) (total size nmemb) f
    ((copied, copied.length / size), f)

/-- The loop of `fwrite` on what is left of the data: the number of bytes copied, and `has_newline`. -/
def fwriteLoop : Nat → List UInt8 → Bool → File → Nat × Bool × File
  | 0, _, newline, f => (0, newline, f)
  | fuel + 1, data, newline, f =>
    if data.length = 0 then (0, newline, f)
    else
      let space := ptrDiff f.end_ f.ptr
      match if space = 0 then bufferOutput K f else (true, f) with
      | (false, f) => (0, newline, f)
      | (true, f) =>
        let space := if space = 0 then f.bufsiz else space
        let toCopy := min data.length space
        let newline := newline || (f.bufmode = .line ∧ asc '\n' ∈ data.take toCopy)
        let (n, newline, f) := fwriteLoop fuel (data.drop toCopy) newline (f.put (data.take toCopy))
        (toCopy + n, newline, f)

/-- `fwrite` of the bytes at its pointer: the answer. -/
def fwrite (data : List UInt8) (size nmemb : Nat) (f : File) : Nat × File :=
  if size = 0 ∨ nmemb = 0 then (0, f)
  else
    let total := total size nmemb
    if ¬f.mem ∧ (f.bufmode = .unbuffered ∨ (f.ptr = 0 ∧ total ≥ f.bufsiz)) then
      match sysWrite K f (fun i => data.getD i 0) total with
      | (none, f) => (0, { f with err := true })
      | (some written, f) => (written / size, f)
    else
      let (written, newline, f) := fwriteLoop K total (data.take total) false f
      let f := if f.bufmode = .line ∧ newline then (bufferOutput K f).2 else f
      (written / size, f)

/-- The offset that `__jacl_special_seek` computes for a memory stream. -/
def specialSeek (f : File) (offset : Int) : Whence → Int
  | .set => offset
  | .cur => f.ptr + offset
  | .fromEnd => f.bufsiz + offset

/-- The offset `lseek` is asked for; it refuses a negative one. -/
def lseek (f : File) (offset : Int) : Whence → Int
  | .set => offset
  | .cur => f.pos + offset
  | .fromEnd => f.file.length + offset

/-- `fseek`: whether the answer is 0. -/
def fseek (offset : Int) (whence : Whence) (f : File) : Bool × File :=
  match if f.wr then bufferFlush K f else (true, f) with
  | (false, f) => (false, f)
  | (true, f) =>
    if f.mem then
      let newPos := specialSeek f offset whence
      if newPos < 0 ∨ newPos > f.bufsiz then (false, f)
      else (true, { f with ptr := newPos.toNat, eof := false, lastOp := .none })
    else
      let offset := if whence = .cur ∧ f.rd ∧ f.cnt > 0 then offset - f.cnt else offset
      let result := lseek f offset whence
      if result < 0 then (false, f)
      else (true, { f.reset with pos := result.toNat, eof := false, end_ := OVRBUF, lastOp := .none })

/-- `ftell` -/
def ftell (f : File) : Int :=
  if f.mem then f.ptr
  else f.pos + if f.wr then (f.ptr : Int) - OVRSIZ else if f.rd then -(f.cnt : Int) else 0

/-- `fflush` of one stream: whether the answer is 0. -/
def fflush (f : File) : Bool × File := if f.wr then bufferFlush K f else (true, f)

/-- `setvbuf`: whether the answer is 0.  `buf` is whether the caller gives a buffer, and `memory` what the new buffer
holds. -/
def setvbuf (buf : Bool) (memory : Nat → UInt8) (mode : BufMode) (size : Nat) (f : File) : Bool × File :=
  let f := if f.wr then (bufferOutput K f).2 else f
  let f := { f with bufmode := mode, buf := memory }
  let f :=
    if mode = .unbuffered then { f with ptr := 0, end_ := 0, bufsiz := 0 }
    else if buf then { f with ptr := 0, end_ := size, bufsiz := size }
    else
      let bufsize := if size > 0 then size else BUFSIZ
      { f with ptr := OVRSIZ, end_ := (bufsize + OVRSIZ) % 2 ^ 64, bufsiz := bufsize }
  (true, { f with cnt := 0, err := false, eof := false })

/-- `fclose`, with the success of `fsync` and `close`: whether the answer is 0. -/
def fclose (fsync close : Bool) (f : File) : Bool × File :=
  if f.mem then if f.wr then bufferFlush K f else (true, f)
  else if f.wr then
    let (ok, f) := bufferFlush K f
    (ok && fsync && close, f)
  else (close, f)

/-- The calls of a program. -/
inductive Act
  | fputc (c : Int)
  | fwrite (data : List UInt8) (size nmemb : Nat)
  | fgetc
  | fread (size nmemb : Nat)
  | ungetc (c : Int)
  | fseek (offset : Int) (whence : Whence)
  | ftell
  | fflush
  | setvbuf (buf : Bool) (memory : Nat → UInt8) (mode : BufMode) (size : Nat)
  | fclose (fsync close : Bool)

/-- The answers of the calls. -/
inductive Ret
  | char (c : Option UInt8)
  | count (n : Nat)
  | data (copied : List UInt8) (n : Nat)
  | pos (n : Int)
  | status (zero : Bool)
  deriving DecidableEq

def step (f : File) : Act → Ret × File
  | .fputc c => let (r, f) := fputc K c f; (.char r, f)
  | .fwrite data size nmemb => let (r, f) := fwrite K data size nmemb f; (.count r, f)
  | .fgetc => let (r, f) := fgetc K f; (.char r, f)
  | .fread size nmemb => let (r, f) := fread K size nmemb f; (.data r.1 r.2, f)
  | .ungetc c => let (r, f) := ungetc K c f; (.char r, f)
  | .fseek offset whence => let (r, f) := fseek K offset whence f; (.status r, f)
  | .ftell => (.pos (ftell f), f)
  | .fflush => let (r, f) := fflush K f; (.status r, f)
  | .setvbuf buf memory mode size => let (r, f) := setvbuf K buf memory mode size f; (.status r, f)
  | .fclose fsync close => let (r, f) := fclose K fsync close f; (.status r, f)

end Functions

/-! ### Opening -/

/-- `__jacl_stream_alloc`, with a descriptor at the start of `file`; `memory` is what the buffer holds. -/
def streamAlloc (rd wr : Bool) (mode : BufMode) (memory : Nat → UInt8) (file : List UInt8) : File where
  cnt := 0
  ptr := OVRSIZ
  end_ := OVRBUF
  buf := memory
  rd := rd
  wr := wr
  eof := false
  err := false
  mem := false
  grows := false
  bufmode := mode
  lastOp := .none
  bufsiz := BUFSIZ
  file := file
  pos := 0
  calls := 0
  out := []
  outside := false

/-- `fmemopen` of `size` bytes of `memory`; `append` is the mode `a`, which starts at the first NUL. -/
def fmemopen (rd wr append : Bool) (memory : Nat → UInt8) (size : Nat) : File :=
  { streamAlloc rd wr .full memory [] with
    ptr := if append then ((List.range size).findIdx? fun i => memory i = 0).getD size else 0
    end_ := size, bufsiz := size, mem := true }

/-- `open_memstream` -/
def openMemstream : File :=
  { streamAlloc false true .full (fun _ =>
    0) [] with ptr := 0, end_ := BUFSIZ, bufsiz := BUFSIZ, mem := true, grows := true }

/-! ### The bytes of a buffer -/

variable {f : File} {off n m : Nat} {data : List UInt8}

@[simp] theorem File.length_bytes (f : File) (off n : Nat) : (f.bytes off n).length = n := by simp [File.bytes]

theorem File.bytes_succ (f : File) (off n : Nat) : f.bytes off (n + 1) = f.buf off :: f.bytes (off + 1) n := by
  rw [File.bytes, List.range_succ_eq_map, List.map_cons, List.map_map, File.bytes]
  simp only [List.cons.injEq, Nat.add_zero, true_and]
  apply List.map_congr_left
  intro i _
  simp only [Function.comp, Nat.succ_eq_add_one]
  congr 1
  omega

theorem File.bytes_add (f : File) (off m n : Nat) : f.bytes off (m + n) = f.bytes off m ++ f.bytes (off + m) n := by
  induction m generalizing off with
  | zero => simp [File.bytes]
  | succ m ih =>
    rw [Nat.add_right_comm, File.bytes_succ, ih, File.bytes_succ, List.cons_append]
    congr 3
    omega

theorem File.bytes_congr {g : File} (h : ∀ x, off ≤ x → x < off + n → g.buf x = f.buf x) :
    g.bytes off n = f.bytes off n := by
  apply List.map_congr_left
  intro i hi
  rw [List.mem_range] at hi
  exact h _ (Nat.le_add_right _ _) (Nat.add_lt_add_left hi _)

/-- What has been stored is read back. -/
theorem File.bytes_store (f : File) (off : Nat) (data : List UInt8) :
    (f.store off data).bytes off data.length = data := by
  apply List.ext_getElem
  · simp
  · intro i h1 h2
    simp [File.bytes, File.store, h2]

theorem File.store_before (f : File) (data : List UInt8) (h : off + data.length ≤ m) :
    (f.store off data).bytes m n = f.bytes m n := by
  apply File.bytes_congr
  intro x hx _
  simp only [File.store]
  rw [if_neg (by omega)]

theorem File.store_after (f : File) (data : List UInt8) (h : m + n ≤ off) :
    (f.store off data).bytes m n = f.bytes m n := by
  apply File.bytes_congr
  intro x _ hx
  simp only [File.store]
  rw [if_neg (by omega)]

end JACLibc.Stdio
