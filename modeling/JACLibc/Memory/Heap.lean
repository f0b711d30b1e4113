import Mathlib.Algebra.Ring.Int.Defs
import Mathlib.Algebra.Ring.Nat
import Mathlib.Data.List.Basic
import Mathlib.Logic.Function.Basic

/-!
# The allocator of `memory.h`

`Heap` is the state of the allocator as one thread sees it, after `__jacl_membin_init`.  Memory is a function from
addresses to 64-bit words: every field of a block header and the link of a free block is one such word, at the block's
address, 8, 16 and 24 bytes behind it.  A segment is named by its place in the list; its `bins` and `bitmap` are kept in
the `Seg`.  Locks do nothing for one thread and are left out.

Sizes and offsets stay far below `2^64` once a request has passed `__jacl_alloc_need`, so that they are plain numbers;
the arithmetic that can leave its type (the rounding with 32-bit masks, the cursor, the growth of an arena block) is
reduced explicitly.
-/

namespace JACLibc

def SIZE_MAX : Nat := 2 ^ 64 - 1
def JACL_HEAP_INIT : Nat := 262144
def JACL_HEAP_MAX : Nat := 1073741824
def JACL_HEAP_SEG : Nat := 1048576
def JACL_SMALL_MAX : Nat := 128
def JACL_TLS_CHUNK : Nat := 4096
def JACL_RECYCLING : Nat := 12
def JACL_COALESCING : Nat := 1024

/-- The end of the arena part of the static heap, `JACL_HEAP_INIT / 4`. -/
def ARENA_LIMIT : Nat := 65536

/-- `sizeof(__jacl_memhdr_t)` -/
def HDR : Nat := 24

/-- `sizeof(__jacl_memseg_t)` -/
def SEG_HDR : Nat := 288

/-- The flag words: `JACL_HDR_ALLOC` is bit 0, `JACL_HDR_ARENA` bit 1. -/
def isAlloc (flags : Nat) : Bool := flags % 2 = 1
def isArena (flags : Nat) : Bool := flags / 2 % 2 = 1

/-- `__jacl_memseg_t`; the bit `i` of the bitmap is `bitmap i`. -/
structure Seg where
  base : Nat
  size : Nat
  bins : Nat → Nat
  bitmap : Nat → Bool

/-- The state of the allocator; the stacks of `__jacl_recycling` are listed from the top. -/
structure Heap where
  staticHeap : Nat
  mem : Nat → Nat
  segs : List Seg
  current : Nat
  cursor : Nat
  tlsOff : Nat
  tlsEnd : Nat
  recycling : Nat → List Nat

namespace Heap

def seg (s : Heap) (j : Nat) : Seg := s.segs.getD j ⟨0, 0, fun _ => 0, fun _ => false⟩

def setSeg (s : Heap) (j : Nat) (g : Seg) : Heap := { s with segs := s.segs.set j g }

/-- A store of one word. -/
def store (s : Heap) (a v : Nat) : Heap := { s with mem := Function.update s.mem a v }

/-- The offset `off` of segment `j` as an address. -/
def addr (s : Heap) (j off : Nat) : Nat := (s.seg j).base + off

end Heap

/-! ### Bins -/

/-- `while (q > 1 && i < 31)` of `__jacl_membin_get`; 15 turns are enough. -/
def membinLoop : Nat → Nat → Nat → Nat
  | 0, _, i => i
  | fuel + 1, q, i => if q > 1 ∧ i < 31 then membinLoop fuel (q / 2) (i + 1) else i

/-- `__jacl_membin_get` -/
def membinGet (sz : Nat) : Nat :=
  let i := if sz ≤ 128 then (sz + 7) / 8 else membinLoop 15 (sz / 128) 16
  if i ≥ 32 then 31 else i

/-- `bins[i] = off`, with the bit of the bin as the list is empty or not. -/
def Seg.setBin (g : Seg) (i off : Nat) (bit : Bool) : Seg :=
  { g with bins := Function.update g.bins i off, bitmap := Function.update g.bitmap i bit }

/-- `__jacl_membin_safety` does not return. -/
def Seg.inside (g : Seg) (off : Nat) : Bool := off < g.size ∧ off + HDR ≤ g.size

/-- `__jacl_membin_pop`: the offset of the block taken out, 0 for none. -/
def membinPop (s : Heap) (j need : Nat) : Nat × Heap :=
  let g := s.seg j
  match (List.range 32).find? fun i => decide (membinGet need ≤ i) && g.bitmap i with
  | none => (0, s)
  | some i =>
    let off := g.bins i
    if off = 0 then (0, s.setSeg j (g.setBin i 0 false))
    else if ¬g.inside off then (0, s)
    else if off + HDR > g.size - 8 then (0, s.setSeg j (g.setBin i 0 false))
    else
      let next := s.mem (g.base + off + 24)
      (off, s.setSeg j (g.setBin i next (next ≠ 0)))

/-- `__jacl_membin_push` -/
def membinPush (s : Heap) (j off : Nat) : Heap :=
  let g := s.seg j
  let i := membinGet (s.mem (g.base + off))
  if ¬g.inside off then s
  else (s.store (g.base + off + 24) (g.bins i)).setSeg j (g.setBin i off true)

/-- The loop of `__jacl_membin_remove` that unlinks `off` behind its predecessor in the list.  A list has at most one
entry for each offset of the segment, so the size of the segment bounds the number of turns. -/
def unlinkLoop (base off : Nat) : Nat → (Nat → Nat) → Nat → Nat → Nat
  | 0, mem, _ => mem
  | fuel + 1, mem, cur =>
    if cur = 0 then mem
    else
      let next := mem (base + cur + 24)
      if next = off then Function.update mem (base + cur + 24) (mem (base + off + 24))
      else unlinkLoop base off fuel mem next

/-- `__jacl_membin_remove` -/
def membinRemove (s : Heap) (j off : Nat) : Heap :=
  let g := s.seg j
  let i := membinGet (s.mem (g.base + off))
  let cur := g.bins i
  if ¬g.inside off then s
  else if cur = off then
    let next := s.mem (g.base + off + 24)
    s.setSeg j (g.setBin i next (decide (next ≠ 0) && g.bitmap i))
  else
    { s with mem := unlinkLoop g.base off g.size s.mem cur }.setSeg j
      (g.setBin i cur (decide (cur ≠ 0) && g.bitmap i))

/-- The initial state: the static heap with one free block behind the arena. -/
def membinInit (staticHeap : Nat) (mem : Nat → Nat) : Heap :=
  let g : Seg := ⟨staticHeap, JACL_HEAP_INIT, fun _ => 0, fun _ => false⟩
  let s : Heap := ⟨staticHeap, mem, [g], JACL_HEAP_INIT, 0, 0, 0, fun _ => []⟩
  let h := staticHeap + ARENA_LIMIT
  let s := ((s.store h (JACL_HEAP_INIT - ARENA_LIMIT)).store (h + 8) 0).store (h + 16) 0
  membinPush s 0 ARENA_LIMIT

/-- `__jacl_memseg_find`: the segment in which an address lies. -/
def memsegFind (s : Heap) (ptr : Nat) : Option Nat :=
  if ptr = 0 then none
  else (List.range s.segs.length).find? fun j => (s.seg j).base ≤ ptr ∧ ptr < (s.seg j).base + (s.seg j).size

/-! ### Sizes -/

/-- `JACL_ALIGN_UP` of a `size_t` for a power of two: the mask has 32 bits. -/
def alignUp (x a : Nat) : Nat := (x + (a - 1)) % 2 ^ 64 % 2 ^ 32 / a * a

/-- `__jacl_round_size` -/
def roundSize (sz : Nat) : Nat :=
  if sz ≤ 128 then (sz + 7) / 8 * 8
  else if sz ≤ 512 then (sz + 15) / 16 * 16
  else alignUp sz 32

/-- `__jacl_alloc_need` -/
def allocNeed (n : Nat) : Nat :=
  let n := if n = 0 then 1 else n
  if n > SIZE_MAX - HDR then 0 else roundSize (n + HDR)

/-! ### The sources of blocks -/

/-- `__jacl_alloc_recycle` -/
def allocRecycle (s : Heap) (n : Nat) : Option (Nat × Heap) :=
  if n < 16 ∨ n > 48 then none
  else
    let rbin := (n + 7) / 8 - 2
    if rbin < 4 then
      match s.recycling rbin with
      | [] => none
      | p :: rest => some (p, { s.store (p - 8) 1 with recycling := Function.update s.recycling rbin rest })
    else none

/-- `__jacl_tls_refill` -/
def tlsRefill (s : Heap) : Bool × Heap :=
  let cur := s.cursor
  let s := { s with cursor := (s.cursor + JACL_TLS_CHUNK) % 2 ^ 32 }
  if cur ≥ ARENA_LIMIT then (false, s)
  else
    let available := if cur + JACL_TLS_CHUNK > ARENA_LIMIT then ARENA_LIMIT - cur else JACL_TLS_CHUNK
    if available < 64 then (false, s)
    else (true, { s with tlsOff := (cur + 7) / 8 * 8, tlsEnd := cur + available })

/-- `__jacl_alloc_arena` -/
def allocArena (s : Heap) (n need : Nat) : Option Nat × Heap :=
  if n > JACL_SMALL_MAX then (none, s)
  else
    let (can, s) := if s.tlsOff + need ≤ s.tlsEnd then (true, s) else tlsRefill s
    if ¬can ∨ s.tlsOff + need > ARENA_LIMIT then (none, s)
    else
      let h := s.staticHeap + s.tlsOff
      let s := ((s.store h need).store (h + 8) 0).store (h + 16) 3
      (some (h + HDR), { s with tlsOff := (s.tlsOff + need) % 2 ^ 32 })

/-- The cut of a block in `__jacl_alloc_bins`: the rest becomes a free block of its own. -/
def splitBlock (s : Heap) (j off need : Nat) : Heap :=
  let h := s.addr j off
  let rem := s.addr j (off + need)
  let s := ((s.store rem (s.mem h - need)).store (rem + 8) need).store (rem + 16) 0
  membinPush (s.store h need) j (off + need)

/-- What `__jacl_alloc_bins` does with a block that is large enough. -/
def takeBlock (s : Heap) (j off need : Nat) : Heap :=
  let h := s.addr j off
  let s := if s.mem h ≥ need + HDR + 8 then splitBlock s j off need else s
  let next := off + s.mem h
  let s := if next < (s.seg j).size then s.store (s.addr j next + 8) (s.mem h) else s
  s.store (h + 16) 1

/-- `__jacl_alloc_bins`, from segment `j` on. -/
def allocBins (need : Nat) : Nat → Nat → Heap → Option Nat × Heap
  | 0, _, s => (none, s)
  | fuel + 1, j, s =>
    if j ≥ s.segs.length then (none, s)
    else
      let (off, s) := membinPop s j need
      if off = 0 then allocBins need fuel (j + 1) s
      else if s.mem (s.addr j off) < need then allocBins need fuel (j + 1) (membinPush s j off)
      else (some (s.addr j off + HDR), takeBlock s j off need)

/-! ### Growth -/

/-- `__jacl_grow_size` -/
def growSize (current need : Nat) : Nat :=
  let seg_size := if need > JACL_HEAP_SEG then alignUp need 4096 else JACL_HEAP_SEG
  if current + seg_size > JACL_HEAP_MAX then
    if JACL_HEAP_MAX - current < need then 0 else JACL_HEAP_MAX - current
  else seg_size

/-- `__jacl_segment` and `__jacl_segment_init` for memory at `p`. -/
def newSegment (s : Heap) (p seg_size : Nat) : Heap :=
  let g : Seg := ⟨p + SEG_HDR, seg_size - SEG_HDR, fun _ => 0, fun _ => false⟩
  let j := s.segs.length
  let h := g.base + HDR
  let s := { s with segs := s.segs ++ [g], current := s.current + seg_size }
  let s := ((s.store h (g.size - HDR)).store (h + 8) 0).store (h + 16) 0
  membinPush s j HDR

/-- `__jacl_grow_heap`; `mmap` answers the request for memory. -/
def growHeap (s : Heap) (need : Nat) (mmap : Nat → Option Nat) : Option Heap :=
  if s.current < JACL_HEAP_MAX then
    let seg_size := growSize s.current need
    if seg_size = 0 then none
    else
      match mmap seg_size with
      | none => none
      | some p => some (newSegment s p seg_size)
  else none

/-! ### The public functions -/

/-- `malloc` -/
def malloc (s : Heap) (n : Nat) (mmap : Nat → Option Nat) : Option Nat × Heap :=
  let need := allocNeed n
  if need = 0 then (none, s)
  else
    match allocRecycle s n with
    | some (p, s) => (some p, s)
    | none =>
      match allocArena s n need with
      | (some p, s) => (some p, s)
      | (none, s) =>
        match allocBins need s.segs.length 0 s with
        | (some p, s) => (some p, s)
        | (none, s) =>
          match growHeap s need mmap with
          | none => (none, s)
          | some s => allocBins need 1 (s.segs.length - 1) s

/-- `__jacl_free_recycle` -/
def freeRecycle (s : Heap) (p size : Nat) : Option Heap :=
  if size < 16 ∨ size > 48 then none
  else
    let rbin := size / 8 - 2
    if rbin < 4 ∧ (s.recycling rbin).length < JACL_RECYCLING then
      some { s.store (p - 8) 0 with recycling := Function.update s.recycling rbin (p :: s.recycling rbin) }
    else none

/-- The forward part of `__jacl_free_coalesce`. -/
def coalesceNext (s : Heap) (j off : Nat) : Heap :=
  let h := s.addr j off
  let next_off := off + s.mem h
  if next_off < (s.seg j).size then
    if ¬isAlloc (s.mem (s.addr j next_off + 16)) then
      let s := membinRemove s j next_off
      let s := s.store h (s.mem h + s.mem (s.addr j next_off))
      let after_off := (off + s.mem h) % 2 ^ 32
      if after_off < (s.seg j).size then s.store (s.addr j after_off + 8) (s.mem h) else s
    else s
  else s

/-- The backward part of `__jacl_free_coalesce`: the offset of the block that is pushed in the end. -/
def coalescePrev (s : Heap) (j off : Nat) : Nat × Heap :=
  let h := s.addr j off
  let prev_size := s.mem (h + 8)
  if off > 0 ∧ prev_size > 0 ∧ prev_size ≤ off then
    let prev_off := off - prev_size
    let prev := s.addr j prev_off
    if prev_off + HDR ≤ (s.seg j).size ∧ ¬isAlloc (s.mem (prev + 16)) then
      let s := membinRemove s j prev_off
      let s := s.store prev (s.mem prev + s.mem h)
      let after_off := prev_off + s.mem prev
      let s := if after_off < (s.seg j).size then s.store (s.addr j after_off + 8) (s.mem prev) else s
      (prev_off, s)
    else (off, s)
  else (off, s)

/-- `__jacl_free_coalesce` -/
def freeCoalesce (s : Heap) (j off : Nat) : Heap :=
  if s.mem (s.addr j off) ≥ JACL_COALESCING then
    let (off, s) := coalescePrev (coalesceNext s j off) j off
    membinPush s j off
  else membinPush s j off

/-- The header and the segment that `free` works on: those of the pointer, or, where its header is in no segment, those
of the pointer that `aligned_alloc` left in front of it. -/
def freeTarget (s : Heap) (p : Nat) : Option (Nat × Nat) :=
  match memsegFind s (p - HDR) with
  | some j => some (p, j)
  | none =>
    let orig := s.mem (p - 8)
    if orig = 0 ∨ orig % 8 ≠ 0 then none
    else (memsegFind s (orig - HDR)).map fun j => (orig, j)

/-- `free` of a pointer other than NULL. -/
def free (s : Heap) (p : Nat) : Heap :=
  let flags := s.mem (p - 8)
  if isArena flags then if isAlloc flags then s.store (p - 8) 0 else s
  else
    match freeTarget s p with
    | none => s
    | some (p, j) =>
      if ¬isAlloc (s.mem (p - 8)) then s
      else
        match freeRecycle s p (s.mem (p - HDR) - HDR) with
        | some s => s
        | none => freeCoalesce (s.store (p - 8) 0) j (p - HDR - (s.seg j).base)

/-- `memcpy` between two blocks. -/
def copyBytes (s : Heap) (dst src len : Nat) : Heap :=
  { s with mem := fun a => if dst ≤ a ∧ a < dst + len then s.mem (src + (a - dst)) else s.mem a }

/-- `realloc` to a larger size by a new block. -/
def reallocMove (s : Heap) (ptr size : Nat) (mmap : Nat → Option Nat) : Option Nat × Heap :=
  let old_data := s.mem (ptr - HDR) - HDR
  match malloc s size mmap with
  | (none, s) => (none, s)
  | (some new_ptr, s) =>
    let s := copyBytes s new_ptr ptr old_data
    (some new_ptr, if isArena (s.mem (ptr - 8)) then s else free s ptr)

/-- `realloc` -/
def realloc (s : Heap) (ptr : Option Nat) (size : Nat) (mmap : Nat → Option Nat) : Option Nat × Heap :=
  match ptr with
  | none => malloc s size mmap
  | some ptr =>
    if size = 0 then (none, free s ptr)
    else
      let h := ptr - HDR
      let old_total := s.mem h
      if size ≤ old_total - HDR then (some ptr, s)
      else if isArena (s.mem (h + 16)) ∧ h + old_total = s.staticHeap + s.tlsOff then
        let new_total := allocNeed size
        let growth := (new_total + 2 ^ 64 - old_total) % 2 ^ 64
        if (s.tlsOff + growth) % 2 ^ 64 ≤ s.tlsEnd then
          (some ptr, { s.store h new_total with tlsOff := (s.tlsOff + growth) % 2 ^ 32 })
        else reallocMove s ptr size mmap
      else reallocMove s ptr size mmap

end JACLibc
