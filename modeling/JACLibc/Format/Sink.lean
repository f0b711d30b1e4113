import Mathlib.Algebra.Ring.Int.Defs
import Mathlib.Algebra.Ring.Nat
import Mathlib.Data.List.Basic
import Mathlib.Logic.Function.Iterate

/-!
# The write primitives of `format.h`

Every character the formatter produces goes through `__jacl_write_char`: to a stream when there is one, else into the
buffer when there is one and room is left in it, and it is counted in any case.  `Sink` is the state the macro works
on (the characters given to `fputc`, the memory, `*out` and `*rem`).

`emit` sends a whole text through the macro.  What becomes of the text depends on the kind of sink: a stream gets all
of it (`emit_stream`), no buffer none of it (`emit_null`), a buffer its first `rem` characters (`emit_buffer`).
-/

namespace JACLibc

/-- `stream`: the characters given to `fputc`, oldest first, when the stream is not NULL; `ptr`: the pointer `*out`;
`rem`: the room left, `*rem`. -/
structure Sink where
  stream : Option (List UInt8)
  mem : Nat → UInt8
  ptr : Option Nat
  rem : Nat

/-- `__jacl_write_char`, without the count. -/
def writeChar (k : Sink) (ch : UInt8) : Sink :=
  match k.stream with
  | some sent => { k with stream := some (sent ++ [ch]) }
  | none =>
    match k.ptr with
    | some p =>
      if k.rem > 0 then { k with mem := Function.update k.mem p ch, ptr := some (p + 1), rem := k.rem - 1 } else k
    | none => k

/-- A stream takes every character, a buffer as long as there is room in it. -/
def Sink.takes (k : Sink) : Bool := k.stream.isSome || (k.ptr.isSome && decide (k.rem > 0))

/-- A sink with the local count `len` of the function that writes to it. -/
abbrev Counted := Nat × Sink

/-- `__jacl_write_char` with its `(len)++`. -/
def putChar (ch : UInt8) (w : Counted) : Counted := (w.1 + 1, writeChar w.2 ch)

/-- `__jacl_write_pad`: `while (__i-- > 0)`. -/
def writePad (ch : UInt8) (pad : Int) (w : Counted) : Counted := (putChar ch)^[pad.toNat] w

/-- `if (b) f(..)` -/
def doIf (b : Bool) (f : Counted → Counted) (w : Counted) : Counted := if b then f w else w

/-- A whole text through the macro. -/
def emit (k : Sink) (text : List UInt8) : Sink := text.foldl writeChar k

theorem emit_append (k : Sink) (s t : List UInt8) : emit k (s ++ t) = emit (emit k s) t := List.foldl_append

/-- A text counted and sent. -/
def Counted.send (w : Counted) (text : List UInt8) : Counted := (w.1 + text.length, emit w.2 text)

@[simp] theorem send_nil (w : Counted) : w.send [] = w := rfl

theorem send_send (w : Counted) (s t : List UInt8) : (w.send s).send t = w.send (s ++ t) := by
  simp [Counted.send, emit_append, Nat.add_assoc]

theorem putChar_eq (ch : UInt8) (w : Counted) : putChar ch w = w.send [ch] := rfl

theorem writePad_eq (ch : UInt8) (pad : Int) (w : Counted) :
    writePad ch pad w = w.send (List.replicate pad.toNat ch) := by
  unfold writePad
  generalize pad.toNat = m
  induction m generalizing w with
  | zero => rfl
  | succ m ih => rw [Function.iterate_succ_apply, ih, putChar_eq, send_send]; rfl

theorem doIf_eq {f : Counted → Counted} {text : List UInt8} (hf : ∀ w, f w = w.send text) (b : Bool) (w : Counted) :
    doIf b f w = w.send (if b then text else []) := by
  cases b with
  | false => rfl
  | true => exact hf w

/-! ### What becomes of a text -/

/-- A stream gets the whole text, and the memory is not touched. -/
theorem emit_stream {k : Sink} {sent : List UInt8} (h : k.stream = some sent) (text : List UInt8) :
    emit k text = { k with stream := some (sent ++ text) } := by
  induction text generalizing k sent with
  | nil => simp [emit, ← h]
  | cons ch text ih =>
    have hstep : writeChar k ch = { k with stream := some (sent ++ [ch]) } := by simp [writeChar, h]
    rw [show emit k (ch :: text) = emit (writeChar k ch) text from rfl, hstep, ih rfl]
    simp

/-- Without a stream and with a NULL buffer nothing happens. -/
theorem emit_null {k : Sink} (hs : k.stream = none) (hp : k.ptr = none) (text : List UInt8) : emit k text = k := by
  induction text with
  | nil => rfl
  | cons ch text ih =>
    have hstep : writeChar k ch = k := by simp [writeChar, hs, hp]
    rw [show emit k (ch :: text) = emit (writeChar k ch) text from rfl, hstep, ih]

/-- The memory with the bytes `bs` stored from address `p` on. -/
def storeBytes (mem : Nat → UInt8) (p : Nat) (bs : List UInt8) : Nat → UInt8 :=
  fun a => if p ≤ a then (bs[a - p]?).getD (mem a) else mem a

@[simp] theorem storeBytes_nil (mem : Nat → UInt8) (p : Nat) : storeBytes mem p [] = mem := by
  funext a; simp [storeBytes]

theorem storeBytes_cons (mem : Nat → UInt8) (p : Nat) (b : UInt8) (bs : List UInt8) :
    storeBytes mem p (b :: bs) = storeBytes (Function.update mem p b) (p + 1) bs := by
  funext a
  unfold storeBytes
  by_cases h : p + 1 ≤ a
  · obtain ⟨d, rfl⟩ : ∃ d, a = p + 1 + d := ⟨a - (p + 1), by omega⟩
    have hne : p + 1 + d ≠ p := by omega
    simp [show p ≤ p + 1 + d by omega, show p + 1 + d - p = d + 1 by omega, Function.update_of_ne hne]
  · by_cases ha : a = p
    · subst ha; simp [h]
    · simp [show ¬p ≤ a by omega, show ¬p + 1 ≤ a by omega, Function.update_of_ne ha]

theorem storeBytes_append (mem : Nat → UInt8) (p : Nat) (s t : List UInt8) :
    storeBytes mem p (s ++ t) = storeBytes (storeBytes mem p s) (p + s.length) t := by
  induction s generalizing mem p with
  | nil => simp
  | cons b s ih =>
    rw [List.cons_append, storeBytes_cons, ih, storeBytes_cons, List.length_cons]
    congr 1
    omega

/-- A buffer gets the first `rem` characters, and nothing else in memory changes. -/
theorem emit_buffer {k : Sink} {p : Nat} (hs : k.stream = none) (hp : k.ptr = some p) (text : List UInt8) :
    emit k text = ⟨none, storeBytes k.mem p (text.take k.rem), some (p + min k.rem text.length),
      k.rem - min k.rem text.length⟩ := by
  induction text generalizing k p with
  | nil =>
    simp only [emit, List.foldl_nil, List.take_nil, storeBytes_nil, List.length_nil, Nat.min_zero, Nat.add_zero,
      Nat.sub_zero]
    rw [← hs, ← hp]
  | cons ch text ih =>
    rw [show emit k (ch :: text) = emit (writeChar k ch) text from rfl]
    cases hr : k.rem with
    | zero =>
      have hstep : writeChar k ch = k := by simp [writeChar, hs, hp, hr]
      rw [hstep, ih hs hp, hr]
      simp
    | succ r =>
      have hstep : writeChar k ch = ⟨none, Function.update k.mem p ch, some (p + 1), r⟩ := by
        simp [writeChar, hs, hp, hr]
      rw [hstep, ih rfl rfl, List.take_succ_cons, storeBytes_cons, List.length_cons]
      simp only [Sink.mk.injEq, Option.some.injEq, true_and]
      omega

end JACLibc
