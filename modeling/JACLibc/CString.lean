import Mathlib.Algebra.Ring.Int.Defs
import Mathlib.Algebra.Ring.Nat
import Mathlib.Data.List.Basic
import Mathlib.Data.List.TakeWhile
import Mathlib.Logic.Basic

/-!
# C strings, integers and error numbers

A C string is the list of its bytes before the terminating NUL (`CString` carries the fact that there is no NUL
inside).  `strcmp` is the comparison of `string.h`: bytes are compared as `char`, which is signed on the modelled
target, and reading past the last byte of a string sees its NUL.
-/

namespace JACLibc

/-- The error numbers that the modelled functions store in `errno`. -/
inductive Errno where
  | EINVAL
  | ENOMEM
  | ESRCH
  | ENOSPC
  deriving DecidableEq, Repr

def INT_MAX : Int := 2 ^ 31 - 1

/-- The `int` with the value of `x` modulo `2^32`. -/
def wrapInt (x : Int) : Int := x.bmod (2 ^ 32)

theorem wrapInt_of_le {x : Int} (h0 : 0 ≤ x) (h1 : x ≤ INT_MAX) : wrapInt x = x := by
  unfold INT_MAX at h1
  unfold wrapInt
  rw [Int.bmod_eq_of_le_mul_two]
  all_goals omega

theorem wrapInt_over {x : Int} (h0 : INT_MAX < x) (h1 : x ≤ INT_MAX + 2 ^ 31) : wrapInt x = x - 2 ^ 32 := by
  unfold INT_MAX at h0 h1
  unfold wrapInt
  rw [Int.bmod_def]
  split <;> omega

theorem wrapInt_le (x : Int) : wrapInt x ≤ INT_MAX := by
  unfold wrapInt INT_MAX
  have := @Int.bmod_lt x (2 ^ 32) (by decide)
  omega

/-- The byte of an ASCII character. -/
def asc (c : Char) : UInt8 := c.toNat.toUInt8

/-- The bytes of a string literal. -/
def lit (s : String) : List UInt8 := s.toList.map asc

/-- The bytes of a NUL-terminated string, without the NUL. -/
structure CString where
  bytes : List UInt8
  noNul : 0 ∉ bytes
  deriving DecidableEq

/-- The string in a buffer: its bytes up to the first NUL. -/
def CString.of (buf : List UInt8) : CString :=
  ⟨buf.takeWhile (· ≠ 0), fun h => by simpa using List.mem_takeWhile_imp h⟩

theorem CString.of_bytes (s : CString) : CString.of s.bytes = s := by
  have h : s.bytes.takeWhile (· ≠ 0) = s.bytes := List.takeWhile_eq_self_iff.2 fun c hc => by
    have : c ≠ 0 := fun e => s.noNul (e ▸ hc)
    simpa using this
  cases s
  simp only [CString.of, h]

theorem CString.of_append {s : List UInt8} (h0 : 0 ∉ s) (rest : List UInt8) :
    (CString.of (s ++ 0 :: rest)).bytes = s := by
  have hs : ∀ b ∈ s, decide (b ≠ 0) = true := by
    intro b hb
    have hne : b ≠ 0 := fun h => h0 (h ▸ hb)
    simpa using hne
  change (s ++ 0 :: rest).takeWhile (· ≠ 0) = s
  rw [List.takeWhile_append_of_pos hs, List.takeWhile_cons_of_neg (by simp), List.append_nil]

/-- An object in memory; no object is larger than `PTRDIFF_MAX`. -/
structure Object where
  bytes : List UInt8
  fits : bytes.length < 2 ^ 63
  deriving DecidableEq

/-- The value of a byte read through a `char` pointer. -/
def charVal (b : UInt8) : Int := b.toBitVec.toInt

/-- The byte a `char` pointer at the start of `s` reads. -/
def deref (s : List UInt8) : UInt8 := s.headD 0

@[simp] theorem deref_cons (c : UInt8) (s : List UInt8) : deref (c :: s) = c := rfl

/-- What a test of the elements of a list says about them. -/
theorem forall_mem_of_all {α : Type} {p : α → Prop} [DecidablePred p] {xs : List α}
    (h : xs.all (fun x => decide (p x))) :
    ∀ x ∈ xs, p x := by
  intro x hx
  exact of_decide_eq_true (List.all_eq_true.1 h x hx)

/-- What is checked for all 256 bytes. -/
theorem forall_byte {p : UInt8 → Prop} (h : ∀ n : Fin 256, p n.val.toUInt8) (c : UInt8) : p c := by
  have hc : c.toNat.toUInt8 = c := by simp
  exact hc ▸ h ⟨c.toNat, c.toNat_lt⟩

/-- `while (*p >= '0' && *p <= '9') { val = val * 10 + (*p - '0'); p++; }` with an `int` value, a loop that the format
and the pattern parsers share: the value and what is left to read. -/
def readDecimal : Int → List UInt8 → Int × List UInt8
  | val, c :: s =>
    if asc '0' ≤ c ∧ c ≤ asc '9' then readDecimal (wrapInt (val * 10 + (c.toNat - 48))) s else (val, c :: s)
  | val, [] => (val, [])

/-- `(*a < *b) ? -1 : (*a > *b)` -/
def cmpChar (a b : UInt8) : Int :=
  if charVal a < charVal b then -1 else if charVal b < charVal a then 1 else 0

/-- `strcmp` on two non-NULL strings. -/
def strcmp : List UInt8 → List UInt8 → Int
  | [], b => cmpChar 0 (deref b)
  | x :: a, b => if x ≠ 0 ∧ x = deref b then strcmp a b.tail else cmpChar x (deref b)

theorem charVal_injective {a b : UInt8} (h : charVal a = charVal b) : a = b :=
  UInt8.toBitVec_inj.1 (BitVec.eq_of_toInt_eq h)

theorem cmpChar_eq_zero {a b : UInt8} : cmpChar a b = 0 ↔ a = b := by
  unfold cmpChar
  constructor
  · intro h
    apply charVal_injective
    split at h
    · omega
    · split at h <;> omega
  · rintro rfl
    simp

/-- `strcmp` answers zero exactly on equal strings. -/
theorem strcmp_eq_zero {a b : List UInt8} (ha : 0 ∉ a) (hb : 0 ∉ b) : strcmp a b = 0 ↔ a = b := by
  induction a generalizing b with
  | nil =>
    cases b with
    | nil => simp [strcmp, deref, cmpChar_eq_zero]
    | cons y b =>
      simp only [List.mem_cons, not_or] at hb
      simp [strcmp, deref, cmpChar_eq_zero, hb.1]
  | cons x a ih =>
    simp only [List.mem_cons, not_or] at ha
    cases b with
    | nil => simp [strcmp, deref, cmpChar_eq_zero, Ne.symm ha.1]
    | cons y b =>
      simp only [List.mem_cons, not_or] at hb
      by_cases hxy : x = y
      · subst hxy
        simp [strcmp, deref, Ne.symm ha.1, ih ha.2 hb.2]
      · simp [strcmp, deref, cmpChar_eq_zero, hxy]

theorem CString.strcmp_eq_zero {a b : CString} : strcmp a.bytes b.bytes = 0 ↔ a = b := by
  rw [JACLibc.strcmp_eq_zero a.noNul b.noNul]
  constructor
  · intro h; cases a; cases b; simp_all
  · rintro rfl; rfl

end JACLibc
