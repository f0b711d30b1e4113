import JACLibc.Lib.Bytes
import JACLibc.Lib.Checked
import JACLibc.Lib.Limbs
import Mathlib.Algebra.BigOperators.Fin
import Mathlib.Data.Int.ModEq
import Mathlib.Data.Nat.Digits.Defs
import Mathlib.RingTheory.Coprime.Lemmas
import Mathlib.Tactic.NormNum.GCD
import Mathlib.Tactic.IntervalCases

/-!
# Field elements of Curve25519

The arithmetic of `crypto/curve25519.h` on ten limbs of 26 bits.  The limbs are integers; in the multiplication every
value of 64 bits and every conversion to 32 bits is checked.  `x >> n` rounds down, and `x & (2 ^ n - 1)` is the
remainder `x % 2 ^ n`, also of negative numbers.
-/

namespace JACLibc.Curve25519

/-- `__jacl_fe` -/
abbrev Fe := Vector Int 10

/-- The element with these limbs. -/
def ofList (xs : List Int) : Fe := Vector.ofFn fun i => xs.getD i 0

/-- `__jacl_load32_le(s + i)` -/
def load32Le (s : Vector UInt8 32) (i : Nat) : Nat := Bytes.ofLe ((s.toList.drop i).take 4)

/-- `__jacl_fe_frombytes` -/
def feFrombytes (s : Vector UInt8 32) : Fe :=
  let h0 := load32Le s 0
  let h1 := load32Le s 4
  let h2 := load32Le s 8
  let h3 := load32Le s 12
  let h4 := load32Le s 16
  let h5 := load32Le s 20
  let h6 := load32Le s 24
  let h7 := load32Le s 28
  ofList ([h0 &&& 0x3ffffff, (h0 >>> 26 ||| h1 <<< 6) &&& 0x3ffffff, (h1 >>> 20 ||| h2 <<< 12) &&& 0x3ffffff,
    (h2 >>> 14 ||| h3 <<< 18) &&& 0x3ffffff, h3 >>> 8 &&& 0x3ffffff, (h3 >>> 34 ||| h4 <<< 30) &&& 0x3ffffff,
    (h4 >>> 22 ||| h5 <<< 10) &&& 0x3ffffff, (h5 >>> 16 ||| h6 <<< 16) &&& 0x3ffffff,
    (h6 >>> 10 ||| h7 <<< 22) &&& 0x3ffffff, h7 >>> 4 &&& 0x1ffffff].map Int.ofNat)

/-! ### Storing -/

/-- The last value of `q` in `__jacl_fe_tobytes`. -/
def quotient (t : Fe) : Int :=
  let q := ((19 : Int) * (t[9] >>> (25 : Nat)) + t[0] >>> (26 : Nat)) >>> (26 : Nat)
  let q := (t[0] + 19 * q) >>> (26 : Nat)
  let q := ((t.toList.drop 1).take 8).foldl (fun (q x : Int) => (x + q) >>> (26 : Nat)) q
  (t[9] + q) >>> (25 : Nat)

/-- The limbs behind the carries; the mask of the last one has 25 bits. -/
def reduced (t : Fe) : List Nat :=
  let carried := Limbs.carry 26 (19 * quotient t) (t.toList.take 9)
  carried.1.map Int.toNat ++ [((t[9] + carried.2) % 2 ^ 25).toNat]

/-- The bytes that `__jacl_fe_tobytes` packs of its limbs. -/
def pack (t : List Nat) : List UInt8 :=
  let t0 := t.getD 0 0
  let t1 := t.getD 1 0
  let t2 := t.getD 2 0
  let t3 := t.getD 3 0
  let t4 := t.getD 4 0
  let t5 := t.getD 5 0
  let t6 := t.getD 6 0
  let t7 := t.getD 7 0
  let t8 := t.getD 8 0
  let t9 := t.getD 9 0
  [t0, t0 >>> 8, t0 >>> 16, t0 >>> 24 ||| t1 <<< 2,
    t1 >>> 6, t1 >>> 14, t1 >>> 22 ||| t2 <<< 4,
    t2 >>> 4, t2 >>> 12, t2 >>> 20 ||| t3 <<< 6,
    t3 >>> 2, t3 >>> 10, t3 >>> 18,
    t4, t4 >>> 8, t4 >>> 16, t4 >>> 24 ||| t5 <<< 2,
    t5 >>> 6, t5 >>> 14, t5 >>> 22 ||| t6 <<< 4,
    t6 >>> 4, t6 >>> 12, t6 >>> 20 ||| t7 <<< 6,
    t7 >>> 2, t7 >>> 10, t7 >>> 18,
    t8, t8 >>> 8, t8 >>> 16, t8 >>> 24 ||| t9 <<< 2,
    t9 >>> 6, t9 >>> 14].map Nat.toUInt8

/-- `__jacl_fe_tobytes` -/
def feTobytes (h : Fe) : List UInt8 := pack (reduced h)

/-! ### Arithmetic -/

/-- `__jacl_fe_add` -/
def feAdd (f g : Fe) : Fe := Vector.zipWith (· + ·) f g

/-- `__jacl_fe_sub` -/
def feSub (f g : Fe) : Fe := Vector.zipWith (· - ·) f g

/-- A value that its type does not hold. -/
inductive Overflow
  | int64 (x : Int)
  | int32 (x : Int)
  deriving DecidableEq

def int64 (x : Int) : Except Overflow Int := if -2 ^ 63 ≤ x ∧ x < 2 ^ 63 then .ok x else .error (.int64 x)

def int32 (x : Int) : Except Overflow Int := if -2 ^ 31 ≤ x ∧ x < 2 ^ 31 then .ok x else .error (.int32 x)

/-- The products `(int64_t)f[i] * g[k - i]` that are added up in `t[k]`. -/
def products (f g : Fe) (k : Nat) : List Int :=
  (List.range' (k - 9) (min k 9 + 1 - (k - 9))).map fun i => f.toList.getD i 0 * g.toList.getD (k - i) 0

def sum64 : Int → List Int → Except Overflow Int
  | acc, [] => .ok acc
  | acc, x :: xs => do
    let x ← int64 x
    let acc ← int64 (acc + x)
    sum64 acc xs

/-- `t += u * 38` -/
def fold64 (t u : Int) : Except Overflow Int := do
  let u ← int64 (u * 38)
  int64 (t + u)

/-- `c = t[i] >> 26; h[i] = (int32_t)(t[i] & 0x3ffffff); t[i + 1] += c;` -/
def carry64 : Int → List Int → Except Overflow (List Int × Int)
  | c, [] => .ok ([], c)
  | c, t :: ts => do
    let t ← int64 (t + c)
    let (hs, c) ← carry64 (t >>> (26 : Nat)) ts
    .ok (t % 2 ^ 26 :: hs, c)

/-- `__jacl_fe_mul` -/
def feMul (f g : Fe) : Except Overflow Fe := do
  let t ← (List.range 19).mapM fun k => sum64 0 (products f g k)
  let low ← ((t.take 9).zip (t.drop 10)).mapM fun tu => fold64 tu.1 tu.2
  let (h, c) ← carry64 0 low
  let t9 ← int64 (t.getD 9 0 + c)
  let c ← int64 ((t9 >>> (25 : Nat)) * 19)
  let c ← int32 c
  let h0 ← int32 (h.getD 0 0 + c)
  let h1 ← int32 (h.getD 1 0 + h0 >>> (26 : Nat))
  .ok (ofList (h0 % 2 ^ 26 :: h1 :: h.drop 2 ++ [t9 % 2 ^ 25]))

/-! ### Where the arithmetic is right

The limbs have 26 bits each, 260 in all, but the functions do not agree on that: loading takes the upper half of the
string as if it began at bit 150, storing reduces at bit 259 as if at bit 255, and multiplying folds the limbs from
the tenth on as if they began at bit 256 and carries out of bit 259 as if it were bit 255.
-/

/-- `2 ^ 255 - 19` -/
def prime : Int := 2 ^ 255 - 19

/-- The value of a field element. -/
def value (h : Fe) : Int := ∑ i : Fin 10, h[i] * 2 ^ (26 * i.val)

/-- Limbs of 26 bits. -/
def Limbs26 (h : Fe) : Prop := ∀ i : Fin 10, 0 ≤ h[i] ∧ h[i] < 2 ^ 26

instance (h : Fe) : Decidable (Limbs26 h) := inferInstanceAs (Decidable (∀ i : Fin 10, 0 ≤ h[i] ∧ h[i] < 2 ^ 26))

/-- An element with limbs of 26 bits, or a sum or difference of two. -/
inductive Obtained : Fe → Prop
  | limbs {f : Fe} (h : Limbs26 f) : Obtained f
  | add {f g : Fe} (hf : Limbs26 f) (hg : Limbs26 g) : Obtained (feAdd f g)
  | sub {f g : Fe} (hf : Limbs26 f) (hg : Limbs26 g) : Obtained (feSub f g)

theorem toList_eq (h : Fe) : h.toList = [h[0], h[1], h[2], h[3], h[4], h[5], h[6], h[7], h[8], h[9]] := by
  refine List.ext_getElem (by simp) fun i hi _ => ?_
  rw [Vector.length_toList] at hi
  interval_cases i <;> simp

theorem value_eq (h : Fe) : value h = Limbs.value 26 h.toList := by
  rw [toList_eq, value]
  simp only [Fin.sum_univ_succ, Fin.sum_univ_zero, Limbs.value]
  simp
  ring

theorem toList_ofList {xs : List Int} (h : xs.length = 10) : (ofList xs).toList = xs := by
  refine List.ext_getElem (by rw [Vector.length_toList, h]) fun i hi hi' => ?_
  simp [ofList, List.getD_eq_getElem?_getD, hi']

theorem value_ofList {xs : List Int} (h : xs.length = 10) : value (ofList xs) = Limbs.value 26 xs := by
  rw [value_eq, toList_ofList h]

/-! ### Loading -/

theorem value_ofNat (w : Nat) (ns : List Nat) : Limbs.value w (ns.map Int.ofNat) = (Nat.ofDigits (2 ^ w) ns : Nat) := by
  induction ns with
  | nil => rfl
  | cons n ns ih =>
    rw [List.map_cons, Limbs.value, ih, Nat.ofDigits_cons]
    push_cast
    rfl

theorem load32Le_eq (s : Vector UInt8 32) (i : Nat) : load32Le s i = Bytes.ofLe s.toList / 256 ^ i % 2 ^ 32 := by
  rw [load32Le, Bytes.ofLe_take, Bytes.ofLe_drop]
  rfl

/-- Two neighbouring words of `n` bits, the lower one from bit `i` on. -/
theorem join {lo hi i k n : Nat} (hik : i + k = n) (hlo : lo < 2 ^ n) :
    lo >>> i ||| hi <<< k = lo / 2 ^ i + 2 ^ k * hi := by
  have hlt : lo >>> i < 2 ^ k := by
    rw [Nat.shiftRight_eq_div_pow]
    exact Nat.div_lt_of_lt_mul (by rw [← pow_add, hik]; exact hlo)
  rw [Nat.or_comm, Bytes.shift_or hlt, Nat.shiftRight_eq_div_pow]
  ring

section Words

variable {n w0 w1 w2 w3 w4 w5 w6 w7 : Nat} (h0 : w0 < 2 ^ 32) (h1 : w1 < 2 ^ 32) (h2 : w2 < 2 ^ 32) (h3 : w3 < 2 ^ 32)
  (hn : n = w0 + 2 ^ 32 * w1 + 2 ^ 64 * w2 + 2 ^ 96 * w3 + 2 ^ 128 * (w4 + 2 ^ 32 * w5 + 2 ^ 64 * w6 + 2 ^ 96 * w7))

include h0 h1 h2 h3 hn

theorem words_low : n % 2 ^ 128 = w0 + 2 ^ 32 * w1 + 2 ^ 64 * w2 + 2 ^ 96 * w3 := by
  rw [hn, Nat.add_mul_mod_self_left]
  omega

theorem words_high (h4 : w4 < 2 ^ 32) (h5 : w5 < 2 ^ 32) (h6 : w6 < 2 ^ 32) :
    n / 2 ^ 150 % 2 ^ 103 = w4 / 2 ^ 22 + 2 ^ 10 * w5 + 2 ^ 42 * w6 + 2 ^ 74 * (w7 % 2 ^ 29) := by
  have h128 : n / 2 ^ 128 = w4 + 2 ^ 32 * w5 + 2 ^ 64 * w6 + 2 ^ 96 * w7 := by omega
  have h150 : n / 2 ^ 150 = w4 / 2 ^ 22 + 2 ^ 10 * w5 + 2 ^ 42 * w6 + 2 ^ 74 * w7 := by
    rw [show 2 ^ 150 = 2 ^ 128 * 2 ^ 22 from rfl, ← Nat.div_div_eq_div_mul, h128]
    omega
  rw [h150]
  omega

end Words

/-- A string of 32 bytes in words. -/
theorem words_eq (s : Vector UInt8 32) : Bytes.ofLe s.toList = load32Le s 0 + 2 ^ 32 * load32Le s 4 + 2 ^ 64 *
    load32Le s 8 + 2 ^ 96 * load32Le s 12 + 2 ^ 128 * (load32Le s 16 + 2 ^ 32 * load32Le s 20 + 2 ^ 64 *
    load32Le s 24 + 2 ^ 96 * load32Le s 28) := by
  have hend : Bytes.ofLe s.toList / 256 ^ (28 + 4) = 0 := by
    have := Bytes.ofLe_lt s.toList
    rw [Vector.length_toList] at this
    exact Nat.div_eq_of_lt this
  have hstep : ∀ i, Bytes.ofLe s.toList / 256 ^ i = load32Le s i + 2 ^ 32 * (Bytes.ofLe s.toList / 256 ^ (i + 4)) := by
    intro i
    rw [load32Le_eq, pow_add, ← Nat.div_div_eq_div_mul]
    exact (Nat.mod_add_div _ _).symm
  have h0 := hstep 0
  rw [pow_zero, Nat.div_one, hstep 4, hstep 8, hstep 12, hstep 16, hstep 20, hstep 24, hstep 28, hend] at h0
  rw [h0]
  ring

/-- The limbs of the first four words. -/
theorem limbs_low {w0 w1 w2 w3 : Nat} (h0 : w0 < 2 ^ 32) (h1 : w1 < 2 ^ 32) (h2 : w2 < 2 ^ 32) (h3 : w3 < 2 ^ 32) :
    w0 % 2 ^ 26 + 2 ^ 26 * ((w0 / 2 ^ 26 + 2 ^ 6 * w1) % 2 ^ 26) + 2 ^ 52 * ((w1 / 2 ^ 20 + 2 ^ 12 * w2) % 2 ^ 26) +
      2 ^ 78 * ((w2 / 2 ^ 14 + 2 ^ 18 * w3) % 2 ^ 26) + 2 ^ 104 * (w3 / 2 ^ 8 % 2 ^ 26) =
      w0 + 2 ^ 32 * w1 + 2 ^ 64 * w2 + 2 ^ 96 * w3 := by
  omega

/-- The limbs of the last four. -/
theorem limbs_high {w4 w5 w6 w7 : Nat} (h4 : w4 < 2 ^ 32) (h5 : w5 < 2 ^ 32) (h6 : w6 < 2 ^ 32) :
    (w4 / 2 ^ 22 + 2 ^ 10 * w5) % 2 ^ 26 + 2 ^ 26 * ((w5 / 2 ^ 16 + 2 ^ 16 * w6) % 2 ^ 26) +
      2 ^ 52 * ((w6 / 2 ^ 10 + 2 ^ 22 * w7) % 2 ^ 26) + 2 ^ 78 * (w7 / 2 ^ 4 % 2 ^ 25) =
      w4 / 2 ^ 22 + 2 ^ 10 * w5 + 2 ^ 42 * w6 + 2 ^ 74 * (w7 % 2 ^ 29) := by
  omega

/-- The limbs that are loaded, as the numbers that they are. -/
theorem ofDigits_frombytes (s : Vector UInt8 32) :
    value (feFrombytes s) = (Nat.ofDigits (2 ^ 26) [load32Le s 0 % 2 ^ 26,
    (load32Le s 0 / 2 ^ 26 + 2 ^ 6 * load32Le s 4) % 2 ^ 26, (load32Le s 4 / 2 ^ 20 + 2 ^ 12 * load32Le s 8) % 2 ^ 26,
    (load32Le s 8 / 2 ^ 14 + 2 ^ 18 * load32Le s 12) % 2 ^ 26, load32Le s 12 / 2 ^ 8 % 2 ^ 26, 0,
    (load32Le s 16 / 2 ^ 22 + 2 ^ 10 * load32Le s 20) % 2 ^ 26,
    (load32Le s 20 / 2 ^ 16 + 2 ^ 16 * load32Le s 24) % 2 ^ 26,
    (load32Le s 24 / 2 ^ 10 + 2 ^ 22 * load32Le s 28) % 2 ^ 26, load32Le s 28 / 2 ^ 4 % 2 ^ 25] : Nat) := by
  have hword : ∀ i, load32Le s i < 2 ^ 32 := by
    intro i
    rw [load32Le_eq]
    exact Nat.mod_lt _ (by decide)
  have hmask : ∀ x, x &&& 0x3ffffff = x % 2 ^ 26 := fun x => Nat.and_two_pow_sub_one_eq_mod x 26
  have hmask' : ∀ x, x &&& 0x1ffffff = x % 2 ^ 25 := fun x => Nat.and_two_pow_sub_one_eq_mod x 25
  -- the upper part of the fourth word is gone before the fifth is put behind it
  have hlost : (load32Le s 12 >>> 34 ||| load32Le s 16 <<< 30) % 2 ^ 26 = 0 := by
    have := hword 12
    rw [Nat.shiftRight_eq_div_pow, Nat.div_eq_of_lt (by omega), Nat.zero_or, Nat.shiftLeft_eq]
    omega
  rw [feFrombytes, value_ofList rfl, value_ofNat]
  simp only [hmask, hmask', hlost, join (show 26 + 6 = 32 from rfl) (hword 0),
    join (show 20 + 12 = 32 from rfl) (hword 4), join (show 14 + 18 = 32 from rfl) (hword 8),
    join (show 22 + 10 = 32 from rfl) (hword 16), join (show 16 + 16 = 32 from rfl) (hword 20),
    join (show 10 + 22 = 32 from rfl) (hword 24)]
  simp only [Nat.shiftRight_eq_div_pow]

/-- The lower half of the string, and its bits from 150 to 252 six places too high. -/
theorem value_frombytes (s : Vector UInt8 32) : value (feFrombytes s) =
    (Bytes.ofLe s.toList % 2 ^ 128 + 2 ^ 156 * (Bytes.ofLe s.toList / 2 ^ 150 % 2 ^ 103) : Nat) := by
  have hword : ∀ i, load32Le s i < 2 ^ 32 := by
    intro i
    rw [load32Le_eq]
    exact Nat.mod_lt _ (by decide)
  have hlow := limbs_low (hword 0) (hword 4) (hword 8) (hword 12)
  have hhigh := @limbs_high (load32Le s 16) (load32Le s 20) (load32Le s 24) (load32Le s 28) (hword 16) (hword 20)
    (hword 24)
  rw [ofDigits_frombytes, words_low (hword 0) (hword 4) (hword 8) (hword 12) (words_eq s),
    words_high (hword 0) (hword 4) (hword 8) (hword 12) (words_eq s) (hword 16) (hword 20) (hword 24), ← hlow, ← hhigh]
  rw [Nat.cast_inj]
  simp only [Nat.ofDigits_cons, Nat.ofDigits_nil]
  ring

theorem prime_dvd_two_pow_mul {k : Nat} {x : Int} : prime ∣ 2 ^ k * x ↔ prime ∣ x := by
  have hodd : IsCoprime prime 2 := ⟨1, -(2 ^ 254 - 10), by rw [prime]; norm_num⟩
  exact ⟨fun h => (hodd.pow_right (n := k)).dvd_of_dvd_mul_left h, fun h => h.mul_left _⟩

theorem eq_zero_of_wrapped {r d : Nat} (h : r + 2 ^ 103 * d = 2 ^ 6 * r) (hd : d < 4) : r = 0 := by
  have h63 : 63 ∣ d := by
    have hmul : 63 ∣ 2 ^ 103 * d := ⟨r, by linarith⟩
    exact Nat.Coprime.dvd_of_dvd_mul_left (by norm_num) hmul
  have hzero : d = 0 := Nat.eq_zero_of_dvd_of_lt h63 (hd.trans (by decide))
  rw [hzero, mul_zero, add_zero] at h
  omega

/-- No bits but zeros stay the same when they move up by six places and lose the ends. -/
theorem eq_zero_of_moved {m r : Nat} (hlt : m < 2 ^ 127) (hr : r = m / 2 ^ 22 % 2 ^ 103) (h : m = 2 ^ 28 * r) :
    m = 0 := by
  have hq : m / 2 ^ 22 = 2 ^ 6 * r := by
    rw [h, show 2 ^ 28 * r = 2 ^ 22 * (2 ^ 6 * r) by ring, Nat.mul_div_cancel_left _ (by decide)]
  have hhi : 2 ^ 6 * r < 2 ^ 105 := by
    rw [← hq]
    exact Nat.div_lt_of_lt_mul hlt
  have hsplit := Nat.mod_add_div (m / 2 ^ 22) (2 ^ 103)
  have hd : 2 ^ 6 * r / 2 ^ 103 < 4 := Nat.div_lt_of_lt_mul hhi
  rw [← hr, hq] at hsplit
  rw [h, eq_zero_of_wrapped hsplit hd, mul_zero]

/-- What is loaded is the string, exactly if it has none of the bits from 128 to 254. -/
theorem frombytes_iff (s : Vector UInt8 32) :
    value (feFrombytes s) ≡ (Bytes.ofLe s.toList % 2 ^ 255 : Nat) [ZMOD prime] ↔
    Bytes.ofLe s.toList / 2 ^ 128 % 2 ^ 127 = 0 := by
  obtain ⟨m, hm⟩ : ∃ m, Bytes.ofLe s.toList / 2 ^ 128 % 2 ^ 127 = m := ⟨_, rfl⟩
  have hlt : m < 2 ^ 127 := hm ▸ Nat.mod_lt _ (by decide)
  have hstring : Bytes.ofLe s.toList % 2 ^ 255 = Bytes.ofLe s.toList % 2 ^ 128 + 2 ^ 128 * m := by
    rw [← hm, show 2 ^ 255 = 2 ^ 128 * 2 ^ 127 from rfl, Nat.mod_mul]
  have hmoved : Bytes.ofLe s.toList / 2 ^ 150 % 2 ^ 103 = m / 2 ^ 22 % 2 ^ 103 := by
    rw [← hm, show 2 ^ 150 = 2 ^ 128 * 2 ^ 22 from rfl, ← Nat.div_div_eq_div_mul]
    omega
  rw [value_frombytes, hstring, hmoved, hm, Int.modEq_iff_dvd]
  have hdiff : ((Bytes.ofLe s.toList % 2 ^ 128 + 2 ^ 128 * m : Nat) : Int) -
      (Bytes.ofLe s.toList % 2 ^ 128 + 2 ^ 156 * (m / 2 ^ 22 % 2 ^ 103) : Nat) = 2 ^ 128 *
        ((m : Int) - 2 ^ 28 * (m / 2 ^ 22 % 2 ^ 103 : Nat)) := by
    push_cast
    ring
  rw [hdiff, prime_dvd_two_pow_mul]
  constructor
  · intro hdvd
    have hr : m / 2 ^ 22 % 2 ^ 103 < 2 ^ 103 := Nat.mod_lt _ (by decide)
    generalize hr' : m / 2 ^ 22 % 2 ^ 103 = r at hdvd hr
    have hm' : (m : Int) < 2 ^ 127 := by exact_mod_cast hlt
    have hrlt : (r : Int) < 2 ^ 103 := by exact_mod_cast hr
    have hsmall : |(m : Int) - 2 ^ 28 * r| < prime := by
      rw [prime, abs_lt]
      constructor
      · linarith [Int.natCast_nonneg m]
      · linarith [Int.natCast_nonneg r]
    have hzero := Int.eq_zero_of_abs_lt_dvd hdvd hsmall
    exact eq_zero_of_moved hlt hr'.symm (by exact_mod_cast sub_eq_zero.1 hzero)
  · rintro rfl
    exact dvd_zero _

/-! ### Storing -/

/-- Four limbs are thirteen bytes. -/
theorem pack_four {a b c d : Nat} (ha : a < 2 ^ 26) (hb : b < 2 ^ 26) (hc : c < 2 ^ 26) :
    [a, a >>> 8, a >>> 16, a >>> 24 ||| b <<< 2, b >>> 6, b >>> 14, b >>> 22 ||| c <<< 4, c >>> 4, c >>> 12,
    c >>> 20 ||| d <<< 6,
      d >>> 2, d >>> 10, d >>> 18].map Nat.toUInt8 = Bytes.le 13 (a + 2 ^ 26 * (b + 2 ^ 26 * (c + 2 ^ 26 * d))) := by
  rw [join (show 24 + 2 = 26 from rfl) ha, join (show 22 + 4 = 26 from rfl) hb, join (show 20 + 6 = 26 from rfl) hc]
  generalize hr : c + 2 ^ 26 * d = r
  generalize hr' : b + 2 ^ 26 * r = r'
  have h1 : (a + 2 ^ 26 * r') / 256 = a / 2 ^ 8 + 2 ^ 18 * r' := by omega
  have h2 : (a / 2 ^ 8 + 2 ^ 18 * r') / 256 = a / 2 ^ 16 + 2 ^ 10 * r' := by omega
  have h3 : (a / 2 ^ 16 + 2 ^ 10 * r') / 256 = a / 2 ^ 24 + 2 ^ 2 * r' := by omega
  have h4 : (a / 2 ^ 24 + 2 ^ 2 * r') / 256 = b / 2 ^ 6 + 2 ^ 20 * r := by omega
  have h5 : (b / 2 ^ 6 + 2 ^ 20 * r) / 256 = b / 2 ^ 14 + 2 ^ 12 * r := by omega
  have h6 : (b / 2 ^ 14 + 2 ^ 12 * r) / 256 = b / 2 ^ 22 + 2 ^ 4 * r := by omega
  have h7 : (b / 2 ^ 22 + 2 ^ 4 * r) / 256 = c / 2 ^ 4 + 2 ^ 22 * d := by omega
  have h8 : (c / 2 ^ 4 + 2 ^ 22 * d) / 256 = c / 2 ^ 12 + 2 ^ 14 * d := by omega
  have h9 : (c / 2 ^ 12 + 2 ^ 14 * d) / 256 = c / 2 ^ 20 + 2 ^ 6 * d := by omega
  have h10 : (c / 2 ^ 20 + 2 ^ 6 * d) / 256 = d / 2 ^ 2 := by omega
  have h11 : d / 2 ^ 2 / 256 = d / 2 ^ 10 := by omega
  have h12 : d / 2 ^ 10 / 256 = d / 2 ^ 18 := by omega
  simp only [List.map_cons, List.map_nil, Bytes.le, h1, h2, h3, h4, h5, h6, h7, h8, h9, h10, h11, h12,
    Nat.shiftRight_eq_div_pow, List.cons.injEq, and_true]
  refine ⟨?_, ?_, ?_, ?_, ?_, ?_, ?_, ?_, ?_⟩ <;> apply Bytes.toUInt8_congr <;> omega

/-- The last two limbs are six bytes. -/
theorem pack_two {a b : Nat} (ha : a < 2 ^ 26) :
    [a, a >>> 8, a >>> 16, a >>> 24 ||| b <<< 2, b >>> 6, b >>> 14].map Nat.toUInt8 = Bytes.le 6 (a + 2 ^ 26 * b) := by
  rw [join (show 24 + 2 = 26 from rfl) ha]
  have h1 : (a + 2 ^ 26 * b) / 256 = a / 2 ^ 8 + 2 ^ 18 * b := by omega
  have h2 : (a / 2 ^ 8 + 2 ^ 18 * b) / 256 = a / 2 ^ 16 + 2 ^ 10 * b := by omega
  have h3 : (a / 2 ^ 16 + 2 ^ 10 * b) / 256 = a / 2 ^ 24 + 2 ^ 2 * b := by omega
  have h4 : (a / 2 ^ 24 + 2 ^ 2 * b) / 256 = b / 2 ^ 6 := by omega
  have h5 : b / 2 ^ 6 / 256 = b / 2 ^ 14 := by omega
  simp only [List.map_cons, List.map_nil, Bytes.le, h1, h2, h3, h4, h5, Nat.shiftRight_eq_div_pow, List.cons.injEq,
    and_true]
  refine ⟨?_, ?_, ?_⟩ <;> apply Bytes.toUInt8_congr <;> omega

theorem pack_eq {t0 t1 t2 t3 t4 t5 t6 t7 t8 t9 : Nat} (h : ∀ t ∈ [t0, t1, t2, t3, t4, t5, t6, t7, t8], t < 2 ^ 26) :
    pack [t0, t1, t2, t3, t4, t5, t6, t7, t8, t9] = Bytes.le 32 (Nat.ofDigits (2 ^ 26) [t0, t1, t2, t3, t4, t5, t6,
    t7, t8, t9]) := by
  simp only [List.forall_mem_cons, List.not_mem_nil, false_imp_iff, implies_true, and_true] at h
  obtain ⟨h0, h1, h2, h3, h4, h5, h6, h7, h8⟩ := h
  have hpack : pack [t0, t1, t2, t3, t4, t5, t6, t7, t8, t9] =
    Bytes.le 13 (t0 + 2 ^ 26 * (t1 + 2 ^ 26 * (t2 + 2 ^ 26 * t3))) ++
      (Bytes.le 13 (t4 + 2 ^ 26 * (t5 + 2 ^ 26 * (t6 + 2 ^ 26 * t7))) ++ Bytes.le 6 (t8 + 2 ^ 26 * t9)) := by
    rw [← pack_four h0 h1 h2, ← pack_four h4 h5 h6, ← pack_two h8]
    rfl
  have hdigits : Nat.ofDigits (2 ^ 26) [t0, t1, t2, t3, t4, t5, t6, t7, t8, t9] = t0 + 2 ^ 26 *
    (t1 + 2 ^ 26 * (t2 + 2 ^ 26 * t3)) +
      256 ^ 13 * (t4 + 2 ^ 26 * (t5 + 2 ^ 26 * (t6 + 2 ^ 26 * t7)) + 256 ^ 13 * (t8 + 2 ^ 26 * t9)) := by
    simp only [Nat.ofDigits_cons, Nat.ofDigits_nil]
    ring
  rw [hpack, Bytes.le_append (by omega), Bytes.le_append (by omega), hdigits]

theorem pack_digits {ts : List Nat} (hlen : ts.length = 10) (h : ∀ t ∈ ts.take 9, t < 2 ^ 26) :
    pack ts = Bytes.le 32 (Nat.ofDigits (2 ^ 26) ts) :=
  match ts, hlen with
  | [_, _, _, _, _, _, _, _, _, _], _ => pack_eq h

theorem map_toNat {xs : List Int} (h : ∀ x ∈ xs, 0 ≤ x) : (xs.map Int.toNat).map Int.ofNat = xs := by
  rw [List.map_map]
  conv_rhs => rw [← List.map_id xs]
  exact List.map_congr_left fun x hx => Int.toNat_of_nonneg (h x hx)

section Store

variable {h : Fe} (hlimbs : Limbs26 h)

include hlimbs

theorem inRange_toList : Limbs.InRange 26 h.toList := by
  intro x hx
  obtain ⟨i, hi, rfl⟩ := List.getElem_of_mem hx
  rw [Vector.length_toList] at hi
  exact hlimbs ⟨i, hi⟩

/-- No limb gives a carry, so the quotient is the bit of the last one that does not belong to 255 bits of 25.5 each. -/
theorem quotient_eq : quotient h = h[9] / 2 ^ 25 := by
  have hzero : ∀ {x : Int}, 0 ≤ x → x < 2 ^ 26 → x >>> (26 : Nat) = 0 := by
    intro x hx hlt
    rw [Int.shiftRight_eq_div_pow]
    exact Int.ediv_eq_zero_of_lt hx (by exact_mod_cast hlt)
  have hfold : ∀ xs : List Int, Limbs.InRange 26 xs → xs.foldl (fun (q x : Int) => (x + q) >>> (26 : Nat)) 0 = 0 := by
    intro xs hxs
    induction xs with
    | nil => rfl
    | cons x xs ih =>
      obtain ⟨hx, hlt⟩ := hxs x List.mem_cons_self
      rw [List.foldl_cons, add_zero, hzero hx hlt]
      exact ih fun y hy => hxs y (List.mem_cons_of_mem x hy)
  have h0 : 0 ≤ h[0] ∧ h[0] < 2 ^ 26 := hlimbs 0
  have h9 : 0 ≤ h[9] ∧ h[9] < 2 ^ 26 := hlimbs 9
  have htop : h[9] >>> (25 : Nat) = h[9] / 2 ^ 25 := by
    rw [Int.shiftRight_eq_div_pow]
    rfl
  have hq : ((19 : Int) * (h[9] >>> (25 : Nat)) + h[0] >>> (26 : Nat)) >>> (26 : Nat) = 0 := by
    rw [hzero h0.1 h0.2, htop]
    exact hzero (by have := h9.1; omega) (by have := h9.2; omega)
  have hmiddle : Limbs.InRange 26 ((h.toList.drop 1).take 8) :=
    fun x hx => inRange_toList hlimbs x (List.mem_of_mem_drop (List.mem_of_mem_take hx))
  rw [quotient, hq, mul_zero, add_zero, hzero h0.1 h0.2, hfold _ hmiddle, add_zero, htop]

omit hlimbs in
theorem toList_split (h : Fe) : h.toList = h.toList.take 9 ++ [h[9]] := by
  rw [toList_eq]
  rfl

omit hlimbs in
/-- The value is that of the nine lower limbs and the last one. -/
theorem value_split (h : Fe) : value h = Limbs.value 26 (h.toList.take 9) + (2 ^ 234 : Int) * h[9] := by
  rw [value_eq, toList_split h, Limbs.value_append, Limbs.value_singleton]
  simp

theorem value_range : 0 ≤ value h ∧ value h < 2 ^ 260 := by
  have hrange := inRange_toList hlimbs
  have hlt := Limbs.value_lt hrange
  rw [Vector.length_toList] at hlt
  rw [value_eq]
  exact ⟨Limbs.value_nonneg hrange, hlt⟩

theorem lowLimbs : 0 ≤ Limbs.value 26 (h.toList.take 9) ∧ Limbs.value 26 (h.toList.take 9) < 2 ^ 234 := by
  have hlow : Limbs.InRange 26 (h.toList.take 9) := fun x hx => inRange_toList hlimbs x (List.mem_of_mem_take hx)
  have hlt := Limbs.value_lt hlow
  rw [List.length_take, Vector.length_toList] at hlt
  exact ⟨Limbs.value_nonneg hlow, hlt⟩

/-- The quotient is bit 259 of the value. -/
theorem quotient_value : quotient h = value h / 2 ^ 259 := by
  obtain ⟨hpos, hlt⟩ := lowLimbs hlimbs
  have hdiv : value h / (2 ^ 234 : Int) = h[9] := by
    rw [value_split, Int.add_mul_ediv_left _ _ (by norm_num), Int.ediv_eq_zero_of_lt hpos hlt, zero_add]
  have htwice : value h / 2 ^ 234 / 2 ^ 25 = value h / (2 ^ 234 * 2 ^ 25) := Int.ediv_ediv_of_nonneg (by norm_num)
  rw [quotient_eq hlimbs, ← hdiv, htwice, ← pow_add]

omit hlimbs in
/-- The limbs that are packed have the value of the element with 19 times the quotient added, but for the bits from
259 on. -/
theorem reduced_eq (h : Fe) : (reduced h).length = 10 ∧ (∀ t ∈ (reduced h).take 9, t < 2 ^ 26) ∧
    ((Nat.ofDigits (2 ^ 26) (reduced h) : Nat) : Int) = (value h + 19 * quotient h) % 2 ^ 259 := by
  have hvalue := @Limbs.value_carry 26 (19 * quotient h) (h.toList.take 9)
  have hrange := @Limbs.inRange_carry 26 (19 * quotient h) (h.toList.take 9)
  have hlen := @Limbs.length_carry 26 (19 * quotient h) (h.toList.take 9)
  have hnine : (h.toList.take 9).length = 9 := by
    rw [List.length_take, Vector.length_toList]
    rfl
  rw [hnine] at hlen hvalue
  rw [reduced]
  generalize Limbs.carry 26 (19 * quotient h) (h.toList.take 9) = p at hvalue hrange hlen
  obtain ⟨low, c⟩ := p
  obtain ⟨top, htop⟩ : ∃ top, ((h[9] : Int) + c) % 2 ^ 25 = top := ⟨_, rfl⟩
  have htop0 : 0 ≤ top := htop ▸ Int.emod_nonneg _ (by norm_num)
  have htop1 : top < 2 ^ 25 := htop ▸ Int.emod_lt_of_pos _ (by norm_num)
  have hlowlt := Limbs.value_lt hrange
  have hlow0 := Limbs.value_nonneg hrange
  rw [hlen] at hlowlt
  refine ⟨?_, ?_, ?_⟩
  · rw [List.length_append, List.length_map, hlen, List.length_singleton]
  · have htake : (low.map Int.toNat ++ [top.toNat]).take 9 = low.map Int.toNat :=
      List.take_left' (by rw [List.length_map]; exact hlen)
    rw [htop, htake]
    intro t ht
    obtain ⟨x, hx, rfl⟩ := List.mem_map.1 ht
    have := (hrange x hx).2
    omega
  · have hall : (low.map Int.toNat ++ [top.toNat]).map Int.ofNat = low ++ [top] := by
      rw [List.map_append, map_toNat fun x hx => (hrange x hx).1]
      exact congrArg (low ++ [·]) (Int.toNat_of_nonneg htop0)
    have hdiv := Int.mul_ediv_add_emod (h[9] + c) (2 ^ 25)
    rw [htop] at hdiv
    generalize (h[9] + c) / 2 ^ 25 = d at hdiv
    have hsum : value h + 19 * quotient h = Limbs.value 26 low + 2 ^ 234 * top + 2 ^ 234 * 2 ^ 25 * d := by
      rw [value_split]
      linear_combination -hvalue - 2 ^ 234 * hdiv
    have hpow : (2 : Int) ^ 259 = 2 ^ 234 * 2 ^ 25 := by rw [← pow_add]
    rw [htop, ← value_ofNat, hall, Limbs.value_append, Limbs.value_singleton, hlen, hsum, hpow,
      Int.add_mul_emod_self_left, Int.emod_eq_of_lt]
    · dsimp only at hlow0
      positivity
    · have hmul : (2 : Int) ^ 234 * (top + 1) ≤ 2 ^ 234 * 2 ^ 25 := mul_le_mul_of_nonneg_left htop1 (by positivity)
      calc Limbs.value 26 low + 2 ^ 234 * top
          < 2 ^ 234 + 2 ^ 234 * top := Int.add_lt_add_right hlowlt _
        _ = 2 ^ 234 * (top + 1) := by ring
        _ ≤ 2 ^ 234 * 2 ^ 25 := hmul

theorem tobytes_eq : feTobytes h = Bytes.le 32 ((value h + 19 * (value h / 2 ^ 259)) % 2 ^ 256).toNat := by
  obtain ⟨hlen, hsmall, hdigits⟩ := reduced_eq h
  have hmod : ((value h + 19 * (value h / 2 ^ 259)) % 2 ^ 256).toNat =
    Nat.ofDigits (2 ^ 26) (reduced h) % 256 ^ 32 := by
    have hcast : ((Nat.ofDigits (2 ^ 26) (reduced h) % 256 ^ 32 : Nat) : Int) =
      (value h + 19 * (value h / 2 ^ 259)) % 2 ^ 256 := by
      rw [Int.natCast_mod, hdigits, quotient_value hlimbs]
      have hdvd : (((256 ^ 32 : Nat) : Int)) ∣ 2 ^ 259 := by
        rw [show ((256 ^ 32 : Nat) : Int) = 2 ^ 256 by norm_num, show 259 = 256 + 3 from rfl, pow_add]
        exact dvd_mul_right _ _
      rw [Int.emod_emod_of_dvd _ hdvd]
      norm_num
    rw [← hcast, Int.toNat_natCast]
  rw [feTobytes, pack_digits hlen hsmall, hmod, Bytes.le_mod]

end Store

theorem eq_zero_of_doubled {a q : Int} (h : 38 * a - 19 * q = 0) (h0 : 0 ≤ q) (h1 : q < 2) : a = 0 ∧ q = 0 := by
  omega

/-- A number below `2 ^ 260`, with 19 for its bit 259 and without its upper bits, is what it is modulo the prime only
if it is smaller. -/
theorem folded_iff {v : Int} (h0 : 0 ≤ v) (h1 : v < 2 ^ 260) : (v + 19 * (v / 2 ^ 259)) % 2 ^ 256 = v % prime ↔
    v < prime := by
  have hp : prime = 2 ^ 255 - 19 := rfl
  have h259 : (2 : Int) ^ 259 = 16 * 2 ^ 255 := by rw [show 259 = 4 + 255 from rfl, pow_add]; norm_num
  have h260 : (2 : Int) ^ 260 = 32 * 2 ^ 255 := by rw [show 260 = 5 + 255 from rfl, pow_add]; norm_num
  rw [h260] at h1
  rw [h259]
  have hpos : (0 : Int) < prime := by rw [hp]; norm_num
  have hq0 : 0 ≤ v / (16 * 2 ^ 255) := Int.ediv_nonneg h0 (by positivity)
  have hq1 : v / (16 * 2 ^ 255) < 2 := Int.ediv_lt_of_lt_mul (by positivity) (by linarith)
  constructor
  · intro heq
    have hv := Int.mul_ediv_add_emod v prime
    have hx := Int.mul_ediv_add_emod (v + 19 * (v / (16 * 2 ^ 255))) (2 ^ 256)
    rw [heq] at hx
    have ha0 : 0 ≤ (v + 19 * (v / (16 * 2 ^ 255))) / 2 ^ 256 := Int.ediv_nonneg (by linarith) (by positivity)
    have ha1 : (v + 19 * (v / (16 * 2 ^ 255))) / 2 ^ 256 < 17 := Int.ediv_lt_of_lt_mul (by positivity) (by linarith)
    generalize (v + 19 * (v / (16 * 2 ^ 255))) / 2 ^ 256 = a at hx ha0 ha1
    generalize v / (16 * 2 ^ 255) = q at hx hq0 hq1
    -- 256 bits are 38 modulo the prime
    have hdvd : prime ∣ 38 * a - 19 * q := ⟨v / prime - 2 * a, by rw [mul_sub, hp] at *; linarith⟩
    have hzero := Int.eq_zero_of_abs_lt_dvd hdvd (by rw [hp, abs_lt]; constructor <;> linarith)
    have hlt := Int.emod_lt_of_pos v hpos
    obtain ⟨ha, hq⟩ := eq_zero_of_doubled hzero hq0 hq1
    rw [ha, hq] at hx
    linarith
  · intro hlt
    have hq : v / (16 * 2 ^ 255) = 0 := Int.ediv_eq_zero_of_lt h0 (by rw [hp] at hlt; linarith)
    rw [hq, mul_zero, add_zero, Int.emod_eq_of_lt h0 hlt, Int.emod_eq_of_lt h0 (by rw [hp] at hlt; linarith)]

/-- What is stored is the value modulo the prime, exactly if it is the value. -/
theorem tobytes_iff {h : Fe} (hlimbs : Limbs26 h) : feTobytes h = Bytes.le 32 (value h % prime).toNat ↔
    value h < prime := by
  obtain ⟨h0, h1⟩ := value_range hlimbs
  have hpos : (0 : Int) < prime := by rw [prime]; norm_num
  have hmod0 := Int.emod_nonneg (value h) (ne_of_gt hpos)
  have hmod1 := Int.emod_lt_of_pos (value h) hpos
  rw [← folded_iff h0 h1, tobytes_eq hlimbs]
  constructor
  · intro heq
    have hx0 := Int.emod_nonneg (value h + 19 * (value h / 2 ^ 259)) (show (2 ^ 256 : Int) ≠ 0 by norm_num)
    have hx1 := Int.emod_lt_of_pos (value h + 19 * (value h / 2 ^ 259)) (show (0 : Int) < 2 ^ 256 by norm_num)
    have hlt : value h % prime < 2 ^ 256 := by
      rw [prime] at hmod1 ⊢
      linarith
    have hfits : ∀ {x : Int}, 0 ≤ x → x < 2 ^ 256 → x.toNat < 256 ^ 32 := by
      intro x hx hlt
      rw [Int.toNat_lt hx]
      exact_mod_cast hlt
    have hbytes := Bytes.le_inj (hfits hx0 hx1) (hfits hmod0 hlt) heq
    rw [← Int.toNat_of_nonneg hx0, ← Int.toNat_of_nonneg hmod0, hbytes]
  · intro heq
    rw [heq]

end JACLibc.Curve25519
