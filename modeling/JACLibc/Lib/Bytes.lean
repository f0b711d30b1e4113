import Mathlib.Data.List.Basic
import Mathlib.Tactic.Ring

/-!
# Numbers as bytes

The bytes of a number, lowest first (`le`) and highest first (`be`), and the number that bytes stand for (`ofLe`).
-/

namespace Bytes

/-- The number that little-endian bytes stand for. -/
def ofLe : List UInt8 → Nat
  | [] => 0
  | b :: bs => b.toNat + 256 * ofLe bs

/-- The `k` low bytes of a number, lowest first. -/
def le : Nat → Nat → List UInt8
  | 0, _ => []
  | k + 1, n => n.toUInt8 :: le k (n / 256)

/-- The `k` low bytes of a number, highest first. -/
def be (k n : Nat) : List UInt8 := (le k n).reverse

@[simp] theorem length_le (k n : Nat) : (le k n).length = k := by
  induction k generalizing n with
  | zero => rfl
  | succ k ih => simp [le, ih]

@[simp] theorem length_be (k n : Nat) : (be k n).length = k := by simp [be]

/-- The bits of `hi` over those of `lo`. -/
theorem shift_or {hi lo k : Nat} (hlo : lo < 2 ^ k) : hi <<< k ||| lo = hi * 2 ^ k + lo := by
  rw [← Nat.shiftLeft_add_eq_or_of_lt hlo, Nat.shiftLeft_eq]

theorem toNat_toUInt8 (n : Nat) : n.toUInt8.toNat = n % 256 := by simp

theorem ofLe_le (k n : Nat) : ofLe (le k n) = n % 256 ^ k := by
  induction k generalizing n with
  | zero => simp [le, ofLe, Nat.mod_one]
  | succ k ih => rw [le, ofLe, ih, toNat_toUInt8, Nat.pow_succ', Nat.mod_mul]

theorem ofLe_lt (bs : List UInt8) : ofLe bs < 256 ^ bs.length := by
  induction bs with
  | nil => simp [ofLe]
  | cons b bs ih =>
    have hb : b.toNat < 256 := b.toNat_lt
    rw [ofLe, List.length_cons, Nat.pow_succ']
    omega

theorem le_ofLe (bs : List UInt8) : le bs.length (ofLe bs) = bs := by
  induction bs with
  | nil => rfl
  | cons b bs ih =>
    have hb : b.toNat < 256 := b.toNat_lt
    have hlow : (b.toNat + 256 * ofLe bs).toUInt8 = b := by
      rw [← UInt8.toNat_inj, toNat_toUInt8]
      omega
    have hhigh : (b.toNat + 256 * ofLe bs) / 256 = ofLe bs := by omega
    rw [List.length_cons, ofLe, le, hlow, hhigh, ih]

theorem ofLe_append (bs cs : List UInt8) : ofLe (bs ++ cs) = ofLe bs + 256 ^ bs.length * ofLe cs := by
  induction bs with
  | nil => simp [ofLe]
  | cons b bs ih =>
    rw [List.cons_append, ofLe, ofLe, ih, List.length_cons, Nat.pow_succ']
    ring

theorem ofLe_drop (bs : List UInt8) (i : Nat) : ofLe (bs.drop i) = ofLe bs / 256 ^ i := by
  induction i generalizing bs with
  | zero => simp
  | succ i ih =>
    cases bs with
    | nil => simp [ofLe]
    | cons b bs =>
      have hb : b.toNat < 256 := b.toNat_lt
      rw [List.drop_succ_cons, ih, ofLe, Nat.pow_succ', ← Nat.div_div_eq_div_mul]
      congr 1
      omega

theorem ofLe_take (bs : List UInt8) (k : Nat) : ofLe (bs.take k) = ofLe bs % 256 ^ k := by
  induction k generalizing bs with
  | zero => simp [ofLe, Nat.mod_one]
  | succ k ih =>
    cases bs with
    | nil => simp [ofLe]
    | cons b bs =>
      have hb : b.toNat < 256 := b.toNat_lt
      rw [List.take_succ_cons, ofLe, ofLe, ih, Nat.pow_succ', Nat.mod_mul, Nat.add_mul_mod_self_left,
        Nat.mod_eq_of_lt hb]
      congr 3
      omega

/-- Two numbers below `256^k` with the same bytes are the same. -/
theorem le_inj {k m n : Nat} (hm : m < 256 ^ k) (hn : n < 256 ^ k) (h : le k m = le k n) : m = n := by
  have := congrArg ofLe h
  rwa [ofLe_le, ofLe_le, Nat.mod_eq_of_lt hm, Nat.mod_eq_of_lt hn] at this

theorem le_add (j k n : Nat) : le (j + k) n = le j n ++ le k (n / 256 ^ j) := by
  induction j generalizing n with
  | zero => simp [le]
  | succ j ih => rw [Nat.succ_add, le, le, ih, List.cons_append, Nat.div_div_eq_div_mul, Nat.pow_succ']

theorem be_add (j k n : Nat) : be (j + k) n = be k (n / 256 ^ j) ++ be j n := by
  unfold be
  rw [le_add, List.reverse_append]

theorem le_mod (k n : Nat) : le k (n % 256 ^ k) = le k n := by
  induction k generalizing n with
  | zero => rfl
  | succ k ih =>
    have hlow : (n % 256 ^ (k + 1)).toUInt8 = n.toUInt8 := by
      apply UInt8.toNat_inj.1
      rw [toNat_toUInt8, toNat_toUInt8, Nat.mod_mod_of_dvd n (Dvd.intro_left (256 ^ k) (pow_succ 256 k).symm)]
    have hhigh : n % 256 ^ (k + 1) / 256 = n / 256 % 256 ^ k := by
      rw [Nat.pow_succ', Nat.mod_mul_right_div_self]
    rw [le, le, hlow, hhigh, ih]

theorem le_append {j m : Nat} (hm : m < 256 ^ j) (k n : Nat) : le j m ++ le k n = le (j + k) (m + 256 ^ j * n) := by
  have hlow : (m + 256 ^ j * n) % 256 ^ j = m := by
    rw [Nat.add_mul_mod_self_left, Nat.mod_eq_of_lt hm]
  have hhigh : (m + 256 ^ j * n) / 256 ^ j = n := by
    rw [Nat.add_mul_div_left _ _ (Nat.pow_pos (by decide)), Nat.div_eq_of_lt hm, Nat.zero_add]
  rw [le_add, hhigh, ← le_mod j (m + 256 ^ j * n), hlow]

theorem toUInt8_congr {m n : Nat} (h : m % 256 = n % 256) : m.toUInt8 = n.toUInt8 := by
  apply UInt8.toNat_inj.1
  rw [toNat_toUInt8, toNat_toUInt8, h]

theorem be_mod (k n : Nat) : be k (n % 256 ^ k) = be k n := by
  unfold be
  rw [le_mod]

end Bytes
