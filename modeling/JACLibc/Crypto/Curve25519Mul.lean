import JACLibc.Crypto.Curve25519
import Mathlib.Algebra.Order.Ring.Abs

/-!
# Multiplying

For elements whose limbs are below `2 ^ 27` no value of 64 bits overflows.  The limbs of the product from the tenth on
begin at bit 260 and are folded with 38 = 2 * 19, and what the last limb carries out of bit 259 is folded with 19: the
result differs from the product by a multiple of `2 ^ 259 - 19`, which is no multiple of the prime (`mul_iff`).
-/

namespace JACLibc.Curve25519

/-- Limb `k` of a product before any carry. -/
def column (f g : Fe) (k : Nat) : Int := (products f g k).sum

/-- The part of a product from limb 10 on. -/
def high (f g : Fe) : Int := Limbs.value 26 ((List.range' 10 9).map (column f g))

/-- The product with that part folded with 38. -/
def folded (f g : Fe) : Int := value f * value g - (2 ^ 260 - 38) * high f g

/-- The part of it from bit 259 on. -/
def spill (f g : Fe) : Int := folded f g / 2 ^ 259

/-! ### The limbs of the product -/

theorem value_products (a b c d e f g h i j a' b' c' d' e' f' g' h' i' j' : Int) :
    Limbs.value 26 ((List.range 19).map fun k => ((List.range' (k - 9) (min k 9 + 1 - (k - 9))).map fun l =>
      [a, b, c, d, e, f, g, h, i, j].getD l 0 * [a', b', c', d', e', f', g', h', i', j'].getD (k - l) 0).sum) =
      Limbs.value 26 [a, b, c, d, e, f, g, h, i, j] * Limbs.value 26 [a', b', c', d', e', f', g', h', i', j'] := by
  have hrange : List.range 19 = [0, 1, 2, 3, 4, 5, 6, 7, 8, 9, 10, 11, 12, 13, 14, 15, 16, 17, 18] := rfl
  rw [hrange]
  simp only [List.map_cons, List.map_nil]
  simp [Limbs.value, List.range'_succ]
  ring

theorem value_columns (f g : Fe) : Limbs.value 26 ((List.range 19).map (column f g)) = value f * value g := by
  have hcolumn : column f g = fun k => ((List.range' (k - 9) (min k 9 + 1 - (k - 9))).map fun l =>
      [f[0], f[1], f[2], f[3], f[4], f[5], f[6], f[7], f[8], f[9]].getD l 0 *
        [g[0], g[1], g[2], g[3], g[4], g[5], g[6], g[7], g[8], g[9]].getD (k - l) 0).sum := by
    funext k
    rw [column, products, toList_eq f, toList_eq g]
  rw [value_eq, value_eq, toList_eq f, toList_eq g, hcolumn]
  exact value_products _ _ _ _ _ _ _ _ _ _ _ _ _ _ _ _ _ _ _ _

/-- The ten lower limbs, each with 38 times the limb ten places above it. -/
def lowColumns (f g : Fe) : List Int :=
  ((((List.range 19).map (column f g)).take 9).zip (((List.range 19).map (column f g)).drop 10)).map fun tu =>
    tu.1 + tu.2 * 38

theorem length_lowColumns (f g : Fe) : (lowColumns f g).length = 9 := rfl

theorem value_lowColumns (f g : Fe) : Limbs.value 26 (lowColumns f g) + 2 ^ 234 * column f g 9 = folded f g := by
  have hsplit : (List.range 19).map (column f g) = (List.range 9).map (column f g) ++
    (column f g 9 :: (List.range' 10 9).map (column f g)) :=
    rfl
  have hlow : Limbs.value 26 (lowColumns f g) = Limbs.value 26 ((List.range 9).map (column f g)) + 38 * high f g :=
    Limbs.value_zip (by rfl) 38
  have hvalue := value_columns f g
  rw [hsplit, Limbs.value_append, Limbs.value] at hvalue
  have hlen : ((List.range 9).map (column f g)).length = 9 := rfl
  have hpow : (2 : Int) ^ 260 = 2 ^ 234 * 2 ^ 26 := by rw [← pow_add]
  rw [hlen] at hvalue
  rw [hlow, folded, ← hvalue, hpow, high]
  ring

/-! ### No value of 64 bits overflows -/

theorem int64_ok {x : Int} (h : |x| < 2 ^ 63) : int64 x = .ok x := by
  rw [abs_lt] at h
  exact if_pos ⟨le_of_lt h.1, h.2⟩

theorem sum64_ok {a b acc : Int} {xs : List Int} (hxs : ∀ x ∈ xs, |x| ≤ b) (hacc : |acc| ≤ a)
    (hlt : a + xs.length * b < 2 ^ 63) :
    sum64 acc xs = .ok (acc + xs.sum) ∧ |acc + xs.sum| ≤ a + xs.length * b := by
  induction xs generalizing a acc with
  | nil =>
    rw [List.sum_nil, add_zero, List.length_nil, Nat.cast_zero, zero_mul, add_zero]
    exact ⟨rfl, hacc⟩
  | cons x xs ih =>
    have hx := hxs x List.mem_cons_self
    have hb := (abs_nonneg x).trans hx
    have hrest : 0 ≤ xs.length * b := mul_nonneg (Int.natCast_nonneg _) hb
    have ha := (abs_nonneg acc).trans hacc
    have hsum : |acc + x| ≤ a + b := (abs_add_le acc x).trans (add_le_add hacc hx)
    rw [List.length_cons, Nat.cast_add, Nat.cast_one, add_mul, one_mul] at hlt ⊢
    have hnext := ih (fun y hy => hxs y (List.mem_cons_of_mem x hy)) hsum (by linarith)
    rw [sum64, int64_ok (by linarith), ok_bind, int64_ok (by linarith), ok_bind, List.sum_cons, ← add_assoc, hnext.1]
    exact ⟨rfl, by linarith [hnext.2]⟩

theorem fold64_ok {t u : Int} (ht : |t| ≤ 10 * 2 ^ 54) (hu : |u| ≤ 9 * 2 ^ 54) :
    fold64 t u = .ok (t + u * 38) ∧ |t + u * 38| ≤ 352 * 2 ^ 54 := by
  rw [abs_le] at ht hu
  have hfold : |t + u * 38| ≤ 352 * 2 ^ 54 := by
    rw [abs_le]
    constructor <;> linarith
  have hmul : |u * 38| < 2 ^ 63 := by
    rw [abs_lt]
    constructor <;> linarith
  rw [fold64, int64_ok hmul, ok_bind, int64_ok (by linarith)]
  exact ⟨rfl, hfold⟩

/-- The carries stay below `2 ^ 38`. -/
theorem carry64_ok {c : Int} {ts : List Int} (hts : ∀ t ∈ ts, |t| ≤ 352 * 2 ^ 54) (hc : |c| ≤ 2 ^ 38) :
    carry64 c ts = .ok (Limbs.carry 26 c ts) ∧ |(Limbs.carry 26 c ts).2| ≤ 2 ^ 38 := by
  induction ts generalizing c with
  | nil => exact ⟨rfl, hc⟩
  | cons t ts ih =>
    have ht := hts t List.mem_cons_self
    rw [abs_le] at ht hc
    have hsum : |t + c| < 2 ^ 63 := by
      rw [abs_lt]
      constructor <;> linarith
    have hcarry : |(t + c) >>> (26 : Nat)| ≤ 2 ^ 38 := by
      rw [abs_lt] at hsum
      rw [abs_le, Int.shiftRight_eq_div_pow]
      constructor <;> omega
    have hnext := ih (fun y hy => hts y (List.mem_cons_of_mem t hy)) hcarry
    rw [carry64, int64_ok hsum, ok_bind, hnext.1]
    exact ⟨rfl, hnext.2⟩

/-- Limbs below `2 ^ 27`. -/
def Small (f : Fe) : Prop := ∀ x ∈ f.toList, |x| ≤ 2 ^ 27

theorem Obtained.small {f : Fe} (h : Obtained f) : Small f := by
  intro x hx
  obtain ⟨i, hi, rfl⟩ := List.getElem_of_mem hx
  have hten : i < 10 := by rwa [Vector.length_toList] at hi
  rw [Vector.getElem_toList, abs_le]
  cases h with
  | limbs h =>
    have hlimb : 0 ≤ f[i] ∧ f[i] < 2 ^ 26 := h ⟨i, hten⟩
    constructor <;> linarith
  | @add a b ha hb =>
    have ha' : 0 ≤ a[i] ∧ a[i] < 2 ^ 26 := ha ⟨i, hten⟩
    have hb' : 0 ≤ b[i] ∧ b[i] < 2 ^ 26 := hb ⟨i, hten⟩
    have hsum : (feAdd a b)[i] = a[i] + b[i] := Vector.getElem_zipWith hten
    rw [hsum]
    constructor <;> linarith
  | @sub a b ha hb =>
    have ha' : 0 ≤ a[i] ∧ a[i] < 2 ^ 26 := ha ⟨i, hten⟩
    have hb' : 0 ≤ b[i] ∧ b[i] < 2 ^ 26 := hb ⟨i, hten⟩
    have hdiff : (feSub a b)[i] = a[i] - b[i] := Vector.getElem_zipWith hten
    rw [hdiff]
    constructor <;> linarith

section Mul

variable {f g : Fe} (hf : Small f) (hg : Small g)

include hf hg

theorem products_le (k : Nat) : ∀ x ∈ products f g k, |x| ≤ 2 ^ 54 := by
  intro x hx
  obtain ⟨i, -, rfl⟩ := List.mem_map.1 hx
  have hget : ∀ {h : Fe}, Small h → ∀ i, |h.toList.getD i 0| ≤ 2 ^ 27 := by
    intro h hh i
    rw [List.getD_eq_getElem?_getD]
    by_cases hi : i < h.toList.length
    · rw [List.getElem?_eq_getElem hi]
      exact hh _ (List.getElem_mem hi)
    · rw [List.getElem?_eq_none (Nat.le_of_not_lt hi)]
      norm_num
  rw [abs_mul]
  exact (mul_le_mul (hget hf i) (hget hg (k - i)) (abs_nonneg _) (by norm_num)).trans (by norm_num)

theorem sum64_column (k : Nat) : sum64 0 (products f g k) = .ok (column f g k) ∧
    |column f g k| ≤ ((min k 9 + 1 - (k - 9) : Nat) : Int) * 2 ^ 54 := by
  have hlen : (products f g k).length = min k 9 + 1 - (k - 9) := by
    rw [products, List.length_map, List.length_range']
  have hshort : ((min k 9 + 1 - (k - 9) : Nat) : Int) ≤ 10 := by omega
  have hsum := sum64_ok (products_le hf hg k) (show |(0 : Int)| ≤ 0 by norm_num) (by rw [hlen]; linarith)
  rw [zero_add, zero_add, hlen] at hsum
  exact hsum

theorem abs_column_le (k : Nat) : |column f g k| ≤ 10 * 2 ^ 54 := by
  have hshort : ((min k 9 + 1 - (k - 9) : Nat) : Int) ≤ 10 := by omega
  have hle := (sum64_column hf hg k).2
  linarith

theorem abs_column_high {k : Nat} (hk : 10 ≤ k) : |column f g k| ≤ 9 * 2 ^ 54 := by
  have hshort : ((min k 9 + 1 - (k - 9) : Nat) : Int) ≤ 9 := by omega
  have hle := (sum64_column hf hg k).2
  linarith

theorem mapM_columns : ((List.range 19).mapM fun k => sum64 0 (products f g k)) =
    .ok ((List.range 19).map (column f g)) :=
  mapM_eq_ok fun k _ => (sum64_column hf hg k).1

/-- The two ends of the limbs that are folded together. -/
theorem mem_zip {tu : Int × Int}
    (h : tu ∈ (((List.range 19).map (column f g)).take 9).zip (((List.range 19).map (column f g)).drop 10)) :
    |tu.1| ≤ 10 * 2 ^ 54 ∧ |tu.2| ≤ 9 * 2 ^ 54 := by
  obtain ⟨h1, h2⟩ := List.of_mem_zip h
  obtain ⟨i, -, hi⟩ := List.mem_map.1 (List.mem_of_mem_take h1)
  have hdrop : ((List.range 19).map (column f g)).drop 10 = (List.range' 10 9).map (column f g) := rfl
  rw [hdrop] at h2
  obtain ⟨j, hj, hj'⟩ := List.mem_map.1 h2
  rw [← hi, ← hj']
  exact ⟨abs_column_le hf hg i, abs_column_high hf hg (List.mem_range'_1.1 hj).1⟩

theorem mapM_lowColumns :
    (((((List.range 19).map (column f g)).take 9).zip (((List.range 19).map (column f g)).drop 10)).mapM fun tu =>
    fold64 tu.1 tu.2) = .ok (lowColumns f g) :=
  mapM_eq_ok fun _ htu => (fold64_ok (mem_zip hf hg htu).1 (mem_zip hf hg htu).2).1

theorem abs_lowColumns_le : ∀ t ∈ lowColumns f g, |t| ≤ 352 * 2 ^ 54 := by
  intro t ht
  obtain ⟨tu, htu, rfl⟩ := List.mem_map.1 ht
  exact (fold64_ok (mem_zip hf hg htu).1 (mem_zip hf hg htu).2).2

/-- The limbs behind the carries, and the last one without them. -/
theorem carried : ∃ x y rest last, 0 ≤ x ∧ x < 2 ^ 26 ∧ 0 ≤ y ∧ y < 2 ^ 26 ∧ rest.length = 7 ∧ |last| < 2 ^ 63 ∧
    carry64 0 (lowColumns f g) = .ok (x :: y :: rest, last - column f g 9) ∧
    folded f g = Limbs.value 26 (x :: y :: rest) + 2 ^ 234 * last ∧ spill f g = last / 2 ^ 25 := by
  obtain ⟨hcarry, hc⟩ := carry64_ok (abs_lowColumns_le hf hg) (show |(0 : Int)| ≤ 2 ^ 38 by norm_num)
  have hvalue := @Limbs.value_carry 26 0 (lowColumns f g)
  have hrange := @Limbs.inRange_carry 26 0 (lowColumns f g)
  have hlen := @Limbs.length_carry 26 0 (lowColumns f g)
  rw [length_lowColumns] at hvalue hlen
  have hcolumn := abs_column_le hf hg 9
  generalize Limbs.carry 26 0 (lowColumns f g) = p at *
  obtain ⟨hs, c⟩ := p
  match hs, hlen with
  | x :: y :: rest, hlen =>
    have hx := hrange x List.mem_cons_self
    have hy := hrange y (List.mem_cons_of_mem x List.mem_cons_self)
    have hlow0 := Limbs.value_nonneg hrange
    have hlow1 := Limbs.value_lt hrange
    rw [hlen] at hlow1
    have hfolded : folded f g = Limbs.value 26 (x :: y :: rest) + 2 ^ 234 * (column f g 9 + c) := by
      rw [← value_lowColumns]
      linear_combination -hvalue
    refine ⟨x, y, rest, column f g 9 + c, hx.1, hx.2, hy.1, hy.2, by simpa using hlen, ?_, ?_, hfolded, ?_⟩
    · rw [abs_le] at hc hcolumn
      rw [abs_lt]
      constructor <;> linarith
    · rw [hcarry, add_sub_cancel_left]
    · have htwice : (Limbs.value 26 (x :: y :: rest) + 2 ^ 234 * (column f g 9 + c)) / 2 ^ 234 / 2 ^ 25 = _ :=
        Int.ediv_ediv_of_nonneg (by norm_num)
      rw [← pow_add] at htwice
      rw [spill, hfolded, ← htwice, Int.add_mul_ediv_left _ _ (by norm_num), Int.ediv_eq_zero_of_lt hlow0 hlow1,
        zero_add]

/-- What the multiplication does behind its values of 64 bits. -/
theorem feMul_eq : ∃ y rest last, rest.length = 7 ∧ 0 ≤ y ∧ y < 2 ^ 26 ∧ spill f g = last / 2 ^ 25 ∧
    folded f g = Limbs.value 26 (folded f g % 2 ^ 26 :: y :: rest) + 2 ^ 234 * last ∧
    feMul f g = (do
      let c ← int32 (spill f g * 19)
      let h0 ← int32 (folded f g % 2 ^ 26 + c)
      let h1 ← int32 (y + h0 >>> (26 : Nat))
      .ok (ofList (h0 % 2 ^ 26 :: h1 :: rest ++ [last % 2 ^ 25]))) := by
  obtain ⟨x, y, rest, last, hx0, hx1, hy0, hy1, hlen, hlast, hcarry, hfolded, hspill⟩ := carried hf hg
  have hx : folded f g % 2 ^ 26 = x := by
    have hsplit : folded f g = x + 2 ^ 26 * (y + 2 ^ 26 * Limbs.value 26 rest + 2 ^ 208 * last) := by
      rw [hfolded, Limbs.value, Limbs.value]
      ring
    rw [hsplit, Int.add_mul_emod_self_left, Int.emod_eq_of_lt hx0 hx1]
  have hninth : ((List.range 19).map (column f g)).getD 9 0 = column f g 9 := rfl
  have htop : last >>> (25 : Nat) = spill f g := by
    rw [hspill, Int.shiftRight_eq_div_pow]
    rfl
  have hnineteen : |spill f g * 19| < 2 ^ 63 := by
    rw [abs_lt] at hlast ⊢
    rw [hspill]
    omega
  refine ⟨y, rest, last, hlen, hy0, hy1, hspill, by rw [hx]; exact hfolded, ?_⟩
  rw [feMul, mapM_columns hf hg, ok_bind, mapM_lowColumns hf hg, ok_bind, hcarry, ok_bind, hx]
  simp only [hninth, add_sub_cancel, int64_ok hlast, ok_bind, htop, int64_ok hnineteen]
  rfl

end Mul

/-! ### The product -/

/-- What is folded into the first limb fits in 32 bits, and so does their sum. -/
def Narrow (f g : Fe) : Prop := -2 ^ 31 ≤ 19 * spill f g ∧ folded f g % 2 ^ 26 + 19 * spill f g < 2 ^ 31

theorem int32_ok {x : Int} (h0 : -2 ^ 31 ≤ x) (h1 : x < 2 ^ 31) : int32 x = .ok x := if_pos ⟨h0, h1⟩

theorem int32_eq_ok {x y : Int} (h : int32 x = .ok y) : x = y ∧ -2 ^ 31 ≤ x ∧ x < 2 ^ 31 := by
  by_cases hx : -2 ^ 31 ≤ x ∧ x < 2 ^ 31
  · rw [int32, if_pos hx] at h
    exact ⟨Except.ok.inj h, hx⟩
  · rw [int32, if_neg hx] at h
    exact absurd h (by simp)

section Product

variable {f g : Fe} (hf : Small f) (hg : Small g)

include hf hg

theorem feMul_ok (h : Narrow f g) : ∃ k, feMul f g = .ok k ∧ value k = folded f g - (2 ^ 259 - 19) * spill f g := by
  obtain ⟨y, rest, last, hlen, hy0, hy1, hspill, hfolded, hrun⟩ := feMul_eq hf hg
  obtain ⟨hlo, hhi⟩ := h
  have hx0 := Int.emod_nonneg (folded f g) (show (2 ^ 26 : Int) ≠ 0 by norm_num)
  obtain ⟨h0, hh0⟩ : ∃ h0, folded f g % 2 ^ 26 + spill f g * 19 = h0 := ⟨_, rfl⟩
  have hshift : h0 >>> (26 : Nat) = h0 / 2 ^ 26 := by
    rw [Int.shiftRight_eq_div_pow]
    rfl
  have hc : int32 (spill f g * 19) = .ok (spill f g * 19) := int32_ok (by linarith) (by linarith)
  have hsum : int32 h0 = .ok h0 := int32_ok (by linarith) (by linarith)
  have hnext : int32 (y + h0 / 2 ^ 26) = .ok (y + h0 / 2 ^ 26) := int32_ok (by omega) (by omega)
  refine ⟨_, by rw [hrun, hc, ok_bind, hh0, hsum, ok_bind, hshift, hnext, ok_bind], ?_⟩
  have hlen' : (h0 % 2 ^ 26 :: (y + h0 / 2 ^ 26) :: rest ++ [last % 2 ^ 25]).length = 10 := by
    simp [hlen]
  have hpow : (2 : Int) ^ 259 = 2 ^ 234 * 2 ^ 25 := by rw [← pow_add]
  have hfirst := Int.mul_ediv_add_emod h0 (2 ^ 26)
  have hlast := Int.mul_ediv_add_emod last (2 ^ 25)
  rw [← hspill] at hlast
  rw [List.cons_append, List.cons_append] at hlen' ⊢
  rw [Limbs.value, Limbs.value] at hfolded
  rw [value_ofList hlen', Limbs.value, Limbs.value, Limbs.value_append, Limbs.value_singleton, hlen, hpow]
  linear_combination hfirst + 2 ^ 234 * hlast - hfolded - hh0

theorem narrow_of_ok {k : Fe} (h : feMul f g = .ok k) : Narrow f g := by
  obtain ⟨y, rest, last, -, -, -, -, -, hrun⟩ := feMul_eq hf hg
  rw [hrun] at h
  obtain ⟨c, hc, h⟩ := bind_eq_ok.1 h
  obtain ⟨h0, hh0, -⟩ := bind_eq_ok.1 h
  obtain ⟨rfl, hlo, -⟩ := int32_eq_ok hc
  obtain ⟨-, -, hhi⟩ := int32_eq_ok hh0
  exact ⟨by linarith, by linarith⟩

end Product

/-- `2 ^ 259 - 19` and the prime have no common factor. -/
theorem prime_dvd_fold {x : Int} : prime ∣ (2 ^ 259 - 19) * x ↔ prime ∣ x := by
  have hsmall : IsCoprime prime 285 := by
    rw [Int.isCoprime_iff_gcd_eq_one, prime]
    norm_num
  have hpow : (2 : Int) ^ 259 = 2 ^ 255 * 16 := by rw [show 259 = 255 + 4 from rfl, pow_add]; norm_num
  have hfold : (2 : Int) ^ 259 - 19 = 285 + prime * 16 := by
    rw [prime, hpow]
    norm_num
  have hcoprime : IsCoprime prime (2 ^ 259 - 19) := by
    rw [hfold]
    exact hsmall.add_mul_left_right 16
  exact ⟨fun h => hcoprime.dvd_of_dvd_mul_left h, fun h => h.mul_left _⟩

/-- The product is right, exactly if nothing is lost on the way to the first limb and the two wrong factors happen to
cancel. -/
theorem mul_iff {f g : Fe} (hf : Obtained f) (hg : Obtained g) :
    (∃ k, feMul f g = .ok k ∧ value k ≡ value f * value g [ZMOD prime]) ↔
    Narrow f g ∧ prime ∣ 2 * high f g + spill f g := by
  have hdiff : value f * value g - (folded f g - (2 ^ 259 - 19) * spill f g) = (2 ^ 259 - 19) *
    (2 * high f g + spill f g) := by
    have hpow : (2 : Int) ^ 260 = 2 ^ 259 * 2 := by rw [← pow_succ]
    rw [folded, hpow]
    generalize (2 : Int) ^ 259 = q
    ring
  constructor
  · rintro ⟨k, hrun, hmod⟩
    have hnarrow := narrow_of_ok hf.small hg.small hrun
    obtain ⟨k', hrun', hvalue⟩ := feMul_ok hf.small hg.small hnarrow
    obtain rfl : k = k' := Except.ok.inj (hrun.symm.trans hrun')
    rw [hvalue, Int.modEq_iff_dvd, hdiff, prime_dvd_fold] at hmod
    exact ⟨hnarrow, hmod⟩
  · rintro ⟨hnarrow, hdvd⟩
    obtain ⟨k, hrun, hvalue⟩ := feMul_ok hf.small hg.small hnarrow
    refine ⟨k, hrun, ?_⟩
    rw [hvalue, Int.modEq_iff_dvd, hdiff, prime_dvd_fold]
    exact hdvd

/-- Loading is right exactly for strings without the bits from 128 to 254, storing exactly for values below the prime,
and multiplying exactly if nothing is lost on the way to the first limb and the prime divides twice the part of the
product from limb 10 on and what is carried. -/
theorem fe_arithmetic (s : Vector UInt8 32) {h f g : Fe} (hh : Limbs26 h) (hf : Obtained f) (hg : Obtained g) :
    (value (feFrombytes s) ≡ (Bytes.ofLe s.toList % 2 ^ 255 : Nat) [ZMOD prime] ↔
    Bytes.ofLe s.toList / 2 ^ 128 % 2 ^ 127 = 0) ∧
      (feTobytes h = Bytes.le 32 (value h % prime).toNat ↔ value h < prime) ∧
      ((∃ k, feMul f g = .ok k ∧ value k ≡ value f * value g [ZMOD prime]) ↔
      Narrow f g ∧ prime ∣ 2 * high f g + spill f g) :=
  ⟨frombytes_iff s, tobytes_iff hh, mul_iff hf hg⟩

/-- The element 3. -/
def three : Fe := #v[3, 0, 0, 0, 0, 0, 0, 0, 0, 0]

/-- The element with the limbs of the prime. -/
def primeLimbs : Fe := #v[0x3ffffed, 0x3ffffff, 0x3ffffff, 0x3ffffff, 0x3ffffff, 0x3ffffff, 0x3ffffff, 0x3ffffff,
    0x3ffffff, 0x1fffff]

/-- The element `2 ^ 234`. -/
def top : Fe := #v[0, 0, 0, 0, 0, 0, 0, 0, 0, 1]

/-- A string with bit 128 alone. -/
def bit128 : Vector UInt8 32 :=
  #v[0, 0, 0, 0, 0, 0, 0, 0, 0, 0, 0, 0, 0, 0, 0, 0, 1, 0, 0, 0, 0, 0, 0, 0, 0, 0, 0, 0, 0, 0, 0, 0]

/-- The string of zeros, and the element 3 with its square. -/
theorem fe_arithmetic_three :
    value (feFrombytes (Vector.replicate 32 0)) ≡
    (Bytes.ofLe (Vector.replicate 32 0).toList % 2 ^ 255 : Nat) [ZMOD prime] ∧
    feTobytes three = Bytes.le 32 (value three % prime).toNat ∧ ∃ k, feMul three three = .ok k ∧
    value k ≡ value three * value three [ZMOD prime] := by
  have hlimbs : Limbs26 three := by decide
  have h := fe_arithmetic (Vector.replicate 32 0) hlimbs (.limbs hlimbs) (.limbs hlimbs)
  refine ⟨h.1.2 (by decide), h.2.1.2 (by decide), h.2.2.2 ⟨?_, ?_⟩⟩
  · have hspill : spill three three = 0 := by decide +kernel
    have hfolded : folded three three = 9 := by decide +kernel
    rw [Narrow, hspill, hfolded]
    norm_num
  · have hsum : 2 * high three three + spill three three = 0 := by decide +kernel
    rw [hsum]
    exact dvd_zero _

/-- A string with bit 128, the limbs of the prime, and the square of `2 ^ 234`. -/
theorem fe_arithmetic_wrong :
    ¬value (feFrombytes bit128) ≡ (Bytes.ofLe bit128.toList % 2 ^ 255 : Nat) [ZMOD prime] ∧
      Limbs26 primeLimbs ∧ feTobytes primeLimbs ≠ Bytes.le 32 (value primeLimbs % prime).toNat ∧
      Obtained top ∧ ¬∃ k, feMul top top = .ok k ∧ value k ≡ value top * value top [ZMOD prime] := by
  have hprime : Limbs26 primeLimbs := by decide
  have htop : Limbs26 top := by decide
  refine ⟨?_, hprime, ?_, .limbs htop, ?_⟩
  · rw [frombytes_iff]
    decide
  · rw [Ne, tobytes_iff hprime]
    decide
  · rw [mul_iff (.limbs htop) (.limbs htop)]
    rintro ⟨-, hdvd⟩
    have hsum : 2 * high top top + spill top top = 2 ^ 209 := by decide +kernel
    rw [hsum] at hdvd
    have hle := Int.le_of_dvd (by norm_num) hdvd
    rw [prime] at hle
    norm_num at hle

end JACLibc.Curve25519
