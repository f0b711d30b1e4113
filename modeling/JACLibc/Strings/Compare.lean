import JACLibc.CString
import Mathlib.Order.Basic
import Mathlib.Data.Int.Order.Basic

/-!
# `strncmp` and `wcsncmp`

The bounded comparisons of `string.h` and `wchar.h` are one loop at two types: it stops at `n`, at the NUL of the
first string or at a difference, and then compares what it stopped at (`ncmp`).  What it should answer is the
lexicographic order of the first `n` characters, the NUL included (`lexOrder`).  Both are read off the first
difference (`firstDiff`), and so they agree except in two cases: two equal strings that end before `n` are told apart,
and bytes are compared as signed (`string_order`).
-/

namespace JACLibc

/-- The characters of a NUL-terminated wide string, without the NUL; `wchar_t` is a signed 32-bit type here. -/
structure WString where
  units : List (BitVec 32)
  noNul : 0 ∉ units
  deriving DecidableEq

section Generic

variable {α : Type*} [DecidableEq α] (nul : α) (val : α → Int)

/-- `for (; i < n && a[i] && a[i] == b[i]; i++);` and the answer, on what is left of `n` and of the strings. -/
def ncmp : Nat → List α → List α → Int
  | 0, _, _ => 0
  | n + 1, a, b =>
    if a.headD nul ≠ nul ∧ a.headD nul = b.headD nul then ncmp n a.tail b.tail
    else if val (a.headD nul) < val (b.headD nul) then -1 else 1

/-- `while (*a && *a == *b) { a++; b++; }` and the answer. -/
def zcmp : List α → List α → Int
  | [], b => if val nul < val (b.headD nul) then -1 else if val (b.headD nul) < val nul then 1 else 0
  | x :: a, b =>
    if x ≠ nul ∧ x = b.headD nul then zcmp a b.tail
    else if val x < val (b.headD nul) then -1 else if val (b.headD nul) < val x then 1 else 0

/-- The lexicographic order of the first `n` characters, up to and including the NUL. -/
def lexOrder (rank : α → Int) (n : Nat) (a b : List α) : Ordering :=
  List.compareLex (fun x y => compare (rank x) (rank y)) ((a ++ [nul]).take n) ((b ++ [nul]).take n)

/-- The first two characters that differ among the first `n`, the NULs included. -/
def firstDiff : Nat → List α → List α → Option (α × α)
  | 0, _, _ => none
  | n + 1, a, b =>
    if a.headD nul ≠ b.headD nul then some (a.headD nul, b.headD nul)
    else if a.headD nul = nul then none else firstDiff n a.tail b.tail

end Generic

/-- `strncmp` on two non-NULL strings. -/
def strncmp (a b : List UInt8) (n : Nat) : Int := ncmp 0 charVal n a b

/-- `wcsncmp` on two non-NULL strings. -/
def wcsncmp (a b : List (BitVec 32)) (n : Nat) : Int := ncmp 0 BitVec.toInt n a b

/-- `wcscmp` on two non-NULL strings. -/
def wcscmp (a b : List (BitVec 32)) : Int := zcmp 0 BitVec.toInt a b

theorem strcmp_eq_zcmp (a b : List UInt8) : strcmp a b = zcmp 0 charVal a b := by
  induction a generalizing b with
  | nil => rfl
  | cons x a ih =>
    rw [strcmp, zcmp, ih]
    rfl

section Generic

variable {α : Type*} [DecidableEq α] {nul : α} {val rank : α → Int} {a b : List α} {n : Nat}

/-- In strings without a NUL the loop stops with no difference exactly where it reaches `n`, or where both end. -/
theorem ncmp_eq (ha : nul ∉ a) (hb : nul ∉ b) :
    ncmp nul val n a b = match firstDiff nul n a b with
      | some (x, y) => if val x < val y then -1 else 1
      | none => if a = b ∧ a.length < n then 1 else 0 := by
  induction n generalizing a b with
  | zero => simp [ncmp, firstDiff]
  | succ n ih =>
    rcases a with _ | ⟨x, a⟩
    · rcases b with _ | ⟨y, b⟩
      · simp [ncmp, firstDiff]
      · have hy : nul ≠ y := fun he => hb (he ▸ List.mem_cons_self)
        simp [ncmp, firstDiff, hy]
    · have hx : x ≠ nul := fun he => ha (he ▸ List.mem_cons_self)
      rcases b with _ | ⟨y, b⟩
      · simp [ncmp, firstDiff, hx]
      · by_cases hxy : x = y
        · subst hxy
          have hrec := ih (fun h => ha (List.mem_cons_of_mem _ h)) (fun h => hb (List.mem_cons_of_mem _ h))
          simp [ncmp, firstDiff, hx, hrec]
        · simp [ncmp, firstDiff, hx, hxy]

/-- Without a bound the loop stops at the first difference, which lies within any bound past both ends. -/
theorem zcmp_eq (ha : nul ∉ a) (hb : nul ∉ b) (hn : max a.length b.length < n) :
    zcmp nul val a b = match firstDiff nul n a b with
      | some (x, y) => if val x < val y then -1 else if val y < val x then 1 else 0
      | none => 0 := by
  induction n generalizing a b with
  | zero => omega
  | succ n ih =>
    rcases a with _ | ⟨x, a⟩
    · rcases b with _ | ⟨y, b⟩
      · simp [zcmp, firstDiff]
      · have hy : nul ≠ y := fun he => hb (he ▸ List.mem_cons_self)
        simp [zcmp, firstDiff, hy]
    · have hx : x ≠ nul := fun he => ha (he ▸ List.mem_cons_self)
      rcases b with _ | ⟨y, b⟩
      · simp [zcmp, firstDiff, hx]
      · by_cases hxy : x = y
        · subst hxy
          have hrec := ih (fun h => ha (List.mem_cons_of_mem _ h)) (fun h => hb (List.mem_cons_of_mem _ h))
            (by simp only [List.length_cons] at hn; omega)
          simp [zcmp, firstDiff, hx, hrec]
        · simp [zcmp, firstDiff, hx, hxy]

theorem lexOrder_eq (hrank : Function.Injective rank) (ha : nul ∉ a) (hb : nul ∉ b) :
    lexOrder nul rank n a b = match firstDiff nul n a b with
      | some (x, y) => compare (rank x) (rank y)
      | none => .eq := by
  have hne : ∀ {x y} (s t : List α), x ≠ y →
      List.compareLex (fun x y => compare (rank x) (rank y)) (x :: s) (y :: t) = compare (rank x) (rank y) := by
    intro x y s t hxy
    have hcmp : compare (rank x) (rank y) ≠ .eq := fun he => hxy (hrank (compare_eq_iff_eq.mp he))
    rw [List.compareLex_cons_cons]
    cases hc : compare (rank x) (rank y) with
    | lt => rfl
    | eq => exact absurd hc hcmp
    | gt => rfl
  have heq : ∀ (x : α) (s t : List α), List.compareLex (fun x y => compare (rank x) (rank y)) (x :: s) (x :: t) =
      List.compareLex (fun x y => compare (rank x) (rank y)) s t := by
    intro x s t
    rw [List.compareLex_cons_cons, compare_eq_iff_eq.mpr rfl]
    rfl
  induction n generalizing a b with
  | zero => rfl
  | succ n ih =>
    rcases a with _ | ⟨x, a⟩
    · rcases b with _ | ⟨y, b⟩
      · simp [lexOrder, firstDiff, heq, List.compareLex]
      · have hy : nul ≠ y := fun he => hb (he ▸ List.mem_cons_self)
        simp [lexOrder, firstDiff, hy, hne]
    · have hx : x ≠ nul := fun he => ha (he ▸ List.mem_cons_self)
      rcases b with _ | ⟨y, b⟩
      · simp [lexOrder, firstDiff, hx, hne]
      · by_cases hxy : x = y
        · subst hxy
          have hrec := ih (fun h => ha (List.mem_cons_of_mem _ h)) (fun h => hb (List.mem_cons_of_mem _ h))
          rw [lexOrder] at hrec
          simp [lexOrder, firstDiff, hx, heq, hrec]
        · simp [lexOrder, firstDiff, hxy, hne]

theorem firstDiff_ne {x y : α} (h : firstDiff nul n a b = some (x, y)) : x ≠ y := by
  induction n generalizing a b with
  | zero => cases h
  | succ n ih =>
    rw [firstDiff] at h
    split at h
    · next hne =>
      obtain ⟨rfl, rfl⟩ := Prod.mk.inj (Option.some.inj h)
      exact hne
    · split at h
      · cases h
      · exact ih h

theorem firstDiff_self (n : Nat) (a : List α) : firstDiff nul n a a = none := by
  induction n generalizing a with
  | zero => rfl
  | succ n ih => simp [firstDiff, ih]

/-- Strings that end before `n` and have no difference are equal. -/
theorem eq_of_firstDiff (ha : nul ∉ a) (hb : nul ∉ b) (hn : max a.length b.length < n)
    (h : firstDiff nul n a b = none) :
    a = b := by
  induction n generalizing a b with
  | zero => omega
  | succ n ih =>
    rcases a with _ | ⟨x, a⟩
    · rcases b with _ | ⟨y, b⟩
      · rfl
      · have hy : nul ≠ y := fun he => hb (he ▸ List.mem_cons_self)
        simp [firstDiff, hy] at h
    · have hx : x ≠ nul := fun he => ha (he ▸ List.mem_cons_self)
      rcases b with _ | ⟨y, b⟩
      · simp [firstDiff, hx] at h
      · by_cases hxy : x = y
        · subst hxy
          rw [firstDiff, if_neg (by simp), if_neg (by simpa using hx)] at h
          simp only [List.length_cons] at hn
          rw [ih (fun h => ha (List.mem_cons_of_mem _ h)) (fun h => hb (List.mem_cons_of_mem _ h)) (by omega) h]
        · simp [firstDiff, hxy] at h

/-- The loop orders two strings right unless they are equal and end before `n`, or the comparison goes wrong at the
first difference. -/
theorem compare_ncmp (hrank : Function.Injective rank) (ha : nul ∉ a) (hb : nul ∉ b) :
    compare (ncmp nul val n a b) 0 = lexOrder nul rank n a b ↔
      ¬(a = b ∧ a.length < n) ∧ ∀ x y, firstDiff nul n a b = some (x, y) → (val x < val y ↔ rank x < rank y) := by
  rw [ncmp_eq ha hb, lexOrder_eq hrank ha hb]
  rcases hd : firstDiff nul n a b with _ | ⟨x, y⟩
  · have hnone : ∀ x y : α, none = some (x, y) → (val x < val y ↔ rank x < rank y) := fun _ _ h => nomatch h
    rw [and_iff_left hnone]
    dsimp only
    split
    · next h => exact iff_of_false (by decide) fun hn => hn h
    · next h => exact iff_of_true (by decide) h
  · have hab : ¬(a = b ∧ a.length < n) := by
      rintro ⟨rfl, -⟩
      rw [firstDiff_self] at hd
      cases hd
    have hsome : (∀ x' y', some (x, y) = some (x', y') → (val x' < val y' ↔ rank x' < rank y')) ↔
        (val x < val y ↔ rank x < rank y) := by
      constructor
      · intro h
        exact h x y rfl
      · rintro h x' y' he
        cases he
        exact h
    rw [and_iff_right hab, hsome]
    dsimp only
    have hne : rank x ≠ rank y := fun he => firstDiff_ne hd (hrank he)
    rcases lt_or_gt_of_ne hne with hr | hr
    · rw [compare_lt_iff_lt.mpr hr]
      by_cases hv : val x < val y
      · exact iff_of_true (by rw [if_pos hv]; decide) (iff_of_true hv hr)
      · exact iff_of_false (by rw [if_neg hv]; decide) fun h => hv (h.mpr hr)
    · rw [compare_gt_iff_gt.mpr hr]
      by_cases hv : val x < val y
      · exact iff_of_false (by rw [if_pos hv]; decide) fun h => absurd (h.mp hv) (not_lt.mpr hr.le)
      · exact iff_of_true (by rw [if_neg hv]; decide) (iff_of_false hv (not_lt.mpr hr.le))

theorem ncmp_self (ha : nul ∉ a) : ncmp nul val n a a = 0 ↔ n ≤ a.length := by
  rw [ncmp_eq ha ha, firstDiff_self]
  dsimp only
  split
  · next h => exact iff_of_false (by decide) (by omega)
  · next h => exact iff_of_true rfl (Nat.not_lt.mp fun hlt => h ⟨rfl, hlt⟩)

/-- The bounded and the unbounded comparison answer the same sign, but for equal strings. -/
theorem compare_zcmp (hval : Function.Injective val) (ha : nul ∉ a) (hb : nul ∉ b) (hn : max a.length b.length < n) :
    compare (zcmp nul val a b) 0 = compare (ncmp nul val n a b) 0 ↔ a ≠ b := by
  rw [zcmp_eq ha hb hn, ncmp_eq ha hb]
  rcases hd : firstDiff nul n a b with _ | ⟨x, y⟩
  · have hab := eq_of_firstDiff ha hb hn hd
    have hlt : a.length < n := by omega
    dsimp only
    rw [if_pos ⟨hab, hlt⟩]
    exact iff_of_false (by decide) fun hne => hne hab
  · have hab : a ≠ b := by
      rintro rfl
      rw [firstDiff_self] at hd
      cases hd
    have hne : val x ≠ val y := fun he => firstDiff_ne hd (hval he)
    refine iff_of_true ?_ hab
    dsimp only
    rcases lt_or_gt_of_ne hne with h | h
    · rw [if_pos h, if_pos h]
    · rw [if_neg (not_lt.mpr h.le), if_neg (not_lt.mpr h.le), if_pos h]

end Generic

/-! ### The two comparisons -/

/-- Signed and unsigned order agree on two different bytes exactly where both are below 128 or both are not. -/
theorem charVal_lt_iff {x y : UInt8} (h : x ≠ y) :
    (charVal x < charVal y ↔ (x.toNat : Int) < y.toNat) ↔ (x < 128 ↔ y < 128) := by
  have hne : x.toNat ≠ y.toNat := fun he => h (UInt8.toNat_inj.mp he)
  have hx := UInt8.toNat_lt x
  have hy := UInt8.toNat_lt y
  rw [UInt8.lt_iff_toNat_lt, UInt8.lt_iff_toNat_lt]
  simp only [charVal, BitVec.toInt_eq_toNat_cond, UInt8.toNat_toBitVec]
  have h128 : (128 : UInt8).toNat = 128 := rfl
  rw [h128]
  split <;> split <;> omega

theorem toNat_injective : Function.Injective fun x : UInt8 => (x.toNat : Int) := by
  intro x y h
  exact UInt8.toNat_inj.mp (Int.ofNat.inj h)

/-- What a bounded comparison promises: the sign is the lexicographic order of the first `n` characters. -/
def OrdersAs {α : Type*} (nul : α) (rank : α → Int) (cmp : List α → List α → Nat → Int) (a b : List α) (n : Nat) :
    Prop :=
  compare (cmp a b n) 0 = lexOrder nul rank n a b

/-- `strncmp` orders two strings as unsigned bytes exactly where they do not end together before `n` and the first
bytes that differ are on one side of 128; it agrees with `strcmp` exactly on different strings; `wcsncmp` fails on
equal strings only. -/
theorem string_order (a b : CString) (u v : WString) (n : Nat) :
    (OrdersAs 0 (fun x => (x.toNat : Int)) strncmp a.bytes b.bytes n ↔
      ¬(a = b ∧ a.bytes.length < n) ∧ ∀ x y, firstDiff 0 n a.bytes b.bytes = some (x, y) → (x < 128 ↔ y < 128)) ∧
    (strncmp a.bytes a.bytes n = 0 ↔ n ≤ a.bytes.length) ∧
    (max a.bytes.length b.bytes.length < n →
      (compare (strcmp a.bytes b.bytes) 0 = compare (strncmp a.bytes b.bytes n) 0 ↔ a ≠ b)) ∧
    (OrdersAs 0 BitVec.toInt wcsncmp u.units v.units n ↔ ¬(u = v ∧ u.units.length < n)) ∧
    (wcsncmp u.units u.units n = 0 ↔ n ≤ u.units.length) ∧
    (max u.units.length v.units.length < n →
      (compare (wcscmp u.units v.units) 0 = compare (wcsncmp u.units v.units n) 0 ↔ u ≠ v)) := by
  have hab : a = b ↔ a.bytes = b.bytes := by
    cases a
    cases b
    simp
  have huv : u = v ↔ u.units = v.units := by
    cases u
    cases v
    simp
  have hchar : Function.Injective charVal := fun _ _ => charVal_injective
  have hwide : Function.Injective fun x : BitVec 32 => x.toInt := fun _ _ => BitVec.eq_of_toInt_eq
  refine ⟨?_, ncmp_self a.noNul, ?_, ?_, ncmp_self u.noNul, ?_⟩
  · rw [OrdersAs, strncmp, compare_ncmp toNat_injective a.noNul b.noNul, hab]
    refine and_congr_right fun _ => forall_congr' fun x => forall_congr' fun y => ?_
    exact forall_congr' fun hd => charVal_lt_iff (firstDiff_ne hd)
  · intro hn
    rw [strcmp_eq_zcmp, strncmp, compare_zcmp hchar a.noNul b.noNul hn, Ne, Ne, hab]
  · rw [OrdersAs, wcsncmp, compare_ncmp hwide u.noNul v.noNul, huv]
    exact and_iff_left fun _ _ _ => Iff.rfl
  · intro hn
    rw [wcscmp, wcsncmp, compare_zcmp hwide u.noNul v.noNul hn, Ne, Ne, huv]

/-- `"a"` is told apart from itself, and the byte 128 is put before `"a"`. -/
theorem string_order_broken :
    strncmp [asc 'a'] [asc 'a'] 2 = 1 ∧ strcmp [asc 'a'] [asc 'a'] = 0 ∧
      ¬OrdersAs 0 (fun x => (x.toNat : Int)) strncmp [asc 'a'] [asc 'a'] 2 ∧
      ¬OrdersAs 0 (fun x => (x.toNat : Int)) strncmp [128] [asc 'a'] 1 ∧ wcsncmp [97] [97] 2 = 1 := by
  refine ⟨by decide, by decide, ?_, ?_, by decide⟩ <;> simp only [OrdersAs] <;> decide

end JACLibc
