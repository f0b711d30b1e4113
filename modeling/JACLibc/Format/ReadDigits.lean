import JACLibc.Format.Number

/-!
# The digit loop

`__jacl_read_digits` goes over a run of digits that ends before `after`.  It reads the whole run and one character
more, which its caller puts back (`readDigits_whole`), unless the width is used up first (`readDigits_width`) or as
many digits as the width are read (`readDigits_count`): then it has read no further, and the caller puts the last
digit back.  The value stops at `UINTMAX_MAX`.
-/

namespace JACLibc

/-- The characters of the value, and the value that does not go beyond `UINTMAX_MAX`. -/
def saturated (v : Nat) : Nat := min v UINTMAX_MAX

theorem saturated_le (v : Nat) : saturated v ≤ UINTMAX_MAX := Nat.min_le_right _ _

theorem pushDigit_eq {base : Nat} (hbase : 0 < base) (val dval : Nat) (hdval : dval ≤ UINTMAX_MAX) :
    pushDigit base val dval = (saturated (val * base + dval), decide (UINTMAX_MAX < val * base + dval)) := by
  have hiff : val > (UINTMAX_MAX - dval) / base ↔ UINTMAX_MAX < val * base + dval := by
    rw [gt_iff_lt, Nat.div_lt_iff_lt_mul hbase]
    omega
  unfold pushDigit saturated
  by_cases h : UINTMAX_MAX < val * base + dval
  · rw [if_pos (hiff.2 h), Nat.min_eq_right h.le, decide_eq_true h]
  · rw [if_neg fun h' => h (hiff.1 h'), Nat.min_eq_left (by omega), decide_eq_false h]

/-- A value beyond the limit stays there. -/
theorem saturated_horner {base : Nat} (hbase : 0 < base) (v : Nat) (cs : List UInt8) :
    saturated (horner base (saturated v) cs) = saturated (horner base v cs) := by
  unfold saturated
  rcases Nat.le_total v UINTMAX_MAX with h | h
  · rw [Nat.min_eq_left h]
  · rw [Nat.min_eq_right h, Nat.min_eq_right (le_horner hbase _ cs), Nat.min_eq_right (h.trans (le_horner hbase _ cs))]

theorem saturated_erange {base : Nat} (hbase : 0 < base) (v : Nat) (cs : List UInt8) :
    (decide (UINTMAX_MAX < v) || decide (UINTMAX_MAX < horner base (saturated v) cs)) =
    decide (UINTMAX_MAX < horner base v cs) := by
  unfold saturated
  rcases Nat.lt_or_ge UINTMAX_MAX v with h | h
  · rw [decide_eq_true h, Bool.true_or, decide_eq_true (h.trans_le (le_horner hbase v cs))]
  · rw [Nat.min_eq_left h, decide_eq_false (by omega), Bool.false_or]

theorem digitVal_le (c : UInt8) : (digitVal (charVal c)).toNat ≤ UINTMAX_MAX := by
  have hle := @forall_byte (fun c => digitVal (charVal c) ≤ 255) (by decide +kernel) c
  unfold UINTMAX_MAX
  omega

/-- The loop from a character that is still to be read. -/
def readFrom (width : Int) (base : Nat) (r : Reader) (count : Int) (val : Nat) (erange : Bool) : Digits :=
  readDigits width width base ⟨(readNext r).1, (readNext r).2, count, val, erange⟩

section Loop

variable {base : Nat} (hbase : 0 < base) {width : Int}

/-- The loop ends in front of what is no digit. -/
theorem readDigits_done {limit : Int} {d : Digits} (h : d.ch = EOF ∨ ¬(0 ≤ digitVal d.ch ∧ digitVal d.ch < base)) :
    readDigits width limit base d = d := by
  rw [readDigits, if_neg]
  tauto

include hbase

/-- A digit more, and the character behind it. -/
theorem readDigits_next {c : UInt8} (hc : IsDigitOf base c) {r : Reader} {count : Int} {val : Nat} {erange : Bool}
    (hread : r.read < width) (hcount : count + 1 < width) :
    readDigits width width base ⟨charVal c, r, count, val, erange⟩ =
      readDigits width width base ⟨(readNext r).1, (readNext r).2, count + 1,
      saturated (val * base + (digitVal (charVal c)).toNat),
        erange || decide (UINTMAX_MAX < val * base + (digitVal (charVal c)).toNat)⟩ := by
  rw [readDigits, if_pos ⟨hread, hc.plain.1, hc⟩]
  simp only [pushDigit_eq hbase _ _ (digitVal_le c)]
  rw [if_neg (by omega)]

/-- The last digit that the limit allows. -/
theorem readDigits_last {c : UInt8} (hc : IsDigitOf base c) {r : Reader} {count : Int} {val : Nat} {erange : Bool}
    (hread : r.read < width) (hcount : width ≤ count + 1) :
    readDigits width width base ⟨charVal c, r, count, val, erange⟩ = ⟨charVal c, r, count + 1,
      saturated (val * base + (digitVal (charVal c)).toNat),
      erange || decide (UINTMAX_MAX < val * base + (digitVal (charVal c)).toNat)⟩ := by
  rw [readDigits, if_pos ⟨hread, hc.plain.1, hc⟩]
  simp only [pushDigit_eq hbase _ _ (digitVal_le c)]
  rw [if_pos hcount]

/-- A run of digits is read, one after another. -/
theorem readFrom_run {ds rest : List UInt8} (hds : ∀ x ∈ ds, IsDigitOf base x) {back : List UInt8} {read count : Int}
    {val : Nat} {erange : Bool} (hread : ds = [] ∨ read + ds.length < width)
    (hcount : ds = [] ∨ count + ds.length < width) (hval : val ≤ UINTMAX_MAX) :
    readFrom width base ⟨back, ds ++ rest, read⟩ count val erange =
      readFrom width base ⟨ds.reverse ++ back, rest, read + ds.length⟩ (count + ds.length)
      (saturated (horner base val ds))
        (erange || decide (UINTMAX_MAX < horner base val ds)) := by
  induction ds generalizing back read count val erange with
  | nil =>
    have hover : ¬UINTMAX_MAX < val := by omega
    have hkeep : saturated (horner base val []) = val := Nat.min_eq_left hval
    rw [hkeep, show horner base val [] = val from rfl]
    simp [hover]
  | cons c ds ih =>
    have hread := hread.resolve_left (List.cons_ne_nil _ _)
    have hcount := hcount.resolve_left (List.cons_ne_nil _ _)
    rw [List.length_cons, Nat.cast_add, Nat.cast_one] at hread hcount
    have hc := hds c List.mem_cons_self
    have hnext : readNext ⟨back, c :: ds ++ rest, read⟩ = (charVal c, ⟨c :: back, ds ++ rest, read + 1⟩) := by
      simp only [readNext, List.cons_append, if_pos hc.plain.1]
    have hstep := @readDigits_next base hbase width c hc ⟨c :: back, ds ++ rest, read + 1⟩ count val erange
      (show read + 1 < width by omega) (by omega)
    rw [readFrom, hnext, hstep]
    refine (ih (fun x hx => hds x (List.mem_cons_of_mem _ hx)) (.inr (by omega)) (.inr (by omega))
      (saturated_le _)).trans ?_
    rw [saturated_horner hbase, Bool.or_assoc, saturated_erange hbase, List.reverse_cons, List.append_assoc,
      List.singleton_append, List.length_cons, Nat.cast_add, Nat.cast_one, Int.add_assoc read, Int.add_assoc count,
      Int.add_comm 1]
    rfl

variable {ds rest back : List UInt8} (hds : ∀ x ∈ ds, IsDigitOf base x) {read count : Int} {val : Nat} {erange : Bool}
  (hval : val ≤ UINTMAX_MAX)

include hds hval

/-- The part of a run that a width or a limit leaves. -/
theorem readFrom_part {n : Nat} (hn : n < ds.length) (hread : n = 0 ∨ read + n < width)
    (hcount : n = 0 ∨ count + n < width) :
    readFrom width base ⟨back, ds ++ rest, read⟩ count val erange =
      readFrom width base ⟨(ds.take n).reverse ++ back, ds[n] :: (ds.drop (n + 1) ++ rest), read + n⟩ (count + n)
        (saturated (horner base val (ds.take n))) (erange || decide (UINTMAX_MAX < horner base val (ds.take n))) := by
  have hlen : (ds.take n).length = n := List.length_take_of_le hn.le
  have hnil : n = 0 → ds.take n = [] := fun h => by rw [h, List.take_zero]
  have hsplit : ds ++ rest = ds.take n ++ (ds[n] :: (ds.drop (n + 1) ++ rest)) := by
    rw [← List.cons_append, ← List.drop_eq_getElem_cons hn, ← List.append_assoc, List.take_append_drop]
  have hrun := @readFrom_run base hbase width (ds.take n) (ds[n] :: (ds.drop (n + 1) ++ rest))
    (fun x hx => hds x (List.mem_of_mem_take hx)) back read count val erange (hread.imp hnil (by rw [hlen]; exact id))
    (hcount.imp hnil (by rw [hlen]; exact id)) hval
  rw [hsplit, hrun, hlen]

/-- A digit behind the width is read and left to the caller to put back. -/
theorem readFrom_width {n : Nat} (hn : n < ds.length) (hread : read + n + 1 = width)
    (hcount : n = 0 ∨ count + n < width) :
    readFrom width base ⟨back, ds ++ rest, read⟩ count val erange =
      ⟨charVal ds[n], ⟨ds[n] :: ((ds.take n).reverse ++ back), ds.drop (n + 1) ++ rest, width⟩, count + n,
        saturated (horner base val (ds.take n)), erange || decide (UINTMAX_MAX < horner base val (ds.take n))⟩ := by
  have heof := (hds _ (List.getElem_mem hn)).plain.1
  rw [readFrom_part hbase hds hval hn (.inr (by omega)) hcount, readFrom]
  simp only [readNext, if_pos heof]
  rw [readDigits, if_neg (by simp only; omega), hread]

/-- The last digit that the limit allows is read, and nothing behind it. -/
theorem readFrom_count {n : Nat} (hn : n < ds.length) (hread : read + n + 1 < width) (hcount : count + n + 1 = width) :
    readFrom width base ⟨back, ds ++ rest, read⟩ count val erange =
      ⟨charVal ds[n], ⟨ds[n] :: ((ds.take n).reverse ++ back), ds.drop (n + 1) ++ rest, read + n + 1⟩, width,
        saturated (horner base val (ds.take (n + 1))),
        erange || decide (UINTMAX_MAX < horner base val (ds.take (n + 1)))⟩ := by
  have hdigit := hds _ (List.getElem_mem hn)
  have htake : horner base val (ds.take (n + 1)) =
      horner base val (ds.take n) * base + (digitVal (charVal ds[n])).toNat := by
    rw [List.take_succ_eq_append_getElem hn, horner, List.foldl_append]
    rfl
  rw [readFrom_part hbase hds hval hn (.inr (by omega)) (.inr (by omega)), readFrom]
  simp only [readNext, if_pos hdigit.plain.1]
  have hlast := @readDigits_last base hbase width ds[n] hdigit ⟨ds[n] :: ((ds.take n).reverse ++ back),
    ds.drop (n + 1) ++ rest, read + n + 1⟩
    (count + n) (saturated (horner base val (ds.take n))) (erange || decide (UINTMAX_MAX < horner base val (ds.take n)))
    (by show read + n + 1 < width; omega) (by omega)
  have hsat : saturated (saturated (horner base val (ds.take n)) * base + (digitVal (charVal ds[n])).toNat) =
      saturated (horner base val (ds.take n) * base + (digitVal (charVal ds[n])).toNat) :=
    saturated_horner hbase (horner base val (ds.take n)) [ds[n]]
  have hover : (decide (UINTMAX_MAX < horner base val (ds.take n)) || decide (UINTMAX_MAX <
      saturated (horner base val (ds.take n)) * base + (digitVal (charVal ds[n])).toNat)) =
      decide (UINTMAX_MAX < horner base val (ds.take n) * base + (digitVal (charVal ds[n])).toNat) :=
    saturated_erange hbase (horner base val (ds.take n)) [ds[n]]
  rw [hlast, hcount, htake, hsat, Bool.or_assoc, hover]

end Loop

end JACLibc
