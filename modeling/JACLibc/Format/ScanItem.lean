import JACLibc.Format.Overread
import JACLibc.Format.IntText
import JACLibc.Format.StrtoIff

/-!
# What the conversions of `scanf` consume

A conversion matches an item: a number for `%d`, `%u` and `%x`, the characters up to white space for `%s`, any
characters for `%c`, and never more of them than its field width (`Matched`).  `Fits` says when the code consumes just
the item.  `%s` consumes the white space that ends its item, a number without sign and prefix gives one of its digits
back if the width ends it, and a byte 0xFF is the end of the input.
-/

namespace JACLibc.Scan

open Strto

/-! ### Numbers -/

/-- What stands in front of the digits: the sign and the prefix. -/
def digitsAt (base : Nat) (s : List UInt8) : Nat := (signOf s).2 + (baseOf base (unsigned s)).2

/-- The first `n` characters of a text are a number or begin one, with a digit at least. -/
def IsNumber (base n : Nat) (s : List UInt8) : Prop := digitsOf base (unsigned s) ≠ [] ∧ digitsAt base s < n

/-- There is no number; or it has a sign or a prefix if the width ends in it or with it, no byte 0xFF follows it, and
in base 16 a lone zero at the end of the input has a width above 2. -/
def IntFits (base n : Nat) (s : List UInt8) : Prop :=
  digitsOf base (unsigned s) = [] ∨ LoneX base (unsigned s) ∨
    if n < size base s then 0 < digitsAt base s ∧ ¬ZeroEnd base (unsigned s)
    else (afterDigits base (unsigned s)).head? ≠ some 255 ∧ (digitsAt base s = 0 → size base s ≠ n) ∧
      (ZeroEnd base (unsigned s) → 2 < n)

instance (base : Nat) (t : List UInt8) : Decidable (ZeroEnd base t) := inferInstanceAs (Decidable (_ ∧ _))

instance (base n : Nat) (s : List UInt8) : Decidable (IntFits base n s) := inferInstanceAs (Decidable (_ ∨ _))

/-- The reader that has gone over `n` characters more. -/
def advanced (back s : List UInt8) (read : Int) (n : Nat) : Reader := ⟨(s.take n).reverse ++ back, s.drop n, read + n⟩

theorem advanced_advanced (back s : List UInt8) (read : Int) (n m : Nat) :
    advanced ((s.take n).reverse ++ back) (s.drop n) (read + n) m = advanced back s read (n + m) := by
  unfold advanced
  rw [List.drop_drop, ← List.append_assoc, ← List.reverse_append, ← List.take_add, Nat.cast_add, Int.add_assoc]

section Number

variable {spec : Spec} {n : Nat} {back s : List UInt8} {read : Int}

/-- What is read behind the sign. -/
theorem inputInt_number (spec : Spec) (width : Int) {c : UInt8} {u : List UInt8} (hu : unsigned s = c :: u)
    (hc : c ≠ 255) (back : List UInt8) (read : Int) :
    inputInt spec width ⟨back, s, read⟩ = scanned spec (signOf s).1 (read + 1)
      (number width spec.base (readNext ⟨before back s, c :: u, ((signOf s).2 : Int) - 1⟩).1
        (readNext ⟨before back s, c :: u, ((signOf s).2 : Int) - 1⟩).2) := by
  rcases signOf_cases s with hs | hs
  · obtain rfl : s = c :: u := by rw [← hu, unsigned, hs, List.drop_zero]
    have hbefore : before back (c :: u) = back := by rw [before, hs]; rfl
    have hnext : { (readNext ⟨back, c :: u, read⟩).2 with read := 0 } = (readNext ⟨back, c :: u, -1⟩).2 := by
      rw [readNext_char hc, readNext_char hc]
      rfl
    have hread : (readNext ⟨back, c :: u, read⟩).2.read = read + 1 := by rw [readNext_char hc]
    rw [inputInt_unsigned spec width hs, hbefore, hs, hnext, hread]
    rfl
  · have hbefore : before back s = s.take 1 ++ back := by
      rw [before, hs]
      rcases s with _ | ⟨x, s⟩ <;> rfl
    rw [inputInt_signed spec width hs, hbefore, hs, hu]
    rfl

theorem scanned_none (spec : Spec) (neg : Bool) (read : Int) {base : Nat} (hbase : base = 10 ∨ base = 16) {d : Digits}
    (hd : d.count = 0) :
    (scanned spec neg read (base, d)).found = false := by
  rw [scanned, hd]
  rcases hbase with rfl | rfl <;> rfl

/-- At the end of the input there is no number. -/
theorem inputInt_eof (hbase : spec.base = 10 ∨ spec.base = 16) (width : Int)
    (h : (unsigned s).head? = none ∨ (unsigned s).head? = some 255) :
    (inputInt spec width ⟨back, s, read⟩).found = false := by
  have hnext : ∀ (back : List UInt8) (read : Int), (readNext ⟨back, unsigned s, read⟩).1 = EOF := by
    intro back read
    rcases hu : unsigned s with _ | ⟨c, u⟩
    · rfl
    · rw [hu] at h
      obtain rfl : c = 255 := by simpa using h
      rfl
  have hten : (if spec.base = 0 then 10 else spec.base) = 10 ∨ (if spec.base = 0 then 10 else spec.base) = 16 := by
    rcases hbase with h | h <;> simp [h]
  rcases signOf_cases s with hs | hs
  · have hself : unsigned s = s := by rw [unsigned, hs, List.drop_zero]
    have heof := hnext back read
    rw [hself] at heof
    rw [inputInt_unsigned spec width hs, heof, number_eof]
    exact scanned_none _ _ _ hten rfl
  · rw [inputInt_signed spec width hs, hnext, number_eof]
    exact scanned_none _ _ _ hten rfl

theorem codeBase_fst {base : Nat} (hbase : base = 10 ∨ base = 16) (t : List UInt8) : (codeBase base t).1 = base := by
  rcases hbase with rfl | rfl
  · simp [codeBase]
  · by_cases h : startsHex t = true <;> simp [codeBase, h]

/-- The digits are read behind the prefix. -/
theorem inputInt_digits (hbase : spec.base = 10 ∨ spec.base = 16) (width : Int) {c : UInt8} {u : List UInt8}
    (hu : unsigned s = c :: u) (hc : c ≠ 255) (hzero : ¬ZeroEnd spec.base (unsigned s)) :
    inputInt spec width ⟨back, s, read⟩ = scanned spec (signOf s).1 (read + 1) (spec.base,
      readFrom width spec.base ⟨((unsigned s).take (codeBase spec.base (unsigned s)).2).reverse ++ before back s,
        (unsigned s).drop (codeBase spec.base (unsigned s)).2,
        ((signOf s).2 : Int) - 1 + (codeBase spec.base (unsigned s)).2⟩ 0 0
        false) := by
  have hcode := codeBase_fst hbase (unsigned s)
  rw [inputInt_number spec width hu hc]
  rw [hu] at hzero hcode ⊢
  rw [number_eq width spec.base hc (more_of_not_zeroEnd hzero), hcode]

/-- A run of digits is read with one character behind it, which is put back. -/
theorem scanned_run (neg : Bool) {width : Int} {b : Nat} (hb : 0 < b) (hb36 : b ≤ 36) {ds rest : List UInt8}
    (hds : ∀ c ∈ ds, digitOf c < b) (hne : ds ≠ []) (hrest : ∀ x ∈ rest.head?, ¬digitOf x < b)
    (h255 : rest.head? ≠ some 255) {count : Int} (hcount : 0 ≤ count) {val : Nat} (hval : val ≤ UINTMAX_MAX)
    {erange : Bool} (hread : read + ds.length < width) (hlimit : count + ds.length < width) (r : Int) :
    (scanned spec neg r (b, readFrom width b ⟨back, ds ++ rest, read⟩ count val erange)).found = true ∧
      (scanned spec neg r (b, readFrom width b ⟨back, ds ++ rest, read⟩ count val erange)).reader =
        ⟨ds.reverse ++ back, rest, r + (read + ds.length)⟩ := by
  have hdigits : ∀ c ∈ ds, IsDigitOf b c := fun c hc => (isDigitOf_iff hb36).2 (hds c hc)
  have hrun := @readFrom_run b hb width ds rest hdigits back read count val erange (.inr hread) (.inr hlimit) hval
  have hpos : 0 < ds.length := List.length_pos_iff.2 hne
  have hfound : decide (0 < count + ds.length) = true := decide_eq_true (by omega)
  rw [hrun, readFrom, readDigits_done]
  · rw [scanned]
    simp only [hfound, Bool.true_or, if_true, true_and]
    rcases rest with _ | ⟨x, rest⟩
    · rw [if_neg (by simp [readNext])]
      rfl
    · have hx : x ≠ 255 := fun h => h255 (by rw [h]; rfl)
      have heof : charVal x ≠ EOF := fun h => hx (charVal_eof.1 h)
      rw [if_pos ⟨by omega, by rw [readNext_char hx]; exact heof⟩, readBack_readNext hx]
  · rcases rest with _ | ⟨x, rest⟩
    · exact .inl rfl
    · exact .inr fun h => hrest x rfl ((isDigitOf_iff hb36).1 h)

/-- A run of digits that the width cuts, behind a sign or a prefix: the digit that was read too much is put back. -/
theorem scanned_cut (neg : Bool) {width : Int} {b : Nat} (hb : 0 < b) (hb36 : b ≤ 36) {ds rest : List UInt8}
    (hds : ∀ c ∈ ds, digitOf c < b) {k : Nat} (hk : 0 < k) (hlt : k < ds.length) (hread : read + k + 1 = width)
    (hlow : (k : Int) < width) (r : Int) :
    (scanned spec neg r (b, readFrom width b ⟨back, ds ++ rest, read⟩ 0 0 false)).reader =
      ⟨(ds.take k).reverse ++ back, ds.drop k ++ rest, r + (read + k)⟩ := by
  have hdigits : ∀ c ∈ ds, IsDigitOf b c := fun c hc => (isDigitOf_iff hb36).2 (hds c hc)
  have heof : charVal ds[k] ≠ EOF := (hdigits _ (List.getElem_mem hlt)).plain.1
  have hfound : (0 : Int) < 0 + k := by omega
  rw [readFrom_width hb hdigits (Nat.zero_le _) hlt hread (.inr (by omega)), scanned]
  simp only [hfound, decide_true, Bool.true_or, if_true, true_and, heof, ne_eq, not_false_eq_true, readBack]
  rw [List.drop_eq_getElem_cons hlt, List.cons_append, show width - 1 = read + k by omega]

/-- Where the width ends in front of the digits no number is found. -/
theorem readFrom_none {width : Int} {b : Nat} (r : Reader) (h : width ≤ (readNext r).2.read) (count : Int) (val : Nat)
    (erange : Bool) :
    (readFrom width b r count val erange).count = count := by
  rw [readFrom, readDigits, if_neg (fun hread => by have := hread.1; simp only at this; omega)]

/-- Where no digit stands none is counted. -/
theorem readFrom_done {width : Int} {b : Nat} (hb36 : b ≤ 36) {rest : List UInt8}
    (hrest : ∀ x ∈ rest.head?, ¬digitOf x < b) (back : List UInt8) (read count : Int) (val : Nat) (erange : Bool) :
    (readFrom width b ⟨back, rest, read⟩ count val erange).count = count := by
  rw [readFrom, readDigits_done]
  rcases rest with _ | ⟨x, rest⟩
  · exact .inl rfl
  · exact .inr fun h => hrest x rfl ((isDigitOf_iff hb36).1 h)

/-- What is in front of the digits, as the code takes it. -/
theorem take_digitsAt {base : Nat} (back : List UInt8) (hcode : codeBase base (unsigned s) = baseOf base (unsigned s)) :
    ((unsigned s).take (codeBase base (unsigned s)).2).reverse ++ before back s =
    (s.take (digitsAt base s)).reverse ++ back := by
  rw [before, ← List.append_assoc, ← List.reverse_append, hcode, unsigned, ← List.take_add]
  rfl

/-- The reader behind some of the digits. -/
theorem advanced_digits {base : Nat} (back : List UInt8) (read : Int)
    (hdrop : s.drop (digitsAt base s) = digitsOf base (unsigned s) ++ afterDigits base (unsigned s)) {k : Nat}
    (hk : k ≤ (digitsOf base (unsigned s)).length) :
    advanced back s read (digitsAt base s + k) =
      ⟨((digitsOf base (unsigned s)).take k).reverse ++ ((s.take (digitsAt base s)).reverse ++ back),
      (digitsOf base (unsigned s)).drop k ++ afterDigits base (unsigned s), read + digitsAt base s + k⟩ := by
  rw [← advanced_advanced, hdrop, advanced, List.take_append_of_le_length hk, List.drop_append_of_le_length hk]

/-- In base 16 a zero at the end of the input is read twice. -/
theorem inputInt_zero (hzero : ZeroEnd spec.base (unsigned s)) (hfits : IntFits spec.base n s) :
    IsNumber spec.base n s ∧ (inputInt spec n ⟨back, s, read⟩).reader =
    advanced back s read (min n (size spec.base s)) := by
  obtain ⟨-, hbaseOf, hdigits, hafter, -⟩ := zeroEnd_digits hzero
  have hat : digitsAt spec.base s = (signOf s).2 := by rw [digitsAt, hbaseOf, Nat.add_zero]
  have hsize : size spec.base s = digitsAt spec.base s + 1 := by rw [size, hdigits, digitsAt, Nat.add_assoc]; rfl
  have hsign := signOf_cases s
  have hlone : ¬LoneX spec.base (unsigned s) := by
    intro h
    obtain ⟨x, v, ht, hx⟩ := startsHex_eq h.2.1
    have hnext := hzero.2.2
    rw [ht] at hnext
    rcases hnext with h | h
    · cases h
    · obtain rfl : x = 255 := by simpa using h
      exact absurd hx (by decide)
  unfold IntFits at hfits
  rw [hdigits, hafter] at hfits
  replace hfits := (hfits.resolve_left (List.cons_ne_nil _ _)).resolve_left hlone
  by_cases hlt : n < size spec.base s
  · rw [if_pos hlt] at hfits
    exact absurd hzero hfits.2
  · rw [if_neg hlt] at hfits
    have htail : (unsigned s).tail = [] := by
      rcases htail : (unsigned s).tail with _ | ⟨x, v⟩
      · rfl
      · have hnext := hzero.2.2
        rw [htail] at hnext hfits
        exact absurd (hnext.resolve_left (Option.some_ne_none x)) hfits.1
    have hn := hfits.2.2 hzero
    have hu : unsigned s = [asc '0'] := by
      rw [deref_eq (by decide) hzero.2.1, htail]
    have hrun := @scanned_run spec (before back s) ((signOf s).2 - 1) (signOf s).1 n 16 (by decide) (by decide)
      [asc '0'] []
      (by decide +kernel) (List.cons_ne_nil _ _) (fun x hx => by cases hx) (by decide) 1 (by decide) 0
        (Nat.zero_le _) false
      (by simp; omega) (by simp; omega) (read + 1)
    refine ⟨⟨by rw [hdigits]; exact List.cons_ne_nil _ _, by omega⟩, ?_⟩
    have hdrop : s.drop (signOf s).2 = [asc '0'] := hu
    rw [Nat.min_eq_right (Nat.le_of_not_lt hlt), hsize, hat, ← advanced_advanced, hdrop,
      inputInt_number spec n hu (by decide), hzero.1, number_zero_nil (before back s) (by omega) (by omega)]
    rw [List.append_nil] at hrun
    refine hrun.2.trans ?_
    rw [advanced, before]
    simp only [Reader.mk.injEq]
    exact ⟨rfl, rfl, by simp; omega⟩

/-- A number that is found and fits is consumed, as far as the width allows. -/
theorem inputInt_found (hbase : spec.base = 10 ∨ spec.base = 16) (hfits : IntFits spec.base n s)
    (hfound : (inputInt spec n ⟨back, s, read⟩).found = true) :
    IsNumber spec.base n s ∧ (inputInt spec n ⟨back, s, read⟩).reader =
    advanced back s read (min n (size spec.base s)) := by
  have hb : 0 < spec.base := by omega
  have hb36 : spec.base ≤ 36 := by omega
  by_cases heof : (unsigned s).head? = none ∨ (unsigned s).head? = some 255
  · rw [inputInt_eof hbase n heof] at hfound
    cases hfound
  obtain ⟨c, u, hu⟩ := List.exists_cons_of_ne_nil fun h : unsigned s = [] => heof (.inl (by rw [h]; rfl))
  have hc : c ≠ 255 := fun h => heof (.inr (by rw [hu, h]; rfl))
  by_cases hzero : ZeroEnd spec.base (unsigned s)
  · exact inputInt_zero hzero hfits
  rw [inputInt_digits hbase n hu hc hzero] at hfound ⊢
  by_cases hlone : LoneX spec.base (unsigned s)
  · obtain ⟨x, v, ht, hx⟩ := startsHex_eq hlone.2.1
    have hcode : (codeBase spec.base (unsigned s)).2 = 2 := by rw [codeBase, if_pos ⟨hlone.1, hlone.2.1⟩]
    have hv : ∀ y ∈ v.head?, ¬digitOf y < spec.base := by
      intro y hy hdigit
      refine hlone.2.2 (decide_eq_true ⟨hlone.2.1, ?_⟩)
      rcases v with _ | ⟨z, v⟩
      · cases hy
      · rw [ht]
        rw [← Option.some.inj hy] at hdigit
        exact hdigit.trans_le (show spec.base ≤ 16 by omega)
    rw [hcode, ht, List.drop_succ_cons, List.drop_succ_cons, List.drop_zero] at hfound
    rw [scanned_none _ _ _ hbase (readFrom_done hb36 hv _ _ 0 _ _)] at hfound
    cases hfound
  have hcode : codeBase spec.base (unsigned s) = baseOf spec.base (unsigned s) ∧
      codeDigits spec.base (unsigned s) = digitsOf spec.base (unsigned s) := by
    rcases codeBase_cases hlone with h | h
    · exact h
    · exact absurd h.1 (by omega)
  have hbaseOf := codeBase_fst hbase (unsigned s)
  have hnot := not_digit_after spec.base hlone
  have hds : ∀ c ∈ digitsOf spec.base (unsigned s), digitOf c < spec.base := by
    intro c hc
    have h := digitOf_codeDigits spec.base (unsigned s) c (hcode.2 ▸ hc)
    rwa [hbaseOf] at h
  rw [hbaseOf] at hnot
  have hread : ((signOf s).2 : Int) - 1 + (codeBase spec.base (unsigned s)).2 = (digitsAt spec.base s : Int) - 1 := by
    rw [digitsAt, hcode.1]
    omega
  have hdrop : s.drop (digitsAt spec.base s) = digitsOf spec.base (unsigned s) ++
    afterDigits spec.base (unsigned s) := by
    rw [← hcode.2, ← drop_codeBase hlone, hcode.1, digitsAt, unsigned, List.drop_drop]
  have hsize : size spec.base s = digitsAt spec.base s + (digitsOf spec.base (unsigned s)).length :=
    (Nat.add_assoc _ _ _).symm
  have hadvanced := fun k => @advanced_digits s spec.base back read hdrop k
  unfold IntFits at hfits
  unfold IsNumber
  rw [take_digitsAt back hcode.1, drop_codeBase hlone, hcode.2, hread] at hfound ⊢
  generalize digitsOf spec.base (unsigned s) = ds at *
  generalize digitsAt spec.base s = k at *
  by_cases hnone : ds = []
  · rw [hnone, List.nil_append, scanned_none _ _ _ hbase (readFrom_done hb36 hnot _ _ 0 _ _)] at hfound
    cases hfound
  have hpos : 0 < ds.length := List.length_pos_iff.2 hnone
  replace hfits := (hfits.resolve_left hnone).resolve_left hlone
  by_cases hlt : n < size spec.base s
  · rw [if_pos hlt] at hfits
    by_cases hle : n ≤ k
    · obtain ⟨d, ds, rfl⟩ := List.exists_cons_of_ne_nil hnone
      have hd : d ≠ 255 := fun h =>
        absurd (hds d List.mem_cons_self) (by rw [h, show digitOf 255 = 36 by decide]; omega)
      have hwidth : (n : Int) ≤ (readNext ⟨(s.take k).reverse ++ back, d :: ds ++ afterDigits spec.base (unsigned s),
        k - 1⟩).2.read := by
        rw [List.cons_append, readNext_char hd]
        show (n : Int) ≤ k - 1 + 1
        omega
      rw [scanned_none _ _ _ hbase (readFrom_none _ hwidth 0 0 false)] at hfound
      cases hfound
    · have hcut := @scanned_cut spec ((s.take k).reverse ++ back) (k - 1) (signOf s).1 n spec.base hb hb36 ds
        (afterDigits spec.base (unsigned s)) hds (n - k) (by omega) (by omega) (by omega) (by omega) (read + 1)
      refine ⟨⟨hnone, by omega⟩, hcut.trans ?_⟩
      have hn : min n (size spec.base s) = k + (n - k) := by omega
      rw [hn, hadvanced (n - k) (by omega)]
      simp only [Reader.mk.injEq, true_and]
      omega
  · rw [if_neg hlt] at hfits
    have hrun := @scanned_run spec ((s.take k).reverse ++ back) (k - 1) (signOf s).1 n spec.base hb hb36 ds
      (afterDigits spec.base (unsigned s)) hds hnone hnot hfits.1 0 (Int.le_refl _) 0 (Nat.zero_le _) false (by omega)
      (by have := hfits.2.1; omega) (read + 1)
    refine ⟨⟨hnone, by omega⟩, hrun.2.trans ?_⟩
    rw [Nat.min_eq_right (Nat.le_of_not_lt hlt), hsize, hadvanced ds.length (Nat.le_refl _), List.take_length,
      List.drop_length]
    simp only [Reader.mk.injEq, true_and, List.nil_append]
    omega

end Number

/-! ### Characters -/

/-- The characters that `__jacl_input_str` takes, from its cursor on. -/
def strItem (pad : Bool) (n : Nat) (s : List UInt8) : List UInt8 := (s.takeWhile fun c => !(pad && isWhite c)).take n

/-- They are read, if none of them is a byte 0xFF and they end with the width or with the input. -/
theorem readStr_eq (pad : Bool) (n : Nat) (buf back s : List UInt8) (read : Int)
    (h255 : 255 ∉ strItem pad (n - buf.length) s) (hend : (strItem pad (n - buf.length) s).length = n - buf.length ∨
    strItem pad (n - buf.length) s = s) :
    readStr pad n buf ⟨back, s, read⟩ =
      (buf ++ strItem pad (n - buf.length) s, advanced back s read (strItem pad (n - buf.length) s).length) := by
  induction s generalizing buf back read with
  | nil =>
    have hnil : strItem pad (n - buf.length) [] = [] := List.take_nil
    rw [readStr, hnil, List.append_nil]
    split
    · rw [dif_pos (show (readNext ⟨back, [], read⟩).1 = EOF from rfl)]
      simp [readNext, advanced]
    · simp [advanced]
  | cons c s ih =>
    by_cases hlt : (buf.length : Int) < n
    · obtain ⟨k, hk⟩ : ∃ k, n - buf.length = k + 1 := ⟨n - buf.length - 1, by omega⟩
      rw [hk] at h255 hend ⊢
      by_cases hwhite : (pad && isWhite c) = true
      · have hnil : strItem pad (k + 1) (c :: s) = [] := by
          rw [strItem, List.takeWhile_cons_of_neg (by simp [hwhite]), List.take_nil]
        rw [hnil] at hend
        rcases hend with h | h
        · cases h
        · cases h
      · have hcons : strItem pad (k + 1) (c :: s) = c :: strItem pad k s := by
          rw [strItem, List.takeWhile_cons_of_pos (by simp [hwhite]), List.take_succ_cons, strItem]
        rw [hcons, List.mem_cons, not_or] at h255
        rw [hcons] at hend ⊢
        have hc : c ≠ 255 := fun h => h255.1 h.symm
        have heof : charVal c ≠ EOF := fun h => hc (charVal_eof.1 h)
        have hlen : n - (buf ++ [c]).length = k := by
          rw [List.length_append, List.length_singleton]
          omega
        have hrest := ih (buf ++ [c]) (c :: back) (read + 1)
        rw [hlen] at hrest
        replace hrest := hrest h255.2 (hend.imp (fun h => by simpa using h) fun h => (List.cons.inj h).2)
        have hstep : readStr pad n buf ⟨back, c :: s, read⟩ = readStr pad n (buf ++ [c]) ⟨c :: back, s, read + 1⟩ := by
          rw [readStr, if_pos hlt, readNext_char hc, dif_neg heof]
          dsimp only
          rw [isSpace_charVal, if_neg hwhite, Scanset.toByte_charVal]
        rw [hstep, hrest, List.append_assoc, List.singleton_append, List.length_cons, Nat.add_comm, ← advanced_advanced]
        rfl
    · have hzero : n - buf.length = 0 := by omega
      have hnil : strItem pad 0 (c :: s) = [] := List.take_zero
      rw [readStr, if_neg hlt, hzero, hnil, List.append_nil]
      simp [advanced]

end JACLibc.Scan
