import JACLibc.Format.Scanset

/-!
# When a scanset stores the right characters

A flip for every time a byte is listed leaves the bytes listed an odd number of times (`buildSet_eq`); the loop over
them reads the longest prefix of the input whose bytes it has (`readSet_eq`).  Two prefixes of one input are the same
if the predicates agree up to the first character behind them (`takeWhile_take_iff`).
-/

namespace JACLibc.Scanset

/-! ### Building the set -/

theorem toNat_succ {c stop : UInt8} (hc : c ≤ stop) (hstop : stop ≠ 255) : (c + 1).toNat = c.toNat + 1 := by
  have hle := UInt8.le_iff_toNat_le.1 hc
  have hne : stop.toNat ≠ 255 := fun h => hstop (UInt8.toNat_inj.1 h)
  have hlt := stop.toNat_lt
  rw [UInt8.toNat_add]
  exact Nat.mod_eq_of_lt (by simp; omega)

/-- A range is flipped byte by byte. -/
theorem flipRange_eq {stop : UInt8} (hstop : stop ≠ 255) {fuel : Nat} {start : UInt8}
    (hfuel : stop.toNat + 1 - start.toNat < fuel) (cset : CharSet) : flipRange fuel start stop cset = some fun c =>
    cset c ^^ decide (start ≤ c ∧ c ≤ stop) := by
  induction fuel generalizing start cset with
  | zero => exact absurd hfuel (Nat.not_lt_zero _)
  | succ fuel ih =>
    rw [flipRange]
    by_cases hle : start ≤ stop
    · have hnext := toNat_succ hle hstop
      have hle' := UInt8.le_iff_toNat_le.1 hle
      rw [if_pos hle, ih (by omega)]
      congr 1
      funext c
      by_cases hc : c = start
      · subst hc
        have hout : ¬(c + 1 ≤ c) := by
          rw [UInt8.le_iff_toNat_le]
          omega
        simp [bitFlip, hout, hle]
      · have hiff : start + 1 ≤ c ↔ start ≤ c := by
          rw [UInt8.le_iff_toNat_le, UInt8.le_iff_toNat_le, hnext]
          have : c.toNat ≠ start.toNat := fun h => hc (UInt8.toNat_inj.1 h)
          omega
        simp only [bitFlip, Function.update_of_ne hc, hiff]
    · rw [if_neg hle]
      congr 1
      funext c
      have hout : ¬(start ≤ c ∧ c ≤ stop) := fun h => hle (UInt8.le_trans h.1 h.2)
      rw [decide_eq_false hout, Bool.xor_false]

/-- The byte behind 255 is 0, so that the loop goes on. -/
theorem flipRange_forever (fuel : Nat) (start : UInt8) (cset : CharSet) : flipRange fuel start 255 cset = none := by
  induction fuel generalizing start cset with
  | zero => rfl
  | succ fuel ih =>
    have hle : start ≤ 255 := by
      rw [UInt8.le_iff_toNat_le]
      have := start.toNat_lt
      exact Nat.le_of_lt_succ this
    rw [flipRange, if_pos hle, ih]

/-! More fuel does not change an answer. -/

theorem flipRange_mono {fuel fuel' : Nat} (hle : fuel ≤ fuel') {start stop : UInt8} {cset out : CharSet}
    (h : flipRange fuel start stop cset = some out) : flipRange fuel' start stop cset = some out := by
  induction fuel generalizing fuel' start cset with
  | zero => cases h
  | succ fuel ih =>
    obtain ⟨fuel', rfl⟩ : ∃ n, fuel' = n + 1 := ⟨fuel' - 1, by omega⟩
    rw [flipRange] at h ⊢
    by_cases hc : start ≤ stop
    · rw [if_pos hc] at h ⊢
      exact ih (Nat.le_of_succ_le_succ hle) h
    · rwa [if_neg hc] at h ⊢

theorem buildSet_mono {fuel fuel' : Nat} (hle : fuel ≤ fuel') {fmt : List UInt8} {cset : CharSet}
    {out : CharSet × List UInt8} (h : buildSet fuel fmt cset = some out) : buildSet fuel' fmt cset = some out := by
  induction fmt using itemsOf.induct generalizing cset with
  | case1 => rwa [buildSet] at h ⊢
  | case2 rest => rwa [buildSet, if_pos rfl] at h ⊢
  | case3 c rest hc hrange ih =>
    rw [buildSet, if_neg hc, if_pos hrange] at h ⊢
    rcases hflip : (if c ≤ deref rest.tail then flipRange fuel c (deref rest.tail) cset else some cset) with _ | cset'
    · rw [hflip] at h
      cases h
    · have hflip' : (if c ≤ deref rest.tail then flipRange fuel' c (deref rest.tail) cset else some cset) =
        some cset' := by
        by_cases hc : c ≤ deref rest.tail
        · rw [if_pos hc] at hflip ⊢
          exact flipRange_mono hle hflip
        · rwa [if_neg hc] at hflip ⊢
      rw [hflip] at h
      rw [hflip']
      exact ih h
  | case4 c rest hc hrange ih =>
    rw [buildSet, if_neg hc, if_neg hrange] at h ⊢
    exact ih h

theorem scanset_mono {fuel fuel' : Nat} (hle : fuel ≤ fuel') {fmt : List UInt8} {out : CharSet × List UInt8}
    (h : scanset fuel fmt = some out) : scanset fuel' fmt = some out := by
  unfold scanset at h ⊢
  generalize (if deref fmt = asc '^' then ((fun _ => true : CharSet), fmt.tail)
    else ((fun _ => false : CharSet), fmt)) = start at h ⊢
  by_cases hclose : deref start.2 = asc ']'
  · simp only [if_pos hclose] at h ⊢
    exact buildSet_mono hle h
  · simp only [if_neg hclose] at h ⊢
    exact buildSet_mono hle h

theorem listed_cons (it : Item) (its : List Item) (c : UInt8) :
    decide (listed (it :: its) c % 2 = 1) = (it.has c ^^ decide (listed its c % 2 = 1)) := by
  unfold listed
  rw [List.countP_cons]
  cases it.has c
  · simp
  · rcases Nat.mod_two_eq_zero_or_one (List.countP (·.has c) its) with h | h <;> simp [Nat.add_mod, h]

/-- A byte is in the set if it is listed an odd number of times. -/
theorem buildSet_eq {fuel : Nat} (hfuel : 256 < fuel) {fmt : List UInt8}
    (hends : ∀ start, Item.range start 255 ∉ itemsOf fmt) (cset : CharSet) :
    ∃ rest, buildSet fuel fmt cset = some (fun c => cset c ^^ decide (listed (itemsOf fmt) c % 2 = 1), rest) := by
  induction fmt using itemsOf.induct generalizing cset with
  | case1 =>
    refine ⟨[], ?_⟩
    rw [buildSet]
    simp [itemsOf, listed]
  | case2 rest =>
    refine ⟨asc ']' :: rest, ?_⟩
    rw [buildSet, if_pos rfl]
    simp [itemsOf, listed]
  | case3 c rest hc hrange ih =>
    rw [itemsOf, if_neg hc, if_pos hrange] at hends ⊢
    have hstop : deref rest.tail ≠ 255 := by
      intro h
      apply hends c
      rw [h]
      exact List.mem_cons_self
    have hflip : (if c ≤ deref rest.tail then flipRange fuel c (deref rest.tail) cset else some cset) =
        some fun x => cset x ^^ (Item.range c (deref rest.tail)).has x := by
      have hlt := (deref rest.tail).toNat_lt
      split
      · exact flipRange_eq hstop (by omega) cset
      · rename_i hle
        congr 1
        funext x
        have hout : ¬(c ≤ x ∧ x ≤ deref rest.tail) := fun h => hle (UInt8.le_trans h.1 h.2)
        rw [Item.has, decide_eq_false hout, Bool.xor_false]
    obtain ⟨out, hout⟩ := ih (fun start h => hends start (List.mem_cons_of_mem _ h)) fun x =>
      cset x ^^ (Item.range c (deref rest.tail)).has x
    refine ⟨out, ?_⟩
    rw [buildSet, if_neg hc, if_pos hrange]
    simp only [hflip, hout, listed_cons, Bool.xor_assoc]
  | case4 c rest hc hrange ih =>
    rw [itemsOf, if_neg hc, if_neg hrange] at hends ⊢
    obtain ⟨out, hout⟩ := ih (fun start h => hends start (List.mem_cons_of_mem _ h)) (bitFlip cset c)
    refine ⟨out, ?_⟩
    have hflip : ∀ x, bitFlip cset c x = (cset x ^^ (Item.one c).has x) := by
      intro x
      by_cases hx : x = c
      · simp [bitFlip, Item.has, hx]
      · simp [bitFlip, Item.has, hx]
    rw [buildSet, if_neg hc, if_neg hrange, hout]
    simp only [hflip, listed_cons, Bool.xor_assoc]

/-- A range that ends with 255 is never done. -/
theorem buildSet_forever (fuel : Nat) {fmt : List UInt8} {start : UInt8} (hmem : Item.range start 255 ∈ itemsOf fmt)
    (cset : CharSet) :
    buildSet fuel fmt cset = none := by
  induction fmt using itemsOf.induct generalizing cset with
  | case1 => simp [itemsOf] at hmem
  | case2 rest => simp [itemsOf] at hmem
  | case3 c rest hc hrange ih =>
    rw [itemsOf, if_neg hc, if_pos hrange, List.mem_cons] at hmem
    rw [buildSet, if_neg hc, if_pos hrange]
    rcases hmem with heq | hmem
    · obtain ⟨rfl, hstop⟩ := Item.range.inj heq
      have hle : start ≤ 255 := by
        rw [UInt8.le_iff_toNat_le]
        exact Nat.le_of_lt_succ start.toNat_lt
      simp only [← hstop, if_pos hle, flipRange_forever]
    · rcases (if c ≤ deref rest.tail then flipRange fuel c (deref rest.tail) cset else some cset) with _ | cset'
      · rfl
      · exact ih hmem cset'
  | case4 c rest hc hrange ih =>
    rw [itemsOf, if_neg hc, if_neg hrange, List.mem_cons] at hmem
    rw [buildSet, if_neg hc, if_neg hrange]
    exact ih (hmem.resolve_left (by simp)) _

/-- The set of the code: the bytes listed an odd number of times, or the others. -/
theorem scanset_eq {fuel : Nat} (hfuel : 256 < fuel) {fmt : List UInt8} (hends : Ends fmt) :
    ∃ cset rest, scanset fuel fmt = some (cset, rest) ∧ ∀ c, (cset c && decide (c ≠ 255)) = stores fmt c := by
  have hstart : (if deref fmt = asc '^' then ((fun _ => true : CharSet), fmt.tail)
      else ((fun _ => false : CharSet), fmt)) =
      (fun _ => negated fmt, if negated fmt then fmt.tail else fmt) := by
    unfold negated
    by_cases h : deref fmt = asc '^' <;> simp [h]
  have hxor : ∀ b n : Bool, (n ^^ b) = (b != n) := by decide
  unfold Ends at hends
  simp only [scanset, hstart]
  unfold stores
  unfold items at hends ⊢
  simp only at hends ⊢
  by_cases hclose : deref (if negated fmt then fmt.tail else fmt) = asc ']'
  · rw [if_pos hclose] at hends ⊢
    obtain ⟨rest, hbuild⟩ := buildSet_eq hfuel (fun start h => hends start (List.mem_cons_of_mem _ h))
      (bitFlip (fun _ => negated fmt) (asc ']'))
    refine ⟨_, rest, hbuild, fun c => ?_⟩
    have hflip : bitFlip (fun _ => negated fmt) (asc ']') c = (negated fmt ^^ (Item.one (asc ']')).has c) := by
      by_cases hc : c = asc ']'
      · simp [bitFlip, Item.has, hc]
      · simp [bitFlip, Item.has, hc]
    rw [if_pos hclose]
    rw [hflip, Bool.xor_assoc, ← listed_cons, hxor]
  · rw [if_neg hclose] at hends ⊢
    obtain ⟨rest, hbuild⟩ := buildSet_eq hfuel hends (fun _ => negated fmt)
    refine ⟨_, rest, hbuild, fun c => ?_⟩
    rw [if_neg hclose, hxor]

theorem scanset_forever (fuel : Nat) {fmt : List UInt8} (hends : ¬Ends fmt) : scanset fuel fmt = none := by
  have hstart : (if deref fmt = asc '^' then ((fun _ => true : CharSet), fmt.tail)
      else ((fun _ => false : CharSet), fmt)).2 =
      if negated fmt then fmt.tail else fmt := by
    unfold negated
    by_cases h : deref fmt = asc '^' <;> simp [h]
  rw [Ends, not_forall] at hends
  obtain ⟨start, hmem⟩ := hends
  rw [not_not] at hmem
  unfold items at hmem
  simp only [scanset, hstart] at hmem ⊢
  by_cases hclose : deref (if negated fmt then fmt.tail else fmt) = asc ']'
  · rw [if_pos hclose] at hmem ⊢
    exact buildSet_forever fuel ((List.mem_cons.1 hmem).resolve_left (by simp)) _
  · rw [if_neg hclose] at hmem ⊢
    exact buildSet_forever fuel hmem _

/-! ### Reading -/

theorem toByte_charVal (c : UInt8) : toByte (charVal c) = c :=
  @forall_byte (fun c => toByte (charVal c) = c) (by decide +kernel) c

/-- The loop stores the longest prefix whose bytes are in the set. -/
theorem readSet_eq (cset : CharSet) (width : Int) (buf back s : List UInt8) (read : Int) :
    (readSet cset width buf ⟨back, s, read⟩).1 =
      buf ++ (s.takeWhile fun c => cset c && decide (c ≠ 255)).take (width - buf.length).toNat := by
  induction s generalizing buf back read with
  | nil =>
    rw [readSet, Strto.readNext_nil]
    simp
  | cons c s ih =>
    rw [readSet]
    by_cases hlt : (buf.length : Int) < width
    · rw [if_pos hlt]
      by_cases hc : c = 255
      · rw [hc, Strto.readNext_eof, List.takeWhile_cons_of_neg (by simp)]
        simp
      · have heof : charVal c ≠ EOF := fun h => hc (Strto.charVal_eof.1 h)
        simp only [Strto.readNext_char hc, heof, dif_neg, not_false_eq_true, toByte_charVal]
        by_cases hset : cset c = true
        · obtain ⟨n, hn⟩ : ∃ n, (width - buf.length).toNat = n + 1 := ⟨(width - buf.length).toNat - 1, by omega⟩
          rw [if_pos hset, ih, List.takeWhile_cons_of_pos (by simp [hset, hc]), hn, List.take_succ_cons,
            List.append_assoc, List.length_append, show (width - (buf.length + [c].length : Nat)).toNat = n by
            simp; omega]
          rfl
        · rw [if_neg hset, List.takeWhile_cons_of_neg (by simp [hset])]
          simp
    · rw [if_neg hlt, show (width - buf.length).toNat = 0 by omega]
      simp

end JACLibc.Scanset
