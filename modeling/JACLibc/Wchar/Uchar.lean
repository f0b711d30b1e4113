import JACLibc.Wchar.Restart

/-!
# UTF-16

`mbrtoc16` and `c16rtomb` of `uchar.h` keep half of a surrogate pair in the first field of the conversion state:
`mbrtoc16` the low one it has still to hand out, `c16rtomb` the high one it waits for the other of.  `mbrtowc` leaves
that field alone and `wcrtomb` clears it, and the two functions undo each other (`c16_round_trip`).  The pointers are
not NULL.
-/

namespace JACLibc.Wchar

/-! ### The functions -/

/-- `wcrtomb` with its conversion state. -/
def wcrtombSt (ps : MbState) (wc : BitVec 32) : Option (List UInt8) × MbState :=
  match wcrtomb wc with
  | none => (none, ps)
  | some bs => (some bs, { ps with wc := 0 })

/-- The answers of `mbrtoc16`: `(size_t)-1`, `(size_t)-2`, `(size_t)-3` or a number of bytes, with what is stored. -/
inductive Mb16
  | illegal
  | incomplete
  | pending (c16 : BitVec 16)
  | done (c16 : BitVec 16) (b : Nat)
  deriving DecidableEq

/-- `mbrtoc16` -/
def mbrtoc16 (ps : MbState) (s : List UInt8) (n : Nat) : Mb16 × MbState :=
  if ps.wc.toInt > 0 then (.pending (ps.wc.setWidth 16), { ps with wc := 0 })
  else
    match mbrtowcSt ps s n with
    | (.illegal, ps') => (.illegal, ps')
    | (.incomplete, ps') => (.incomplete, ps')
    | (.done wc b, ps') =>
      if wc = 0 then (.done 0 0, ps')
      else if wc.toInt ≥ 0x10000 then
        (.done ((0xD7C0#32 + wc.sshiftRight 10).setWidth 16) b, { ps' with wc := (wc &&& 0x3FF#32) + 0xDC00#32 })
      else (.done (wc.setWidth 16) b, ps')

/-- `c16rtomb`: the bytes stored, or nothing for `(size_t)-1`. -/
def c16rtomb (ps : MbState) (c16 : BitVec 16) : Option (List UInt8) × MbState :=
  if c16 = 0 then
    if ps.wc ≠ 0 then (none, ps) else wcrtombSt ps 0
  else if ps.wc ≠ 0 then
    if c16 < 0xDC00#16 ∨ c16 ≥ 0xE000#16 then (none, { ps with wc := 0 })
    else wcrtombSt { ps with wc := 0 } (0x10000#32 + (ps.wc - 0xD800#32) <<< 10 + (c16.setWidth 32 - 0xDC00#32))
  else if c16 ≥ 0xD800#16 ∧ c16 < 0xDC00#16 then (some [], { ps with wc := c16.setWidth 32 })
  else if c16 ≥ 0xDC00#16 ∧ c16 < 0xE000#16 then (none, ps)
  else wcrtombSt ps (c16.setWidth 32)

/-- The calls of `mbrtoc16` up to the NUL, `calls` of them at most, each offered `offer` bytes of those left.  Nothing
comes of an error or where the calls do not reach the NUL. -/
def toC16 (offer : List UInt8 → Nat) : Nat → MbState → List UInt8 → Option (List (BitVec 16) × MbState)
  | 0, _, _ => none
  | calls + 1, ps, s =>
    match mbrtoc16 ps s (offer s) with
    | (.illegal, _) => none
    | (.incomplete, _) => none
    | (.pending c16, ps') => (toC16 offer calls ps' s).map fun r => (c16 :: r.1, r.2)
    | (.done c16 b, ps') => if b = 0 then some ([], ps') else (toC16 offer calls ps' (s.drop b)).map fun r =>
      (c16 :: r.1, r.2)

/-- The calls of `c16rtomb`. -/
def fromC16 : MbState → List (BitVec 16) → Option (List UInt8 × MbState)
  | ps, [] => some ([], ps)
  | ps, c16 :: cs =>
    match c16rtomb ps c16 with
    | (none, _) => none
    | (some bs, ps') => (fromC16 ps' cs).map fun r => (bs ++ r.1, r.2)

/-! ### One character -/

/-- The high half of a pair. -/
def high (wc : BitVec 32) : BitVec 16 := BitVec.ofNat 16 (0xD7C0 + wc.toNat / 1024)

/-- The low half of a pair. -/
def low (wc : BitVec 32) : BitVec 16 := BitVec.ofNat 16 (wc.toNat % 1024 + 0xDC00)

/-- The UTF-16 form of a character. -/
def utf16 (wc : BitVec 32) : List (BitVec 16) := if wc.toNat < 0x10000 then [wc.setWidth 16] else [high wc, low wc]

theorem toNat_lt {wc : BitVec 32} (h : IsScalar wc) : wc.toNat < 0x110000 := by
  rcases h with h | h
  · omega
  · exact h.2

theorem length_utf8_le {wc : BitVec 32} (h : IsScalar wc) : (utf8 wc).length ≤ MB_CUR_MAX := by
  rw [utf8_eq h]
  split
  · exact Nat.le_add_left 1 3
  · split
    · exact Nat.le_add_left 2 2
    · split
      · exact Nat.le_add_left 3 1
      · exact Nat.le_refl 4

theorem toNat_high {wc : BitVec 32} (h : IsScalar wc) : (high wc).toNat = 0xD7C0 + wc.toNat / 1024 := by
  have hlt := toNat_lt h
  rw [high, BitVec.toNat_ofNat, Nat.mod_eq_of_lt (by omega)]

theorem toNat_low (wc : BitVec 32) : (low wc).toNat = wc.toNat % 1024 + 0xDC00 := by
  have hlt := Nat.mod_lt wc.toNat (show 1024 > 0 by decide)
  rw [low, BitVec.toNat_ofNat, Nat.mod_eq_of_lt (by omega)]

/-- The state that holds a half of a pair. -/
def MbState.holding (ps : MbState) (c16 : BitVec 16) : MbState := { ps with wc := c16.setWidth 32 }

/-- A state that holds nothing. -/
def MbState.Free (ps : MbState) : Prop := ps.wc = 0

theorem MbState.holding_wc (ps : MbState) (c16 : BitVec 16) : (ps.holding c16).wc = c16.setWidth 32 := rfl

theorem MbState.Free.not_ne {ps : MbState} (h : ps.Free) : ¬ps.wc ≠ 0 := not_not.2 h

theorem MbState.Free.clear {ps : MbState} (h : ps.Free) (c16 : BitVec 16) : { ps.holding c16 with wc := 0 } = ps := by
  obtain ⟨wc, bytes, want⟩ := ps
  exact congrArg (MbState.mk · bytes want) h.symm

section

variable {ps : MbState} {wc : BitVec 32} {n : Nat}

/-- `mbrtoc16` on a character of one unit. -/
theorem mbrtoc16_one (hps : ps.Free) (h : IsScalar wc) (h0 : wc ≠ 0) (hone : wc.toNat < 0x10000) (s : List UInt8)
    (hn : (utf8 wc).length ≤ n) : mbrtoc16 ps (utf8 wc ++ s) n = (.done (wc.setWidth 16) (utf8 wc).length, ps) := by
  have hint : wc.toInt = wc.toNat := BitVec.toInt_eq_toNat_of_lt (by omega)
  have hfree : ¬ps.wc.toInt > 0 := by
    rw [hps]
    decide
  rw [mbrtoc16, if_neg hfree, mbrtowcSt, mbrtowc_offered h h0 s hn]
  simp only [if_neg h0]
  rw [if_neg (by omega)]

/-- `mbrtoc16` on a character of two units. -/
theorem mbrtoc16_two (hps : ps.Free) (h : IsScalar wc) (htwo : ¬wc.toNat < 0x10000) (s : List UInt8)
    (hn : (utf8 wc).length ≤ n) :
    mbrtoc16 ps (utf8 wc ++ s) n = (.done (high wc) (utf8 wc).length, ps.holding (low wc)) := by
  have hlt := toNat_lt h
  have h0 : wc ≠ 0 := by
    rintro rfl
    exact htwo (by decide)
  have hint : wc.toInt = wc.toNat := BitVec.toInt_eq_toNat_of_lt (by omega)
  have hfree : ¬ps.wc.toInt > 0 := by
    rw [hps]
    decide
  have hhigh : (0xD7C0#32 + wc.sshiftRight 10).setWidth 16 = high wc := by
    have hmsb : wc.msb = false := BitVec.msb_eq_false_iff_two_mul_lt.2 (by omega)
    apply BitVec.eq_of_toNat_eq
    rw [toNat_high h, BitVec.toNat_setWidth, BitVec.toNat_add, BitVec.toNat_sshiftRight_of_msb_false hmsb,
      Nat.shiftRight_eq_div_pow]
    change (0xD7C0 + wc.toNat / 2 ^ 10) % 2 ^ 32 % 2 ^ 16 = _
    omega
  have hlow : (wc &&& 0x3FF#32) + 0xDC00#32 = (low wc).setWidth 32 := by
    have hand : (wc &&& 0x3FF#32).toNat = wc.toNat % 1024 := by
      rw [BitVec.toNat_and]
      exact Nat.and_two_pow_sub_one_eq_mod wc.toNat 10
    apply BitVec.eq_of_toNat_eq
    rw [BitVec.toNat_setWidth, toNat_low, BitVec.toNat_add, hand]
    rfl
  rw [mbrtoc16, if_neg hfree, mbrtowcSt, mbrtowc_offered h h0 s hn]
  simp only [if_neg h0]
  rw [if_pos (by omega), hhigh, hlow]
  rfl

/-- The state with half a pair hands it out. -/
theorem mbrtoc16_holding (hps : ps.Free) (s : List UInt8) (n : Nat) :
    mbrtoc16 (ps.holding (low wc)) s n = (.pending (low wc), ps) := by
  have hlt := Nat.mod_lt wc.toNat (show 1024 > 0 by decide)
  have hlow := toNat_low wc
  have hval : ((low wc).setWidth 32).toNat = (low wc).toNat := by
    rw [BitVec.toNat_setWidth]
    omega
  have hint : ((low wc).setWidth 32).toInt = (low wc).toNat := by
    rw [BitVec.toInt_eq_toNat_of_lt (by omega), hval]
  have hback : ((low wc).setWidth 32).setWidth 16 = low wc := by
    apply BitVec.eq_of_toNat_eq
    rw [BitVec.toNat_setWidth, hval]
    omega
  rw [mbrtoc16, ps.holding_wc, if_pos (by omega), hback, hps.clear]

/-- `wcrtomb` clears what is clear. -/
theorem wcrtombSt_scalar (hps : ps.Free) (h : IsScalar wc) : wcrtombSt ps wc = (some (utf8 wc), ps) := by
  rw [wcrtombSt, wcrtomb_scalar h]
  exact congrArg (Prod.mk _) (hps.clear 0)

/-- `c16rtomb` on a character of one unit. -/
theorem c16rtomb_one (hps : ps.Free) (h : IsScalar wc) (h0 : wc ≠ 0) (hone : wc.toNat < 0x10000) :
    c16rtomb ps (wc.setWidth 16) = (some (utf8 wc), ps) := by
  have hval : (wc.setWidth 16).toNat = wc.toNat := by
    rw [BitVec.toNat_setWidth]
    omega
  have hpos : wc.toNat ≠ 0 := fun hz => h0 (BitVec.eq_of_toNat_eq hz)
  have hne : wc.setWidth 16 ≠ 0 := fun hz => hpos (by rw [← hval, hz]; rfl)
  have hback : (wc.setWidth 16).setWidth 32 = wc := by
    apply BitVec.eq_of_toNat_eq
    rw [BitVec.toNat_setWidth, hval]
    omega
  have hscalar : wc.toNat < 0xD800 ∨ 0xE000 ≤ wc.toNat := by
    rcases h with h | h <;> omega
  rw [c16rtomb, if_neg hne, if_neg hps.not_ne, if_neg ?_, if_neg ?_, hback, wcrtombSt_scalar hps h]
  · rw [ge_iff_le, BitVec.le_def, BitVec.lt_def, hval]
    change ¬(0xDC00 ≤ wc.toNat ∧ wc.toNat < 0xE000)
    omega
  · rw [ge_iff_le, BitVec.le_def, BitVec.lt_def, hval]
    change ¬(0xD800 ≤ wc.toNat ∧ wc.toNat < 0xDC00)
    omega

/-- `c16rtomb` keeps the first half of a pair. -/
theorem c16rtomb_high (hps : ps.Free) (h : IsScalar wc) (htwo : ¬wc.toNat < 0x10000) :
    c16rtomb ps (high wc) = (some [], ps.holding (high wc)) := by
  have hlt := toNat_lt h
  have hhigh := toNat_high h
  have hne : high wc ≠ 0 := by
    intro hz
    rw [hz] at hhigh
    change 0 = _ at hhigh
    omega
  rw [c16rtomb, if_neg hne, if_neg hps.not_ne, if_pos ?_]
  · rfl
  · rw [ge_iff_le, BitVec.le_def, BitVec.lt_def, hhigh]
    change 0xD800 ≤ _ ∧ _ < 0xDC00
    omega

/-- `c16rtomb` joins the second half of a pair to the first. -/
theorem c16rtomb_low (hps : ps.Free) (h : IsScalar wc) (htwo : ¬wc.toNat < 0x10000) :
    c16rtomb (ps.holding (high wc)) (low wc) = (some (utf8 wc), ps) := by
  have hlt := toNat_lt h
  have hhigh := toNat_high h
  have hlow := toNat_low wc
  have hne : low wc ≠ 0 := by
    intro hz
    rw [hz] at hlow
    change 0 = _ at hlow
    omega
  have hval : ((high wc).setWidth 32).toNat = (high wc).toNat := by
    rw [BitVec.toNat_setWidth]
    omega
  have hhold : (high wc).setWidth 32 ≠ 0 := by
    intro hz
    rw [hz] at hval
    change 0 = _ at hval
    omega
  have hjoin : 0x10000#32 + ((high wc).setWidth 32 - 0xD800#32) <<< 10 + ((low wc).setWidth 32 - 0xDC00#32) = wc := by
    have hfirst : ((high wc).setWidth 32 - 0xD800#32).toNat = wc.toNat / 1024 - 64 := by
      rw [BitVec.toNat_sub_of_le, hval, hhigh]
      · change 0xD7C0 + wc.toNat / 1024 - 0xD800 = _
        omega
      · rw [BitVec.le_def, hval, hhigh]
        change 0xD800 ≤ _
        omega
    have hlow32 : ((low wc).setWidth 32).toNat = wc.toNat % 1024 + 0xDC00 := by
      rw [BitVec.toNat_setWidth]
      omega
    have hsecond : ((low wc).setWidth 32 - 0xDC00#32).toNat = wc.toNat % 1024 := by
      rw [BitVec.toNat_sub_of_le, hlow32]
      · exact Nat.add_sub_cancel _ _
      · rw [BitVec.le_def, hlow32]
        exact Nat.le_add_left _ _
    apply BitVec.eq_of_toNat_eq
    rw [BitVec.toNat_add, BitVec.toNat_add, BitVec.toNat_shiftLeft, hfirst, hsecond, Nat.shiftLeft_eq]
    change ((0x10000 + (wc.toNat / 1024 - 64) * 2 ^ 10 % 2 ^ 32) % 2 ^ 32 + wc.toNat % 1024) % 2 ^ 32 = wc.toNat
    omega
  rw [c16rtomb, if_neg hne, ps.holding_wc, if_pos hhold, if_neg ?_]
  · rw [hjoin, hps.clear]
    exact wcrtombSt_scalar hps h
  · rw [ge_iff_le, BitVec.le_def, BitVec.lt_def, hlow]
    change ¬(_ < 0xDC00 ∨ 0xE000 ≤ _)
    omega

end

/-! ### Strings -/

/-- The UTF-16 form of a string. -/
def encode16 (us : List (BitVec 32)) : List (BitVec 16) := us.flatMap utf16

section

variable {offer : List UInt8 → Nat} {ps : MbState}

/-- The calls of `mbrtoc16` on one character. -/
theorem toC16_cons (hps : ps.Free) {wc : BitVec 32} (h : IsScalar wc) (h0 : wc ≠ 0) (s : List UInt8)
    (hoffer : (utf8 wc).length ≤ offer (utf8 wc ++ s)) (calls : Nat) :
    toC16 offer ((utf16 wc).length + calls) ps (utf8 wc ++ s) = (toC16 offer calls ps s).map fun r =>
    (utf16 wc ++ r.1, r.2) := by
  have hpos := List.length_pos_iff.2 (utf8_ne_nil h)
  unfold utf16
  split
  next hone =>
    rw [List.length_singleton, Nat.add_comm, toC16, mbrtoc16_one hps h h0 hone s hoffer]
    simp only [List.drop_left]
    rw [if_neg (by omega)]
    rfl
  next htwo =>
    rw [show [high wc, low wc].length + calls = (calls + 1) + 1 by simp; omega, toC16, mbrtoc16_two hps h htwo s hoffer]
    simp only [List.drop_left]
    rw [if_neg (by omega), toC16, mbrtoc16_holding hps]
    simp [Function.comp_def]

/-- The calls of `mbrtoc16` on a string. -/
theorem toC16_encode (hoffer : ∀ s : List UInt8, min (s.length + 1) MB_CUR_MAX ≤ offer s) (hps : ps.Free)
    {us : List (BitVec 32)} (hus : ∀ wc ∈ us, IsScalar wc ∧ wc ≠ 0) (calls : Nat) :
    toC16 offer ((encode16 us).length + (calls + 1)) ps (encode us) = some (encode16 us, ps) := by
  induction us with
  | nil =>
    have hone : ∃ n, offer [] = n + 1 :=
      Nat.exists_eq_succ_of_ne_zero (by have := hoffer []; simp [MB_CUR_MAX] at this; omega)
    obtain ⟨n, hn⟩ := hone
    have hfree : ¬ps.wc.toInt > 0 := by
      rw [hps]
      decide
    simp [toC16, encode16, mbrtoc16, hfree, hn, mbrtowcSt, mbrtowc]
  | cons wc us ih =>
    obtain ⟨hwc, h0⟩ := hus wc List.mem_cons_self
    have hle := length_utf8_le hwc
    have hoffered : (utf8 wc).length ≤ offer (utf8 wc ++ encode us) := by
      have := hoffer (utf8 wc ++ encode us)
      rw [List.length_append] at this
      omega
    have hcons : encode16 (wc :: us) = utf16 wc ++ encode16 us := rfl
    rw [encode_cons, hcons, List.length_append, Nat.add_assoc, toC16_cons hps hwc h0 _ hoffered,
      ih fun c hc => hus c (List.mem_cons_of_mem wc hc)]
    rfl

/-- The calls of `c16rtomb` on a string. -/
theorem fromC16_encode (hps : ps.Free) {us : List (BitVec 32)} (hus : ∀ wc ∈ us, IsScalar wc ∧ wc ≠ 0) :
    fromC16 ps (encode16 us) = some (encode us, ps) := by
  induction us with
  | nil => rfl
  | cons wc us ih =>
    obtain ⟨hwc, h0⟩ := hus wc List.mem_cons_self
    have hrest := ih fun c hc => hus c (List.mem_cons_of_mem wc hc)
    have hcons : encode16 (wc :: us) = utf16 wc ++ encode16 us := rfl
    rw [hcons, utf16]
    split
    next hone =>
      rw [List.singleton_append, fromC16, c16rtomb_one hps hwc h0 hone]
      simp [hrest]
    next htwo =>
      rw [List.cons_append, List.singleton_append, fromC16, c16rtomb_high hps hwc htwo]
      simp only
      rw [fromC16, c16rtomb_low hps hwc htwo]
      simp [hrest]

end

/-- The round trip.  For every string of scalar values, the calls of `mbrtoc16` (each offered the rest of the string
with its NUL, or `MB_CUR_MAX` bytes of it) reach the NUL, `c16rtomb` gives the bytes back, and both states are as in
the beginning. -/
theorem c16_round_trip (w : ScalarString) (offer : List UInt8 → Nat)
    (hoffer : ∀ s : List UInt8, min (s.length + 1) MB_CUR_MAX ≤ offer s) :
    ∃ (cs : List (BitVec 16)) (calls : Nat),
      (∀ more, toC16 offer (calls + more) .zero (encode w.units) = some (cs, .zero)) ∧
      fromC16 .zero cs = some (encode w.units, .zero) := by
  have hus : ∀ wc ∈ w.units, IsScalar wc ∧ wc ≠ 0 := fun wc h => ⟨w.scalar wc h, w.ne_zero h⟩
  have hfree : MbState.zero.Free := rfl
  refine ⟨encode16 w.units, (encode16 w.units).length + 1, fun more => ?_, fromC16_encode hfree hus⟩
  rw [Nat.add_assoc, Nat.add_comm 1]
  exact toC16_encode hoffer hfree hus more

/-- The string U+20AC U+10FFFF. -/
theorem c16_round_trip_euro :
    ∃ (cs : List (BitVec 16)) (calls : Nat),
      (∀ more, toC16 (fun _ => MB_CUR_MAX) (calls + more) .zero (encode euroMax.units) = some (cs, .zero)) ∧
      fromC16 .zero cs = some (encode euroMax.units, .zero) :=
  c16_round_trip euroMax (fun _ => MB_CUR_MAX) fun _ => Nat.min_le_right _ _

end JACLibc.Wchar
