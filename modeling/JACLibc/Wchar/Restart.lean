import JACLibc.Wchar.Measure

/-!
# Decoding in pieces

`mbrtowc` takes an `mbstate_t` and leaves it alone: when a character is cut, it answers `(size_t)-2` and forgets the
bytes it was given. Text fed in pieces comes out as it went in if and only if every piece ends where a character does
(`restart`).
-/

namespace JACLibc.Wchar

/-! ### The functions -/

/-- `mbstate_t` -/
structure MbState where
  wc : BitVec 32
  bytes : BitVec 32
  want : BitVec 32
  deriving DecidableEq

/-- The initial state. -/
def MbState.zero : MbState := ⟨0, 0, 0⟩

/-- `mbrtowc` with its conversion state. -/
def mbrtowcSt (ps : MbState) (s : List UInt8) (n : Nat) : Mb × MbState := (mbrtowc s n, ps)

/-- The calls of `mbrtowc` on one piece: a character read is put out and its bytes (one for the NUL) are left behind,
`(size_t)-2` absorbs the piece, and nothing comes of `(size_t)-1`. -/
def feedPiece (ps : MbState) (s : List UInt8) : Option (List (BitVec 32) × MbState) :=
  if _h : s = [] then some ([], ps)
  else
    match mbrtowcSt ps s s.length with
    | (.illegal, _) => none
    | (.incomplete, ps') => some ([], ps')
    | (.done wc b, ps') => (feedPiece ps' (s.drop (max b 1))).map fun r => (wc :: r.1, r.2)
termination_by s.length
decreasing_by
  have := List.length_pos_iff.2 _h
  rw [List.length_drop]
  omega

/-- The pieces one after another. -/
def feed (ps : MbState) : List (List UInt8) → Option (List (BitVec 32) × MbState)
  | [] => some ([], ps)
  | s :: ss => (feedPiece ps s).bind fun r => (feed r.2 ss).map fun r' => (r.1 ++ r'.1, r'.2)

/-! ### One call -/

/-- The number of bytes the first one asks for. -/
def need (x : UInt8) : Nat :=
  if x < 0x80 then 1 else if x &&& 0xE0 = 0xC0 then 2 else if x &&& 0xF0 = 0xE0 then 3 else if x &&& 0xF8 = 0xF0
    then 4 else 1

/-- `mbrtowc` looks at the first byte, at whether it has what that asks for, and at nothing else of the length. -/
theorem mbrtowc_need (s : List UInt8) (n : Nat) :
    mbrtowc s n = if n < need (s.getD 0 0) then .incomplete else mbrtowc s MB_CUR_MAX := by
  have hsplit : ∀ (k : Nat) (x : Mb), 0 < k → k ≤ 4 →
      (if n = 0 then .incomplete else if n < k then .incomplete else x) =
        if n < k then .incomplete else if (4 : Nat) = 0 then .incomplete else if 4 < k then .incomplete else x := by
    intro k x hk hk4
    rw [if_neg (show ¬(4 : Nat) = 0 by decide), if_neg (show ¬4 < k by omega)]
    by_cases hn : n < k
    · simp only [if_pos hn, ite_self]
    · rw [if_neg hn, if_neg (by omega)]
  simp only [mbrtowc, MB_CUR_MAX, need]
  by_cases h1 : s.getD 0 0 < 0x80
  · simp only [if_pos h1, Nat.lt_one_iff]
    rfl
  simp only [if_neg h1]
  by_cases h2 : s.getD 0 0 &&& 0xE0 = 0xC0
  · simp only [if_pos h2]
    exact hsplit 2 _ (by decide) (by decide)
  simp only [if_neg h2]
  by_cases h3 : s.getD 0 0 &&& 0xF0 = 0xE0
  · simp only [if_pos h3]
    exact hsplit 3 _ (by decide) (by decide)
  simp only [if_neg h3]
  by_cases h4 : s.getD 0 0 &&& 0xF8 = 0xF0
  · simp only [if_pos h4]
    exact hsplit 4 _ (by decide) (by decide)
  simp only [if_neg h4, Nat.lt_one_iff]
  rfl

theorem mbrtowc_done_need {x : UInt8} {t : List UInt8} {wc : BitVec 32} {b : Nat} (h0 : x ≠ 0)
    (h : mbrtowc (x :: t) MB_CUR_MAX = .done wc b) : b = need x := by
  simp only [mbrtowc, MB_CUR_MAX, List.getD_cons_zero] at h
  unfold need
  rw [if_neg (by decide)] at h
  by_cases h1 : x < 0x80
  · rw [if_pos h1, if_pos h0] at h
    rw [if_pos h1]
    exact (Mb.done.inj h).2.symm
  rw [if_neg h1] at h ⊢
  by_cases h2 : x &&& 0xE0 = 0xC0
  · rw [if_pos h2] at h ⊢
    split_ifs at h
    exact (Mb.done.inj h).2.symm
  rw [if_neg h2] at h ⊢
  by_cases h3 : x &&& 0xF0 = 0xE0
  · rw [if_pos h3] at h ⊢
    split_ifs at h
    exact (Mb.done.inj h).2.symm
  rw [if_neg h3] at h ⊢
  by_cases h4 : x &&& 0xF8 = 0xF0
  · rw [if_pos h4] at h ⊢
    split_ifs at h
    exact (Mb.done.inj h).2.symm
  rw [if_neg h4] at h
  cases h

theorem utf8_zero : utf8 0 = [0] := by decide

/-- A character is read where all of its bytes are offered. -/
theorem mbrtowc_offered {wc : BitVec 32} (h : IsScalar wc) (h0 : wc ≠ 0) (s : List UInt8) {n : Nat}
    (hn : (utf8 wc).length ≤ n) :
    mbrtowc (utf8 wc ++ s) n = .done wc (utf8 wc).length := by
  have hread := mbrtowc_utf8 h h0 s
  obtain ⟨x, t, hx⟩ := List.exists_cons_of_ne_nil (utf8_ne_nil h)
  have hne : x ≠ 0 := fun hz => zero_not_mem_utf8 h h0 (by rw [hx, hz]; exact List.mem_cons_self)
  have hneed : (utf8 wc).length = need x := by
    rw [hx, List.cons_append] at hread
    rw [← mbrtowc_done_need hne hread, hx]
  rw [mbrtowc_need, if_neg ?_, hread]
  rw [show (utf8 wc ++ s).getD 0 0 = x by rw [hx]; rfl, ← hneed]
  omega

/-- A character in front of a piece is read with the bytes of its encoding. -/
theorem mbrtowc_front_done {wc : BitVec 32} (h : IsScalar wc) (s : List UInt8) :
    ∃ b, mbrtowc (utf8 wc ++ s) (utf8 wc ++ s).length = .done wc b ∧ max b 1 = (utf8 wc).length := by
  by_cases h0 : wc = 0
  · subst h0
    refine ⟨0, ?_, by rw [utf8_zero]; rfl⟩
    rw [utf8_zero]
    simp [mbrtowc]
  · have hpos := List.length_pos_iff.2 (utf8_ne_nil h)
    exact ⟨_, mbrtowc_offered h h0 s (by rw [List.length_append]; omega), by omega⟩

/-- What is read from a piece is a character in front of it. -/
theorem mbrtowc_piece {s : List UInt8} {wc : BitVec 32} {b : Nat} (hs : s ≠ []) (h : mbrtowc s s.length = .done wc b) :
    IsScalar wc ∧ max b 1 = (utf8 wc).length ∧ utf8 wc <+: s := by
  obtain ⟨x, t, rfl⟩ := List.exists_cons_of_ne_nil hs
  rw [mbrtowc_need] at h
  split at h
  · cases h
  by_cases h0 : x = 0
  · subst h0
    have hz : mbrtowc (0 :: t) MB_CUR_MAX = .done 0 0 := rfl
    rw [hz] at h
    obtain ⟨rfl, rfl⟩ := Mb.done.inj h
    exact ⟨Or.inl (by decide), by rw [utf8_zero]; rfl, by rw [utf8_zero]; exact ⟨t, rfl⟩⟩
  · obtain ⟨bs, hread, hfront⟩ := mbrtowc_cons_done h0 h
    have hpos := List.length_pos_iff.2 (utf8_ne_nil hread.scalar)
    rw [hread.utf8] at hpos ⊢
    exact ⟨hread.scalar, by have := hread.length; omega, hfront⟩

/-! ### Pieces -/

/-- Whole characters. -/
def WellFormed (s : List UInt8) : Prop := ∃ us : List (BitVec 32), (∀ wc ∈ us, IsScalar wc) ∧ s = encode us

variable (ps : MbState)

/-- A piece of whole characters is read. -/
theorem feedPiece_encode {us : List (BitVec 32)} (hus : ∀ wc ∈ us, IsScalar wc) :
    feedPiece ps (encode us) = some (us, ps) := by
  induction us with
  | nil => simp [feedPiece]
  | cons wc us ih =>
    have hwc := hus wc List.mem_cons_self
    obtain ⟨b, hread, hb⟩ := mbrtowc_front_done hwc (encode us)
    rw [encode_cons, feedPiece, dif_neg (List.append_ne_nil_of_left_ne_nil (utf8_ne_nil hwc) _), mbrtowcSt, hread]
    simp only [hb, List.drop_left]
    rw [ih fun c hc => hus c (List.mem_cons_of_mem wc hc)]
    rfl

/-- What is read from a piece are its characters, and what is absorbed is behind them. -/
theorem feedPiece_some (s : List UInt8) {us : List (BitVec 32)} {ps' : MbState} (h : feedPiece ps s = some (us, ps')) :
    (∀ wc ∈ us, IsScalar wc) ∧ (∃ rest, s = encode us ++ rest) ∧ ps' = ps := by
  induction hk : s.length using Nat.strong_induction_on generalizing s us with
  | _ k ih =>
    rw [feedPiece, mbrtowcSt] at h
    split at h
    next hs =>
      obtain ⟨rfl, rfl⟩ := Prod.mk.inj (Option.some.inj h)
      exact ⟨by simp, ⟨[], by simp [hs]⟩, rfl⟩
    next hs =>
      rcases hmb : mbrtowc s s.length with _ | _ | ⟨wc, b⟩
      · rw [hmb] at h
        cases h
      · rw [hmb] at h
        obtain ⟨rfl, rfl⟩ := Prod.mk.inj (Option.some.inj h)
        exact ⟨by simp, ⟨s, rfl⟩, rfl⟩
      · rw [hmb] at h
        obtain ⟨hwc, hb, t, rfl⟩ := mbrtowc_piece hs hmb
        obtain ⟨⟨vs, ps1⟩, hrest, hcons⟩ := Option.map_eq_some_iff.1 h
        obtain ⟨rfl, rfl⟩ := Prod.mk.inj hcons
        have hpos := List.length_pos_iff.2 (utf8_ne_nil hwc)
        rw [hb, List.drop_left] at hrest
        rw [List.length_append] at hk
        obtain ⟨hvs, ⟨rest, rfl⟩, hps⟩ := ih t.length (by omega) t hrest rfl
        refine ⟨?_, ⟨rest, by simp⟩, hps⟩
        intro c hc
        rcases List.mem_cons.1 hc with rfl | hc
        · exact hwc
        · exact hvs c hc

/-- Pieces of whole characters are read one after another. -/
theorem feed_wellFormed {ss : List (List UInt8)} (h : ∀ s ∈ ss, WellFormed s) : feed ps ss = feed ps [ss.flatten] ∧
    WellFormed ss.flatten := by
  induction ss with
  | nil => exact ⟨by simp [feed, feedPiece], [], by simp, rfl⟩
  | cons s ss ih =>
    obtain ⟨us, hus, rfl⟩ := h s List.mem_cons_self
    obtain ⟨hfeed, vs, hvs, hflat⟩ := ih fun s hs => h s (List.mem_cons_of_mem _ hs)
    have hmem : ∀ wc ∈ us ++ vs, IsScalar wc := fun wc hwc => (List.mem_append.1 hwc).elim (hus wc) (hvs wc)
    have hcat : (encode us :: ss).flatten = encode (us ++ vs) := by rw [List.flatten_cons, hflat, encode_append]
    refine ⟨?_, us ++ vs, hmem, hcat⟩
    rw [hcat, feed, feedPiece_encode ps hus, Option.bind_some, hfeed, hflat]
    simp [feed, feedPiece_encode ps hvs, feedPiece_encode ps hmem]

/-- Every byte of a piece that is not part of a character read is missing in what comes out. -/
theorem feed_some {ss : List (List UInt8)} {us : List (BitVec 32)} {ps' : MbState} (h : feed ps ss = some (us, ps')) :
    (encode us).length ≤ ss.flatten.length ∧ ((encode us).length = ss.flatten.length → ∀ s ∈ ss, WellFormed s) := by
  induction ss generalizing us ps with
  | nil =>
    obtain ⟨rfl, -⟩ := Prod.mk.inj (Option.some.inj h)
    simp
  | cons s ss ih =>
    obtain ⟨⟨vs, ps1⟩, hpiece, hrest⟩ := Option.bind_eq_some_iff.1 h
    obtain ⟨⟨ws, ps2⟩, hfeed, hcat⟩ := Option.map_eq_some_iff.1 hrest
    obtain ⟨rfl, rfl⟩ : vs ++ ws = us ∧ ps2 = ps' := Prod.mk.inj hcat
    obtain ⟨hvs, ⟨rest, rfl⟩, -⟩ := feedPiece_some ps s hpiece
    obtain ⟨hle, heq⟩ := ih ps1 hfeed
    rw [encode_append, List.flatten_cons, List.length_append, List.length_append, List.length_append]
    refine ⟨by omega, fun hlen => ?_⟩
    have hrest : rest = [] := List.length_eq_zero_iff.1 (by omega)
    intro s hs
    rcases List.mem_cons.1 hs with rfl | hs
    · exact ⟨vs, hvs, by rw [hrest, List.append_nil]⟩
    · exact heq (by omega) s hs

/-! ### What is incomplete -/

/-- Bytes that no more bytes can make a character, although too few for what the first one asks for. -/
def Doomed : List UInt8 → Prop
  | [x] => x = 0xC0 ∨ x = 0xC1 ∨ (0xF5 ≤ x ∧ x ≤ 0xF7)
  | [x, y] => (x &&& 0xF0 = 0xE0 ∨ x &&& 0xF8 = 0xF0) ∧ (¬IsCont y ∨ BadSecond x y)
  | [x, y, z] => x &&& 0xF8 = 0xF0 ∧ (¬IsCont y ∨ BadSecond x y ∨ ¬IsCont z)
  | _ => False

/-- The beginning of a character, short of the whole. -/
def Begins (s : List UInt8) : Prop := ∃ wc, IsScalar wc ∧ s <+: utf8 wc ∧ s ≠ utf8 wc

theorem mbrtowc_incomplete (s : List UInt8) : mbrtowc s s.length = .incomplete ↔ s.length < need (s.getD 0 0) := by
  have hnever : mbrtowc s MB_CUR_MAX ≠ .incomplete := by
    intro h
    simp only [mbrtowc, MB_CUR_MAX, OfNat.ofNat_ne_zero, if_false, Nat.reduceLT] at h
    split_ifs at h
  rw [mbrtowc_need]
  split
  next h => exact iff_of_true rfl h
  next h => exact iff_of_false hnever h

/-- The encodings are the forms that are not invalid. -/
theorem form_utf8 {wc : BitVec 32} (h : IsScalar wc) : IsForm (utf8 wc) ∧ ¬Invalid (utf8 wc) MB_CUR_MAX := by
  by_cases h0 : wc = 0
  · subst h0
    rw [utf8_zero]
    exact ⟨Or.inl ⟨0, rfl, by decide⟩, by decide⟩
  · have hread := mbrtowc_utf8 h h0 []
    rw [List.append_nil] at hread
    have hsize := size_eq (utf8 wc) MB_CUR_MAX
    rw [hread] at hsize
    by_cases hbad : Invalid (utf8 wc) MB_CUR_MAX
    · rw [if_pos hbad] at hsize
      cases hsize
    · rw [if_neg hbad] at hsize
      obtain ⟨f, t, hft, hf, hlen⟩ := null_bytes (utf8_ne_nil h) (zero_not_mem_utf8 h h0) hsize.symm
      have ht : t = [] := by
        have := congrArg List.length hft
        rw [List.length_append] at this
        exact List.length_eq_zero_iff.1 (by omega)
      rw [ht, List.append_nil] at hft
      exact ⟨hft ▸ hf, hbad⟩

theorem IsCont.ne_zero {b : UInt8} (h : IsCont b) : (0 : UInt8) ≠ b := by
  rintro rfl
  exact absurd h (by decide)

/-- A form that is not invalid is the encoding of a character. -/
theorem exists_utf8 {f : List UInt8} (hf : IsForm f) (h0 : 0 ∉ f) (hgood : ¬Invalid f MB_CUR_MAX) :
    ∃ wc, IsScalar wc ∧ utf8 wc = f := by
  have hsize := size_eq f MB_CUR_MAX
  have hnull := null_form hf h0 []
  rw [List.append_nil] at hnull
  rw [if_neg hgood, hnull] at hsize
  rcases hmb : mbrtowc f MB_CUR_MAX with _ | _ | ⟨wc, b⟩
  · rw [hmb] at hsize
    cases hsize
  · rw [hmb] at hsize
    cases hsize
  · rw [hmb] at hsize
    obtain ⟨bs, hread, hfront⟩ := mbrtowc_done hf.ne_nil h0 hmb
    have hlen : bs.length = f.length := hread.length.symm.trans (Size.bytes.inj hsize)
    exact ⟨wc, hread.scalar, hread.utf8.trans (hfront.eq_of_length hlen)⟩

theorem exists_two {a b : UInt8} (ha : a &&& 0xE0 = 0xC0) (hgood : ¬(a = 0xC0 ∨ a = 0xC1)) (hb : IsCont b) :
    ∃ wc, IsScalar wc ∧ utf8 wc = [a, b] := by
  obtain ⟨h3, h4⟩ := (lead_tests a).2.1 ha
  have ha0 : (0 : UInt8) ≠ a := by
    rintro rfl
    exact absurd ha (by decide)
  exact exists_utf8 (Or.inr (Or.inl ⟨a, b, rfl, ha, hb⟩)) (by simp [ha0, hb.ne_zero]) (by simp [Invalid, h3, h4, hgood])

theorem exists_three {a b c : UInt8} (ha : a &&& 0xF0 = 0xE0) (hb : IsCont b) (hgood : ¬BadSecond a b) (hc : IsCont c) :
    ∃ wc, IsScalar wc ∧ utf8 wc = [a, b, c] := by
  have h2 : ¬(a = 0xC0 ∨ a = 0xC1) := fun h => ((lead_tests a).2.1 ((lead_tests a).2.2.2 h)).1 ha
  have ha0 : (0 : UInt8) ≠ a := by
    rintro rfl
    exact absurd ha (by decide)
  exact exists_utf8 (Or.inr (Or.inr (Or.inl ⟨a, b, c, rfl, ha, hb, hc⟩))) (by simp [ha0, hb.ne_zero, hc.ne_zero])
    (by simp [Invalid, h2, hgood])

theorem exists_four {a b c d : UInt8} (ha : a &&& 0xF8 = 0xF0) (hb : IsCont b) (hgood : ¬BadSecond a b)
    (hc : IsCont c) (hd : IsCont d) :
    ∃ wc, IsScalar wc ∧ utf8 wc = [a, b, c, d] := by
  have h2 : ¬(a = 0xC0 ∨ a = 0xC1) := fun h => ((lead_tests a).2.1 ((lead_tests a).2.2.2 h)).2 ha
  have ha0 : (0 : UInt8) ≠ a := by
    rintro rfl
    exact absurd ha (by decide)
  exact exists_utf8 (Or.inr (Or.inr (Or.inr ⟨a, b, c, d, rfl, ha, hb, hc, hd⟩)))
    (by simp [ha0, hb.ne_zero, hc.ne_zero, hd.ne_zero]) (by simp [Invalid, h2, hgood])

theorem lead_high {x : UInt8} (h : 0xF5 ≤ x ∧ x ≤ 0xF7) : x &&& 0xF8 = 0xF0 := by
  revert h
  apply forall_byte (c := x)
  decide +kernel

/-- The beginning of a character is not doomed. -/
theorem Begins.not_doomed {s : List UInt8} (h : Begins s) : ¬Doomed s := by
  obtain ⟨wc, hwc, ⟨t, hst⟩, hne⟩ := h
  obtain ⟨hf, hgood⟩ := form_utf8 hwc
  generalize utf8 wc = f at hst hne hf hgood
  rcases hf with ⟨a, rfl, ha⟩ | ⟨a, b, rfl, ha, hb⟩ | ⟨a, b, c, rfl, ha, hb, hc⟩ | ⟨a, b, c, d, rfl, ha, hb, hc, hd⟩
  · rcases s with _ | ⟨x, s⟩
    · exact id
    · simp_all
  · have hC : ¬(a = 0xC0 ∨ a = 0xC1) := fun h => hgood (Or.inl ⟨by decide, h, hb⟩)
    rcases s with _ | ⟨x, _ | ⟨y, s⟩⟩
    · exact id
    · obtain ⟨rfl, -⟩ := List.cons.inj hst
      rintro (h | h | h)
      · exact hC (Or.inl h)
      · exact hC (Or.inr h)
      · exact ((lead_tests x).2.1 ha).2 (lead_high h)
    · simp_all
  · have hbad : ¬BadSecond a b := fun h => hgood (Or.inr (Or.inl ⟨by decide, ha, hb, hc, h⟩))
    have hC : ¬(a = 0xC0 ∨ a = 0xC1) := fun h => ((lead_tests a).2.1 ((lead_tests a).2.2.2 h)).1 ha
    rcases s with _ | ⟨x, _ | ⟨y, _ | ⟨z, s⟩⟩⟩
    · exact id
    · obtain ⟨rfl, -⟩ := List.cons.inj hst
      rintro (h | h | h)
      · exact hC (Or.inl h)
      · exact hC (Or.inr h)
      · exact (lead_tests x).2.2.1 ha (lead_high h)
    · simp only [List.cons_append, List.cons.injEq] at hst
      obtain ⟨rfl, rfl, -⟩ := hst
      exact fun h => h.2.elim (· hb) hbad
    · simp_all
  · have hbad : ¬BadSecond a b := fun h => hgood (Or.inr (Or.inr ⟨by decide, ha, hb, hc, hd, h⟩))
    have hC : ¬(a = 0xC0 ∨ a = 0xC1) := fun h => ((lead_tests a).2.1 ((lead_tests a).2.2.2 h)).2 ha
    rcases s with _ | ⟨x, _ | ⟨y, _ | ⟨z, _ | ⟨w, s⟩⟩⟩⟩
    · exact id
    · obtain ⟨rfl, -⟩ := List.cons.inj hst
      rintro (h | h | h)
      · exact hC (Or.inl h)
      · exact hC (Or.inr h)
      · exact hbad (Or.inr (Or.inr (Or.inr (Or.inr h))))
    · simp only [List.cons_append, List.cons.injEq] at hst
      obtain ⟨rfl, rfl, -⟩ := hst
      exact fun h => h.2.elim (· hb) hbad
    · simp only [List.cons_append, List.cons.injEq] at hst
      obtain ⟨rfl, rfl, rfl, -⟩ := hst
      exact fun h => h.2.elim (· hb) (·.elim hbad (· hc))
    · simp_all

theorem need_cases (x : UInt8) :
    need x = 1 ∨ (need x = 2 ∧ x &&& 0xE0 = 0xC0) ∨ (need x = 3 ∧ x &&& 0xF0 = 0xE0) ∨
    (need x = 4 ∧ x &&& 0xF8 = 0xF0) := by
  unfold need
  split_ifs <;> simp_all

/-- A second byte for the first one of three or four. -/
def second (x : UInt8) : UInt8 := if x = 0xE0 then 0xA0 else if x = 0xF0 then 0x90 else 0x80

theorem second_good {x : UInt8} (h : x &&& 0xF0 = 0xE0 ∨ x &&& 0xF8 = 0xF0) (hx : ¬(0xF5 ≤ x ∧ x ≤ 0xF7)) :
    IsCont (second x) ∧ ¬BadSecond x (second x) := by
  have hcont : IsCont (second x) := by
    unfold second
    split_ifs <;> decide
  refine ⟨hcont, ?_⟩
  unfold BadSecond second
  rintro (⟨rfl, h⟩ | ⟨rfl, h⟩ | ⟨rfl, h⟩ | ⟨rfl, h⟩ | h)
  · exact absurd h (by decide)
  · exact absurd h (by decide)
  · exact absurd h (by decide)
  · exact absurd h (by decide)
  · exact hx h

/-- Too few bytes that are not doomed are the beginning of a character. -/
theorem begins {s : List UInt8} (hfew : s.length < need (s.getD 0 0)) (h : ¬Doomed s) : Begins s := by
  have hof : ∀ {f t : List UInt8}, (∃ wc, IsScalar wc ∧ utf8 wc = f) → s ++ t = f → t ≠ [] → Begins s := by
    rintro f t ⟨wc, hwc, hu⟩ hst ht
    refine ⟨wc, hwc, ⟨t, by rw [hu, hst]⟩, ?_⟩
    rw [hu, ← hst]
    simpa using ht
  have hcont : IsCont 0x80 := by decide
  rcases s with _ | ⟨x, _ | ⟨y, _ | ⟨z, _ | ⟨w, s⟩⟩⟩⟩
  · exact ⟨0, Or.inl (by decide), List.nil_prefix, by rw [utf8_zero]; simp⟩
  · have hC : ¬(x = 0xC0 ∨ x = 0xC1) := fun hx => h (hx.imp_right Or.inl)
    have hhigh : ¬(0xF5 ≤ x ∧ x ≤ 0xF7) := fun hx => h (Or.inr (Or.inr hx))
    rcases need_cases x with hn | ⟨-, hx⟩ | ⟨-, hx⟩ | ⟨-, hx⟩
    · simp [hn] at hfew
    · exact hof (exists_two hx hC hcont) rfl (by simp)
    · obtain ⟨hsec, hgood⟩ := second_good (Or.inl hx) hhigh
      exact hof (exists_three hx hsec hgood hcont) rfl (by simp)
    · obtain ⟨hsec, hgood⟩ := second_good (Or.inr hx) hhigh
      exact hof (exists_four hx hsec hgood hcont hcont) rfl (by simp)
  · rcases need_cases x with hn | ⟨hn, -⟩ | ⟨-, hx⟩ | ⟨-, hx⟩
    · simp [hn] at hfew
    · simp [hn] at hfew
    · have hy : ¬(¬IsCont y ∨ BadSecond x y) := fun hy => h ⟨Or.inl hx, hy⟩
      rw [not_or, not_not] at hy
      exact hof (exists_three hx hy.1 hy.2 hcont) rfl (by simp)
    · have hy : ¬(¬IsCont y ∨ BadSecond x y) := fun hy => h ⟨Or.inr hx, hy⟩
      rw [not_or, not_not] at hy
      exact hof (exists_four hx hy.1 hy.2 hcont hcont) rfl (by simp)
  · rcases need_cases x with hn | ⟨hn, -⟩ | ⟨hn, -⟩ | ⟨-, hx⟩
    · simp [hn] at hfew
    · simp [hn] at hfew
    · simp [hn] at hfew
    · have hy : ¬(¬IsCont y ∨ BadSecond x y ∨ ¬IsCont z) := fun hy => h ⟨hx, hy⟩
      rw [not_or, not_or, not_not, not_not] at hy
      exact hof (exists_four hx hy.1 hy.2.1 hy.2.2 hcont) rfl (by simp)
  · simp only [List.getD_cons_zero, List.length_cons] at hfew
    rcases need_cases x with hn | ⟨hn, -⟩ | ⟨hn, -⟩ | ⟨hn, -⟩ <;> omega

theorem need_lead (x : UInt8) :
    (x &&& 0xE0 = 0xC0 → need x = 2) ∧ (x &&& 0xF0 = 0xE0 → need x = 3) ∧ (x &&& 0xF8 = 0xF0 → need x = 4) := by
  obtain ⟨h1, h2, h3, -⟩ := lead_tests x
  unfold need
  refine ⟨fun h => ?_, fun h => ?_, fun h => ?_⟩
  · rw [if_neg fun h' => (h1 h').1 h, if_pos h]
  · rw [if_neg fun h' => (h1 h').2.1 h, if_neg fun h' => (h2 h').1 h, if_pos h]
  · rw [if_neg fun h' => (h1 h').2.2 h, if_neg fun h' => (h2 h').2 h, if_neg fun h' => h3 h' h, if_pos h]

/-- What is doomed is too little for what its first byte asks for. -/
theorem Doomed.few {s : List UInt8} (h : Doomed s) : s.length < need (s.getD 0 0) := by
  rcases s with _ | ⟨x, _ | ⟨y, _ | ⟨z, _ | ⟨w, s⟩⟩⟩⟩
  · exact h.elim
  · obtain ⟨h2, -, h4⟩ := need_lead x
    rw [List.getD_cons_zero]
    rcases h with h | h | h
    · rw [h2 ((lead_tests x).2.2.2 (Or.inl h))]
      exact Nat.le_refl 2
    · rw [h2 ((lead_tests x).2.2.2 (Or.inr h))]
      exact Nat.le_refl 2
    · rw [h4 (lead_high h)]
      exact Nat.le_add_left 2 2
  · obtain ⟨-, h3, h4⟩ := need_lead x
    rw [List.getD_cons_zero]
    rcases h.1 with hx | hx
    · rw [h3 hx]
      exact Nat.le_refl 3
    · rw [h4 hx]
      exact Nat.le_add_left 3 1
  · rw [List.getD_cons_zero, (need_lead x).2.2 h.1]
    exact Nat.le_refl 4
  · exact h.elim

/-- Decoding in pieces.  The characters of a text come out as from the whole text if and only if no piece ends inside
a character; and the bytes for which `(size_t)-2` comes are the beginning of a character if and only if they are not
doomed. -/
theorem restart :
    (∀ (us : List (BitVec 32)) (ss : List (List UInt8)), (∀ wc ∈ us, IsScalar wc) → ss.flatten = encode us →
      feed ps [encode us] = some (us, ps) ∧ (feed ps ss = feed ps [encode us] ↔ ∀ s ∈ ss, WellFormed s)) ∧
    ∀ s : List UInt8, ((mbrtowcSt ps s s.length).1 = .incomplete → Begins s) ↔ ¬Doomed s := by
  refine ⟨fun us ss hus hflat => ?_, fun s => ?_⟩
  · have hwhole : feed ps [encode us] = some (us, ps) := by simp [feed, feedPiece_encode ps hus]
    refine ⟨hwhole, fun h => ?_, fun h => ?_⟩
    · rw [hwhole] at h
      exact (feed_some ps h).2 (congrArg List.length hflat.symm)
    · rw [← hflat]
      exact (feed_wellFormed ps h).1
  · rw [show (mbrtowcSt ps s s.length).1 = mbrtowc s s.length from rfl, mbrtowc_incomplete]
    refine ⟨fun h hdoomed => ?_, fun h hfew => begins hfew h⟩
    exact (h hdoomed.few).not_doomed hdoomed

/-- Three characters in two pieces. -/
theorem restart_pieces : feed .zero [[0xC3, 0xA9], [0x61, 0xE2, 0x82, 0xAC]] = some ([0xE9, 0x61, 0x20AC], .zero) := by
  have hwc : ∀ wc ∈ [0xE9#32, 0x61#32, 0x20AC#32], IsScalar wc := by simp [IsScalar, Nat.isValidChar]
  have hpieces : ∀ s ∈ [[0xC3, 0xA9], [0x61, 0xE2, 0x82, 0xAC]], WellFormed s := by
    intro s hs
    rcases List.mem_cons.1 hs with rfl | hs
    · exact ⟨[0xE9#32], by simp [IsScalar, Nat.isValidChar], by decide⟩
    · rw [List.mem_singleton.1 hs]
      exact ⟨[0x61#32, 0x20AC#32], by simp [IsScalar, Nat.isValidChar], by decide⟩
  obtain ⟨hwhole, hiff⟩ := (restart .zero).1 [0xE9#32, 0x61#32, 0x20AC#32] [[0xC3, 0xA9],
    [0x61, 0xE2, 0x82, 0xAC]] hwc (by decide)
  exact (hiff.2 hpieces).trans hwhole

/-- U+00E9 cut in two, and the byte `C0`. -/
theorem restart_cut :
    feed .zero [[0xC3], [0xA9]] ≠ feed .zero [[0xC3, 0xA9]] ∧ mbrtowcSt .zero [0xC0] 1 = (.incomplete, .zero) ∧
    ¬Begins [0xC0] :=
  ⟨by decide +kernel, by decide, fun h => h.not_doomed (Or.inl rfl)⟩

end JACLibc.Wchar
