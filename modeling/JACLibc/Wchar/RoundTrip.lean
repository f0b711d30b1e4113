import JACLibc.Wchar.Convert

/-!
# Strings of wide characters in UTF-8

The string functions work through the encodings of the characters one after another: `wcsLoop` stores the characters
that fit and no part of the next, `mbsLoop` reads them back, and what `mbsLoop` accepts is a string of encodings.
-/

namespace JACLibc.Wchar

/-- A wide string of scalar values. -/
structure ScalarString extends WString where
  scalar : ∀ wc ∈ units, IsScalar wc

def encode (us : List (BitVec 32)) : List UInt8 := us.flatMap utf8

@[simp]
theorem encode_nil : encode [] = [] := rfl

@[simp]
theorem encode_cons (wc : BitVec 32) (us : List (BitVec 32)) : encode (wc :: us) = utf8 wc ++ encode us := rfl

theorem encode_append (us vs : List (BitVec 32)) : encode (us ++ vs) = encode us ++ encode vs := List.flatMap_append

theorem utf8_ne_nil {wc : BitVec 32} (h : IsScalar wc) : utf8 wc ≠ [] := by
  rw [utf8_eq h]
  split
  · simp
  · split
    · simp
    · split <;> simp

theorem ofNat_ne_zero {n : Nat} (hpos : 0 < n) (hlt : n < 256) : (0 : UInt8) ≠ UInt8.ofNat n := by
  intro h
  have h' := congrArg UInt8.toNat h
  rw [UInt8.toNat_ofNat_of_lt' hlt] at h'
  exact absurd h' (by simpa using Nat.ne_of_lt hpos)

theorem zero_not_mem_utf8 {wc : BitVec 32} (h : IsScalar wc) (h0 : wc ≠ 0) : 0 ∉ utf8 wc := by
  have hpos : wc.toNat ≠ 0 := fun hwc => h0 (BitVec.eq_of_toNat_eq hwc)
  have hlt : wc.toNat < 0x110000 := by
    rcases h with h | h
    · omega
    · exact h.2
  intro hm
  rw [utf8_eq h] at hm
  split at hm
  · exact ofNat_ne_zero (by omega) (by omega) (List.mem_singleton.1 hm)
  · split at hm
    · simp only [List.mem_cons, List.not_mem_nil, or_false] at hm
      rcases hm with hm | hm <;> exact ofNat_ne_zero (by omega) (by omega) hm
    · split at hm
      · simp only [List.mem_cons, List.not_mem_nil, or_false] at hm
        rcases hm with hm | hm | hm <;> exact ofNat_ne_zero (by omega) (by omega) hm
      · simp only [List.mem_cons, List.not_mem_nil, or_false] at hm
        rcases hm with hm | hm | hm | hm <;> exact ofNat_ne_zero (by omega) (by omega) hm

theorem length_le_encode {us : List (BitVec 32)} (hus : ∀ wc ∈ us, IsScalar wc) : us.length ≤ (encode us).length := by
  induction us with
  | nil => exact Nat.le_refl _
  | cons wc us ih =>
    have hpos := List.length_pos_of_ne_nil (utf8_ne_nil (hus wc List.mem_cons_self))
    have hle := ih fun c hc => hus c (List.mem_cons_of_mem wc hc)
    rw [encode_cons, List.length_append, List.length_cons]
    omega

theorem store_append {α : Type*} (acc rest xs : List α) :
    store (acc ++ rest) acc.length xs = acc ++ xs ++ rest.drop xs.length := by
  rw [store, List.take_left, List.drop_length_add_append]

/-! ### Storing -/

section Store

variable (len : Nat)

/-- The NUL after `n` bytes, where it fits. -/
def nulAfter (n : Nat) : List UInt8 := if n < len then [0] else []

theorem length_nulAfter {n : Nat} (h : n ≤ len) : n + (nulAfter len n).length ≤ len := by
  unfold nulAfter
  split
  · simpa using by omega
  · simpa using h

theorem terminate_append (acc rest : List UInt8) :
    terminate len (some (acc ++ rest)) acc.length =
      some (acc ++ nulAfter len acc.length ++ rest.drop (nulAfter len acc.length).length) := by
  unfold terminate nulAfter
  split <;> simp [store_append]

theorem wcsLoop_cons {wc : BitVec 32} (hwc : IsScalar wc) (us : List (BitVec 32)) (acc rest : List UInt8) (k : Nat) :
    wcsLoop len (wc :: us) acc.length k (some (acc ++ rest)) =
      if len < acc.length + (utf8 wc).length then ⟨some acc.length, some k,
      terminate len (some (acc ++ rest)) acc.length⟩
      else wcsLoop len us (acc ++ utf8 wc).length (k + 1) (some (acc ++ utf8 wc ++ rest.drop (utf8 wc).length)) := by
  rw [wcsLoop, wcrtomb_scalar hwc, List.length_append, ← store_append]
  simp

/-- What `wcsLoop` leaves when it stops after storing `bs` of the characters. -/
def stopped (bs rest : List UInt8) (src : Option Nat) : Answer UInt8 :=
  ⟨some bs.length, src, some (bs ++ nulAfter len bs.length ++ rest.drop (nulAfter len bs.length).length)⟩

/-- `wcsLoop` with `acc` stored: it stores the characters `u` of the string, and the next one does not fit. -/
theorem wcsLoop_spec {us : List (BitVec 32)} (hus : ∀ wc ∈ us, IsScalar wc) :
    ∀ (acc rest : List UInt8) (k : Nat), acc.length ≤ len → ∃ u v : List (BitVec 32), us = u ++ v ∧
      wcsLoop len us acc.length k (some (acc ++ rest)) =
        stopped len (acc ++ encode u) (rest.drop (encode u).length) (if v = [] then none else some (k + u.length)) ∧
      (acc ++ encode u).length ≤ len ∧ ∀ wc ∈ v.head?, len < (acc ++ encode u).length + (utf8 wc).length := by
  induction us with
  | nil =>
    intro acc rest k hacc
    refine ⟨[], [], rfl, ?_, by simpa using hacc, by simp⟩
    rw [wcsLoop, terminate_append]
    simp [stopped]
  | cons wc us ih =>
    intro acc rest k hacc
    rw [wcsLoop_cons len (hus wc List.mem_cons_self)]
    split
    · -- the character does not fit: the string stored so far is ended
      next hfit =>
      refine ⟨[], wc :: us, rfl, ?_, by simpa using hacc, by simpa using hfit⟩
      rw [terminate_append]
      simp [stopped]
    · next hfit =>
      obtain ⟨u, v, huv, hrun, hle, hnext⟩ := ih (fun c hc => hus c (List.mem_cons_of_mem wc hc)) (acc ++ utf8 wc)
        (rest.drop (utf8 wc).length) (k + 1) (by rw [List.length_append]; omega)
      have hcons : acc ++ utf8 wc ++ encode u = acc ++ encode (wc :: u) := List.append_assoc _ _ _
      rw [hcons] at hrun hle hnext
      refine ⟨wc :: u, v, by rw [huv]; rfl, ?_, hle, hnext⟩
      rw [hrun, List.drop_drop, encode_cons, List.length_append, List.length_cons, Nat.add_assoc k 1, Nat.add_comm 1]

/-- `wcsrtombs` of scalar values into `d`: a number of whole characters that fit, the NUL where it fits, and nothing
else. -/
theorem wcsrtombs_spec (w : ScalarString) (d : List UInt8) : ∃ u v : List (BitVec 32), w.units = u ++ v ∧
    wcsrtombs len (some d) w.toWString =
      stopped len (encode u) (d.drop (encode u).length) (if v = [] then none else some u.length) ∧
    (encode u).length ≤ len ∧ ∀ wc ∈ v.head?, len < (encode u).length + (utf8 wc).length := by
  unfold wcsrtombs
  simpa using wcsLoop_spec len w.scalar [] d 0 (Nat.zero_le len)

end Store

/-! ### Reading back -/

section Read

variable (len : Nat)

/-- One turn of `mbsLoop` with `acc` stored, on a string that is not at its end. -/
theorem mbsLoop_turn {s : List UInt8} (hs : s ≠ []) (fuel k : Nat) (acc : List (BitVec 32))
    (dst : Option (List (BitVec 32))) (hroom : acc.length < len ∨ dst = none) :
    mbsLoop len (fuel + 1) s acc.length k (dst.map (acc ++ ·)) =
      match mbrtowc s MB_CUR_MAX with
      | .illegal => ⟨none, some k, dst.map (acc ++ ·)⟩
      | .incomplete => ⟨none, some k, dst.map (acc ++ ·)⟩
      | .done wc b => mbsLoop len fuel (s.drop b) (acc ++ [wc]).length (k + b)
        ((dst.map (List.drop 1)).map (acc ++ [wc] ++ ·)) := by
  have hmap : ∀ wc, (dst.map (acc ++ ·)).map (fun d => store d acc.length [wc]) =
    (dst.map (List.drop 1)).map (acc ++ [wc] ++ ·) := by
    intro wc
    cases dst with
    | none => rfl
    | some rest => simp [store_append]
  have hroom' : acc.length < len ∨ dst.map (acc ++ ·) = none := by simpa using hroom
  rw [mbsLoop, if_pos hroom', if_neg hs]
  cases mbrtowc s MB_CUR_MAX with
  | illegal => rfl
  | incomplete => rfl
  | done wc b => simp only [hmap, List.length_append, List.length_singleton]

/-- The last turn, at the NUL. -/
theorem mbsLoop_nil (fuel k : Nat) (acc : List (BitVec 32)) (dst : Option (List (BitVec 32)))
    (hroom : acc.length < len ∨ dst = none) :
    mbsLoop len (fuel + 1) [] acc.length k (dst.map (acc ++ ·)) =
      ⟨some acc.length, none, dst.map fun rest => acc ++ 0 :: rest.drop 1⟩ := by
  have hroom' : acc.length < len ∨ dst.map (acc ++ ·) = none := by simpa using hroom
  rw [mbsLoop, if_pos hroom', if_pos rfl]
  cases dst with
  | none => rfl
  | some rest => simp [store_append]

theorem mbsLoop_encode {us : List (BitVec 32)} (hus : ∀ wc ∈ us, IsScalar wc ∧ wc ≠ 0) :
    ∀ (fuel k : Nat) (acc : List (BitVec 32)) (dst : Option (List (BitVec 32))), us.length ≤ fuel →
      acc.length + us.length < len ∨ dst = none →
      mbsLoop len (fuel + 1) (encode us) acc.length k (dst.map (acc ++ ·)) =
        ⟨some (acc ++ us).length, none, dst.map fun rest => acc ++ us ++ 0 :: rest.drop (us.length + 1)⟩ := by
  induction us with
  | nil =>
    intro fuel k acc dst hfuel hroom
    rw [encode_nil, mbsLoop_nil len fuel k acc dst (by simpa using hroom), List.append_nil]
    rfl
  | cons wc us ih =>
    intro fuel k acc dst hfuel hroom
    obtain ⟨fuel, rfl⟩ := Nat.exists_eq_add_of_le' (show 1 ≤ fuel by simp at hfuel; omega)
    obtain ⟨hwc, h0⟩ := hus wc List.mem_cons_self
    have hne : encode (wc :: us) ≠ [] := List.append_ne_nil_of_left_ne_nil (utf8_ne_nil hwc) _
    rw [List.length_cons] at hroom
    rw [mbsLoop_turn len hne _ _ _ _ (hroom.imp_left (by omega)), encode_cons, mbrtowc_utf8 hwc h0]
    have hroom' : (acc ++ [wc]).length + us.length < len ∨ dst.map (List.drop 1) = none := by
      rw [List.length_append, List.length_singleton, Option.map_eq_none_iff]
      exact hroom.imp_left (by omega)
    simp only [List.drop_left]
    rw [ih (fun c hc => hus c (List.mem_cons_of_mem wc hc)) fuel _ _ _ (by simpa using hfuel) hroom']
    simp [Function.comp_def, Nat.add_comm]

/-- What `mbsLoop` accepts is a string of encodings, whole or up to the number of characters asked for. -/
theorem mbsLoop_accepts {n : Nat} (fuel : Nat) : ∀ (s : List UInt8) (k : Nat) (acc : List (BitVec 32))
    (dst : Option (List (BitVec 32))), 0 ∉ s → s.length < fuel →
    (mbsLoop len fuel s acc.length k (dst.map (acc ++ ·))).ret = some n → ∃ (us : List (BitVec 32)) (t : List UInt8),
    s = encode us ++ t ∧ (∀ wc ∈ us, IsScalar wc ∧ wc ≠ 0) ∧
      mbsLoop len fuel s acc.length k (dst.map (acc ++ ·)) =
        ⟨some (acc ++ us).length, if t = [] ∧ ((acc ++ us).length < len ∨ dst = none) then none
        else some (k + (encode us).length),
          dst.map fun rest => acc ++ us ++ if (acc ++ us).length < len then 0 :: rest.drop (us.length + 1)
          else rest.drop us.length⟩ := by
  induction fuel with
  | zero =>
    intro s k acc dst h0 hfuel
    exact absurd hfuel (Nat.not_lt_zero _)
  | succ fuel ih =>
    intro s k acc dst h0 hfuel hret
    by_cases hroom : acc.length < len ∨ dst = none
    · by_cases hs : s = []
      · subst hs
        refine ⟨[], [], rfl, by simp, ?_⟩
        rw [mbsLoop_nil len fuel k acc dst hroom]
        rcases hroom with hroom | rfl
        · simp [hroom]
        · simp
      · rw [mbsLoop_turn len hs _ _ _ _ hroom] at hret ⊢
        rcases hmb : mbrtowc s MB_CUR_MAX with _ | _ | ⟨wc, b⟩
        · rw [hmb] at hret
          cases hret
        · rw [hmb] at hret
          cases hret
        · rw [hmb] at hret
          obtain ⟨bs, hread, hfront⟩ := mbrtowc_done hs h0 hmb
          obtain ⟨t, rfl⟩ := hfront
          obtain ⟨hwc, hne, rfl, rfl⟩ := hread
          simp only [List.drop_left] at hret ⊢
          have hpos := List.length_pos_of_ne_nil (utf8_ne_nil hwc)
          obtain ⟨us, t', rfl, hus, hrun⟩ := ih t _ _ _ (fun h => h0 (List.mem_append_right _ h))
            (by rw [List.length_append] at hfuel; omega) hret
          refine ⟨wc :: us, t', by simp, ?_, ?_⟩
          · intro c hc
            rcases List.mem_cons.1 hc with rfl | hc
            · exact ⟨hwc, hne⟩
            · exact hus c hc
          · rw [hrun]
            simp [Function.comp_def, Nat.add_comm, Nat.add_left_comm]
    · refine ⟨[], s, rfl, by simp, ?_⟩
      have hroom' : ¬(acc.length < len ∨ dst.map (acc ++ ·) = none) := by simpa using hroom
      have hlen : ¬acc.length < len := fun h => hroom (Or.inl h)
      have hdst : dst ≠ none := fun h => hroom (Or.inr h)
      rw [mbsLoop, if_neg hroom']
      simp [hlen, hdst]

end Read

/-! ### The round trip -/

namespace ScalarString

variable (w : ScalarString)

theorem ne_zero {wc : BitVec 32} (h : wc ∈ w.units) : wc ≠ 0 := fun h0 => w.noNul (h0 ▸ h)

theorem zero_not_mem_encode : 0 ∉ encode w.units := by
  intro h
  obtain ⟨wc, hwc, h⟩ := List.mem_flatMap.1 h
  exact zero_not_mem_utf8 (w.scalar wc hwc) (w.ne_zero hwc) h

/-- With room for the characters and the NUL, all of them are stored. -/
theorem wcsrtombs_room {len : Nat} (hroom : (encode w.units).length < len) (d : List UInt8) :
    wcsrtombs len (some d) w.toWString =
      ⟨some (encode w.units).length, none, some (encode w.units ++ 0 :: d.drop ((encode w.units).length + 1))⟩ := by
  obtain ⟨u, v, huv, hrun, hle, hnext⟩ := wcsrtombs_spec len w d
  have hv : v = [] := by
    cases v with
    | nil => rfl
    | cons wc v =>
      have hlt := hnext wc rfl
      rw [huv, encode_append, encode_cons, List.length_append, List.length_append] at hroom
      omega
  subst hv
  rw [List.append_nil] at huv
  rw [hrun, if_pos rfl, stopped, ← huv, nulAfter, if_pos hroom]
  simp

end ScalarString

/-- The codec.  `wcsrtombs` stores a number of whole characters with their NUL where it fits, in no more than `len`
bytes, and `*src` is the first character that does not fit; `mbsrtowcs` reads back what it stored; and what
`mbsrtowcs` accepts (as many characters as are asked for, or the whole string) are the bytes `wcsrtombs` stores for
its characters. -/
theorem utf8_round_trip :
    (∀ (w : ScalarString) (len : Nat) (d : List UInt8), ∃ u v : List (BitVec 32), w.units = u ++ v ∧
      wcsrtombs len (some d) w.toWString =
        stopped len (encode u) (d.drop (encode u).length) (if v = [] then none else some u.length) ∧
      (encode u).length + (nulAfter len (encode u).length).length ≤ len ∧
      ∀ wc ∈ v.head?, len < (encode u).length + (utf8 wc).length) ∧
    (∀ (w : ScalarString) (len : Nat) (d : List UInt8), (encode w.units).length < len →
      ∃ buf, (wcsrtombs len (some d) w.toWString).dst = some buf ∧
        ∀ (n : Nat) (e : List (BitVec 32)), w.units.length < n →
          mbsrtowcs n (some e) (CString.of buf) = ⟨some w.units.length, none,
          some (w.units ++ 0 :: e.drop (w.units.length + 1))⟩) ∧
    (∀ (s : CString) (n m : Nat) (dst : Option (List (BitVec 32))), (mbsrtowcs n dst s).ret = some m →
      ∃ (w : ScalarString) (t : List UInt8), s.bytes = encode w.units ++ t ∧ w.units.length = m ∧
        mbsrtowcs n dst s = ⟨some m, if t = [] ∧ (m < n ∨ dst = none) then none else some (encode w.units).length,
          dst.map fun e => w.units ++ if m < n then 0 :: e.drop (m + 1) else e.drop m⟩ ∧
        ∀ (len : Nat) (d : List UInt8), (encode w.units).length < len →
          wcsrtombs len (some d) w.toWString =
            ⟨some (encode w.units).length, none,
            some (encode w.units ++ 0 :: d.drop ((encode w.units).length + 1))⟩) := by
  refine ⟨?_, ?_, ?_⟩
  · intro w len d
    obtain ⟨u, v, huv, hrun, hle, hnext⟩ := wcsrtombs_spec len w d
    exact ⟨u, v, huv, hrun, length_nulAfter len hle, hnext⟩
  · intro w len d hroom
    refine ⟨_, by rw [w.wcsrtombs_room hroom], ?_⟩
    intro n e hn
    have hread := mbsLoop_encode n (fun wc hwc => ⟨w.scalar wc hwc, w.ne_zero hwc⟩) (encode w.units).length 0 []
      (some e)
      (length_le_encode w.scalar) (Or.inl (by simpa using hn))
    rw [mbsrtowcs, CString.of_append w.zero_not_mem_encode]
    simpa using hread
  · intro s n m dst hret
    have hbytes : mbsrtowcs n dst s = mbsLoop n (s.bytes.length + 1) s.bytes ([] : List (BitVec 32)).length 0
      (dst.map ([] ++ ·)) := by
      simp [mbsrtowcs]
    rw [hbytes] at hret ⊢
    obtain ⟨us, t, hs, hus, hrun⟩ := mbsLoop_accepts n _ _ _ _ _ s.noNul (Nat.lt_succ_self _) hret
    rw [hrun] at hret ⊢
    have hm : us.length = m := by simpa using hret
    let w : ScalarString := ⟨⟨us, fun h => (hus 0 h).2 rfl⟩, fun wc h => (hus wc h).1⟩
    refine ⟨w, t, hs, hm, ?_, fun len d hroom => w.wcsrtombs_room hroom d⟩
    subst hm
    simp [w]

/-- The string U+20AC U+10FFFF. -/
def euroMax : ScalarString := ⟨⟨[0x20AC#32, 0x10FFFF#32], by decide⟩, by simp [IsScalar, Nat.isValidChar]⟩

theorem utf8_round_trip_euro :
    wcsrtombs 4 (some (List.replicate 4 1)) euroMax.toWString = ⟨some 3, some 1, some [0xE2, 0x82, 0xAC, 0]⟩ ∧
      (∃ buf, (wcsrtombs 8 (some (List.replicate 8 1)) euroMax.toWString).dst = some buf ∧
        mbsrtowcs 3 (some [5, 6, 7]) (CString.of buf) = ⟨some 2, none, some [0x20AC#32, 0x10FFFF#32, 0]⟩) ∧
      ∃ (v : ScalarString) (t : List UInt8), [0xC3, 0xA9] = encode v.units ++ t ∧ v.units.length = 1 := by
  refine ⟨by decide, ?_, ?_⟩
  · have hroom : (encode euroMax.units).length < 8 := by
      rw [euroMax, encode_cons, encode_cons, encode_nil, utf8_eq (Or.inl (by decide)), utf8_eq (Or.inr (by decide))]
      simp
    obtain ⟨buf, hbuf, hread⟩ := utf8_round_trip.2.1 euroMax 8 (List.replicate 8 1) hroom
    exact ⟨buf, hbuf, hread 3 [5, 6, 7] (by decide)⟩
  · obtain ⟨v, t, hs, hv, -⟩ := utf8_round_trip.2.2 ⟨[0xC3, 0xA9], by decide⟩ 2 1 none (by decide)
    exact ⟨v, t, hs, hv⟩

end JACLibc.Wchar
