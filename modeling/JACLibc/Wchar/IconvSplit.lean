import JACLibc.Wchar.IconvRun

/-!
# Conversion in pieces

A text that is converted in several calls comes out as in one call on the whole of it, exactly if every call ends
between two characters, or behind a first byte of UTF-8 that carries no bits, and has room for the characters that end
in it (`iconv_split`).  A piece of output that is wrong is never longer than the right one, and so the lengths tell
that nothing may go wrong on the way.
-/

namespace JACLibc.Iconv

/-- A call may end here: between characters, or in UTF-8 behind a first byte `E0` or `F0`, which has no bits of the
code point. -/
def CutOk (src : Enc) (k : Nat) (cs : List Char) : Prop :=
  k = 0 ∨ (src = .utf8 ∧ k = 1 ∧ ∃ c rest, cs = c :: rest ∧
    ((utf8Bytes c.toNat).head? = some 0xE0 ∨ (utf8Bytes c.toNat).head? = some 0xF0))

/-- The characters that end among the next `n` bytes, and the position behind these. -/
def advance (src : Enc) : Nat → List Char → Nat → List Char × Nat × List Char
  | _, [], _ => ([], 0, [])
  | k, c :: cs, n =>
    let left := (encodeCp src c.toNat).length - k
    if n < left then ([], k + n, c :: cs)
    else
      let r := advance src 0 cs (n - left)
      (c :: r.1, r.2)

/-- Every call ends where it may, has room for the characters that end in it, and the last one ends with the text. -/
def Fitting (src dst : Enc) : Nat → List Char → List (Nat × Nat) → Prop
  | _, cs, [] => cs = []
  | k, cs, (n, room) :: calls =>
    let p := advance src k cs n
    CutOk src p.2.1 p.2.2 ∧ (encode dst p.1).length ≤ room ∧ Fitting src dst p.2.1 p.2.2 calls

/-- The calls return and use the input up, and their output is that of one call on all of it with ample space. -/
def Independent (src dst : Enc) (cs : List Char) (calls : List (Nat × Nat)) : Prop :=
  ∃ fuel out, iconvCalls fuel ⟨src, dst, 0⟩ (encode src cs) calls = some (out, []) ∧
    ∀ room, (encode dst cs).length ≤ room →
      ∃ fuel' a, iconv fuel' ⟨src, dst, 0⟩ (encode src cs) room = some a ∧ a.conv.out = out

section Split

variable {src dst : Enc} {k : Nat} {cs : List Char}

/-- Where no bytes are left the text is at its end. -/
theorem pos_nil (hpos : Pos src k cs) (h : (encode src cs).drop k = []) : cs = [] := by
  cases cs with
  | nil => rfl
  | cons c cs =>
    have hlen := List.drop_eq_nil_iff.1 h
    have hlong := length_encodeCp_pos src c.toNat
    rw [encode_cons, List.length_append] at hlen
    rcases hpos with hk | ⟨rfl, c', rest, heq, hk⟩
    · omega
    · obtain ⟨rfl, rfl⟩ := List.cons.inj heq
      rw [encodeCp] at hlen
      omega

/-- A character is read as it is exactly if the earlier calls had none of its bits. -/
theorem seen_eq_iff {c : Char} (hpos : Pos src k (c :: cs)) : seen src k c = c.toNat ↔ CutOk src k (c :: cs) := by
  by_cases hk : k = 0
  · exact iff_of_true (if_pos hk) (.inl hk)
  · obtain ⟨rfl, c', rest, heq, hlt⟩ := hpos.resolve_left hk
    obtain ⟨rfl, rfl⟩ := List.cons.inj heq
    have hlong : 0x80 ≤ c.toNat := by
      by_contra hshort
      rw [length_utf8Bytes, if_pos (Nat.not_le.1 hshort)] at hlt
      omega
    obtain ⟨b, s, hbytes, hs, -, hzero, hlarge, -⟩ := utf8Bytes_lead (char_lt c) hlong
    have hlen : (utf8Bytes c.toNat).length = s + 1 := by rw [hbytes, List.length_cons, length_conts]
    have hseen : seen .utf8 k c = c.toNat % 64 ^ (s + 1 - k) := by
      rw [seen, if_neg hk, encodeCp, hlen]
    rw [hseen]
    by_cases hone : k = 1
    · subst hone
      have hcut : CutOk .utf8 1 (c :: cs) ↔ c.toNat / 64 ^ s = 0 := by
        rw [← hzero]
        constructor
        · rintro (h | ⟨-, -, c', rest, heq, h⟩)
          · exact absurd h (by decide)
          · obtain ⟨rfl, rfl⟩ := List.cons.inj heq
            rw [hbytes] at h
            simpa using h
        · intro h
          refine .inr ⟨rfl, rfl, c, cs, rfl, ?_⟩
          rw [hbytes]
          simpa using h
      rw [hcut, Nat.add_sub_cancel, Nat.div_eq_zero_iff_lt (Nat.pow_pos (by decide))]
      exact ⟨fun h => by rw [← h]; exact Nat.mod_lt _ (Nat.pow_pos (by decide)), Nat.mod_eq_of_lt⟩
    · have hge := hlarge (s + 1 - k) (by omega) (by omega)
      have hmod := Nat.mod_lt c.toNat (Nat.pow_pos (n := s + 1 - k) (by decide : 0 < 64))
      exact iff_of_false (by omega) fun h => h.elim hk fun h => hone h.2.1

/-- The output of a call is no longer than that of its characters, and where it is that, the call went well. -/
theorem convChars_right (hdst : dst ≠ .ascii) (hpos : Pos src k cs) {n room : Nat} {r : List UInt8 × Nat × List Char}
    (hr : convChars src dst k cs n room = some r) : ∃ done, cs = done ++ r.2.2 ∧ Pos src r.2.1 r.2.2 ∧
      r.1.length ≤ (encode dst done).length ∧ (r.1 = encode dst done → advance src k cs n = (done, r.2) ∧
        (encode dst done).length ≤ room ∧ (done = [] → k ≤ r.2.1) ∧ (done ≠ [] → CutOk src k cs)) := by
  induction cs generalizing k n room r with
  | nil =>
    obtain rfl := Option.some.inj hr
    refine ⟨[], rfl, .inl rfl, Nat.le_refl _, fun _ => ⟨rfl, Nat.zero_le _, fun _ => ?_, fun h => absurd rfl h⟩⟩
    rcases hpos with h | ⟨-, c, rest, h, -⟩
    · exact Nat.le_of_eq h
    · exact absurd h (by simp)
  | cons c cs ih =>
    rw [convChars] at hr
    rw [advance]
    dsimp only at hr ⊢
    by_cases hpart : n < (encodeCp src c.toNat).length - k
    · rw [if_pos hpart] at hr ⊢
      split at hr
      · next hread =>
        obtain rfl := Option.some.inj hr
        refine ⟨[], rfl, ?_, Nat.le_refl _, fun _ => ⟨rfl, Nat.zero_le _, fun _ => Nat.le_add_right k n,
          fun h => absurd rfl h⟩⟩
        rcases hread with rfl | rfl
        · exact hpos
        · exact .inr ⟨rfl, c, cs, rfl, Nat.add_lt_of_lt_sub' hpart⟩
      · exact absurd hr (by simp)
    · rw [if_neg hpart] at hr ⊢
      by_cases hroom : room < (encodeCp dst (seen src k c)).length
      · rw [if_pos hroom] at hr
        obtain rfl := Option.some.inj hr
        refine ⟨[c], rfl, .inl rfl, Nat.zero_le _, fun h => ?_⟩
        have hlen := congrArg List.length h
        rw [encode_cons, encode_nil, List.append_nil] at hlen
        exact absurd hlen (Nat.ne_of_lt (length_encodeCp_pos dst c.toNat))
      · rw [if_neg hroom] at hr
        obtain ⟨r', hr', rfl⟩ := Option.map_eq_some_iff.1 hr
        obtain ⟨done, hcs, hpos', hle, hright⟩ := ih (.inl rfl) hr'
        have hmono := length_encodeCp_mono dst (seen_le src k c)
        refine ⟨c :: done, by rw [hcs]; rfl, hpos', ?_, fun h => ?_⟩
        · rw [encode_cons, List.length_append, List.length_append]
          exact Nat.add_le_add hmono hle
        · rw [encode_cons] at h
          have hlen := congrArg List.length h
          rw [List.length_append, List.length_append] at hlen
          obtain ⟨hbytes, hrest⟩ := List.append_inj h (by omega)
          obtain ⟨hadvance, hfit, -, -⟩ := hright hrest
          have hseen := encodeCp_inj hdst (Nat.lt_of_le_of_lt (seen_le src k c) (char_lt c)) (char_lt c) hbytes
          refine ⟨by rw [hadvance], ?_, fun h => absurd h (by simp), fun _ => (seen_eq_iff hpos).1 hseen⟩
          rw [encode_cons, List.length_append]
          omega

theorem advance_append (n : Nat) : cs = (advance src k cs n).1 ++ (advance src k cs n).2.2 := by
  induction cs generalizing k n with
  | nil => rfl
  | cons c cs ih =>
    rw [advance]
    dsimp only
    split
    · rfl
    · exact congrArg (c :: ·) (ih _)

/-- A call that ends where it may and has room converts its characters. -/
theorem convChars_fits (hpos : Pos src k cs) (hcut : CutOk src k cs) {n room : Nat}
    (hend : CutOk src (advance src k cs n).2.1 (advance src k cs n).2.2)
    (hroom : (encode dst (advance src k cs n).1).length ≤ room) :
    convChars src dst k cs n room = some (encode dst (advance src k cs n).1, (advance src k cs n).2) := by
  induction cs generalizing k n room with
  | nil => rfl
  | cons c cs ih =>
    rw [convChars]
    rw [advance] at hend hroom ⊢
    dsimp only at hend hroom ⊢
    by_cases hpart : n < (encodeCp src c.toNat).length - k
    · rw [if_pos hpart] at hend hroom ⊢
      rw [if_pos hpart, if_pos]
      · rfl
      · rcases hend with h | ⟨h, -⟩
        · exact .inl (Nat.eq_zero_of_add_eq_zero_left h)
        · exact .inr h
    · rw [if_neg hpart] at hend hroom ⊢
      have hseen := (seen_eq_iff hpos).2 hcut
      rw [encode_cons, List.length_append] at hroom
      rw [if_neg hpart, hseen, if_neg (by omega), ih (.inl rfl) (.inl rfl) hend (by omega), Option.map_some,
        encode_cons]

/-- Calls that use the text up put out no more than the text has. -/
theorem length_callChars (hdst : dst ≠ .ascii) (hpos : Pos src k cs) {calls : List (Nat × Nat)} {out : List UInt8}
    {k' : Nat} (hr : callChars src dst k cs calls = some (out, k', [])) : out.length ≤ (encode dst cs).length := by
  induction calls generalizing k cs out with
  | nil =>
    have hout := (Prod.mk.inj (Option.some.inj hr)).1
    rw [← hout]
    exact Nat.zero_le _
  | cons call calls ih =>
    obtain ⟨p, hp, hmap⟩ := Option.bind_eq_some_iff.1 hr
    obtain ⟨q, hq, heq⟩ := Option.map_eq_some_iff.1 hmap
    obtain ⟨done, hcs, hpos', hle, -⟩ := convChars_right hdst hpos hp
    obtain ⟨hout, hrest⟩ := Prod.mk.inj heq
    have hq' : callChars src dst p.2.1 p.2.2 calls = some (q.1, k', []) := by rw [hq, ← hrest]
    rw [← hout, hcs, encode_append, List.length_append, List.length_append]
    exact Nat.add_le_add hle (ih hpos' hq')

/-- Calls that put out the whole text are fitting. -/
theorem fitting_of_right (hdst : dst ≠ .ascii) (hpos : Pos src k cs) {calls : List (Nat × Nat)} {k' : Nat}
    (hr : callChars src dst k cs calls = some (encode dst cs, k', [])) :
    CutOk src k cs ∧ Fitting src dst k cs calls := by
  induction calls generalizing k cs with
  | nil =>
    have hcs := (Prod.mk.inj (Prod.mk.inj (Option.some.inj hr)).2).2
    subst hcs
    rcases hpos with h | ⟨-, c, rest, h, -⟩
    · exact ⟨.inl h, rfl⟩
    · exact absurd h (by simp)
  | cons call calls ih =>
    obtain ⟨p, hp, hmap⟩ := Option.bind_eq_some_iff.1 hr
    obtain ⟨q, hq, heq⟩ := Option.map_eq_some_iff.1 hmap
    obtain ⟨done, hcs, hpos', hle, hright⟩ := convChars_right hdst hpos hp
    obtain ⟨hout, hrest⟩ := Prod.mk.inj heq
    have hq' : callChars src dst p.2.1 p.2.2 calls = some (q.1, k', []) := by rw [hq, ← hrest]
    have hle' := length_callChars hdst hpos' hq'
    rw [hcs, encode_append] at hout
    have hlen := congrArg List.length hout
    rw [List.length_append, List.length_append] at hlen
    obtain ⟨hfirst, hothers⟩ := List.append_inj hout (by omega)
    rw [hothers] at hq'
    obtain ⟨hcut, hfitting⟩ := ih hpos' hq'
    obtain ⟨hadvance, hroom, hsame, hstart⟩ := hright hfirst
    refine ⟨?_, ?_⟩
    · by_cases hdone : done = []
      · -- no character ends in this call: what holds at its end holds at its start
        have hk := hsame hdone
        subst hdone
        rw [List.nil_append] at hcs
        rcases hcut with h | ⟨hutf8, hone, c, rest, hc, hlead⟩
        · exact .inl (by omega)
        · rcases Nat.eq_zero_or_pos k with h | h
          · exact .inl h
          · exact .inr ⟨hutf8, by omega, c, rest, hcs.trans hc, hlead⟩
      · exact hstart hdone
    · rw [Fitting, hadvance]
      exact ⟨hcut, hroom, hfitting⟩

/-- Fitting calls put out the whole text. -/
theorem callChars_fits (hdst : dst ≠ .ascii) (hpos : Pos src k cs) (hcut : CutOk src k cs) {calls : List (Nat × Nat)}
    (hfit : Fitting src dst k cs calls) :
    ∃ k', callChars src dst k cs calls = some (encode dst cs, k', []) ∧ Pos src k' [] := by
  induction calls generalizing k cs with
  | nil =>
    obtain rfl : cs = [] := hfit
    exact ⟨k, rfl, hpos⟩
  | cons call calls ih =>
    obtain ⟨n, room⟩ := call
    obtain ⟨hend, hroom, hfit⟩ := hfit
    have hconv := convChars_fits hpos hcut hend hroom
    obtain ⟨-, -, hpos', -⟩ := convChars_right hdst hpos hconv
    obtain ⟨k', hcalls, hpos''⟩ := ih hpos' hend hfit
    refine ⟨k', ?_, hpos''⟩
    rw [callChars, hconv, Option.bind_some]
    dsimp only
    rw [hcalls, Option.map_some, ← encode_append, ← advance_append]

theorem advance_all {n : Nat} (hn : (encode src cs).length ≤ n) : advance src 0 cs n = (cs, 0, []) := by
  induction cs generalizing n with
  | nil => rfl
  | cons c cs ih =>
    rw [encode_cons, List.length_append] at hn
    rw [advance]
    dsimp only
    rw [if_neg (by omega), ih (by omega)]

/-- One call with ample space converts the whole text. -/
theorem iconv_whole (hsrc : src ≠ .ascii) {room : Nat} (hroom : (encode dst cs).length ≤ room) :
    ∃ a, Returns src dst ⟨encode src cs, room, [], 0, 0, 0⟩ a ∧ a.conv.out = encode dst cs ∧ a.conv.inp = [] := by
  have hadvance : advance src 0 cs (encode src cs).length = (cs, 0, []) := advance_all (Nat.le_refl _)
  have hconv : convChars src dst 0 cs (encode src cs).length room = _ :=
    convChars_fits (.inl rfl) (.inl rfl) (by rw [hadvance]; exact .inl rfl) (by rw [hadvance]; exact hroom)
  rw [hadvance] at hconv
  have hpos : Pos src 0 cs := .inl rfl
  have hinp : encode src cs = ((encode src cs).drop 0).take (encode src cs).length := by
    rw [List.drop_zero, List.take_length]
  obtain ⟨-, hsome⟩ := returns_convChars dst hsrc ⟨encode src cs, room, [], 0, 0, 0⟩ hpos hinp (by cases cs <;> rfl)
    fun _ => rfl
  obtain ⟨a, ha, hout, hleft, -, -⟩ := hsome _ hconv
  refine ⟨a, ha, hout, ?_⟩
  rw [List.drop_zero, List.drop_length, List.append_nil] at hleft
  exact hleft

end Split

/-- The calls put out what one call with ample space does, exactly if they are fitting. -/
theorem iconv_split {src dst : Enc} (hsrc : src ≠ .ascii) (hdst : dst ≠ .ascii) (cs : List Char)
    (calls : List (Nat × Nat)) :
    Independent src dst cs calls ↔ Fitting src dst 0 cs calls := by
  have hpos : Pos src 0 cs := .inl rfl
  have hstate : stateAt src 0 cs = 0 := by cases cs <;> rfl
  have hcalls : ∀ r, (∃ fuel, iconvCalls fuel ⟨src, dst, stateAt src 0 cs⟩ ((encode src cs).drop 0) calls = some r) ↔
    _ :=
    fun _ => iconvCalls_iff hsrc hpos
  rw [hstate, List.drop_zero] at hcalls
  constructor
  · rintro ⟨fuel, out, hrun, hwhole⟩
    obtain ⟨fuel', a, ha, rfl⟩ := hwhole _ (Nat.le_refl _)
    obtain ⟨b, hb, hout, -⟩ := iconv_whole hsrc (Nat.le_refl _)
    obtain rfl := Returns.unique ⟨fuel', ha⟩ hb
    rw [hout] at hrun
    obtain ⟨q, hq, hr, hqpos⟩ := (hcalls _).1 ⟨fuel, hrun⟩
    obtain ⟨hqout, hqrest⟩ := Prod.mk.inj hr
    have hqnil : q.2.2 = [] := pos_nil hqpos hqrest.symm
    have hq' : callChars src dst 0 cs calls = some (encode dst cs, q.2.1, []) := by rw [hq, hqout, ← hqnil]
    exact (fitting_of_right hdst hpos hq').2
  · intro hfit
    obtain ⟨k', hrun, hpos'⟩ := callChars_fits hdst hpos (.inl rfl) hfit
    obtain ⟨fuel, hfuel⟩ := (hcalls _).2 ⟨_, hrun, rfl, hpos'⟩
    dsimp only at hfuel
    rw [encode_nil, List.drop_nil] at hfuel
    refine ⟨fuel, encode dst cs, hfuel, fun room hroom => ?_⟩
    obtain ⟨a, ⟨fuel', ha⟩, hout, -⟩ := iconv_whole hsrc hroom
    exact ⟨fuel', a, ha, hout⟩

theorem iconv_split_between : Independent .utf8 .utf16le ['é', 'x'] [(2, 2), (1, 2)] :=
  (iconv_split (by decide) (by decide) _ _).2 ⟨.inl rfl, by decide, .inl rfl, by decide, rfl⟩

/-- A call that ends within a character loses its first bits: `é` becomes a closing parenthesis. -/
theorem iconv_split_within : iconvCalls 3 ⟨.utf8, .utf32le, 0⟩ (encode .utf8 ['é']) [(1, 4), (1, 4)] =
    some ([0x29, 0, 0, 0], []) ∧ ¬Independent .utf8 .utf32le ['é'] [(1, 4), (1, 4)] := by
  have hrun : iconvCalls 3 ⟨.utf8, .utf32le, 0⟩ (encode .utf8 ['é']) [(1, 4), (1, 4)] = some ([0x29, 0, 0, 0],
    []) := by decide
  refine ⟨hrun, ?_⟩
  rintro ⟨fuel, out, hrun', hwhole⟩
  obtain ⟨fuel', a, ha, hout⟩ := hwhole 4 (by decide)
  have hfits : (encode .utf32le ['é']).length ≤ 4 := by decide
  obtain ⟨b, hb, hright, -⟩ := iconv_whole (show Enc.utf8 ≠ .ascii by decide) hfits
  obtain rfl := Returns.unique ⟨fuel', ha⟩ hb
  rw [← hout, hright] at hrun'
  exact absurd (iconvCalls_unique hrun hrun') (by decide)

end JACLibc.Iconv
