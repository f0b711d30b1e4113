import JACLibc.Http.Parser

/-!
# Requests and the parser

`http_feed` looks at no byte that it has not been told of, although it reads strings up to a NUL: every string that it
reads ends at a line end that has been cut before.  So the answer to a part of a buffer does not depend on the rest,
and a request that comes in pieces is parsed like the whole.  A well-formed request is accepted, and no header is
counted before the end of the first header line.
-/

namespace JACLibc.Http

variable {b t : Buf} {j p : Nat}

/-! ### Strings that end at a NUL -/

theorem length_str_le (hj : b[j]? = some 0) (hp : p ≤ j) : (str b p).length ≤ j - p := by
  by_contra hlt
  have hget : (b.drop p)[j - p]? = some 0 := by rw [List.getElem?_drop, Nat.add_sub_cancel' hp, hj]
  have hsplit : str b p ++ (b.drop p).dropWhile (· ≠ 0) = b.drop p := List.takeWhile_append_dropWhile
  rw [← hsplit, List.getElem?_append_left (by omega)] at hget
  have hmem : (0 : UInt8) ∈ str b p := List.mem_of_getElem? hget
  have := List.mem_takeWhile_imp hmem
  simp at this

/-- Bytes behind the NUL do not matter. -/
theorem str_append (hj : b[j]? = some 0) (hp : p ≤ j) : str (b ++ t) p = str b p := by
  have hlt : j < b.length := (List.getElem?_eq_some_iff.1 hj).1
  have hlen := length_str_le hj hp
  unfold str at hlen ⊢
  rw [List.drop_append_of_le_length (by omega), List.takeWhile_append, if_neg]
  rw [List.length_drop]
  omega

theorem strchr_append (hj : b[j]? = some 0) (hp : p ≤ j) (c : UInt8) : strchr (b ++ t) p c = strchr b p c := by
  rw [strchr, strchr, str_append hj hp]

theorem strchr_lt (hj : b[j]? = some 0) (hp : p ≤ j) {c : UInt8} {q : Nat} (hq : strchr b p c = some q) :
    p ≤ q ∧ q < j := by
  have hlen := length_str_le hj hp
  rw [strchr, Option.map_eq_some_iff] at hq
  obtain ⟨d, hd, rfl⟩ := hq
  obtain ⟨hlt, -⟩ := List.findIdx?_eq_some_iff_getElem.1 hd
  omega

theorem skipBlanks_append (hj : b[j]? = some 0) (hp : p ≤ j) : skipBlanks (b ++ t) p = skipBlanks b p := by
  rw [skipBlanks, skipBlanks, str_append hj hp]

theorem skipBlanks_le (hj : b[j]? = some 0) (hp : p ≤ j) : skipBlanks b p ≤ j := by
  have hlen := length_str_le hj hp
  have hle := (List.takeWhile_sublist (l := str b p) fun c => decide (c = asc ' ' ∨ c = asc '\t')).length_le
  unfold skipBlanks
  omega

theorem getElem?_set_nul (hj : b[j]? = some 0) (q : Nat) : (b.set q 0)[j]? = some 0 := by
  have hlt : j < b.length := (List.getElem?_eq_some_iff.1 hj).1
  rw [List.getElem?_set]
  split
  · rw [if_pos (by omega)]
  · exact hj

/-! ### Where the fields point -/

/-- No field points beyond `j`. -/
structure Fields.Below (f : Fields) (j : Nat) : Prop where
  path : ∀ p ∈ f.path, p ≤ j
  query : ∀ p ∈ f.query, p ≤ j
  authority : ∀ p ∈ f.authority, p ≤ j
  upgradeProto : ∀ p ∈ f.upgradeProto, p ≤ j
  hdrs : ∀ h ∈ f.hdrs, h.1 ≤ j ∧ h.2 ≤ j

theorem Fields.Below.mono {f : Fields} {i : Nat} (h : f.Below i) (hij : i ≤ j) : f.Below j :=
  ⟨fun p hp => (h.path p hp).trans hij, fun p hp => (h.query p hp).trans hij, fun p hp => (h.authority p hp).trans hij,
    fun p hp => (h.upgradeProto p hp).trans hij, fun x hx => ⟨(h.hdrs x hx).1.trans hij, (h.hdrs x hx).2.trans hij⟩⟩

/-! ### Lines -/

/-- The buffer without the question mark of the query. -/
def unquery (b : Buf) : Option Nat → Buf
  | some q => b.set q 0
  | none => b

/-- The answer to a line with two spaces. -/
theorem parseRequestLine_some (f : Fields) {sp1 sp2 : Nat} (h1 : strchr b p (asc ' ') = some sp1)
    (h2 : strchr (b.set sp1 0) (sp1 + 1) (asc ' ') = some sp2) {b3 : Buf}
    (h3 : unquery ((b.set sp1 0).set sp2 0) (strchr ((b.set sp1 0).set sp2 0) (sp1 + 1) (asc '?')) = b3) :
    parseRequestLine f b p =
      (.more,
        { f with
          method := parseMethod (str (b.set sp1 0) p), path := some (sp1 + 1)
          query := (strchr ((b.set sp1 0).set sp2 0) (sp1 + 1) (asc '?')).map (· + 1)
          version := if strcmp (str b3 (sp2 + 1)) (lit "HTTP/1.0") = 0 then .v10 else .v11
          keepAlive := if strcmp (str b3 (sp2 + 1)) (lit "HTTP/1.0") = 0 then false else f.keepAlive }, b3) := by
  subst h3
  simp only [parseRequestLine, h1, h2]
  cases strchr ((b.set sp1 0).set sp2 0) (sp1 + 1) (asc '?') with
  | none =>
    simp only [unquery]
    split <;> rename_i hv <;> simp only [hv, if_true, if_false]
  | some q =>
    simp only [unquery]
    split <;> rename_i hv <;> simp only [hv, if_true, if_false]

/-- A request line is parsed in the same way whatever follows its NUL; nothing behind the NUL is changed. -/
theorem parseRequestLine_append (f : Fields) (hj : b[j]? = some 0) (hp : p ≤ j) :
    ∃ st g b', parseRequestLine f b p = (st, g, b') ∧ b'.length = b.length ∧ g.hdrs = f.hdrs ∧ (f.Below j → g.Below j) ∧
      ∀ t, parseRequestLine f (b ++ t) p = (st, g, b' ++ t) := by
  have hlt : j < b.length := (List.getElem?_eq_some_iff.1 hj).1
  cases h1 : strchr b p (asc ' ') with
  | none =>
    refine ⟨.error, f, b, by simp only [parseRequestLine, h1], rfl, rfl, id, fun t => ?_⟩
    simp only [parseRequestLine, strchr_append hj hp, h1]
  | some sp1 =>
    obtain ⟨hle1, hlt1⟩ := strchr_lt hj hp h1
    have hset1 : ∀ t : Buf, (b ++ t).set sp1 0 = b.set sp1 0 ++ t := fun t => List.set_append_left _ _ (by omega)
    have hj1 := getElem?_set_nul hj sp1
    have hstr : ∀ t, str (b.set sp1 0 ++ t) p = str (b.set sp1 0) p := fun t => str_append hj1 hp
    have hp1 : sp1 + 1 ≤ j := hlt1
    cases h2 : strchr (b.set sp1 0) (sp1 + 1) (asc ' ') with
    | none =>
      refine ⟨.error, { f with method := parseMethod (str (b.set sp1 0) p) },
        b.set sp1 0, by simp only [parseRequestLine, h1, h2], List.length_set, rfl, fun h => ⟨h.path, h.query,
        h.authority, h.upgradeProto, h.hdrs⟩, fun t => ?_⟩
      simp only [parseRequestLine, strchr_append hj hp, h1, hset1, hstr, strchr_append hj1 hp1, h2]
    | some sp2 =>
      obtain ⟨hle2, hlt2⟩ := strchr_lt hj1 hp1 h2
      have hset2 : ∀ t : Buf, (b.set sp1 0 ++ t).set sp2 0 = (b.set sp1 0).set sp2 0 ++ t :=
        fun t => List.set_append_left _ _ (by rw [List.length_set]; omega)
      have hj2 := getElem?_set_nul hj1 sp2
      have hlen2 : ((b.set sp1 0).set sp2 0).length = b.length := by rw [List.length_set, List.length_set]
      obtain ⟨b3, hb3, hlen3, hj3, hset3, hqle⟩ : ∃ b3,
          unquery ((b.set sp1 0).set sp2 0) (strchr ((b.set sp1 0).set sp2 0) (sp1 + 1) (asc '?')) = b3 ∧
          b3.length = b.length ∧ b3[j]? = some 0 ∧
          (∀ t, unquery ((b.set sp1 0).set sp2 0 ++ t) (strchr ((b.set sp1 0).set sp2 0) (sp1 + 1) (asc '?')) =
              b3 ++ t) ∧
            ∀ x ∈ (strchr ((b.set sp1 0).set sp2 0) (sp1 + 1) (asc '?')).map (· + 1), x ≤ j := by
        cases hq : strchr ((b.set sp1 0).set sp2 0) (sp1 + 1) (asc '?') with
        | none => exact ⟨_, rfl, hlen2, hj2, fun t => rfl, by simp⟩
        | some q =>
          obtain ⟨-, hltq⟩ := strchr_lt hj2 hp1 hq
          refine ⟨_, rfl, by rw [unquery, List.length_set, hlen2], getElem?_set_nul hj2 q,
            fun t => List.set_append_left _ _ (by omega), ?_⟩
          intro x hx
          simp only [Option.map_some, Option.mem_some_iff] at hx
          omega
      refine ⟨_, _, b3, parseRequestLine_some f h1 h2 hb3, hlen3, rfl, fun h => ?_, fun t => ?_⟩
      · exact ⟨by simp only [Option.mem_some_iff]; omega, hqle, h.authority, h.upgradeProto, h.hdrs⟩
      · have h1' : strchr (b ++ t) p (asc ' ') = some sp1 := (strchr_append hj hp _).trans h1
        have h2' : strchr ((b ++ t).set sp1 0) (sp1 + 1) (asc ' ') = some sp2 := by
          rw [hset1, strchr_append hj1 hp1, h2]
        have h3' := hset3 t
        rw [← strchr_append (t := t) hj2 hp1, ← hset2, ← hset1] at h3'
        rw [parseRequestLine_some f h1' h2' h3', hset1, hset2, strchr_append hj2 hp1, hstr, str_append hj3 (by omega)]

/-- A header line likewise. -/
theorem parseHeader_append (strtoul : List UInt8 → Nat) (f : Fields) (hj : b[j]? = some 0) (hp : p ≤ j) :
    ∃ g b', parseHeader strtoul f b p = (g, b') ∧ b'.length = b.length ∧ (f.Below j → g.Below j) ∧
      ∀ t, parseHeader strtoul f (b ++ t) p = (g, b' ++ t) := by
  have hlt : j < b.length := (List.getElem?_eq_some_iff.1 hj).1
  by_cases hmax : f.hdrs.length ≥ HTTP_MAXHDR
  · exact ⟨f, b, by rw [parseHeader, if_pos hmax], rfl, id, fun t => by rw [parseHeader, if_pos hmax]⟩
  cases hcol : strchr b p (asc ':') with
  | none =>
    refine ⟨f, b, by simp only [parseHeader, if_neg hmax, hcol], rfl, id, fun t => ?_⟩
    simp only [parseHeader, if_neg hmax, strchr_append hj hp, hcol]
  | some col =>
    obtain ⟨hle, hltc⟩ := strchr_lt hj hp hcol
    have hset : ∀ t : Buf, (b ++ t).set col 0 = b.set col 0 ++ t := fun t => List.set_append_left _ _ (by omega)
    have hjc := getElem?_set_nul hj col
    have hval := skipBlanks_le hjc (show col + 1 ≤ j from hltc)
    have hstr : ∀ t x, x ≤ j → str (b.set col 0 ++ t) x = str (b.set col 0) x := fun t x hx => str_append hjc hx
    refine ⟨(parseHeader strtoul f b p).1, b.set col 0, ?_, List.length_set, ?_, fun t => ?_⟩
    · simp only [parseHeader, if_neg hmax, hcol]
    · intro h
      have hhdrs : ∀ x ∈ f.hdrs ++ [(p, skipBlanks (b.set col 0) (col + 1))], x.1 ≤ j ∧ x.2 ≤ j := by
        intro x hx
        rcases List.mem_append.1 hx with hx | hx
        · exact h.hdrs x hx
        · rw [List.mem_singleton.1 hx]
          exact ⟨hp, hval⟩
      simp only [parseHeader, if_neg hmax, hcol]
      split_ifs
      · exact ⟨h.path, h.query, h.authority, h.upgradeProto, hhdrs⟩
      · exact ⟨h.path, h.query, h.authority, h.upgradeProto, hhdrs⟩
      · exact ⟨h.path, h.query, h.authority, h.upgradeProto, hhdrs⟩
      · exact ⟨h.path, h.query, h.authority, by simpa using hval, hhdrs⟩
      · exact ⟨h.path, h.query, by simpa using hval, h.upgradeProto, hhdrs⟩
      · exact ⟨h.path, h.query, h.authority, h.upgradeProto, hhdrs⟩
    · simp only [parseHeader, if_neg hmax, strchr_append hj hp, hcol, hset,
        skipBlanks_append hjc (show col + 1 ≤ j from hltc), hstr t p hp, hstr t _ hval]

/-! ### Buffers that go on -/

section Loop

variable (strtoul : List UInt8 → Nat)

/-- A state of the loop with more bytes behind the buffer. -/
def Feed.extend (s : Feed) (t : Buf) : Feed := { s with buf := s.buf ++ t }

theorem crlf_append {i : Nat} (hi : i + 1 < b.length) (t : Buf) : crlf (b ++ t) i = crlf b i := by
  simp only [crlf, List.getD_eq_getElem?_getD, List.getElem?_append_left hi,
    List.getElem?_append_left (Nat.lt_of_succ_lt hi)]

theorem cut_append {i : Nat} (hi : i + 1 < b.length) (t : Buf) : cut (b ++ t) i = cut b i ++ t := by
  rw [cut, cut, List.set_append_left _ _ (by omega), List.set_append_left _ _ (by rw [List.length_set]; exact hi)]

theorem length_cut (b : Buf) (i : Nat) : (cut b i).length = b.length := by rw [cut, List.length_set, List.length_set]

theorem getElem?_cut {i : Nat} (hi : i < b.length) : (cut b i)[i]? = some 0 := by
  rw [cut, List.getElem?_set_ne (by omega), List.getElem?_set_self hi]

/-- One turn: bytes behind the buffer are left alone, and the line that is being read starts no later than the byte
looked at. -/
theorem turn_extend {s : Feed} (hi : s.i + 1 < s.buf.length) (hline : s.lineStart ≤ s.i) :
    ∃ st u, turn strtoul s = (st, u) ∧ u.buf.length = s.buf.length ∧ u.lineStart ≤ u.i ∧
      ∀ t, turn strtoul (s.extend t) = (st, u.extend t) := by
  by_cases hcr : crlf s.buf s.i
  · have hcr' : ∀ t, crlf (s.buf ++ t) s.i := fun t => by rw [crlf_append hi]; exact hcr
    have hj : (cut s.buf s.i)[s.i]? = some 0 := getElem?_cut (by omega)
    have hlen := length_cut s.buf s.i
    cases hst : s.state with
    | requestLine =>
      obtain ⟨st, g, b', h1, hb', -, -, h2⟩ := parseRequestLine_append s.fields hj hline
      by_cases hmore : st = .more
      · refine ⟨.more, ⟨g, .headerLines, s.i + 2, b', s.i + 2⟩,
          ?_, by simpa using hb'.trans hlen, Nat.le_refl _, fun t => ?_⟩
        · simp only [turn, if_pos hcr, hst, h1, if_pos hmore]
        · simp only [turn, Feed.extend, if_pos (hcr' t), hst, cut_append hi, h2, if_pos hmore]
      · refine ⟨st, ⟨g, .requestLine, s.lineStart, b', s.i + 2⟩, ?_, by simpa using hb'.trans hlen, ?_, fun t => ?_⟩
        · simp only [turn, if_pos hcr, hst, h1, if_neg hmore]
        · exact hline.trans (Nat.le_add_right _ _)
        · simp only [turn, Feed.extend, if_pos (hcr' t), hst, cut_append hi, h2, if_neg hmore]
    | headerLines =>
      by_cases hend : s.lineStart = s.i
      · refine ⟨if s.fields.upgrade then .upgrade else .headers,
          ⟨s.fields, .headerLines, s.lineStart, cut s.buf s.i, s.i + 2⟩, ?_, hlen, ?_, fun t => ?_⟩
        · simp only [turn, if_pos hcr, hst, if_pos hend]
        · exact hline.trans (Nat.le_add_right _ _)
        · simp only [turn, Feed.extend, if_pos (hcr' t), hst, cut_append hi, if_pos hend]
      · obtain ⟨g, b', h1, hb', -, h2⟩ := parseHeader_append strtoul s.fields hj hline
        refine ⟨.more, ⟨g, .headerLines, s.i + 2, b', s.i + 2⟩,
          ?_, by simpa using hb'.trans hlen, Nat.le_refl _, fun t => ?_⟩
        · simp only [turn, if_pos hcr, hst, if_neg hend, h1]
        · simp only [turn, Feed.extend, if_pos (hcr' t), hst, cut_append hi, if_neg hend, h2]
  · have hcr' : ∀ t, ¬crlf (s.buf ++ t) s.i := fun t => by rw [crlf_append hi]; exact hcr
    refine ⟨.more, { s with i := s.i + 1 }, by rw [turn, if_neg hcr], rfl, Nat.le_succ_of_le hline, fun t => ?_⟩
    rw [turn]
    exact if_neg (hcr' t)

/-- The loop told of `len` bytes looks at no others. -/
theorem feedLoop_extend {s : Feed} (fuel : Nat) (hline : s.lineStart ≤ s.i) (t : Buf) :
    ∃ st u, feedLoop strtoul s.buf.length fuel s = (st, u) ∧ u.buf.length = s.buf.length ∧ u.lineStart ≤ u.i ∧
      feedLoop strtoul s.buf.length fuel (s.extend t) = (st, u.extend t) := by
  induction fuel generalizing s with
  | zero => exact ⟨.more, s, rfl, rfl, hline, rfl⟩
  | succ fuel ih =>
    by_cases hend : s.i + 1 ≥ s.buf.length
    · refine ⟨.more, s, by rw [feedLoop, if_pos hend], rfl, hline, ?_⟩
      rw [feedLoop]
      exact if_pos hend
    · obtain ⟨st, v, hv, hlen, hv', hvt⟩ := turn_extend strtoul (Nat.not_le.1 hend) hline
      have hend' : ¬(s.extend t).i + 1 ≥ s.buf.length := hend
      by_cases hst : st = .more
      · subst hst
        obtain ⟨st', u, hu, hulen, hu', hut⟩ := ih hv'
        rw [hlen] at hu hulen hut
        refine ⟨st', u, ?_, hulen, hu', ?_⟩
        · rw [feedLoop, if_neg hend, hv]
          exact hu
        · rw [feedLoop, if_neg hend', hvt]
          exact hut
      · refine ⟨st, v, ?_, hlen, hv', ?_⟩
        · rw [feedLoop, if_neg hend, hv]
          cases st <;> first | rfl | exact absurd rfl hst
        · rw [feedLoop, if_neg hend', hvt]
          cases st <;> first | rfl | exact absurd rfl hst

/-- `http_feed` looks at no byte that it has not been told of. -/
theorem feed_append {r : Req} (hline : r.lineStart ≤ r.offset) (b t : Buf) :
    (feed strtoul r b b.length).buf.length = b.length ∧
      (feed strtoul r b b.length).req.lineStart ≤ (feed strtoul r b b.length).consumed ∧
      feed strtoul r (b ++ t) b.length =
      { feed strtoul r b b.length with buf := (feed strtoul r b b.length).buf ++ t } := by
  obtain ⟨st, u, hu, hlen, hu', hut⟩ :=
    feedLoop_extend strtoul (b.length - r.offset) (s := ⟨r.toFields, r.state, r.lineStart, b, r.offset⟩) hline t
  simp only [Feed.extend] at hu hlen hut
  simp only [feed, hu, hut]
  exact ⟨hlen, hu', trivial⟩

theorem feed_of_loop {r : Req} {buf : Buf} {len : Nat} {st : Stat} {s : Feed}
    (h : feedLoop strtoul len (len - r.offset) ⟨r.toFields, r.state, r.lineStart, buf, r.offset⟩ = (st, s)) :
    feed strtoul r buf len =
      ⟨st, s.i, ⟨s.fields, s.state, if st = .more then s.i else r.offset, s.lineStart⟩, s.buf⟩ := by
  simp only [feed, h]

theorem feed_offset {r : Req} {buf : Buf} {len : Nat} (h : (feed strtoul r buf len).stat = .more) :
    (feed strtoul r buf len).req.offset = (feed strtoul r buf len).consumed := if_pos h

theorem req_eq {r r' : Req} (h1 : r.toFields = r'.toFields) (h2 : r.state = r'.state) (h3 : r.offset = r'.offset)
    (h4 : r.lineStart = r'.lineStart) : r = r' := by
  cases r
  cases r'
  simp_all

/-- Where the bytes so far are not enough, the parser reads on with the next ones as if it had had them at once. -/
theorem feed_next (b c t : Buf) (hmore : (feed strtoul init b b.length).stat = .more) :
    ∃ a, feed strtoul (feed strtoul init b b.length).req ((feed strtoul init b b.length).buf ++ c ++ t)
    (b ++ c).length = a ∧
      a.stat = (feed strtoul init (b ++ c) (b ++ c).length).stat ∧
      a.consumed = (feed strtoul init (b ++ c) (b ++ c).length).consumed ∧
      a.req.toFields = (feed strtoul init (b ++ c) (b ++ c).length).req.toFields ∧
      a.buf = (feed strtoul init (b ++ c) (b ++ c).length).buf ++ t ∧
      (a.stat = .more → a.req = (feed strtoul init (b ++ c) (b ++ c).length).req) := by
  obtain ⟨hlen, hline, hwhole⟩ := feed_append strtoul (r := init) (Nat.le_refl 0) b c
  have hoffset := feed_offset strtoul hmore
  have hmore' : (feed strtoul init (b ++ c) b.length).stat = .more := by rw [hwhole]; exact hmore
  -- the parser with the whole buffer and the parser with the bytes up to `c` meet
  have hle : b.length ≤ (b ++ c).length := by
    rw [List.length_append]
    exact Nat.le_add_right _ _
  have hagree := feed_resume strtoul hle hmore'
  rw [hwhole] at hagree
  have hlen' : ((feed strtoul init b b.length).buf ++ c).length = (b ++ c).length := by
    rw [List.length_append, List.length_append, hlen]
  obtain ⟨-, -, hext⟩ := feed_append strtoul (r := (feed strtoul init b b.length).req) (by rw [hoffset]; exact hline)
    ((feed strtoul init b b.length).buf ++ c) t
  rw [hlen'] at hext
  refine ⟨_, rfl, ?_⟩
  rw [hext]
  obtain ⟨h1, h2, h3, h4, h5, h6⟩ := hagree
  refine ⟨h1, h2, h3, congrArg (· ++ t) h6, fun hm => ?_⟩
  have hm' : (feed strtoul init (b ++ c) (b ++ c).length).stat = .more := h1 ▸ hm
  exact req_eq h3 h4 ((feed_offset strtoul hm).trans (h2.trans (feed_offset strtoul hm').symm)) h5

end Loop

/-! ### Well-formed requests -/

/-- A byte that can stand in a line. -/
def Plain (c : UInt8) : Prop := c ≠ 0 ∧ c ≠ asc '\r' ∧ c ≠ asc '\n'

instance (c : UInt8) : Decidable (Plain c) := inferInstanceAs (Decidable (_ ∧ _ ∧ _))

/-- A request with at least one header and without a body; a value comes with the blanks in front of it. -/
structure Request where
  method : List UInt8
  target : List UInt8
  version : List UInt8
  first : List UInt8 × List UInt8
  others : List (List UInt8 × List UInt8)
  words : ∀ c ∈ method ++ target ++ version, Plain c ∧ c ≠ asc ' '
  keys : ∀ h ∈ first :: others, ∀ c ∈ h.1, Plain c ∧ c ≠ asc ':'
  values : ∀ h ∈ first :: others, ∀ c ∈ h.2, Plain c

def lineEnd : List UInt8 := [asc '\r', asc '\n']

def headerLine (h : List UInt8 × List UInt8) : List UInt8 := h.1 ++ asc ':' :: h.2

def Request.requestLine (r : Request) : List UInt8 := r.method ++ asc ' ' :: (r.target ++ asc ' ' :: r.version)

/-- The headers and the empty line. -/
def headerLines : List (List UInt8 × List UInt8) → List UInt8
  | [] => lineEnd
  | h :: hs => headerLine h ++ (lineEnd ++ headerLines hs)

/-- The bytes of a request. -/
def Request.bytes (r : Request) : List UInt8 := r.requestLine ++ (lineEnd ++ headerLines (r.first :: r.others))

/-- The place behind the first header line. -/
def Request.firstEnd (r : Request) : Nat := r.requestLine.length + 2 + (headerLine r.first).length + 2

/-! ### Reading a line -/

section Line

variable (strtoul : List UInt8 → Nat) {a l rest : List UInt8}

theorem str_line (hl : ∀ c ∈ l, c ≠ 0) (pre rest : List UInt8) : str (pre ++ l ++ 0 :: rest) pre.length = l := by
  rw [str, List.append_assoc, List.drop_left, List.takeWhile_append_of_pos (by simpa using hl),
    List.takeWhile_cons_of_neg (by simp), List.append_nil]

theorem strchr_line (hl : ∀ c ∈ l, c ≠ 0) {w x : List UInt8} {c : UInt8} (hw : ∀ d ∈ w, d ≠ c) (hs : l = w ++ c :: x)
    (pre rest : List UInt8) : strchr (pre ++ l ++ 0 :: rest) pre.length c = some (pre.length + w.length) := by
  have hidx : l.findIdx? (· = c) = some w.length := by
    rw [List.findIdx?_eq_some_iff_getElem]
    subst hs
    refine ⟨by simp, by simp, ?_⟩
    intro i hi
    rw [List.getElem_append_left hi]
    simpa using hw _ (List.getElem_mem hi)
  rw [strchr, str_line hl, hidx]
  rfl

theorem not_crlf {c : UInt8} (hc : c ≠ asc '\r') (pre rest : List UInt8) : ¬crlf (pre ++ c :: rest) pre.length := by
  simp [crlf, hc]

theorem crlf_line (pre rest : List UInt8) : crlf (pre ++ asc '\r' :: asc '\n' :: rest) pre.length := by
  simp [crlf]

theorem cut_line (pre rest : List UInt8) (x y : UInt8) :
    cut (pre ++ x :: y :: rest) pre.length = pre ++ 0 :: 0 :: rest := by
  simp [cut]

/-- The loop on all bytes it has been told of. -/
theorem loop_turn (len : Nat) {s u : Feed} (hlt : s.i + 1 < len) (hu : turn strtoul s = (.more, u)) :
    feedLoop strtoul len (len - s.i) s = feedLoop strtoul len (len - u.i) u := by
  have hmove : s.i < u.i := by simpa [hu] using lt_turn strtoul s
  obtain ⟨m, hm⟩ : ∃ m, len - s.i = m + 1 := ⟨len - s.i - 1, by omega⟩
  rw [hm, feedLoop_more strtoul hlt hu]
  exact feedLoop_fuel strtoul (by omega) (Nat.le_refl _)

/-- A line of which not all has come, or not all of its end. -/
theorem scan_short (len : Nat) (hl : ∀ c ∈ l, c ≠ asc '\r') {s : Feed} (hbuf : s.buf = a ++ (l ++ rest))
    (hi : s.i = a.length) (hlen : len ≤ s.i + l.length + 1) :
    ∃ x, feedLoop strtoul len (len - s.i) s = (.more, { s with i := x }) := by
  induction l generalizing a s with
  | nil => exact ⟨s.i, feedLoop_end strtoul hlen _⟩
  | cons c l ih =>
    by_cases hend : len ≤ s.i + 1
    · exact ⟨s.i, feedLoop_end strtoul hend _⟩
    · have hturn : turn strtoul s = (.more, { s with i := s.i + 1 }) := by
        rw [turn, if_neg]
        rw [hbuf, hi]
        exact not_crlf (hl c (List.mem_cons_self ..)) _ _
      rw [loop_turn strtoul len (Nat.not_le.1 hend) hturn]
      refine ih (a := a ++ [c]) (s := { s with i := s.i + 1 }) (fun d hd => hl d (List.mem_cons_of_mem _ hd)) ?_ ?_ ?_
      · simp [hbuf]
      · simp [hi]
      · simp only [List.length_cons] at hlen ⊢
        omega

/-- A line that has come with its end is read up to it. -/
theorem scan_whole (len : Nat) (hl : ∀ c ∈ l, c ≠ asc '\r') {s : Feed} (hbuf : s.buf = a ++ (l ++ rest))
    (hi : s.i = a.length) (hlen : s.i + l.length + 1 < len) :
    feedLoop strtoul len (len - s.i) s = feedLoop strtoul len (len - (s.i + l.length))
    { s with i := s.i + l.length } := by
  induction l generalizing a s with
  | nil => rfl
  | cons c l ih =>
    rw [List.length_cons] at hlen ⊢
    have hturn : turn strtoul s = (.more, { s with i := s.i + 1 }) := by
      rw [turn, if_neg]
      rw [hbuf, hi]
      exact not_crlf (hl c (List.mem_cons_self ..)) _ _
    rw [loop_turn strtoul len (by omega) hturn]
    rw [ih (a := a ++ [c]) (s := { s with i := s.i + 1 }) (fun d hd => hl d (List.mem_cons_of_mem _ hd))
      (by simp [hbuf])
      (by simp [hi]) (by simp only; omega)]
    simp only [Nat.add_assoc, Nat.add_comm 1 l.length]

end Line

/-! ### The turns at the ends of the lines -/

section Turns

variable (strtoul : List UInt8 → Nat) {f : Fields} {a rest : List UInt8}

theorem Request.requestLine_plain (r : Request) : ∀ c ∈ r.requestLine, Plain c := by
  intro c hc
  have hsp : Plain (asc ' ') := by decide
  simp only [Request.requestLine, List.mem_append, List.mem_cons] at hc
  rcases hc with hc | rfl | hc | rfl | hc
  · exact (r.words c (by simp [hc])).1
  · exact hsp
  · exact (r.words c (by simp [hc])).1
  · exact hsp
  · exact (r.words c (by simp [hc])).1

/-- A request line has its two spaces. -/
theorem Request.parse_more (r : Request) (f : Fields) : (parseRequestLine f (r.requestLine ++ [0, 0]) 0).1 = .more := by
  have h1 : strchr (r.requestLine ++ [0, 0]) 0 (asc ' ') = some r.method.length := by
    have := strchr_line (fun c hc => (r.requestLine_plain c hc).1) (fun d hd => (r.words d (by simp [hd])).2) rfl [] [0]
    simpa using this
  have hset : (r.requestLine ++ [0, 0]).set r.method.length 0 =
      (r.method ++ [0]) ++ (r.target ++ asc ' ' :: r.version) ++ 0 :: [0] := by
    simp [Request.requestLine]
  have h2 : strchr ((r.requestLine ++ [0, 0]).set r.method.length 0) (r.method.length + 1) (asc ' ') =
      some (r.method.length + 1 + r.target.length) := by
    rw [hset]
    have hplain : ∀ c ∈ r.target ++ asc ' ' :: r.version, c ≠ 0 := by
      intro c hc
      apply (r.requestLine_plain c _).1
      rw [Request.requestLine, List.mem_append, List.mem_cons]
      exact .inr (.inr hc)
    have := strchr_line hplain (fun d hd => (r.words d (by simp [hd])).2) rfl (r.method ++ [0]) [0]
    simpa using this
  rw [parseRequestLine_some f h1 h2 rfl]

/-- The turn at the end of a request line, from what its parser answers. -/
theorem turn_requestLine {l : List UInt8} {f g : Fields} {b : Buf}
    (hparse : parseRequestLine f (l ++ [0, 0]) 0 = (.more, g, b)) (rest : Buf) :
    turn strtoul ⟨f, .requestLine, 0, l ++ (lineEnd ++ rest), l.length⟩ =
      (.more, ⟨g, .headerLines, l.length + 2, b ++ rest, l.length + 2⟩) := by
  have hj : (l ++ [0, 0])[l.length]? = some 0 := by simp
  obtain ⟨st, g', b', h1, -, -, -, h2⟩ := parseRequestLine_append f hj (Nat.zero_le _)
  obtain ⟨rfl, rfl, rfl⟩ : .more = st ∧ g = g' ∧ b = b' := by
    rw [hparse] at h1
    simpa using h1
  have hcut : cut (l ++ (lineEnd ++ rest)) l.length = l ++ [0, 0] ++ rest := by
    rw [lineEnd, List.cons_append, List.cons_append, List.nil_append, cut_line, List.append_assoc]
    rfl
  have hcr : crlf (l ++ (lineEnd ++ rest)) l.length := crlf_line _ _
  rw [turn, if_pos hcr]
  simp only [hcut, h2, if_true]

/-- The turn at the end of a header line that is not empty. -/
theorem turn_headerLine {l : List UInt8} (hl : 0 < l.length) {f g : Fields} {a b : Buf}
    (hparse : parseHeader strtoul f (a ++ l ++ [0, 0]) a.length = (g, b)) (rest : Buf) :
    turn strtoul ⟨f, .headerLines, a.length, a ++ (l ++ (lineEnd ++ rest)), a.length + l.length⟩ =
      (.more, ⟨g, .headerLines, a.length + l.length + 2, b ++ rest, a.length + l.length + 2⟩) := by
  have hj : (a ++ l ++ [0, 0])[a.length + l.length]? = some 0 := by simp
  obtain ⟨g', b', h1, -, -, h2⟩ := parseHeader_append strtoul f hj (Nat.le_add_right _ _)
  obtain ⟨rfl, rfl⟩ : g = g' ∧ b = b' := by
    rw [hparse] at h1
    simpa using h1
  have hcut : cut (a ++ (l ++ (lineEnd ++ rest))) (a.length + l.length) = a ++ l ++ [0, 0] ++ rest := by
    have := cut_line (a ++ l) rest (asc '\r') (asc '\n')
    rw [List.length_append] at this
    simpa [lineEnd] using this
  have hcr : crlf (a ++ (l ++ (lineEnd ++ rest))) (a.length + l.length) := by
    have := crlf_line (a ++ l) rest
    rw [List.length_append] at this
    simpa [lineEnd] using this
  rw [turn, if_pos hcr]
  simp only [hcut, h2]
  rw [if_neg (by omega)]

theorem requestLine_turn (r : Request) (f : Fields) (rest : Buf) :
    ∃ g b, turn strtoul ⟨f, .requestLine, 0, r.requestLine ++ (lineEnd ++ rest), r.requestLine.length⟩ =
        (.more, ⟨g, .headerLines, r.requestLine.length + 2, b ++ rest, r.requestLine.length + 2⟩) ∧
      b.length = r.requestLine.length + 2 ∧ g.hdrs = f.hdrs ∧ (f.Below 0 → g.Below r.requestLine.length) := by
  have hj : (r.requestLine ++ [0, 0])[r.requestLine.length]? = some 0 := by simp
  obtain ⟨st, g, b, h1, hlen, hhdrs, hbelow, -⟩ := parseRequestLine_append f hj (Nat.zero_le _)
  obtain rfl : st = .more := by
    have := r.parse_more f
    rw [h1] at this
    exact this
  exact ⟨g, b, turn_requestLine strtoul h1 rest, by simpa using hlen, hhdrs, fun h => hbelow (h.mono (Nat.zero_le _))⟩

theorem headerLine_plain {h : List UInt8 × List UInt8} (hk : ∀ c ∈ h.1, Plain c ∧ c ≠ asc ':')
    (hv : ∀ c ∈ h.2, Plain c) :
    ∀ c ∈ headerLine h, Plain c := by
  intro c hc
  simp only [headerLine, List.mem_append, List.mem_cons] at hc
  rcases hc with hc | rfl | hc
  · exact (hk c hc).1
  · decide
  · exact hv c hc

theorem headerLine_turn {h : List UInt8 × List UInt8} (hk : ∀ c ∈ h.1, Plain c ∧ c ≠ asc ':') (hv : ∀ c ∈ h.2, Plain c)
    (f : Fields) (a rest : Buf) :
    ∃ g b,
      turn strtoul
          ⟨f, .headerLines, a.length, a ++ (headerLine h ++ (lineEnd ++ rest)), a.length + (headerLine h).length⟩ =
        (.more,
          ⟨g, .headerLines, a.length + (headerLine h).length + 2, b ++ rest, a.length + (headerLine h).length + 2⟩) ∧
      b.length = a.length + (headerLine h).length + 2 ∧ g.hdrs ≠ [] ∧
      (f.Below a.length → g.Below (a.length + (headerLine h).length)) := by
  obtain ⟨l, hl⟩ : ∃ l, l = headerLine h := ⟨_, rfl⟩
  have hplain : ∀ c ∈ l, Plain c := hl ▸ headerLine_plain hk hv
  have hne : 0 < l.length := by
    rw [hl, headerLine, List.length_append, List.length_cons]
    omega
  rw [← hl]
  have hj : (a ++ l ++ [0, 0])[a.length + l.length]? = some 0 := by simp
  obtain ⟨g, b, h1, hlen, hbelow, -⟩ := parseHeader_append strtoul f hj (Nat.le_add_right _ _)
  refine ⟨g, b, turn_headerLine strtoul hne h1 rest, by simpa [Nat.add_assoc] using hlen, ?_,
    fun h => hbelow (h.mono (Nat.le_add_right _ _))⟩
  · -- the colon is found unless there are too many headers already
    have hcol : strchr (a ++ l ++ [0, 0]) a.length (asc ':') = some (a.length + h.1.length) :=
      strchr_line (fun c hc => (hplain c hc).1) (fun d hd => (hk d hd).2) hl a [0]
    have hg : g = (parseHeader strtoul f (a ++ l ++ [0, 0]) a.length).1 := by rw [h1]
    rw [hg, parseHeader]
    by_cases hmax : f.hdrs.length ≥ HTTP_MAXHDR
    · rw [if_pos hmax]
      intro hnil
      have hnil' : f.hdrs = [] := hnil
      simp [hnil', HTTP_MAXHDR] at hmax
    · rw [if_neg hmax, hcol]
      simp

theorem emptyLine_turn (f : Fields) (a rest : Buf) :
    turn strtoul ⟨f, .headerLines, a.length, a ++ (lineEnd ++ rest), a.length⟩ =
      (if f.upgrade then .upgrade else .headers, ⟨f, .headerLines, a.length, a ++ 0 :: 0 :: rest, a.length + 2⟩) := by
  have hcut : cut (a ++ (lineEnd ++ rest)) a.length = a ++ 0 :: 0 :: rest := cut_line a rest _ _
  have hcr : crlf (a ++ (lineEnd ++ rest)) a.length := crlf_line a rest
  rw [turn, if_pos hcr]
  simp only [if_true, hcut]

theorem length_headerLines (hs : List (List UInt8 × List UInt8)) : 2 ≤ (headerLines hs).length := by
  cases hs with
  | nil => exact Nat.le_refl _
  | cons h hs =>
    rw [headerLines, List.length_append, List.length_append]
    simp only [lineEnd, List.length_cons, List.length_nil]
    omega

/-- The header lines are read up to the empty line. -/
theorem headerLines_loop (hs : List (List UInt8 × List UInt8)) (hk : ∀ h ∈ hs, ∀ c ∈ h.1, Plain c ∧ c ≠ asc ':')
    (hv : ∀ h ∈ hs, ∀ c ∈ h.2, Plain c) (f : Fields) (a : Buf) {len : Nat}
    (hlen : len = a.length + (headerLines hs).length) (hbelow : f.Below a.length) (hne : f.hdrs ≠ [] ∨ hs ≠ []) :
    ∃ g b p, feedLoop strtoul len (len - a.length) ⟨f, .headerLines, a.length, a ++ headerLines hs, a.length⟩ =
        (if g.upgrade then .upgrade else .headers, ⟨g, .headerLines, p, b, len⟩) ∧
      p + 2 = len ∧ b[p]? = some 0 ∧ g.Below p ∧ g.hdrs ≠ [] := by
  induction hs generalizing f a with
  | nil =>
    have hlen' : len = a.length + 2 := hlen
    have hturn := emptyLine_turn strtoul f a []
    rw [List.append_nil] at hturn
    refine ⟨f, a ++ [0, 0], a.length, ?_, hlen'.symm, by simp, hbelow, hne.resolve_right (by simp)⟩
    obtain ⟨m, hm⟩ : ∃ m, len - a.length = m + 1 := ⟨1, by omega⟩
    rw [hm, headerLines, feedLoop_stop strtoul (show a.length + 1 < len by omega) ?_ hturn, hlen']
    split <;> simp
  | cons h hs ih =>
    have hk' := hk h (List.mem_cons_self ..)
    have hv' := hv h (List.mem_cons_self ..)
    have hlen' : len = a.length + (headerLine h).length + 2 + (headerLines hs).length := by
      rw [hlen, headerLines, List.length_append, List.length_append]
      simp only [lineEnd, List.length_cons, List.length_nil]
      omega
    have hpos := length_headerLines hs
    obtain ⟨g, b, hturn, hb, hg, hgb⟩ := headerLine_turn strtoul hk' hv' f a (headerLines hs)
    have hscan := scan_whole strtoul len (a := a) (fun c hc => (headerLine_plain hk' hv' c hc).2.1)
      (s := ⟨f, .headerLines, a.length, a ++ headerLines (h :: hs), a.length⟩) rfl rfl (by simp only; omega)
    have hloop := loop_turn strtoul len
      (s := ⟨f, .headerLines, a.length, a ++ headerLines (h :: hs), a.length + (headerLine h).length⟩)
        (by simp only; omega) hturn
    obtain ⟨g', b', p, h1, h2, h3, h4, h5⟩ := ih (fun x hx => hk x (List.mem_cons_of_mem _ hx))
      (fun x hx => hv x (List.mem_cons_of_mem _ hx)) g b (by rw [hb]; exact hlen') (hb ▸ (hgb hbelow).mono (by omega))
        (.inl hg)
    refine ⟨g', b', p, ?_, h2, h3, h4, h5⟩
    rw [hb] at h1
    exact hscan.trans (hloop.trans h1)

theorem length_bytes (r : Request) : r.bytes.length = r.requestLine.length + 2 +
    (headerLines (r.first :: r.others)).length := by
  rw [Request.bytes, List.length_append, List.length_append]
  simp only [lineEnd, List.length_cons, List.length_nil]
  omega

theorem firstEnd_le (r : Request) : r.firstEnd ≤ r.bytes.length := by
  rw [Request.firstEnd, length_bytes, headerLines, List.length_append, List.length_append]
  simp only [lineEnd, List.length_cons, List.length_nil]
  omega

/-- The request line is read. -/
theorem requestLine_loop (r : Request) {len : Nat} (hlen : r.requestLine.length + 2 ≤ len) :
    ∃ g b, feedLoop strtoul len (len - 0) ⟨init.toFields, .requestLine, 0, r.bytes, 0⟩ =
        feedLoop strtoul len (len - (r.requestLine.length + 2))
          ⟨g, .headerLines, r.requestLine.length + 2, b ++ headerLines (r.first :: r.others),
          r.requestLine.length + 2⟩ ∧
      b.length = r.requestLine.length + 2 ∧ g.hdrs = [] ∧ g.Below r.requestLine.length := by
  have hinit : init.toFields.Below 0 := ⟨by simp [init], by simp [init], by simp [init], by simp [init], by simp [init]⟩
  obtain ⟨g, b, hturn, hb, hhdrs, hgb⟩ := requestLine_turn strtoul r init.toFields (headerLines (r.first :: r.others))
  refine ⟨g, b, ?_, hb, hhdrs, hgb hinit⟩
  have hscan := scan_whole strtoul len (a := []) (fun c hc => (r.requestLine_plain c hc).2.1)
    (s := ⟨init.toFields, .requestLine, 0, r.bytes, 0⟩) rfl rfl (by simp only; omega)
  have hloop := loop_turn strtoul len
    (s := ⟨init.toFields, .requestLine, 0, r.bytes, r.requestLine.length⟩) (by simp only; omega) hturn
  simp only [Nat.zero_add] at hscan
  exact hscan.trans hloop

/-- A well-formed request is accepted whole, with at least one header and with strings that end inside it. -/
theorem feed_request (r : Request) :
    ∃ g b offset p, feed strtoul init r.bytes r.bytes.length =
        ⟨if g.upgrade then .upgrade else .headers, r.bytes.length, ⟨g, .headerLines, offset, p⟩, b⟩ ∧
      b[p]? = some 0 ∧ g.Below p ∧ g.hdrs ≠ [] := by
  have hlen := length_bytes r
  have hle : r.requestLine.length + 2 ≤ r.bytes.length := by omega
  obtain ⟨g, b, hloop, hb, -, hgb⟩ := requestLine_loop strtoul r hle
  have hlen' : r.bytes.length = b.length + (headerLines (r.first :: r.others)).length := by rw [hb, hlen]
  have hgb' : g.Below b.length := hgb.mono (by omega)
  obtain ⟨g', b', p, h1, h2, h3, h4, h5⟩ :=
    headerLines_loop strtoul (r.first :: r.others) r.keys r.values g b hlen' hgb'
    (.inr (by simp))
  rw [hb] at h1
  exact ⟨g', b', _, p, feed_of_loop strtoul (r := init) (hloop.trans h1), h3, h4, h5⟩

/-- No header is counted before the end of the first header line. -/
theorem feed_short (r : Request) {k : Nat} (hk : k < r.firstEnd) :
    (feed strtoul init (r.bytes.take k) k).stat = .more ∧ (feed strtoul init (r.bytes.take k) k).req.hdrs = [] := by
  have hkl := hk.le.trans (firstEnd_le r)
  have hlen : (r.bytes.take k).length = k := by
    rw [List.length_take]
    omega
  -- the bytes that are still to come do not matter
  obtain ⟨-, -, hwhole⟩ := feed_append strtoul (r := init) (Nat.le_refl 0) (r.bytes.take k) (r.bytes.drop k)
  rw [List.take_append_drop, hlen] at hwhole
  have hloop : ∃ s, feedLoop strtoul k (k - 0) ⟨init.toFields, .requestLine, 0, r.bytes, 0⟩ = (.more, s) ∧
    s.fields.hdrs = [] := by
    by_cases hline : r.requestLine.length + 2 ≤ k
    · obtain ⟨g, b, hloop, hb, hg, -⟩ := requestLine_loop strtoul r hline
      rw [Request.firstEnd] at hk
      obtain ⟨x, hx⟩ := scan_short strtoul k (a := b) (l := headerLine r.first)
        (fun c hc => (headerLine_plain (r.keys _ (List.mem_cons_self ..)) (r.values _ (List.mem_cons_self ..)) c
          hc).2.1)
        (s := ⟨g, .headerLines, r.requestLine.length + 2, b ++ headerLines (r.first :: r.others),
          r.requestLine.length + 2⟩) rfl
        hb.symm (by simp only; omega)
      exact ⟨_, hloop.trans hx, hg⟩
    · obtain ⟨x, hx⟩ := scan_short strtoul k (a := []) (fun c hc => (r.requestLine_plain c hc).2.1)
        (s := ⟨init.toFields, .requestLine, 0, r.bytes, 0⟩) rfl rfl (by simp only; omega)
      exact ⟨_, hx, rfl⟩
  obtain ⟨s, hs, hhdrs⟩ := hloop
  rw [feed_of_loop strtoul (r := init) hs] at hwhole
  have hstat := congrArg Answer.stat hwhole
  have hreq := congrArg Answer.req hwhole
  simp only at hstat hreq
  rw [← hstat, ← hreq]
  exact ⟨rfl, hhdrs⟩

end Turns

end JACLibc.Http
