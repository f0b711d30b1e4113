import JACLibc.Net.Inet

/-!
# What `inet_pton` reads

A text for `__jacl_pton_ip6` is a sequence of words, single colons that say nothing, gaps `::` and possibly an
embedded IPv4 address at the end.  `Reads p l` is that view of a text, without the array and its index: `l` is the
layout that `p` has.  What the loop does on a text depends on its layout only (`Reads.loop`), and on a text without a
layout it returns 0 (`exists_reads`).
-/

namespace JACLibc.Inet

inductive Layout
  | stop
  | embedded (a b : UInt16)
  | gap (rest : Layout)
  | word (v : UInt16) (rest : Layout)
  deriving DecidableEq

inductive Reads : List UInt8 → Layout → Prop
  | stop : Reads [] .stop
  | gap {p : List UInt8} {l : Layout} (rest : Reads p l) : Reads (asc ':' :: asc ':' :: p) (.gap l)
  | colon {p : List UInt8} {l : Layout} (hp : deref p ≠ asc ':') (rest : Reads p l) : Reads (asc ':' :: p) l
  | embedded {c : UInt8} {p : List UInt8} {q : UInt16 × UInt16} (hc : isdigit c) (hdot : asc '.' ∈ c :: p)
      (hq : embeddedIp4 (c :: p) = some q) : Reads (c :: p) (.embedded q.1 q.2)
  | word {c : UInt8} {p : List UInt8} {l : Layout} (hc : isxdigit c) (hplain : ¬(isdigit c ∧ asc '.' ∈ c :: p))
      (hval : (strtoul (c :: p) 16).val ≤ 0xffff) (rest : Reads ((c :: p).drop (strtoul (c :: p) 16).endptr) l) :
      Reads (c :: p) (.word (strtoul (c :: p) 16).val.toUInt16 l)

/-- The loop on a layout. -/
def Layout.run : Layout → Scratch → Outcome
  | .stop, s => .done s
  | .embedded a b, s =>
    if s.comp = none ∧ s.i ≠ 6 then .reject
    else
      match (s.store a).bind fun s => s.store b with
      | none => .overrun
      | some s => .done s
  | .gap l, s => if s.comp.isSome then .reject else l.run { s with comp := some s.i }
  | .word v l, s =>
    if 8 ≤ s.i then .reject
    else
      match s.store v with
      | none => .overrun
      | some s => l.run s

private theorem isdigit_ne_colon {c : UInt8} (h : isdigit c) : c ≠ asc ':' := by
  rintro rfl
  exact absurd h (by decide)

private theorem isxdigit_ne_colon {c : UInt8} (h : isxdigit c) : c ≠ asc ':' := by
  rintro rfl
  exact absurd h (by decide)

theorem Reads.loop {p : List UInt8} {l : Layout} (h : Reads p l) : ∀ s, ptonIp6Loop p s = l.run s := by
  induction h with
  | stop =>
    intro s
    rw [ptonIp6Loop, Layout.run]
  | gap _ ih =>
    intro s
    rw [ptonIp6Loop, if_pos rfl, deref_cons, if_pos rfl, Layout.run, List.tail_cons, ih]
  | colon hp _ ih =>
    intro s
    rw [ptonIp6Loop, if_pos rfl, if_neg hp, ih]
  | embedded hc hdot hq =>
    intro s
    rw [ptonIp6Loop, if_neg (isdigit_ne_colon hc), if_pos ⟨hc, hdot⟩, hq]
    rfl
  | word hc hplain hval _ ih =>
    intro s
    rw [ptonIp6Loop, if_neg (isxdigit_ne_colon hc), if_neg hplain, if_neg (by simpa using hc), Layout.run]
    by_cases hi : 8 ≤ s.i
    · simp only [hi, or_true, if_true]
    · simp only [hi, or_false, if_neg (Nat.not_lt.2 hval), if_false]
      split
      · rename_i hstore
        rw [hstore]
      · rename_i hstore
        rw [hstore, ih]

theorem Scratch.store_eq {s : Scratch} (hw : s.w.length = 8) (hi : s.i < 8) (v : UInt16) :
    s.store v = some { s with w := s.w.set s.i v, i := s.i + 1 } := by
  rw [store, if_pos (by omega)]

theorem Scratch.store_none {s : Scratch} (hw : s.w.length = 8) (hi : 8 ≤ s.i) (v : UInt16) : s.store v = none := by
  rw [store, if_neg (by omega)]

theorem exists_reads {p : List UInt8} {s : Scratch} (hw : s.w.length = 8) (h : ptonIp6Loop p s ≠ .reject) :
    ∃ l, Reads p l := by
  induction p, s using ptonIp6Loop.induct with
  | case1 s => exact ⟨_, .stop⟩
  | case2 s rest hcolon hcomp =>
    exact absurd (by rw [ptonIp6Loop, if_pos rfl, if_pos hcolon, if_pos hcomp]) h
  | case3 s rest hcolon hcomp ih =>
    rw [ptonIp6Loop, if_pos rfl, if_pos hcolon, if_neg hcomp] at h
    obtain ⟨l, hl⟩ := ih hw h
    cases rest with
    | nil => exact absurd hcolon (by decide)
    | cons c rest =>
      rw [deref_cons] at hcolon
      subst hcolon
      exact ⟨_, .gap hl⟩
  | case4 s rest hcolon ih =>
    rw [ptonIp6Loop, if_pos rfl, if_neg hcolon] at h
    obtain ⟨l, hl⟩ := ih hw h
    exact ⟨l, .colon hcolon hl⟩
  | case5 s c rest hcolon hdot hq =>
    exact absurd (by rw [ptonIp6Loop, if_neg hcolon, if_pos hdot, hq]) h
  | case6 s c rest hcolon hdot q hq => exact ⟨_, .embedded hdot.1 hdot.2 hq⟩
  | case7 s c rest hcolon hdot q hq => exact ⟨_, .embedded hdot.1 hdot.2 hq⟩
  | case8 s c rest hcolon hdot q hq => exact ⟨_, .embedded hdot.1 hdot.2 hq⟩
  | case9 s c rest hcolon hdot hx =>
    exact absurd (by rw [ptonIp6Loop, if_neg hcolon, if_neg hdot, if_pos hx]) h
  | case10 s c rest hcolon hdot hx n hn =>
    exact absurd (by rw [ptonIp6Loop, if_neg hcolon, if_neg hdot, if_neg hx, if_pos hn]) h
  | case11 s c rest hcolon hdot hx n hn hstore =>
    rw [not_or, Nat.not_le] at hn
    rw [s.store_eq hw hn.2] at hstore
    cases hstore
  | case12 s c rest hcolon hdot hx n hn s' hstore ih =>
    have hw' : s'.w.length = 8 := by
      rw [not_or, Nat.not_le] at hn
      rw [s.store_eq hw hn.2] at hstore
      cases hstore
      rw [List.length_set, hw]
    have hloop : ptonIp6Loop (c :: rest) s = ptonIp6Loop ((c :: rest).drop n.endptr) s' := by
      rw [ptonIp6Loop, if_neg hcolon, if_neg hdot, if_neg hx, if_neg hn]
      split
      · rename_i hnone
        rw [hstore] at hnone
        cases hnone
      · rename_i s₂ hsome
        rw [hstore] at hsome
        cases hsome
        rfl
    rw [hloop] at h
    obtain ⟨l, hl⟩ := ih hw' h
    rw [not_or, Nat.not_lt] at hn
    exact ⟨_, .word (not_not.1 hx) hdot hn.1 hl⟩

/-! ### The layouts that leave the array -/

/-- The words `ws` in front of `l`. -/
def Layout.words (ws : List UInt16) (l : Layout) : Layout := ws.foldr .word l

/-- One gap, with at most eight words around it, and either a word in front of it or seven words and an embedded
address behind it. -/
def Layout.Overruns (l : Layout) : Prop :=
  ∃ (xs ys : List UInt16) (tail : Layout), l = .words xs (.gap (.words ys tail)) ∧ xs.length + ys.length ≤ 8 ∧
    (tail = .stop ∧ xs ≠ [] ∨ ∃ a b, tail = .embedded a b ∧ (xs ≠ [] ∨ 7 ≤ ys.length))

/-- A layout is words and then something else. -/
theorem Layout.exists_words (l : Layout) :
    ∃ (ws : List UInt16) (tail : Layout), l = .words ws tail ∧ ∀ v rest, tail ≠ .word v rest := by
  induction l with
  | stop => exact ⟨[], .stop, rfl, fun v rest h => by cases h⟩
  | embedded a b => exact ⟨[], .embedded a b, rfl, fun v rest h => by cases h⟩
  | gap rest => exact ⟨[], .gap rest, rfl, fun v rest h => by cases h⟩
  | word v rest ih =>
    obtain ⟨ws, tail, rfl, htail⟩ := ih
    exact ⟨v :: ws, tail, rfl, htail⟩

/-- The words are stored one after another, and the ninth is refused. -/
theorem Layout.run_words (l : Layout) {ws : List UInt16} : ∀ {s : Scratch}, s.w.length = 8 → s.i ≤ 8 →
    (Layout.words ws l).run s =
      if s.i + ws.length ≤ 8 then l.run { s with w := Buffer.write s.w s.i ws, i := s.i + ws.length } else .reject := by
  induction ws with
  | nil =>
    intro s hw hi
    simp only [List.length_nil, Nat.add_zero, if_pos hi]
    rfl
  | cons v ws ih =>
    intro s hw hi
    rw [show Layout.words (v :: ws) l = .word v (.words ws l) from rfl, Layout.run]
    by_cases h8 : 8 ≤ s.i
    · rw [if_pos h8, if_neg (by rw [List.length_cons]; omega)]
    · rw [if_neg h8, s.store_eq hw (by omega)]
      show (Layout.words ws l).run _ = _
      rw [ih (by rw [List.length_set, hw]) (by show s.i + 1 ≤ 8; omega)]
      simp only [List.length_cons, Buffer.write]
      rw [show s.i + 1 + ws.length = s.i + (ws.length + 1) by omega]

/-- An embedded address behind at most six words is stored, behind more it leaves the array. -/
theorem Layout.run_embedded {s : Scratch} (hw : s.w.length = 8) (hs : s.comp = none → s.i = 6) (a b : UInt16) :
    (Layout.embedded a b).run s =
      if s.i ≤ 6 then .done { s with w := Buffer.write s.w s.i [a, b], i := s.i + 2 } else .overrun := by
  rw [Layout.run, if_neg fun h => h.2 (hs h.1)]
  by_cases h6 : s.i ≤ 6
  · rw [if_pos h6, s.store_eq hw (by omega), Option.bind_some,
      Scratch.store_eq (by simpa using hw) (by show s.i + 1 < 8; omega)]
    rfl
  · rw [if_neg h6]
    by_cases h7 : s.i = 7
    · rw [s.store_eq hw (by omega), Option.bind_some,
        Scratch.store_none (by simpa using hw) (by show 8 ≤ s.i + 1; omega)]
    · rw [Scratch.store_none hw (by omega)]
      rfl

/-! ### The gap filled -/

/-- What `memmove` and `memset` make of the words. -/
def Scratch.expand (s : Scratch) (comp : Nat) : Option (List UInt16) :=
  (moveWords s.w (comp + (8 - s.i : Int)) s.i).bind fun w => clearWords w comp (8 - s.i : Int)

theorem Scratch.expand_zero {s : Scratch} (hw : s.w.length = 8) (hi : s.i ≤ 8) :
    s.expand 0 = some (List.replicate (8 - s.i) 0 ++ s.w.take s.i) := by
  have hfront : (s.w.take (8 - s.i)).length = 8 - s.i := by
    rw [List.length_take]
    omega
  have hmove : Buffer.write s.w (8 - s.i) (s.w.take s.i) = s.w.take (8 - s.i) ++ s.w.take s.i := by
    have hlen : (s.w.take s.i).length = (s.w.drop (8 - s.i)).length := by
      rw [List.length_take, List.length_drop]
      omega
    have hwrite := @Buffer.write_front _ (s.w.take (8 - s.i)) _ _ hlen.le
    rw [List.take_append_drop, hfront, hlen, List.drop_length, List.append_nil] at hwrite
    exact hwrite
  have hclear : Buffer.write (s.w.take (8 - s.i) ++ s.w.take s.i) 0 (List.replicate (8 - s.i) 0) =
      List.replicate (8 - s.i) 0 ++ s.w.take s.i :=
    @Buffer.write_append _ (List.replicate (8 - s.i) 0) [] (s.w.take (8 - s.i)) (s.w.take s.i)
      (by rw [hfront, List.length_replicate])
  have hlen : (s.w.take (8 - s.i) ++ s.w.take s.i).length = 8 := by
    rw [List.length_append, hfront, List.length_take]
    omega
  have hzeros : (8 - s.i : Int).toNat = 8 - s.i := by omega
  rw [expand, moveWords, if_pos (by omega), Option.bind_some, Nat.cast_zero, zero_add, hzeros, hmove, clearWords,
    if_pos (by rw [hlen]; omega), hzeros, hclear]

/-- A word in front of the gap makes the move end behind the array. -/
theorem Scratch.expand_pos {s : Scratch} (hw : s.w.length = 8) {comp : Nat} (hcomp : 0 < comp) :
    s.expand comp = none := by
  rw [expand, moveWords, if_neg (by omega)]
  rfl

/-! ### The whole function -/

/-- `__jacl_pton_ip6` behind its loop. -/
def Outcome.result (dst : Nat) (mem : Mem) : Outcome → Option (Int × Mem)
  | .overrun => none
  | .reject => some (0, mem)
  | .done s =>
    match s.comp with
    | some comp => (s.expand comp).map fun w => (1, storeBytes mem dst (wordBytes w))
    | none => if s.i ≠ 8 then some (0, mem) else some (1, storeBytes mem dst (wordBytes s.w))

theorem ptonIp6_eq (p : List UInt8) (dst : Nat) (mem : Mem) :
    ptonIp6 p dst mem = (ptonIp6Loop p .init).result dst mem := by
  unfold ptonIp6 Outcome.result
  rfl

theorem Outcome.result_gap {s : Scratch} {comp : Nat} (h : s.comp = some comp) (dst : Nat) (mem : Mem) :
    (Outcome.done s).result dst mem = (s.expand comp).map fun w => (1, storeBytes mem dst (wordBytes w)) := by
  simp only [result, h]

theorem Outcome.result_no_gap {s : Scratch} (h : s.comp = none) (dst : Nat) (mem : Mem) :
    (Outcome.done s).result dst mem ≠ none := by
  simp only [result, h]
  split <;> simp

/-- The scratch array after the words `xs`, a gap and the words `ys`. -/
private def gapped (xs ys : List UInt16) : Scratch :=
  ⟨Buffer.write (Buffer.write (List.replicate 8 0) 0 xs) xs.length ys, xs.length + ys.length, some xs.length⟩

private theorem run_gapped {xs ys : List UInt16} (h : xs.length + ys.length ≤ 8) (tail : Layout) :
    (Layout.words xs (.gap (.words ys tail))).run .init = tail.run (gapped xs ys) := by
  rw [Layout.run_words _ (by rfl) (by decide), if_pos (by show 0 + xs.length ≤ 8; omega), Layout.run,
    if_neg (by simp [Scratch.init]), Layout.run_words _ (by rw [Buffer.length_write]; rfl)
    (by show 0 + xs.length ≤ 8; omega), if_pos (by show 0 + xs.length + ys.length ≤ 8; omega)]
  simp only [Scratch.init, gapped, Nat.zero_add]

private theorem length_gapped (xs ys : List UInt16) : (gapped xs ys).w.length = 8 := by
  rw [gapped, Buffer.length_write, Buffer.length_write, List.length_replicate]

private theorem run_too_many {xs ys : List UInt16} (h : ¬xs.length + ys.length ≤ 8) (tail : Layout) :
    (Layout.words xs (.gap (.words ys tail))).run .init = .reject := by
  rw [Layout.run_words _ (by rfl) (by decide)]
  split
  · rename_i hxs
    rw [Layout.run, if_neg (by simp [Scratch.init]), Layout.run_words _ (by rw [Buffer.length_write]; rfl) hxs,
      if_neg (by show ¬0 + xs.length + ys.length ≤ 8; omega)]
  · rfl

/-- The array is left behind a gap and the words `ys`: what `tail` decides. -/
private theorem gapped_overrun {xs ys : List UInt16} {tail : Layout}
    (htail : tail = .stop ∧ xs ≠ [] ∨ ∃ a b, tail = .embedded a b ∧ (xs ≠ [] ∨ 7 ≤ ys.length)) (dst : Nat) (mem : Mem) :
    (tail.run (gapped xs ys)).result dst mem = none := by
  rcases htail with ⟨rfl, hxs⟩ | ⟨a, b, rfl, hlong⟩
  · rw [Layout.run, Outcome.result_gap rfl, Scratch.expand_pos (length_gapped xs ys) (List.length_pos_of_ne_nil hxs)]
    rfl
  · rw [Layout.run_embedded (length_gapped xs ys) (fun hnone => by cases hnone)]
    by_cases h6 : xs.length + ys.length ≤ 6
    · have hxs : xs ≠ [] := by
        rcases hlong with hxs | hys
        · exact hxs
        · omega
      rw [if_pos (show (gapped xs ys).i ≤ 6 from h6), Outcome.result_gap rfl,
        Scratch.expand_pos (by rw [Buffer.length_write, length_gapped]) (List.length_pos_of_ne_nil hxs)]
      rfl
    · rw [if_neg (show ¬(gapped xs ys).i ≤ 6 from h6)]
      rfl

/-- Only so. -/
private theorem gapped_fits {xs ys : List UInt16} (h : xs.length + ys.length ≤ 8) {tail : Layout}
    (hword : ∀ v rest, tail ≠ .word v rest) {dst : Nat} {mem : Mem}
    (hnone : (tail.run (gapped xs ys)).result dst mem = none) :
    tail = .stop ∧ xs ≠ [] ∨ ∃ a b, tail = .embedded a b ∧ (xs ≠ [] ∨ 7 ≤ ys.length) := by
  have hlen := length_gapped xs ys
  cases tail with
  | stop =>
    refine .inl ⟨rfl, ?_⟩
    rintro rfl
    rw [Layout.run, Outcome.result_gap rfl, List.length_nil, Scratch.expand_zero hlen h] at hnone
    cases hnone
  | embedded a b =>
    refine .inr ⟨a, b, rfl, ?_⟩
    by_contra hshort
    rw [not_or, not_not, Nat.not_le] at hshort
    obtain ⟨rfl, hys⟩ := hshort
    have h6 : (gapped [] ys).i ≤ 6 := by
      show 0 + ys.length ≤ 6
      omega
    rw [Layout.run_embedded hlen (fun hcomp => by cases hcomp), if_pos h6, Outcome.result_gap rfl, List.length_nil,
      Scratch.expand_zero (by rw [Buffer.length_write, hlen]) (by show (gapped [] ys).i + 2 ≤ 8; omega)] at hnone
    cases hnone
  | gap rest =>
    rw [Layout.run, if_pos (show (gapped xs ys).comp.isSome = true from rfl)] at hnone
    cases hnone
  | word v rest => exact absurd rfl (hword v rest)

/-- Without a gap nothing is moved. -/
private theorem ungapped_fits {xs : List UInt16} {tail : Layout} (htail : tail = .stop ∨ ∃ a b, tail = .embedded a b)
    (dst : Nat) (mem : Mem) : ((Layout.words xs tail).run .init).result dst mem ≠ none := by
  rw [Layout.run_words _ (by rfl) (by decide)]
  split
  · rcases htail with rfl | ⟨a, b, rfl⟩
    · exact Outcome.result_no_gap rfl dst mem
    · by_cases h6 : Scratch.init.i + xs.length = 6
      · rw [Layout.run_embedded (by rw [Buffer.length_write]; rfl) (fun _ => h6), if_pos h6.le]
        exact Outcome.result_no_gap rfl dst mem
      · rw [Layout.run, if_pos ⟨rfl, h6⟩]
        simp [Outcome.result]
  · simp [Outcome.result]

/-- Eight words. -/
theorem Layout.result_words {ws : List UInt16} (h : ws.length = 8) (dst : Nat) (mem : Mem) :
    ((Layout.words ws .stop).run .init).result dst mem = some (1, storeBytes mem dst (wordBytes ws)) := by
  have hwrite : Buffer.write (List.replicate 8 0) 0 ws = ws := by
    have := @Buffer.write_append _ ws [] (List.replicate 8 0) [] (by rw [List.length_replicate, h])
    simpa using this
  rw [Layout.run_words _ (by rfl) (by decide), if_pos (by rw [h]; decide)]
  simp only [Layout.run, Outcome.result, Scratch.init, Nat.zero_add, h, hwrite]
  rfl

/-- A gap in front of the words. -/
theorem Layout.result_leading_gap {ys : List UInt16} (h : ys.length ≤ 8) (dst : Nat) (mem : Mem) :
    ((Layout.words [] (.gap (.words ys .stop))).run .init).result dst mem =
      some (1, storeBytes mem dst (wordBytes (List.replicate (8 - ys.length) 0 ++ ys))) := by
  have hwrite : (gapped [] ys).w.take ys.length = ys := by
    have := @Buffer.write_front _ [] (List.replicate 8 (0 : UInt16)) ys (by rw [List.length_replicate]; exact h)
    rw [gapped, List.length_nil, Buffer.write]
    simp only [List.nil_append, List.length_nil] at this
    rw [this, List.take_left]
  have hi : (gapped [] ys).i = ys.length := Nat.zero_add _
  rw [run_gapped (by simpa using h), Layout.run, Outcome.result_gap rfl, List.length_nil,
    Scratch.expand_zero (length_gapped [] ys) (by omega), hi, hwrite]
  rfl

theorem Layout.run_overruns (l : Layout) (dst : Nat) (mem : Mem) :
    (l.run .init).result dst mem = none ↔ l.Overruns := by
  constructor
  · intro h
    obtain ⟨xs, tail, rfl, hword⟩ := l.exists_words
    cases tail with
    | word v rest => exact absurd rfl (hword v rest)
    | stop => exact absurd h (ungapped_fits (.inl rfl) dst mem)
    | embedded a b => exact absurd h (ungapped_fits (.inr ⟨a, b, rfl⟩) dst mem)
    | gap rest =>
      obtain ⟨ys, tail, rfl, htail⟩ := rest.exists_words
      by_cases hcount : xs.length + ys.length ≤ 8
      · rw [run_gapped hcount] at h
        exact ⟨xs, ys, tail, rfl, hcount, gapped_fits hcount htail h⟩
      · rw [run_too_many hcount] at h
        cases h
  · rintro ⟨xs, ys, tail, rfl, hcount, htail⟩
    rw [run_gapped hcount]
    exact gapped_overrun htail dst mem

/-- `__jacl_pton_ip6` leaves its array on the texts of such a layout only. -/
theorem ptonIp6_eq_none (p : List UInt8) (dst : Nat) (mem : Mem) :
    ptonIp6 p dst mem = none ↔ ∃ l, Reads p l ∧ l.Overruns := by
  rw [ptonIp6_eq]
  constructor
  · intro h
    have hreject : ptonIp6Loop p .init ≠ .reject := by
      intro hreject
      rw [hreject] at h
      cases h
    obtain ⟨l, hl⟩ := exists_reads rfl hreject
    rw [hl.loop] at h
    exact ⟨l, hl, (l.run_overruns dst mem).1 h⟩
  · rintro ⟨l, hl, hover⟩
    rw [hl.loop]
    exact (l.run_overruns dst mem).2 hover

/-! ### The layouts that are taken -/

/-- How many groups of an address a layout without gaps stands for. -/
def Layout.groups : Layout → Option Nat
  | .stop => some 0
  | .embedded _ _ => some 2
  | .gap _ => none
  | .word _ l => l.groups.map (· + 1)

/-- Eight groups, or at most eight behind a gap. -/
def Layout.Fits (l : Layout) : Prop := l.groups = some 8 ∨ ∃ rest n, l = .gap rest ∧ rest.groups = some n ∧ n ≤ 8

theorem storeBytes_frame (mem : Mem) (dst : Nat) {bs : List UInt8} {x : Nat} (h : x < dst ∨ dst + bs.length ≤ x) :
    storeBytes mem dst bs x = mem x := by
  unfold storeBytes
  split
  · rw [List.getElem?_eq_none (by omega)]
    rfl
  · rfl

theorem length_wordBytes (w : List UInt16) : (wordBytes w).length = 2 * w.length := by
  induction w with
  | nil => rfl
  | cons x w ih =>
    rw [wordBytes, List.flatMap_cons, List.length_append, ← wordBytes, ih]
    simp only [List.length_cons, List.length_nil]
    omega

private theorem Scratch.store_length {s s' : Scratch} {v : UInt16} (h : s.store v = some s') :
    s'.w.length = s.w.length := by
  unfold store at h
  split at h
  · cases h
    exact List.length_set
  · cases h

private theorem Scratch.expand_length {s : Scratch} {comp : Nat} {w : List UInt16} (h : s.expand comp = some w) :
    w.length = s.w.length := by
  obtain ⟨w', hmove, hclear⟩ := Option.bind_eq_some_iff.1 h
  unfold moveWords at hmove
  unfold clearWords at hclear
  split at hmove
  · split at hclear
    · cases hmove
      cases hclear
      rw [Buffer.length_write, Buffer.length_write]
    · cases hclear
  · cases hmove

/-- The array keeps its length. -/
private theorem Layout.run_length {l : Layout} : ∀ {s s' : Scratch}, l.run s = .done s' → s'.w.length = s.w.length := by
  induction l with
  | stop =>
    intro s s' h
    cases h
    rfl
  | embedded a b =>
    intro s s' h
    rw [run] at h
    split at h
    · cases h
    · split at h
      · cases h
      · rename_i s₂ hstore
        cases h
        obtain ⟨s₁, h₁, h₂⟩ := Option.bind_eq_some_iff.1 hstore
        rw [Scratch.store_length h₂, Scratch.store_length h₁]
  | gap rest ih =>
    intro s s' h
    rw [run] at h
    split at h
    · cases h
    · have hlen := ih h
      exact hlen
  | word v rest ih =>
    intro s s' h
    rw [run] at h
    split at h
    · cases h
    · split at h
      · cases h
      · rename_i s₁ hstore
        rw [ih h, Scratch.store_length hstore]

/-- Only the sixteen bytes of the address are written. -/
theorem ptonIp6_frame {p : List UInt8} {dst : Nat} {mem mem' : Mem} {r : Int} (h : ptonIp6 p dst mem = some (r, mem'))
    {x : Nat} (hx : x < dst ∨ dst + 16 ≤ x) : mem' x = mem x := by
  rw [ptonIp6_eq] at h
  cases hloop : ptonIp6Loop p .init with
  | overrun =>
    rw [hloop] at h
    cases h
  | reject =>
    rw [hloop] at h
    cases h
    rfl
  | done s =>
    obtain ⟨l, hl⟩ := exists_reads (s := .init) rfl (by rw [hloop]; simp)
    have hlen : s.w.length = 8 := (Layout.run_length ((hl.loop .init).symm.trans hloop)).trans rfl
    have hwritten : ∀ w : List UInt16, w.length = 8 → storeBytes mem dst (wordBytes w) x = mem x := by
      intro w hw
      rw [storeBytes_frame mem dst (by rw [length_wordBytes, hw]; exact hx)]
    rw [hloop] at h
    cases hcomp : s.comp with
    | some comp =>
      rw [Outcome.result_gap hcomp] at h
      obtain ⟨w, hw, hmem⟩ := Option.map_eq_some_iff.1 h
      cases hmem
      exact hwritten w ((Scratch.expand_length hw).trans hlen)
    | none =>
      simp only [Outcome.result, hcomp] at h
      split at h
      · cases h
        rfl
      · cases h
        exact hwritten _ hlen

/-- Only the four bytes of the address are written. -/
theorem ptonIp4_frame (src : List UInt8) (dst : Nat) (mem : Mem) {x : Nat} (hx : x < dst ∨ dst + 4 ≤ x) :
    (ptonIp4 src dst mem).2 x = mem x := by
  have hloop : ∀ (left i : Nat) (src : List UInt8) (mem : Mem), 4 - i = left →
    (ptonIp4Loop dst i src mem).2 x = mem x := by
    intro left
    induction left with
    | zero =>
      intro i src mem hi
      rw [ptonIp4Loop, if_neg (by omega)]
    | succ left ih =>
      intro i src mem hi
      rw [ptonIp4Loop, if_pos (by omega)]
      generalize (if i < 3 then asc '.' else 0) = stop
      dsimp only
      split
      · rfl
      · rw [ih _ _ _ (by omega), Function.update_of_ne (by omega)]
  exact hloop 4 0 src mem rfl

end JACLibc.Inet
