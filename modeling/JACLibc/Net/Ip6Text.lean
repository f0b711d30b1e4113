import JACLibc.Net.Ip4Text
import JACLibc.Net.Pton

/-!
# IPv6 addresses as text

`Ip6Text` is the grammar of IPv6 addresses.  The texts on which `__jacl_pton_ip6` disagrees with it are of two kinds:
pieces that its loop goes over though they do not make an address (`StrayIp6`), and addresses that it does not get
through, with a group in front of `::` or with a group that begins with a decimal digit in front of an embedded IPv4
address (`LostIp6`).
-/

namespace JACLibc.Inet

/-! ### The grammar -/

/-- One to four hex digits. -/
structure IsGroup (t : List UInt8) : Prop where
  nonempty : t ≠ []
  short : t.length ≤ 4
  digits : ∀ c ∈ t, isxdigit c

/-- An IPv6 address as text: the groups in front of `::`, if there is one, the groups behind it, and an IPv4 address
for the last two. -/
structure Ip6 where
  gap : Option (List (List UInt8))
  groups : List (List UInt8)
  quad : Option (List UInt8)
  isGroup : ∀ t ∈ gap.getD [] ++ groups, IsGroup t
  isQuad : ∀ q ∈ quad, Ip4Text q
  count : if gap.isSome then (gap.getD []).length + groups.length + 2 * quad.toList.length ≤ 7
    else groups.length + 2 * quad.toList.length = 8

def Ip6.text (a : Ip6) : List UInt8 :=
  (match a.gap with
    | none => []
    | some front => joined (asc ':') front ++ [asc ':', asc ':']) ++ joined (asc ':') (a.groups ++ a.quad.toList)

/-- What the loop of `__jacl_pton_ip6` goes over in one turn. -/
inductive Piece
  | colon
  | gap
  | group (t : List UInt8)
  | dotted (t : List UInt8)
  deriving DecidableEq

/-- The loop takes the text apart into the pieces. -/
inductive Taken : List UInt8 → List Piece → Prop
  | stop : Taken [] []
  | gap {s : List UInt8} {ps : List Piece} (rest : Taken s ps) : Taken (asc ':' :: asc ':' :: s) (.gap :: ps)
  | colon {s : List UInt8} {ps : List Piece} (hs : deref s ≠ asc ':') (rest : Taken s ps) : Taken (asc ':' :: s)
    (.colon :: ps)
  | dotted {c : UInt8} {s : List UInt8} (hc : isdigit c) (hdot : asc '.' ∈ c :: s) (hq : embeddedIp4 (c :: s) ≠ none) :
    Taken (c :: s) [.dotted (c :: s)]
  | group {c : UInt8} {s : List UInt8} {ps : List Piece} (hc : isxdigit c) (hplain : ¬(isdigit c ∧ asc '.' ∈ c :: s))
    (hval : (strtoul (c :: s) 16).val ≤ 0xffff) (rest : Taken ((c :: s).drop (strtoul (c :: s) 16).endptr) ps) :
    Taken (c :: s) (.group ((c :: s).take (strtoul (c :: s) 16).endptr) :: ps)

/-- How many groups of an address the pieces stand for, where none of them is a gap. -/
def groupsOf : List Piece → Option Nat
  | [] => some 0
  | .colon :: ps => groupsOf ps
  | .gap :: _ => none
  | .group _ :: ps => (groupsOf ps).map (· + 1)
  | .dotted _ :: ps => (groupsOf ps).map (· + 2)

/-- Eight groups, or at most eight behind a gap. -/
def Fits (ps : List Piece) : Prop := groupsOf ps = some 8 ∨ ∃ rest n, ps = .gap :: rest ∧ groupsOf rest = some n ∧ n ≤ 8

/-- The pieces make an address: every group has one to four digits, an IPv4 address is one, the colons stand one by
one between two of them, and something is left for the gap to stand for. -/
structure Tidy (ps : List Piece) : Prop where
  group : ∀ t, .group t ∈ ps → IsGroup t
  dotted : ∀ t, .dotted t ∈ ps → Ip4Text t
  colon : ∃ fields : List Piece, Piece.colon ∉ fields ∧ ps.filter (· ≠ .gap) = fields.intersperse .colon
  left : ∀ rest, ps = .gap :: rest → groupsOf rest ≠ some 8

/-- A group stands in front of `::`, or a group that begins with a decimal digit in front of an IPv4 address. -/
def Ip6.Lost (a : Ip6) : Prop := a.gap.getD [] ≠ [] ∨ a.quad.isSome ∧ ∃ t ∈ a.groups, isdigit (deref t)

variable {s t : List UInt8} {ts : List (List UInt8)} {ps : List Piece}

/-! ### Pieces and layouts -/

/-- The layout and the pieces stand for the same groups. -/
private structure Matches (l : Layout) (ps : List Piece) : Prop where
  groups : l.groups = groupsOf ps
  gap : ∀ n, (∃ rest, l = .gap rest ∧ rest.groups = some n) ↔ ∃ rest, ps = .gap :: rest ∧ groupsOf rest = some n

private theorem Matches.fits {l : Layout} (h : Matches l ps) : l.Fits ↔ Fits ps := by
  have hgap := h.gap
  constructor
  · rintro (h8 | ⟨rest, n, hl, hn, hle⟩)
    · exact .inl (h.groups ▸ h8)
    · obtain ⟨rest', hps, hn'⟩ := (hgap n).1 ⟨rest, hl, hn⟩
      exact .inr ⟨rest', n, hps, hn', hle⟩
  · rintro (h8 | ⟨rest, n, hl, hn, hle⟩)
    · exact .inl (h.groups ▸ h8)
    · obtain ⟨rest', hps, hn'⟩ := (hgap n).2 ⟨rest, hl, hn⟩
      exact .inr ⟨rest', n, hps, hn', hle⟩

private theorem matches_stop : Matches .stop [] := by
  refine ⟨rfl, fun n => iff_of_false ?_ ?_⟩ <;> rintro ⟨_, h, _⟩ <;> cases h

private theorem matches_embedded (a b : UInt16) (t : List UInt8) : Matches (.embedded a b) [.dotted t] := by
  refine ⟨rfl, fun n => iff_of_false ?_ ?_⟩ <;> rintro ⟨_, h, _⟩ <;> cases h

private theorem Matches.cons_gap {l : Layout} (h : Matches l ps) : Matches (.gap l) (.gap :: ps) := by
  refine ⟨rfl, fun n => ?_⟩
  constructor
  · rintro ⟨_, hl, hn⟩
    cases hl
    exact ⟨ps, rfl, h.groups ▸ hn⟩
  · rintro ⟨_, hps, hn⟩
    cases hps
    exact ⟨l, rfl, h.groups ▸ hn⟩

private theorem Matches.cons_group {l : Layout} (h : Matches l ps) (v : UInt16) (t : List UInt8) :
    Matches (.word v l) (.group t :: ps) := by
  refine ⟨congrArg (Option.map (· + 1)) h.groups, fun n => iff_of_false ?_ ?_⟩ <;> rintro ⟨_, h, _⟩ <;> cases h

private theorem Matches.cons_colon {l : Layout} (h : Matches l ps) (hs : deref s ≠ asc ':') (hread : Reads s l) :
    Matches l (.colon :: ps) := by
  refine ⟨h.groups, fun n => iff_of_false ?_ ?_⟩
  · rintro ⟨rest, rfl, -⟩
    cases hread with
    | gap _ => exact hs rfl
    | colon _ _ => exact hs rfl
  · rintro ⟨_, h, _⟩
    cases h

private theorem Taken.reads (h : Taken s ps) : ∃ l, Reads s l ∧ Matches l ps := by
  induction h with
  | stop => exact ⟨_, .stop, matches_stop⟩
  | gap _ ih =>
    obtain ⟨l, hl, hm⟩ := ih
    exact ⟨_, .gap hl, hm.cons_gap⟩
  | colon hs _ ih =>
    obtain ⟨l, hl, hm⟩ := ih
    exact ⟨l, .colon hs hl, hm.cons_colon hs hl⟩
  | dotted hc hdot hq =>
    obtain ⟨q, hq⟩ := Option.ne_none_iff_exists'.1 hq
    exact ⟨_, .embedded hc hdot hq, matches_embedded _ _ _⟩
  | group hc hplain hval _ ih =>
    obtain ⟨l, hl, hm⟩ := ih
    exact ⟨_, .word hc hplain hval hl, hm.cons_group _ _⟩

private theorem Reads.taken {l : Layout} (h : Reads s l) : ∃ ps, Taken s ps ∧ Matches l ps := by
  induction h with
  | stop => exact ⟨_, .stop, matches_stop⟩
  | gap _ ih =>
    obtain ⟨ps, hps, hm⟩ := ih
    exact ⟨_, .gap hps, hm.cons_gap⟩
  | colon hs hl ih =>
    obtain ⟨ps, hps, hm⟩ := ih
    exact ⟨_, .colon hs hps, hm.cons_colon hs hl⟩
  | embedded hc hdot hq =>
    exact ⟨_, .dotted hc hdot (by rw [hq]; simp), matches_embedded _ _ _⟩
  | word hc hplain hval _ ih =>
    obtain ⟨ps, hps, hm⟩ := ih
    exact ⟨_, .group hc hplain hval hps, hm.cons_group _ _⟩

private theorem isDigitOf_hex {c : UInt8} (h : isxdigit c) : IsDigitOf 16 c := by
  revert h
  apply forall_byte (c := c)
  decide +kernel

private theorem isxdigit_of_isdigit {c : UInt8} (h : isdigit c) : isxdigit c := by
  unfold isxdigit
  simp [h]

private theorem isxdigit_plain {c : UInt8} (h : isxdigit c) : c ≠ asc ':' ∧ c ≠ asc '.' := by
  constructor <;> rintro rfl <;> exact absurd h (by decide)

private theorem IsGroup.noDot (h : IsGroup t) : asc '.' ∉ t := fun hdot => (isxdigit_plain (h.digits _ hdot)).2 rfl

/-- What may follow a group in an address. -/
private def Ends (s : List UInt8) : Prop := s = [] ∨ ∃ r, s = asc ':' :: r

private theorem IsGroup.strtoul (h : IsGroup t) (hs : Ends s) :
    (strtoul (t ++ s) 16).endptr = t.length ∧ (JACLibc.strtoul (t ++ s) 16).val ≤ 0xffff := by
  have hdigits := fun c hc => isDigitOf_hex (h.digits c hc)
  have hval : horner 16 0 t < 16 ^ 4 := by
    have hlt := @horner_lt 16 t 0 hdigits
    have hpow : 16 ^ t.length ≤ 16 ^ 4 := Nat.pow_le_pow_right (by decide) h.short
    omega
  have hends : EndsNumber 16 s := by
    rcases hs with rfl | ⟨r, rfl⟩
    · exact endsNumber_nil 16
    · exact endsNumber_cons (by decide) r
  obtain ⟨c, cs, rfl⟩ := List.exists_cons_of_ne_nil h.nonempty
  by_cases hzero : charVal c = 48 ∧ cs ++ s = []
  · obtain ⟨hc, hnil⟩ := hzero
    obtain ⟨rfl, rfl⟩ := List.append_eq_nil_iff.1 hnil
    obtain rfl : c = asc '0' := by
      revert hc
      apply forall_byte (c := c)
      decide +kernel
    decide +kernel
  · have hshort := h.short
    rw [List.length_cons] at hshort
    have hread := strtoul_digits (by decide) hdigits hends (fun _ hc hnil => hzero ⟨hc, hnil⟩)
      (by unfold INT_MAX; omega)
      (by unfold UINTMAX_MAX; omega)
    rw [hread]
    exact ⟨rfl, by show horner 16 0 (c :: cs) ≤ 0xffff; omega⟩

/-- A few digits, as `%u` reads them. -/
private theorem scanfLoop_digits (fuel : Nat) (fmt : List UInt8) {rest : List UInt8} (hne : t ≠ [])
    (hshort : t.length ≤ 4) (hdigits : ∀ c ∈ t, isdigit c) (hrest : EndsNumber 10 rest) (back : List UInt8)
    (read count : Int) (matched : Bool) (stored : List Nat) :
    ∃ back' read', scanfLoop (fuel + 1) (asc '%' :: asc 'u' :: fmt) ⟨⟨back, t ++ rest, read⟩, count, matched, stored⟩ =
      scanfLoop fuel fmt ⟨⟨back', rest, read'⟩, count + 1, true, stored ++ [horner 10 0 t]⟩ := by
  have hdigits' := fun c hc => isDigitOf_dec (hdigits c hc)
  have hval : horner 10 0 t < 10 ^ 4 := by
    have hlt := @horner_lt 10 t 0 hdigits'
    have hpow : 10 ^ t.length ≤ 10 ^ 4 := Nat.pow_le_pow_right (by decide) hshort
    omega
  have hmod : horner 10 0 t % 2 ^ 32 = horner 10 0 t := Nat.mod_eq_of_lt (by omega)
  obtain ⟨c, cs, rfl⟩ := List.exists_cons_of_ne_nil hne
  rw [List.length_cons] at hshort
  have hread := scanfLoop_u fuel fmt hdigits' hrest (by unfold INT_MAX; omega) (by unfold UINTMAX_MAX; omega) back
    read count matched
    stored
  rw [hmod] at hread
  exact ⟨_, _, hread⟩

private theorem scanfLoop_dot (fuel : Nat) (fmt back rest : List UInt8) (read count : Int) (matched : Bool)
    (stored : List Nat) :
    scanfLoop (fuel + 1) (asc '.' :: fmt) ⟨⟨back, asc '.' :: rest, read⟩, count, matched, stored⟩ =
      scanfLoop fuel fmt ⟨⟨asc '.' :: back, rest, read + 1⟩, count, matched, stored⟩ := by
  rw [scanfLoop, if_pos (by decide), if_neg (by decide)]
  simp only [readNext]
  rw [if_neg (by simp), if_pos (by decide)]

/-- Another character than the dot of the format ends the reading. -/
private theorem scanfLoop_no_dot (fuel : Nat) (fmt back : List UInt8) {rest : List UInt8}
    (hrest : ∀ c ∈ rest.head?, c ≠ asc '.') (read : Int) {count : Int} (hcount : count ≠ 0) (matched : Bool)
    (stored : List Nat) :
    scanfLoop (fuel + 1) (asc '.' :: fmt) ⟨⟨back, rest, read⟩, count, matched, stored⟩ = some (count, stored) := by
  have hnext : (readNext ⟨back, rest, read⟩).1 ≠ charVal (asc '.') := by
    cases rest with
    | nil => exact show EOF ≠ charVal (asc '.') by decide
    | cons c rest => exact fun h => hrest c rfl (charVal_injective h)
  rw [scanfLoop, if_pos (by decide), if_neg (by decide)]
  simp only
  rw [if_pos hnext, if_neg (fun h => hcount h.2)]

/-- A group that begins with a decimal digit is not read as an IPv4 address. -/
private theorem IsGroup.not_embedded (h : IsGroup t) (hdigit : isdigit (deref t)) (r : List UInt8) :
    embeddedIp4 (t ++ asc ':' :: r) = none := by
  have hne : t.takeWhile isdigit ≠ [] := by
    obtain ⟨c, cs, rfl⟩ := List.exists_cons_of_ne_nil h.nonempty
    rw [deref_cons] at hdigit
    rw [List.takeWhile_cons_of_pos hdigit]
    exact List.cons_ne_nil _ _
  have hhead : ∀ c ∈ (t.dropWhile isdigit ++ asc ':' :: r).head?, c = asc ':' ∨ isxdigit c ∧ ¬isdigit c := by
    intro c hc
    have hnot := List.head?_dropWhile_not isdigit t
    cases hdrop : t.dropWhile isdigit with
    | nil =>
      rw [hdrop] at hc
      exact .inl (Option.some.inj hc).symm
    | cons d ds =>
      rw [hdrop] at hc hnot
      obtain rfl : d = c := Option.some.inj hc
      have hmem : d ∈ t := (List.dropWhile_suffix isdigit).mem (by rw [hdrop]; exact List.mem_cons_self)
      exact .inr ⟨h.digits d hmem, by simpa using hnot⟩
  have hends : EndsNumber 10 (t.dropWhile isdigit ++ asc ':' :: r) := by
    intro c hc
    have hc' := hhead c hc
    revert hc'
    apply forall_byte (c := c)
    decide +kernel
  have hdot : ∀ c ∈ (t.dropWhile isdigit ++ asc ':' :: r).head?, c ≠ asc '.' := by
    intro c hc
    rcases hhead c hc with rfl | ⟨hx, -⟩
    · decide
    · exact (isxdigit_plain hx).2
  have hshort : (t.takeWhile isdigit).length ≤ 4 := (List.takeWhile_prefix isdigit).length_le.trans h.short
  obtain ⟨back, read, hnum⟩ := scanfLoop_digits 11 (lit ".%u.%u.%u") hne hshort (fun c hc =>
    List.mem_takeWhile_imp hc) hends [] 0 0 false []
  rw [← List.append_assoc, List.takeWhile_append_dropWhile] at hnum
  have hscan : sscanf (t ++ asc ':' :: r) (lit "%u.%u.%u.%u") = some (1, [horner 10 0 (t.takeWhile isdigit)]) :=
    hnum.trans (scanfLoop_no_dot 10 (lit "%u.%u.%u") back hdot read (by decide) true _)
  rw [embeddedIp4, hscan]
  rfl

/-- An IPv4 address is read. -/
private theorem Ip4Text.embedded (h : Ip4Text s) : embeddedIp4 s ≠ none := by
  obtain ⟨ts, hlen, hts, rfl⟩ := h
  obtain ⟨a, b, c, d, rfl⟩ := List.length_eq_four.1 hlen
  simp only [List.forall_mem_cons] at hts
  obtain ⟨ha, hb, hc, hd, -⟩ := hts
  have hread : ∀ {t rest : List UInt8} (fuel : Nat) (fmt : List UInt8), IsDecimal t → EndsNumber 10 rest → _ :=
    fun fuel fmt ht hrest => scanfLoop_digits fuel fmt ht.nonempty (Nat.le_succ_of_le ht.short) ht.digits hrest
  have hdot : ∀ rest, EndsNumber 10 (asc '.' :: rest) := endsNumber_cons (by decide)
  obtain ⟨k₁, n₁, h₁⟩ := hread 11 (lit ".%u.%u.%u") ha (hdot (b ++ asc '.' :: (c ++ asc '.' :: d))) [] 0 0 false []
  have h₂ := scanfLoop_dot 10 (lit "%u.%u.%u") k₁ (b ++ asc '.' :: (c ++ asc '.' :: d)) n₁ 1 true [horner 10 0 a]
  obtain ⟨k₃, n₃, h₃⟩ := hread 9 (lit ".%u.%u") hb (hdot (c ++ asc '.' :: d)) (asc '.' :: k₁) (n₁ + 1) 1 true
    [horner 10 0 a]
  have h₄ := scanfLoop_dot 8 (lit "%u.%u") k₃ (c ++ asc '.' :: d) n₃ 2 true [horner 10 0 a, horner 10 0 b]
  obtain ⟨k₅, n₅, h₅⟩ := hread 7 (lit ".%u") hc (hdot d) (asc '.' :: k₃) (n₃ + 1) 2 true [horner 10 0 a, horner 10 0 b]
  have h₆ := scanfLoop_dot 6 (lit "%u") k₅ d n₅ 3 true [horner 10 0 a, horner 10 0 b, horner 10 0 c]
  obtain ⟨k₇, n₇, h₇⟩ := hread 5 [] hd (endsNumber_nil 10) (asc '.' :: k₅) (n₅ + 1) 3 true [horner 10 0 a,
    horner 10 0 b, horner 10 0 c]
  rw [List.append_nil] at h₇
  have hscan : sscanf (joined (asc '.') [a, b, c, d]) (lit "%u.%u.%u.%u") =
      some (4, [horner 10 0 a, horner 10 0 b, horner 10 0 c, horner 10 0 d]) :=
    h₁.trans (h₂.trans (h₃.trans (h₄.trans (h₅.trans (h₆.trans (h₇.trans rfl))))))
  have hle : ¬(255 < horner 10 0 a ∨ 255 < horner 10 0 b ∨ 255 < horner 10 0 c ∨ 255 < horner 10 0 d) := by
    have := ha.le
    have := hb.le
    have := hc.le
    have := hd.le
    omega
  rw [embeddedIp4, hscan]
  simp only
  rw [if_neg hle]
  exact Option.some_ne_none _

private theorem taken_nil : Taken [] ps ↔ ps = [] := by
  constructor
  · intro h
    cases h
    rfl
  · rintro rfl
    exact .stop

private theorem taken_gap : Taken (asc ':' :: asc ':' :: s) ps ↔ ∃ rest, ps = .gap :: rest ∧ Taken s rest := by
  constructor
  · intro h
    cases h with
    | gap rest => exact ⟨_, rfl, rest⟩
    | colon hs _ => exact absurd rfl hs
    | dotted hc _ _ => exact absurd hc (by decide)
    | group hc _ _ _ => exact absurd hc (by decide)
  · rintro ⟨rest, rfl, h⟩
    exact .gap h

private theorem taken_colon (hs : deref s ≠ asc ':') : Taken (asc ':' :: s) ps ↔ ∃ rest, ps = .colon :: rest ∧
    Taken s rest := by
  constructor
  · intro h
    cases h with
    | gap _ => exact absurd rfl hs
    | colon _ rest => exact ⟨_, rfl, rest⟩
    | dotted hc _ _ => exact absurd hc (by decide)
    | group hc _ _ _ => exact absurd hc (by decide)
  · rintro ⟨rest, rfl, h⟩
    exact .colon hs h

/-- In front of a digit of base 16. -/
private theorem taken_hex {c : UInt8} (hc : isxdigit c) : Taken (c :: s) ps ↔
    isdigit c ∧ asc '.' ∈ c :: s ∧ embeddedIp4 (c :: s) ≠ none ∧ ps = [.dotted (c :: s)] ∨
    ¬(isdigit c ∧ asc '.' ∈ c :: s) ∧ (strtoul (c :: s) 16).val ≤ 0xffff ∧
      ∃ rest, ps = .group ((c :: s).take (strtoul (c :: s) 16).endptr) :: rest ∧
      Taken ((c :: s).drop (strtoul (c :: s) 16).endptr) rest := by
  constructor
  · intro h
    cases h with
    | gap _ => exact absurd rfl (isxdigit_plain hc).1
    | colon _ _ => exact absurd rfl (isxdigit_plain hc).1
    | dotted hdigit hdot hq => exact .inl ⟨hdigit, hdot, hq, rfl⟩
    | group _ hplain hval rest => exact .inr ⟨hplain, hval, _, rfl, rest⟩
  · rintro (⟨hdigit, hdot, hq, rfl⟩ | ⟨hplain, hval, rest, rfl, hrest⟩)
    · exact .dotted hdigit hdot hq
    · exact .group hc hplain hval hrest

private theorem IsGroup.head (h : IsGroup t) : ∃ c cs, t = c :: cs ∧ isxdigit c := by
  obtain ⟨c, cs, rfl⟩ := List.exists_cons_of_ne_nil h.nonempty
  exact ⟨c, cs, rfl, h.digits c List.mem_cons_self⟩

private theorem taken_group (ht : IsGroup t) (hs : Ends s) :
    Taken (t ++ s) ps ↔ ¬(isdigit (deref t) ∧ asc '.' ∈ s) ∧ ∃ rest, ps = .group t :: rest ∧ Taken s rest := by
  obtain ⟨hend, hval⟩ := ht.strtoul hs
  have hdot : asc '.' ∈ t ++ s ↔ asc '.' ∈ s := by
    rw [List.mem_append]
    exact or_iff_right ht.noDot
  have hembedded : isdigit (deref t) → asc '.' ∈ s → embeddedIp4 (t ++ s) = none := by
    intro hdigit hmem
    rcases hs with rfl | ⟨r, rfl⟩
    · cases hmem
    · exact ht.not_embedded hdigit r
  have htake : (t ++ s).take (JACLibc.strtoul (t ++ s) 16).endptr = t := by rw [hend, List.take_left]
  have hdrop : (t ++ s).drop (JACLibc.strtoul (t ++ s) 16).endptr = s := by rw [hend, List.drop_left]
  obtain ⟨c, cs, rfl, hc⟩ := ht.head
  rw [deref_cons] at hembedded ⊢
  rw [List.cons_append] at hval hdot hembedded htake hdrop ⊢
  rw [taken_hex hc, htake, hdrop, hdot]
  constructor
  · rintro (⟨hdigit, hmem, hq, -⟩ | ⟨hplain, -, hrest⟩)
    · exact absurd (hembedded hdigit hmem) hq
    · exact ⟨hplain, hrest⟩
  · rintro ⟨hplain, hrest⟩
    exact .inr ⟨hplain, hval, hrest⟩

/-- An IPv4 address begins with a digit and has a dot. -/
private theorem Ip4Text.head (h : Ip4Text s) : ∃ c r, s = c :: r ∧ isdigit c ∧ asc '.' ∈ s := by
  obtain ⟨ts, hlen, hts, rfl⟩ := h
  obtain ⟨a, b, c, d, rfl⟩ := List.length_eq_four.1 hlen
  have ha := hts a List.mem_cons_self
  obtain ⟨x, xs, rfl⟩ := List.exists_cons_of_ne_nil ha.nonempty
  exact ⟨x, _, rfl, ha.digits x List.mem_cons_self, List.mem_append_right (x :: xs) List.mem_cons_self⟩

private theorem taken_dotted (h : Ip4Text s) : Taken s ps ↔ ps = [.dotted s] := by
  have hq := h.embedded
  obtain ⟨c, r, rfl, hc, hdot⟩ := h.head
  rw [taken_hex (isxdigit_of_isdigit hc)]
  constructor
  · rintro (⟨-, -, -, hps⟩ | ⟨hplain, -⟩)
    · exact hps
    · exact absurd ⟨hc, hdot⟩ hplain
  · exact fun hps => .inl ⟨hc, hdot, hq, hps⟩

private theorem noDot_joined (hts : ∀ t ∈ ts, IsGroup t) : asc '.' ∉ joined (asc ':') ts := by
  induction ts with
  | nil => simp [joined]
  | cons t ts ih =>
    obtain ⟨ht, hts⟩ := List.forall_mem_cons.1 hts
    cases ts with
    | nil => exact ht.noDot
    | cons u us =>
      rw [joined_cons _ t (List.cons_ne_nil u us), List.mem_append, List.mem_cons, not_or, not_or]
      exact ⟨ht.noDot, by decide, ih hts⟩

/-- Groups in front of a colon or of the end. -/
private theorem taken_groups (hs : Ends s) (hne : ts ≠ []) (hts : ∀ t ∈ ts, IsGroup t) :
    Taken (joined (asc ':') ts ++ s) ps ↔ (∀ t ∈ ts, ¬(isdigit (deref t) ∧ asc '.' ∈ s)) ∧
    ∃ rest, ps = (ts.map .group).intersperse .colon ++ rest ∧ Taken s rest := by
  induction ts generalizing ps with
  | nil => exact absurd rfl hne
  | cons t ts ih =>
    obtain ⟨ht, hts⟩ := List.forall_mem_cons.1 hts
    cases ts with
    | nil => simpa [joined] using taken_group ht hs
    | cons u us =>
      have hnext : deref (joined (asc ':') (u :: us) ++ s) ≠ asc ':' := by
        obtain ⟨c, cs, rfl, hc⟩ := (hts u List.mem_cons_self).head
        cases us <;> exact (isxdigit_plain hc).1
      have hdot : asc '.' ∈ asc ':' :: (joined (asc ':') (u :: us) ++ s) ↔ asc '.' ∈ s := by
        rw [List.mem_cons, List.mem_append]
        constructor
        · rintro (h | h | h)
          · exact absurd h (by decide)
          · exact absurd h (noDot_joined hts)
          · exact h
        · exact fun h => .inr (.inr h)
      rw [joined_cons _ t (List.cons_ne_nil u us), List.append_assoc, List.cons_append,
        taken_group ht (.inr ⟨_, rfl⟩), hdot]
      simp only [taken_colon hnext, ih (List.cons_ne_nil u us) hts, List.forall_mem_cons]
      constructor
      · rintro ⟨h₁, _, rfl, _, rfl, h₂, rest, rfl, hrest⟩
        exact ⟨⟨h₁, h₂⟩, rest, rfl, hrest⟩
      · rintro ⟨⟨h₁, h₂⟩, rest, rfl, hrest⟩
        exact ⟨h₁, _, rfl, _, rfl, h₂, rest, rfl, hrest⟩

/-- The pieces of the fields at the end of an address. -/
private def tailPieces (groups : List (List UInt8)) (quad : Option (List UInt8)) : List Piece :=
  (groups.map Piece.group ++ quad.toList.map Piece.dotted).intersperse .colon

private theorem joined_append_singleton (hne : ts ≠ []) (t : List UInt8) :
    joined (asc ':') (ts ++ [t]) = joined (asc ':') ts ++ asc ':' :: t := by
  induction ts with
  | nil => exact absurd rfl hne
  | cons u us ih =>
    cases us with
    | nil => rfl
    | cons v vs =>
      rw [joined_cons _ u (List.cons_ne_nil v vs), List.cons_append, joined_cons _ u (by simp),
        ih (List.cons_ne_nil v vs), List.append_assoc, List.cons_append]

private theorem intersperse_append_singleton {α : Type} {xs : List α} (hne : xs ≠ []) (sep x : α) :
    (xs ++ [x]).intersperse sep = xs.intersperse sep ++ [sep, x] := by
  induction xs with
  | nil => exact absurd rfl hne
  | cons y ys ih =>
    cases ys with
    | nil => rfl
    | cons z zs => 
      rw [List.intersperse_cons_cons, List.cons_append, List.cons_append,
        List.intersperse_cons_cons, ← List.cons_append, ih (List.cons_ne_nil z zs)]
      rfl

private theorem taken_tail {quad : Option (List UInt8)} (hts : ∀ t ∈ ts, IsGroup t) (hquad : ∀ q ∈ quad, Ip4Text q) :
    Taken (joined (asc ':') (ts ++ quad.toList)) ps ↔
      ¬(quad.isSome ∧ ∃ t ∈ ts, isdigit (deref t)) ∧ ps = tailPieces ts quad := by
  unfold tailPieces
  cases quad with
  | none =>
    simp only [Option.toList_none, List.append_nil, List.map_nil, Option.isSome_none, Bool.false_eq_true, false_and,
      not_false_eq_true, true_and]
    by_cases hne : ts = []
    · subst hne
      exact taken_nil
    · have hgroups := @taken_groups [] ts ps (.inl rfl) hne hts
      rw [List.append_nil] at hgroups
      simpa [taken_nil] using hgroups
  | some q =>
    have hq := hquad q rfl
    simp only [Option.toList_some, List.map_cons, List.map_nil, Option.isSome_some, true_and]
    by_cases hne : ts = []
    · subst hne
      simpa [joined] using taken_dotted hq
    · have hnext : deref q ≠ asc ':' := by
        obtain ⟨c, r, rfl, hc, -⟩ := hq.head
        exact (isxdigit_plain (isxdigit_of_isdigit hc)).1
      have hdot : asc '.' ∈ asc ':' :: q := by
        obtain ⟨-, -, -, -, hdot⟩ := hq.head
        exact List.mem_cons_of_mem _ hdot
      rw [joined_append_singleton hne, taken_groups (.inr ⟨q, rfl⟩) hne hts,
        intersperse_append_singleton (by simpa using hne)]
      simp only [taken_colon hnext, taken_dotted hq, hdot, and_true, not_exists, not_and]
      constructor
      · rintro ⟨h, _, rfl, _, rfl, rfl⟩
        exact ⟨h, rfl⟩
      · rintro ⟨h, rfl⟩
        exact ⟨h, _, rfl, _, rfl, rfl⟩

/-! ### How many groups -/

private theorem groupsOf_gap (h : .gap ∈ ps) : groupsOf ps = none := by
  induction ps with
  | nil => cases h
  | cons p ps ih =>
    cases p with
    | gap => rfl
    | colon => exact ih (List.mem_of_ne_of_mem (by simp) h)
    | group t => rw [groupsOf, ih (List.mem_of_ne_of_mem (by simp) h), Option.map_none]
    | dotted t => rw [groupsOf, ih (List.mem_of_ne_of_mem (by simp) h), Option.map_none]

private theorem groupsOf_intersperse (ps : List Piece) : groupsOf (ps.intersperse .colon) = groupsOf ps := by
  induction ps with
  | nil => rfl
  | cons p ps ih =>
    cases ps with
    | nil => rfl
    | cons q ps =>
      rw [List.intersperse_cons_cons]
      cases p <;> simp only [groupsOf, ih]

private theorem groupsOf_fields (groups : List (List UInt8)) (quad : Option (List UInt8)) :
    groupsOf (groups.map Piece.group ++ quad.toList.map Piece.dotted) =
    some (groups.length + 2 * quad.toList.length) := by
  induction groups with
  | nil => cases quad <;> rfl
  | cons t ts ih =>
    rw [List.map_cons, List.cons_append, groupsOf, ih, Option.map_some, List.length_cons]
    congr 1
    omega

private theorem groupsOf_tailPieces (groups : List (List UInt8)) (quad : Option (List UInt8)) :
    groupsOf (tailPieces groups quad) = some (groups.length + 2 * quad.toList.length) := by
  rw [tailPieces, groupsOf_intersperse, groupsOf_fields]

/-! ### Addresses that are taken -/

/-- The pieces of an address without a group in front of its gap. -/
private def Ip6.pieces (a : Ip6) : List Piece := (if a.gap.isSome then [.gap] else []) ++ tailPieces a.groups a.quad

private theorem Ip6.fits (a : Ip6) (h : ¬a.Lost) : Fits a.pieces := by
  have hcount := a.count
  have hfront : a.gap.getD [] = [] := by
    by_contra hne
    exact h (.inl hne)
  have hgroups := groupsOf_tailPieces a.groups a.quad
  unfold pieces
  cases hgap : a.gap with
  | none =>
    rw [hgap] at hcount
    rw [if_neg (by simp)] at hcount ⊢
    rw [hcount] at hgroups
    exact .inl hgroups
  | some front =>
    rw [hfront, hgap] at hcount
    rw [if_pos Option.isSome_some] at hcount ⊢
    rw [List.length_nil] at hcount
    exact .inr ⟨_, _, rfl, hgroups, by omega⟩

/-- The loop goes over an address exactly when it is not lost, and its pieces are those of the address. -/
private theorem Ip6.taken (a : Ip6) : Taken a.text ps ∧ Fits ps ↔ ¬a.Lost ∧ ps = a.pieces := by
  have hgroups : ∀ t ∈ a.groups, IsGroup t := fun t ht => a.isGroup t (List.mem_append_right _ ht)
  have hfits := a.fits
  have htail := fun ps => @taken_tail a.groups ps a.quad hgroups a.isQuad
  unfold text pieces Lost at *
  rcases hgap : a.gap with _ | front
  · simp only [hgap, Option.getD_none, ne_eq, not_true, false_or, Option.isSome_none, Bool.false_eq_true, if_false,
      List.nil_append] at *
    rw [htail]
    constructor
    · exact fun h => h.1
    · rintro ⟨h, rfl⟩
      exact ⟨⟨h, rfl⟩, hfits h⟩
  · have hfront : ∀ t ∈ front, IsGroup t := fun t ht => a.isGroup t (List.mem_append_left _ (by rw [hgap]; exact ht))
    simp only [hgap, Option.getD_some, ne_eq, Option.isSome_some, if_true, List.append_assoc, List.cons_append,
      List.nil_append] at *
    by_cases hne : front = []
    · subst hne
      simp only [not_true, false_or, joined, List.nil_append, taken_gap, htail] at *
      constructor
      · rintro ⟨⟨rest, rfl, h, rfl⟩, -⟩
        exact ⟨h, rfl⟩
      · rintro ⟨h, rfl⟩
        exact ⟨⟨_, rfl, h, rfl⟩, hfits h⟩
    · refine iff_of_false ?_ (fun h => h.1 (.inl hne))
      rintro ⟨htaken, hfits⟩
      obtain ⟨-, rest, rfl, hrest⟩ := (taken_groups (.inr ⟨_, rfl⟩) hne hfront).1 htaken
      obtain ⟨rest, rfl, -⟩ := taken_gap.1 hrest
      rcases hfits with h8 | ⟨rest', n, hgap', -⟩
      · rw [groupsOf_gap (by simp)] at h8
        cases h8
      · obtain ⟨t, ts, rfl⟩ := List.exists_cons_of_ne_nil hne
        cases ts <;> cases hgap'

end JACLibc.Inet
