import JACLibc.CString
import JACLibc.Lib.Checked
import JACLibc.Time.Calendar

/-!
# `strftime`

The output is a buffer of `max` bytes with a position; a write outside the buffer is an error of the model (`none`).
Every loop of `strftime` stops where only the place for the NUL is left, and so the whole call writes as much of the
expansion as fits in front of it (`fill`).  It answers how much that was, also where the rest is missing.
-/

namespace JACLibc.Time

/-! ### The function -/

/-- `__jacl_num_to_str` -/
def numToStr (num : ℤ) : ℕ → List UInt8
  | 0 => []
  | width + 1 => numToStr (num.tdiv 10) width ++ [(48 + num.tmod 10).toNat.toUInt8]

/-- The buffer `s` of `max` bytes and `pos`. -/
structure Out where
  s : List UInt8
  pos : ℕ

/-- `pos < max - 1` -/
def Out.Room (o : Out) : Prop := o.pos < o.s.length - 1

instance (o : Out) : Decidable o.Room := inferInstanceAs (Decidable (_ < _))

/-- `s[pos++] = c;` -/
def Out.put (o : Out) (c : UInt8) : Option Out := if o.pos < o.s.length then some ⟨o.s.set o.pos c, o.pos + 1⟩ else none

/-- `for (int i = 0; i < n && pos < max - 1; i++) s[pos++] = tmp[i];` -/
def copy : List UInt8 → Out → Option Out
  | [], o => some o
  | c :: tmp, o => if o.Room then (o.put c).bind (copy tmp) else some o

/-- The `switch` on the character behind a `%`. -/
def convert (t : Tm) (c : UInt8) (o : Out) : Option Out :=
  if c = asc 'Y' then copy (numToStr (t.tm_year + 1900).toInt 4) o
  else if c = asc 'm' then copy (numToStr (t.tm_mon + 1).toInt 2) o
  else if c = asc 'd' then copy (numToStr t.tm_mday.toInt 2) o
  else if c = asc 'H' then copy (numToStr t.tm_hour.toInt 2) o
  else if c = asc 'M' then copy (numToStr t.tm_min.toInt 2) o
  else if c = asc 'S' then copy (numToStr t.tm_sec.toInt 2) o
  else if c = asc '%' then o.put (asc '%')
  else if o.Room then o.put c else some o

/-- The loop of `strftime`.  Behind a `%` at the end of the format there is its NUL, and `fmt[-1]` is the `%`. -/
def formatLoop (t : Tm) : List UInt8 → Out → Option Out
  | [], o => some o
  | [c], o => if o.Room then o.put c else some o
  | c :: d :: fmt, o =>
    if o.Room then
      if c ≠ asc '%' then (o.put c).bind (formatLoop t (d :: fmt)) else (convert t d o).bind (formatLoop t fmt)
    else some o

/-- `strftime` with a buffer `s` of `max` bytes: the answer, and the buffer afterwards. -/
def strftime (s : List UInt8) (fmt : CString) (t : Tm) : Option (ℕ × List UInt8) :=
  if s.length = 0 then some (0, s) else (formatLoop t fmt.bytes ⟨s, 0⟩).bind fun o => (o.put 0).map fun e =>
    (o.pos, e.s)

/-! ### The expansion -/

/-- What stands for a `%` and the character behind it. -/
def field (t : Tm) (c : UInt8) : List UInt8 :=
  if c = asc 'Y' then numToStr (t.tm_year + 1900).toInt 4
  else if c = asc 'm' then numToStr (t.tm_mon + 1).toInt 2
  else if c = asc 'd' then numToStr t.tm_mday.toInt 2
  else if c = asc 'H' then numToStr t.tm_hour.toInt 2
  else if c = asc 'M' then numToStr t.tm_min.toInt 2
  else if c = asc 'S' then numToStr t.tm_sec.toInt 2
  else [c]

/-- The format with every conversion replaced. -/
def expansion (t : Tm) : List UInt8 → List UInt8
  | [] => []
  | [c] => [c]
  | c :: d :: fmt => if c ≠ asc '%' then c :: expansion t (d :: fmt) else field t d ++ expansion t fmt

/-- The contract: nothing is written outside the buffer, an expansion that fits with its NUL is written and its length
answered, and the answer is 0 for any other. -/
def SizeContract (s : List UInt8) (fmt : CString) (t : Tm) : Prop :=
  ∃ n s', strftime s fmt t = some (n, s') ∧ s'.length = s.length ∧
    if (expansion t fmt.bytes).length ≤ s.length - 1 then n = (expansion t fmt.bytes).length ∧
      expansion t fmt.bytes ++ [0] <+: s' else n = 0

/-! ### What fits -/

/-- An output of which `p.1` is written and `p.2` is left. -/
def Out.of (p : List UInt8 × List UInt8) : Out := ⟨p.1 ++ p.2, p.1.length⟩

/-- A text written up to the place of the NUL. -/
def fill (text : List UInt8) (p : List UInt8 × List UInt8) : List UInt8 × List UInt8 :=
  (p.1 ++ text.take (p.2.length - 1), p.2.drop (text.take (p.2.length - 1)).length)

@[simp]
theorem fill_nil (p : List UInt8 × List UInt8) : fill [] p = p := by
  simp [fill]

/-- There is always a place left for the NUL. -/
theorem fill_ne_nil {p : List UInt8 × List UInt8} (h : p.2 ≠ []) (text : List UInt8) : (fill text p).2 ≠ [] := by
  have hpos := List.length_pos_of_ne_nil h
  apply List.ne_nil_of_length_pos
  rw [fill, List.length_drop, List.length_take]
  omega

/-- Where only that is left, nothing is written. -/
theorem fill_full {p : List UInt8 × List UInt8} (h : p.2.length ≤ 1) (text : List UInt8) : fill text p = p := by
  simp [fill, Nat.sub_eq_zero_of_le h]

theorem fill_append (a b : List UInt8) (p : List UInt8 × List UInt8) : fill (a ++ b) p = fill b (fill a p) := by
  have hlen : (p.2.drop (a.take (p.2.length - 1)).length).length - 1 = p.2.length - 1 - a.length := by
    rw [List.length_drop, List.length_take]
    omega
  simp only [fill]
  rw [hlen, List.take_append, List.length_append, List.append_assoc, List.drop_drop]

theorem room_iff {p : List UInt8 × List UInt8} : (Out.of p).Room ↔ 1 < p.2.length := by
  show p.1.length < (p.1 ++ p.2).length - 1 ↔ _
  rw [List.length_append]
  omega

theorem put_of {p : List UInt8 × List UInt8} (h : 1 < p.2.length) (c : UInt8) :
    (Out.of p).put c = some (Out.of (fill [c] p)) := by
  obtain ⟨y, r, hr⟩ := List.exists_cons_of_ne_nil (List.ne_nil_of_length_pos (Nat.zero_lt_of_lt h))
  rcases p with ⟨w, _⟩
  obtain rfl : _ = y :: r := hr
  have hr : 0 < r.length := by simpa using h
  have htake : [c].take r.length = [c] := List.take_of_length_le hr
  simp [Out.put, Out.of, fill, htake]

theorem copy_of (tmp : List UInt8) {p : List UInt8 × List UInt8} :
    copy tmp (Out.of p) = some (Out.of (fill tmp p)) := by
  induction tmp generalizing p with
  | nil => rw [copy, fill_nil]
  | cons c tmp ih =>
    rw [copy]
    split
    next h => rw [put_of (room_iff.1 h), Option.bind_some, ih, ← fill_append, List.singleton_append]
    next h => rw [fill_full (Nat.le_of_not_lt (room_iff.not.1 h))]

/-- A conversion writes its field. -/
theorem convert_of (t : Tm) (c : UInt8) {p : List UInt8 × List UInt8} (h : 1 < p.2.length) :
    convert t c (Out.of p) = some (Out.of (fill (field t c) p)) := by
  unfold convert field
  simp only [copy_of, put_of h, if_pos (room_iff.2 h)]
  split_ifs <;> simp_all

/-- The loop writes the expansion. -/
theorem formatLoop_of (t : Tm) (fmt : List UInt8) (p : List UInt8 × List UInt8) :
    formatLoop t fmt (Out.of p) = some (Out.of (fill (expansion t fmt) p)) := by
  induction fmt using expansion.induct generalizing p with
  | case1 => rw [formatLoop, expansion, fill_nil]
  | case2 c =>
    rw [formatLoop, expansion]
    split
    next h => rw [put_of (room_iff.1 h)]
    next h => rw [fill_full (Nat.le_of_not_lt (room_iff.not.1 h))]
  | case3 c d fmt hc ih =>
    rw [formatLoop, expansion, if_pos hc, if_pos hc]
    split
    next h => rw [put_of (room_iff.1 h), Option.bind_some, ih, ← fill_append, List.singleton_append]
    next h => rw [fill_full (Nat.le_of_not_lt (room_iff.not.1 h))]
  | case4 c d fmt hc ih =>
    rw [formatLoop, expansion, if_neg hc, if_neg hc]
    split
    next h => rw [convert_of t d (room_iff.1 h), Option.bind_some, ih, ← fill_append]
    next h => rw [fill_full (Nat.le_of_not_lt (room_iff.not.1 h))]

/-- `strftime` writes what fits of the expansion, and answers its length. -/
theorem strftime_eq {s : List UInt8} (hs : s ≠ []) (fmt : CString) (t : Tm) :
    strftime s fmt t =
      some (((expansion t fmt.bytes).take (s.length - 1)).length,
        (expansion t fmt.bytes).take (s.length - 1) ++ 0 ::
        s.drop (((expansion t fmt.bytes).take (s.length - 1)).length + 1)) := by
  have hne := fill_ne_nil (p := ([], s)) hs (expansion t fmt.bytes)
  obtain ⟨y, r, hr⟩ := List.exists_cons_of_ne_nil hne
  have hloop := formatLoop_of t fmt.bytes ([], s)
  have hdrop : s.drop ((expansion t fmt.bytes).take (s.length - 1)).length = y :: r := hr
  have hrest : r = s.drop (((expansion t fmt.bytes).take (s.length - 1)).length + 1) := by
    rw [← List.tail_drop, hdrop, List.tail_cons]
  have hout : Out.of (fill (expansion t fmt.bytes) ([], s)) =
      ⟨(expansion t fmt.bytes).take (s.length - 1) ++ y :: r,
      ((expansion t fmt.bytes).take (s.length - 1)).length⟩ := by
    rw [Out.of, hr]
    rfl
  rw [strftime, if_neg (List.length_pos_of_ne_nil hs).ne', ← hrest]
  rw [hout] at hloop
  rw [show (⟨s, 0⟩ : Out) = Out.of ([], s) from rfl, hloop, Option.bind_some, Out.put, if_pos (by simp)]
  simp

/-- Nothing is written outside the buffer, and the contract is met exactly where the expansion fits, or there is no
place but for the NUL. -/
theorem strftime_contract_iff (s : List UInt8) (hs : s ≠ []) (fmt : CString) (t : Tm) :
    (strftime s fmt t).isSome ∧
      (SizeContract s fmt t ↔ (expansion t fmt.bytes).length ≤ s.length - 1 ∨ s.length = 1) := by
  have hlen := List.length_pos_of_ne_nil hs
  have heq := strftime_eq hs fmt t
  refine ⟨by rw [heq]; rfl, ?_⟩
  constructor
  · rintro ⟨n, s', h, -, hif⟩
    by_contra hno
    rw [not_or] at hno
    rw [if_neg hno.1] at hif
    rw [heq] at h
    have hn := congrArg Prod.fst (Option.some.inj h)
    rw [hif] at hn
    simp only [List.length_take] at hn
    omega
  · intro h
    refine ⟨_, _, heq, ?_, ?_⟩
    · rw [List.length_append, List.length_cons, List.length_drop, List.length_take]
      omega
    · split
      next hfit =>
        rw [List.take_of_length_le hfit]
        refine ⟨rfl, s.drop ((expansion t fmt.bytes).length + 1), ?_⟩
        rw [List.append_assoc, List.singleton_append]
      next hfit =>
        rw [h.resolve_left hfit]
        rfl

/-- The 1 January 2022. -/
def newYear : Tm :=
  { tm_sec := 0, tm_min := 0, tm_hour := 0, tm_mday := 1, tm_mon := 0, tm_year := 122, tm_wday := 6, tm_yday := 0,
    tm_isdst := 0 }

/-- `%Y` in five bytes. -/
theorem strftime_contract_iff_fits :
    strftime (List.replicate 5 0) (CString.of (lit "%Y")) newYear = some (4, lit "2022" ++ [0]) ∧
      SizeContract (List.replicate 5 0) (CString.of (lit "%Y")) newYear :=
  ⟨by decide, (strftime_contract_iff _ (by decide) _ _).2.2 (.inl (by decide))⟩

/-- `%Y` in three bytes: the answer is 2, for the text `20`. -/
theorem strftime_truncated :
    strftime [0, 0, 0] (CString.of (lit "%Y")) newYear = some (2, lit "20" ++ [0]) ∧
      ¬SizeContract [0, 0, 0] (CString.of (lit "%Y")) newYear := by
  have h : strftime [0, 0, 0] (CString.of (lit "%Y")) newYear = some (2, lit "20" ++ [0]) := by decide
  refine ⟨h, ?_⟩
  rintro ⟨n, s', hs, -, hif⟩
  rw [if_neg (by decide)] at hif
  rw [h, hif] at hs
  cases hs

end JACLibc.Time
