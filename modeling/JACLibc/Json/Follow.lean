import Mathlib.Data.List.DropRight
import JACLibc.Json.TextSpec

/-!
# Where the JSON parser comes to an end

`follow` goes along a text once, with the brackets that are open on a stack.  It fails where the innermost bracket is
a `[` and something stands there that starts no value, as the loop of `js_parse_array` does not get past it, and where
the text ends with two `[` open: the inner loop ends at the NUL and skips it like a `]`, so that the outer one reads
behind it.  On the other texts, and only on them, `js_parse` comes to an end without reading past the NUL
(`parse_ends_iff`).
-/

namespace JACLibc.Json

variable {D : Type}

/-! ### Following the brackets -/

inductive Bracket
  | array
  | object
  deriving DecidableEq

/-- What stands where a value is expected. -/
inductive Found
  | opens (b : Bracket)
  | scalar
  | nothing
  deriving DecidableEq

/-- Behind a string, from behind its opening quote; behind one without end it is the NUL. -/
def stringEnd (s : List UInt8) : List UInt8 :=
  if deref (scanString s).2 = asc '"' then (scanString s).2.tail else (scanString s).2

/-- What stands behind white space, and the text behind it. -/
def token (strtod : List UInt8 → D × Nat) (s : List UInt8) : Found × List UInt8 :=
  let s := s.dropWhile isspace
  if deref s = asc '{' then (.opens .object, s.tail)
  else if deref s = asc '[' then (.opens .array, s.tail)
  else if deref s = asc '"' then (.scalar, stringEnd s.tail)
  else if deref s = asc '-' ∨ isdigit (deref s) then (.scalar, s.drop (strtod s).2)
  else if strncmp s (lit "true") 4 = 0 then (.scalar, s.drop 4)
  else if strncmp s (lit "false") 5 = 0 then (.scalar, s.drop 5)
  else if strncmp s (lit "null") 4 = 0 then (.scalar, s.drop 4)
  else (.nothing, s)

/-- What stands in an object where a key is expected: the end of the text, the end of the object, or a key, with what
is behind its `:`. -/
inductive Place
  | ends
  | closes (rest : List UInt8)
  | value (rest : List UInt8)

def place (s : List UInt8) : Place :=
  if deref s = 0 then .ends
  else if deref s = asc '}' then .closes s.tail
  else
    let s := s.dropWhile fun c => isspace c ∨ c = asc '"'
    if deref s = 0 then .ends
    else if deref s = asc '}' then .closes s.tail
    else
      let s := s.dropWhile fun c => c ≠ asc '"' ∧ c ≠ 0
      if deref s = 0 then .ends
      else
        let s := s.tail.dropWhile fun c => c ≠ asc ':' ∧ c ≠ 0
        if deref s = 0 then .ends else .value s.tail

/-- `if (s[*i] == ',') (*i)++;` -/
def skipComma (s : List UInt8) : List UInt8 := if deref s = asc ',' then s.tail else s

/-- Behind a value the innermost bracket goes on; an object skips one comma. -/
def resume : List Bracket → List UInt8 → List UInt8
  | .object :: _, s => skipComma s
  | _, s => s

/-- The commas and the white space that an array passes over. -/
def skipCommas (s : List UInt8) : List UInt8 := s.dropWhile fun c => isspace c ∨ c = asc ','

section

variable (strtod : List UInt8 → D × Nat)

/-- The text from a place inside the brackets `st`, the innermost first. -/
def followLoop : Nat → List Bracket → List UInt8 → Bool
  | 0, _, _ => false
  | _ + 1, [], _ => true
  | fuel + 1, .array :: st, s =>
    let s := skipCommas s
    if deref s = 0 then .array ∉ st
    else if deref s = asc ']' then followLoop fuel st (resume st s.tail)
    else
      match token strtod s with
      | (.opens b, rest) => followLoop fuel (b :: .array :: st) rest
      | (.scalar, rest) => followLoop fuel (.array :: st) rest
      | (.nothing, _) => false
  | fuel + 1, .object :: st, s =>
    match place s with
    | .ends => st.count .array ≤ 1
    | .closes rest => followLoop fuel st (resume st rest)
    | .value rest =>
      match token strtod rest with
      | (.opens b, rest) => followLoop fuel (b :: .object :: st) rest
      | (_, rest) => followLoop fuel (.object :: st) (resume (.object :: st) rest)

/-- The text from a place inside the brackets `st`; every turn takes at least one byte. -/
def follow (st : List Bracket) (s : List UInt8) : Bool := followLoop strtod (s.length + 1) st s

/-- The whole text. -/
def Followed (s : CString) : Bool :=
  match token strtod (s.bytes ++ [0]) with
  | (.opens b, rest) => follow strtod [b] rest
  | _ => true

end

/-! ### Places in the text -/

/-- A place in a text that is not behind the NUL. -/
def Inside (s : List UInt8) : Prop := ∃ u, s = u ++ [0] ∧ 0 ∉ u

variable {s t r : List UInt8} {strtod : List UInt8 → D × Nat} {n m : Nat} {b : Bracket} {st : List Bracket}

private theorem CString.inside (s : CString) : Inside (s.bytes ++ [0]) := ⟨s.bytes, rfl, s.noNul⟩

private theorem Inside.ne_nil (h : Inside s) : s ≠ [] := by
  obtain ⟨u, rfl, -⟩ := h
  simp

private theorem Inside.suffix (h : Inside s) (ht : t <:+ s) (hne : t ≠ []) : Inside t := by
  obtain ⟨u, rfl, hu⟩ := h
  rcases List.suffix_concat_iff.1 ht with rfl | ⟨v, rfl, hv⟩
  · exact absurd rfl hne
  · exact ⟨v, rfl, fun h0 => hu (hv.mem h0)⟩

private theorem Inside.end (h : Inside s) (h0 : deref s = 0) : s = [0] := by
  obtain ⟨u, rfl, hu⟩ := h
  cases u with
  | nil => rfl
  | cons c u => exact absurd (by rw [← show c = 0 from h0]; exact List.mem_cons_self) hu

private theorem Inside.cons (h : Inside s) : ∃ c t, s = c :: t ∧ (c ≠ 0 → Inside t) := by
  obtain ⟨u, rfl, hu⟩ := h
  cases u with
  | nil => exact ⟨0, [], rfl, fun h => absurd rfl h⟩
  | cons c u => exact ⟨c, u ++ [0], rfl, fun _ => ⟨u, rfl, fun h0 => hu (List.mem_cons_of_mem _ h0)⟩⟩

private theorem Inside.tail (h : Inside s) (h0 : deref s ≠ 0) : Inside s.tail ∧ s.tail.length < s.length := by
  obtain ⟨c, t, rfl, ht⟩ := h.cons
  exact ⟨ht h0, Nat.lt_succ_self _⟩

private theorem Inside.dropWhile (h : Inside s) {p : UInt8 → Bool} (hp : p 0 = false) :
    Inside (s.dropWhile p) ∧ (s.dropWhile p).length ≤ s.length := by
  refine ⟨h.suffix (List.dropWhile_suffix p) fun hnil => ?_, (List.dropWhile_suffix p).length_le⟩
  obtain ⟨u, rfl, -⟩ := h
  have := List.dropWhile_eq_nil_iff.1 hnil 0 (by simp)
  rw [hp] at this
  cases this

private theorem Inside.drop (h : Inside s) (hn : n < s.length) : Inside (s.drop n) :=
  h.suffix (List.drop_suffix n s) fun hnil => by simp at hnil; omega

private theorem Inside.skipComma (h : Inside s) : Inside (skipComma s) ∧ (Json.skipComma s).length ≤ s.length := by
  unfold Json.skipComma
  split
  · rename_i hc
    have := h.tail (by rw [hc]; decide)
    exact ⟨this.1, Nat.le_of_lt this.2⟩
  · exact ⟨h, Nat.le_refl _⟩

private theorem Inside.skipCommas (h : Inside s) : Inside (skipCommas s) ∧ (Json.skipCommas s).length ≤ s.length :=
  h.dropWhile (by decide)

private theorem Inside.scanString (h : Inside s) :
    Inside (scanString s).2 ∧ (Json.scanString s).2.length ≤ s.length := by
  induction s using scanString.induct with
  | case1 => exact absurd rfl h.ne_nil
  | case2 c => exact ⟨h, Nat.le_refl _⟩
  | case3 c d s hc =>
    rw [Json.scanString, if_pos hc]
    exact ⟨h, Nat.le_refl _⟩
  | case4 s hc =>
    rw [Json.scanString, if_neg hc, if_pos rfl, if_pos rfl]
    exact ⟨(h.tail (show asc '\\' ≠ 0 by decide)).1, Nat.le_succ _⟩
  | case5 d s hd _ _ _ hc ih =>
    rw [Json.scanString, if_neg hc, if_pos rfl, if_neg hd]
    obtain ⟨ht, -⟩ := h.tail (show asc '\\' ≠ 0 by decide)
    obtain ⟨hs, hle⟩ := ih (ht.tail hd).1
    exact ⟨hs, hle.trans (Nat.le_add_right _ 2)⟩
  | case6 c d s hc hb _ _ _ ih =>
    rw [Json.scanString, if_neg hc, if_neg hb]
    obtain ⟨hs, hle⟩ := ih (h.tail fun e => hc (.inl e)).1
    exact ⟨hs, hle.trans (Nat.le_succ _)⟩

private theorem Inside.stringEnd (h : Inside s) : Inside (stringEnd s) ∧ (Json.stringEnd s).length ≤ s.length := by
  obtain ⟨hs, hle⟩ := h.scanString
  unfold Json.stringEnd
  split
  · rename_i hq
    obtain ⟨ht, hlt⟩ := hs.tail (by rw [hq]; decide)
    exact ⟨ht, by omega⟩
  · exact ⟨hs, hle⟩

/-- A word that `strncmp` finds stands there. -/
private theorem strncmp_prefix {w : List UInt8} (hw : 0 ∉ w) (h : strncmp s w w.length = 0) : w <+: s := by
  induction w generalizing s with
  | nil => exact List.nil_prefix
  | cons c w ih =>
    obtain ⟨hc, hw'⟩ : ¬0 = c ∧ 0 ∉ w := by simpa using hw
    rw [List.length_cons, strncmp, ncmp] at h
    split at h
    · rename_i heq
      cases s with
      | nil => exact absurd rfl heq.1
      | cons x s =>
        obtain rfl : x = c := heq.2
        exact List.prefix_cons_inj x |>.2 (ih hw' h)
    · split at h <;> cases h

private theorem Inside.word (h : Inside s) {w : List UInt8} (hw : 0 ∉ w) (hs : strncmp s w w.length = 0) :
    w.length < s.length := by
  obtain ⟨u, rfl, hu⟩ := h
  obtain ⟨v, hv⟩ := strncmp_prefix hw hs
  rcases List.eq_nil_or_concat' v with rfl | ⟨v, x, rfl⟩
  · rw [List.append_nil] at hv
    exact absurd (by simp [hv]) hw
  · simp [← hv]

/-! ### What stands at a place -/

/-- `strtod` reads at least a byte of a number, and stays in the string. -/
def Advances (strtod : List UInt8 → D × Nat) : Prop :=
  ∀ s, Inside s → (deref s = asc '-' ∨ isdigit (deref s)) → 0 < (strtod s).2 ∧ (strtod s).2 < s.length

private theorem Inside.token (h : Inside s) (ha : Advances strtod) : Inside (token strtod s).2 ∧
    (Json.token strtod s).2.length ≤ s.length ∧ ((Json.token strtod s).1 ≠ .nothing →
    (Json.token strtod s).2.length < s.length) := by
  obtain ⟨hs, hle⟩ := h.dropWhile (p := isspace) (by decide)
  have hshorter : ∀ n, 0 < n → n < (s.dropWhile isspace).length →
      Inside ((s.dropWhile isspace).drop n) ∧ ((s.dropWhile isspace).drop n).length < s.length := by
    intro n h0 hn
    refine ⟨hs.drop hn, ?_⟩
    rw [List.length_drop]
    omega
  have hout : ∀ {f : Found} {r : List UInt8}, Inside r ∧ r.length < s.length →
      Inside (f, r).2 ∧ (f, r).2.length ≤ s.length ∧ ((f, r).1 ≠ .nothing → (f, r).2.length < s.length) :=
    fun hr => ⟨hr.1, Nat.le_of_lt hr.2, fun _ => hr.2⟩
  have htail : deref (s.dropWhile isspace) ≠ 0 → Inside (s.dropWhile isspace).tail ∧
    (s.dropWhile isspace).tail.length < s.length :=
    fun h0 => ⟨(hs.tail h0).1, Nat.lt_of_lt_of_le (hs.tail h0).2 hle⟩
  unfold Json.token
  simp only
  split
  · rename_i hc
    exact hout (htail (by rw [hc]; decide))
  split
  · rename_i hc
    exact hout (htail (by rw [hc]; decide))
  split
  · rename_i hc
    obtain ⟨ht, hlt⟩ := htail (by rw [hc]; decide)
    obtain ⟨he, hle'⟩ := ht.stringEnd
    exact hout ⟨he, by omega⟩
  split
  · rename_i hc
    obtain ⟨h0, hlt⟩ := ha _ hs hc
    exact hout (hshorter _ h0 hlt)
  split
  · rename_i hw
    exact hout (hshorter 4 (by decide) (hs.word (w := lit "true") (by decide) hw))
  split
  · rename_i hw
    exact hout (hshorter 5 (by decide) (hs.word (w := lit "false") (by decide) hw))
  split
  · rename_i hw
    exact hout (hshorter 4 (by decide) (hs.word (w := lit "null") (by decide) hw))
  · exact ⟨hs, hle, fun h => absurd rfl h⟩

private theorem parseString_end (s : List UInt8) : (@parseString D s).2 = stringEnd s := by
  unfold parseString stringEnd
  rcases scanString s with ⟨raw, rest⟩
  simp only
  split <;> rfl

/-- What `js_parse_value` does with it. -/
private theorem parse_token (h : Inside s) (strtod : List UInt8 → D × Nat) :
    (∃ r, token strtod s = (.opens .object, r) ∧
      ∀ n, parseValue strtod (n + 1) s = (parseObject strtod n r).map fun q => (q.1.map .object, q.2)) ∨
    (∃ r, token strtod s = (.opens .array, r) ∧
      ∀ n, parseValue strtod (n + 1) s = (parseArray strtod n r).map fun q => (some (.array q.1), q.2)) ∨
    (∃ r v, token strtod s = (.scalar, r) ∧ ∀ n, parseValue strtod (n + 1) s = some (some v, r)) ∨
    (token strtod s = (.nothing, s.dropWhile isspace) ∧ ∀ n, parseValue strtod (n + 1) s = some (some .null,
    s.dropWhile isspace)) := by
  obtain ⟨c, t, e, -⟩ := (h.dropWhile (p := isspace) (by decide)).1.cons
  simp only [parseValue, token, e, deref_cons, List.tail_cons]
  by_cases hbrace : c = asc '{'
  · refine .inl ⟨t, by rw [if_pos hbrace], fun n => ?_⟩
    rw [if_pos hbrace]
    cases parseObject strtod n t <;> rfl
  simp only [if_neg hbrace]
  by_cases hbracket : c = asc '['
  · refine .inr (.inl ⟨t, by rw [if_pos hbracket], fun n => ?_⟩)
    rw [if_pos hbracket]
    cases parseArray strtod n t <;> rfl
  simp only [if_neg hbracket]
  refine .inr (.inr ?_)
  by_cases hquote : c = asc '"'
  · refine .inl ⟨stringEnd t, (parseString t).1, by rw [if_pos hquote], fun n => ?_⟩
    rw [if_pos hquote, ← @parseString_end D]
  simp only [if_neg hquote]
  by_cases hnum : c = asc '-' ∨ isdigit c
  · exact .inl ⟨_, _, by rw [if_pos hnum], fun n => by rw [if_pos hnum]⟩
  simp only [if_neg hnum]
  by_cases htrue : strncmp (c :: t) (lit "true") 4 = 0
  · exact .inl ⟨_, _, by rw [if_pos htrue], fun n => by rw [if_pos htrue]⟩
  simp only [if_neg htrue]
  by_cases hfalse : strncmp (c :: t) (lit "false") 5 = 0
  · exact .inl ⟨_, _, by rw [if_pos hfalse], fun n => by rw [if_pos hfalse]⟩
  simp only [if_neg hfalse]
  by_cases hnull : strncmp (c :: t) (lit "null") 4 = 0
  · exact .inl ⟨_, _, by rw [if_pos hnull], fun n => by rw [if_pos hnull]⟩
  · exact .inr ⟨by rw [if_neg hnull], fun n => by rw [if_neg hnull]⟩

/-- At the end of the text, at a comma and at a `]` stands nothing. -/
private theorem token_nothing {c : UInt8} (e : s.dropWhile isspace = c :: t) (hc : c = 0 ∨ c = asc ',' ∨ c = asc ']') :
    token strtod s = (.nothing, c :: t) := by
  have hword : ∀ {w : List UInt8} {d : UInt8} {n : Nat}, w.head? = some d → d ≠ c → 0 ∉ w → w.length = n →
    strncmp (c :: t) w n ≠ 0 := by
    rintro w d _ hd hne h0 rfl h
    obtain ⟨v, hv⟩ := strncmp_prefix h0 h
    have := congrArg List.head? hv
    rw [List.head?_append, hd] at this
    exact hne (Option.some.inj this)
  have hplain : c ≠ asc '{' ∧ c ≠ asc '[' ∧ c ≠ asc '"' ∧ ¬(c = asc '-' ∨ isdigit c) ∧ asc 't' ≠ c ∧ asc 'f' ≠ c ∧
    asc 'n' ≠ c := by
    rcases hc with rfl | rfl | rfl <;> decide
  obtain ⟨h1, h2, h3, h4, h5, h6, h7⟩ := hplain
  simp only [token, e, deref_cons]
  rw [if_neg h1, if_neg h2, if_neg h3, if_neg h4, if_neg (@hword (lit "true") _ 4 rfl h5 (by decide) rfl),
    if_neg (@hword (lit "false") _ 5 rfl h6 (by decide) rfl), if_neg (@hword (lit "null") _ 4 rfl h7 (by decide) rfl)]

private theorem skipCommas_space (s : List UInt8) : skipCommas (s.dropWhile isspace) = skipCommas s := by
  induction s with
  | nil => rfl
  | cons c s ih =>
    by_cases hc : isspace c = true
    · rw [List.dropWhile_cons_of_pos hc, ih]
      simp [skipCommas, hc]
    · rw [List.dropWhile_cons_of_neg hc]

private theorem skipCommas_comma (s : List UInt8) : skipCommas (skipComma s) = skipCommas s := by
  unfold skipComma
  split
  · rename_i hc
    cases s with
    | nil => rfl
    | cons c s =>
      rw [deref_cons] at hc
      simp [skipCommas, hc]
  · rfl

/-- In front of a value an array passes over white space alone. -/
private theorem skipCommas_value (h : Inside s) (hf : (token strtod s).1 ≠ .nothing) :
    skipCommas s = s.dropWhile isspace ∧ deref (s.dropWhile isspace) ≠ 0 ∧ deref (s.dropWhile isspace) ≠ asc ']' ∧
    token strtod (s.dropWhile isspace) = token strtod s := by
  obtain ⟨c, t, e, -⟩ := (h.dropWhile (p := isspace) (by decide)).1.cons
  have hne : ¬(c = 0 ∨ c = asc ',' ∨ c = asc ']') := fun hc => hf (by rw [token_nothing e hc])
  have hspace : isspace c = false := by
    have := List.head?_dropWhile_not isspace s
    rw [e] at this
    simpa using this
  refine ⟨?_, fun h0 => hne (.inl (by rwa [e] at h0)), fun h0 => hne (.inr (.inr (by rwa [e] at h0))), ?_⟩
  · rw [← skipCommas_space, e]
    have hcomma : c ≠ asc ',' := fun h => hne (.inr (.inl h))
    exact List.dropWhile_cons_of_neg (by simp [hspace, hcomma])
  · rw [token, token, List.dropWhile_idempotent]

/-- Where `js_parse_object` stands, and what it does there. -/
private theorem parse_place (h : Inside s) (strtod : List UInt8 → D × Nat) :
    (place s = .ends ∧ ∀ n, ∃ ms, parseObject strtod (n + 1) s = some (ms, [0])) ∨
    (∃ r, place s = .closes r ∧ Inside r ∧ r.length < s.length ∧ ∀ n, parseObject strtod (n + 1) s = some (some .nil,
    r)) ∨ ∃ r key, place s = .value r ∧ Inside r ∧ r.length < s.length ∧ ∀ n, parseObject strtod (n + 1) s =
      (parseValue strtod n r).bind fun q =>
        match q.1 with
        | none => some (none, q.2)
        | some v => (parseObject strtod n (skipComma q.2)).bind fun p => some (p.1.map (.cons key v), p.2) := by
  obtain ⟨h1, hle1⟩ := h.dropWhile (p := fun c => isspace c ∨ c = asc '"') (by decide)
  simp only [place, parseObject]
  generalize s.dropWhile (fun c => isspace c ∨ c = asc '"') = s1 at h1 hle1 ⊢
  by_cases h0 : deref s = 0
  · exact .inl ⟨if_pos h0, fun n => ⟨_, by rw [if_pos h0, h.end h0]⟩⟩
  simp only [if_neg h0]
  by_cases hb : deref s = asc '}'
  · exact .inr (.inl ⟨s.tail, if_pos hb, (h.tail h0).1, (h.tail h0).2, fun n => if_pos hb⟩)
  simp only [if_neg hb]
  by_cases h10 : deref s1 = 0
  · exact .inl ⟨if_pos h10, fun n => ⟨_, by rw [if_pos h10, h1.end h10]⟩⟩
  simp only [if_neg h10]
  by_cases h1b : deref s1 = asc '}'
  · obtain ⟨ht, hlt⟩ := h1.tail h10
    exact .inr (.inl ⟨s1.tail, if_pos h1b, ht, by omega, fun n => if_pos h1b⟩)
  simp only [if_neg h1b]
  obtain ⟨h2, hle2⟩ := h1.dropWhile (p := fun c => c ≠ asc '"' ∧ c ≠ 0) (by decide)
  generalize s1.dropWhile (fun c => c ≠ asc '"' ∧ c ≠ 0) = s2 at h2 hle2 ⊢
  by_cases h20 : deref s2 = 0
  · exact .inl ⟨if_pos h20, fun n => ⟨_, by rw [if_pos h20, h2.end h20]⟩⟩
  simp only [if_neg h20]
  obtain ⟨ht2, hlt2⟩ := h2.tail h20
  obtain ⟨h3, hle3⟩ := ht2.dropWhile (p := fun c => c ≠ asc ':' ∧ c ≠ 0) (by decide)
  generalize s2.tail.dropWhile (fun c => c ≠ asc ':' ∧ c ≠ 0) = s3 at h3 hle3 ⊢
  by_cases h30 : deref s3 = 0
  · exact .inl ⟨if_pos h30, fun n => ⟨_, by rw [if_pos h30, h3.end h30]⟩⟩
  · obtain ⟨ht3, hlt3⟩ := h3.tail h30
    refine .inr (.inr ⟨s3.tail, .of (s1.takeWhile fun c => c ≠ asc '"' ∧ c ≠ 0), if_neg h30,
      ht3, by omega, fun n => ?_⟩)
    rw [if_neg h30]
    rfl

/-! ### One turn of `follow` -/

private theorem Inside.resume (h : Inside s) (st : List Bracket) :
    Inside (resume st s) ∧ (Json.resume st s).length ≤ s.length := by
  rcases st with _ | ⟨_ | _, st⟩
  · exact ⟨h, Nat.le_refl _⟩
  · exact ⟨h, Nat.le_refl _⟩
  · exact h.skipComma

private theorem followLoop_array (strtod : List UInt8 → D × Nat) (fuel : Nat) (st : List Bracket) (s : List UInt8) :
    followLoop strtod (fuel + 1) (.array :: st) s =
      if deref (skipCommas s) = 0 then decide (.array ∉ st)
      else if deref (skipCommas s) = asc ']' then followLoop strtod fuel st (resume st (skipCommas s).tail)
      else
        match token strtod (skipCommas s) with
        | (.opens b, rest) => followLoop strtod fuel (b :: .array :: st) rest
        | (.scalar, rest) => followLoop strtod fuel (.array :: st) rest
        | (.nothing, _) => false := rfl

private theorem followLoop_object (strtod : List UInt8 → D × Nat) (fuel : Nat) (st : List Bracket) (s : List UInt8) :
    followLoop strtod (fuel + 1) (.object :: st) s =
      match place s with
      | .ends => decide (st.count .array ≤ 1)
      | .closes rest => followLoop strtod fuel st (resume st rest)
      | .value rest =>
        match token strtod rest with
        | (.opens b, rest) => followLoop strtod fuel (b :: .object :: st) rest
        | (_, rest) => followLoop strtod fuel (.object :: st) (resume (.object :: st) rest) := rfl

private theorem loop_fuel (ha : Advances strtod) (hs : Inside s) (hn : s.length < n) (hm : s.length < m) :
    followLoop strtod n st s = followLoop strtod m st s := by
  induction n generalizing m st s with
  | zero => omega
  | succ n ih =>
    obtain ⟨m, rfl⟩ : ∃ k, m = k + 1 := ⟨m - 1, by omega⟩
    replace ih : ∀ {t : List UInt8} (st : List Bracket), Inside t → t.length < n ∧ t.length < m →
        followLoop strtod n st t = followLoop strtod m st t := fun st ht hlt => ih ht hlt.1 hlt.2
    rcases st with _ | ⟨_ | _, st⟩
    · rfl
    · obtain ⟨h1, hle⟩ := hs.skipCommas
      rw [followLoop_array, followLoop_array]
      generalize skipCommas s = s1 at h1 hle ⊢
      by_cases h0 : deref s1 = 0
      · rw [if_pos h0, if_pos h0]
      rw [if_neg h0, if_neg h0]
      obtain ⟨ht, hlt⟩ := h1.tail h0
      obtain ⟨hr, hler⟩ := ht.resume st
      rw [ih st hr (by omega)]
      obtain ⟨hk, -, hltk⟩ := h1.token ha
      rcases e : token strtod s1 with ⟨_ | _ | _, r⟩ <;> rw [e] at hk hltk
      · have hlt' := hltk (by simp)
        simp only [ih _ hk (by simp only at hlt' ⊢; omega)]
      · have hlt' := hltk (by simp)
        simp only [ih _ hk (by simp only at hlt' ⊢; omega)]
    · rw [followLoop_object, followLoop_object]
      rcases parse_place hs strtod with ⟨e, -⟩ | ⟨r, e, hr, hlt, -⟩ | ⟨r, -, e, hr, hlt, -⟩
      · rw [e]
      · obtain ⟨hr', hle'⟩ := hr.resume st
        simp only [e, ih _ hr' (by omega)]
      · obtain ⟨hk, hlek, hltk⟩ := hr.token ha
        obtain ⟨hr', hle'⟩ := hk.resume (.object :: st)
        simp only [e]
        rcases e' : token strtod r with ⟨_ | _ | _, r'⟩ <;> rw [e'] at hk hlek hr' hle' <;> simp only
        · exact ih _ hk (by simp only at hlek ⊢; omega)
        · exact ih _ hr' (by simp only at hlek hle' ⊢; omega)
        · exact ih _ hr' (by simp only at hlek hle' ⊢; omega)

private theorem loop_eq (ha : Advances strtod) (hs : Inside s) (hn : s.length < n) :
    followLoop strtod n st s = follow strtod st s :=
  loop_fuel ha hs hn (Nat.lt_succ_self _)

private theorem follow_array_end (st : List Bracket) (h0 : deref (skipCommas s) = 0) :
    follow strtod (.array :: st) s = decide (.array ∉ st) := by
  rw [follow, followLoop_array, if_pos h0]

private theorem follow_array_close (ha : Advances strtod) (hs : Inside s) (st : List Bracket)
    (hb : deref (skipCommas s) = asc ']') :
    follow strtod (.array :: st) s = follow strtod st (resume st (skipCommas s).tail) := by
  have h0 : deref (skipCommas s) ≠ 0 := by
    rw [hb]
    decide
  obtain ⟨h1, hle⟩ := hs.skipCommas
  obtain ⟨ht, hlt⟩ := h1.tail h0
  obtain ⟨hr, hler⟩ := ht.resume st
  rw [follow, followLoop_array]
  simp only [if_neg h0, if_pos hb]
  exact loop_eq ha hr (by omega)

private theorem follow_array_stuck (st : List Bracket) (h0 : deref (skipCommas s) ≠ 0)
    (hb : deref (skipCommas s) ≠ asc ']') (hk : (token strtod (skipCommas s)).1 = .nothing) :
    follow strtod (.array :: st) s = false := by
  rw [follow, followLoop_array]
  simp only [if_neg h0, if_neg hb]
  rcases e : token strtod (skipCommas s) with ⟨_ | _ | _, r⟩ <;> rw [e] at hk <;> cases hk

private theorem follow_array_scalar (ha : Advances strtod) (hs : Inside s) (st : List Bracket)
    (hk : token strtod s = (.scalar, r)) :
    follow strtod (.array :: st) s = follow strtod (.array :: st) r := by
  obtain ⟨e, h0, hb, he⟩ := skipCommas_value hs (show (token strtod s).1 ≠ .nothing by simp [hk])
  obtain ⟨hr, -, hlt⟩ := hs.token ha
  rw [hk] at hr hlt
  rw [follow, followLoop_array]
  simp only [e, if_neg h0, if_neg hb, he, hk]
  exact loop_eq ha hr (hlt (by simp))

private theorem follow_array_opens (ha : Advances strtod) (hs : Inside s) (st : List Bracket)
    (hk : token strtod s = (.opens b, r)) :
    follow strtod (.array :: st) s = follow strtod (b :: .array :: st) r := by
  obtain ⟨e, h0, hb, he⟩ := skipCommas_value hs (show (token strtod s).1 ≠ .nothing by simp [hk])
  obtain ⟨hr, -, hlt⟩ := hs.token ha
  rw [hk] at hr hlt
  rw [follow, followLoop_array]
  simp only [e, if_neg h0, if_neg hb, he, hk]
  exact loop_eq ha hr (hlt (by simp))

/-- White space and commas in front make no difference to an array. -/
private theorem follow_array_skip (st : List Bracket) (ha : Advances strtod) (hs : Inside s) (ht : Inside t)
    (he : skipCommas s = skipCommas t) : follow strtod (.array :: st) s = follow strtod (.array :: st) t := by
  have hmax := Nat.le_max_left s.length t.length
  have hmax' := Nat.le_max_right s.length t.length
  rw [← @loop_eq _ s strtod (max s.length t.length + 1) _ ha hs (by omega), ← @loop_eq _ t strtod
    (max s.length t.length + 1) _ ha ht (by omega), followLoop_array, followLoop_array, he]

private theorem follow_object_ends (st : List Bracket) (hp : place s = .ends) :
    follow strtod (.object :: st) s = decide (st.count .array ≤ 1) := by
  rw [follow, followLoop_object, hp]

private theorem follow_object_closes (ha : Advances strtod) (st : List Bracket) (hp : place s = .closes r)
    (hr : Inside r) (hlt : r.length < s.length) : follow strtod (.object :: st) s = follow strtod st (resume st r) := by
  obtain ⟨hr', hle⟩ := hr.resume st
  rw [follow, followLoop_object, hp]
  exact loop_eq ha hr' (by omega)

private theorem follow_object_opens (ha : Advances strtod) (st : List Bracket) (hp : place s = .value r) (hr : Inside r)
    (hlt : r.length < s.length) (hk : token strtod r = (.opens b, t)) :
    follow strtod (.object :: st) s = follow strtod (b :: .object :: st) t := by
  obtain ⟨ht, hle, -⟩ := hr.token ha
  rw [hk] at ht hle
  rw [follow, followLoop_object, hp]
  simp only [hk]
  exact loop_eq ha ht (by simp at hle; omega)

private theorem follow_object_value (ha : Advances strtod) (st : List Bracket) (hp : place s = .value r) (hr : Inside r)
    (hlt : r.length < s.length) (hk : ∀ b, (token strtod r).1 ≠ .opens b) :
    follow strtod (.object :: st) s = follow strtod (.object :: st) (skipComma (token strtod r).2) := by
  obtain ⟨ht, hle, -⟩ := hr.token ha
  obtain ⟨hc, hlec⟩ := ht.resume (.object :: st)
  rw [follow, followLoop_object, hp]
  rcases e : token strtod r with ⟨b | _ | _, t⟩
  · exact absurd (by rw [e]) (hk b)
  · rw [e] at hc hlec hle
    simp only [e]
    exact loop_eq ha hc (by simp only at hle hlec; omega)
  · rw [e] at hc hlec hle
    simp only [e]
    exact loop_eq ha hc (by simp only at hle hlec; omega)

/-- At the NUL at most one `[` may be open. -/
private theorem follow_end (st : List Bracket) : follow strtod st [0] = decide (st.count .array ≤ 1) := by
  rcases st with _ | ⟨_ | _, st⟩
  · rfl
  · rw [follow_array_end st (by decide), List.count_cons_self, decide_eq_decide, ← List.count_eq_zero]
    omega
  · have hends : place [0] = .ends := if_pos (deref_cons 0 [])
    rw [follow_object_ends st hends, List.count_cons_of_ne (by decide)]

/-! ### The parser and the brackets -/

/-- Behind a bracket of this kind the parser ends at `r`. -/
private def EndsAt (strtod : List UInt8 → D × Nat) : Bracket → Nat → List UInt8 → List UInt8 → Prop
  | .array, n, s, r => ∃ vs, parseArray strtod n s = some (vs, r)
  | .object, n, s, r => ∃ ms, parseObject strtod n s = some (ms, r)

private theorem EndsAt.mono (h : EndsAt strtod b n s r) (hle : n ≤ m) : EndsAt strtod b m s r := by
  obtain ⟨-, harray, hobject⟩ := @parse_mono D strtod n m hle
  cases b with
  | array => exact h.imp fun vs hvs => harray s _ hvs
  | object => exact h.imp fun ms hms => hobject s _ hms

private theorem endsAt_zero : ¬EndsAt strtod b 0 s r := by
  cases b <;> simp [EndsAt, parseArray, parseObject]

private theorem array_succ (hs : Inside s) : EndsAt strtod .array (n + 1) s r ↔
    (deref s = 0 ∨ deref s = asc ']') ∧ r = s.tail ∨ ¬(deref s = 0 ∨ deref s = asc ']') ∧
      ∃ v t, parseValue strtod n s = some (v, t) ∧ t ≠ [] ∧ EndsAt strtod .array n (skipComma t) r := by
  obtain ⟨c, u, rfl, -⟩ := hs.cons
  simp only [EndsAt, parseArray, deref_cons, List.tail_cons]
  by_cases hend : c = 0 ∨ c = asc ']'
  · rw [if_pos hend]
    constructor
    · rintro ⟨vs, he⟩
      cases he
      exact .inl ⟨hend, rfl⟩
    · rintro (⟨-, rfl⟩ | ⟨hne, -⟩)
      · exact ⟨_, rfl⟩
      · exact absurd hend hne
  · rw [if_neg hend]
    constructor
    · rintro ⟨vs, he⟩
      simp only [Option.bind_eq_bind, Option.bind_eq_some_iff] at he
      obtain ⟨⟨v, t⟩, hv, d, hd, ⟨us, r'⟩, hus, he⟩ := he
      cases he
      obtain ⟨t, rfl⟩ : ∃ t', t = d :: t' := by
        cases t with
        | nil => cases hd
        | cons x t => exact ⟨t, by rw [Option.some.inj hd]⟩
      exact .inr ⟨hend, v, _, hv, by simp, us, hus⟩
    · rintro (⟨he, -⟩ | ⟨-, v, t, hv, hne, us, hus⟩)
      · exact absurd he hend
      · obtain ⟨d, t, rfl⟩ := List.exists_cons_of_ne_nil hne
        refine ⟨v.elim us fun v => .cons v us, ?_⟩
        have hus' : parseArray strtod n (if d = asc ',' then t else d :: t) = some (us, r) := hus
        simp only [hv, Option.bind_eq_bind, Option.bind_some, List.head?_cons, List.tail_cons, hus']

/-- The value of a member, and what follows it. -/
private theorem object_value {key : CString} (hp : ∀ n, parseObject strtod (n + 1) s = (parseValue strtod n t).bind
    fun q =>
      match q.1 with
      | none => some (none, q.2)
      | some v => (parseObject strtod n (skipComma q.2)).bind fun p => some (p.1.map (.cons key v), p.2)) :
    EndsAt strtod .object (n + 1) s r ↔ ∃ v t', parseValue strtod n t = some (v, t') ∧
      (v = none ∧ r = t' ∨ v ≠ none ∧ EndsAt strtod .object n (skipComma t') r) := by
  simp only [EndsAt, hp n]
  constructor
  · rintro ⟨ms, he⟩
    obtain ⟨⟨v, t'⟩, hv, he⟩ := Option.bind_eq_some_iff.1 he
    refine ⟨v, t', hv, ?_⟩
    cases v with
    | none =>
      cases he
      exact .inl ⟨rfl, rfl⟩
    | some v =>
      obtain ⟨⟨us, r'⟩, hus, he⟩ := Option.bind_eq_some_iff.1 he
      cases he
      exact .inr ⟨by simp, us, hus⟩
  · rintro ⟨v, t', hv, ⟨rfl, rfl⟩ | ⟨hne, us, hus⟩⟩
    · exact ⟨none, by rw [hv]; rfl⟩
    · obtain ⟨v, rfl⟩ := Option.ne_none_iff_exists'.1 hne
      exact ⟨_, by rw [hv, Option.bind_some]; simp only [hus]; rfl⟩

private theorem deref_nil : deref ([] : List UInt8) = 0 := rfl

private theorem object_nil (h : EndsAt strtod .object n [] r) : r = [] := by
  cases n with
  | zero => exact absurd h endsAt_zero
  | succ n =>
    obtain ⟨ms, he⟩ := h
    rw [parseObject, if_pos deref_nil] at he
    cases he
    rfl

/-- A value that opens no bracket is read at once; one that does ends where its bracket ends. -/
private theorem value_succ (hs : Inside s) : (∃ v, parseValue strtod (n + 1) s = some (v, r)) ↔
    (∃ b t, token strtod s = (.opens b, t) ∧ EndsAt strtod b n t r) ∨ (∀ b, (token strtod s).1 ≠ .opens b) ∧
    r = (token strtod s).2 := by
  rcases parse_token hs strtod with ⟨t, hk, hp⟩ | ⟨t, hk, hp⟩ | ⟨t, v, hk, hp⟩ | ⟨hk, hp⟩
  · rw [hk, hp]
    simp only [Prod.mk.injEq, Found.opens.injEq, EndsAt, Option.map_eq_some_iff]
    constructor
    · rintro ⟨v, ⟨ms, r'⟩, hms, -, rfl⟩
      exact .inl ⟨.object, t, ⟨rfl, rfl⟩, ms, hms⟩
    · rintro (⟨b, t', ⟨rfl, rfl⟩, ms, hms⟩ | ⟨hne, -⟩)
      · exact ⟨_, _, hms, rfl, rfl⟩
      · exact absurd rfl (hne _)
  · rw [hk, hp]
    simp only [Prod.mk.injEq, Found.opens.injEq, EndsAt, Option.map_eq_some_iff]
    constructor
    · rintro ⟨v, ⟨vs, r'⟩, hvs, -, rfl⟩
      exact .inl ⟨.array, t, ⟨rfl, rfl⟩, vs, hvs⟩
    · rintro (⟨b, t', ⟨rfl, rfl⟩, vs, hvs⟩ | ⟨hne, -⟩)
      · exact ⟨_, _, hvs, rfl, rfl⟩
      · exact absurd rfl (hne _)
  · rw [hk, hp]
    simp [eq_comm]
  · rw [hk, hp]
    simp [eq_comm]

/-- The parser stays inside the text, or stands right behind the NUL. -/
private theorem ends_inside (ha : Advances strtod) :
    (∀ s r v, Inside s → parseValue strtod n s = some (v, r) → r = [] ∨ Inside r) ∧ ∀ b s r, Inside s →
    EndsAt strtod b n s r → r = [] ∨ Inside r := by
  induction n with
  | zero => exact ⟨fun s r v _ h => by simp [parseValue] at h, fun b s r _ h => absurd h endsAt_zero⟩
  | succ n ih =>
    obtain ⟨ihv, ihe⟩ := ih
    have hcomma : ∀ {t : List UInt8}, t = [] ∨ Inside t → skipComma t = [] ∨ Inside (skipComma t) := by
      rintro t (rfl | ht)
      · exact .inl rfl
      · exact .inr ht.skipComma.1
    refine ⟨fun s r v hs h => ?_, fun b s r hs h => ?_⟩
    · obtain ⟨hk, -⟩ := hs.token ha
      rcases (value_succ hs).1 ⟨v, h⟩ with ⟨b, t, e, ht⟩ | ⟨-, rfl⟩
      · rw [e] at hk
        exact ihe b t r hk ht
      · exact .inr hk
    · cases b with
      | array =>
        rcases (array_succ hs).1 h with ⟨hend, rfl⟩ | ⟨-, v, t, hv, hne, ht⟩
        · by_cases h0 : deref s = 0
          · rw [hs.end h0]
            exact .inl rfl
          · exact .inr (hs.tail h0).1
        · have ht' := (ihv s t v hs hv).resolve_left hne
          exact ihe _ _ _ ht'.skipComma.1 ht
      | object =>
        rcases parse_place hs strtod with ⟨-, hp⟩ | ⟨t, -, ht, -, hp⟩ | ⟨t, key, -, ht, -, hp⟩
        · obtain ⟨ms, he⟩ := h
          obtain ⟨ms', hms⟩ := hp n
          rw [hms] at he
          cases he
          exact .inr ⟨[], rfl, by simp⟩
        · obtain ⟨ms, he⟩ := h
          rw [hp n] at he
          cases he
          exact .inr ht
        · obtain ⟨v, t', hv, ⟨-, rfl⟩ | ⟨-, hr⟩⟩ := (object_value hp).1 h
          · exact ihv t _ v ht hv
          · rcases hcomma (ihv t t' v ht hv) with e | ht'
            · rw [e] at hr
              exact .inl (object_nil hr)
            · exact ihe _ _ _ ht' hr

/-- What is open further out can go on from where a bracket ended. -/
private def Resumes (strtod : List UInt8 → D × Nat) (st : List Bracket) (r : List UInt8) : Prop :=
  if r = [] then .array ∉ st else follow strtod st (resume st r) = true

private theorem resumes_nil (st : List Bracket) : Resumes strtod st [] ↔ .array ∉ st := by rw [Resumes, if_pos rfl]

private theorem resumes_inside (hr : Inside r) (st : List Bracket) : Resumes strtod st r ↔
    follow strtod st (resume st r) = true := by
  rw [Resumes, if_neg hr.ne_nil]

/-- From the NUL. -/
private theorem resumes_end (st : List Bracket) : Resumes strtod st [0] ↔ st.count .array ≤ 1 := by
  have hresume : resume st [0] = [0] := by rcases st with _ | ⟨_ | _, st⟩ <;> rfl
  rw [resumes_inside (r := [0]) ⟨[], rfl, by simp⟩, hresume, follow_end, decide_eq_true_eq]

/-- In front of a comma, an array goes on as behind it. -/
private theorem follow_array_comma (ha : Advances strtod) (hs : Inside s) (st : List Bracket) :
    follow strtod (.array :: st) (skipComma s) = follow strtod (.array :: st) s :=
  follow_array_skip st ha hs.skipComma.1 hs (skipCommas_comma s)

private theorem follow_of_array (ha : Advances strtod) (hs : Inside s)
    (ih : ∀ m < n, ∀ b s r st, Inside s → EndsAt strtod b m s r → Resumes strtod st r →
    follow strtod (b :: st) s = true)
    (h : EndsAt strtod .array n s r) (hr : Resumes strtod st r) : follow strtod (.array :: st) s = true := by
  obtain ⟨n, rfl⟩ : ∃ k, n = k + 1 := Nat.exists_eq_succ_of_ne_zero fun e => endsAt_zero (e ▸ h)
  rcases (array_succ hs).1 h with ⟨hend, rfl⟩ | ⟨hend, v, t, hv, hne, ht⟩
  · by_cases h0 : deref s = 0
    · rw [hs.end h0] at hr ⊢
      rw [follow_array_end st (by decide), decide_eq_true_eq]
      exact (resumes_nil st).1 hr
    · have hb := hend.resolve_left h0
      have hskip : skipCommas s = s := by
        obtain ⟨c, u, rfl, -⟩ := hs.cons
        rw [deref_cons] at hb
        rw [hb]
        exact List.dropWhile_cons_of_neg (by decide)
      rw [follow_array_close ha hs st (by rw [hskip, hb]), hskip]
      exact (resumes_inside (hs.tail h0).1 st).1 hr
  · -- an element, and the rest of the array
    have htin : Inside t := ((ends_inside ha).1 s t v hs hv).resolve_left hne
    have hrest : follow strtod (.array :: st) t = true := by
      rw [← follow_array_comma ha htin]
      exact ih n (Nat.lt_succ_self n) .array _ r st htin.skipComma.1 ht hr
    obtain ⟨n, rfl⟩ : ∃ k, n = k + 1 := Nat.exists_eq_succ_of_ne_zero fun e => by subst e; simp [parseValue] at hv
    rcases (value_succ hs).1 ⟨v, hv⟩ with ⟨b, u, e, hu⟩ | ⟨hk, rfl⟩
    · obtain ⟨hin, -⟩ := hs.token ha
      rw [e] at hin
      rw [follow_array_opens ha hs st e]
      exact ih n (by omega) b u t _ hin hu ((resumes_inside htin _).2 hrest)
    · rcases e : token strtod s with ⟨b | _ | _, u⟩
      · exact absurd (by rw [e]) (hk b)
      · rw [follow_array_scalar ha hs st e]
        rwa [e] at hrest
      · have hspace : (token strtod s).2 = s.dropWhile isspace := by
          rcases parse_token hs strtod with ⟨r', h', -⟩ | ⟨r', h', -⟩ | ⟨r', v', h', -⟩ | ⟨h', -⟩ <;> rw [h'] at e <;>
            cases e
          rw [h']
        rw [hspace] at hrest
        rwa [follow_array_skip st ha hs (hs.dropWhile (by decide)).1 (skipCommas_space s).symm]

private theorem follow_of_object (ha : Advances strtod) (hs : Inside s)
    (ih : ∀ m < n, ∀ b s r st, Inside s → EndsAt strtod b m s r → Resumes strtod st r →
    follow strtod (b :: st) s = true)
    (h : EndsAt strtod .object n s r) (hr : Resumes strtod st r) : follow strtod (.object :: st) s = true := by
  obtain ⟨n, rfl⟩ : ∃ k, n = k + 1 := Nat.exists_eq_succ_of_ne_zero fun e => endsAt_zero (e ▸ h)
  rcases parse_place hs strtod with ⟨e, hp⟩ | ⟨t, e, ht, hlt, hp⟩ | ⟨t, key, e, ht, hlt, hp⟩
  · obtain ⟨ms, he⟩ := h
    obtain ⟨ms', hms⟩ := hp n
    rw [hms] at he
    cases he
    rw [follow_object_ends st e, decide_eq_true_eq]
    exact (resumes_end st).1 hr
  · obtain ⟨ms, he⟩ := h
    rw [hp n] at he
    cases he
    rw [follow_object_closes ha st e ht hlt]
    exact (resumes_inside ht st).1 hr
  · obtain ⟨v, t', hv, hcase⟩ := (object_value hp).1 h
    -- the object goes on behind the value
    have hrest : Resumes strtod (.object :: st) t' := by
      rcases (ends_inside ha).1 t t' v ht hv with rfl | ht'
      · obtain rfl : r = [] := by
          rcases hcase with ⟨-, rfl⟩ | ⟨-, hr'⟩
          · rfl
          · exact object_nil hr'
        rw [resumes_nil] at hr ⊢
        simpa using hr
      · rcases hcase with ⟨rfl, rfl⟩ | ⟨-, hr'⟩
        · have hend := ht'.end ((null_end n).1 _ _ hv)
          rw [hend, resumes_end] at hr ⊢
          rwa [List.count_cons_of_ne (by decide)]
        · rw [resumes_inside ht']
          exact ih n (Nat.lt_succ_self n) .object _ r st ht'.skipComma.1 hr' hr
    obtain ⟨n, rfl⟩ : ∃ k, n = k + 1 := Nat.exists_eq_succ_of_ne_zero fun e => by subst e; simp [parseValue] at hv
    obtain ⟨hin, -⟩ := ht.token ha
    rcases (value_succ ht).1 ⟨v, hv⟩ with ⟨b, u, e', hu⟩ | ⟨hk, rfl⟩
    · rw [e'] at hin
      rw [follow_object_opens ha st e ht hlt e']
      exact ih n (by omega) b u t' _ hin hu hrest
    · rw [follow_object_value ha st e ht hlt hk]
      exact (resumes_inside hin _).1 hrest

/-- Where the parser ends, the brackets can be followed. -/
private theorem follow_of_ends (ha : Advances strtod) : ∀ n b s r st, Inside s → EndsAt strtod b n s r →
    Resumes strtod st r → follow strtod (b :: st) s = true := by
  intro n
  induction n using Nat.strong_induction_on with
  | _ n ih =>
    intro b s r st hs h hr
    cases b with
    | array => exact follow_of_array ha hs ih h hr
    | object => exact follow_of_object ha hs ih h hr

private theorem value_read (hs : Inside s) (hk : ∀ b, (token strtod s).1 ≠ .opens b) (n : Nat) :
    ∃ v, parseValue strtod (n + 1) s = some (v, (token strtod s).2) := (value_succ hs).2 (.inr ⟨hk, rfl⟩)

private theorem value_nothing (hs : Inside s) (hk : token strtod s = (.nothing, t)) (n : Nat) :
    ∃ v, parseValue strtod (n + 1) s = some (v, t) := by
  have hread := value_read hs (by rw [hk]; simp) n
  rwa [hk] at hread

/-- In front of an array's elements white space and commas are passed over, a turn of the loop for every comma. -/
private theorem array_skip (hs : Inside s) (h : ∃ n, EndsAt strtod .array n (skipCommas s) r) :
    ∃ n, EndsAt strtod .array n s r := by
  obtain ⟨u, rfl, h0⟩ := hs
  induction u with
  | nil => exact h
  | cons c u ih =>
    obtain ⟨hc0, hu⟩ : ¬0 = c ∧ 0 ∉ u := by simpa using h0
    have hin : Inside (c :: (u ++ [0])) := ⟨c :: u, rfl, h0⟩
    have hin' : Inside (u ++ [0]) := ⟨u, rfl, hu⟩
    by_cases hc : isspace c = true ∨ c = asc ','
    · have hskip : skipCommas (c :: u ++ [0]) = skipCommas (u ++ [0]) := List.dropWhile_cons_of_pos (by simpa using hc)
      rw [hskip] at h
      obtain ⟨n, hn⟩ := ih hu h
      have hend : ¬(deref (c :: u ++ [0]) = 0 ∨ deref (c :: u ++ [0]) = asc ']') := by
        rintro (h | h)
        · exact hc0 h.symm
        · rw [List.cons_append, deref_cons] at h
          rw [h] at hc
          exact absurd hc (by decide)
      by_cases hspace : isspace c = true
      · -- the value is read from behind the white space
        have hv : ∀ m, parseValue strtod m (c :: u ++ [0]) = parseValue strtod m (u ++ [0]) := by
          intro m
          cases m with
          | zero => rfl
          | succ m => rw [parseValue, parseValue, List.cons_append, List.dropWhile_cons_of_pos hspace]
        by_cases hend' : deref (u ++ [0]) = 0 ∨ deref (u ++ [0]) = asc ']'
        · obtain ⟨d, t, e, -⟩ := hin'.cons
          have hd : isspace d = false := by
            rw [e, deref_cons] at hend'
            rcases hend' with rfl | rfl <;> decide
          have hcomma : skipComma (u ++ [0]) = u ++ [0] := by
            refine if_neg fun h => ?_
            rw [h] at hend'
            exact absurd hend' (by decide)
          have hdrop : (u ++ [0]).dropWhile isspace = d :: t := by
            rw [e]
            exact List.dropWhile_cons_of_neg (by simp [hd])
          have hnothing : token strtod (u ++ [0]) = (.nothing, u ++ [0]) := by
            rw [token_nothing hdrop, e]
            rw [e, deref_cons] at hend'
            exact hend'.imp_right .inr
          obtain ⟨v, hval⟩ := value_nothing hin' hnothing n
          refine ⟨n + 2, (array_succ hin).2 (.inr ⟨hend, v, u ++ [0], (hv _).trans hval, hin'.ne_nil, ?_⟩)⟩
          rw [hcomma]
          exact hn.mono (Nat.le_succ n)
        · obtain ⟨n, rfl⟩ : ∃ k, n = k + 1 := Nat.exists_eq_succ_of_ne_zero fun e => endsAt_zero (e ▸ hn)
          obtain ⟨v, t, hval, hne, ht⟩ := (((array_succ hin').1 hn).resolve_left fun h => hend' h.1).2
          exact ⟨n + 1, (array_succ hin).2 (.inr ⟨hend, v, t, (hv n).trans hval, hne, ht⟩)⟩
      · -- nothing is read at the comma
        have hcomma := hc.resolve_left hspace
        have hdrop : (c :: u ++ [0]).dropWhile isspace = c :: (u ++ [0]) := List.dropWhile_cons_of_neg hspace
        have hnothing : token strtod (c :: u ++ [0]) = (.nothing, c :: (u ++ [0])) :=
          token_nothing hdrop (.inr (.inl hcomma))
        obtain ⟨v, hval⟩ := value_nothing hin hnothing n
        refine ⟨n + 2, (array_succ hin).2 (.inr ⟨hend, v, _, hval, by simp, ?_⟩)⟩
        have hskip : skipComma (c :: (u ++ [0])) = u ++ [0] := if_pos hcomma
        rw [hskip]
        exact hn.mono (Nat.le_succ n)
    · have hskip : skipCommas (c :: u ++ [0]) = c :: u ++ [0] := List.dropWhile_cons_of_neg (by simpa using hc)
      rwa [hskip] at h

/-- An element, and what follows it. -/
private theorem array_next (hs : Inside s) (hend : ¬(deref s = 0 ∨ deref s = asc ']')) (ht : Inside t)
    (hv : ∃ n v, parseValue strtod n s = some (v, t)) (h : ∃ n, EndsAt strtod .array n (skipComma t) r) :
    ∃ n, EndsAt strtod .array n s r := by
  obtain ⟨n, v, hv⟩ := hv
  obtain ⟨m, hm⟩ := h
  refine ⟨max n m + 1, (array_succ hs).2 (.inr ⟨hend, v, t, ?_, ht.ne_nil, hm.mono (Nat.le_max_right n m)⟩)⟩
  exact (parse_mono (Nat.le_max_left n m)).1 _ _ hv

/-- What is to be shown of a place: the parser ends behind the bracket, and what is open further out can go on. -/
private def Lands (strtod : List UInt8 → D × Nat) (b : Bracket) (st : List Bracket) (s : List UInt8) : Prop :=
  ∃ r, (∃ m, EndsAt strtod b m s r) ∧ Resumes strtod st r ∧ (r = [] ∨ Inside r ∧ r.length ≤ s.length)

private theorem array_lands (ha : Advances strtod) (hs : Inside s)
    (ih : ∀ t, Inside t → t.length < s.length → ∀ b st, follow strtod (b :: st) t = true → Lands strtod b st t)
    (hf : follow strtod (.array :: st) s = true) : Lands strtod .array st s := by
  obtain ⟨h1, hle⟩ := hs.skipCommas
  -- it is enough to look at the first element
  suffices h : Lands strtod .array st (skipCommas s) by
    obtain ⟨r, hr, hres, hpos⟩ := h
    exact ⟨r, array_skip hs hr, hres, hpos.imp_right fun h => ⟨h.1, h.2.trans hle⟩⟩
  rw [follow_array_skip st ha hs h1 (List.dropWhile_idempotent _ _).symm] at hf
  replace ih : ∀ t, Inside t → t.length < (skipCommas s).length → ∀ b st, follow strtod (b :: st) t = true →
    Lands strtod b st t :=
    fun t ht hlt => ih t ht (by omega)
  have hskip : skipCommas (skipCommas s) = skipCommas s := List.dropWhile_idempotent _ s
  generalize skipCommas s = s at h1 hf ih hskip
  by_cases h0 : deref s = 0
  · rw [follow_array_end st (by rwa [hskip]), decide_eq_true_eq] at hf
    refine ⟨[], ⟨1, (array_succ h1).2 (.inl ⟨.inl h0, ?_⟩)⟩, (resumes_nil st).2 hf, .inl rfl⟩
    rw [h1.end h0]
    rfl
  by_cases hb : deref s = asc ']'
  · rw [follow_array_close ha h1 st (by rwa [hskip]), hskip] at hf
    obtain ⟨ht, hlt⟩ := h1.tail h0
    exact ⟨s.tail, ⟨1, (array_succ h1).2 (.inl ⟨.inr hb, rfl⟩)⟩, (resumes_inside ht st).2 hf,
      .inr ⟨ht, Nat.le_of_lt hlt⟩⟩
  have hend : ¬(deref s = 0 ∨ deref s = asc ']') := fun h => h.elim h0 hb
  -- the rest of the array from behind an element
  have hnext : ∀ t, Inside t → t.length < s.length → (∃ n v, parseValue strtod n s = some (v, t)) →
      follow strtod (.array :: st) t = true → Lands strtod .array st s := by
    intro t ht hlt hv hft
    obtain ⟨hc, hlec⟩ := ht.skipComma
    rw [← follow_array_comma ha ht] at hft
    obtain ⟨r, hr, hres, hpos⟩ := ih _ hc (by omega) .array st hft
    exact ⟨r, array_next h1 hend ht hv hr, hres, hpos.imp_right fun h => ⟨h.1, by omega⟩⟩
  obtain ⟨hk, -, hlt⟩ := h1.token ha
  rcases e : token strtod s with ⟨b | _ | _, t⟩ <;> rw [e] at hk hlt
  · have hlt' : t.length < s.length := hlt (by simp)
    rw [follow_array_opens ha h1 st e] at hf
    obtain ⟨r, ⟨m, hm⟩, hres, hpos⟩ := ih t hk hlt' b (.array :: st) hf
    obtain ⟨v, hv⟩ := (value_succ h1).2 (.inl ⟨b, t, e, hm⟩)
    rcases hpos with rfl | ⟨hr, hle'⟩
    · exact absurd List.mem_cons_self ((resumes_nil _).1 hres)
    · exact hnext r hr (by omega) ⟨m + 1, v, hv⟩ ((resumes_inside hr _).1 hres)
  · rw [follow_array_scalar ha h1 st e] at hf
    have hread := value_read h1 (by rw [e]; simp) 0
    rw [e] at hread
    exact hnext t hk (hlt (by simp)) ⟨1, hread⟩ hf
  · rw [follow_array_stuck st (by rwa [hskip]) (by rwa [hskip]) (by rw [hskip, e])] at hf
    cases hf

private theorem object_lands (ha : Advances strtod) (hs : Inside s)
    (ih : ∀ t, Inside t → t.length < s.length → ∀ b st, follow strtod (b :: st) t = true → Lands strtod b st t)
    (hf : follow strtod (.object :: st) s = true) : Lands strtod .object st s := by
  rcases parse_place hs strtod with ⟨e, hp⟩ | ⟨t, e, ht, hlt, hp⟩ | ⟨t, key, e, ht, hlt, hp⟩
  · rw [follow_object_ends st e, decide_eq_true_eq] at hf
    obtain ⟨ms, hms⟩ := hp 0
    exact ⟨[0], ⟨1, ms, hms⟩, (resumes_end st).2 hf, .inr ⟨⟨[], rfl, by simp⟩, List.length_pos_iff.2 hs.ne_nil⟩⟩
  · rw [follow_object_closes ha st e ht hlt] at hf
    exact ⟨t, ⟨1, _, hp 0⟩, (resumes_inside ht st).2 hf, .inr ⟨ht, Nat.le_of_lt hlt⟩⟩
  · -- the rest of the object from behind a value
    have hnext : ∀ n v t', parseValue strtod n t = some (v, t') → (t' = [] ∨ Inside t' ∧ t'.length ≤ t.length) →
        Resumes strtod (.object :: st) t' → Lands strtod .object st s := by
      rintro n v t' hv hpos hres
      by_cases hnone : v = none
      · refine ⟨t', ⟨n + 1, (object_value hp).2 ⟨v, t', hv, .inl ⟨hnone, rfl⟩⟩⟩, ?_,
          hpos.imp_right fun h => ⟨h.1, by omega⟩⟩
        subst hnone
        rcases hpos with rfl | ⟨ht', -⟩
        · rw [resumes_nil] at hres ⊢
          exact fun h => hres (List.mem_cons_of_mem _ h)
        · rw [ht'.end ((null_end n).1 _ _ hv), resumes_end] at hres ⊢
          rwa [List.count_cons_of_ne (by decide)] at hres
      · rcases hpos with rfl | ⟨ht', hle⟩
        · have hnil : EndsAt strtod .object (n + 1) (skipComma []) [] := ⟨some .nil, by
            rw [show skipComma [] = [] from rfl, parseObject, if_pos deref_nil]⟩
          refine ⟨[], ⟨n + 2, (object_value hp).2 ⟨v, [], (parse_mono (Nat.le_succ n)).1 _ _ hv, .inr ⟨hnone, hnil⟩⟩⟩,
            ?_, .inl rfl⟩
          rw [resumes_nil] at hres ⊢
          exact fun h => hres (List.mem_cons_of_mem _ h)
        · obtain ⟨hc, hlec⟩ := ht'.skipComma
          obtain ⟨r, ⟨m, hm⟩, hres', hpos'⟩ := ih _ hc (by omega) .object st ((resumes_inside ht' _).1 hres)
          refine ⟨r, ⟨max n m + 1, (object_value hp).2 ⟨v, t', (parse_mono (Nat.le_max_left n m)).1 _ _ hv,
            .inr ⟨hnone, ?_⟩⟩⟩, hres', hpos'.imp_right fun h => ⟨h.1, by omega⟩⟩
          exact hm.mono (Nat.le_max_right n m)
    obtain ⟨hk, hlek, hltk⟩ := ht.token ha
    by_cases hopen : ∃ b, (token strtod t).1 = .opens b
    · obtain ⟨b, hb⟩ := hopen
      have e' : token strtod t = (.opens b, (token strtod t).2) := Prod.ext hb rfl
      have hltk' := hltk (by rw [hb]; simp)
      rw [follow_object_opens ha st e ht hlt e'] at hf
      obtain ⟨r, ⟨m, hm⟩, hres, hpos⟩ := ih _ hk (by omega) b (.object :: st) hf
      obtain ⟨v, hv⟩ := (value_succ ht).2 (.inl ⟨b, _, e', hm⟩)
      exact hnext (m + 1) v r hv (hpos.imp_right fun h => ⟨h.1, by omega⟩) hres
    · have hopen' : ∀ b, (token strtod t).1 ≠ .opens b := fun b hb => hopen ⟨b, hb⟩
      rw [follow_object_value ha st e ht hlt hopen'] at hf
      obtain ⟨v, hv⟩ := value_read ht hopen' 0
      exact hnext 1 v _ hv (.inr ⟨hk, hlek⟩) ((resumes_inside hk _).2 hf)

/-- Where the brackets can be followed, the parser ends. -/
private theorem ends_of_follow (ha : Advances strtod) : ∀ n s, Inside s → s.length ≤ n →
    ∀ b st, follow strtod (b :: st) s = true → Lands strtod b st s := by
  intro n
  induction n with
  | zero => exact fun s hs hle => absurd (List.length_eq_zero_iff.1 (Nat.le_zero.1 hle)) hs.ne_nil
  | succ n ih =>
    intro s hs hle b st hf
    have ih' : ∀ t, Inside t → t.length < s.length → ∀ b st, follow strtod (b :: st) t = true → Lands strtod b st t :=
      fun t ht hlt => ih t ht (by omega)
    cases b with
    | array => exact array_lands ha hs ih' hf
    | object => exact object_lands ha hs ih' hf

/-- `js_parse` comes to an end on a string without reading past its NUL if and only if the brackets can be followed. -/
theorem parse_ends_iff (ha : Advances strtod) (s : CString) : (∃ n, jsParse strtod n s.bytes ≠ none) ↔
    Followed strtod s = true := by
  have hs := CString.inside s
  have hval : (∃ n, jsParse strtod n s.bytes ≠ none) ↔ ∃ n r v, parseValue strtod n (s.bytes ++ [0]) = some (v, r) := by
    constructor
    · rintro ⟨n, h⟩
      obtain ⟨v, hv⟩ := Option.ne_none_iff_exists'.1 h
      obtain ⟨⟨v, r⟩, h, -⟩ := Option.map_eq_some_iff.1 hv
      exact ⟨n, r, v, h⟩
    · rintro ⟨n, r, v, h⟩
      exact ⟨n, by rw [jsParse, h]; simp⟩
  rw [hval, Followed]
  obtain ⟨hk, -⟩ := hs.token ha
  rcases e : token strtod (s.bytes ++ [0]) with ⟨b | _ | _, t⟩ <;> rw [e] at hk
  · simp only
    constructor
    · rintro ⟨n, r, hv⟩
      obtain ⟨n, rfl⟩ : ∃ k, n = k + 1 := Nat.exists_eq_succ_of_ne_zero fun e => by subst e; simp [parseValue] at hv
      rcases (value_succ hs).1 hv with ⟨b', t', e', ht⟩ | ⟨hk, -⟩
      · rw [e] at e'
        cases e'
        refine follow_of_ends ha n b t r [] hk ht ?_
        rw [Resumes]
        split
        · simp
        · rfl
      · exact absurd (by rw [e]) (hk b)
    · intro hf
      obtain ⟨r, ⟨m, hm⟩, -⟩ := ends_of_follow ha _ t hk (Nat.le_refl _) b [] hf
      exact ⟨m + 1, r, (value_succ hs).2 (.inl ⟨b, t, e, hm⟩)⟩
  · exact iff_of_true ⟨1, _, value_read hs (by rw [e]; simp) 0⟩ rfl
  · exact iff_of_true ⟨1, _, value_read hs (by rw [e]; simp) 0⟩ rfl

/-- The number `strtod` reads, as its text. -/
def strtodSigned (s : List UInt8) : List UInt8 × Nat :=
  let text := s.takeWhile fun c => c = asc '-' ∨ isdigit c
  (text, text.length)

private theorem strtodSigned_advances : Advances strtodSigned := by
  intro s hs hc
  obtain ⟨u, rfl, -⟩ := hs
  constructor
  · refine List.length_pos_iff.2 fun hnil => ?_
    cases u with
    | nil => exact absurd hc (by decide)
    | cons c u =>
      have hhead : List.takeWhile (fun c => decide (c = asc '-' ∨ isdigit c = true)) (c :: u ++ [0]) = c :: _ :=
        List.takeWhile_cons_of_pos (decide_eq_true hc)
      exact List.cons_ne_nil _ _ (hhead.symm.trans hnil)
  · have hstop : (u ++ [0]).takeWhile (fun c => c = asc '-' ∨ isdigit c) ≠ u ++ [0] := by
      intro heq
      have := List.takeWhile_eq_self_iff.1 heq 0 (by simp)
      exact absurd this (by decide)
    exact Nat.lt_of_le_of_ne (List.takeWhile_prefix _).length_le fun heq =>
      hstop ((List.takeWhile_prefix _).eq_of_length heq)

theorem parse_ends_iff_nested : ∃ n, jsParse strtodSigned n (lit "[1,\x7b\"a\":[]\x7d , -2 ") ≠ none :=
  (parse_ends_iff strtodSigned_advances ⟨lit "[1,\x7b\"a\":[]\x7d , -2 ", by decide⟩).2 (by decide)

/-- The loop of an array stays in front of a byte that starts no value. -/
private theorem array_stays (strtod : List UInt8 → D × Nat) : ∀ n, parseArray strtod n (lit "x" ++ [0]) = none := by
  intro n
  induction n with
  | zero => rfl
  | succ n ih =>
    cases n with
    | zero => rfl
    | succ n =>
      have hstep : parseArray strtod (n + 1 + 1) (lit "x" ++ [0]) =
          (parseArray strtod (n + 1) (lit "x" ++ [0])).bind fun r => some (.cons .null r.1, r.2) := rfl
      rw [hstep, ih]
      rfl

/-- `[x` is parsed without end. -/
theorem parse_endless : ¬∀ s : CString, ∃ n, jsParse strtodSigned n s.bytes ≠ none := by
  intro h
  obtain ⟨n, hn⟩ := h ⟨lit "[x", by decide⟩
  apply hn
  cases n with
  | zero => rfl
  | succ n =>
    have hstep : parseValue strtodSigned (n + 1) (lit "[x" ++ [0]) =
        (parseArray strtodSigned n (lit "x" ++ [0])).bind fun r => some (some (.array r.1), r.2) := rfl
    rw [jsParse, hstep, array_stays]
    rfl

end JACLibc.Json
