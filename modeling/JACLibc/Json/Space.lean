import JACLibc.Json.TextSpec

/-!
# White space between the tokens of JSON

A `Doc` is a valid JSON text with the white space that stands between its tokens.  `js_parse` skips white space in front
of a value, and in an object in front of a key, of a `:` and of the `}`.  In an array it takes white space in front of a
`,` or of the `]` for one more `null`, and in an object it takes a `,` behind white space for the start of the next key.
Where a text has none of this it is read like the text without white space, and nowhere else
(`white_space_insignificant`).

That is as long as the keys are read to their end.  Quotes and white space in front of a key are skipped, also those
of an empty key, a `}` there ends the object, and an escaped quote ends the key.  A text with such a key is read as
something else from there on, with its white space.
-/

namespace JACLibc.Json

/-! ### Texts -/

/-- A byte of white space. -/
def isWs (c : UInt8) : Bool := c = 32 ∨ c = 9 ∨ c = 10 ∨ c = 13

/-- White space between two tokens. -/
abbrev Gap := { g : List UInt8 // ∀ c ∈ g, isWs c }

def Gap.none : Gap := ⟨[], by simp⟩

/-- What may stand between the quotes of a string; JSON allows less. -/
inductive RawOk : List UInt8 → Prop
  | nil : RawOk []
  | plain {c : UInt8} {s : List UInt8} (h0 : c ≠ 0) (hq : c ≠ asc '"') (hb : c ≠ asc '\\') (hs : RawOk s) : RawOk
    (c :: s)
  | escape {d : UInt8} {s : List UInt8} (h0 : d ≠ 0) (hs : RawOk s) : RawOk (asc '\\' :: d :: s)

abbrev Raw := { s : List UInt8 // RawOk s }

/-- The text of a number; JSON allows less. -/
abbrev Num := { s : List UInt8 // ∃ c t, s = c :: t ∧ (c = asc '-' ∨ isdigit c) }

/-- A key with the white space around it: in front of it, in front of the `:` and behind the `:`. -/
structure Label where
  before : Gap
  key : Raw
  colon : Gap
  after : Gap

mutual

/-- A value with the white space between its tokens. -/
inductive Doc
  | null
  | boolean (b : Bool)
  | number (n : Num)
  | string (raw : Raw)
  | emptyArray (gap : Gap)
  | array (es : Elems)
  | emptyObject (gap : Gap)
  | object (ms : Mems)

/-- The elements of an array, each with the white space in front of it and behind it. -/
inductive Elems
  | last (before : Gap) (v : Doc) (after : Gap)
  | cons (before : Gap) (v : Doc) (after : Gap) (es : Elems)

/-- The members of an object, each with the white space behind it. -/
inductive Mems
  | last (label : Label) (v : Doc) (after : Gap)
  | cons (label : Label) (v : Doc) (after : Gap) (ms : Mems)

end

def Label.onto (l : Label) (s : List UInt8) : List UInt8 :=
  l.before.1 ++ asc '"' :: (l.key.1 ++ asc '"' :: (l.colon.1 ++ asc ':' :: (l.after.1 ++ s)))

mutual

/-- The text in front of `s`. -/
def Doc.onto : Doc → List UInt8 → List UInt8
  | .null, s => lit "null" ++ s
  | .boolean b, s => (if b then lit "true" else lit "false") ++ s
  | .number n, s => n.1 ++ s
  | .string raw, s => asc '"' :: (raw.1 ++ asc '"' :: s)
  | .emptyArray gap, s => asc '[' :: (gap.1 ++ asc ']' :: s)
  | .array es, s => asc '[' :: es.onto s
  | .emptyObject gap, s => asc '{' :: (gap.1 ++ asc '}' :: s)
  | .object ms, s => asc '{' :: ms.onto s

def Elems.onto : Elems → List UInt8 → List UInt8
  | .last before v after, s => before.1 ++ v.onto (after.1 ++ asc ']' :: s)
  | .cons before v after es, s => before.1 ++ v.onto (after.1 ++ asc ',' :: es.onto s)

def Mems.onto : Mems → List UInt8 → List UInt8
  | .last label v after, s => label.onto (v.onto (after.1 ++ asc '}' :: s))
  | .cons label v after ms, s => label.onto (v.onto (after.1 ++ asc ',' :: ms.onto s))

end

def Label.compact (l : Label) : Label := ⟨.none, l.key, .none, .none⟩

mutual

/-- The text without white space between its tokens. -/
def Doc.compact : Doc → Doc
  | .null => .null
  | .boolean b => .boolean b
  | .number n => .number n
  | .string raw => .string raw
  | .emptyArray _ => .emptyArray .none
  | .array es => .array es.compact
  | .emptyObject _ => .emptyObject .none
  | .object ms => .object ms.compact

def Elems.compact : Elems → Elems
  | .last _ v _ => .last .none v.compact .none
  | .cons _ v _ es => .cons .none v.compact .none es.compact

def Mems.compact : Mems → Mems
  | .last label v _ => .last label.compact v.compact .none
  | .cons label v _ ms => .cons label.compact v.compact .none ms.compact

end

/-- The key from its first byte that is no white space on. -/
def Raw.body (key : Raw) : List UInt8 := key.1.dropWhile isspace

/-- The key as `js_parse_object` takes it: it skips white space behind the quote, too, and stops at an escaped quote. -/
def Raw.name (key : Raw) : List UInt8 := key.body.takeWhile (· ≠ asc '"')

section Tree

variable {D : Type} (num : List UInt8 → D)

mutual

/-- The tree that the parser makes of the text without white space. -/
def Doc.tree : Doc → Value D
  | .null => .null
  | .boolean b => .boolean b
  | .number n => .number (num n.1)
  | .string raw => .string (.of (unescape raw.1))
  | .emptyArray _ => .array .nil
  | .array es => .array es.tree
  | .emptyObject _ => .object .nil
  | .object ms => .object ms.tree

def Elems.tree : Elems → Values D
  | .last _ v _ => .cons v.tree .nil
  | .cons _ v _ es => .cons v.tree es.tree

def Mems.tree : Mems → Members D
  | .last label v _ => .cons (.of label.key.name) v.tree .nil
  | .cons label v _ ms => .cons (.of label.key.name) v.tree ms.tree

end

end Tree

/-! ### Conditions -/

def Mems.label : Mems → Label
  | .last label _ _ => label
  | .cons label _ _ _ => label

mutual

/-- No white space where the parser does not skip it: in front of a `,` or `]` of an array, or of a `,` of an object,
unless the key that follows is itself a comma followed by the white space that stands behind the `,`. -/
def Doc.Clean : Doc → Prop
  | .emptyArray gap => gap.1 = []
  | .array es => es.Clean
  | .object ms => ms.Clean
  | _ => True

def Elems.Clean : Elems → Prop
  | .last _ v after => v.Clean ∧ after.1 = []
  | .cons _ v after es => v.Clean ∧ after.1 = [] ∧ es.Clean

def Mems.Clean : Mems → Prop
  | .last _ v _ => v.Clean
  | .cons _ v after ms =>
    v.Clean ∧ (after.1 = [] ∨ ms.label.key.name = asc ',' :: ms.label.before.1) ∧ ms.Clean

end

/-- A key that the parser reads to its end: with a byte that is not white space, the first of which is no `}`, and
without a `:` behind an escaped quote. -/
def Label.Ok (l : Label) : Prop :=
  (∃ c s, l.key.name = c :: s ∧ c ≠ asc '}') ∧ asc ':' ∉ l.key.body.dropWhile (· ≠ asc '"')

mutual

def Doc.KeysOk : Doc → Prop
  | .array es => es.KeysOk
  | .object ms => ms.KeysOk
  | _ => True

def Elems.KeysOk : Elems → Prop
  | .last _ v _ => v.KeysOk
  | .cons _ v _ es => v.KeysOk ∧ es.KeysOk

def Mems.KeysOk : Mems → Prop
  | .last label v _ => label.Ok ∧ v.KeysOk
  | .cons label v _ ms => label.Ok ∧ v.KeysOk ∧ ms.KeysOk

end

/-- No white space behind the key. -/
def Label.Bare (l : Label) : Prop := l.colon.1 = [] ∧ l.after.1 = []

/-- No white space between the tokens. -/
def Doc.Bare (d : Doc) : Prop := d.compact = d

def Elems.Bare (es : Elems) : Prop := es.compact = es

def Mems.Bare (ms : Mems) : Prop := ms.compact = ms

mutual

/-- No white space where the parser does not skip it, as far as it reads the keys to their end; and no white space at
all behind the quote of the first key that it does not read to its end. -/
def Doc.Tidy : Doc → Prop
  | .emptyArray gap => gap.1 = []
  | .array es => es.Tidy
  | .object ms => ms.Tidy
  | _ => True

def Elems.Tidy : Elems → Prop
  | .last _ v after => v.Tidy ∧ after.1 = []
  | .cons _ v after es => v.Tidy ∧ after.1 = [] ∧ (v.KeysOk ∧ es.Tidy ∨ es.Bare)

def Mems.Tidy : Mems → Prop
  | .last label v after =>
    label.Ok ∧ v.Tidy ∧ (v.KeysOk ∨ after.1 = []) ∨ label.Bare ∧ v.Bare ∧ after.1 = []
  | .cons label v after ms =>
    label.Ok ∧ v.KeysOk ∧ v.Tidy ∧ ms.Tidy ∧
        (after.1 = [] ∨ ms.label.Ok ∧ ms.label.key.name = asc ',' :: ms.label.before.1) ∨
      label.Ok ∧ v.Tidy ∧ after.1 = [] ∧ ms.Bare ∨
      label.Bare ∧ v.Bare ∧ after.1 = [] ∧ ms.Bare

end

mutual

/-- The numbers of a text. -/
def Doc.numbers : Doc → List Num
  | .number n => [n]
  | .array es => es.numbers
  | .object ms => ms.numbers
  | _ => []

def Elems.numbers : Elems → List Num
  | .last _ v _ => v.numbers
  | .cons _ v _ es => v.numbers ++ es.numbers

def Mems.numbers : Mems → List Num
  | .last _ v _ => v.numbers
  | .cons _ v _ ms => v.numbers ++ ms.numbers

end

/-- What stands behind a value: the end of the text, a comma, the end of an array or object, or white space. -/
def Stop (s : List UInt8) : Prop := ∃ c t, s = c :: t ∧ (c = 0 ∨ c = asc ',' ∨ c = asc ']' ∨ c = asc '}' ∨ isWs c)

/-! ### Steps of the parser -/

theorem isspace_of_isWs {c : UInt8} (h : isWs c) : isspace c := by
  revert h
  apply forall_byte (c := c)
  decide +kernel

/-- White space is none of the bytes that the parser looks for. -/
theorem plain_of_isWs {c : UInt8} (h : isWs c) : c ≠ 0 ∧ c ≠ asc '"' ∧ c ≠ asc ',' ∧ c ≠ asc ':' ∧ c ≠ asc ']' ∧
    c ≠ asc '}' := by
  revert h
  apply forall_byte (c := c)
  decide +kernel

private theorem Gap.dropWhile (g : Gap) {p : UInt8 → Bool} (hp : ∀ c, isWs c → p c = true) (s : List UInt8) :
    (g.1 ++ s).dropWhile p = s.dropWhile p :=
  List.dropWhile_append_of_pos fun c hc => hp c (g.2 c hc)

/-- White space that is there starts with a byte of it. -/
private theorem Gap.head {g : Gap} (hg : g.1 ≠ []) : ∃ c t, g.1 = c :: t ∧ isWs c := by
  obtain ⟨c, t, e⟩ := List.exists_cons_of_ne_nil hg
  exact ⟨c, t, e, g.2 c (by simp [e])⟩

variable {D : Type} {strtod : List UInt8 → D × Nat} {num : List UInt8 → D}

private theorem parse_gap (g : Gap) (fuel : Nat) (s : List UInt8) :
    parseValue strtod fuel (g.1 ++ s) = parseValue strtod fuel s := by
  cases fuel with
  | zero => rfl
  | succ fuel => rw [parseValue, parseValue, g.dropWhile fun c hc => isspace_of_isWs hc]

/-- The text of a value starts with a byte that ends no array. -/
private theorem Doc.head (d : Doc) (s : List UInt8) : ∃ c t, d.onto s = c :: t ∧ ¬(c = 0 ∨ c = asc ']') := by
  cases d with
  | null => exact ⟨asc 'n', lit "ull" ++ s, rfl, by decide⟩
  | boolean b =>
    cases b with
    | true => exact ⟨asc 't', lit "rue" ++ s, rfl, by decide⟩
    | false => exact ⟨asc 'f', lit "alse" ++ s, rfl, by decide⟩
  | number n =>
    obtain ⟨c, t, e, hc⟩ := n.2
    refine ⟨c, t ++ s, by rw [Doc.onto, e, List.cons_append], ?_⟩
    revert hc
    apply forall_byte (c := c)
    decide +kernel
  | string raw => exact ⟨_, _, rfl, by decide⟩
  | emptyArray gap => exact ⟨_, _, rfl, by decide⟩
  | array es => exact ⟨_, _, rfl, by decide⟩
  | emptyObject gap => exact ⟨_, _, rfl, by decide⟩
  | object ms => exact ⟨_, _, rfl, by decide⟩

private theorem gap_head (g : Gap) (d : Doc) (s : List UInt8) : ∃ c t, g.1 ++ d.onto s = c :: t ∧
    ¬(c = 0 ∨ c = asc ']') := by
  by_cases hg : g.1 = []
  · rw [hg]
    exact d.head s
  · obtain ⟨c, t, e, hc⟩ := Gap.head hg
    refine ⟨c, t ++ d.onto s, by rw [e, List.cons_append], ?_⟩
    rintro (h | h)
    · exact (plain_of_isWs hc).1 h
    · exact (plain_of_isWs hc).2.2.2.2.1 h

private theorem scanString_raw {raw : List UInt8} (hraw : RawOk raw) (s : List UInt8) :
    scanString (raw ++ asc '"' :: s) = (raw, asc '"' :: s) := by
  induction hraw with
  | nil => cases s <;> rfl
  | @plain c t h0 hq hb _ ih =>
    obtain ⟨d, u, e⟩ : ∃ d u, t ++ asc '"' :: s = d :: u := by
      cases t <;> exact ⟨_, _, rfl⟩
    rw [List.cons_append, e, scanString, if_neg (by simp [h0, hq]), if_neg hb, ← e, ih]
  | @escape d t h0 _ ih =>
    rw [List.cons_append, List.cons_append, scanString, if_neg (by decide), if_pos rfl, if_neg h0, ih]

private theorem parse_string (raw : Raw) (s : List UInt8) (fuel : Nat) :
    parseValue strtod (fuel + 1) (asc '"' :: (raw.1 ++ asc '"' :: s)) = some (some (.string (.of (unescape raw.1))),
    s) := by
  rw [parseValue, List.dropWhile_cons_of_neg (by decide)]
  simp only [if_neg (show asc '"' ≠ asc '{' by decide), if_neg (show asc '"' ≠ asc '[' by decide), if_true, parseString,
    scanString_raw raw.2, deref_cons, List.tail_cons]

private theorem parse_number (n : Num) {s : List UInt8} (hn : strtod (n.1 ++ s) = (num n.1, n.1.length)) (fuel : Nat) :
    parseValue strtod (fuel + 1) (n.1 ++ s) = some (some (.number (num n.1)), s) := by
  obtain ⟨c, t, e, hc⟩ := n.2
  have hplain : isspace c = false ∧ c ≠ asc '{' ∧ c ≠ asc '[' ∧ c ≠ asc '"' := by
    revert hc
    apply forall_byte (c := c)
    decide +kernel
  rw [e, List.cons_append] at hn ⊢
  rw [parseValue, List.dropWhile_cons_of_neg (by simp [hplain.1])]
  simp only [if_neg hplain.2.1, if_neg hplain.2.2.1, if_neg hplain.2.2.2, if_pos hc, hn]
  rw [← List.cons_append, List.drop_left]

/-- One turn of the loop over an array. -/
private theorem array_step {c d : UInt8} {s t u : List UInt8} {w : Value D} {fuel : Nat} (hs : s = c :: u)
    (hc : ¬(c = 0 ∨ c = asc ']')) (hv : parseValue strtod fuel s = some (some w, d :: t)) :
    parseArray strtod (fuel + 1) s =
      (parseArray strtod fuel (if d = asc ',' then t else d :: t)).map fun r => (.cons w r.1, r.2) := by
  subst hs
  rw [parseArray, if_neg hc]
  simp only [hv, List.head?_cons, List.tail_cons, Option.bind_eq_bind, Option.bind_some, Option.elim_some]
  cases parseArray strtod fuel (if d = asc ',' then t else d :: t) <;> rfl

/-- White space in front of a `,` or `]` is read as `null`. -/
private theorem array_null {g : Gap} (hg : g.1 ≠ []) {d : UInt8} (hd : d = asc ',' ∨ d = asc ']') (t : List UInt8)
    (fuel : Nat) :
    parseArray strtod (fuel + 2) (g.1 ++ d :: t) =
      (parseArray strtod (fuel + 1) (if d = asc ',' then t else d :: t)).map fun r => (.cons .null r.1, r.2) := by
  obtain ⟨c, u, e, hc⟩ := Gap.head hg
  refine array_step (c := c) (u := u ++ d :: t) (by rw [e, List.cons_append]) ?_ ?_
  · rintro (h | h)
    · exact (plain_of_isWs hc).1 h
    · exact (plain_of_isWs hc).2.2.2.2.1 h
  · rw [parse_gap]
    exact parse_follow ⟨d, t, rfl, .inr (hd.imp_right .inl)⟩

/-- An element, and what follows it: white space is read as one more `null`. -/
private theorem array_elem {before after : Gap} {v : Doc} {d : UInt8} (hd : d = asc ',' ∨ d = asc ']')
    {t : List UInt8} {w : Value D} {fuel : Nat}
    (hv : parseValue strtod (fuel + 2) (v.onto (after.1 ++ d :: t)) = some (some w, after.1 ++ d :: t)) :
    parseArray strtod (fuel + 3) (before.1 ++ v.onto (after.1 ++ d :: t)) =
      if after.1 = [] then (parseArray strtod (fuel + 2) (if d = asc ',' then t else d :: t)).map fun r =>
      (.cons w r.1, r.2)
      else (parseArray strtod (fuel + 1) (if d = asc ',' then t else d :: t)).map fun r =>
      (.cons w (.cons .null r.1), r.2) := by
  obtain ⟨c, u, e, hc⟩ := gap_head before v (after.1 ++ d :: t)
  rw [← parse_gap before] at hv
  by_cases ha : after.1 = []
  · rw [if_pos ha]
    rw [ha] at hv e ⊢
    exact array_step e hc hv
  · obtain ⟨b, u', eb, hb⟩ := Gap.head ha
    have hcomma : b ≠ asc ',' := (plain_of_isWs hb).2.2.1
    have hstep := array_step e hc (d := b) (t := u' ++ d :: t) (w := w) (by rw [hv, eb, List.cons_append])
    rw [if_neg hcomma, ← List.cons_append, ← eb, array_null ha hd] at hstep
    rw [if_neg ha, hstep, Option.map_map]
    rfl

/-- What `js_parse_object` does behind the `:` of a member. -/
private def behindColon (strtod : List UInt8 → D × Nat) (fuel : Nat) (key s : List UInt8) :
    Option (Option (Members D) × List UInt8) :=
  (parseValue strtod fuel s).bind fun r =>
    match r.1 with
    | none => some (none, r.2)
    | some v =>
      (parseObject strtod fuel (if deref r.2 = asc ',' then r.2.tail else r.2)).bind fun q =>
        some (q.1.map (.cons (.of key) v), q.2)

/-- One turn of the loop over an object, where `key` ends at the first quote. -/
private theorem object_key {s key u : List UInt8} {c : UInt8} {k : List UInt8} (hkey : key = c :: k) (hc : c ≠ asc '}')
    (hplain : ∀ x ∈ key, x ≠ asc '"' ∧ x ≠ 0) (hs : deref s ≠ 0 ∧ deref s ≠ asc '}')
    (hskip : s.dropWhile (fun c => isspace c ∨ c = asc '"') = key ++ asc '"' :: u) (fuel : Nat) :
    parseObject strtod (fuel + 1) s =
      if deref (u.dropWhile fun c => c ≠ asc ':' ∧ c ≠ 0) = 0 then some (none, u.dropWhile fun c => c ≠ asc ':' ∧ c ≠ 0)
      else behindColon strtod fuel key (u.dropWhile fun c => c ≠ asc ':' ∧ c ≠ 0).tail := by
  have hall : ∀ x ∈ key, decide (x ≠ asc '"' ∧ x ≠ 0) = true := fun x hx => decide_eq_true (hplain x hx)
  have htake : (key ++ asc '"' :: u).takeWhile (fun c => c ≠ asc '"' ∧ c ≠ 0) = key := by
    rw [List.takeWhile_append_of_pos hall, List.takeWhile_cons_of_neg (by simp), List.append_nil]
  have hdrop : (key ++ asc '"' :: u).dropWhile (fun c => c ≠ asc '"' ∧ c ≠ 0) = asc '"' :: u := by
    rw [List.dropWhile_append_of_pos hall, List.dropWhile_cons_of_neg (by simp)]
  have hfirst : deref (key ++ asc '"' :: u) = c := by rw [hkey, List.cons_append, deref_cons]
  have hc0 : c ≠ 0 := (hplain c (by simp [hkey])).2
  rw [parseObject, if_neg hs.1, if_neg hs.2]
  simp only [hskip, hfirst, if_neg hc0, if_neg hc, htake, hdrop, deref_cons, if_neg (show asc '"' ≠ 0 by decide),
    List.tail_cons]
  rfl

private theorem ne_nul_of_raw {raw : List UInt8} (hraw : RawOk raw) : ∀ x ∈ raw, x ≠ 0 := by
  induction hraw with
  | nil => simp
  | plain h0 _ _ _ ih => exact List.forall_mem_cons.2 ⟨h0, ih⟩
  | escape h0 _ ih => exact List.forall_mem_cons.2 ⟨by decide, List.forall_mem_cons.2 ⟨h0, ih⟩⟩

/-- The `:` behind a key without one. -/
private theorem skip_colon {key : List UInt8} (hkey : ∀ x ∈ key, x ≠ asc ':' ∧ x ≠ 0) (g : Gap) (s : List UInt8) :
    (key ++ asc '"' :: (g.1 ++ asc ':' :: s)).dropWhile (fun c => c ≠ asc ':' ∧ c ≠ 0) = asc ':' :: s := by
  rw [List.dropWhile_append_of_pos fun x hx => decide_eq_true (hkey x hx), List.dropWhile_cons_of_pos (by decide),
    g.dropWhile, List.dropWhile_cons_of_neg (by simp)]
  intro c hc
  exact decide_eq_true ⟨(plain_of_isWs hc).2.2.2.1, (plain_of_isWs hc).1⟩

private theorem skip_quotes {l : List UInt8} {c : UInt8} {k : List UInt8} (hk : l.dropWhile isspace = c :: k)
    (hc : c ≠ asc '"') (s : List UInt8) :
    (l ++ s).dropWhile (fun c => isspace c ∨ c = asc '"') = l.dropWhile isspace ++ s := by
  induction l with
  | nil => simp at hk
  | cons x l ih =>
    by_cases hspace : isspace x = true
    · rw [List.dropWhile_cons_of_pos hspace] at hk ⊢
      rw [List.cons_append, List.dropWhile_cons_of_pos (by simp [hspace])]
      exact ih hk
    · rw [List.dropWhile_cons_of_neg hspace] at hk ⊢
      obtain rfl : x = c := (List.cons.inj hk).1
      rw [List.cons_append, List.dropWhile_cons_of_neg (by simp [hspace, hc])]

private theorem member_gap (g : Gap) (fuel : Nat) (key s : List UInt8) :
    behindColon strtod fuel key (g.1 ++ s) = behindColon strtod fuel key s := by
  rw [behindColon, behindColon, parse_gap]

/-- What is in front of the white space of a label decides nothing. -/
private theorem label_first (l : Label) (s : List UInt8) : deref (l.onto s) ≠ 0 ∧ deref (l.onto s) ≠ asc '}' := by
  by_cases hg : l.before.1 = []
  · rw [Label.onto, hg]
    exact ⟨show asc '"' ≠ 0 by decide, show asc '"' ≠ asc '}' by decide⟩
  · obtain ⟨b, t, e, hb⟩ := Gap.head hg
    rw [Label.onto, e]
    exact ⟨(plain_of_isWs hb).1, (plain_of_isWs hb).2.2.2.2.2⟩

private theorem mem_of_name {key : Raw} {x : UInt8} (hx : x ∈ key.name) : x ∈ key.1 ∧ x ≠ asc '"' := by
  refine ⟨(List.dropWhile_sublist _).mem ((List.takeWhile_sublist _).mem hx), ?_⟩
  have hne := List.mem_takeWhile_imp hx
  exact of_decide_eq_true hne

/-- A member from the white space in front of its key. -/
private theorem object_label {l : Label} (hl : l.Ok) (s : List UInt8) (fuel : Nat) :
    parseObject strtod (fuel + 1) (l.onto s) = behindColon strtod fuel l.key.name s := by
  obtain ⟨⟨c, k, hk, hc⟩, hcolon⟩ := hl
  have hplain : ∀ x ∈ l.key.name, x ≠ asc '"' ∧ x ≠ 0 := fun x hx =>
    ⟨(mem_of_name hx).2, ne_nul_of_raw l.key.2 x (mem_of_name hx).1⟩
  obtain ⟨b, hbody⟩ : ∃ b, l.key.body = c :: b := by
    have hsplit := List.takeWhile_append_dropWhile (p := (· ≠ asc '"')) (l := l.key.body)
    change l.key.name ++ _ = _ at hsplit
    rw [hk] at hsplit
    exact ⟨_, hsplit.symm⟩
  have hquote : c ≠ asc '"' := (hplain c (by rw [hk]; exact List.mem_cons_self)).1
  have hskip : (l.onto s).dropWhile (fun c => isspace c ∨ c = asc '"') =
      l.key.body ++ asc '"' :: (l.colon.1 ++ asc ':' :: (l.after.1 ++ s)) := by
    rw [Label.onto, l.before.dropWhile fun c hc => decide_eq_true (.inl (isspace_of_isWs hc)),
      List.dropWhile_cons_of_pos (by simp)]
    exact skip_quotes hbody hquote _
  -- the key ends at its own quote, or at an escaped one; the `:` is the same
  obtain ⟨u, hu, hu'⟩ : ∃ u, l.key.body ++ asc '"' :: (l.colon.1 ++ asc ':' :: (l.after.1 ++ s)) = l.key.name ++
    asc '"' :: u ∧
      u.dropWhile (fun c => c ≠ asc ':' ∧ c ≠ 0) = asc ':' :: (l.after.1 ++ s) := by
    have hsplit := List.takeWhile_append_dropWhile (p := (· ≠ asc '"')) (l := l.key.body)
    change l.key.name ++ _ = _ at hsplit
    rcases hrest : l.key.body.dropWhile (· ≠ asc '"') with _ | ⟨q, rest⟩
    · rw [hrest, List.append_nil] at hsplit
      refine ⟨l.colon.1 ++ asc ':' :: (l.after.1 ++ s), by rw [← hsplit], ?_⟩
      have hskip := @skip_colon [] (by simp) l.colon (l.after.1 ++ s)
      rwa [List.nil_append, List.dropWhile_cons_of_pos (by decide)] at hskip
    · have hq : q = asc '"' := by
        have hhead := List.head_dropWhile_not (· ≠ asc '"') (l := l.key.body)
          (by rw [hrest]; exact List.cons_ne_nil _ _)
        simp only [hrest, List.head_cons, decide_eq_false_iff_not, not_not] at hhead
        exact hhead
      rw [hrest] at hsplit hcolon
      refine ⟨rest ++ asc '"' :: (l.colon.1 ++ asc ':' :: (l.after.1 ++ s)), ?_, ?_⟩
      · rw [← hsplit, hq, List.append_assoc, List.cons_append]
      · refine skip_colon (fun x hx => ⟨fun e => hcolon (e ▸ List.mem_cons_of_mem _ hx), ?_⟩) _ _
        have hmem : x ∈ l.key.body := by
          rw [← hsplit]
          exact List.mem_append_right _ (List.mem_cons_of_mem _ hx)
        exact ne_nul_of_raw l.key.2 x ((List.dropWhile_sublist _).mem hmem)
  rw [object_key hk hc hplain (label_first l s) (hskip.trans hu), hu', deref_cons, if_neg (by decide), List.tail_cons,
    member_gap]

/-- Behind white space a `,` starts the key that ends at the next quote. -/
private theorem object_comma {g : Gap} (hg : g.1 ≠ []) (l : Label) (s : List UInt8) (fuel : Nat) :
    ∃ u, (l.key.1 ++ asc '"' :: (l.colon.1 ++ asc ':' :: (l.after.1 ++ s))).dropWhile (fun c => c ≠ asc ':' ∧ c ≠ 0) =
    u ∧
      parseObject strtod (fuel + 1) (g.1 ++ asc ',' :: l.onto s) =
        if deref u = 0 then some (none, u) else behindColon strtod fuel (asc ',' :: l.before.1) u.tail := by
  refine ⟨_, rfl, object_key rfl (by decide) ?_ ?_ ?_ fuel⟩
  · intro x hx
    rcases List.mem_cons.1 hx with rfl | hx
    · decide
    · have hplain := plain_of_isWs (l.before.2 x hx)
      exact ⟨hplain.2.1, hplain.1⟩
  · obtain ⟨b, t, e, hb⟩ := Gap.head hg
    rw [e]
    exact ⟨(plain_of_isWs hb).1, (plain_of_isWs hb).2.2.2.2.2⟩
  · rw [g.dropWhile fun c hc => decide_eq_true (.inl (isspace_of_isWs hc)), List.dropWhile_cons_of_neg (by decide),
      Label.onto, List.cons_append]

/-- That key may be the right one. -/
private theorem object_comma_eq {g : Gap} (hg : g.1 ≠ []) {l : Label} (hl : l.Ok)
    (hname : l.key.name = asc ',' :: l.before.1) (s : List UInt8) (fuel : Nat) :
    parseObject strtod (fuel + 1) (g.1 ++ asc ',' :: l.onto s) = parseObject strtod (fuel + 1) (l.onto s) := by
  obtain ⟨u, hu, hparse⟩ := @object_comma D strtod g hg l s fuel
  have hkey : ∀ x ∈ l.key.1, x ≠ asc ':' ∧ x ≠ 0 := by
    intro x hx
    refine ⟨?_, ne_nul_of_raw l.key.2 x hx⟩
    rintro rfl
    rw [← List.takeWhile_append_dropWhile (p := isspace) (l := l.key.1), List.mem_append] at hx
    rcases hx with hx | hx
    · exact absurd (List.mem_takeWhile_imp hx) (by decide)
    rw [← List.takeWhile_append_dropWhile (p := (· ≠ asc '"')) (l := l.key.1.dropWhile isspace), List.mem_append] at hx
    rcases hx with hx | hx
    · change _ ∈ l.key.name at hx
      rw [hname, List.mem_cons] at hx
      rcases hx with h | hx
      · exact absurd h (by decide)
      · exact (plain_of_isWs (l.before.2 _ hx)).2.2.2.1 rfl
    · exact hl.2 hx
  rw [skip_colon hkey] at hu
  rw [hparse, ← hu, deref_cons, if_neg (by decide), List.tail_cons, object_label hl, hname, member_gap]

/-! ### What the parser reads -/

mutual

/-- Calls enough to read a text. -/
def Doc.size : Doc → Nat
  | .emptyArray _ => 3
  | .array es => es.size + 1
  | .emptyObject _ => 2
  | .object ms => ms.size + 1
  | _ => 1

def Elems.size : Elems → Nat
  | .last _ v _ => v.size + 3
  | .cons _ v _ es => v.size + es.size + 3

def Mems.size : Mems → Nat
  | .last _ v _ => v.size + 3
  | .cons _ v _ ms => v.size + ms.size + 3

end

/-- `strtod` reads the number to its end, whatever stands behind it. -/
def ReadsWhole (strtod : List UInt8 → D × Nat) (num : List UInt8 → D) (n : Num) : Prop :=
  ∀ s, Stop s → strtod (n.1 ++ s) = (num n.1, n.1.length)

private theorem stop_gap (g : Gap) {s : List UInt8} (hs : Stop s) : Stop (g.1 ++ s) := by
  by_cases hg : g.1 = []
  · rwa [hg]
  · obtain ⟨c, t, e, hc⟩ := Gap.head hg
    exact ⟨c, t ++ s, by rw [e, List.cons_append], .inr (.inr (.inr (.inr hc)))⟩

private theorem stop_comma (s : List UInt8) : Stop (asc ',' :: s) := ⟨_, s, rfl, .inr (.inl rfl)⟩

private theorem stop_bracket (s : List UInt8) : Stop (asc ']' :: s) := ⟨_, s, rfl, .inr (.inr (.inl rfl))⟩

private theorem stop_brace (s : List UInt8) : Stop (asc '}' :: s) := ⟨_, s, rfl, .inr (.inr (.inr (.inl rfl)))⟩

private theorem parse_array {t rest : List UInt8} {vs : Values D} {fuel : Nat}
    (h : parseArray strtod fuel t = some (vs, rest)) :
    parseValue strtod (fuel + 1) (asc '[' :: t) = some (some (.array vs), rest) := by
  rw [parseValue, List.dropWhile_cons_of_neg (by decide)]
  simp only [if_neg (show asc '[' ≠ asc '{' by decide), if_true, h, Option.bind_eq_bind, Option.bind_some]

private theorem parse_object {t rest : List UInt8} {ms : Option (Members D)} {fuel : Nat}
    (h : parseObject strtod fuel t = some (ms, rest)) :
    parseValue strtod (fuel + 1) (asc '{' :: t) = some (ms.map .object, rest) := by
  rw [parseValue, List.dropWhile_cons_of_neg (by decide)]
  simp only [if_true, h, Option.bind_eq_bind, Option.bind_some]

private theorem array_end (s : List UInt8) (fuel : Nat) :
    parseArray strtod (fuel + 1) (asc ']' :: s) = some (.nil, s) := by
  rw [parseArray, if_pos (.inr rfl)]

private theorem object_end (g : Gap) (s : List UInt8) (fuel : Nat) :
    parseObject strtod (fuel + 1) (g.1 ++ asc '}' :: s) = some (some .nil, s) := by
  by_cases hg : g.1 = []
  · rw [hg, List.nil_append, parseObject, deref_cons, if_neg (by decide), if_pos rfl, List.tail_cons]
  · obtain ⟨c, t, e, hc⟩ := Gap.head hg
    have hskip : (g.1 ++ asc '}' :: s).dropWhile (fun c => isspace c ∨ c = asc '"') = asc '}' :: s := by
      rw [g.dropWhile fun c hc => decide_eq_true (.inl (isspace_of_isWs hc)), List.dropWhile_cons_of_neg (by decide)]
    have hfirst : deref (g.1 ++ asc '}' :: s) = c := by rw [e, List.cons_append, deref_cons]
    rw [parseObject, hfirst, if_neg (plain_of_isWs hc).1, if_neg (plain_of_isWs hc).2.2.2.2.2]
    simp only [hskip, deref_cons, if_neg (show asc '}' ≠ 0 by decide), if_true, List.tail_cons]

/-- Behind a value the loop over an object goes on with the next member, or ends. -/
private theorem member_last {g : Gap} {v : Value D} {s rest key : List UInt8} {fuel : Nat}
    (hv : parseValue strtod (fuel + 1) s = some (some v, g.1 ++ asc '}' :: rest)) :
    behindColon strtod (fuel + 1) key s = some (some (.cons (.of key) v .nil), rest) := by
  have hcomma : deref (g.1 ++ asc '}' :: rest) ≠ asc ',' := by
    by_cases hg : g.1 = []
    · rw [hg]
      exact show asc '}' ≠ asc ',' by decide
    · obtain ⟨c, t, e, hc⟩ := Gap.head hg
      rw [e]
      exact (plain_of_isWs hc).2.2.1
  rw [behindColon, hv]
  simp only [Option.bind_some, if_neg hcomma, object_end, Option.map_some]

private theorem member_next {g : Gap} {v : Value D} {s t key : List UInt8} {fuel : Nat}
    (hv : parseValue strtod fuel s = some (some v, g.1 ++ asc ',' :: t)) :
    behindColon strtod fuel key s = (parseObject strtod fuel (if g.1 = [] then t else g.1 ++ asc ',' :: t)).bind
    fun q =>
      some (q.1.map (.cons (.of key) v), q.2) := by
  rw [behindColon, hv]
  by_cases hg : g.1 = []
  · simp only [Option.bind_some, hg, List.nil_append, deref_cons, if_true, List.tail_cons]
  · obtain ⟨c, u, e, hc⟩ := Gap.head hg
    have hcomma : deref (g.1 ++ asc ',' :: t) ≠ asc ',' := by
      rw [e]
      exact (plain_of_isWs hc).2.2.1
    simp only [Option.bind_some, if_neg hcomma, if_neg hg]

private theorem Mems.starts (ms : Mems) (s : List UInt8) (hk : ms.KeysOk) :
    ms.label.Ok ∧ ∃ t, ms.onto s = ms.label.onto t := by
  cases ms with
  | last label v after => exact ⟨hk.1, _, rfl⟩
  | cons label v after ms => exact ⟨hk.1, _, rfl⟩

mutual

/-- A text with no white space in a wrong place is read as the tree it stands for. -/
private theorem Doc.read : ∀ (d : Doc) (s : List UInt8) (fuel : Nat), d.KeysOk → d.Clean →
    (∀ n ∈ d.numbers, ReadsWhole strtod num n) → Stop s → d.size ≤ fuel →
    parseValue strtod fuel (d.onto s) = some (some (d.tree num), s)
  | d, s, 0, _, _, _, _, hf => by cases d <;> simp [Doc.size] at hf
  | .null, s, fuel + 1, _, _, _, _, _ => parse_null s fuel
  | .boolean true, s, fuel + 1, _, _, _, _, _ => parse_true s fuel
  | .boolean false, s, fuel + 1, _, _, _, _, _ => parse_false s fuel
  | .number n, s, fuel + 1, _, _, hn, hs, _ => parse_number n (hn n (by simp [Doc.numbers]) s hs) fuel
  | .string raw, s, fuel + 1, _, _, _, _, _ => parse_string raw s fuel
  | .emptyArray gap, s, fuel + 1, _, hc, _, _, hf => by
    obtain ⟨fuel, rfl⟩ : ∃ k, fuel = k + 1 := ⟨fuel - 1, by simp [Doc.size] at hf; omega⟩
    have hgap : gap.1 = [] := hc
    rw [Doc.onto, hgap]
    exact parse_array (array_end s fuel)
  | .array es, s, fuel + 1, hk, hc, hn, hs, hf =>
    parse_array (Elems.read es s fuel hk hc hn (Nat.le_of_succ_le_succ hf))
  | .emptyObject gap, s, fuel + 1, _, _, _, _, hf => by
    obtain ⟨fuel, rfl⟩ : ∃ k, fuel = k + 1 := ⟨fuel - 1, by simp [Doc.size] at hf; omega⟩
    exact parse_object (object_end gap s fuel)
  | .object ms, s, fuel + 1, hk, hc, hn, hs, hf =>
    parse_object (Mems.read ms s fuel hk hc hn (Nat.le_of_succ_le_succ hf))

private theorem Elems.read : ∀ (es : Elems) (s : List UInt8) (fuel : Nat), es.KeysOk → es.Clean →
    (∀ n ∈ es.numbers, ReadsWhole strtod num n) → es.size ≤ fuel →
    parseArray strtod fuel (es.onto s) = some (es.tree num, s)
  | .last before v after, s, fuel, hk, hc, hn, hf => by
    obtain ⟨fuel, rfl⟩ : ∃ k, fuel = k + 3 := ⟨fuel - 3, by simp [Elems.size] at hf; omega⟩
    have hv := Doc.read v (after.1 ++ asc ']' :: s) (fuel + 2) hk hc.1 hn (stop_gap _ (stop_bracket s))
      (by simp [Elems.size] at hf; omega)
    rw [Elems.onto, array_elem (.inr rfl) hv, if_pos hc.2, if_neg (by decide), array_end, Elems.tree]
    rfl
  | .cons before v after es, s, fuel, hk, hc, hn, hf => by
    obtain ⟨fuel, rfl⟩ : ∃ k, fuel = k + 3 := ⟨fuel - 3, by simp [Elems.size] at hf; omega⟩
    have hv := Doc.read v (after.1 ++ asc ',' :: es.onto s) (fuel + 2) hk.1 hc.1 (fun n h =>
      hn n (by simp [Elems.numbers, h]))
      (stop_gap _ (stop_comma _)) (by simp [Elems.size] at hf; omega)
    have hes := Elems.read es s (fuel + 2) hk.2 hc.2.2 (fun n h => hn n (by simp [Elems.numbers, h]))
      (by simp [Elems.size] at hf; omega)
    rw [Elems.onto, array_elem (.inl rfl) hv, if_pos hc.2.1, if_pos rfl, hes, Elems.tree]
    rfl

private theorem Mems.read : ∀ (ms : Mems) (s : List UInt8) (fuel : Nat), ms.KeysOk → ms.Clean →
    (∀ n ∈ ms.numbers, ReadsWhole strtod num n) → ms.size ≤ fuel →
    parseObject strtod fuel (ms.onto s) = some (some (ms.tree num), s)
  | .last label v after, s, fuel, hk, hc, hn, hf => by
    obtain ⟨fuel, rfl⟩ : ∃ k, fuel = k + 2 := ⟨fuel - 2, by simp [Mems.size] at hf; omega⟩
    have hv := Doc.read v (after.1 ++ asc '}' :: s) (fuel + 1) hk.2 hc hn (stop_gap _ (stop_brace s))
      (by simp [Mems.size] at hf; omega)
    rw [Mems.onto, object_label hk.1, member_last hv, Mems.tree]
  | .cons label v after ms, s, fuel, hk, hc, hn, hf => by
    obtain ⟨fuel, rfl⟩ : ∃ k, fuel = k + 3 := ⟨fuel - 3, by simp [Mems.size] at hf; omega⟩
    have hv := Doc.read v (after.1 ++ asc ',' :: ms.onto s) (fuel + 2) hk.2.1 hc.1 (fun n h =>
      hn n (by simp [Mems.numbers, h]))
      (stop_gap _ (stop_comma _)) (by simp [Mems.size] at hf; omega)
    have hms := Mems.read ms s (fuel + 2) hk.2.2 hc.2.2 (fun n h => hn n (by simp [Mems.numbers, h]))
      (by simp [Mems.size] at hf; omega)
    obtain ⟨hok, t, ht⟩ := ms.starts s hk.2.2
    have hnext : parseObject strtod (fuel + 2) (if after.1 = [] then ms.onto s else after.1 ++ asc ',' :: ms.onto s) =
        some (some (ms.tree num), s) := by
      by_cases ha : after.1 = []
      · rw [if_pos ha, hms]
      · rw [if_neg ha, ht, object_comma_eq ha hok (hc.2.1.resolve_left ha), ← ht, hms]
    rw [Mems.onto, object_label hk.1, member_next hv, hnext, Mems.tree]
    rfl

end

/-! ### What it does not read -/

/-- So many times `null`, and what follows. -/
private def nulls : Nat → Values D → Values D
  | 0, vs => vs
  | k + 1, vs => .cons .null (nulls k vs)

private theorem nulls_cons (k : Nat) (vs : Values D) : nulls k (.cons .null vs) = nulls (k + 1) vs := by
  induction k with
  | zero => rfl
  | succ k ih =>
    rw [nulls, ih]
    rfl

private theorem eq_null {d : Doc} (h : d.tree num = .null) : d = .null := by
  cases d <;> simp [Doc.tree] at h ⊢

private theorem null_onto (s : List UInt8) (fuel : Nat) :
    parseValue strtod (fuel + 1) (Doc.null.onto s) = some (some .null, s) := by
  rw [Doc.onto]
  exact parse_null s fuel

/-- With one more `null` in front the elements are never those of the text. -/
private theorem Elems.shifted : ∀ (es : Elems) (s : List UInt8) (fuel k : Nat) (vs : Values D) (r : List UInt8),
    es.size ≤ fuel → parseArray strtod fuel (es.onto s) = some (vs, r) → nulls (k + 1) vs ≠ es.tree num
  | .last before v after, s, fuel, k, vs, r, hf, hp => by
    obtain ⟨fuel, rfl⟩ : ∃ k, fuel = k + 3 := ⟨fuel - 3, by simp [Elems.size] at hf; omega⟩
    intro he
    rw [nulls, Elems.tree, Values.cons.injEq] at he
    obtain rfl := eq_null he.1.symm
    rw [Elems.onto, array_elem (.inr rfl) (null_onto _ (fuel + 1)), if_neg (show asc ']' ≠ asc ',' by decide),
      array_end, array_end] at hp
    cases k with
    | succ k => cases he.2
    | zero =>
      rw [nulls] at he
      rw [he.2] at hp
      split at hp <;> cases hp
  | .cons before v after es, s, fuel, k, vs, r, hf, hp => by
    obtain ⟨fuel, rfl⟩ : ∃ k, fuel = k + 3 := ⟨fuel - 3, by simp [Elems.size] at hf; omega⟩
    intro he
    rw [nulls, Elems.tree, Values.cons.injEq] at he
    obtain rfl := eq_null he.1.symm
    rw [Elems.onto, array_elem (.inl rfl) (null_onto _ (fuel + 1)), if_pos rfl] at hp
    split at hp
    · obtain ⟨⟨us, r'⟩, hus, e⟩ := Option.map_eq_some_iff.1 hp
      obtain ⟨rfl, -⟩ := Prod.mk.inj e
      rw [nulls_cons] at he
      exact Elems.shifted es s (fuel + 2) k us r' (by simp [Elems.size] at hf; omega) hus he.2
    · obtain ⟨⟨us, r'⟩, hus, e⟩ := Option.map_eq_some_iff.1 hp
      obtain ⟨rfl, -⟩ := Prod.mk.inj e
      rw [nulls_cons, nulls_cons] at he
      exact Elems.shifted es s (fuel + 1) (k + 1) us r' (by simp [Elems.size] at hf; omega) hus he.2

/-- A wrong element. -/
private theorem array_misread {before : Gap} {v : Doc} {s : List UInt8} {fuel : Nat} {vs : Values D}
    (hv : ∀ r, parseValue strtod fuel (v.onto s) ≠ some (some (v.tree num), r)) (r : List UInt8) :
    parseArray strtod (fuel + 1) (before.1 ++ v.onto s) ≠ some (.cons (v.tree num) vs, r) := by
  intro he
  obtain ⟨c, u, e, hc⟩ := gap_head before v s
  rw [← parse_gap before, e] at hv
  rw [e, parseArray, if_neg hc] at he
  simp only [Option.bind_eq_bind, Option.bind_eq_some_iff] at he
  obtain ⟨⟨w, s'⟩, hw, d, hd, ⟨us, r'⟩, hus, he⟩ := he
  cases w with
  | some w =>
    simp only [Option.elim_some, Option.some.injEq, Prod.mk.injEq, Values.cons.injEq] at he
    exact hv s' (by rw [hw, he.1.1])
  | none =>
    -- nothing follows
    have hend := (null_end fuel).1 _ _ hw
    obtain ⟨t, rfl⟩ : ∃ t, s' = 0 :: t := by
      cases s' with
      | nil => cases hd
      | cons x t => exact ⟨t, by rw [show x = 0 from hend]⟩
    obtain rfl : 0 = d := by simpa using hd
    rw [if_neg (by decide)] at hus
    cases fuel with
    | zero => simp [parseArray] at hus
    | succ fuel =>
      rw [parseArray, if_pos (.inl rfl)] at hus
      cases hus
      cases he

private theorem member_misread {v : Doc} {s key : List UInt8} {fuel : Nat} {k : CString} {ms : Members D}
    (hv : ∀ r, parseValue strtod fuel (v.onto s) ≠ some (some (v.tree num), r)) (r : List UInt8) :
    behindColon strtod fuel key (v.onto s) ≠ some (some (.cons k (v.tree num) ms), r) := by
  intro he
  obtain ⟨⟨w, s'⟩, hw, he⟩ := Option.bind_eq_some_iff.1 he
  cases w with
  | none => cases he
  | some w =>
    obtain ⟨q, -, he⟩ := Option.bind_eq_some_iff.1 he
    obtain ⟨hq, -⟩ := Prod.mk.inj (Option.some.inj he)
    obtain ⟨ws, -, hw'⟩ := Option.map_eq_some_iff.1 hq
    simp only [Members.cons.injEq] at hw'
    exact hv s' (by rw [hw, hw'.2.1])

private theorem of_plain {s : List UInt8} (hs : ∀ x ∈ s, x ≠ 0) : (CString.of s).bytes = s :=
  List.takeWhile_eq_self_iff.2 fun x hx => decide_eq_true (hs x hx)

/-- A key that starts with the `,` is another one. -/
private theorem comma_misread {g : Gap} (hg : g.1 ≠ []) (l : Label) (hname : l.key.name ≠ asc ',' :: l.before.1)
    {s r : List UInt8} {fuel : Nat} {v : Value D} {us : Members D} {q : Option (Members D)}
    (hq : parseObject strtod (fuel + 1) (g.1 ++ asc ',' :: l.onto s) = some (q, r))
    (hus : q = some (.cons (.of l.key.name) v us)) :
    False := by
  obtain ⟨u, -, hparse⟩ := @object_comma D strtod g hg l s fuel
  rw [hparse, hus] at hq
  split at hq
  · cases hq
  · obtain ⟨⟨w, s'⟩, hw, he⟩ := Option.bind_eq_some_iff.1 hq
    cases w with
    | none => cases he
    | some w =>
      obtain ⟨p, -, he⟩ := Option.bind_eq_some_iff.1 he
      obtain ⟨hp, -⟩ := Prod.mk.inj (Option.some.inj he)
      obtain ⟨ws, -, hw'⟩ := Option.map_eq_some_iff.1 hp
      simp only [Members.cons.injEq] at hw'
      have hkey := congrArg CString.bytes hw'.1
      rw [of_plain, of_plain] at hkey
      · exact hname hkey.symm
      · exact fun x hx => ne_nul_of_raw l.key.2 x (mem_of_name hx).1
      · exact List.forall_mem_cons.2 ⟨by decide, fun x hx => (plain_of_isWs (l.before.2 x hx)).1⟩

mutual

/-- A text with white space in a wrong place is not read as the tree it stands for. -/
private theorem Doc.misread : ∀ (d : Doc) (s : List UInt8) (fuel : Nat), d.KeysOk → ¬d.Clean →
    (∀ n ∈ d.numbers, ReadsWhole strtod num n) → d.size ≤ fuel →
    ∀ r, parseValue strtod fuel (d.onto s) ≠ some (some (d.tree num), r)
  | .null, _, _, _, hc, _, _, _ | .boolean _, _, _, _, hc, _, _, _ | .number _, _, _, _, hc, _, _, _ | .string _, _,
  _, _, hc, _, _, _
  | .emptyObject _, _, _, _, hc, _, _, _ => absurd trivial hc
  | .emptyArray gap, s, fuel, _, hc, _, hf, r => by
    obtain ⟨fuel, rfl⟩ : ∃ k, fuel = k + 3 := ⟨fuel - 3, by simp [Doc.size] at hf; omega⟩
    have hnull : parseArray strtod (fuel + 2) (gap.1 ++ asc ']' :: s) = some (.cons .null .nil, s) := by
      rw [array_null hc (.inr rfl), if_neg (by decide), array_end]
      rfl
    rw [Doc.onto, parse_array hnull]
    intro he
    cases he
  | .array es, s, fuel, hk, hc, hn, hf, r => by
    obtain ⟨fuel, rfl⟩ : ∃ k, fuel = k + 1 := ⟨fuel - 1, by simp [Doc.size] at hf; omega⟩
    intro he
    have hes := Elems.misread es s fuel hk hc hn (Nat.le_of_succ_le_succ hf)
    cases e : parseArray strtod fuel (es.onto s) with
    | none =>
      rw [Doc.onto, parseValue, List.dropWhile_cons_of_neg (by decide)] at he
      simp [e, show asc '[' ≠ asc '{' by decide] at he
    | some q =>
      rw [Doc.onto, parse_array e] at he
      simp only [Doc.tree, Option.some.injEq, Prod.mk.injEq, Value.array.injEq] at he
      exact hes q.2 (by rw [e, ← he.1])
  | .object ms, s, fuel, hk, hc, hn, hf, r => by
    obtain ⟨fuel, rfl⟩ : ∃ k, fuel = k + 1 := ⟨fuel - 1, by simp [Doc.size] at hf; omega⟩
    intro he
    have hms := Mems.misread ms s fuel hk hc hn (Nat.le_of_succ_le_succ hf)
    cases e : parseObject strtod fuel (ms.onto s) with
    | none =>
      rw [Doc.onto, parseValue, List.dropWhile_cons_of_neg (by decide)] at he
      simp [e] at he
    | some q =>
      rw [Doc.onto, parse_object e, Doc.tree] at he
      obtain ⟨hq, -⟩ := Prod.mk.inj (Option.some.inj he)
      obtain ⟨ws, hws, hw⟩ := Option.map_eq_some_iff.1 hq
      cases hw
      exact hms q.2 (by rw [e, ← hws])

private theorem Elems.misread : ∀ (es : Elems) (s : List UInt8) (fuel : Nat), es.KeysOk → ¬es.Clean →
    (∀ n ∈ es.numbers, ReadsWhole strtod num n) → es.size ≤ fuel →
    ∀ r, parseArray strtod fuel (es.onto s) ≠ some (es.tree num, r)
  | .last before v after, s, fuel, hk, hc, hn, hf, r => by
    obtain ⟨fuel, rfl⟩ : ∃ k, fuel = k + 3 := ⟨fuel - 3, by simp [Elems.size] at hf; omega⟩
    by_cases hv : v.Clean
    · have ha : after.1 ≠ [] := fun e => hc ⟨hv, e⟩
      have hread := Doc.read v (after.1 ++ asc ']' :: s) (fuel + 2) hk hv hn (stop_gap _ (stop_bracket s))
        (by simp [Elems.size] at hf; omega)
      rw [Elems.onto, array_elem (.inr rfl) hread, if_neg ha, if_neg (by decide), array_end]
      intro he
      cases he
    · exact array_misread (fun r => Doc.misread v _ _ hk hv hn (by simp [Elems.size] at hf; omega) r) r
  | .cons before v after es, s, fuel, hk, hc, hn, hf, r => by
    obtain ⟨fuel, rfl⟩ : ∃ k, fuel = k + 3 := ⟨fuel - 3, by simp [Elems.size] at hf; omega⟩
    have hnv : ∀ n ∈ v.numbers, ReadsWhole strtod num n := fun n h => hn n (by simp [Elems.numbers, h])
    have hnes : ∀ n ∈ es.numbers, ReadsWhole strtod num n := fun n h => hn n (by simp [Elems.numbers, h])
    by_cases hv : v.Clean
    · have hread := Doc.read v (after.1 ++ asc ',' :: es.onto s) (fuel + 2) hk.1 hv hnv (stop_gap _ (stop_comma _))
        (by simp [Elems.size] at hf; omega)
      rw [Elems.onto, array_elem (.inl rfl) hread, if_pos rfl]
      intro he
      split at he
      · rename_i ha
        obtain ⟨q, hq, e⟩ := Option.map_eq_some_iff.1 he
        simp only [Elems.tree, Prod.mk.injEq, Values.cons.injEq, true_and] at e
        exact Elems.misread es s (fuel + 2) hk.2 (fun h => hc ⟨hv, ha, h⟩) hnes (by simp [Elems.size] at hf; omega)
          q.2 (by rw [hq, ← e.1])
      · obtain ⟨q, hq, e⟩ := Option.map_eq_some_iff.1 he
        simp only [Elems.tree, Prod.mk.injEq, Values.cons.injEq, true_and] at e
        exact Elems.shifted es s (fuel + 1) 0 q.1 q.2 (by simp [Elems.size] at hf; omega) hq e.1
    · exact array_misread (fun r => Doc.misread v _ _ hk.1 hv hnv (by simp [Elems.size] at hf; omega) r) r

private theorem Mems.misread : ∀ (ms : Mems) (s : List UInt8) (fuel : Nat), ms.KeysOk → ¬ms.Clean →
    (∀ n ∈ ms.numbers, ReadsWhole strtod num n) → ms.size ≤ fuel →
    ∀ r, parseObject strtod fuel (ms.onto s) ≠ some (some (ms.tree num), r)
  | .last label v after, s, fuel, hk, hc, hn, hf, r => by
    obtain ⟨fuel, rfl⟩ : ∃ k, fuel = k + 1 := ⟨fuel - 1, by simp [Mems.size] at hf; omega⟩
    rw [Mems.onto, object_label hk.1]
    exact member_misread (fun r => Doc.misread v _ _ hk.2 hc hn (by simp [Mems.size] at hf; omega) r) r
  | .cons label v after ms, s, fuel, hk, hc, hn, hf, r => by
    obtain ⟨fuel, rfl⟩ : ∃ k, fuel = k + 2 := ⟨fuel - 2, by simp [Mems.size] at hf; omega⟩
    have hnv : ∀ n ∈ v.numbers, ReadsWhole strtod num n := fun n h => hn n (by simp [Mems.numbers, h])
    have hnms : ∀ n ∈ ms.numbers, ReadsWhole strtod num n := fun n h => hn n (by simp [Mems.numbers, h])
    rw [Mems.onto, object_label hk.1]
    by_cases hv : v.Clean
    · have hread := Doc.read v (after.1 ++ asc ',' :: ms.onto s) (fuel + 1) hk.2.1 hv hnv (stop_gap _ (stop_comma _))
        (by simp [Mems.size] at hf; omega)
      have hmisread : ¬ms.Clean → ∀ r, parseObject strtod (fuel + 1) (ms.onto s) ≠ some (some (ms.tree num), r) :=
        fun h =>
        Mems.misread ms s (fuel + 1) hk.2.2 h hnms (by simp [Mems.size] at hf; omega)
      rw [member_next hread, Mems.tree]
      intro he
      obtain ⟨q, hq, e⟩ := Option.bind_eq_some_iff.1 he
      obtain ⟨hq1, -⟩ := Prod.mk.inj (Option.some.inj e)
      obtain ⟨ws, hws, hw⟩ := Option.map_eq_some_iff.1 hq1
      simp only [Members.cons.injEq, true_and] at hw
      subst hw
      split at hq
      · rename_i ha
        exact hmisread (fun h => hc ⟨hv, .inl ha, h⟩) q.2 (by rw [hq, ← hws])
      · rename_i ha
        obtain ⟨hok, t, ht⟩ := ms.starts s hk.2.2
        rw [ht] at hq
        by_cases hname : ms.label.key.name = asc ',' :: ms.label.before.1
        · rw [object_comma_eq ha hok hname, ← ht] at hq
          exact hmisread (fun h => hc ⟨hv, .inr hname, h⟩) q.2 (by rw [hq, ← hws])
        · obtain ⟨w, us, htree⟩ : ∃ w us, ms.tree num = .cons (.of ms.label.key.name) w us := by
            cases ms <;> exact ⟨_, _, rfl⟩
          exact comma_misread ha ms.label hname hq (hws.trans (by rw [htree]))
    · exact member_misread (fun r => Doc.misread v _ _ hk.2.1 hv hnv (by simp [Mems.size] at hf; omega) r) r

end

/-! ### The text without white space -/

mutual

private theorem Doc.onto_append : ∀ (d : Doc) (s t : List UInt8), d.onto s ++ t = d.onto (s ++ t)
  | .null, _, _ | .boolean _, _, _ | .number _, _, _ => by rw [Doc.onto, Doc.onto, List.append_assoc]
  | .string _, _, _ | .emptyArray _, _, _ | .emptyObject _, _, _ => by
    simp only [Doc.onto, List.cons_append, List.append_assoc]
  | .array es, s, t => by rw [Doc.onto, Doc.onto, List.cons_append, Elems.onto_append es s t]
  | .object ms, s, t => by rw [Doc.onto, Doc.onto, List.cons_append, Mems.onto_append ms s t]

private theorem Elems.onto_append : ∀ (es : Elems) (s t : List UInt8), es.onto s ++ t = es.onto (s ++ t)
  | .last _ v _, s, t => by rw [Elems.onto, Elems.onto, List.append_assoc, Doc.onto_append v, List.append_assoc,
  List.cons_append]
  | .cons _ v _ es, s, t => by
    rw [Elems.onto, Elems.onto, List.append_assoc, Doc.onto_append v, List.append_assoc, List.cons_append,
      Elems.onto_append es s t]

private theorem Mems.onto_append : ∀ (ms : Mems) (s t : List UInt8), ms.onto s ++ t = ms.onto (s ++ t)
  | .last label v after, s, t => by
    have hv := Doc.onto_append v (after.1 ++ asc '}' :: s) t
    rw [List.append_assoc, List.cons_append] at hv
    simp only [Mems.onto, Label.onto, List.append_assoc, List.cons_append, hv]
  | .cons label v after ms, s, t => by
    have hv := Doc.onto_append v (after.1 ++ asc ',' :: ms.onto s) t
    rw [List.append_assoc, List.cons_append, Mems.onto_append ms s t] at hv
    simp only [Mems.onto, Label.onto, List.append_assoc, List.cons_append, hv]

end

mutual

private theorem Doc.compact_clean : ∀ d : Doc, d.compact.Clean
  | .null | .boolean _ | .number _ | .string _ | .emptyObject _ => trivial
  | .emptyArray _ => rfl
  | .array es => Elems.compact_clean es
  | .object ms => Mems.compact_clean ms

private theorem Elems.compact_clean : ∀ es : Elems, es.compact.Clean
  | .last _ v _ => ⟨Doc.compact_clean v, rfl⟩
  | .cons _ v _ es => ⟨Doc.compact_clean v, rfl, Elems.compact_clean es⟩

private theorem Mems.compact_clean : ∀ ms : Mems, ms.compact.Clean
  | .last _ v _ => Doc.compact_clean v
  | .cons _ v _ ms => ⟨Doc.compact_clean v, .inl rfl, Mems.compact_clean ms⟩

end

mutual

private theorem Doc.compact_keysOk : ∀ d : Doc, d.compact.KeysOk ↔ d.KeysOk
  | .null | .boolean _ | .number _ | .string _ | .emptyObject _ | .emptyArray _ => .rfl
  | .array es => Elems.compact_keysOk es
  | .object ms => Mems.compact_keysOk ms

private theorem Elems.compact_keysOk : ∀ es : Elems, es.compact.KeysOk ↔ es.KeysOk
  | .last _ v _ => Doc.compact_keysOk v
  | .cons _ v _ es => and_congr (Doc.compact_keysOk v) (Elems.compact_keysOk es)

private theorem Mems.compact_keysOk : ∀ ms : Mems, ms.compact.KeysOk ↔ ms.KeysOk
  | .last _ v _ => and_congr .rfl (Doc.compact_keysOk v)
  | .cons _ v _ ms => and_congr .rfl (and_congr (Doc.compact_keysOk v) (Mems.compact_keysOk ms))

end

mutual

private theorem Doc.compact_numbers : ∀ d : Doc, d.compact.numbers = d.numbers
  | .null | .boolean _ | .number _ | .string _ | .emptyObject _ | .emptyArray _ => rfl
  | .array es => Elems.compact_numbers es
  | .object ms => Mems.compact_numbers ms

private theorem Elems.compact_numbers : ∀ es : Elems, es.compact.numbers = es.numbers
  | .last _ v _ => Doc.compact_numbers v
  | .cons _ v _ es => congrArg₂ _ (Doc.compact_numbers v) (Elems.compact_numbers es)

private theorem Mems.compact_numbers : ∀ ms : Mems, ms.compact.numbers = ms.numbers
  | .last _ v _ => Doc.compact_numbers v
  | .cons _ v _ ms => congrArg₂ _ (Doc.compact_numbers v) (Mems.compact_numbers ms)

end

mutual

private theorem Doc.compact_tree : ∀ d : Doc, d.compact.tree num = d.tree num
  | .null | .boolean _ | .number _ | .string _ | .emptyObject _ | .emptyArray _ => rfl
  | .array es => congrArg Value.array (Elems.compact_tree es)
  | .object ms => congrArg Value.object (Mems.compact_tree ms)

private theorem Elems.compact_tree : ∀ es : Elems, es.compact.tree num = es.tree num
  | .last _ v _ => congrArg (Values.cons · .nil) (Doc.compact_tree v)
  | .cons _ v _ es => congrArg₂ Values.cons (Doc.compact_tree v) (Elems.compact_tree es)

private theorem Mems.compact_tree : ∀ ms : Mems, ms.compact.tree num = ms.tree num
  | .last _ v _ => congrArg (Members.cons _ · .nil) (Doc.compact_tree v)
  | .cons _ v _ ms => congrArg₂ (Members.cons _) (Doc.compact_tree v) (Mems.compact_tree ms)

end

mutual

private theorem Doc.compact_size : ∀ d : Doc, d.compact.size = d.size
  | .null | .boolean _ | .number _ | .string _ | .emptyObject _ | .emptyArray _ => rfl
  | .array es => congrArg (· + 1) (Elems.compact_size es)
  | .object ms => congrArg (· + 1) (Mems.compact_size ms)

private theorem Elems.compact_size : ∀ es : Elems, es.compact.size = es.size
  | .last _ v _ => congrArg (· + 3) (Doc.compact_size v)
  | .cons _ v _ es => congrArg (· + 3) (congrArg₂ _ (Doc.compact_size v) (Elems.compact_size es))

private theorem Mems.compact_size : ∀ ms : Mems, ms.compact.size = ms.size
  | .last _ v _ => congrArg (· + 3) (Doc.compact_size v)
  | .cons _ v _ ms => congrArg (· + 3) (congrArg₂ _ (Doc.compact_size v) (Mems.compact_size ms))

end

/-! ### Keys that are not read to their end -/

private theorem Doc.Bare.clean {d : Doc} (h : d.Bare) : d.Clean := (show d.compact = d from h) ▸ d.compact_clean

private theorem Elems.Bare.clean {es : Elems} (h : es.Bare) : es.Clean :=
  (show es.compact = es from h) ▸ es.compact_clean

private theorem Mems.Bare.clean {ms : Mems} (h : ms.Bare) : ms.Clean := (show ms.compact = ms from h) ▸ ms.compact_clean

mutual

/-- Where all keys are read to their end there is one condition. -/
private theorem Doc.tidy_iff : ∀ d : Doc, d.KeysOk → (d.Tidy ↔ d.Clean)
  | .null, _ | .boolean _, _ | .number _, _ | .string _, _ | .emptyObject _, _ | .emptyArray _, _ => .rfl
  | .array es, hk => Elems.tidy_iff es hk
  | .object ms, hk => Mems.tidy_iff ms hk

private theorem Elems.tidy_iff : ∀ es : Elems, es.KeysOk → (es.Tidy ↔ es.Clean)
  | .last _ v after, hk => and_congr_left' (Doc.tidy_iff v hk)
  | .cons _ v after es, hk => by
    rw [Elems.Tidy, Elems.Clean, Doc.tidy_iff v hk.1, and_iff_right hk.1, Elems.tidy_iff es hk.2]
    exact and_congr_right fun _ => and_congr_right fun _ => or_iff_left_of_imp Elems.Bare.clean

private theorem Mems.tidy_iff : ∀ ms : Mems, ms.KeysOk → (ms.Tidy ↔ ms.Clean)
  | .last label v after, hk => by
    rw [Mems.Tidy, Mems.Clean, Doc.tidy_iff v hk.2, and_iff_right hk.1]
    constructor
    · rintro (⟨hv, -⟩ | ⟨-, hv, -⟩)
      · exact hv
      · exact hv.clean
    · exact fun hv => .inl ⟨hv, .inl hk.2⟩
  | .cons label v after ms, hk => by
    have hnext := (ms.starts [] hk.2.2).1
    rw [Mems.Tidy, Mems.Clean, Doc.tidy_iff v hk.2.1, Mems.tidy_iff ms hk.2.2, and_iff_right hk.1, and_iff_right hk.2.1,
      and_iff_right hnext, and_iff_right hk.1]
    constructor
    · rintro (⟨hv, hms, hcomma⟩ | ⟨hv, ha, hms⟩ | ⟨-, hv, ha, hms⟩)
      · exact ⟨hv, hcomma, hms⟩
      · exact ⟨hv, .inl ha, hms.clean⟩
      · exact ⟨hv.clean, .inl ha, hms.clean⟩
    · exact fun ⟨hv, hcomma, hms⟩ => .inl ⟨hv, hms, hcomma⟩

end

/-- A turn of the loop over an array depends on what the value in front is read as. -/
private theorem array_congr {c c' : UInt8} {s s' t t' : List UInt8} {fuel : Nat} (hs : s = c :: t) (hs' : s' = c' :: t')
    (hc : ¬(c = 0 ∨ c = asc ']')) (hc' : ¬(c' = 0 ∨ c' = asc ']'))
    (hv : parseValue strtod fuel s = parseValue strtod fuel s') :
    parseArray strtod (fuel + 1) s = parseArray strtod (fuel + 1) s' := by
  subst hs hs'
  rw [parseArray, parseArray, if_neg hc, if_neg hc', hv]

private theorem parse_array_congr {t t' : List UInt8} {fuel : Nat}
    (h : parseArray strtod fuel t = parseArray strtod fuel t') :
    parseValue strtod (fuel + 1) (asc '[' :: t) = parseValue strtod (fuel + 1) (asc '[' :: t') := by
  rw [parseValue, parseValue, List.dropWhile_cons_of_neg (by decide), List.dropWhile_cons_of_neg (by decide)]
  simp only [if_neg (show asc '[' ≠ asc '{' by decide), if_true, h]

private theorem parse_object_congr {t t' : List UInt8} {fuel : Nat}
    (h : parseObject strtod fuel t = parseObject strtod fuel t') :
    parseValue strtod (fuel + 1) (asc '{' :: t) = parseValue strtod (fuel + 1) (asc '{' :: t') := by
  rw [parseValue, parseValue, List.dropWhile_cons_of_neg (by decide), List.dropWhile_cons_of_neg (by decide)]
  simp only [if_true, h]

private theorem behindColon_congr {key s s' : List UInt8} {fuel : Nat}
    (h : parseValue strtod fuel s = parseValue strtod fuel s') :
    behindColon strtod fuel key s = behindColon strtod fuel key s' := by
  rw [behindColon, behindColon, h]

/-- White space in front of a key never matters. -/
private theorem object_before (l : Label) (hl : l.Bare) (s : List UInt8) (fuel : Nat) :
    parseObject strtod (fuel + 1) (l.onto s) = parseObject strtod (fuel + 1) (l.compact.onto s) := by
  have hskip : (l.onto s).dropWhile (fun c => isspace c ∨ c = asc '"') =
      (l.compact.onto s).dropWhile fun c => isspace c ∨ c = asc '"' := by
    rw [Label.onto, l.before.dropWhile fun c hc => decide_eq_true (.inl (isspace_of_isWs hc)), hl.1, hl.2]
    rfl
  rw [parseObject, parseObject, if_neg (label_first l s).1, if_neg (label_first l s).2,
    if_neg (label_first l.compact s).1, if_neg (label_first l.compact s).2, hskip]

private theorem Label.compact_ok {l : Label} (h : l.Ok) : l.compact.Ok := h

mutual

/-- From the first key that is not read to its end on the text is the same, and what is read in front of it is the
same. -/
private theorem Doc.lost : ∀ (d : Doc) (s : List UInt8) (fuel : Nat), ¬d.KeysOk → d.Tidy →
    (∀ n ∈ d.numbers, ReadsWhole strtod num n) → d.size ≤ fuel →
    parseValue strtod fuel (d.onto s) = parseValue strtod fuel (d.compact.onto s)
  | .null, _, _, hk, _, _, _ | .boolean _, _, _, hk, _, _, _ | .number _, _, _, hk, _, _, _
  | .string _, _, _, hk, _, _, _
  | .emptyObject _, _, _, hk, _, _, _ | .emptyArray _, _, _, hk, _, _, _ => absurd trivial hk
  | .array es, s, fuel, hk, ht, hn, hf => by
    obtain ⟨fuel, rfl⟩ : ∃ k, fuel = k + 1 := ⟨fuel - 1, by simp [Doc.size] at hf; omega⟩
    exact parse_array_congr (Elems.lost es s fuel hk ht hn (Nat.le_of_succ_le_succ hf))
  | .object ms, s, fuel, hk, ht, hn, hf => by
    obtain ⟨fuel, rfl⟩ : ∃ k, fuel = k + 1 := ⟨fuel - 1, by simp [Doc.size] at hf; omega⟩
    exact parse_object_congr (Mems.lost ms s fuel hk ht hn (Nat.le_of_succ_le_succ hf))

private theorem Elems.lost : ∀ (es : Elems) (s : List UInt8) (fuel : Nat), ¬es.KeysOk → es.Tidy →
    (∀ n ∈ es.numbers, ReadsWhole strtod num n) → es.size ≤ fuel →
    parseArray strtod fuel (es.onto s) = parseArray strtod fuel (es.compact.onto s)
  | .last before v after, s, fuel, hk, ht, hn, hf => by
    obtain ⟨fuel, rfl⟩ : ∃ k, fuel = k + 1 := ⟨fuel - 1, by simp [Elems.size] at hf; omega⟩
    obtain ⟨hv, ha⟩ := ht
    obtain ⟨c, t, e, hc⟩ := gap_head before v (asc ']' :: s)
    obtain ⟨c', t', e', hc'⟩ := gap_head .none v.compact (asc ']' :: s)
    have hread := Doc.lost v (asc ']' :: s) fuel hk hv hn (by simp [Elems.size] at hf; omega)
    rw [Elems.compact, Elems.onto, Elems.onto, ha]
    exact array_congr e e' hc hc' (by rw [List.nil_append, parse_gap, hread, parse_gap]; rfl)
  | .cons before v after es, s, fuel, hk, ht, hn, hf => by
    obtain ⟨fuel, rfl⟩ : ∃ k, fuel = k + 3 := ⟨fuel - 3, by simp [Elems.size] at hf; omega⟩
    have hnv : ∀ n ∈ v.numbers, ReadsWhole strtod num n := fun n h => hn n (by simp [Elems.numbers, h])
    have hnes : ∀ n ∈ es.numbers, ReadsWhole strtod num n := fun n h => hn n (by simp [Elems.numbers, h])
    obtain ⟨hv, ha, hes⟩ := ht
    by_cases hkv : v.KeysOk
    · have hclean := (Doc.tidy_iff v hkv).1 hv
      have hread := Doc.read v (after.1 ++ asc ',' :: es.onto s) (fuel + 2) hkv hclean hnv (stop_gap _ (stop_comma _))
        (by simp [Elems.size] at hf; omega)
      have hread' := Doc.read v.compact (Gap.none.1 ++ asc ',' :: es.compact.onto s) (fuel + 2)
        (v.compact_keysOk.2 hkv) v.compact_clean
        (by rwa [v.compact_numbers]) (stop_gap _ (stop_comma _))
          (by rw [v.compact_size]; simp [Elems.size] at hf; omega)
      have hrest : parseArray strtod (fuel + 2) (es.onto s) = parseArray strtod (fuel + 2) (es.compact.onto s) := by
        rcases hes with ⟨-, hes⟩ | hbare
        · exact Elems.lost es s (fuel + 2) (fun h => hk ⟨hkv, h⟩) hes hnes (by simp [Elems.size] at hf; omega)
        · rw [show es.compact = es from hbare]
      rw [Elems.onto, array_elem (.inl rfl) hread, if_pos ha, if_pos rfl, Elems.compact, Elems.onto,
        array_elem (.inl rfl) hread', if_pos (show Gap.none.1 = [] from rfl), if_pos rfl, hrest, v.compact_tree]
    · have hbare : es.compact = es := (hes.resolve_left fun h => hkv h.1 : es.Bare)
      obtain ⟨c, t, e, hc⟩ := gap_head before v (asc ',' :: es.onto s)
      obtain ⟨c', t', e', hc'⟩ := gap_head .none v.compact (asc ',' :: es.onto s)
      have hread := Doc.lost v (asc ',' :: es.onto s) (fuel + 2) hkv hv hnv (by simp [Elems.size] at hf; omega)
      rw [Elems.compact, hbare, Elems.onto, Elems.onto, ha]
      exact array_congr e e' hc hc' (by rw [List.nil_append, parse_gap, hread, parse_gap]; rfl)

private theorem Mems.lost : ∀ (ms : Mems) (s : List UInt8) (fuel : Nat), ¬ms.KeysOk → ms.Tidy →
    (∀ n ∈ ms.numbers, ReadsWhole strtod num n) → ms.size ≤ fuel →
    parseObject strtod fuel (ms.onto s) = parseObject strtod fuel (ms.compact.onto s)
  | .last label v after, s, fuel, hk, ht, hn, hf => by
    obtain ⟨fuel, rfl⟩ : ∃ k, fuel = k + 1 := ⟨fuel - 1, by simp [Mems.size] at hf; omega⟩
    rw [Mems.compact, Mems.onto, Mems.onto]
    rcases ht with ⟨hl, hv, hkv⟩ | ⟨hl, hv, ha⟩
    · have hkv' : ¬v.KeysOk := fun h => hk ⟨hl, h⟩
      rw [hkv.resolve_left hkv', object_label hl, object_label (Label.compact_ok hl)]
      exact behindColon_congr (Doc.lost v _ fuel hkv' hv hn (by simp [Mems.size] at hf; omega))
    · rw [object_before label hl, show v.compact = v from hv, ha]
      rfl
  | .cons label v after ms, s, fuel, hk, ht, hn, hf => by
    obtain ⟨fuel, rfl⟩ : ∃ k, fuel = k + 2 := ⟨fuel - 2, by simp [Mems.size] at hf; omega⟩
    have hnv : ∀ n ∈ v.numbers, ReadsWhole strtod num n := fun n h => hn n (by simp [Mems.numbers, h])
    have hnms : ∀ n ∈ ms.numbers, ReadsWhole strtod num n := fun n h => hn n (by simp [Mems.numbers, h])
    rw [Mems.compact, Mems.onto, Mems.onto]
    -- a value whose keys are all read to their end, in front of the other members
    have hread (hl : label.Ok) (hkv : v.KeysOk) (hv : v.Clean)
        (hnext : parseObject strtod (fuel + 1) (if after.1 = [] then ms.onto s else after.1 ++ asc ',' :: ms.onto s) =
          parseObject strtod (fuel + 1) (ms.compact.onto s)) :
        parseObject strtod (fuel + 2) (label.onto (v.onto (after.1 ++ asc ',' :: ms.onto s))) =
          parseObject strtod (fuel + 2) (label.compact.onto
          (v.compact.onto (Gap.none.1 ++ asc ',' :: ms.compact.onto s))) := by
      have hread := Doc.read v (after.1 ++ asc ',' :: ms.onto s) (fuel + 1) hkv hv hnv (stop_gap _ (stop_comma _))
        (by simp [Mems.size] at hf; omega)
      have hread' := Doc.read v.compact (Gap.none.1 ++ asc ',' :: ms.compact.onto s) (fuel + 1)
        (v.compact_keysOk.2 hkv) v.compact_clean
        (by rwa [v.compact_numbers]) (stop_gap _ (stop_comma _)) (by rw [v.compact_size]; simp [Mems.size] at hf; omega)
      rw [object_label hl, member_next hread, hnext, object_label (Label.compact_ok hl), member_next hread',
        if_pos (show Gap.none.1 = [] from rfl), v.compact_tree]
      rfl
    rcases ht with ⟨hl, hkv, hv, hms, hcomma⟩ | ⟨hl, hv, ha, hms⟩ | ⟨hl, hv, ha, hms⟩
    · have hrest := Mems.lost ms s (fuel + 1) (fun h => hk ⟨hl, hkv, h⟩) hms hnms (by simp [Mems.size] at hf; omega)
      refine hread hl hkv ((Doc.tidy_iff v hkv).1 hv) ?_
      by_cases ha : after.1 = []
      · rw [if_pos ha, hrest]
      · obtain ⟨hok, hname⟩ := hcomma.resolve_left ha
        obtain ⟨t, ht⟩ : ∃ t, ms.onto s = ms.label.onto t := by cases ms <;> exact ⟨_, rfl⟩
        rw [if_neg ha, ht, object_comma_eq ha hok hname, ← ht, hrest]
    · have hms' : ms.compact = ms := hms
      by_cases hkv : v.KeysOk
      · exact hread hl hkv ((Doc.tidy_iff v hkv).1 hv) (by rw [if_pos ha, hms'])
      · rw [hms', ha, object_label hl, object_label (Label.compact_ok hl)]
        exact behindColon_congr (Doc.lost v _ (fuel + 1) hkv hv hnv (by simp [Mems.size] at hf; omega))
    · rw [object_before label hl, show v.compact = v from hv, show ms.compact = ms from hms, ha]
      rfl

end

/-! ### Two texts -/

/-- `js_parse` comes to an end on the string and answers `r`. -/
def Answers (strtod : List UInt8 → D × Nat) (s : List UInt8) (r : Option (Value D)) : Prop :=
  ∃ n, ∀ fuel ≥ n, jsParse strtod fuel s = some r

theorem Answers.unique {s : List UInt8} {r r' : Option (Value D)} (h : Answers strtod s r)
    (h' : Answers strtod s r') : r = r' := by
  obtain ⟨n, hn⟩ := h
  obtain ⟨m, hm⟩ := h'
  exact Option.some.inj ((hn _ (Nat.le_max_left n m)).symm.trans (hm _ (Nat.le_max_right n m)))

/-- The parser reads the tree that the text stands for exactly if no white space is in a wrong place. -/
theorem Doc.answers_tree {d : Doc} (hk : d.KeysOk) (hn : ∀ n ∈ d.numbers, ReadsWhole strtod num n) (lead trail : Gap) :
    Answers strtod (lead.1 ++ d.onto trail.1) (some (d.tree num)) ↔ d.Clean := by
  have htext : lead.1 ++ d.onto trail.1 ++ [0] = lead.1 ++ d.onto (trail.1 ++ [0]) := by
    rw [List.append_assoc, d.onto_append]
  constructor
  · rintro ⟨n, hanswer⟩
    have hparse := hanswer (max n d.size) (Nat.le_max_left _ _)
    rw [jsParse, htext, parse_gap] at hparse
    obtain ⟨⟨v, r⟩, hv, e⟩ := Option.map_eq_some_iff.1 hparse
    by_contra hc
    exact d.misread _ _ hk hc hn (Nat.le_max_right _ _) r (by rw [hv, ← show v = some (d.tree num) from e])
  · intro hc
    refine ⟨d.size, fun fuel hf => ?_⟩
    rw [jsParse, htext, parse_gap, d.read _ fuel hk hc hn (stop_gap _ ⟨0, [], rfl, .inl rfl⟩) hf]
    rfl

/-- A tidy text is read like the text without white space. -/
theorem Doc.Tidy.answers {d : Doc} (ht : d.Tidy) (hn : ∀ n ∈ d.numbers, ReadsWhole strtod num n) (lead trail : Gap)
    (r : Option (Value D)) :
    Answers strtod (lead.1 ++ d.onto trail.1) r ↔ Answers strtod (lead.1 ++ d.compact.onto trail.1) r := by
  by_cases hk : d.KeysOk
  · have hd := (Doc.answers_tree hk hn lead trail).2 ((d.tidy_iff hk).1 ht)
    have hcompact : Answers strtod (lead.1 ++ d.compact.onto trail.1) (some (d.tree num)) := by
      rw [← d.compact_tree]
      exact (Doc.answers_tree (d.compact_keysOk.2 hk) (by rwa [d.compact_numbers]) lead trail).2 d.compact_clean
    exact ⟨fun h => hd.unique h ▸ hcompact, fun h => hcompact.unique h ▸ hd⟩
  · have hsame (fuel : Nat) (hf : d.size ≤ fuel) :
        jsParse strtod fuel (lead.1 ++ d.onto trail.1) = jsParse strtod fuel (lead.1 ++ d.compact.onto trail.1) := by
      rw [jsParse, jsParse, List.append_assoc, List.append_assoc, d.onto_append, d.compact.onto_append, parse_gap,
        parse_gap, d.lost _ fuel hk ht hn hf]
    constructor
    · rintro ⟨n, h⟩
      exact ⟨max n d.size, fun fuel hf => hsame fuel ((Nat.le_max_right _ _).trans hf) ▸ h fuel
        ((Nat.le_max_left _ _).trans hf)⟩
    · rintro ⟨n, h⟩
      exact ⟨max n d.size, fun fuel hf => hsame fuel ((Nat.le_max_right _ _).trans hf) ▸ h fuel
        ((Nat.le_max_left _ _).trans hf)⟩

/-- A tidy text is read like the text without white space, and so are any two tidy texts with the same tokens.  Where
all keys are read to their end, no other text is. -/
theorem white_space_insignificant {d : Doc} (hn : ∀ n ∈ d.numbers, ReadsWhole strtod num n) (lead trail : Gap) :
    (d.Tidy → ∀ r, Answers strtod (lead.1 ++ d.onto trail.1) r ↔ Answers strtod (lead.1 ++ d.compact.onto trail.1) r) ∧
      (∀ d' : Doc, d'.compact = d.compact → d.Tidy → d'.Tidy →
        ∀ r, Answers strtod (lead.1 ++ d.onto trail.1) r ↔ Answers strtod (lead.1 ++ d'.onto trail.1) r) ∧
      (d.KeysOk →
        ((∀ r, Answers strtod (lead.1 ++ d.onto trail.1) r ↔ Answers strtod (lead.1 ++ d.compact.onto trail.1) r) ↔
        d.Tidy) ∧
          ∀ d' : Doc, d'.compact = d.compact → d.Tidy →
            ((∀ r, Answers strtod (lead.1 ++ d.onto trail.1) r ↔ Answers strtod (lead.1 ++ d'.onto trail.1) r) ↔
            d'.Tidy)) := by
  have hboth : ∀ d' : Doc, d'.compact = d.compact → d.Tidy → d'.Tidy →
      ∀ r, Answers strtod (lead.1 ++ d.onto trail.1) r ↔ Answers strtod (lead.1 ++ d'.onto trail.1) r := by
    intro d' hsame ht ht' r
    have hn' : ∀ n ∈ d'.numbers, ReadsWhole strtod num n := by rwa [← d'.compact_numbers, hsame, d.compact_numbers]
    rw [ht.answers hn lead trail r, ← hsame]
    exact (ht'.answers hn' lead trail r).symm
  refine ⟨fun ht => ht.answers hn lead trail, hboth, fun hk => ⟨⟨fun h => ?_, fun ht => ht.answers hn lead trail⟩, ?_⟩⟩
  · rw [d.tidy_iff hk]
    refine (Doc.answers_tree hk hn lead trail).1 ((h _).2 ?_)
    rw [← d.compact_tree]
    exact (Doc.answers_tree (d.compact_keysOk.2 hk) (by rwa [d.compact_numbers]) lead trail).2 d.compact_clean
  · intro d' hsame ht
    have hk' : d'.KeysOk := by rwa [← d'.compact_keysOk, hsame, d.compact_keysOk]
    have hn' : ∀ n ∈ d'.numbers, ReadsWhole strtod num n := by rwa [← d'.compact_numbers, hsame, d.compact_numbers]
    refine ⟨fun h => ?_, hboth d' hsame ht⟩
    have hd := (Doc.answers_tree hk hn lead trail).2 ((d.tidy_iff hk).1 ht)
    rw [d'.tidy_iff hk']
    refine (Doc.answers_tree hk' hn' lead trail).1 ?_
    rw [← d'.compact_tree, hsame, d.compact_tree]
    exact (h _).1 hd

/-! ### Texts with a space -/

private def space : Gap := ⟨[32], List.forall_mem_singleton.2 (by decide)⟩

private def one : Num := ⟨lit "1", asc '1', [], rfl, by decide⟩

/-- `strtod` on digits. -/
def strtodDigits (s : List UInt8) : List UInt8 × Nat := (s.takeWhile isdigit, (s.takeWhile isdigit).length)

private theorem reads_one : ReadsWhole strtodDigits id one := by
  rintro s ⟨c, t, rfl, hc⟩
  have hstop : isdigit c = false := by
    revert hc
    apply forall_byte (c := c)
    decide +kernel
  have htake : (asc '1' :: c :: t).takeWhile isdigit = [asc '1'] := by
    rw [List.takeWhile_cons_of_pos (by decide), List.takeWhile_cons_of_neg (by simp [hstop])]
  exact Prod.ext htake (congrArg List.length htake)

private def spacedKey : Label := ⟨.none, ⟨lit "k", .plain (by decide) (by decide) (by decide) .nil⟩, space, space⟩

/-- `[1, {"k" : null }]` -/
private def spaced : Doc :=
  .array (.cons .none (.number one) .none (.last space (.object (.last spacedKey .null space)) .none))

private def emptyKey : Label := ⟨space, ⟨[], .nil⟩, .none, .none⟩

/-- `[ 1, { "":1}]`, with a key that is not read to its end. -/
private def spacedEmpty : Doc :=
  .array (.cons space (.number one) .none (.last space (.object (.last emptyKey (.number one) .none)) .none))

/-- One text is read as the tree that it stands for, the other like the text without white space. -/
theorem white_space_insignificant_spaced :
    Answers strtodDigits (lit "[1, \x7b\"k\" : null \x7d]") (some (spaced.tree id)) ∧
      (Answers strtodDigits (lit "[ 1, \x7b \"\":1\x7d]") none ↔
      Answers strtodDigits (lit "[1,\x7b\"\":1\x7d]") none) := by
  have hok : spacedKey.Ok := ⟨⟨asc 'k', [], by decide, by decide⟩, by decide⟩
  have hk : spaced.compact.KeysOk := ⟨trivial, hok, trivial⟩
  have ht : spaced.Tidy := ⟨trivial, rfl, .inl ⟨trivial, .inl ⟨hok, trivial, .inl trivial⟩, rfl⟩⟩
  have ht' : spacedEmpty.Tidy := ⟨trivial, rfl, .inl ⟨trivial, .inr ⟨⟨rfl, rfl⟩, rfl, rfl⟩, rfl⟩⟩
  have hn : ∀ n ∈ spaced.numbers, ReadsWhole strtodDigits id n := by
    intro n hmem
    obtain rfl : n = one := by simpa [spaced, Doc.numbers, Elems.numbers, Mems.numbers] using hmem
    exact reads_one
  have hn' : ∀ n ∈ spacedEmpty.numbers, ReadsWhole strtodDigits id n := by
    intro n hmem
    obtain rfl : n = one := by simpa [spacedEmpty, Doc.numbers, Elems.numbers, Mems.numbers] using hmem
    exact reads_one
  have hcompact : Answers strtodDigits (lit "[1,\x7b\"k\":null\x7d]") (some (spaced.compact.tree id)) :=
    (Doc.answers_tree hk (by rwa [spaced.compact_numbers]) .none .none).2 spaced.compact_clean
  exact ⟨((white_space_insignificant hn .none .none).1 ht _).2 hcompact,
    (white_space_insignificant hn' .none .none).1 ht' none⟩

/-- `[1 ]` has a second element. -/
theorem white_space_element : ¬∀ r, Answers strtodDigits (lit "[1 ]") r ↔ Answers strtodDigits (lit "[1]") r := by
  intro h
  have hn : ∀ n ∈ [one], ReadsWhole strtodDigits id n := fun n hmem => List.mem_singleton.1 hmem ▸ reads_one
  have hone : Answers strtodDigits (lit "[1]") (some (.array (.cons (.number (lit "1")) .nil))) :=
    (@Doc.answers_tree _ strtodDigits id (.array (.last .none (.number one) .none)) trivial hn .none .none).2
      ⟨trivial, rfl⟩
  have hclean := (@Doc.answers_tree _ strtodDigits id (.array (.last .none (.number one) space)) trivial hn .none
    .none).1 ((h _).2 hone)
  exact absurd hclean.2 (by decide)

end JACLibc.Json
