import JACLibc.Json.Text

/-!
# The round trip of the JSON writer and parser

`js_parse` reads `js_stringify` of a tree back exactly when the tree has no string and its keys are not empty, have no
quote inside and start with neither white space nor `}`.

The keys are decided by the parser alone: none that it makes is of another kind.  For the strings, take memory that is
all NUL: the text of every string is then empty, and what the parser makes of the whole text (`blank`) has no string
in it.
-/

namespace JACLibc.Json

variable {D : Type}

/-! ### Kinds of trees -/

mutual

/-- A tree without numbers. -/
def Value.Plain : Value D → Prop
  | .number _ => False
  | .array vs => vs.Plain
  | .object ms => ms.Plain
  | _ => True

def Values.Plain : Values D → Prop
  | .nil => True
  | .cons v vs => v.Plain ∧ vs.Plain

def Members.Plain : Members D → Prop
  | .nil => True
  | .cons _ v ms => v.Plain ∧ ms.Plain

end

mutual

/-- A tree without strings; the keys are none. -/
def Value.NoStrings : Value D → Prop
  | .string _ => False
  | .array vs => vs.NoStrings
  | .object ms => ms.NoStrings
  | _ => True

def Values.NoStrings : Values D → Prop
  | .nil => True
  | .cons v vs => v.NoStrings ∧ vs.NoStrings

def Members.NoStrings : Members D → Prop
  | .nil => True
  | .cons _ v ms => v.NoStrings ∧ ms.NoStrings

end

/-- A key that the parser can make: not empty, without a quote, and starting with neither white space nor `}`. -/
def KeyOk (key : CString) : Prop :=
  (∃ c s, key.bytes = c :: s ∧ isspace c = false ∧ c ≠ asc '}') ∧ asc '"' ∉ key.bytes

mutual

def Value.KeysOk : Value D → Prop
  | .array vs => vs.KeysOk
  | .object ms => ms.KeysOk
  | _ => True

def Values.KeysOk : Values D → Prop
  | .nil => True
  | .cons v vs => v.KeysOk ∧ vs.KeysOk

def Members.KeysOk : Members D → Prop
  | .nil => True
  | .cons key v ms => KeyOk key ∧ v.KeysOk ∧ ms.KeysOk

end

/-! ### The keys that the parser makes -/

section Parser

variable {strtod : List UInt8 → D × Nat}

theorem deref_eq_nul {s : List UInt8} (hs : deref s ≠ 0) : ∃ t, s = deref s :: t := by
  cases s with
  | nil => exact absurd rfl hs
  | cons c t => exact ⟨t, rfl⟩

private theorem keyOk_takeWhile {s : List UInt8}
    (h0 : deref (s.dropWhile fun c => isspace c ∨ c = asc '"') ≠ 0)
    (hb : deref (s.dropWhile fun c => isspace c ∨ c = asc '"') ≠ asc '}') :
    KeyOk (.of ((s.dropWhile fun c => isspace c ∨ c = asc '"').takeWhile fun c => c ≠ asc '"' ∧ c ≠ 0)) := by
  obtain ⟨t, ht⟩ := deref_eq_nul h0
  generalize hc : deref (s.dropWhile fun c => isspace c ∨ c = asc '"') = c at h0 hb ht
  have hfirst : ¬(isspace c ∨ c = asc '"') := by
    have := List.head?_dropWhile_not (fun c => decide (isspace c ∨ c = asc '"')) s
    rw [ht] at this
    simpa using this
  obtain ⟨hspace, hquote⟩ := not_or.1 hfirst
  rw [ht]
  have hkey : (CString.of ((c :: t).takeWhile fun c => c ≠ asc '"' ∧ c ≠ 0)).bytes =
      (c :: t).takeWhile fun c => c ≠ asc '"' ∧ c ≠ 0 := by
    change ((c :: t).takeWhile fun c => c ≠ asc '"' ∧ c ≠ 0).takeWhile (· ≠ 0) = _
    rw [List.takeWhile_takeWhile]
    congr 1
    funext x
    by_cases hx : x = 0 <;> simp [hx]
  refine ⟨?_, ?_⟩
  · refine ⟨c, t.takeWhile fun c => c ≠ asc '"' ∧ c ≠ 0, ?_, by simpa using hspace, hb⟩
    rw [hkey, List.takeWhile_cons_of_pos (by simp [hquote, h0])]
  · rw [hkey]
    intro hmem
    simpa using List.mem_takeWhile_imp hmem

private theorem keysOk_parseValue {fuel : Nat} (iha : ∀ s vs rest, parseArray strtod fuel s = some (vs, rest) →
    vs.KeysOk)
    (iho : ∀ s ms rest, parseObject strtod fuel s = some (some ms, rest) → ms.KeysOk) (s : List UInt8) (v : Value D)
    (rest : List UInt8) (h : parseValue strtod (fuel + 1) s = some (some v, rest)) : v.KeysOk := by
  rw [parseValue] at h
  split at h
  · simp at h
  next c t _ =>
    by_cases hbrace : c = asc '{'
    · simp only [if_pos hbrace, Option.bind_eq_bind, Option.bind_eq_some_iff] at h
      obtain ⟨⟨ms, rest'⟩, hms, hv⟩ := h
      obtain ⟨hv, -⟩ := Prod.mk.inj (Option.some.inj hv)
      obtain ⟨ms, rfl, rfl⟩ := Option.map_eq_some_iff.1 hv
      exact iho _ _ _ hms
    rw [if_neg hbrace] at h
    by_cases hbracket : c = asc '['
    · simp only [if_pos hbracket, Option.bind_eq_bind, Option.bind_eq_some_iff] at h
      obtain ⟨⟨vs, rest'⟩, hvs, hv⟩ := h
      simp only [Option.some.injEq, Prod.mk.injEq] at hv
      obtain ⟨rfl, -⟩ := hv
      exact iha _ _ _ hvs
    rw [if_neg hbracket] at h
    by_cases hquote : c = asc '"'
    · simp only [if_pos hquote, parseString, Option.some.injEq, Prod.mk.injEq] at h
      rw [← h.1]
      split <;> trivial
    rw [if_neg hquote] at h
    -- what is left has no keys
    split at h
    · simp only [Option.some.injEq, Prod.mk.injEq] at h
      exact h.1 ▸ trivial
    repeat'
      split at h
    all_goals
      simp only [Option.some.injEq, Prod.mk.injEq] at h
      exact h.1 ▸ trivial

private theorem keysOk_parseArray {fuel : Nat} (ihv : ∀ s v rest, parseValue strtod fuel s = some (some v, rest) →
    v.KeysOk)
    (iha : ∀ s vs rest, parseArray strtod fuel s = some (vs, rest) → vs.KeysOk) (s : List UInt8) (vs : Values D)
    (rest : List UInt8) (h : parseArray strtod (fuel + 1) s = some (vs, rest)) : vs.KeysOk := by
  cases s with
  | nil => simp [parseArray] at h
  | cons c t =>
    rw [parseArray] at h
    by_cases hend : c = 0 ∨ c = asc ']'
    · rw [if_pos hend] at h
      simp only [Option.some.injEq, Prod.mk.injEq] at h
      obtain ⟨rfl, -⟩ := h
      trivial
    · simp only [if_neg hend, Option.bind_eq_bind, Option.bind_eq_some_iff] at h
      obtain ⟨⟨v, s'⟩, hv, d, -, ⟨ws, rest'⟩, hws, h⟩ := h
      simp only [Option.some.injEq, Prod.mk.injEq] at h
      obtain ⟨rfl, -⟩ := h
      cases v with
      | none => exact iha _ _ _ hws
      | some v => exact ⟨ihv _ _ _ hv, iha _ _ _ hws⟩

private theorem keysOk_parseObject {fuel : Nat} (ihv : ∀ s v rest, parseValue strtod fuel s = some (some v, rest) →
    v.KeysOk)
    (iho : ∀ s ms rest, parseObject strtod fuel s = some (some ms, rest) → ms.KeysOk) (s : List UInt8) (ms : Members D)
    (rest : List UInt8) (h : parseObject strtod (fuel + 1) s = some (some ms, rest)) : ms.KeysOk := by
  rw [parseObject] at h
  by_cases h1 : deref s = 0
  · simp only [if_pos h1, Option.some.injEq, Prod.mk.injEq] at h
    exact h.1 ▸ trivial
  rw [if_neg h1] at h
  by_cases h2 : deref s = asc '}'
  · simp only [if_pos h2, Option.some.injEq, Prod.mk.injEq] at h
    exact h.1 ▸ trivial
  rw [if_neg h2] at h
  simp only at h
  by_cases h3 : deref (s.dropWhile fun c => isspace c ∨ c = asc '"') = 0
  · simp only [if_pos h3, Option.some.injEq, Prod.mk.injEq] at h
    exact h.1 ▸ trivial
  rw [if_neg h3] at h
  by_cases h4 : deref (s.dropWhile fun c => isspace c ∨ c = asc '"') = asc '}'
  · simp only [if_pos h4, Option.some.injEq, Prod.mk.injEq] at h
    exact h.1 ▸ trivial
  rw [if_neg h4] at h
  have hkey := keyOk_takeWhile h3 h4
  split at h
  · simp only [Option.some.injEq, Prod.mk.injEq] at h
    exact h.1 ▸ trivial
  split at h
  · simp at h
  simp only [Option.bind_eq_bind, Option.bind_eq_some_iff] at h
  obtain ⟨⟨v, s'⟩, hv, h⟩ := h
  cases v with
  | none => simp at h
  | some v =>
    simp only [Option.bind_eq_some_iff] at h
    obtain ⟨⟨ws, rest'⟩, hws, h⟩ := h
    obtain ⟨h, -⟩ := Prod.mk.inj (Option.some.inj h)
    obtain ⟨ws, rfl, rfl⟩ := Option.map_eq_some_iff.1 h
    exact ⟨hkey, ihv _ _ _ hv, iho _ _ _ hws⟩

/-- Every tree the parser makes, of any text, has keys of that kind. -/
theorem keysOk_parse (fuel : Nat) :
    (∀ s v rest, parseValue strtod fuel s = some (some v, rest) → v.KeysOk) ∧
    (∀ s vs rest, parseArray strtod fuel s = some (vs, rest) → vs.KeysOk) ∧
    ∀ s ms rest, parseObject strtod fuel s = some (some ms, rest) → ms.KeysOk := by
  induction fuel with
  | zero => simp [parseValue, parseArray, parseObject]
  | succ fuel ih =>
    obtain ⟨ihv, iha, iho⟩ := ih
    exact ⟨keysOk_parseValue iha iho, keysOk_parseArray ihv iha, keysOk_parseObject ihv iho⟩

end Parser

/-! ### More calls -/

section Fuel

variable {strtod : List UInt8 → D × Nat}

private theorem parseValue_succ {fuel : Nat} (iha : ∀ s r, parseArray strtod fuel s = some r →
    parseArray strtod (fuel + 1) s = some r)
    (iho : ∀ s r, parseObject strtod fuel s = some r → parseObject strtod (fuel + 1) s = some r) (s : List UInt8)
    (r : Option (Value D) × List UInt8) (h : parseValue strtod (fuel + 1) s = some r) :
    parseValue strtod (fuel + 2) s = some r := by
  rw [parseValue] at h ⊢
  split at h
  · exact h
  · rename_i c t _
    simp only at h ⊢
    by_cases hbrace : c = asc '{'
    · simp only [if_pos hbrace, Option.bind_eq_bind, Option.bind_eq_some_iff] at h ⊢
      obtain ⟨a, ha, h⟩ := h
      exact ⟨a, iho _ _ ha, h⟩
    rw [if_neg hbrace] at h ⊢
    by_cases hbracket : c = asc '['
    · simp only [if_pos hbracket, Option.bind_eq_bind, Option.bind_eq_some_iff] at h ⊢
      obtain ⟨a, ha, h⟩ := h
      exact ⟨a, iha _ _ ha, h⟩
    rwa [if_neg hbracket] at h ⊢

private theorem parseArray_succ {fuel : Nat} (ihv : ∀ s r, parseValue strtod fuel s = some r →
    parseValue strtod (fuel + 1) s = some r)
    (iha : ∀ s r, parseArray strtod fuel s = some r → parseArray strtod (fuel + 1) s = some r) (s : List UInt8)
    (r : Values D × List UInt8) (h : parseArray strtod (fuel + 1) s = some r) :
    parseArray strtod (fuel + 2) s = some r := by
  cases s with
  | nil => simp [parseArray] at h
  | cons c t =>
    rw [parseArray] at h ⊢
    by_cases hend : c = 0 ∨ c = asc ']'
    · rwa [if_pos hend] at h ⊢
    · simp only [if_neg hend, Option.bind_eq_bind, Option.bind_eq_some_iff] at h ⊢
      obtain ⟨a, ha, d, hd, b, hb, h⟩ := h
      exact ⟨a, ihv _ _ ha, d, hd, b, iha _ _ hb, h⟩

private theorem else_mono {α : Type*} {p : Prop} [Decidable p] {a b b' : Option α} {r : α}
    (h : (if p then a else b) = some r) (hb : b = some r → b' = some r) : (if p then a else b') = some r := by
  by_cases hp : p
  · rwa [if_pos hp] at h ⊢
  · rw [if_neg hp] at h ⊢
    exact hb h

private theorem parseObject_succ {fuel : Nat} (ihv : ∀ s r, parseValue strtod fuel s = some r →
    parseValue strtod (fuel + 1) s = some r)
    (iho : ∀ s r, parseObject strtod fuel s = some r → parseObject strtod (fuel + 1) s = some r) (s : List UInt8)
    (r : Option (Members D) × List UInt8) (h : parseObject strtod (fuel + 1) s = some r) :
    parseObject strtod (fuel + 2) s = some r := by
  rw [parseObject] at h ⊢
  simp only at h ⊢
  iterate 6
    refine else_mono h fun h => ?_
  simp only [Option.bind_eq_bind, Option.bind_eq_some_iff] at h ⊢
  obtain ⟨⟨v, s'⟩, hv, h⟩ := h
  refine ⟨(v, s'), ihv _ _ hv, ?_⟩
  cases v with
  | none => exact h
  | some v =>
    simp only [Option.bind_eq_some_iff] at h ⊢
    obtain ⟨b, hb, h⟩ := h
    exact ⟨b, iho _ _ hb, h⟩

/-- An answer stays the same with more calls. -/
theorem parse_mono {fuel fuel' : Nat} (hle : fuel ≤ fuel') :
    (∀ s r, parseValue strtod fuel s = some r → parseValue strtod fuel' s = some r) ∧
    (∀ s r, parseArray strtod fuel s = some r → parseArray strtod fuel' s = some r) ∧
    ∀ s r, parseObject strtod fuel s = some r → parseObject strtod fuel' s = some r := by
  have hstep : ∀ n, (∀ s r, parseValue strtod n s = some r → parseValue strtod (n + 1) s = some r) ∧
      (∀ s r, parseArray strtod n s = some r → parseArray strtod (n + 1) s = some r) ∧
      ∀ s r, parseObject strtod n s = some r → parseObject strtod (n + 1) s = some r := by
    intro n
    induction n with
    | zero => simp [parseValue, parseArray, parseObject]
    | succ n ih =>
      obtain ⟨ihv, iha, iho⟩ := ih
      exact ⟨parseValue_succ iha iho, parseArray_succ ihv iha, parseObject_succ ihv iho⟩
  induction fuel', hle using Nat.le_induction with
  | base => exact ⟨fun _ _ h => h, fun _ _ h => h, fun _ _ h => h⟩
  | succ n _ ih =>
    obtain ⟨hv, ha, ho⟩ := hstep n
    exact ⟨fun s r h => hv s r (ih.1 s r h), fun s r h => ha s r (ih.2.1 s r h), fun s r h => ho s r (ih.2.2 s r h)⟩

/-! ### Where `NULL` is answered -/

private theorem null_value {fuel : Nat} (iho : ∀ s rest, parseObject strtod fuel s = some (none, rest) → deref rest = 0)
    (s rest : List UInt8) (h : parseValue strtod (fuel + 1) s = some (none, rest)) : deref rest = 0 := by
  rw [parseValue] at h
  split at h
  · cases h
  · rename_i c t _
    simp only at h
    by_cases hbrace : c = asc '{'
    · simp only [if_pos hbrace, Option.bind_eq_bind, Option.bind_eq_some_iff] at h
      obtain ⟨⟨ms, rest'⟩, hms, h⟩ := h
      obtain ⟨hnone, rfl⟩ := Prod.mk.inj (Option.some.inj h)
      obtain rfl : ms = none := Option.map_eq_none_iff.1 hnone
      exact iho t rest' hms
    rw [if_neg hbrace] at h
    by_cases hbracket : c = asc '['
    · simp only [if_pos hbracket, Option.bind_eq_bind, Option.bind_eq_some_iff] at h
      obtain ⟨a, -, h⟩ := h
      cases h
    rw [if_neg hbracket] at h
    repeat'
      split at h
    all_goals cases h

private theorem null_object {fuel : Nat} (ihv : ∀ s rest, parseValue strtod fuel s = some (none, rest) → deref rest = 0)
    (iho : ∀ s rest, parseObject strtod fuel s = some (none, rest) → deref rest = 0) (s rest : List UInt8)
    (h : parseObject strtod (fuel + 1) s = some (none, rest)) : deref rest = 0 := by
  rw [parseObject] at h
  simp only at h
  iterate 5
    split at h
    · cases h
  split at h
  · rename_i hend
    obtain ⟨-, rfl⟩ := Prod.mk.inj (Option.some.inj h)
    exact hend
  · simp only [Option.bind_eq_bind, Option.bind_eq_some_iff] at h
    obtain ⟨⟨v, s'⟩, hv, h⟩ := h
    cases v with
    | none =>
      obtain ⟨-, rfl⟩ := Prod.mk.inj (Option.some.inj h)
      exact ihv _ _ hv
    | some v =>
      simp only [Option.bind_eq_some_iff] at h
      obtain ⟨⟨ms, rest'⟩, hms, h⟩ := h
      obtain ⟨hnone, rfl⟩ := Prod.mk.inj (Option.some.inj h)
      obtain rfl : ms = none := Option.map_eq_none_iff.1 hnone
      exact iho _ rest' hms

/-- `NULL` is answered at the end of the text only. -/
theorem null_end (fuel : Nat) :
    (∀ s rest, parseValue strtod fuel s = some (none, rest) → deref rest = 0) ∧
    ∀ s rest, parseObject strtod fuel s = some (none, rest) → deref rest = 0 := by
  induction fuel with
  | zero => simp [parseValue, parseObject]
  | succ fuel ih => exact ⟨null_value ih.2, null_object ih.1 ih.2⟩

end Fuel

/-! ### What the parser reads when the memory is all NUL -/

def Value.isString : Value D → Bool
  | .string _ => true
  | _ => false

def Values.isNil : Values D → Bool
  | .nil => true
  | _ => false

mutual

/-- A string is read as `null`. -/
def Value.blank : Value D → Value D
  | .null => .null
  | .boolean b => .boolean b
  | .number n => .number n
  | .string _ => .null
  | .array vs => .array vs.blank
  | .object ms => .object ms.blank

/-- A string at the end of an array is not read at all. -/
def Values.blank : Values D → Values D
  | .nil => .nil
  | .cons v vs => if v.isString ∧ vs.isNil then .nil else .cons v.blank vs.blank

def Members.blank : Members D → Members D
  | .nil => .nil
  | .cons key v ms => .cons key v.blank ms.blank

end

mutual

/-- Calls enough to read a tree. -/
def Value.size : Value D → Nat
  | .array vs => vs.size + 1
  | .object ms => ms.size + 1
  | _ => 1

def Values.size : Values D → Nat
  | .nil => 1
  | .cons v vs => v.size + vs.size + 1

def Members.size : Members D → Nat
  | .nil => 1
  | .cons _ v ms => v.size + ms.size + 1

end

/-- What stands behind a value: the end of the text, a comma, or the end of an array or object. -/
def Follow (s : List UInt8) : Prop := ∃ c t, s = c :: t ∧ (c = 0 ∨ c = asc ',' ∨ c = asc ']' ∨ c = asc '}')

section RoundTrip

variable {strtod : List UInt8 → D × Nat} {fmt : D → List UInt8}

private theorem strncmp_ne_zero {c d : UInt8} (t s : List UInt8) (n : Nat) (h : c ≠ d) :
    strncmp (c :: t) (d :: s) (n + 1) ≠ 0 := by
  rw [strncmp, ncmp, if_neg (by simp [h])]
  by_cases hlt : charVal ((c :: t).headD 0) < charVal ((d :: s).headD 0)
  · rw [if_pos hlt]
    decide
  · rw [if_neg hlt]
    decide

private theorem strncmp_append {w : List UInt8} (hw : 0 ∉ w) (rest : List UInt8) :
    strncmp (w ++ rest) w w.length = 0 := by
  induction w with
  | nil => rfl
  | cons c w ih =>
    obtain ⟨hc, hw⟩ : ¬0 = c ∧ 0 ∉ w := by simpa using hw
    have hstep : strncmp (c :: w ++ rest) (c :: w) (w.length + 1) = strncmp (w ++ rest) w w.length := by
      simp [strncmp, ncmp, Ne.symm hc]
    rw [List.length_cons, hstep, ih hw]

private theorem lit_true : lit "true" = [asc 't', asc 'r', asc 'u', asc 'e'] := by decide

private theorem lit_false : lit "false" = [asc 'f', asc 'a', asc 'l', asc 's', asc 'e'] := by decide

private theorem lit_null : lit "null" = [asc 'n', asc 'u', asc 'l', asc 'l'] := by decide

/-- A byte that starts no container, string or number. -/
def Wordy (c : UInt8) : Prop :=
  isspace c = false ∧ c ≠ asc '{' ∧ c ≠ asc '[' ∧ c ≠ asc '"' ∧ ¬(c = asc '-' ∨ isdigit c)

private theorem parse_wordy {c : UInt8} {t : List UInt8} {fuel : Nat} (hc : Wordy c) :
    parseValue strtod (fuel + 1) (c :: t) =
      if strncmp (c :: t) (lit "true") 4 = 0 then some (some (.boolean true), (c :: t).drop 4)
      else if strncmp (c :: t) (lit "false") 5 = 0 then some (some (.boolean false), (c :: t).drop 5)
      else if strncmp (c :: t) (lit "null") 4 = 0 then some (some .null, (c :: t).drop 4)
      else some (some .null, c :: t) := by
  obtain ⟨h1, h2, h3, h4, h5⟩ := hc
  rw [parseValue, List.dropWhile_cons_of_neg (by simp [h1])]
  simp only [if_neg h2, if_neg h3, if_neg h4, if_neg h5]

/-- Where no value starts, `null` is read and the position stays. -/
theorem parse_follow {s : List UInt8} {fuel : Nat} (hs : Follow s) :
    parseValue strtod (fuel + 1) s = some (some .null, s) := by
  obtain ⟨c, t, rfl, hc⟩ := hs
  have hno : Wordy c ∧ c ≠ asc 't' ∧ c ≠ asc 'f' ∧ c ≠ asc 'n' := by
    rw [Wordy]
    rcases hc with rfl | rfl | rfl | rfl <;> decide
  obtain ⟨h1, h2, h3, h4⟩ := hno
  rw [parse_wordy h1, lit_true, lit_false, lit_null, if_neg (strncmp_ne_zero t _ 3 h2),
    if_neg (strncmp_ne_zero t _ 4 h3), if_neg (strncmp_ne_zero t _ 3 h4)]

theorem parse_null (rest : List UInt8) (fuel : Nat) :
    parseValue strtod (fuel + 1) (lit "null" ++ rest) = some (some .null, rest) := by
  have heq := strncmp_append (w := lit "null") (by decide) rest
  have hw : Wordy (asc 'n') := by
    rw [Wordy]
    decide
  rw [lit_null] at heq ⊢
  simp only [List.cons_append, List.nil_append, List.length_cons, List.length_nil, Nat.reduceAdd] at heq ⊢
  rw [parse_wordy hw, lit_true, lit_false, lit_null, if_neg (strncmp_ne_zero _ _ 3 (by decide)),
    if_neg (strncmp_ne_zero _ _ 4 (by decide)), if_pos heq]
  rfl

theorem parse_true (rest : List UInt8) (fuel : Nat) :
    parseValue strtod (fuel + 1) (lit "true" ++ rest) = some (some (.boolean true), rest) := by
  have heq := strncmp_append (w := lit "true") (by decide) rest
  have hw : Wordy (asc 't') := by
    rw [Wordy]
    decide
  rw [lit_true] at heq ⊢
  simp only [List.cons_append, List.nil_append, List.length_cons, List.length_nil, Nat.reduceAdd] at heq ⊢
  rw [parse_wordy hw, lit_true, if_pos heq]
  rfl

theorem parse_false (rest : List UInt8) (fuel : Nat) :
    parseValue strtod (fuel + 1) (lit "false" ++ rest) = some (some (.boolean false), rest) := by
  have heq := strncmp_append (w := lit "false") (by decide) rest
  have hw : Wordy (asc 'f') := by
    rw [Wordy]
    decide
  rw [lit_false] at heq ⊢
  simp only [List.cons_append, List.nil_append, List.length_cons, List.length_nil, Nat.reduceAdd] at heq ⊢
  rw [parse_wordy hw, lit_true, lit_false, if_neg (strncmp_ne_zero _ _ 3 (by decide)), if_pos heq]
  rfl

/-- The text of every value but a string, up to what is behind it, starts with a byte that ends no array. -/
private theorem text_head (fmt : D → List UInt8) {v : Value D} (hv : v.Plain) (hs : v.isString = false)
    (at_ : List Nat) :
    ∃ c t, stringifyValue fmt (fun _ => 0) at_ v = c :: t ∧ ¬(c = 0 ∨ c = asc ']') := by
  cases v with
  | null => exact ⟨asc 'n', lit "ull", by rw [stringifyValue]; decide, by decide⟩
  | boolean b =>
    cases b with
    | true => exact ⟨asc 't', lit "rue", by rw [stringifyValue]; decide, by decide⟩
    | false => exact ⟨asc 'f', lit "alse", by rw [stringifyValue]; decide, by decide⟩
  | number n => exact hv.elim
  | string s => simp [Value.isString] at hs
  | array vs => exact ⟨asc '[', _, by rw [stringifyValue], by decide⟩
  | object ms => exact ⟨asc '{', _, by rw [stringifyValue], by decide⟩

private theorem text_string {v : Value D} (hs : v.isString = true) (at_ : List Nat) :
    stringifyValue fmt (fun _ => 0) at_ v = [] ∧ v.blank = .null := by
  cases v with
  | string s => exact ⟨by simp [stringifyValue, stringifyString, CString.of], rfl⟩
  | _ => simp [Value.isString] at hs

/-- The text of the children of an array without a comma in front. -/
private def elems (fmt : D → List UInt8) (at_ : List Nat) (i : Nat) : Values D → List UInt8
  | .nil => []
  | .cons v vs => stringifyValue fmt (fun _ => 0) (i :: at_) v ++ stringifyArray fmt (fun _ => 0) at_ (i + 1) vs

private def members (fmt : D → List UInt8) (at_ : List Nat) (i : Nat) : Members D → List UInt8
  | .nil => []
  | .cons key v ms => asc '"' :: (key.bytes ++ asc '"' :: asc ':' ::
      (stringifyValue fmt (fun _ => 0) (i :: at_) v ++ stringifyObject fmt (fun _ => 0) at_ (i + 1) ms))

private theorem stringifyArray_zero (at_ : List Nat) (vs : Values D) :
    stringifyArray fmt (fun _ => 0) at_ 0 vs = elems fmt at_ 0 vs := by
  cases vs <;> simp [stringifyArray, elems]

private theorem stringifyObject_zero (at_ : List Nat) (ms : Members D) :
    stringifyObject fmt (fun _ => 0) at_ 0 ms = members fmt at_ 0 ms := by
  cases ms <;> simp [stringifyObject, members]

/-- After an element the parser stands before a comma or the end, and skips the comma. -/
private theorem array_rest (fmt : D → List UInt8) (at_ : List Nat) (i : Nat) (vs : Values D) (rest : List UInt8) :
    ∃ d t, stringifyArray fmt (fun _ => 0) at_ (i + 1) vs ++ asc ']' :: rest = d :: t ∧ (d = asc ',' ∨ d = asc ']') ∧
      (if d = asc ',' then t else d :: t) = elems fmt at_ (i + 1) vs ++ asc ']' :: rest := by
  cases vs with
  | nil => exact ⟨asc ']', rest, by simp [stringifyArray], .inr rfl, by rw [if_neg (by decide)]; rfl⟩
  | cons v vs =>
    exact ⟨asc ',', elems fmt at_ (i + 1) (.cons v vs) ++ asc ']' :: rest, by simp [stringifyArray, elems], .inl rfl,
      by rw [if_pos rfl]⟩

private theorem object_rest (fmt : D → List UInt8) (at_ : List Nat) (i : Nat) (ms : Members D) (rest : List UInt8) :
    ∃ d t, stringifyObject fmt (fun _ => 0) at_ (i + 1) ms ++ asc '}' :: rest = d :: t ∧ (d = asc ',' ∨ d = asc '}') ∧
      (if d = asc ',' then t else d :: t) = members fmt at_ (i + 1) ms ++ asc '}' :: rest := by
  cases ms with
  | nil => exact ⟨asc '}', rest, by simp [stringifyObject], .inr rfl, by rw [if_neg (by decide)]; rfl⟩
  | cons key v ms =>
    exact ⟨asc ',', members fmt at_ (i + 1) (.cons key v ms) ++ asc '}' :: rest, by simp [stringifyObject, members],
      .inl rfl, by rw [if_pos rfl]⟩

private theorem follow_comma {d : UInt8} {t : List UInt8} (hd : d = asc ',' ∨ d = asc ']' ∨ d = asc '}') :
    Follow (d :: t) := ⟨d, t, rfl, .inr hd⟩

/-- One turn of the loop over an object, from the quote of a key of the right kind. -/
private theorem parseObject_key {key : CString} (hk : KeyOk key) {s s' : List UInt8} {v : Value D} {fuel : Nat}
    (hv : parseValue strtod fuel s = some (some v, s')) :
    parseObject strtod (fuel + 1) (asc '"' :: (key.bytes ++ asc '"' :: asc ':' :: s)) =
      (parseObject strtod fuel (if deref s' = asc ',' then s'.tail else s')).bind fun r =>
        some (r.1.map (.cons key v), r.2) := by
  obtain ⟨⟨c, t, hct, hspace, hbrace⟩, hquote⟩ := hk
  have hc0 : c ≠ 0 := fun e => key.noNul (by rw [hct, e]; exact List.mem_cons_self)
  have hcq : c ≠ asc '"' := fun e => hquote (by rw [hct, e]; exact List.mem_cons_self)
  -- the quote is skipped, and the first byte of the key is not
  have hskip : (asc '"' :: (key.bytes ++ asc '"' :: asc ':' :: s)).dropWhile (fun c => isspace c ∨ c = asc '"') =
      key.bytes ++ asc '"' :: asc ':' :: s := by
    rw [List.dropWhile_cons_of_pos (by simp), hct, List.cons_append, List.dropWhile_cons_of_neg (by simp [hspace, hcq])]
  have hall : ∀ x ∈ key.bytes, decide (x ≠ asc '"' ∧ x ≠ 0) = true := by
    intro x hx
    rw [decide_eq_true_eq]
    exact ⟨fun e => hquote (e ▸ hx), fun e => key.noNul (e ▸ hx)⟩
  have hkey : (key.bytes ++ asc '"' :: asc ':' :: s).takeWhile (fun c => c ≠ asc '"' ∧ c ≠ 0) = key.bytes := by
    rw [List.takeWhile_append_of_pos hall, List.takeWhile_cons_of_neg (by simp), List.append_nil]
  have hrest : (key.bytes ++ asc '"' :: asc ':' :: s).dropWhile (fun c => c ≠ asc '"' ∧ c ≠ 0) = asc '"' :: asc ':' ::
    s := by
    rw [List.dropWhile_append_of_pos hall, List.dropWhile_cons_of_neg (by simp)]
  have hcolon : (asc ':' :: s).dropWhile (fun c => c ≠ asc ':' ∧ c ≠ 0) = asc ':' :: s :=
    List.dropWhile_cons_of_neg (by simp)
  have hderef : deref (key.bytes ++ asc '"' :: asc ':' :: s) = c := by rw [hct, List.cons_append, deref_cons]
  have hq : asc '"' ≠ 0 ∧ asc '"' ≠ asc '}' ∧ asc ':' ≠ 0 := by decide
  rw [parseObject]
  simp only [deref_cons, if_neg hq.1, if_neg hq.2.1, hskip, hderef, if_neg hc0, if_neg hbrace, hkey, hrest,
    List.tail_cons, hcolon, if_neg hq.2.2, hv, CString.of_bytes, Option.bind_eq_bind, Option.bind_some]

mutual

/-- What the parser reads from the text of a tree with good keys, whatever stands behind it. -/
private theorem parseValue_text : ∀ (v : Value D) (at_ : List Nat) (rest : List UInt8) (fuel : Nat), v.Plain →
    v.KeysOk → Follow rest → v.size ≤ fuel →
    parseValue strtod fuel (stringifyValue fmt (fun _ => 0) at_ v ++ rest) = some (some v.blank, rest)
  | v, at_, rest, 0, _, _, _, hf => by cases v <;> simp [Value.size] at hf
  | .null, at_, rest, fuel + 1, _, _, _, _ => by
    rw [stringifyValue, Value.blank]
    exact parse_null rest fuel
  | .boolean true, at_, rest, fuel + 1, _, _, _, _ => by
    rw [stringifyValue, Value.blank, if_pos rfl]
    exact parse_true rest fuel
  | .boolean false, at_, rest, fuel + 1, _, _, _, _ => by
    rw [stringifyValue, Value.blank, if_neg (by simp)]
    exact parse_false rest fuel
  | .number n, at_, rest, fuel + 1, hp, _, _, _ => hp.elim
  | .string s, at_, rest, fuel + 1, _, _, hr, _ => by
    rw [(text_string rfl at_).1, Value.blank]
    exact parse_follow hr
  | .array vs, at_, rest, fuel + 1, hp, hk, _, hf => by
    have hvs := parseArray_text vs at_ 0 rest fuel hp hk (by simpa [Value.size] using hf)
    have hc : isspace (asc '[') = false ∧ asc '[' ≠ asc '{' := by decide
    rw [stringifyValue, stringifyArray_zero, List.cons_append, List.append_assoc, parseValue,
      List.dropWhile_cons_of_neg (by simp [hc.1])]
    simp only [if_neg hc.2, if_true, List.singleton_append, hvs, Option.bind_eq_bind, Option.bind_some, Value.blank]
  | .object ms, at_, rest, fuel + 1, hp, hk, _, hf => by
    have hms := parseObject_text ms at_ 0 rest fuel hp hk (by simpa [Value.size] using hf)
    have hc : isspace (asc '{') = false := by decide
    rw [stringifyValue, stringifyObject_zero, List.cons_append, List.append_assoc, parseValue,
      List.dropWhile_cons_of_neg (by simp [hc])]
    simp only [if_true, List.singleton_append, hms, Option.bind_eq_bind, Option.bind_some, Option.map_some, Value.blank]

private theorem parseArray_text : ∀ (vs : Values D) (at_ : List Nat) (i : Nat) (rest : List UInt8) (fuel : Nat),
    vs.Plain → vs.KeysOk → vs.size ≤ fuel →
    parseArray strtod fuel (elems fmt at_ i vs ++ asc ']' :: rest) = some (vs.blank, rest)
  | vs, at_, i, rest, 0, _, _, hf => by cases vs <;> simp [Values.size] at hf
  | .nil, at_, i, rest, fuel + 1, _, _, _ => by
    rw [elems, List.nil_append, parseArray, if_pos (.inr rfl), Values.blank]
  | .cons v vs, at_, i, rest, fuel + 1, hp, hk, hf => by
    obtain ⟨d, t, hrest, hd, hnext⟩ := array_rest fmt at_ i vs rest
    have hfollow : Follow (d :: t) := follow_comma (hd.imp_right .inl)
    simp only [Values.size] at hf
    have hv := parseValue_text v (i :: at_) (d :: t) fuel hp.1 hk.1 hfollow (by omega)
    have hvs := parseArray_text vs at_ (i + 1) rest fuel hp.2 hk.2 (by omega)
    have htext : elems fmt at_ i (.cons v vs) ++ asc ']' :: rest =
        stringifyValue fmt (fun _ => 0) (i :: at_) v ++ (d :: t) := by
      rw [elems, List.append_assoc, hrest]
    rw [htext, Values.blank]
    by_cases hlast : v.isString = true ∧ vs.isNil = true
    · -- nothing stands before the end of the array
      obtain ⟨hs, hnil⟩ := hlast
      cases vs with
      | cons w ws => simp [Values.isNil] at hnil
      | nil =>
        simp only [stringifyArray, List.nil_append, List.cons.injEq] at hrest
        rw [(text_string hs _).1, List.nil_append, parseArray, ← hrest.1, ← hrest.2, if_pos (.inr rfl),
          if_pos ⟨hs, hnil⟩]
    · obtain ⟨c, u, hcu, hc⟩ : ∃ c u, stringifyValue fmt (fun _ => 0) (i :: at_) v ++ (d :: t) = c :: u ∧
          ¬(c = 0 ∨ c = asc ']') := by
        by_cases hs : v.isString = true
        · cases vs with
          | nil => exact absurd ⟨hs, rfl⟩ hlast
          | cons w ws =>
            refine ⟨d, t, by rw [(text_string hs _).1, List.nil_append], ?_⟩
            rw [stringifyArray, if_neg (Nat.succ_ne_zero i)] at hrest
            simp only [List.cons_append, List.cons.injEq] at hrest
            rw [← hrest.1]
            decide
        · obtain ⟨c, u, hcu, hc⟩ := text_head fmt hp.1 (by simpa using hs) (i :: at_)
          exact ⟨c, u ++ (d :: t), by rw [hcu, List.cons_append], hc⟩
      rw [hcu] at hv ⊢
      rw [parseArray, if_neg hc, if_neg hlast]
      simp only [hv, List.head?_cons, List.tail_cons, hnext, hvs, Option.bind_eq_bind, Option.bind_some,
        Option.elim_some]

private theorem parseObject_text : ∀ (ms : Members D) (at_ : List Nat) (i : Nat) (rest : List UInt8) (fuel : Nat),
    ms.Plain → ms.KeysOk → ms.size ≤ fuel →
    parseObject strtod fuel (members fmt at_ i ms ++ asc '}' :: rest) = some (some ms.blank, rest)
  | ms, at_, i, rest, 0, _, _, hf => by cases ms <;> simp [Members.size] at hf
  | .nil, at_, i, rest, fuel + 1, _, _, _ => by
    have hc : asc '}' ≠ 0 := by decide
    rw [members, List.nil_append, parseObject, deref_cons, if_neg hc, if_pos rfl, Members.blank, List.tail_cons]
  | .cons key v ms, at_, i, rest, fuel + 1, hp, hk, hf => by
    obtain ⟨d, t, hrest, hd, hnext⟩ := object_rest fmt at_ i ms rest
    have hfollow : Follow (d :: t) := follow_comma (hd.imp_right .inr)
    simp only [Members.size] at hf
    have hv := parseValue_text v (i :: at_) (d :: t) fuel hp.1 hk.2.1 hfollow (by omega)
    have hms := parseObject_text ms at_ (i + 1) rest fuel hp.2 hk.2.2 (by omega)
    have htext : members fmt at_ i (.cons key v ms) ++ asc '}' :: rest =
        asc '"' :: (key.bytes ++ asc '"' :: asc ':' :: (stringifyValue fmt (fun _ => 0) (i :: at_) v ++ (d :: t))) := by
      rw [← hrest]
      simp [members]
    rw [htext, parseObject_key hk.1 hv, deref_cons, List.tail_cons, hnext, hms, Members.blank]
    rfl

end

mutual

private theorem noStrings_blank : ∀ v : Value D, v.blank.NoStrings
  | .null | .boolean _ | .number _ | .string _ => trivial
  | .array vs => noStrings_blankArray vs
  | .object ms => noStrings_blankObject ms

private theorem noStrings_blankArray : ∀ vs : Values D, vs.blank.NoStrings
  | .nil => trivial
  | .cons v vs => by
    rw [Values.blank]
    by_cases hlast : v.isString = true ∧ vs.isNil = true
    · rw [if_pos hlast]
      trivial
    · rw [if_neg hlast]
      exact ⟨noStrings_blank v, noStrings_blankArray vs⟩

private theorem noStrings_blankObject : ∀ ms : Members D, ms.blank.NoStrings
  | .nil => trivial
  | .cons _ v ms => ⟨noStrings_blank v, noStrings_blankObject ms⟩

end

mutual

/-- A tree without strings is read as it is. -/
private theorem blank_eq : ∀ v : Value D, v.NoStrings → v.blank = v
  | .null, _ | .boolean _, _ | .number _, _ => rfl
  | .string _, h => h.elim
  | .array vs, h => by rw [Value.blank, blankArray_eq vs h]
  | .object ms, h => by rw [Value.blank, blankObject_eq ms h]

private theorem blankArray_eq : ∀ vs : Values D, vs.NoStrings → vs.blank = vs
  | .nil, _ => rfl
  | .cons v vs, h => by
    have hv : v.isString = false := by
      cases v with
      | string s => exact h.1.elim
      | _ => rfl
    rw [Values.blank, if_neg (by simp [hv]), blank_eq v h.1, blankArray_eq vs h.2]

private theorem blankObject_eq : ∀ ms : Members D, ms.NoStrings → ms.blank = ms
  | .nil, _ => rfl
  | .cons key v ms, h => by rw [Members.blank, blank_eq v h.1, blankObject_eq ms h.2]

end

mutual

/-- Without strings the text does not depend on the memory. -/
private theorem stringify_junk (junk junk' : List Nat → UInt8) : ∀ (v : Value D) (at_ : List Nat), v.NoStrings →
    stringifyValue fmt junk at_ v = stringifyValue fmt junk' at_ v
  | .null, _, _ | .boolean _, _, _ | .number _, _, _ => by simp only [stringifyValue]
  | .string _, _, h => h.elim
  | .array vs, at_, h => by rw [stringifyValue, stringifyValue, stringifyArray_junk junk junk' vs at_ 0 h]
  | .object ms, at_, h => by rw [stringifyValue, stringifyValue, stringifyObject_junk junk junk' ms at_ 0 h]

private theorem stringifyArray_junk (junk junk' : List Nat → UInt8) : ∀ (vs : Values D) (at_ : List Nat)
    (i : Nat), vs.NoStrings → stringifyArray fmt junk at_ i vs = stringifyArray fmt junk' at_ i vs
  | .nil, _, _, _ => by rw [stringifyArray, stringifyArray]
  | .cons v vs, at_, i, h => by
    rw [stringifyArray, stringifyArray, stringify_junk junk junk' v (i :: at_) h.1,
      stringifyArray_junk junk junk' vs at_ (i + 1) h.2]

private theorem stringifyObject_junk (junk junk' : List Nat → UInt8) : ∀ (ms : Members D) (at_ : List Nat)
    (i : Nat), ms.NoStrings → stringifyObject fmt junk at_ i ms = stringifyObject fmt junk' at_ i ms
  | .nil, _, _, _ => by rw [stringifyObject, stringifyObject]
  | .cons key v ms, at_, i, h => by
    rw [stringifyObject, stringifyObject, stringify_junk junk junk' v (i :: at_) h.1,
      stringifyObject_junk junk junk' ms at_ (i + 1) h.2]

end

/-- `js_parse(js_stringify(v))` comes to an end with a tree equal to `v`, where the strings find `junk` in memory. -/
def RoundTrips (strtod : List UInt8 → D × Nat) (fmt : D → List UInt8) (junk : List Nat → UInt8) (v : Value D) : Prop :=
  ∃ n, ∀ fuel ≥ n, jsParse strtod fuel (jsStringify fmt junk v) = some (some v)

private theorem jsParse_blank {v : Value D} (hp : v.Plain) (hk : v.KeysOk) {fuel : Nat} (hf : v.size ≤ fuel) :
    jsParse strtod fuel (jsStringify fmt (fun _ => 0) v) = some (some v.blank) := by
  rw [jsParse, jsStringify, parseValue_text v [] [0] fuel hp hk ⟨0, [], rfl, .inl rfl⟩ hf]
  rfl

/-- A tree of `null`, booleans, strings, arrays and objects makes the round trip, whatever the memory holds, if and
only if it has no string and all its keys are of the kind that the parser can make. -/
theorem json_round_trip_iff (strtod : List UInt8 → D × Nat) (fmt : D → List UInt8) (v : Value D) (hv : v.Plain) :
    (∀ junk, RoundTrips strtod fmt junk v) ↔ v.NoStrings ∧ v.KeysOk := by
  constructor
  · intro h
    obtain ⟨n, hn⟩ := h fun _ => 0
    have hmax := hn (max n v.size) (Nat.le_max_left _ _)
    have hk : v.KeysOk := by
      rw [jsParse, Option.map_eq_some_iff] at hmax
      obtain ⟨⟨w, rest⟩, hparse, hw⟩ := hmax
      obtain rfl : w = some v := hw
      exact (keysOk_parse _).1 _ _ _ hparse
    rw [jsParse_blank hv hk (Nat.le_max_right _ _), Option.some.injEq, Option.some.injEq] at hmax
    refine ⟨?_, hk⟩
    rw [← hmax]
    exact noStrings_blank v
  · rintro ⟨hs, hk⟩ junk
    refine ⟨v.size, fun fuel hf => ?_⟩
    rw [jsStringify, stringify_junk junk (fun _ => 0) v [] hs, ← jsStringify, jsParse_blank hv hk hf, blank_eq v hs]

end RoundTrip

/-- An array of an object and `true`. -/
def someTree : Value Unit :=
  .array (.cons (.object (.cons (.of (lit "k")) .null .nil)) (.cons (.boolean true) .nil))

theorem json_round_trip_iff_some :
    (∀ junk, RoundTrips (fun _ => ((), 1)) (fun _ => lit "0") junk someTree) ∧ someTree.KeysOk := by
  have hplain : someTree.Plain := ⟨⟨trivial, trivial⟩, trivial, trivial⟩
  have hkeys : someTree.KeysOk :=
    ⟨⟨⟨⟨asc 'k', [], by decide, by decide, by decide⟩, by decide⟩, trivial, trivial⟩, trivial, trivial⟩
  exact ⟨(json_round_trip_iff _ _ someTree hplain).2 ⟨⟨⟨trivial, trivial⟩, trivial, trivial⟩, hkeys⟩, hkeys⟩

/-- In memory that is all NUL the text of `"a"` is empty; the empty key is not read back; and in memory full of quotes
the string of the byte 1 comes back as `u0001`. -/
theorem json_round_trip_broken :
    ¬RoundTrips (fun _ => ((), 1)) (fun _ => lit "0") (fun _ => 0) (.string (.of (lit "a"))) ∧
      ¬RoundTrips (fun _ => ((), 1)) (fun _ => lit "0") (fun _ => 0) (.object (.cons (.of []) .null .nil)) ∧
      ¬RoundTrips (fun _ => ((), 1)) (fun _ => lit "0") (fun _ => asc '"') (.string (.of [1])) := by
  refine ⟨?_, ?_, ?_⟩
  · rintro ⟨n, hn⟩
    have hparse := hn (n + 1) (Nat.le_succ n)
    rw [jsParse_blank (v := .string (.of (lit "a"))) trivial trivial (Nat.le_add_left 1 n)] at hparse
    simp [Value.blank] at hparse
  · rintro ⟨n, hn⟩
    have hparse := hn n (Nat.le_refl n)
    rw [jsParse, Option.map_eq_some_iff] at hparse
    obtain ⟨⟨w, rest⟩, hparse, hw⟩ := hparse
    obtain rfl : w = _ := hw
    obtain ⟨⟨c, s, hcs, -⟩, -⟩ := ((keysOk_parse _).1 _ _ _ hparse).1
    simp [CString.of] at hcs
  · rintro ⟨n, hn⟩
    have hparse := hn (n + 1) (Nat.le_succ n)
    have htext : jsStringify (D := Unit) (fun _ => lit "0") (fun _ => asc '"') (.string (.of [1])) =
      lit "\"\\u0001\"" := by
      rw [jsStringify, stringifyValue]
      decide
    have hquote : isspace (asc '"') = false ∧ asc '"' ≠ asc '{' ∧ asc '"' ≠ asc '[' := by decide
    have hscan : scanString (lit "\\u0001\"" ++ [0]) = (lit "\\u0001", [asc '"', 0]) := by decide
    have hcons : lit "\"\\u0001\"" ++ [0] = asc '"' :: (lit "\\u0001\"" ++ [0]) := by decide
    rw [htext, jsParse, hcons, parseValue, List.dropWhile_cons_of_neg (by simp [hquote.1])] at hparse
    simp only [if_neg hquote.2.1, if_neg hquote.2.2, parseString, hscan, deref_cons, if_true, Option.map_some,
      Option.some.injEq, Value.string.injEq] at hparse
    revert hparse
    decide

end JACLibc.Json
