import JACLibc.Wordexp.Nocmd
import JACLibc.Wordexp.Quote

/-!
# Expansion in double quotes

In double quotes the parser is behind the `$` when it calls the scanners, which step past one more character.  Of a
variable name the first character is lost, and a command is looked for as if it stood in backquotes.  The word
`"...$V..."` is then that of the unquoted form where the environment does not tell `V` from its rest, and `"$(...)"`
agrees with the unquoted form only if commands are refused (`wordexp_dollar_iff`).
-/

namespace JACLibc.Wordexp

/-- A character that the parser keeps as it is. -/
def Ordinary (c : UInt8) : Prop := isBlank c = false ∧ c ∉ badChars ∧ c ∉ lit "\\'\"~`$"

instance (c : UInt8) : Decidable (Ordinary c) := inferInstanceAs (Decidable (_ ∧ _))

/-- The text stands for the string outside of quotes: each character behind a backslash, or as it is where it is
ordinary. -/
inductive Unquoted : List UInt8 → List UInt8 → Prop
  | nil : Unquoted [] []
  | escaped (c : UInt8) {str text : List UInt8} : Unquoted str text → Unquoted (c :: str) (asc '\\' :: c :: text)
  | plain {c : UInt8} {str text : List UInt8} : Ordinary c → Unquoted str text → Unquoted (c :: str) (c :: text)

/-- The text stands for itself in double quotes. -/
def Literal (text : List UInt8) : Prop := ∀ c ∈ text, c ≠ asc '"' ∧ c ≠ asc '$'

instance (text : List UInt8) : Decidable (Literal text) := inferInstanceAs (Decidable (∀ c ∈ text, _))

variable (W : World) (flags : BitVec 32)

/-- What the environment has for a name. -/
def nameValue (v : List UInt8) : Except Err (List UInt8) :=
  if v = [] then .ok [asc '$']
  else
    match W.getenv v with
    | some val => .ok val.bytes
    | none => if HasFlag flags WRDE_UNDEF then .error .WRDE_BADVAL else .ok []

/-- What stands for a name: at most 63 characters of it are looked up. -/
def expansion (v : List UInt8) : Except Err (List UInt8) := (nameValue W flags (v.take 63)).map (· ++ v.drop 63)

/-- The loop at the cursor answers an error, or a word with this text. -/
def Answers (q : UInt8) (b : Buf) (p : List UInt8) (o : Except Err (List UInt8)) : Prop :=
  ∀ s, (parseLoop W flags q b p s).1.map (·.1.text) = o

/-- The word that the parser answers. -/
def wordText (p : List UInt8) (s : St) : Except Err (List UInt8) := (parseWord W flags p s).1.map (·.1.text)

theorem Run.bind_assoc {α β γ : Type} (x : Run α) (f : α → Run β) (g : β → Run γ) : x >>= f >>= g = x >>= fun a =>
    f a >>= g := by
  funext s
  rcases h : x s with ⟨e | a, s'⟩
  · rw [Run.bind_error h, Run.bind_error (Run.bind_error h)]
  · rw [Run.bind_ok h, Run.bind_run, Run.bind_ok h]
    rfl

/-! ### Names -/

theorem nameLoop_append (room : ℕ) {v p : List UInt8} (hv : ∀ c ∈ v, isName c) (hp : ∀ c ∈ p.head?, ¬isName c) :
    nameLoop room (v ++ p) = (v.take room, v.drop room ++ p) := by
  induction room generalizing v with
  | zero => rfl
  | succ room ih =>
    rcases v with _ | ⟨c, v⟩
    · rcases p with _ | ⟨c, p⟩
      · rfl
      · rw [List.nil_append, nameLoop, if_neg (hp c rfl)]
        rfl
    · rw [List.cons_append, nameLoop, if_pos (hv c List.mem_cons_self), ih fun d hd => hv d (List.mem_cons_of_mem _ hd)]
      rfl

/-- A character of a name is ordinary. -/
theorem ordinary_of_isName {c : UInt8} (h : isName c) : Ordinary c := by
  have hall : ∀ n : Fin 256, isName (UInt8.ofFin n) → Ordinary (UInt8.ofFin n) := by decide +kernel
  exact hall c.toFin h

theorem unquoted_name {v str text : List UInt8} (hv : ∀ c ∈ v, isName c) (h : Unquoted str text) :
    Unquoted (v ++ str) (v ++ text) := by
  induction v with
  | nil => exact h
  | cons c v ih => exact .plain (ordinary_of_isName (hv c List.mem_cons_self)) (ih fun d hd =>
    hv d (List.mem_cons_of_mem _ hd))

/-- What stands behind a name does not go on with it, in neither of the two forms. -/
theorem Unquoted.head_not_name {str text rest : List UInt8} (h : Unquoted str text) (hstr : ∀ c ∈ str.head?, ¬isName c)
    (hrest : ∀ c ∈ rest.head?, isBlank c = true) : ∀ c ∈ (text ++ rest).head?, ¬isName c := by
  intro c hc
  cases h with
  | nil =>
    intro hname
    exact absurd (hrest c hc) (by rw [(ordinary_of_isName hname).1]; exact Bool.false_ne_true)
  | escaped d h =>
    rw [← Option.some.inj hc]
    decide
  | plain hd h =>
    rw [← Option.some.inj hc]
    exact hstr _ rfl

section Words

variable {W flags} {q : UInt8} {b : Buf} {c : UInt8} {p : List UInt8} {o : Except Err (List UInt8)}

/-! ### The rounds of the loop -/

theorem answers_step (q' : UInt8) (data : List UInt8) (r : After (c :: p)) (hblank : ¬(q = 0 ∧ isBlank c = true))
    (hstep : ∀ s, ∃ b' s', step W flags q b c p s = (.ok (q', b', r), s') ∧ b'.data = data)
    (h : ∀ b', b'.data = data → Answers W flags q' b' r.1 o) : Answers W flags q b (c :: p) o := by
  intro s
  obtain ⟨b', s', hs', hdata⟩ := hstep s
  have ho := h b' hdata s'
  rw [parseLoop, dif_neg hblank, Run.bind_ok hs']
  rcases hloop : parseLoop W flags q' b' r.1 s' with ⟨e | a, s''⟩
  · rw [Run.bind_error hloop]
    rw [hloop] at ho
    exact ho
  · rw [Run.bind_ok hloop]
    rw [hloop] at ho
    exact ho

theorem answers_error {e : Err} (hblank : ¬(q = 0 ∧ isBlank c = true))
    (hstep : ∀ s, ∃ s', step W flags q b c p s = (.error e, s')) : Answers W flags q b (c :: p) (.error e) := by
  intro s
  obtain ⟨s', hs'⟩ := hstep s
  rw [parseLoop, dif_neg hblank, Run.bind_error hs']
  rfl

variable (hmem : ∀ n, W.mem n = true)

include hmem

theorem answers_end (b : Buf) {p : List UInt8} (hp : ∀ c ∈ p.head?, isBlank c = true) :
    Answers W flags 0 b p (.ok b.data) := by
  intro s
  obtain ⟨e, s', he, -⟩ := bufPut_ok hmem b 0 s
  rcases p with _ | ⟨c, p⟩
  · rw [parseLoop, if_neg (not_not_intro rfl), Run.bind_ok he]
    rfl
  · rw [parseLoop, dif_pos ⟨rfl, hp c rfl⟩, Run.bind_ok he]
    rfl

/-- A literal text in double quotes. -/
theorem answers_literal {text : List UInt8} (htext : Literal text) {b : Buf}
    (h : ∀ b', b'.data = b.data ++ text → Answers W flags (asc '"') b' p o) :
    Answers W flags (asc '"') b (text ++ p) o := by
  induction text generalizing b with
  | nil => exact h b (List.append_nil _).symm
  | cons c text ih =>
    obtain ⟨hquote, hdollar⟩ := htext c List.mem_cons_self
    refine answers_step (asc '"') (b.data ++ [c]) ⟨text ++ p, Nat.lt_succ_self _⟩ (fun h => absurd h.1 (by decide))
      (fun s => ?_)
      fun b' hdata => ih (fun d hd => htext d (List.mem_cons_of_mem _ hd)) fun b'' hdata' => h b'' ?_
    · obtain ⟨b', s', hb', hdata⟩ := bufPut_ok hmem b c s
      refine ⟨b', s', ?_, hdata⟩
      unfold step
      rw [if_pos (by decide), if_neg hquote, if_neg fun h => hdollar h.2]
      exact (Run.bind_ok hb').trans rfl
    · rw [hdata', hdata, List.append_assoc]
      rfl

/-- The step at an ordinary character. -/
theorem step_ordinary (hc : Ordinary c) (b : Buf) (p : List UInt8) (s : St) :
    ∃ b' s', step W flags 0 b c p s = (.ok (0, b', ⟨p, Nat.lt_succ_self _⟩), s') ∧ b'.data = b.data ++ [c] := by
  obtain ⟨-, hbad, hspecial⟩ := hc
  have hne : ∀ d ∈ lit "\\'\"~`$", c ≠ d := fun d hd hcd => hspecial (hcd ▸ hd)
  obtain ⟨b', s', hb', hdata⟩ := bufPut_ok hmem b c s
  refine ⟨b', s', ?_, hdata⟩
  unfold step
  rw [if_neg (not_not_intro rfl), if_neg (hne _ (by decide)),
    if_neg (not_or.2 ⟨hne _ (by decide), hne _ (by decide)⟩), if_neg hbad, if_neg fun h =>
    hne _ (by decide) h.1, if_neg (not_or.2 ⟨hne _ (by decide), fun h => hne _ (by decide) h.1⟩),
      if_neg (hne _ (by decide))]
  exact (Run.bind_ok hb').trans rfl

/-- A text outside of quotes. -/
theorem answers_unquoted {str text : List UInt8} (htext : Unquoted str text) {b : Buf}
    (h : ∀ b', b'.data = b.data ++ str → Answers W flags 0 b' p o) : Answers W flags 0 b (text ++ p) o := by
  induction htext generalizing b with
  | nil => exact h b (List.append_nil _).symm
  | @escaped c str text htext ih =>
    refine answers_step 0 (b.data ++ [c]) ⟨text ++ p, Nat.lt_succ_of_lt (Nat.lt_succ_self _)⟩ (by decide) (fun s => ?_)
      fun b' hdata => ih fun b'' hdata' => h b'' ?_
    · obtain ⟨b', s', hb', hdata⟩ := bufPut_ok hmem b c s
      refine ⟨b', s', ?_, hdata⟩
      unfold step
      rw [if_neg (not_not_intro rfl), if_pos rfl]
      exact (Run.bind_ok hb').trans rfl
    · rw [hdata', hdata, List.append_assoc]
      rfl
  | @plain c str text hc htext ih =>
    refine answers_step 0 (b.data ++ [c]) ⟨text ++ p, Nat.lt_succ_self _⟩ (fun h =>
      absurd (h.2.symm.trans hc.1) (by decide))
      (fun s => step_ordinary hmem hc b _ s) fun b' hdata => ih fun b'' hdata' => h b'' ?_
    rw [hdata', hdata, List.append_assoc]
    rfl

/-! ### Variables -/

theorem bufStr_ok (b : Buf) (str : List UInt8) (s : St) : ∃ b' s', bufStr W b str s = (.ok b', s') ∧
    b'.data = b.data ++ str := by
  induction str generalizing b s with
  | nil => exact ⟨b, s, rfl, (List.append_nil _).symm⟩
  | cons c str ih =>
    obtain ⟨b', s', hb', hdata⟩ := bufPut_ok hmem b c s
    obtain ⟨b'', s'', hb'', hdata'⟩ := ih b' s'
    refine ⟨b'', s'', (Run.bind_ok hb').trans hb'', ?_⟩
    rw [hdata', hdata, List.append_assoc]
    rfl

/-- `varValue` adds what the environment has for the name, or answers its error. -/
theorem varValue_run (b : Buf) (v : List UInt8) (s : St) :
    (∃ e, nameValue W flags v = .error e ∧ ∃ s', varValue W flags b v s = (.error e, s')) ∨
      ∃ t, nameValue W flags v = .ok t ∧ ∃ b' s', varValue W flags b v s = (.ok b', s') ∧ b'.data = b.data ++ t := by
  unfold varValue nameValue
  by_cases hv : v = []
  · rw [if_pos hv, if_pos hv]
    exact .inr ⟨_, rfl, bufPut_ok hmem b _ s⟩
  · rw [if_neg hv, if_neg hv]
    rcases W.getenv v with _ | val
    · by_cases hundef : HasFlag flags WRDE_UNDEF
      · dsimp only
        rw [if_pos hundef, if_pos hundef]
        exact .inl ⟨_, rfl, s, rfl⟩
      · dsimp only
        rw [if_neg hundef, if_neg hundef]
        exact .inr ⟨[], rfl, b, s, rfl, (List.append_nil _).symm⟩
    · exact .inr ⟨_, rfl, bufStr_ok hmem b _ s⟩

omit hmem in
/-- `__we_scan_var` at a cursor whose first character it steps past. -/
theorem scanVar_name {v p' : List UInt8} (hv : ∀ c ∈ v, isName c) (hp' : ∀ c ∈ p'.head?, ¬isName c) (b : Buf)
    (d : UInt8) :
    ∃ h, scanVar W flags b (d :: (v ++ p')) = (do
      let b ← varValue W flags b (v.take 63)
      pure (b, ⟨v.drop 63 ++ p', h⟩)) := by
  have hname := nameLoop_append 63 hv hp'
  have hlt : (nameLoop 63 (v ++ p')).2.length < (d :: (v ++ p')).length :=
    Nat.lt_succ_of_le (nameLoop_length 63 (v ++ p'))
  have hscan : scanVar W flags b (d :: (v ++ p')) = (do
      let b ← varValue W flags b (nameLoop 63 (v ++ p')).1
      pure (b, ⟨(nameLoop 63 (v ++ p')).2, hlt⟩)) := rfl
  rw [hscan]
  generalize nameLoop 63 (v ++ p') = r at hname hlt
  subst hname
  exact ⟨hlt, rfl⟩

/-- The step that scans a variable. -/
theorem answers_var {v p' : List UInt8} (hblank : ¬(q = 0 ∧ isBlank c = true))
    (hlt : (v.drop 63 ++ p').length < (c :: p).length) (hstep : step W flags q b c p = (do
      let b ← varValue W flags b (v.take 63)
      pure (q, b, ⟨v.drop 63 ++ p', hlt⟩)))
    {f : List UInt8 → List UInt8}
    (h : ∀ t b', b'.data = b.data ++ t → Answers W flags q b' (v.drop 63 ++ p') (.ok (f (t ++ v.drop 63)))) :
    Answers W flags q b (c :: p) ((expansion W flags v).map f) := by
  rcases ht : nameValue W flags (v.take 63) with e | t
  · have ho : (expansion W flags v).map f = .error e := by
      rw [expansion, ht]
      rfl
    rw [ho]
    refine answers_error hblank fun s => ?_
    rcases @varValue_run W flags hmem b (v.take 63) s with ⟨e', he', s', hs'⟩ | ⟨t, ht', -⟩
    · obtain rfl := Except.error.inj (ht.symm.trans he')
      rw [hstep]
      exact ⟨s', Run.bind_error hs'⟩
    · cases ht.symm.trans ht'
  · have ho : (expansion W flags v).map f = .ok (f (t ++ v.drop 63)) := by
      rw [expansion, ht]
      rfl
    rw [ho]
    refine answers_step q (b.data ++ t) ⟨v.drop 63 ++ p', hlt⟩ hblank (fun s => ?_) (h t)
    rcases @varValue_run W flags hmem b (v.take 63) s with ⟨e, he, -⟩ | ⟨t', ht', b', s', hs', hdata⟩
    · cases ht.symm.trans he
    · obtain rfl := Except.ok.inj (ht.symm.trans ht')
      rw [hstep]
      exact ⟨b', s', Run.bind_ok hs', hdata⟩

/-- The word with a name in double quotes: the first character of the name is lost. -/
theorem answers_quoted_var {V pre post rest : List UInt8} (hV : V ≠ []) (hname : ∀ c ∈ V, isName c) (hpre : Literal pre)
    (hpost : Literal post) (hend : ∀ c ∈ post.head?, ¬isName c) (hrest : ∀ c ∈ rest.head?, isBlank c = true) {b : Buf}
    (hb : b.data = []) :
    Answers W flags 0 b (asc '"' :: (pre ++ asc '$' :: (V ++ (post ++ asc '"' :: rest))))
      ((expansion W flags V.tail).map fun t => pre ++ (t ++ post)) := by
  refine answers_step (asc '"') [] ⟨_, Nat.lt_succ_self _⟩ (by decide) (fun s => ⟨b, s, ?_, hb⟩) fun b₁ hb₁ => ?_
  · unfold step
    rw [if_neg (not_not_intro rfl), if_neg (by decide), if_pos (.inr rfl)]
    rfl
  refine answers_literal hmem hpre fun b₂ hb₂ => ?_
  obtain ⟨d, v, rfl⟩ := List.exists_cons_of_ne_nil hV
  have hd : d ≠ asc '(' := fun h => absurd (hname d List.mem_cons_self) (by rw [h]; decide)
  have hv : ∀ c ∈ v, isName c := fun c hc => hname c (List.mem_cons_of_mem _ hc)
  have hend' : ∀ c ∈ (post ++ asc '"' :: rest).head?, ¬isName c := by
    rcases post with _ | ⟨e, post⟩
    · intro c hc
      rw [← Option.some.inj hc]
      decide
    · exact hend
  obtain ⟨hlt, hscan⟩ := @scanVar_name W flags _ _ hv hend' b₂ d
  refine answers_var hmem (fun h => absurd h.1 (by decide)) (Nat.lt_succ_of_lt hlt) ?_ fun t b₃ hb₃ => ?_
  · funext s
    unfold step
    rw [if_pos (by decide), if_neg (by decide), if_pos ⟨rfl, rfl⟩]
    dsimp only
    rw [if_neg hd, hscan, Run.bind_assoc]
    rfl
  · have hrest' : Literal (v.drop 63) := fun c hc => by
      have hc' := ordinary_of_isName (hv c (List.mem_of_mem_drop hc))
      exact ⟨fun h => hc'.2.2 (by rw [h]; decide), fun h => hc'.2.2 (by rw [h]; decide)⟩
    refine answers_literal hmem hrest' fun b₄ hb₄ => answers_literal hmem hpost fun b₅ hb₅ => ?_
    refine answers_step 0 b₅.data ⟨_, Nat.lt_succ_self _⟩ (fun h => absurd h.1 (by decide)) (fun s =>
      ⟨b₅, s, ?_, rfl⟩) fun b₆ hb₆ => ?_
    · unfold step
      rw [if_pos (by decide), if_pos rfl]
      rfl
    · have htext : b₆.data = pre ++ ((t ++ v.drop 63) ++ post) := by
        rw [hb₆, hb₅, hb₄, hb₃, hb₂, hb₁]
        simp
      rw [← htext]
      exact answers_end hmem b₆ hrest

/-- The word with a name outside of quotes. -/
theorem answers_unquoted_var {V pre post pre' post' rest : List UInt8} (hV : V ≠ []) (hname : ∀ c ∈ V, isName c)
    (hpre : Unquoted pre pre') (hpost : Unquoted post post') (hend : ∀ c ∈ post.head?, ¬isName c)
    (hrest : ∀ c ∈ rest.head?, isBlank c = true) {b : Buf} (hb : b.data = []) :
    Answers W flags 0 b (pre' ++ asc '$' :: (V ++ (post' ++ rest))) ((expansion W flags V).map fun t => pre ++
    (t ++ post)) := by
  refine answers_unquoted hmem hpre fun b₁ hb₁ => ?_
  obtain ⟨d, v, rfl⟩ := List.exists_cons_of_ne_nil hV
  have hd : d ≠ asc '(' := fun h => absurd (hname d List.mem_cons_self) (by rw [h]; decide)
  obtain ⟨hlt, hscan⟩ := @scanVar_name W flags _ _ hname (hpost.head_not_name hend hrest) b₁ (asc '$')
  refine answers_var hmem (by decide) hlt ?_ fun t b₂ hb₂ => ?_
  · unfold step
    rw [if_neg (not_not_intro rfl), if_neg (by decide), if_neg (by decide), if_neg (by decide),
      if_neg fun h => absurd h.1 (by decide), if_neg (not_or.2 ⟨by decide, fun h => hd (Option.some.inj h.2)⟩),
      if_pos rfl, hscan, Run.bind_assoc]
    rfl
  · rw [← List.append_assoc]
    refine answers_unquoted hmem (unquoted_name (fun c hc => hname c (List.mem_of_mem_drop hc)) hpost) fun b₃ hb₃ => ?_
    have htext : b₃.data = pre ++ ((t ++ (d :: v).drop 63) ++ post) := by
      rw [hb₃, hb₂, hb₁, hb]
      simp
    rw [← htext]
    exact answers_end hmem b₃ hrest

theorem wordText_eq {p : List UInt8} (h : ∀ b : Buf, b.data = [] → Answers W flags 0 b p o) (s : St) :
    wordText W flags p s = o := by
  have hinit : bufInit W s = (.ok ⟨s.allocs, [], 64, Nat.zero_le _⟩, { s with allocs := s.allocs + 1 }) :=
    (Run.bind_ok (request_ok hmem s)).trans rfl
  rw [wordText, parseWord, Run.bind_ok hinit]
  exact h ⟨s.allocs, [], 64, Nat.zero_le _⟩ rfl _

end Words

/-! ### Commands -/

theorem cmdLoop_split {paren : Bool} {depth : ℕ} {q : UInt8} {p cmd r : List UInt8}
    (h : cmdLoop paren depth q p = some (cmd, r)) :
    p = cmd ++ r := by
  induction p generalizing depth q cmd with
  | nil => cases h
  | cons c p ih =>
    rw [cmdLoop] at h
    split at h
    · cases h
      rfl
    · obtain ⟨r', hr', heq⟩ := Option.map_eq_some_iff.1 h
      cases heq
      exact congrArg (c :: ·) (ih hr')

/-- A command in backquotes ends at a backquote. -/
theorem cmdLoop_backquote {depth : ℕ} {q : UInt8} {p cmd r : List UInt8} (hdepth : depth ≠ 0)
    (h : cmdLoop false depth q p = some (cmd, r)) : r.head? = some (asc '`') := by
  induction p generalizing depth q cmd with
  | nil => cases h
  | cons c p ih =>
    rw [cmdLoop] at h
    split at h
    · rename_i hzero
      cases h
      by_cases hc : c = asc '`'
      · rw [hc]
        rfl
      · refine absurd hzero ?_
        rw [depthAfter, if_neg Bool.false_ne_true, if_neg hc, ite_self]
        exact hdepth
    · rename_i hnot
      obtain ⟨r', hr', heq⟩ := Option.map_eq_some_iff.1 h
      cases heq
      exact ih hnot hr'

theorem findCmd_none {c : UInt8} {p : List UInt8}
    (h : cmdLoop (atParen (c :: p)) 1 0 (if atParen (c :: p) then p.tail else p) = none) :
    findCmd c p = none := by
  unfold findCmd
  split
  · rfl
  · rename_i heq
    cases h.symm.trans heq

theorem findCmd_some {c : UInt8} {p cmd r : List UInt8}
    (h : cmdLoop (atParen (c :: p)) 1 0 (if atParen (c :: p) then p.tail else p) = some (cmd, r)) :
    ∃ r' : After (c :: p), r'.1 = r.tail ∧ findCmd c p = some (cmd, r') := by
  unfold findCmd
  split
  · rename_i heq
    cases h.symm.trans heq
  · rename_i cmd' r' heq
    obtain ⟨rfl, rfl⟩ := Prod.mk.inj (Option.some.inj (h.symm.trans heq))
    exact ⟨_, rfl, rfl⟩

theorem readOutput_ok {W : World} (hmem : ∀ n, W.mem n = true) (b : Buf) (pieces : List (List UInt8)) (s : St) :
    ∃ b' s', readOutput W b pieces s = (.ok b', s') := by
  induction pieces generalizing b s with
  | nil => exact ⟨b, s, rfl⟩
  | cons piece pieces ih =>
    obtain ⟨b', s', hb', -⟩ := bufStr_ok hmem b (pieceText piece) s
    obtain ⟨b'', s'', hb''⟩ := ih b' s'
    exact ⟨b'', s'', (Run.bind_ok hb').trans hb''⟩

/-- A command that is found runs, unless it is empty. -/
theorem runCmd_ok {W : World} (hmem : ∀ n, W.mem n = true) (b : Buf) {c : UInt8} {p : List UInt8} (cmd : List UInt8)
    (r : After (c :: p)) (s : St) : ∃ b' s', runCmd W b (some (cmd, r)) s = (.ok (b', r), s') ∧
    s'.ran = if cmd = [] then s.ran else s.ran ++ [cmd] := by
  rw [runCmd, Run.bind_ok (request_ok hmem s)]
  unfold execCmd
  by_cases hcmd : cmd = []
  · rw [if_pos hcmd, if_pos hcmd]
    exact ⟨b, _, rfl, rfl⟩
  · rw [if_neg hcmd, if_neg hcmd]
    rcases hout : W.popen s.ran cmd with _ | out
    · refine ⟨b, ⟨s.allocs + 1, s.scans, s.ran ++ [cmd]⟩, ?_, rfl⟩
      refine Run.bind_ok ((Run.bind_ok (a := none) ?_).trans rfl)
      exact Prod.ext (congrArg Except.ok hout) rfl
    · obtain ⟨b', s', hb'⟩ := readOutput_ok hmem b (fgetsPieces 4095 [] out) ⟨s.allocs + 1, s.scans, s.ran ++ [cmd]⟩
      have hran := (quiet_readOutput W b (fgetsPieces 4095 [] out) ⟨s.allocs + 1, s.scans, s.ran ++ [cmd]⟩).2
      rw [hb'] at hran
      refine ⟨b', s', ?_, hran⟩
      refine Run.bind_ok ((Run.bind_ok (a := some out) ?_).trans hb')
      exact Prod.ext (congrArg Except.ok hout) rfl

/-- The round at the `$` of `$(`: the buffer and the cursor behind it, or its error, and the commands that have run. -/
def dollarRound (W : World) (flags : BitVec 32) (q : UInt8) (b : Buf) (p : List UInt8) (s : St) :
    Except Err (List UInt8 × List UInt8) × List (List UInt8) :=
  let r := step W flags q b (asc '$') (asc '(' :: p) s
  (r.1.map fun a => (a.2.1.data, a.2.2.1), r.2.ran)

section Commands

variable {W : World} {flags : BitVec 32} {b : Buf} {p : List UInt8} {s : St}

/-- With `WRDE_NOCMD` no command is looked for. -/
theorem dollarRound_nocmd (h : HasFlag flags WRDE_NOCMD) {q : UInt8} (hq : q = 0 ∨ q = asc '"') :
    dollarRound W flags q b p s = (.error .WRDE_CMDSUB, s.ran) := by
  unfold dollarRound step
  rcases hq with rfl | rfl
  · rw [if_neg (not_not_intro rfl), if_neg (by decide), if_neg (by decide), if_neg (by decide),
      if_neg fun h => absurd h.1 (by decide), if_pos (.inr ⟨rfl, rfl⟩), scanCmd, if_pos h]
    rfl
  · rw [if_pos (by decide), if_neg (by decide), if_pos ⟨rfl, rfl⟩]
    dsimp only
    rw [if_pos rfl, scanCmd, if_pos h]
    rfl

variable (hmem : ∀ n, W.mem n = true) (hflag : ¬HasFlag flags WRDE_NOCMD)

include hmem hflag

/-- Outside of quotes the command up to the closing parenthesis runs. -/
theorem dollarRound_unquoted {cmd r : List UInt8} (h : cmdLoop true 1 0 p = some (cmd, r)) :
    ∃ data, dollarRound W flags 0 b p s = (.ok (data, r.tail), if cmd = [] then s.ran else s.ran ++ [cmd]) := by
  obtain ⟨r', hr', hfind⟩ := findCmd_some (c := asc '$') (p := asc '(' :: p) h
  obtain ⟨b', s', hrun, hran⟩ := runCmd_ok hmem b cmd r' { s with scans := s.scans + 1 }
  have hscan : scanCmd W flags b (asc '$') (asc '(' :: p) s = (.ok (b', r'), s') := by
    rw [scanCmd, if_neg hflag, hfind]
    exact hrun
  refine ⟨b'.data, ?_⟩
  unfold dollarRound step
  rw [if_neg (not_not_intro rfl), if_neg (by decide), if_neg (by decide), if_neg (by decide),
    if_neg fun h => absurd h.1 (by decide), if_pos (.inr ⟨rfl, rfl⟩), Run.bind_ok hscan]
  exact Prod.ext (congrArg Except.ok (Prod.ext rfl hr')) hran

/-- In double quotes it is looked for up to a backquote. -/
theorem dollarRound_quoted :
    (cmdLoop false 1 0 p = none ∧ dollarRound W flags (asc '"') b p s = (.error .WRDE_SYNTAX, s.ran)) ∨
      ∃ cmd r data, cmdLoop false 1 0 p = some (cmd, r) ∧
      dollarRound W flags (asc '"') b p s = (.ok (data, r.tail), if cmd = [] then s.ran else s.ran ++ [cmd]) := by
  have hround : dollarRound W flags (asc '"') b p s =
      ((scanCmd W flags b (asc '(') p s).1.map fun a => (a.1.data, a.2.1),
      (scanCmd W flags b (asc '(') p s).2.ran) := by
    unfold dollarRound step
    rw [if_pos (by decide), if_neg (by decide), if_pos ⟨rfl, rfl⟩]
    dsimp only
    rw [if_pos rfl]
    rcases hscan : scanCmd W flags b (asc '(') p s with ⟨e | a, s'⟩
    · rw [Run.bind_error hscan]
      rfl
    · rw [Run.bind_ok hscan]
      rfl
  rw [hround]
  rcases hloop : cmdLoop false 1 0 p with _ | ⟨cmd, r⟩
  · refine .inl ⟨rfl, ?_⟩
    rw [scanCmd, if_neg hflag, findCmd_none (c := asc '(') (p := p) hloop]
    rfl
  · obtain ⟨r', hr', hfind⟩ := findCmd_some (c := asc '(') (p := p) hloop
    obtain ⟨b', s', hrun, hran⟩ := runCmd_ok hmem b cmd r' { s with scans := s.scans + 1 }
    have hscan : scanCmd W flags b (asc '(') p s = (.ok (b', r'), s') := by
      rw [scanCmd, if_neg hflag, hfind]
      exact hrun
    refine .inr ⟨cmd, r, b'.data, rfl, ?_⟩
    rw [hscan]
    exact Prod.ext (congrArg Except.ok (Prod.ext rfl hr')) hran

/-- The two forms do not agree on the command. -/
theorem dollarRound_ne {cmd rest : List UInt8}
    (h : cmdLoop true 1 0 (cmd ++ asc ')' :: rest) = some (cmd, asc ')' :: rest)) :
    dollarRound W flags (asc '"') b (cmd ++ asc ')' :: rest) s ≠
      dollarRound W flags 0 b (cmd ++ asc ')' :: rest) s := by
  obtain ⟨data, hunquoted⟩ := dollarRound_unquoted (b := b) (s := s) hmem hflag h
  rw [hunquoted]
  rcases dollarRound_quoted (b := b) (p := cmd ++ asc ')' :: rest) (s := s) hmem hflag with ⟨-, hquoted⟩ | ⟨cmd', r,
    data', hloop, hquoted⟩
  · rw [hquoted]
    intro heq
    cases congrArg Prod.fst heq
  · rw [hquoted]
    intro heq
    have hran : (if cmd' = [] then s.ran else s.ran ++ [cmd']) = if cmd = [] then s.ran else s.ran ++ [cmd] :=
      congrArg Prod.snd heq
    have hsame : cmd' = cmd := by
      split_ifs at hran with h' h
      · exact h'.trans h.symm
      · simp at hran
      · simp at hran
      · simpa using hran
    -- the same command would have to end both at the parenthesis and at a backquote
    have hr : asc ')' :: rest = r := by
      have hsplit := cmdLoop_split hloop
      rw [hsame] at hsplit
      exact List.append_cancel_left hsplit
    have hback := cmdLoop_backquote Nat.one_ne_zero hloop
    rw [← hr] at hback
    exact absurd (Option.some.inj hback) (by decide)

end Commands

/-- The word with `$V` in double quotes is that of the unquoted form if and only if the environment has the same for
`V` and for `V` without its first character, where a name of one character counts as `$` then; and the two forms of
`$(cmd)` do the same if and only if commands are refused. -/
theorem wordexp_dollar_iff {W : World} (hmem : ∀ n, W.mem n = true) (flags : BitVec 32)
    {V pre post pre' post' rest : List UInt8} (hV : V ≠ []) (hname : ∀ c ∈ V, isName c) (hpre : Literal pre)
    (hpost : Literal post) (hpre' : Unquoted pre pre') (hpost' : Unquoted post post')
    (hend : ∀ c ∈ post.head?, ¬isName c) (hrest : ∀ c ∈ rest.head?, isBlank c = true) (s : St) :
    (wordText W flags (asc '"' :: (pre ++ asc '$' :: (V ++ (post ++ asc '"' :: rest)))) s =
        wordText W flags (pre' ++ asc '$' :: (V ++ (post' ++ rest))) s ↔
        expansion W flags V.tail = expansion W flags V) ∧
      ∀ (b : Buf) (cmd rest : List UInt8), cmdLoop true 1 0 (cmd ++ asc ')' :: rest) = some (cmd, asc ')' :: rest) →
        (dollarRound W flags (asc '"') b (cmd ++ asc ')' :: rest) s =
            dollarRound W flags 0 b (cmd ++ asc ')' :: rest) s ↔
          HasFlag flags WRDE_NOCMD) := by
  refine ⟨?_, fun b cmd rest hcmd => ⟨fun heq => ?_, fun hflag => ?_⟩⟩
  · rw [wordText_eq hmem fun b hb => answers_quoted_var hmem hV hname hpre hpost hend hrest hb,
      wordText_eq hmem fun b hb => answers_unquoted_var hmem hV hname hpre' hpost' hend hrest hb]
    refine ⟨fun heq => ?_, fun heq => by rw [heq]⟩
    generalize expansion W flags V.tail = o, expansion W flags V = o' at heq ⊢
    rcases o with e | t <;> rcases o' with e' | t'
    · exact congrArg Except.error (Except.error.inj heq)
    · cases heq
    · cases heq
    · exact congrArg Except.ok (List.append_cancel_right (List.append_cancel_left (Except.ok.inj heq)))
  · by_contra hflag
    exact dollarRound_ne hmem hflag hcmd heq
  · rw [dollarRound_nocmd hflag (.inr rfl), dollarRound_nocmd hflag (.inl rfl)]

/-- An environment with one variable. -/
def homeWorld : World :=
  ⟨fun name => if name = lit "HOME" then some ⟨lit "/r", by decide⟩ else none, fun _ _ => none, fun _ => true,
    fun _ => true⟩

/-- The two forms of a text with this variable and with one that is empty either way, and those of a command that is
refused. -/
theorem wordexp_dollar_iff_home :
    wordText homeWorld 0 (lit "\"a $HOME;\"") ⟨0, 0, []⟩ ≠ wordText homeWorld 0 (lit "a\\ $HOME\\;") ⟨0, 0, []⟩ ∧
    wordText homeWorld 0 (lit "\"a $XY;\"") ⟨0, 0, []⟩ = wordText homeWorld 0 (lit "a\\ $XY\\;") ⟨0, 0, []⟩ ∧
    dollarRound homeWorld WRDE_NOCMD (asc '"') ⟨0, [], 0, Nat.le_refl 0⟩ (lit "ls)") ⟨0, 0, []⟩ =
      dollarRound homeWorld WRDE_NOCMD 0 ⟨0, [], 0, Nat.le_refl 0⟩ (lit "ls)") ⟨0, 0, []⟩ := by
  have hiff : ∀ (flags : BitVec 32) (V : List UInt8), V ≠ [] → (∀ c ∈ V, isName c) → _ := fun flags V hV hname =>
    @wordexp_dollar_iff homeWorld (fun _ => rfl) flags V (lit "a ") (lit ";") (lit "a\\ ") (lit "\\;") [] hV hname
      (by decide +kernel) (by decide +kernel) (.plain (by decide) (.escaped _ .nil)) (.escaped _ .nil)
        (by decide +kernel)
      (by decide +kernel) ⟨0, 0, []⟩
  refine ⟨fun heq => ?_, ?_, ?_⟩
  · exact absurd ((hiff 0 (lit "HOME") (by decide) (by decide +kernel)).1.1 heq) (by decide +kernel)
  · exact (hiff 0 (lit "XY") (by decide) (by decide +kernel)).1.2 (by decide +kernel)
  · exact ((hiff WRDE_NOCMD (lit "XY") (by decide) (by decide +kernel)).2 _ (lit "ls") [] (by decide +kernel)).2
      (by decide)

/-- The variable is not found in double quotes. -/
theorem wordexp_dollar_lost : wordText homeWorld 0 (lit "\"$HOME\"") ⟨0, 0, []⟩ = .ok [] ∧
    wordText homeWorld 0 (lit "$HOME") ⟨0, 0, []⟩ = .ok (lit "/r") := by decide +kernel

end JACLibc.Wordexp
