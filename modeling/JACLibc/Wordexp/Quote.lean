import JACLibc.Wordexp.Vector
import Mathlib.Data.List.Forall2

/-!
# Quoted words

A string whose characters stand behind backslashes, or in single quotes, is read back as it is: the parser looks at
none of its characters. The words that are joined with spaces are then those of the word vector (`wordexp_quoted`).
-/

namespace JACLibc.Wordexp

/-- The text stands for the string: each character behind a backslash, or all of it in single quotes. -/
def Quoted (str text : List UInt8) : Prop :=
  text = str.flatMap (fun c => [asc '\\', c]) ∨ (asc '\'' ∉ str ∧ text = asc '\'' :: (str ++ [asc '\'']))

/-- The texts with spaces between them. -/
def joined (texts : List (List UInt8)) : List UInt8 := [asc ' '].intercalate texts

/-- All requests for memory are granted. -/
structure Granted (W : World) : Prop where
  mem : ∀ n, W.mem n = true
  vecMem : ∀ n, W.vecMem n = true

section Word

variable {W : World} (hmem : ∀ n, W.mem n = true)

include hmem

theorem request_ok (s : St) : request W s = (.ok s.allocs, { s with allocs := s.allocs + 1 }) := by
  rw [request, if_pos (hmem _)]

theorem bufPut_ok (b : Buf) (c : UInt8) (s : St) : ∃ b' s', bufPut W b c s = (.ok b', s') ∧
    b'.data = b.data ++ [c] := by
  unfold bufPut
  split
  · rw [Run.bind_ok (request_ok hmem s)]
    exact ⟨_, _, rfl, rfl⟩
  · exact ⟨_, _, rfl, rfl⟩

/-- The loop at the cursor answers the word `text` and leaves the cursor at `rest`. -/
def Reads (W : World) (q : UInt8) (b : Buf) (p text rest : List UInt8) : Prop :=
  ∀ s, ∃ a s', parseLoop W 0 q b p s = (.ok a, s') ∧ a.1.text = text ∧ a.2.1 = rest

/-- The word ends at the end of the string, or at a blank. -/
theorem reads_end (b : Buf) {p : List UInt8} (hp : ∀ c ∈ p.head?, isBlank c = true) : Reads W 0 b p b.data p := by
  intro s
  obtain ⟨e, s', he, -⟩ := bufPut_ok hmem b 0 s
  rcases p with _ | ⟨c, p⟩
  · rw [parseLoop, if_neg (not_not_intro rfl), Run.bind_ok he]
    exact ⟨_, _, rfl, rfl, rfl⟩
  · rw [parseLoop, dif_pos ⟨rfl, hp c rfl⟩, Run.bind_ok he]
    exact ⟨_, _, rfl, rfl, rfl⟩

omit hmem in
/-- A round of the loop, and the rounds behind it. -/
theorem reads_step (q' : UInt8) (data : List UInt8) {q : UInt8} {b : Buf} {c : UInt8} {p text rest : List UInt8}
    (r : After (c :: p)) (hblank : ¬(q = 0 ∧ isBlank c = true))
    (hstep : ∀ s, ∃ b' s', step W 0 q b c p s = (.ok (q', b', r), s') ∧ b'.data = data)
    (h : ∀ b', b'.data = data → Reads W q' b' r.1 text rest) : Reads W q b (c :: p) text rest := by
  intro s
  obtain ⟨b', s', hs', hdata⟩ := hstep s
  obtain ⟨a, s'', ha, htext, hrest⟩ := h b' hdata s'
  rw [parseLoop, dif_neg hblank, Run.bind_ok hs', Run.bind_ok ha]
  exact ⟨_, _, rfl, htext, hrest⟩

/-! ### Backslashes -/

theorem reads_backslash {b : Buf} {d : UInt8} {p text rest : List UInt8}
    (h : ∀ b', b'.data = b.data ++ [d] → Reads W 0 b' p text rest) : Reads W 0 b (asc '\\' :: d :: p) text rest := by
  refine reads_step 0 (b.data ++ [d]) ⟨p, Nat.lt_succ_of_lt (Nat.lt_succ_self _)⟩ (by decide) (fun s => ?_) h
  obtain ⟨b', s', hb', hdata⟩ := bufPut_ok hmem b d s
  refine ⟨b', s', ?_, hdata⟩
  unfold step
  rw [if_neg (not_not_intro rfl), if_pos rfl]
  exact (Run.bind_ok hb').trans rfl

theorem reads_backslashes (str : List UInt8) {b : Buf} {rest : List UInt8}
    (hrest : ∀ c ∈ rest.head?, isBlank c = true) :
    Reads W 0 b (str.flatMap (fun c => [asc '\\', c]) ++ rest) (b.data ++ str) rest := by
  induction str generalizing b with
  | nil =>
    rw [List.append_nil]
    exact reads_end hmem b hrest
  | cons c str ih =>
    refine reads_backslash hmem fun b' hdata => ?_
    have hb' := @ih b'
    rw [hdata, List.append_assoc] at hb'
    exact hb'

/-! ### Single quotes -/

theorem reads_quoted (str : List UInt8) (hstr : asc '\'' ∉ str) {b : Buf} {rest : List UInt8}
    (hrest : ∀ c ∈ rest.head?, isBlank c = true) :
    Reads W (asc '\'') b (str ++ asc '\'' :: rest) (b.data ++ str) rest := by
  induction str generalizing b with
  | nil =>
    rw [List.append_nil]
    refine reads_step 0 b.data ⟨rest, Nat.lt_succ_self _⟩ (by decide) (fun s => ⟨b, s, ?_, rfl⟩) fun b' hdata => ?_
    swap
    · exact hdata ▸ reads_end hmem b' hrest
    unfold step
    rw [if_pos (by decide), if_pos rfl]
    rfl
  | cons c str ih =>
    rw [List.mem_cons, not_or] at hstr
    refine reads_step (asc '\'') (b.data ++ [c]) ⟨str ++ asc '\'' :: rest, Nat.lt_succ_self _⟩ (fun h =>
      absurd h.1 (by decide))
      (fun s => ?_) fun b' hdata => ?_
    · obtain ⟨b', s', hb', hdata⟩ := bufPut_ok hmem b c s
      refine ⟨b', s', ?_, hdata⟩
      unfold step
      rw [if_pos (by decide), if_neg (Ne.symm hstr.1), if_neg fun h => absurd h.1 (by decide)]
      exact (Run.bind_ok hb').trans rfl
    · have hb' := @ih hstr.2 b'
      rw [hdata, List.append_assoc] at hb'
      exact hb'

/-- A quoted text is read as its string. -/
theorem reads_text {str text : List UInt8} (h : Quoted str text) {b : Buf} (hb : b.data = []) {rest : List UInt8}
    (hrest : ∀ c ∈ rest.head?, isBlank c = true) : Reads W 0 b (text ++ rest) str rest := by
  rcases h with rfl | ⟨hstr, rfl⟩
  · have hreads := reads_backslashes hmem str (b := b) hrest
    rw [hb] at hreads
    exact hreads
  · rw [List.cons_append, List.append_assoc]
    refine reads_step (asc '\'') [] ⟨str ++ ([asc '\''] ++ rest), Nat.lt_succ_self _⟩ (by decide) (fun s =>
      ⟨b, s, ?_, hb⟩)
      fun b' hdata => ?_
    · unfold step
      rw [if_neg (not_not_intro rfl), if_neg (by decide), if_pos (.inl rfl)]
      rfl
    · have hreads := reads_quoted hmem str hstr (b := b') hrest
      rw [hdata] at hreads
      exact hreads

/-- The word parser on a quoted text. -/
theorem parseWord_text {str text : List UInt8} (h : Quoted str text) {rest : List UInt8}
    (hrest : ∀ c ∈ rest.head?, isBlank c = true) (s : St) : ∃ a s', parseWord W 0 (text ++ rest) s = (.ok a, s') ∧
    a.1.text = str ∧ a.2.1 = rest := by
  obtain ⟨a, s', ha, htext, hrest'⟩ :=
    reads_text hmem h (b := ⟨s.allocs, [], 64, Nat.zero_le _⟩) rfl hrest { s with allocs := s.allocs + 1 }
  refine ⟨a, s', ?_, htext, hrest'⟩
  have hinit : bufInit W s = (.ok ⟨s.allocs, [], 64, Nat.zero_le _⟩, { s with allocs := s.allocs + 1 }) :=
    (Run.bind_ok (request_ok hmem s)).trans rfl
  rw [parseWord, Run.bind_ok hinit]
  exact ha

end Word

/-! ### The vector -/

/-- The first slots hold the words with these texts, and a NULL stands behind them. -/
def Stored (v : List Slot) (strs : List (List UInt8)) : Prop :=
  ∃ ws : List Word, ws.map (·.text) = strs ∧ v.take strs.length = ws.map .word ∧ v[strs.length]? = some .null

/-- A text is not empty and does not begin with a blank. -/
theorem Quoted.head {str text : List UInt8} (h : Quoted str text) (hstr : str ≠ []) :
    ∃ c rest, text = c :: rest ∧ isBlank c = false := by
  rcases h with rfl | ⟨-, rfl⟩
  · rcases str with _ | ⟨c, str⟩
    · exact absurd rfl hstr
    · exact ⟨_, _, rfl, by decide⟩
  · exact ⟨_, _, rfl, by decide⟩

namespace Stored

variable {v : List Slot} {strs : List (List UInt8)}

theorem store (h : Stored v strs) (hlen : strs.length + 1 < v.length) (w : Word) :
    Stored (store v strs.length w) (strs ++ [w.text]) := by
  obtain ⟨ws, htexts, htake, -⟩ := h
  refine ⟨ws ++ [w], by simp [htexts], ?_, ?_⟩
  · rw [List.length_append, List.length_singleton, take_store (by omega), htake, List.map_append]
    rfl
  · rw [List.length_append, List.length_singleton, getElem?_store hlen]

theorem grow (h : Stored v strs) (hlen : strs.length < v.length) :
    Stored (clear (resize v (v.length * 2)) strs.length) strs := by
  obtain ⟨ws, htexts, htake, -⟩ := h
  have hle : strs.length ≤ (resize v (v.length * 2)).length := by
    rw [length_resize]
    omega
  refine ⟨ws, htexts, ?_, getElem?_clear (Nat.le_refl _) (by rw [length_resize]; omega)⟩
  rw [take_clear hle, take_resize (by omega) (by omega), htake]

end Stored

/-! ### The words -/

/-- What stands behind the first text. -/
theorem joined_cons (text : List UInt8) (texts : List (List UInt8)) :
    ∃ rest, joined (text :: texts) = text ++ rest ∧ (∀ c ∈ rest.head?, isBlank c = true) ∧
      (rest = [] ∧ texts = [] ∨ rest = asc ' ' :: joined texts) := by
  rcases texts with _ | ⟨next, texts⟩
  · exact ⟨[], by simp [joined, List.intercalate], by simp, .inl ⟨rfl, rfl⟩⟩
  · refine ⟨asc ' ' :: joined (next :: texts), by simp [joined, List.intercalate, List.intersperse], ?_, .inr rfl⟩
    intro c hc
    rw [List.head?_cons, Option.mem_some_iff] at hc
    rw [← hc]
    decide

/-- The blanks in front of a joined text are skipped, and no more. -/
theorem dropWhile_joined {strs texts : List (List UInt8)} (h : List.Forall₂ Quoted strs texts) (hstrs : [] ∉ strs) :
    (joined texts).dropWhile isBlank = joined texts := by
  cases h with
  | nil => rfl
  | cons hquoted h =>
    obtain ⟨c, rest, rfl, hc⟩ := hquoted.head fun hnil => hstrs (hnil ▸ List.mem_cons_self)
    obtain ⟨tail, htail, -⟩ := joined_cons (c :: rest) _
    rw [htail, List.cons_append, List.dropWhile_cons_of_neg (by rw [hc]; exact Bool.false_ne_true)]

/-- The loop stores the strings behind those that are there. -/
theorem wordsLoop_quoted {W : World} (hW : Granted W) {strs texts : List (List UInt8)}
    (h : List.Forall₂ Quoted strs texts) (hstrs : [] ∉ strs) (done : List (List UInt8)) (v : List Slot) (n : ℕ)
    (p : List UInt8) (s : St) (hp : p.dropWhile isBlank = joined texts) (hdone : Stored v done)
    (hlen : done.length + 1 < v.length) :
    (wordsLoop W 0 v done.length n p s).err = none ∧ (wordsLoop W 0 v done.length n p s).idx = (done ++ strs).length ∧
      Stored (wordsLoop W 0 v done.length n p s).v (done ++ strs) := by
  induction h generalizing done v n p s with
  | nil =>
    rw [wordsLoop_nil v done.length n hp, List.append_nil]
    exact ⟨rfl, rfl, hdone⟩
  | @cons str text strs texts hquoted h ih =>
    rw [List.mem_cons, not_or] at hstrs
    obtain ⟨c, tail, rfl, -⟩ := hquoted.head (Ne.symm hstrs.1)
    obtain ⟨rest, hjoined, hblank, hrest⟩ := joined_cons (c :: tail) texts
    obtain ⟨⟨w, r⟩, s', hw, hwtext, hwrest⟩ := parseWord_text hW.mem hquoted hblank s
    have hr : r.1.dropWhile isBlank = joined texts := by
      rcases hrest with ⟨rfl, rfl⟩ | rfl
      · rw [hwrest]
        rfl
      · rw [hwrest, List.dropWhile_cons_of_pos (by decide), dropWhile_joined h hstrs.2]
    have hidx : done.length + 1 = (done ++ [w.text]).length := by rw [List.length_append, List.length_singleton]
    have hdone' : done ++ str :: strs = done ++ [w.text] ++ strs := by
      rw [hwtext, List.append_assoc, List.singleton_append]
    rw [wordsLoop_word (hp.trans hjoined) v done.length n hw, hdone', hidx]
    by_cases hfull : v.length ≤ done.length + 2
    · rw [if_pos hfull, if_pos (hW.vecMem n)]
      have hgrown : (clear (resize v (v.length * 2)) done.length).length = v.length * 2 := by
        rw [length_clear (by rw [length_resize]; omega), length_resize]
      refine ih hstrs.2 _ _ _ _ _ hr ((hdone.grow (by omega)).store (by omega) w) ?_
      rw [length_store, hgrown, ← hidx]
      omega
    · rw [if_neg hfull]
      refine ih hstrs.2 _ _ _ _ _ hr (hdone.store hlen w) ?_
      rw [length_store, ← hidx]
      omega

/-- A call on the joined texts, from a structure that is zeroed, stores exactly the strings if memory permits. -/
theorem wordexp_quoted {W : World} (hW : Granted W) {m : Mach} (hm : m.pw = ⟨0, none, 0⟩) {strs : List CString}
    {texts : List (List UInt8)} (hstrs : ∀ str ∈ strs, str.bytes ≠ [])
    (h : List.Forall₂ (fun str text => Quoted str.bytes text) strs texts) :
    (wordexp W (joined texts) 0 m).1 = none ∧ (wordexp W (joined texts) 0 m).2.pw.we_wordc = strs.length ∧
      ∃ v, (wordexp W (joined texts) 0 m).2.pw.we_wordv = some v ∧ Stored v (strs.map (·.bytes)) := by
  have hlen : (clear (resize [] 16) 0).length = 16 := by rw [length_clear (Nat.zero_le _), length_resize]
  have hstart : Stored (clear (resize [] 16) 0) [] :=
    ⟨[], rfl, rfl, getElem?_clear (Nat.le_refl _) (by rw [length_resize]; decide)⟩
  have hnil : [] ∉ strs.map (·.bytes) := by
    rw [List.mem_map]
    exact fun ⟨str, hstr, hempty⟩ => hstrs str hstr hempty
  have hquoted : List.Forall₂ Quoted (strs.map (·.bytes)) texts := List.forall₂_map_left_iff.2 h
  obtain ⟨herr, hidx, hstored⟩ := wordsLoop_quoted hW hquoted hnil [] (clear (resize [] 16) 0) (m.vecs + 1)
    (joined texts) m.st
    (dropWhile_joined hquoted hnil) hstart (by rw [hlen]; decide)
  rw [List.nil_append] at hidx hstored
  rw [List.length_map] at hidx
  unfold wordexp
  simp only [if_neg (show ¬HasFlag 0 WRDE_REUSE by decide), if_neg (show ¬HasFlag 0 WRDE_DOOFFS by decide), hm,
    if_neg (fun h : HasFlag 0 WRDE_APPEND ∧ 0 < 0 => Nat.lt_irrefl _ h.2), if_pos (hW.vecMem _), Option.getD_none]
  exact ⟨herr, (if_pos herr).trans hidx, _, rfl, hstored⟩

/-- Special characters in both forms. -/
theorem wordexp_quoted_two :
    (wordexp emptyWorld (joined [[asc '\\', asc '$', asc '\\', asc 'a'], lit "'`;'"]) 0 zeroed).1 = none ∧
    (wordexp emptyWorld (joined [[asc '\\', asc '$', asc '\\', asc 'a'], lit "'`;'"]) 0 zeroed).2.pw.we_wordc = 2 ∧
    ∃ v, (wordexp emptyWorld (joined [[asc '\\', asc '$', asc '\\', asc 'a'], lit "'`;'"]) 0 zeroed).2.pw.we_wordv =
    some v ∧
      Stored v [lit "$a", lit "`;"] :=
  @wordexp_quoted emptyWorld ⟨fun _ => rfl, fun _ => rfl⟩ zeroed rfl [⟨lit "$a", by decide⟩, ⟨lit "`;", by decide⟩] _
    (by decide) (.cons (.inl rfl) (.cons (.inr ⟨by decide, rfl⟩) .nil))

end JACLibc.Wordexp
