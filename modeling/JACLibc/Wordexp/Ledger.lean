import JACLibc.Wordexp.Vector

/-!
# The words that are stored

The number of the request that gave its memory tells a word from all others.  Over a run of calls the words that are
to be stored are kept beside the machine (`callStep`): those of a call with `WRDE_APPEND` come behind the others,
those of another call replace them, and a call that fails stores none.  In runs without offsets the vector holds these
words after each call, `wordfree` frees each of them once and nothing else (`wordexp_ledger`); a call that replaces
the words must not fail.
-/

namespace JACLibc.Wordexp

variable (W : World)

/-! ### The memory of a word -/

/-- A run whose result has the memory of the request number `n`. -/
def KeepsBuf {α : Type} (n : ℕ) (ident : α → ℕ) (x : Run α) : Prop :=
  ∀ s, s.allocs ≤ (x s).2.allocs ∧ ∀ a, (x s).1 = .ok a → ident a = n

section

variable {W} {α β : Type} {n : ℕ} {ident : α → ℕ} {ident' : β → ℕ}

theorem KeepsBuf.pure {a : α} (h : ident a = n) : KeepsBuf n ident (pure a : Run α) :=
  fun _ => ⟨Nat.le_refl _, fun _ ha => by rw [← Except.ok.inj ha, h]⟩

theorem KeepsBuf.fail (e : Err) : KeepsBuf n ident (Run.fail e : Run α) :=
  fun _ => ⟨Nat.le_refl _, fun _ ha => nomatch ha⟩

theorem KeepsBuf.bind {x : Run α} {f : α → Run β} (hx : ∀ s, s.allocs ≤ (x s).2.allocs)
    (hf : ∀ s a, (x s).1 = .ok a → KeepsBuf n ident' (f a)) : KeepsBuf n ident' (x >>= f) := by
  intro s
  have hle := hx s
  rcases h : x s with ⟨e | a, s'⟩
  · rw [Run.bind_error h]
    rw [h] at hle
    exact ⟨hle, fun _ ha => nomatch ha⟩
  · rw [Run.bind_ok h]
    rw [h] at hle
    obtain ⟨hle', hid⟩ := hf s a (by rw [h]) s'
    exact ⟨hle.trans hle', hid⟩

theorem KeepsBuf.then {x : Run α} {f : α → Run β} (hx : KeepsBuf n ident x)
    (hf : ∀ a, ident a = n → KeepsBuf n ident' (f a)) :
    KeepsBuf n ident' (x >>= f) :=
  .bind (fun s => (hx s).1) fun s a ha => hf a ((hx s).2 a ha)

end

theorem keepsBuf_bufPut (b : Buf) (c : UInt8) : KeepsBuf b.id Buf.id (bufPut W b c) := by
  unfold bufPut
  split
  · exact .bind (fun s => Nat.le_succ _) fun _ _ _ => .pure rfl
  · exact .pure rfl

theorem keepsBuf_bufStr (b : Buf) (s : List UInt8) : KeepsBuf b.id Buf.id (bufStr W b s) := by
  induction s generalizing b with
  | nil => exact .pure rfl
  | cons c s ih => exact (keepsBuf_bufPut W b c).then fun b' hid => hid ▸ ih b'

theorem keepsBuf_readOutput (b : Buf) (pieces : List (List UInt8)) : KeepsBuf b.id Buf.id (readOutput W b pieces) := by
  induction pieces generalizing b with
  | nil => exact .pure rfl
  | cons piece pieces ih => exact (keepsBuf_bufStr W b _).then fun b' hid => hid ▸ ih b'

theorem keepsBuf_execCmd (cmd : List UInt8) (b : Buf) : KeepsBuf b.id Buf.id (execCmd W cmd b) := by
  unfold execCmd
  split
  · exact .pure rfl
  · refine .bind (fun s => Nat.le_refl _) fun _ out _ => ?_
    split
    · exact .pure rfl
    · exact keepsBuf_readOutput W b _

theorem keepsBuf_scanTilde (b : Buf) : KeepsBuf b.id Buf.id (scanTilde W b) := by
  unfold scanTilde
  split
  · exact keepsBuf_bufStr W b _
  · exact keepsBuf_bufPut W b _

theorem keepsBuf_varValue (flags : BitVec 32) (b : Buf) (var : List UInt8) :
    KeepsBuf b.id Buf.id (varValue W flags b var) := by
  unfold varValue
  split
  · exact keepsBuf_bufPut W b _
  · split
    · exact keepsBuf_bufStr W b _
    · split
      · exact .fail _
      · exact .pure rfl

theorem keepsBuf_scanVar (flags : BitVec 32) (b : Buf) (p : List UInt8) :
    KeepsBuf b.id (fun r => r.1.id) (scanVar W flags b p) := by
  rcases p with _ | ⟨c, p⟩
  · exact .fail _
  · exact (keepsBuf_varValue W flags b _).then fun b' hid => .pure hid

theorem keepsBuf_scanCmd (flags : BitVec 32) (b : Buf) (c : UInt8) (p : List UInt8) :
    KeepsBuf b.id (fun r => r.1.id) (scanCmd W flags b c p) := by
  refine .bind (fun s => Nat.le_refl _) fun _ _ _ => ?_
  split
  · exact .fail _
  · unfold runCmd
    split
    · exact .fail _
    · exact .bind (fun s => Nat.le_succ _) fun _ _ _ => (keepsBuf_execCmd W _ b).then fun b' hid => .pure hid

theorem keepsBuf_step (flags : BitVec 32) (q : UInt8) (b : Buf) (c : UInt8) (p : List UInt8) :
    KeepsBuf b.id (fun r => r.2.1.id) (step W flags q b c p) := by
  unfold step
  split
  · split
    · exact .pure rfl
    · split
      · split
        · split
          · exact (keepsBuf_scanCmd W flags b _ _).then fun r hid => .pure hid
          · exact (keepsBuf_scanVar W flags b _).then fun r hid => .pure hid
        · exact .fail _
      · exact (keepsBuf_bufPut W b c).then fun b' hid => .pure hid
  · split
    · split
      · exact .fail _
      · exact (keepsBuf_bufPut W b _).then fun b' hid => .pure hid
    · split
      · exact .pure rfl
      · split
        · exact .fail _
        · split
          · exact (keepsBuf_scanTilde W b).then fun b' hid => .pure hid
          · split
            · exact (keepsBuf_scanCmd W flags b c p).then fun r hid => .pure hid
            · split
              · exact (keepsBuf_scanVar W flags b _).then fun r hid => .pure hid
              · exact (keepsBuf_bufPut W b c).then fun b' hid => .pure hid

theorem keepsBuf_parseLoop (flags : BitVec 32) (q : UInt8) (b : Buf) (p : List UInt8) :
    KeepsBuf b.id (fun r => r.1.id) (parseLoop W flags q b p) := by
  obtain ⟨k, hk⟩ : ∃ k, p.length < k := ⟨_, Nat.lt_succ_self _⟩
  induction k generalizing q b p with
  | zero => exact absurd hk (Nat.not_lt_zero _)
  | succ k ih =>
    rcases p with _ | ⟨c, p⟩
    · rw [parseLoop]
      split
      · exact .fail _
      · exact (keepsBuf_bufPut W b 0).then fun e hid => .pure hid
    · rw [parseLoop]
      split
      · exact (keepsBuf_bufPut W b 0).then fun e hid => .pure hid
      · refine (keepsBuf_step W flags q b c p).then fun r hid => ?_
        have hlen : r.2.2.1.length < k := Nat.lt_of_lt_of_le r.2.2.2 (Nat.lt_succ_iff.1 hk)
        exact (hid ▸ ih r.1 r.2.1 r.2.2.1 hlen).then fun w hw => .pure hw

/-- A word has the number of the first request for it. -/
theorem parseWord_id (flags : BitVec 32) (p : List UInt8) (s : St) :
    s.allocs < (parseWord W flags p s).2.allocs ∧ ∀ a, (parseWord W flags p s).1 = .ok a → a.1.id = s.allocs := by
  by_cases hmem : W.mem s.allocs = true
  · have hinit : bufInit W s = (.ok ⟨s.allocs, [], 64, Nat.zero_le _⟩, { s with allocs := s.allocs + 1 }) := by
      rw [bufInit, Run.bind_run, request, if_pos hmem]
      rfl
    rw [parseWord, Run.bind_ok hinit]
    exact keepsBuf_parseLoop W flags 0 ⟨s.allocs, [], 64, Nat.zero_le _⟩ p { s with allocs := s.allocs + 1 }
  · have hinit : bufInit W s = (.error .WRDE_NOSPACE, { s with allocs := s.allocs + 1 }) := by
      rw [bufInit, Run.bind_run, request, if_neg hmem]
    rw [parseWord, Run.bind_error hinit]
    exact ⟨Nat.lt_succ_self _, fun _ ha => nomatch ha⟩

/-! ### The words of a string -/

/-- The words that the parser reads from the string, one after another, if it reads all of them. -/
def wordList (flags : BitVec 32) : ℕ → List UInt8 → St → Option (List Word)
  | fuel, p, s =>
    match p.dropWhile isBlank with
    | [] => some []
    | c :: p' =>
      match fuel with
      | 0 => none
      | fuel + 1 =>
        match parseWord W flags (c :: p') s with
        | (.error _, _) => none
        | (.ok (w, r), s) => (wordList flags fuel r.1 s).map (w :: ·)

/-- The words have different numbers from `lo` on and below `hi`. -/
def Fresh (lo hi : ℕ) (ws : List Word) : Prop := (ws.map (·.id)).Nodup ∧ ∀ w ∈ ws, lo ≤ w.id ∧ w.id < hi

theorem Fresh.cons {lo mid hi : ℕ} {w : Word} {ws : List Word} (h : Fresh mid hi ws) (hw : w.id = lo) (hlt : lo < mid)
    (hle : mid ≤ hi) :
    Fresh lo hi (w :: ws) := by
  refine ⟨?_, List.forall_mem_cons.2 ⟨⟨hw.ge, by omega⟩, fun x hx => ⟨hlt.le.trans (h.2 x hx).1, (h.2 x hx).2⟩⟩⟩
  rw [List.map_cons, List.nodup_cons]
  refine ⟨fun hmem => ?_, h.1⟩
  obtain ⟨x, hx, hid⟩ := List.mem_map.1 hmem
  have := (h.2 x hx).1
  omega

/-- What the loop leaves of the slots in front of `idx`, and behind them if it reads all words. -/
structure Loaded (flags : BitVec 32) (v : List Slot) (idx : ℕ) (fuel : ℕ) (p : List UInt8) (s : St) (e : LoopEnd) :
    Prop where
  front : e.v.take idx = v.take idx
  room : idx < e.v.length
  allocs : s.allocs ≤ e.st.allocs
  words : e.err = none → ∃ ws, wordList W flags fuel p s = some ws ∧ e.idx = idx + ws.length ∧
    e.v.take e.idx = v.take idx ++ ws.map .word ∧ e.v[e.idx]? = some .null ∧ Fresh s.allocs e.st.allocs ws

theorem Loaded.nil {flags : BitVec 32} {v : List Slot} {idx n fuel : ℕ} {p : List UInt8} {s : St}
    (hp : p.dropWhile isBlank = []) (hroom : idx + 1 < v.length) (hnull : v[idx]? = some .null) :
    Loaded W flags v idx fuel p s (wordsLoop W flags v idx n p s) := by
  rw [wordsLoop_nil v idx n hp]
  refine ⟨rfl, Nat.lt_of_succ_lt hroom, Nat.le_refl _, fun _ => ⟨[], ?_, rfl, (List.append_nil _).symm, hnull, ?_⟩⟩
  · rcases fuel with _ | fuel
    · rw [wordList, hp]
    · rw [wordList, hp]
  · exact ⟨List.nodup_nil, fun _ hw => nomatch hw⟩

theorem wordsLoop_loaded (flags : BitVec 32) (fuel : ℕ) (v : List Slot) (idx n : ℕ) (p : List UInt8) (s : St)
    (hfuel : p.length ≤ fuel) (hroom : idx + 1 < v.length) (hnull : v[idx]? = some .null) :
    Loaded W flags v idx fuel p s (wordsLoop W flags v idx n p s) := by
  induction fuel generalizing v idx n p s with
  | zero =>
    have hp : p.dropWhile isBlank = [] := by
      rw [List.length_eq_zero_iff.1 (Nat.le_zero.1 hfuel)]
      rfl
    exact .nil W hp hroom hnull
  | succ fuel ih =>
    rcases hp : p.dropWhile isBlank with _ | ⟨c, p'⟩
    · exact .nil W hp hroom hnull
    obtain ⟨hallocs, hid⟩ := parseWord_id W flags (c :: p') s
    rcases hw : parseWord W flags (c :: p') s with ⟨e | ⟨w, r⟩, s'⟩
    · rw [wordsLoop_error hp v idx n hw]
      rw [hw] at hallocs
      exact ⟨rfl, Nat.lt_of_succ_lt hroom, hallocs.le, fun herr => nomatch herr⟩
    rw [hw] at hallocs hid
    have hr : r.1.length ≤ fuel := by
      have hblank : isBlank c = false := by
        have hne : p.dropWhile isBlank ≠ [] := by rw [hp]; exact List.cons_ne_nil c p'
        simpa [hp] using List.head_dropWhile_not isBlank hne
      have hdrop : (c :: p').length ≤ p.length := hp ▸ List.length_dropWhile_le _ _
      have hlt := r.2.2 ⟨c, rfl, fun _ => hblank⟩
      omega
    -- the word is in the slot `idx` of `v₁`, and the loop goes on behind it
    have hword : ∀ (v₁ : List Slot) (n₁ : ℕ), v₁.take (idx + 1) = v.take idx ++ [.word w] → idx + 2 < v₁.length →
        v₁[idx + 1]? = some .null → Loaded W flags v idx (fuel + 1) p s (wordsLoop W flags v₁ (idx + 1) n₁ r.1 s') := by
      intro v₁ n₁ htake hroom₁ hnull₁
      obtain ⟨hfront, hroom', hallocs', hwords⟩ := ih v₁ (idx + 1) n₁ r.1 s' hr hroom₁ hnull₁
      refine ⟨?_, by omega, hallocs.le.trans hallocs', fun herr => ?_⟩
      · have hlen : (v.take idx).length = idx := by
          rw [List.length_take]
          omega
        have hcut := congrArg (List.take idx) (hfront.trans htake)
        rwa [List.take_take, min_eq_left (Nat.le_succ _), List.take_append_of_le_length hlen.ge,
          List.take_of_length_le hlen.le] at hcut
      · obtain ⟨ws, hws, hidx, hslots, hend, hfresh⟩ := hwords herr
        refine ⟨w :: ws, ?_, ?_, ?_, hend, hfresh.cons (hid _ rfl) hallocs hallocs'⟩
        · rw [wordList, hp]
          simp only [hw, hws]
          rfl
        · rw [hidx, List.length_cons]
          omega
        · rw [hslots, htake, List.append_assoc]
          rfl
    rw [wordsLoop_word hp v idx n hw]
    split_ifs with hfull hmem
    · have hlen : (clear (resize v (v.length * 2)) idx).length = v.length * 2 := by
        rw [length_clear (by rw [length_resize]; omega), length_resize]
      refine hword _ _ ?_ (by rw [length_store, hlen]; omega) (getElem?_store (by rw [hlen]; omega) w)
      rw [take_store (by rw [hlen]; omega), take_clear (by rw [length_resize]; omega),
        take_resize (by omega) (by omega)]
    · exact ⟨rfl, Nat.lt_of_succ_lt hroom, hallocs.le, fun herr => nomatch herr⟩
    · exact hword _ _ (take_store (by omega) w) (by rw [length_store]; omega) (getElem?_store (by omega) w)

/-- Where memory for the vector is granted, the loop succeeds if the parser reads all words.  It asks once for each of
them at most. -/
theorem wordsLoop_success {flags : BitVec 32} (fuel : ℕ) (v : List Slot) (idx n : ℕ) (p : List UInt8) (s : St)
    (hvec : ∀ k, n ≤ k → k < n + fuel → W.vecMem k = true) (h : wordList W flags fuel p s ≠ none) :
    (wordsLoop W flags v idx n p s).err = none := by
  induction fuel generalizing v idx n p s with
  | zero =>
    rw [wordList] at h
    rcases hp : p.dropWhile isBlank with _ | ⟨c, p'⟩
    · rw [wordsLoop_nil v idx n hp]
    · rw [hp] at h
      exact absurd rfl h
  | succ fuel ih =>
    rw [wordList] at h
    rcases hp : p.dropWhile isBlank with _ | ⟨c, p'⟩
    · rw [wordsLoop_nil v idx n hp]
    · rw [hp] at h
      rcases hw : parseWord W flags (c :: p') s with ⟨e | ⟨w, r⟩, s'⟩
      · simp only [hw] at h
        exact absurd rfl h
      · have hrest : wordList W flags fuel r.1 s' ≠ none := fun hnone => h (by simp only [hw, hnone]; rfl)
        rw [wordsLoop_word hp v idx n hw, if_pos (hvec n (Nat.le_refl _) (by omega))]
        split
        · exact ih _ _ _ _ _ (fun k hk hlt => hvec k (by omega) (by omega)) hrest
        · exact ih _ _ _ _ _ (fun k hk hlt => hvec k hk (by omega)) hrest

/-! ### Runs -/

/-- The words and the flags of a call. -/
structure Call where
  words : CString
  flags : BitVec 32

/-- The call adds to the words that are there. -/
def Call.appends (c : Call) : Prop := HasFlag c.flags WRDE_APPEND ∧ ¬HasFlag c.flags WRDE_REUSE

instance (c : Call) : Decidable c.appends := inferInstanceAs (Decidable (_ ∧ _))

/-- The words of a call. -/
def Call.read (c : Call) (s : St) : Option (List Word) := wordList W c.flags c.words.bytes.length c.words.bytes s

/-- A call, on the machine and the words that are to be stored in it. -/
def callStep (s : Mach × List Word) (c : Call) : Option Err × (Mach × List Word) :=
  let r := wordexp W c.words.bytes c.flags s.1
  (r.1, r.2, if r.1 = none then (if c.appends then s.2 else []) ++ (c.read W s.1.st).getD [] else s.2)

/-- The vector holds the words that are to be stored; no two of them have the same memory, and none has memory that
was freed. -/
structure Holds (s : Mach × List Word) : Prop where
  wordc : s.1.pw.we_wordc = s.2.length
  slots : (s.1.pw.we_wordv.getD []).take s.2.length = s.2.map .word
  nodup : (s.1.freed ++ s.2.map (·.id)).Nodup
  below : ∀ i ∈ s.1.freed ++ s.2.map (·.id), i < s.1.st.allocs
  fault : s.1.fault = false

theorem freeSlots_words {v : List Slot} {ws : List Word} (h : v.take ws.length = ws.map .word) :
    freeSlots ws.length v = (ws.map (·.id), false) := by
  induction ws generalizing v with
  | nil => rfl
  | cons w ws ih =>
    rcases v with _ | ⟨slot, v⟩
    · cases h
    · rw [List.length_cons, List.take_succ_cons, List.map_cons, List.cons.injEq] at h
      rw [h.1, List.length_cons, freeSlots, ih h.2]
      rfl

/-- `wordfree` frees the stored words, each of them once, and nothing else. -/
theorem Holds.free {s : Mach × List Word} (h : Holds s) :
    (wordfree s.1).freed = s.1.freed ++ s.2.map (·.id) ∧ (wordfree s.1).pw.we_offs = s.1.pw.we_offs ∧
    Holds (wordfree s.1, []) := by
  rcases hv : s.1.pw.we_wordv with _ | v
  · have hnil : s.2 = [] := by
      have hslots := h.slots
      rw [hv, Option.getD_none, List.take_nil] at hslots
      exact List.map_eq_nil_iff.1 hslots.symm
    have hfree : wordfree s.1 = s.1 := by rw [wordfree, hv]
    rw [hfree]
    refine ⟨by simp [hnil], rfl, ?_⟩
    have hs : s = (s.1, []) := by rw [← hnil]
    rw [← hs]
    exact h
  · have hslots := h.slots
    rw [hv, Option.getD_some] at hslots
    have hfree : wordfree s.1 =
        { s.1 with pw := { s.1.pw with we_wordc := 0, we_wordv := none }, freed := s.1.freed ++ s.2.map (·.id) } := by
      rw [wordfree, hv]
      simp only [h.wordc, freeSlots_words hslots, Bool.or_false]
    rw [hfree]
    exact ⟨rfl, rfl, rfl, rfl, by simpa using h.nodup, by simpa using h.below, h.fault⟩

/-- Memory for the vector is granted to the call, which asks once, and once more for each character of its text at
most. -/
def Call.Granted (c : Call) (s : Mach × List Word) : Prop :=
  ∀ n, s.1.vecs ≤ n → n ≤ s.1.vecs + c.words.bytes.length → W.vecMem n = true

/-- The call reserves no slots; and if it replaces words, the parser reads all of its words and memory for the vector
is granted. -/
def Fits (s : Mach × List Word) (c : Call) : Prop :=
  (HasFlag c.flags WRDE_DOOFFS → s.1.pw.we_offs = 0) ∧
    (s.1.pw.we_wordc = 0 ∨ c.appends ∨ (c.read W s.1.st ≠ none ∧ c.Granted W s))

/-- The structure in front of the loop: the words are freed first if the flags say so. -/
def Call.reused (c : Call) (s : Mach × List Word) : Mach × List Word :=
  if HasFlag c.flags WRDE_REUSE then (wordfree s.1, []) else s

/-- The words in front of which the loop stores none. -/
def Call.kept (c : Call) (s : Mach × List Word) : List Word :=
  if HasFlag c.flags WRDE_APPEND then (c.reused s).2 else []

section Step

variable {W} {s : Mach × List Word} {c : Call}

theorem Call.kept_eq : c.kept s = if c.appends then s.2 else [] := by
  unfold kept reused
  by_cases happend : HasFlag c.flags WRDE_APPEND
  · by_cases hreuse : HasFlag c.flags WRDE_REUSE
    · rw [if_pos happend, if_pos hreuse, if_neg fun h : c.appends => h.2 hreuse]
    · rw [if_pos happend, if_neg hreuse, if_pos (show c.appends from ⟨happend, hreuse⟩)]
  · rw [if_neg happend, if_neg fun h : c.appends => happend h.1]

theorem Call.reused_fst : (c.reused s).1 = if HasFlag c.flags WRDE_REUSE then wordfree s.1 else s.1 := by
  unfold reused
  split <;> rfl

theorem Holds.reused (h : Holds s) : Holds (c.reused s) ∧ (c.reused s).1.pw.we_offs = s.1.pw.we_offs ∧
    (c.reused s).1.st = s.1.st := by
  unfold Call.reused
  split
  · exact ⟨h.free.2.2, h.free.2.1, wordfree_st s.1⟩
  · exact ⟨h, rfl, rfl⟩

theorem Call.vecs_reused : (c.reused s).1.vecs = s.1.vecs := by
  rw [Call.reused_fst]
  split
  · unfold wordfree
    split <;> rfl
  · rfl

/-- Where no words are replaced, the words that are kept are those that are there. -/
theorem Holds.kept_of_fits (h : Holds s) (hfit : s.1.pw.we_wordc = 0 ∨ c.appends) :
    (c.reused s).2 = s.2 ∧ c.kept s = s.2 := by
  rcases hfit with hzero | happends
  · have hnil : s.2 = [] := List.length_eq_zero_iff.1 (h.wordc.symm.trans hzero)
    rw [Call.kept_eq, Call.reused, hnil]
    constructor <;> split <;> simp [hnil]
  · rw [Call.kept_eq, if_pos happends, Call.reused, if_neg happends.2]
    exact ⟨rfl, rfl⟩

theorem Call.kept_sublist : (c.kept s).Sublist (c.reused s).2 := by
  unfold kept
  split
  · exact List.Sublist.refl _
  · exact List.nil_sublist _

/-- The slots in front of the loop: the words that are kept, and nothing behind them. -/
theorem Holds.slots_kept (h : Holds s) :
    (clear (resize ((c.reused s).1.pw.we_wordv.getD []) ((c.kept s).length + 16)) (c.kept s).length).take
    (c.kept s).length =
      (c.kept s).map .word := by
  have hslots := (h.reused (c := c)).1.slots
  have hlen := congrArg List.length hslots
  rw [List.length_take, List.length_map] at hlen
  have hle := (Call.kept_sublist (s := s) (c := c)).length_le
  rw [take_clear (by rw [length_resize]; omega), take_resize (by omega) (by omega)]
  unfold Call.kept at hle ⊢
  split
  · exact hslots
  · rfl

/-- The call as the loop on the slots behind the words that are kept. -/
theorem wordexp_loop (h : Holds s) (hoffs : HasFlag c.flags WRDE_DOOFFS → s.1.pw.we_offs = 0) :
    wordexp W c.words.bytes c.flags s.1 =
      let m := (c.reused s).1
      let k := (c.kept s).length
      if W.vecMem m.vecs then
        let e := wordsLoop W c.flags (clear (resize (m.pw.we_wordv.getD []) (k + 16)) k) k (m.vecs + 1) c.words.bytes
          m.st
        (e.err, { m with
          pw := { m.pw with we_wordv := some e.v, we_wordc := if e.err = none then e.idx else m.pw.we_wordc }
          st := e.st, vecs := e.vecs })
      else (some .WRDE_NOSPACE, { m with vecs := m.vecs + 1 }) := by
  have hoff : (if HasFlag c.flags WRDE_DOOFFS then (c.reused s).1.pw.we_offs else 0) = 0 := by
    split
    · rename_i hflag
      rw [h.reused.2.1, hoffs hflag]
    · rfl
  have hidx : (if HasFlag c.flags WRDE_APPEND ∧ 0 < (c.reused s).1.pw.we_wordc then (c.reused s).1.pw.we_wordc else 0) =
      (c.kept s).length := by
    unfold Call.kept
    rw [h.reused.1.wordc]
    by_cases happend : HasFlag c.flags WRDE_APPEND
    · rw [if_pos happend]
      split
      · rfl
      · rename_i hnot
        have := mt (And.intro happend) hnot
        omega
    · rw [if_neg fun h => happend h.1, if_neg happend]
      rfl
  unfold wordexp
  simp only [← Call.reused_fst, hoff, hidx]

/-- A call that fits keeps the words; if it succeeds a NULL stands behind them. -/
theorem callStep_holds (h : Holds s) (hfit : Fits W s c) : Holds (callStep W s c).2 ∧
    (callStep W s c).2.1.pw.we_offs = s.1.pw.we_offs ∧ ((callStep W s c).1 = none →
      ((callStep W s c).2.1.pw.we_wordv.getD [])[(callStep W s c).2.2.length]? = some .null) := by
  obtain ⟨hreused, hoffs, hst⟩ := h.reused (c := c)
  have hkept := h.slots_kept (c := c)
  have hroom : (c.kept s).length + 1 <
      (clear (resize ((c.reused s).1.pw.we_wordv.getD []) ((c.kept s).length + 16)) (c.kept s).length).length := by
    rw [length_clear (by rw [length_resize]; omega), length_resize]
    omega
  have hnull : (clear (resize ((c.reused s).1.pw.we_wordv.getD []) ((c.kept s).length + 16))
    (c.kept s).length)[(c.kept s).length]? =
      some .null :=
    getElem?_clear (Nat.le_refl _) (by rw [length_resize]; omega)
  -- a call that fails replaces no words
  have hsame : ¬(c.read W s.1.st ≠ none ∧ c.Granted W s) → (c.reused s).2 = s.2 ∧ c.kept s = s.2 :=
    fun hnot => h.kept_of_fits (hfit.2.imp_right fun hor => hor.resolve_right hnot)
  unfold callStep
  rw [wordexp_loop h hfit.1]
  dsimp only
  generalize clear (resize ((c.reused s).1.pw.we_wordv.getD []) ((c.kept s).length + 16)) (c.kept s).length = v
    at hkept hroom hnull ⊢
  by_cases hvec : W.vecMem (c.reused s).1.vecs = true
  · obtain ⟨hfront, hlen, hallocs, hwords⟩ := wordsLoop_loaded W c.flags c.words.bytes.length v (c.kept s).length
      ((c.reused s).1.vecs + 1) c.words.bytes (c.reused s).1.st (Nat.le_refl _) hroom hnull
    have hsuccess : c.Granted W s → c.read W (c.reused s).1.st ≠ none →
        (wordsLoop W c.flags v (c.kept s).length ((c.reused s).1.vecs + 1) c.words.bytes (c.reused s).1.st).err =
        none := by
      intro hall hread
      refine wordsLoop_success W _ _ _ _ _ _ (fun k hk hlt => ?_) hread
      rw [Call.vecs_reused] at hk hlt
      exact hall k (by omega) (by omega)
    rw [if_pos hvec]
    generalize wordsLoop W c.flags _ _ _ _ _ = e at hfront hlen hallocs hwords hsuccess ⊢
    dsimp only
    refine ⟨?_, hoffs, ?_⟩
    · by_cases herr : e.err = none
      · obtain ⟨ws, hws, hidx, hslots, -, hfresh⟩ := hwords herr
        have hread : c.read W s.1.st = some ws := hst ▸ hws
        have hids : ∀ i ∈ (c.reused s).1.freed ++ (c.kept s).map (·.id), i < (c.reused s).1.st.allocs := by
          intro i hi
          refine hreused.below i ?_
          exact (List.Sublist.append_left (Call.kept_sublist.map _) _).subset hi
        simp only [if_pos herr, hread, ← Call.kept_eq, Option.getD_some]
        refine ⟨?_, ?_, ?_, ?_, hreused.fault⟩
        · rw [List.length_append]
          exact hidx
        · have hcut : e.v.take (c.kept s ++ ws).length = (c.kept s).map .word ++ ws.map .word := by
            rw [List.length_append, ← hidx, hslots, hkept]
          rw [List.map_append]
          exact hcut
        · dsimp only
          rw [List.map_append, ← List.append_assoc, List.nodup_append]
          refine ⟨(List.Sublist.append_left (Call.kept_sublist.map _) _).nodup hreused.nodup, hfresh.1, ?_⟩
          intro i hi j hj hij
          obtain ⟨w, hw, rfl⟩ := List.mem_map.1 hj
          have := (hfresh.2 w hw).1
          have := hids i hi
          omega
        · dsimp only
          rw [List.map_append, ← List.append_assoc]
          intro i hi
          rcases List.mem_append.1 hi with hi | hi
          · exact (hids i hi).trans_le hallocs
          · obtain ⟨w, hw, rfl⟩ := List.mem_map.1 hi
            exact (hfresh.2 w hw).2
      · obtain ⟨hwords', hall⟩ := hsame fun hboth => herr (hsuccess hboth.2 (hst ▸ hboth.1))
        simp only [if_neg herr]
        rw [hall] at hfront hkept
        refine ⟨?_, hfront.trans hkept, ?_, ?_, hreused.fault⟩
        · rw [← hwords']
          exact hreused.wordc
        · rw [← hwords']
          exact hreused.nodup
        · rw [← hwords']
          exact fun i hi => (hreused.below i hi).trans_le hallocs
    · intro herr
      obtain ⟨ws, hws, hidx, -, hend, -⟩ := hwords herr
      have hread : c.read W s.1.st = some ws := hst ▸ hws
      simp only [if_pos herr, hread, ← Call.kept_eq, Option.getD_some, List.length_append, ← hidx]
      exact hend
  · obtain ⟨hwords', -⟩ := hsame fun hboth => hvec (hboth.2 _ Call.vecs_reused.ge (by rw [Call.vecs_reused]; omega))
    rw [if_neg hvec]
    dsimp only
    rw [if_neg (by simp), ← hwords']
    exact ⟨⟨hreused.wordc, hreused.slots, hreused.nodup, hreused.below, hreused.fault⟩, hoffs, fun herr => nomatch herr⟩

end Step

/-- A structure that is zeroed but for `we_offs`. -/
def start (offs : ℕ) (st : St) (vecs : ℕ) : Mach × List Word := (⟨⟨0, none, offs⟩, st, vecs, [], false⟩, [])

theorem holds_start (offs : ℕ) (st : St) (vecs : ℕ) : Holds (start offs st vecs) :=
  ⟨rfl, rfl, List.nodup_nil, by simp [start], rfl⟩

/-- The slots of the vector. -/
def slots (m : Mach) : List Slot := m.pw.we_wordv.getD []

/-- After each call of a run whose calls fit, the reserved slots are NULL, the vector holds the words that are to be
stored, with a NULL behind them if the call succeeded, and `wordfree` frees each of these words once and nothing else.
-/
theorem wordexp_ledger (offs : ℕ) (st : St) (vecs : ℕ) (calls : List Call) (c : Call)
    (h : Machine.Guarded (callStep W) (Fits W) (start offs st vecs) (calls ++ [c])) :
    let s := Machine.run (callStep W) (start offs st vecs) calls
    let r := callStep W s c
    (HasFlag c.flags WRDE_DOOFFS → ∀ i < offs, (slots r.2.1)[i]? = some .null) ∧
      r.2.1.pw.we_wordc = r.2.2.length ∧ (slots r.2.1).take r.2.2.length = r.2.2.map .word ∧
      (r.1 = none → (slots r.2.1)[r.2.2.length]? = some .null) ∧
      (wordfree r.2.1).freed = r.2.1.freed ++ r.2.2.map (·.id) ∧ (r.2.1.freed ++ r.2.2.map (·.id)).Nodup ∧
      (wordfree r.2.1).fault = false := by
  intro s r
  obtain ⟨hcalls, hfit, -⟩ := Machine.guarded_append.1 h
  have hrun : Holds s ∧ s.1.pw.we_offs = offs :=
    @Machine.guarded_invariant _ _ _ (callStep W) (Fits W) (fun s => Holds s ∧ s.1.pw.we_offs = offs)
      (fun s c hs hfit => ⟨(callStep_holds hs.1 hfit).1, (callStep_holds hs.1 hfit).2.1.trans hs.2⟩) _
      ⟨holds_start offs st vecs, rfl⟩ calls hcalls
  obtain ⟨hholds, -, hnull⟩ := callStep_holds hrun.1 hfit
  refine ⟨fun hflag i hi => ?_, hholds.wordc, hholds.slots, hnull, hholds.free.1, hholds.nodup, hholds.free.2.2.fault⟩
  have hzero : offs = 0 := hrun.2.symm.trans (hfit.1 hflag)
  omega

/-- Two calls, the second of which adds a word. -/
theorem wordexp_ledger_append : (slots (callStep emptyWorld (Machine.run (callStep emptyWorld) (start 0 ⟨0, 0, []⟩ 0)
    [⟨⟨lit "a", by decide⟩, 0⟩]) ⟨⟨lit "b", by decide⟩, WRDE_APPEND⟩).2.1).take 2 =
      [.word ⟨0, lit "a"⟩, .word ⟨1, lit "b"⟩] := by
  have h := (wordexp_ledger emptyWorld 0 ⟨0, 0, []⟩ 0 [⟨⟨lit "a", by decide⟩, 0⟩] ⟨⟨lit "b", by decide⟩, WRDE_APPEND⟩
    ⟨⟨fun hflag => absurd hflag (by decide), .inl rfl⟩,
      ⟨fun hflag => absurd hflag (by decide), .inr (.inl (by decide))⟩, trivial⟩).2.2.1
  have hwords : (callStep emptyWorld (Machine.run (callStep emptyWorld) (start 0 ⟨0, 0, []⟩ 0) [⟨⟨lit "a", by decide⟩,
    0⟩])
      ⟨⟨lit "b", by decide⟩, WRDE_APPEND⟩).2.2 = [⟨0, lit "a"⟩, ⟨1, lit "b"⟩] := by decide +kernel
  rw [hwords] at h
  exact h

/-- With one reserved slot its contents are left as they were, and `wordfree` frees them. -/
theorem wordexp_dooffs : (wordexp emptyWorld (lit "a") WRDE_DOOFFS (start 1 ⟨0, 0, []⟩ 0).1).1 = none ∧
    (slots (wordexp emptyWorld (lit "a") WRDE_DOOFFS (start 1 ⟨0, 0, []⟩ 0).1).2)[0]? = some .junk ∧
    (wordfree (wordexp emptyWorld (lit "a") WRDE_DOOFFS (start 1 ⟨0, 0, []⟩ 0).1).2).fault = true := by decide +kernel

end JACLibc.Wordexp
