import JACLibc.Wordexp.Vector

/-!
# `WRDE_NOCMD`

A call with `WRDE_NOCMD` is compared with the same call without it (`Guards`): up to the first command substitution
they do the same, and there the one with the flag ends with `WRDE_CMDSUB`.
-/

namespace JACLibc.Wordexp

variable (W : World)

/-- A run that comes to no command substitution and runs nothing. -/
def Quiet {α : Type} (x : Run α) : Prop := ∀ s, (x s).2.scans = s.scans ∧ (x s).2.ran = s.ran

/-- The run `x'` does what `x` does as long as that comes to no command substitution, and ends with `WRDE_CMDSUB`
where it does. -/
def Guards {α : Type} (x' x : Run α) : Prop :=
  ∀ s, s.scans ≤ (x s).2.scans ∧ ((x s).2.scans = s.scans → x' s = x s ∧ (x s).2.ran = s.ran) ∧
    ((x s).2.scans ≠ s.scans → ∃ s', x' s = (.error .WRDE_CMDSUB, s') ∧ s'.ran = s.ran)

section

variable {α β : Type} {x x' : Run α} {f f' : α → Run β}

theorem Quiet.guards (h : Quiet x) : Guards x x :=
  fun s => ⟨(h s).1.ge, fun _ => ⟨rfl, (h s).2⟩, fun hne => absurd (h s).1 hne⟩

theorem Quiet.pure (a : α) : Quiet (pure a : Run α) := fun _ => ⟨rfl, rfl⟩

theorem Quiet.fail (e : Err) : Quiet (Run.fail e : Run α) := fun _ => ⟨rfl, rfl⟩

theorem Quiet.bind (hx : Quiet x) (hf : ∀ a, Quiet (f a)) : Quiet (x >>= f) := by
  intro s
  obtain ⟨hscans, hran⟩ := hx s
  rcases h : x s with ⟨_ | a, s₁⟩
  · rw [h] at hscans hran
    rw [Run.bind_error h]
    exact ⟨hscans, hran⟩
  · rw [h] at hscans hran
    rw [Run.bind_ok h]
    exact ⟨(hf a s₁).1.trans hscans, (hf a s₁).2.trans hran⟩

theorem Guards.bind (hx : Guards x' x) (hf : ∀ a, Guards (f' a) (f a)) : Guards (x' >>= f') (x >>= f) := by
  intro s
  obtain ⟨hle, hsame, hcmd⟩ := hx s
  rcases h : x s with ⟨e | a, s₁⟩
  · rw [h] at hle hsame hcmd
    rw [Run.bind_error h]
    refine ⟨hle, fun heq => ?_, fun hne => ?_⟩
    · rw [Run.bind_error (hsame heq).1]
      exact ⟨rfl, (hsame heq).2⟩
    · obtain ⟨s', hs', hran⟩ := hcmd hne
      exact ⟨s', Run.bind_error hs', hran⟩
  · rw [h] at hle hsame hcmd
    rw [Run.bind_ok h]
    obtain ⟨hle', hsame', hcmd'⟩ := hf a s₁
    refine ⟨hle.trans hle', fun heq => ?_, fun hne => ?_⟩
    · have heq₁ : s₁.scans = s.scans := le_antisymm (hle'.trans_eq heq) hle
      rw [Run.bind_ok (hsame heq₁).1]
      obtain ⟨hrun, hran⟩ := hsame' (heq.trans heq₁.symm)
      exact ⟨hrun, hran.trans (hsame heq₁).2⟩
    · by_cases heq₁ : s₁.scans = s.scans
      · obtain ⟨hrun, hran⟩ := hsame heq₁
        obtain ⟨s', hs', hran'⟩ := hcmd' (heq₁ ▸ hne)
        rw [Run.bind_ok hrun]
        exact ⟨s', hs', hran'.trans hran⟩
      · obtain ⟨s', hs', hran⟩ := hcmd heq₁
        exact ⟨s', Run.bind_error hs', hran⟩

end

/-! ### The buffer and the scanners -/

theorem quiet_request : Quiet (request W) := fun _ => ⟨rfl, rfl⟩

theorem quiet_bufPut (b : Buf) (c : UInt8) : Quiet (bufPut W b c) := by
  unfold bufPut
  split
  · exact (quiet_request W).bind fun _ => .pure _
  · exact .pure _

theorem quiet_bufStr (b : Buf) (s : List UInt8) : Quiet (bufStr W b s) := by
  induction s generalizing b with
  | nil => exact .pure b
  | cons c s ih => exact (quiet_bufPut W b c).bind ih

theorem quiet_scanTilde (b : Buf) : Quiet (scanTilde W b) := by
  unfold scanTilde
  split
  · exact quiet_bufStr W b _
  · exact quiet_bufPut W b _

theorem quiet_varValue (flags : BitVec 32) (b : Buf) (var : List UInt8) : Quiet (varValue W flags b var) := by
  unfold varValue
  split
  · exact quiet_bufPut W b _
  · split
    · exact quiet_bufStr W b _
    · split
      · exact .fail _
      · exact .pure b

theorem quiet_bufInit : Quiet (bufInit W) := (quiet_request W).bind fun _ => .pure _

theorem quiet_readOutput (b : Buf) (pieces : List (List UInt8)) : Quiet (readOutput W b pieces) := by
  induction pieces generalizing b with
  | nil => exact .pure b
  | cons piece pieces ih => exact (quiet_bufStr W b _).bind ih

/-- Commands change the list of commands, but not the count of the scanner. -/
def KeepsScans {α : Type} (x : Run α) : Prop := ∀ s, (x s).2.scans = s.scans

theorem Quiet.keepsScans {α : Type} {x : Run α} (h : Quiet x) : KeepsScans x := fun s => (h s).1

theorem KeepsScans.bind {α β : Type} {x : Run α} {f : α → Run β} (hx : KeepsScans x) (hf : ∀ a, KeepsScans (f a)) :
    KeepsScans (x >>= f) := by
  intro s
  have hscans := hx s
  rcases h : x s with ⟨_ | a, s₁⟩
  · rw [h] at hscans
    rw [Run.bind_error h]
    exact hscans
  · rw [h] at hscans
    rw [Run.bind_ok h]
    exact (hf a s₁).trans hscans

theorem keepsScans_execCmd (cmd : List UInt8) (b : Buf) : KeepsScans (execCmd W cmd b) := by
  unfold execCmd
  split
  · exact (Quiet.pure b).keepsScans
  · have hpopen : KeepsScans (popen W cmd) := fun _ => rfl
    refine hpopen.bind fun out => ?_
    cases out with
    | none => exact (Quiet.pure b).keepsScans
    | some out => exact (quiet_readOutput W b _).keepsScans

theorem keepsScans_runCmd {c : UInt8} {p : List UInt8} (b : Buf) (found : Option (List UInt8 × After (c :: p))) :
    KeepsScans (runCmd W b found) := by
  rcases found with _ | ⟨cmd, r⟩
  · exact (Quiet.fail _).keepsScans
  · exact (quiet_request W).keepsScans.bind fun _ => (keepsScans_execCmd W cmd b).bind fun _ =>
      (Quiet.pure _).keepsScans

/-- The scanner for commands counts itself, once. -/
theorem scanCmd_scans (flags : BitVec 32) (b : Buf) (c : UInt8) (p : List UInt8) (s : St) :
    (scanCmd W flags b c p s).2.scans = s.scans + 1 := by
  unfold scanCmd
  rw [Run.bind_ok (show enterScan s = (.ok (), { s with scans := s.scans + 1 }) from rfl)]
  split
  · rfl
  · exact keepsScans_runCmd W b _ _

section

variable {flags : BitVec 32}

/-- The same flags without `WRDE_NOCMD`. -/
def cmdFlags (flags : BitVec 32) : BitVec 32 := flags &&& ~~~WRDE_NOCMD

theorem hasFlag_cmdFlags {f : BitVec 32} (hf : ~~~WRDE_NOCMD &&& f = f) : HasFlag (cmdFlags flags) f ↔
    HasFlag flags f := by
  unfold HasFlag cmdFlags
  rw [BitVec.and_assoc, hf]

theorem guards_varValue (b : Buf) (var : List UInt8) :
    Guards (varValue W flags b var) (varValue W (cmdFlags flags) b var) := by
  have heq : varValue W (cmdFlags flags) b var = varValue W flags b var := by
    unfold varValue
    simp only [hasFlag_cmdFlags (f := WRDE_UNDEF) (by decide)]
  rw [heq]
  exact (quiet_varValue W flags b var).guards

theorem guards_scanVar (b : Buf) (p : List UInt8) : Guards (scanVar W flags b p) (scanVar W (cmdFlags flags) b p) := by
  rcases p with _ | ⟨c, p⟩
  · exact (Quiet.fail _).guards
  · exact (guards_varValue W b _).bind fun _ => (Quiet.pure _).guards

theorem guards_scanCmd (h : HasFlag flags WRDE_NOCMD) (b : Buf) (c : UInt8) (p : List UInt8) :
    Guards (scanCmd W flags b c p) (scanCmd W (cmdFlags flags) b c p) := by
  intro s
  rw [scanCmd_scans]
  refine ⟨Nat.le_succ _, fun heq => absurd heq (Nat.succ_ne_self _), fun _ => ⟨{ s with scans := s.scans + 1 }, ?_,
    rfl⟩⟩
  unfold scanCmd
  rw [Run.bind_ok (show enterScan s = (.ok (), { s with scans := s.scans + 1 }) from rfl), if_pos h]
  rfl

theorem guards_step (h : HasFlag flags WRDE_NOCMD) (q : UInt8) (b : Buf) (c : UInt8) (p : List UInt8) :
    Guards (step W flags q b c p) (step W (cmdFlags flags) q b c p) := by
  have hput : ∀ c, Guards (bufPut W b c) (bufPut W b c) := fun c => (quiet_bufPut W b c).guards
  have hpure : ∀ {α : Type} (a : α), Guards (pure a) (pure a) := fun a => (Quiet.pure a).guards
  have hfail : ∀ {α : Type} (e : Err), Guards (Run.fail e : Run α) (Run.fail e) := fun e => (Quiet.fail e).guards
  unfold step
  split_ifs
  · exact hpure _
  · rcases p with _ | ⟨d, p⟩
    · exact hfail _
    · dsimp only
      split_ifs
      · exact (guards_scanCmd W h b d p).bind fun _ => hpure _
      · exact (guards_scanVar W b (d :: p)).bind fun _ => hpure _
  · exact (hput c).bind fun _ => hpure _
  · rcases p with _ | ⟨d, p⟩
    · exact hfail _
    · exact (hput d).bind fun _ => hpure _
  · exact hpure _
  · exact hfail _
  · exact (quiet_scanTilde W b).guards.bind fun _ => hpure _
  · exact (guards_scanCmd W h b c p).bind fun _ => hpure _
  · exact (guards_scanVar W b (c :: p)).bind fun _ => hpure _
  · exact (hput c).bind fun _ => hpure _

theorem guards_parseLoop (h : HasFlag flags WRDE_NOCMD) (q : UInt8) (b : Buf) (p : List UInt8) :
    Guards (parseLoop W flags q b p) (parseLoop W (cmdFlags flags) q b p) := by
  obtain ⟨n, hn⟩ : ∃ n, p.length < n := ⟨_, Nat.lt_succ_self _⟩
  induction n generalizing q b p with
  | zero => exact absurd hn (Nat.not_lt_zero _)
  | succ n ih =>
    rcases p with _ | ⟨c, p⟩
    · rw [parseLoop, parseLoop]
      split
      · exact (Quiet.fail _).guards
      · exact (quiet_bufPut W b 0).guards.bind fun _ => (Quiet.pure _).guards
    · rw [parseLoop, parseLoop]
      split
      · exact (quiet_bufPut W b 0).guards.bind fun _ => (Quiet.pure _).guards
      · refine (guards_step W h q b c p).bind fun r => ?_
        exact (ih r.1 r.2.1 r.2.2.1 (r.2.2.2.trans_le (Nat.le_of_lt_succ hn))).bind fun _ => (Quiet.pure _).guards

theorem guards_parseWord (h : HasFlag flags WRDE_NOCMD) (p : List UInt8) :
    Guards (parseWord W flags p) (parseWord W (cmdFlags flags) p) :=
  (quiet_bufInit W).guards.bind fun b => guards_parseLoop W h 0 b p

/-! ### The loop over the words -/

theorem guards_wordsLoop (h : HasFlag flags WRDE_NOCMD) (v : List Slot) (idx n : ℕ) (p : List UInt8) (s : St) :
    s.scans ≤ (wordsLoop W (cmdFlags flags) v idx n p s).st.scans ∧
      ((wordsLoop W (cmdFlags flags) v idx n p s).st.scans = s.scans →
        wordsLoop W flags v idx n p s = wordsLoop W (cmdFlags flags) v idx n p s ∧
          (wordsLoop W (cmdFlags flags) v idx n p s).st.ran = s.ran) ∧
      ((wordsLoop W (cmdFlags flags) v idx n p s).st.scans ≠ s.scans →
        (wordsLoop W flags v idx n p s).err = some .WRDE_CMDSUB ∧ (wordsLoop W flags v idx n p s).st.ran = s.ran) := by
  obtain ⟨k, hk⟩ : ∃ k, p.length < k := ⟨_, Nat.lt_succ_self _⟩
  induction k generalizing v idx n p s with
  | zero => exact absurd hk (Nat.not_lt_zero _)
  | succ k ih =>
    rw [wordsLoop.eq_def W flags, wordsLoop.eq_def W (cmdFlags flags)]
    split
    · exact ⟨Nat.le_refl _, fun _ => ⟨rfl, rfl⟩, fun hne => absurd rfl hne⟩
    · rename_i c p' hp
      obtain ⟨hle, hsame, hcmd⟩ := guards_parseWord W h (c :: p') s
      rcases hx : parseWord W (cmdFlags flags) (c :: p') s with ⟨e | ⟨w, r⟩, s₁⟩
      · rw [hx] at hle hsame hcmd
        refine ⟨hle, fun heq => ?_, fun hne => ?_⟩
        · rw [(hsame heq).1]
          exact ⟨rfl, (hsame heq).2⟩
        · obtain ⟨s', hs', hran⟩ := hcmd hne
          rw [hs']
          exact ⟨rfl, hran⟩
      · rw [hx] at hle hsame hcmd
        -- the rest of the words are fewer
        have hlen : r.1.length < k := by
          have hdrop : (c :: p').length ≤ p.length := hp ▸ List.length_dropWhile_le _ _
          have hc : isBlank c = false := by
            have hne : p.dropWhile isBlank ≠ [] := by rw [hp]; exact List.cons_ne_nil c p'
            simpa [hp] using List.head_dropWhile_not isBlank hne
          have := r.2.2 ⟨c, rfl, fun _ => hc⟩
          omega
        by_cases heq₁ : s₁.scans = s.scans
        · obtain ⟨hrun, hran⟩ := hsame heq₁
          rw [hrun]
          dsimp only
          dsimp only at hran
          split_ifs
          · rw [← heq₁, ← hran]
            exact ih _ _ _ _ _ hlen
          · exact ⟨heq₁.ge, fun _ => ⟨rfl, hran⟩, fun hne => absurd heq₁ hne⟩
          · rw [← heq₁, ← hran]
            exact ih _ _ _ _ _ hlen
        · obtain ⟨s', hs', hran⟩ := hcmd heq₁
          rw [hs']
          dsimp only at hle ⊢
          have hlt : s.scans < s₁.scans := lt_of_le_of_ne hle (Ne.symm heq₁)
          split_ifs
          · have := (ih (store (clear (resize v (v.length * 2)) idx) idx w) (idx + 1) (n + 1) r.1 s₁ hlen).1
            exact ⟨by omega, fun heq => by omega, fun _ => ⟨rfl, hran⟩⟩
          · exact ⟨hle, fun heq => absurd heq heq₁, fun _ => ⟨rfl, hran⟩⟩
          · have := (ih (store v idx w) (idx + 1) n r.1 s₁ hlen).1
            exact ⟨by omega, fun heq => by omega, fun _ => ⟨rfl, hran⟩⟩

/-- With `WRDE_NOCMD` no command is run.  The call ends with `WRDE_CMDSUB` if it comes to a command substitution, also
where that would run without the flag; and otherwise it does what the call without the flag does. -/
theorem wordexp_nocmd (h : HasFlag flags WRDE_NOCMD) (words : List UInt8) (m : Mach) :
    (wordexp W words flags m).2.st.ran = m.st.ran ∧
      ((wordexp W words flags m).2.st.scans ≠ m.st.scans → (wordexp W words flags m).1 = some .WRDE_CMDSUB) ∧
      ((wordexp W words (cmdFlags flags) m).2.st.scans ≠ m.st.scans → (wordexp W words flags m).1 = some .WRDE_CMDSUB) ∧
      ((wordexp W words (cmdFlags flags) m).2.st.scans = m.st.scans →
        wordexp W words flags m = wordexp W words (cmdFlags flags) m ∧ (wordexp W words (cmdFlags flags) m).2.st.ran =
        m.st.ran) := by
  unfold wordexp
  simp only [hasFlag_cmdFlags (f := WRDE_REUSE) (by decide), hasFlag_cmdFlags (f := WRDE_DOOFFS) (by decide),
    hasFlag_cmdFlags (f := WRDE_APPEND) (by decide)]
  have hst : (if HasFlag flags WRDE_REUSE then wordfree m else m).st = m.st := by
    split
    · exact wordfree_st m
    · rfl
  generalize (if HasFlag flags WRDE_REUSE then wordfree m else m) = m' at hst ⊢
  generalize (if HasFlag flags WRDE_DOOFFS then m'.pw.we_offs else 0) = off
  generalize (if HasFlag flags WRDE_APPEND ∧ off < m'.pw.we_wordc then m'.pw.we_wordc else off) = idx
  split
  · obtain ⟨-, hsame, hcmd⟩ :=
      guards_wordsLoop W h (clear (resize (m'.pw.we_wordv.getD []) (idx + 16)) idx) idx (m'.vecs + 1) words m'.st
    rw [hst] at hsame hcmd ⊢
    dsimp only
    by_cases heq : (wordsLoop W (cmdFlags flags) (clear (resize (m'.pw.we_wordv.getD []) (idx + 16)) idx) idx
      (m'.vecs + 1) words
        m.st).st.scans = m.st.scans
    · obtain ⟨hrun, hran⟩ := hsame heq
      rw [hrun]
      exact ⟨hran, fun hne => absurd heq hne, fun hne => absurd heq hne, fun _ => ⟨rfl, hran⟩⟩
    · obtain ⟨herr, hran⟩ := hcmd heq
      exact ⟨hran, fun _ => herr, fun _ => herr, fun h' => absurd h' heq⟩
  · exact ⟨by rw [← hst], fun hne => absurd (by rw [← hst]) hne, fun hne => absurd (by rw [← hst]) hne,
      fun _ => ⟨rfl, by rw [← hst]⟩⟩

theorem wordexp_nocmd_substitution : (wordexp emptyWorld (lit "a $(date)") WRDE_NOCMD zeroed).2.st.ran = [] ∧
    (wordexp emptyWorld (lit "a $(date)") WRDE_NOCMD zeroed).1 = some .WRDE_CMDSUB :=
  have h := wordexp_nocmd emptyWorld (show HasFlag WRDE_NOCMD WRDE_NOCMD by decide) (lit "a $(date)") zeroed
  ⟨h.1, h.2.1 (by decide +kernel)⟩

end

end JACLibc.Wordexp
