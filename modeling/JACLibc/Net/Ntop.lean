import JACLibc.Format.Number
import JACLibc.Lib.Stretch
import JACLibc.Net.Inet
import Mathlib.Data.List.GetD

/-!
# What `inet_ntop` writes

The loop over the words finds the leftmost of the longest runs of zeros (`bestRun_spec`).  The text of an IPv6 address
is then the text of the words in front of that run, `::` and the text of the words behind it, or of all words where no
run has two.
-/

namespace JACLibc.Inet

open Stretch

/-! ### The longest run -/

/-- The zero words from word `i` on. -/
def zeroRun (words : List UInt16) (i : Nat) : Nat := stretch (· = 0) words i

/-- What the loop knows after the words `xs`. -/
structure Runs.Inv (xs : List UInt16) (r : Runs) : Prop where
  curLen_le : r.curLen ≤ xs.length
  reaches : ∀ i ≤ xs.length, zeroRun xs i = xs.length - i ↔ xs.length - r.curLen ≤ i
  curIdx : 0 < r.curLen → r.curIdx = some (xs.length - r.curLen)
  le_best : ∀ i, zeroRun xs i ≤ r.bestLen
  best : 0 < r.bestLen → ∃ k, r.bestIdx = some k ∧ Leftmost (· = 0) xs k r.bestLen

private theorem zeroRun_of_le {xs : List UInt16} {i : Nat} (h : xs.length ≤ i) : zeroRun xs i = 0 := by
  have := stretch_le (· = 0) xs i
  unfold zeroRun
  omega

/-- A zero word makes the runs that reach the end longer by one. -/
private theorem Runs.Inv.zeroRun_zero {xs : List UInt16} {r : Runs} (h : r.Inv xs) (i : Nat) :
    zeroRun (xs ++ [0]) i =
      if xs.length - r.curLen ≤ i ∧ i ≤ xs.length then xs.length - i + 1 else zeroRun xs i := by
  by_cases hi : i ≤ xs.length
  · have hstep := stretch_concat (· = (0 : UInt16)) xs 0 hi
    have hreach := h.reaches i hi
    unfold zeroRun at hreach ⊢
    rw [hstep]
    split
    · rename_i hend
      rw [if_pos ⟨hreach.1 hend.1, hi⟩, hend.1]
    · rename_i hend
      rw [if_neg]
      intro hcur
      exact hend ⟨hreach.2 hcur.1, by simp⟩
  · rw [zeroRun_of_le (by simp; omega), if_neg (by omega), zeroRun_of_le (by omega)]

private theorem zeroRun_nonzero {xs : List UInt16} {x : UInt16} (hx : x ≠ 0) (i : Nat) :
    zeroRun (xs ++ [x]) i = zeroRun xs i := by
  by_cases hi : i ≤ xs.length
  · unfold zeroRun
    rw [stretch_concat (· = 0) xs x hi, if_neg (by simp [hx])]
  · rw [zeroRun_of_le (by simp; omega), zeroRun_of_le (by omega)]

private theorem Runs.Inv.nonzero {xs : List UInt16} {r : Runs} (h : r.Inv xs) {x : UInt16} (hx : x ≠ 0) :
    Runs.Inv (xs ++ [x]) { r with curLen := 0 } := by
  refine ⟨Nat.zero_le _, ?_, fun h0 => absurd h0 (by simp), ?_, ?_⟩
  · intro i hi
    rw [zeroRun_nonzero hx]
    have := stretch_le (· = 0) xs i
    simp only [zeroRun, List.length_append, List.length_singleton] at hi ⊢
    omega
  · intro i
    rw [zeroRun_nonzero hx]
    exact h.le_best i
  · intro hbest
    obtain ⟨k, hk, hleft⟩ := h.best hbest
    refine ⟨k, hk, ?_, ?_, ?_⟩
    · exact (zeroRun_nonzero hx k).trans hleft.here
    · exact fun i => (zeroRun_nonzero hx i).trans_le (hleft.le i)
    · exact fun i hi => (zeroRun_nonzero hx i).trans_lt (hleft.lt i hi)

/-- What a zero word leaves of the invariant whether or not it makes a new longest run. -/
private theorem Runs.Inv.zero_current {xs : List UInt16} {r : Runs} (h : r.Inv xs) {i : Nat}
    (hi : i ≤ (xs ++ [0]).length) :
    zeroRun (xs ++ [0]) i = (xs ++ [0]).length - i ↔ (xs ++ [(0 : UInt16)]).length - (r.curLen + 1) ≤ i := by
  have hle := stretch_le (· = 0) xs i
  have hcur := h.curLen_le
  rw [h.zeroRun_zero]
  simp only [List.length_append, List.length_singleton] at hi ⊢
  unfold zeroRun
  split
  · omega
  · omega

private theorem Runs.Inv.zero {xs : List UInt16} {r : Runs} (h : r.Inv xs) {curIdx : Option Nat}
    (hidx : curIdx = if r.curLen = 0 then some xs.length else r.curIdx) :
    (r.bestLen < r.curLen + 1 → Runs.Inv (xs ++ [0]) ⟨r.curLen + 1, curIdx, r.curLen + 1, curIdx⟩) ∧
    (¬r.bestLen < r.curLen + 1 → Runs.Inv (xs ++ [0]) { r with curLen := r.curLen + 1, curIdx := curIdx }) := by
  have hcur := h.curLen_le
  have hcurIdx : curIdx = some (xs.length - r.curLen) := by
    rw [hidx]
    split
    · rename_i h0
      rw [h0, Nat.sub_zero]
    · exact h.curIdx (by omega)
  have hidx' : curIdx = some ((xs ++ [(0 : UInt16)]).length - (r.curLen + 1)) := by
    rw [hcurIdx, List.length_append, List.length_singleton, Nat.add_sub_add_right]
  have hlen : r.curLen + 1 ≤ (xs ++ [(0 : UInt16)]).length := by
    rw [List.length_append, List.length_singleton]
    omega
  constructor
  · intro hbest
    have hle : ∀ i, zeroRun (xs ++ [0]) i ≤ r.curLen + 1 := by
      intro i
      have := h.le_best i
      rw [h.zeroRun_zero]
      split <;> omega
    refine ⟨hlen, fun i hi => h.zero_current hi, fun _ => hidx', hle, fun _ => ⟨_, hcurIdx, ?_, hle, ?_⟩⟩
    · show zeroRun (xs ++ [0]) _ = r.curLen + 1
      rw [h.zeroRun_zero, if_pos (by omega)]
      omega
    · intro i hi
      have := h.le_best i
      show zeroRun (xs ++ [0]) i < r.curLen + 1
      rw [h.zeroRun_zero, if_neg (by omega)]
      omega
  · intro hbest
    have hle : ∀ i, zeroRun (xs ++ [0]) i ≤ r.bestLen := by
      intro i
      have := h.le_best i
      rw [h.zeroRun_zero]
      split <;> omega
    refine ⟨hlen, fun i hi => h.zero_current hi, fun _ => hidx', hle, fun hpos => ?_⟩
    obtain ⟨k, hk, hleft⟩ := h.best hpos
    -- the longest run so far does not reach the end, or it would have grown
    have hhere : zeroRun xs k = r.bestLen := hleft.here
    have hk' : k < xs.length - r.curLen := by
      have hbound : zeroRun xs k ≤ xs.length - k := stretch_le _ xs k
      omega
    refine ⟨k, hk, ?_, hle, ?_⟩
    · show zeroRun (xs ++ [0]) k = _
      rw [h.zeroRun_zero, if_neg (by omega), hhere]
    · intro i hi
      have : zeroRun xs i < r.bestLen := hleft.lt i hi
      show zeroRun (xs ++ [0]) i < _
      rw [h.zeroRun_zero, if_neg (by omega)]
      exact this

private theorem findRuns_inv {ys : List UInt16} : ∀ {xs : List UInt16} {r : Runs}, r.Inv xs →
    Runs.Inv (xs ++ ys) (findRuns xs.length ys r) := by
  induction ys with
  | nil =>
    intro xs r h
    rw [List.append_nil]
    exact h
  | cons y ys ih =>
    intro xs r h
    have hlen : xs.length + 1 = (xs ++ [y]).length := by simp
    rw [List.append_cons, findRuns]
    by_cases hy : y = 0
    · subst hy
      rw [if_pos rfl]
      obtain ⟨hnew, hold⟩ := h.zero rfl
      simp only [hlen]
      split
      · rename_i hbest
        exact ih (hnew hbest)
      · rename_i hbest
        exact ih (hold hbest)
    · rw [if_neg hy, hlen]
      exact ih (h.nonzero hy)

/-- No run of two zero words, or the leftmost of the longest runs. -/
theorem bestRun_spec (words : List UInt16) :
    ((bestRun words).1 = none ∧ ∀ i, zeroRun words i ≤ 1) ∨
    ∃ k n, bestRun words = (some k, n) ∧ 2 ≤ n ∧ Leftmost (· = 0) words k n := by
  have hinit : Runs.Inv [] ⟨0, none, 0, none⟩ := by
    refine ⟨Nat.le_refl _, ?_, fun h => absurd h (by simp),
      fun i => by simp [zeroRun, stretch], fun h => absurd h (by simp)⟩
    intro i hi
    simp [zeroRun, stretch]
  have h := @findRuns_inv words [] _ hinit
  simp only [List.nil_append, List.length_nil] at h
  unfold bestRun
  generalize findRuns 0 words ⟨0, none, 0, none⟩ = r at h ⊢
  by_cases hlen : r.bestLen < 2
  · left
    refine ⟨if_pos hlen, fun i => ?_⟩
    have := h.le_best i
    omega
  · right
    obtain ⟨k, hk, hleft⟩ := h.best (by omega)
    refine ⟨k, r.bestLen, ?_, by omega, hleft⟩
    simp only [if_neg hlen, hk]

/-! ### Writing the text -/

theorem storeBytes_singleton (mem : Mem) (p : Nat) (b : UInt8) : Function.update mem p b = storeBytes mem p [b] := by
  rw [storeBytes_cons, storeBytes_nil]

/-- What is written last stands. -/
theorem storeBytes_over (mem : Mem) (p : Nat) {old bs : List UInt8} (h : old.length ≤ bs.length) :
    storeBytes (storeBytes mem p old) p bs = storeBytes mem p bs := by
  funext a
  unfold storeBytes
  by_cases hp : p ≤ a
  · simp only [if_pos hp]
    by_cases ha : a - p < bs.length
    · rw [List.getElem?_eq_getElem ha]
      rfl
    · rw [List.getElem?_eq_none (by omega), List.getElem?_eq_none (by omega)]
      rfl
  · simp only [if_neg hp]

/-- The text `t` stands at `dst`, possibly with a NUL behind it, and nothing else has been written. -/
def Wrote (mem0 : Mem) (dst : Nat) (t : List UInt8) (mem : Mem) : Prop :=
  ∃ junk : List UInt8, junk.length ≤ 1 ∧ mem = storeBytes mem0 dst (t ++ junk)

section Wrote

variable {mem0 mem : Mem} {dst : Nat} {t : List UInt8}

theorem Wrote.store (h : Wrote mem0 dst t mem) {bs : List UInt8} (hbs : bs ≠ []) :
    storeBytes mem (dst + t.length) bs = storeBytes mem0 dst (t ++ bs) := by
  obtain ⟨junk, hjunk, rfl⟩ := h
  have hlen := List.length_pos_of_ne_nil hbs
  rw [storeBytes_append, storeBytes_over _ _ (by omega), ← storeBytes_append]

theorem Wrote.last (h : Wrote mem0 dst t mem) {c : UInt8} (hc : t.getLast? = some c) :
    mem (dst + t.length - 1) = c := by
  obtain ⟨junk, -, rfl⟩ := h
  obtain ⟨t, rfl⟩ := List.getLast?_eq_some_iff.1 hc
  simp [storeBytes]

/-- A text and the NUL that `snprintf` puts behind it. -/
theorem Wrote.text (h : Wrote mem0 dst t mem) (bs : List UInt8) :
    Wrote mem0 dst (t ++ bs) (storeBytes mem (dst + t.length) (bs ++ [0])) := by
  refine ⟨[0], Nat.le_refl _, ?_⟩
  rw [h.store (by simp), List.append_assoc]

theorem Wrote.chars (h : Wrote mem0 dst t mem) {bs : List UInt8} (hbs : bs ≠ []) :
    Wrote mem0 dst (t ++ bs) (storeBytes mem (dst + t.length) bs) :=
  ⟨[], Nat.zero_le _, by rw [h.store hbs, List.append_nil]⟩

end Wrote

/-- The text of the word `x`. -/
def hex (x : UInt16) : List UInt8 := numText 16 x.toNat

theorem length_hex_le (x : UInt16) : (hex x).length ≤ 4 :=
  length_numText_le (by decide) (by decide) x.toNat_lt

theorem snprintf_x (mem : Mem) (p : Nat) {n : Nat} (hn : 5 ≤ n) (x : UInt16) :
    snprintf mem p n ⟨lit "%x", by decide⟩ [x.toNat] = some
    (((hex x).length : Int), storeBytes mem p (hex x ++ [0])) := by
  have hlt := x.toNat_lt
  have hlen := length_hex_le x
  have hfull : ∀ w, printfLoop (fun _ => ⟨[], by simp⟩) ((lit "%x").length + 1) w (lit "%x") [BitVec.ofNat 64 x.toNat] =
      some (w.send (hex x)) := by
    intro w
    rw [show lit "%x" = [asc '%', asc 'x'] from rfl]
    rw [show [asc '%', asc 'x'].length + 1 = 1 + 1 + 1 from rfl, printfLoop_x]
    have hval : (vaArg [BitVec.ofNat 64 x.toNat]).1.toNat % 2 ^ 32 = x.toNat := by
      show (BitVec.ofNat 64 x.toNat).toNat % 2 ^ 32 = x.toNat
      rw [BitVec.toNat_ofNat]
      omega
    rw [hval]
    rfl
  unfold snprintf
  rw [List.map_singleton, @vsnprintf_plain _ ⟨lit "%x", by decide⟩ _ _ hfull mem p n (by omega),
    List.take_of_length_le (by omega), wrapInt_of_le (by omega) (by unfold INT_MAX; omega)]

/-- The separator in front of the next word. -/
def separator (t : List UInt8) : List UInt8 := if t ≠ [] ∧ t.getLast? ≠ some (asc ':') then [asc ':'] else []

/-- The text `t` and the words behind it. -/
def wordsText : List UInt8 → List UInt16 → List UInt8
  | t, [] => t
  | t, x :: ws => wordsText (t ++ separator t ++ hex x) ws

/-- The text of an IPv6 address. -/
def addrText (words : List UInt16) : List UInt8 :=
  match bestRun words with
  | (none, _) => wordsText [] words
  | (some k, n) => wordsText (wordsText [] (words.take k) ++ [asc ':', asc ':']) (words.drop (k + n))

section Loop

variable {words : List UInt16} {best : Option Nat × Nat} {dst size fuel i : Nat} {mem0 mem : Mem} {t : List UInt8}
  (hsize : INET6_ADDRSTRLEN ≤ size)
include hsize

/-- One word. -/
private theorem ntopIp6Loop_word (hw : Wrote mem0 dst t mem) (ht : t.length ≤ 5 * i) (hi : i < 8)
    (hbest : best.1 ≠ some i) {x : UInt16} (hx : words.getD i 0 = x) :
    ∃ mem', Wrote mem0 dst (t ++ separator t ++ hex x) mem' ∧
      ntopIp6Loop words best dst size (fuel + 1) i (dst + t.length) mem =
        ntopIp6Loop words best dst size fuel (i + 1) (dst + (t ++ separator t ++ hex x).length) mem' := by
  unfold INET6_ADDRSTRLEN at hsize
  have hsep : (dst + t.length ≠ dst ∧ mem (dst + t.length - 1) ≠ asc ':') ↔ t ≠ [] ∧ t.getLast? ≠ some (asc ':') := by
    cases hlast : t.getLast? with
    | none =>
      rw [List.getLast?_eq_none_iff] at hlast
      simp [hlast]
    | some c =>
      have hne : t ≠ [] := by
        intro h0
        simp [h0] at hlast
      rw [hw.last hlast]
      simp [hne]
  rw [ntopIp6Loop, if_pos hi, if_neg hbest, hx]
  unfold separator
  by_cases hs : t ≠ [] ∧ t.getLast? ≠ some (asc ':')
  · have hcolon : Wrote mem0 dst (t ++ [asc ':']) _ := hw.chars (by simp)
    have hp : dst + t.length + 1 = dst + (t ++ [asc ':']).length := by simp [Nat.add_assoc]
    simp only [if_pos (hsep.2 hs), if_pos hs]
    rw [hp, storeBytes_singleton, snprintf_x _ _ (by simp; omega)]
    refine ⟨_, hcolon.text (hex x), ?_⟩
    simp only [Int.toNat_natCast, List.length_append, Nat.add_assoc]
  · simp only [if_neg fun h => hs (hsep.1 h), if_neg hs, List.append_nil]
    rw [snprintf_x _ _ (by omega)]
    refine ⟨_, hw.text (hex x), ?_⟩
    simp only [Int.toNat_natCast, List.length_append, Nat.add_assoc]

/-- Words that the run does not start in. -/
private theorem ntopIp6Loop_words {ws : List UInt16} : ∀ {i : Nat} {mem : Mem} {t : List UInt8},
    Wrote mem0 dst t mem → t.length ≤ 5 * i → i + ws.length ≤ 8 → (∀ j < ws.length, best.1 ≠ some (i + j)) →
    (∀ j (hj : j < ws.length), words.getD (i + j) 0 = ws[j]) →
    ∃ mem', Wrote mem0 dst (wordsText t ws) mem' ∧ (wordsText t ws).length ≤ 5 * (i + ws.length) ∧
      ntopIp6Loop words best dst size (fuel + ws.length) i (dst + t.length) mem =
        ntopIp6Loop words best dst size fuel (i + ws.length) (dst + (wordsText t ws).length) mem' := by
  induction ws with
  | nil =>
    intro i mem t hw ht hi hbest hws
    exact ⟨mem, hw, ht, rfl⟩
  | cons x ws ih =>
    intro i mem t hw ht hi hbest hws
    rw [List.length_cons] at hi
    have hx : words.getD i 0 = x := hws 0 (by simp)
    obtain ⟨mem₁, hw₁, hstep⟩ := @ntopIp6Loop_word words best dst size (fuel + ws.length) i mem0 mem t hsize hw ht
      (by omega) (hbest 0 (by simp)) x hx
    have hlen : (t ++ separator t ++ hex x).length ≤ 5 * (i + 1) := by
      have hhex := length_hex_le x
      have hsep : (separator t).length ≤ 1 := by
        unfold separator
        split <;> simp
      simp only [List.length_append]
      omega
    obtain ⟨mem₂, hw₂, hlen₂, hrest⟩ := ih hw₁ hlen (by omega)
      (fun j hj => by rw [show i + 1 + j = i + (j + 1) by omega]; exact hbest (j + 1) (by simpa using hj))
      (fun j hj => by rw [show i + 1 + j = i + (j + 1) by omega]; exact hws (j + 1) (by simpa using hj))
    have hcount : i + 1 + ws.length = i + (x :: ws).length := by
      rw [List.length_cons]
      omega
    refine ⟨mem₂, hw₂, by rw [← hcount]; exact hlen₂, ?_⟩
    rw [List.length_cons, ← Nat.add_assoc, hstep]
    rw [hrest, hcount, List.length_cons, wordsText]

end Loop

/-- Behind the last word. -/
private theorem ntopIp6Loop_end (words : List UInt16) (best : Option Nat × Nat) (dst size fuel p : Nat) (mem : Mem) :
    ntopIp6Loop words best dst size (fuel + 1) 8 p mem = some (p, mem) := by
  rw [ntopIp6Loop, if_neg (by decide)]

private theorem getD_take {words : List UInt16} {k : Nat} (j : Nat) (hj : j < (words.take k).length) :
    words.getD (0 + j) 0 = (words.take k)[j] := by
  rw [List.length_take] at hj
  rw [Nat.zero_add, List.getElem_take, List.getD_eq_getElem _ _ (by omega)]

private theorem getD_drop {words : List UInt16} {k : Nat} (j : Nat) (hj : j < (words.drop k).length) :
    words.getD (k + j) 0 = (words.drop k)[j] := by
  rw [List.length_drop] at hj
  rw [List.getElem_drop, List.getD_eq_getElem _ _ (by omega)]

/-- The writing loop leaves the text of the address, which has at most 40 characters. -/
private theorem ntopIp6Loop_text {words : List UInt16} (hwords : words.length = 8) {size : Nat}
    (hsize : INET6_ADDRSTRLEN ≤ size) (dst : Nat) (mem : Mem) :
    ∃ mem', Wrote mem dst (addrText words) mem' ∧ (addrText words).length ≤ 40 ∧
      ntopIp6Loop words (bestRun words) dst size 9 0 dst mem = some (dst + (addrText words).length, mem') := by
  have hstart : Wrote mem dst [] mem := ⟨[], by simp, by simp⟩
  unfold addrText
  rcases bestRun_spec words with ⟨hnone, -⟩ | ⟨k, n, hbest, hn, hleft⟩
  · obtain ⟨mem', hw, hlen, hloop⟩ :=
      @ntopIp6Loop_words words (bestRun words) dst size 1 mem hsize (words.take 8) 0 mem []
      hstart (by simp) (by simp [hwords]) (fun j hj => by simp [hnone]) getD_take
    rw [List.take_of_length_le hwords.le, hwords] at hlen hloop
    rw [List.take_of_length_le hwords.le] at hw
    rw [show bestRun words = (none, (bestRun words).2) from Prod.ext hnone rfl] at hloop ⊢
    exact ⟨mem', hw, hlen, hloop.trans (ntopIp6Loop_end _ _ _ _ _ _ _)⟩
  · have hfits : k + n ≤ 8 := by
      have := stretch_le (· = 0) words k
      have := hleft.here
      omega
    have htake : (words.take k).length = k := by
      rw [List.length_take]
      omega
    rw [hbest]
    obtain ⟨mem₁, hw₁, hlen₁, hloop₁⟩ := @ntopIp6Loop_words words (some k, n) dst size (8 - k + 1) mem hsize
      (words.take k) 0 mem [] hstart (by simp) (by omega)
      (fun j hj => by simp only [ne_eq, Option.some.injEq]; omega) getD_take
    rw [htake, Nat.zero_add] at hlen₁ hloop₁
    -- the two colons, and the words behind the run
    have hgap : Wrote mem dst (wordsText [] (words.take k) ++ [asc ':', asc ':']) _ := hw₁.chars (by simp)
    have hcolons : ∀ (m : Mem) (p : Nat), Function.update (Function.update m p (asc ':')) (p + 1) (asc ':') =
        storeBytes m p [asc ':', asc ':'] := by
      intro m p
      rw [storeBytes_cons, ← storeBytes_singleton]
    have hdrop : (words.drop (k + n)).length = 8 - (k + n) := by rw [List.length_drop, hwords]
    obtain ⟨mem₂, hw₂, hlen₂, hloop₂⟩ := @ntopIp6Loop_words words (some k, n) dst size n mem hsize
      (words.drop (k + n)) (k + n) _ _ hgap
        (by simp only [List.length_append, List.length_cons, List.length_nil]; omega)
      (by omega) (fun j hj => by simp only [ne_eq, Option.some.injEq]; omega) getD_drop
    rw [hdrop, show k + n + (8 - (k + n)) = 8 by omega] at hlen₂ hloop₂
    refine ⟨mem₂, hw₂, hlen₂, ?_⟩
    rw [show (9 : Nat) = 8 - k + 1 + k by omega]
    refine hloop₁.trans ?_
    rw [ntopIp6Loop, if_pos (by omega), if_pos rfl, hcolons, show 8 - k = n + (8 - (k + n)) by omega]
    rw [List.length_append, ← Nat.add_assoc] at hloop₂
    refine hloop₂.trans ?_
    obtain ⟨m, rfl⟩ : ∃ m, n = m + 1 := ⟨n - 1, by omega⟩
    exact ntopIp6Loop_end _ _ _ _ _ _ _

theorem ntopIp6_text (b : Mem) (dst : Nat) {size : Nat} (hsize : INET6_ADDRSTRLEN ≤ size) (mem : Mem) :
    (addrText (wordsOf b)).length ≤ 40 ∧
      ntopIp6 b dst size mem = some (some dst, storeBytes mem dst (addrText (wordsOf b) ++ [0])) := by
  have hwords : (wordsOf b).length = 8 := by simp [wordsOf]
  obtain ⟨mem', hw, hlen, hloop⟩ := ntopIp6Loop_text hwords hsize dst mem
  refine ⟨hlen, ?_⟩
  simp only [ntopIp6, if_neg (Nat.not_lt.2 hsize), hloop, Option.map_some]
  rw [storeBytes_singleton, hw.store (by simp)]

/-! ### IPv4 -/

/-- The text of a byte. -/
def dec (x : UInt8) : List UInt8 := numText 10 x.toNat

theorem length_dec_le (x : UInt8) : (dec x).length ≤ 3 := by
  have hlt := x.toNat_lt
  exact length_numText_le (by decide) (by decide) (by omega)

/-- The text of an IPv4 address. -/
def quadText (b : Mem) : List UInt8 :=
  dec (b 0) ++ asc '.' :: (dec (b 1) ++ asc '.' :: (dec (b 2) ++ asc '.' :: dec (b 3)))

theorem length_quadText_le (b : Mem) : (quadText b).length ≤ 15 := by
  have h0 := length_dec_le (b 0)
  have h1 := length_dec_le (b 1)
  have h2 := length_dec_le (b 2)
  have h3 := length_dec_le (b 3)
  simp only [quadText, List.length_append, List.length_cons]
  omega

private theorem vaArg_byte (x : UInt8) (ap : VaList) :
    (vaArg (BitVec.ofNat 64 x.toNat :: ap)).1.toNat % 2 ^ 32 = x.toNat := by
  have hlt := x.toNat_lt
  show (BitVec.ofNat 64 x.toNat).toNat % 2 ^ 32 = x.toNat
  rw [BitVec.toNat_ofNat]
  omega

theorem ntopIp4_text (b : Mem) (dst : Nat) {size : Nat} (hsize : INET_ADDRSTRLEN ≤ size) (mem : Mem) :
    ntopIp4 b dst size mem = some (some dst, storeBytes mem dst (quadText b ++ [0])) := by
  have hlen := length_quadText_le b
  have hfull : ∀ w, printfLoop (fun _ => ⟨[], by simp⟩) ((lit "%u.%u.%u.%u").length + 1) w (lit "%u.%u.%u.%u")
      ([(b 0).toNat, (b 1).toNat, (b 2).toNat, (b 3).toNat].map (BitVec.ofNat 64)) = some (w.send (quadText b)) := by
    intro w
    have hdot : asc '.' ≠ asc '%' := by decide
    rw [show lit "%u.%u.%u.%u" = [asc '%', asc 'u', asc '.', asc '%', asc 'u', asc '.', asc '%', asc 'u', asc '.',
      asc '%', asc 'u'] from rfl]
    simp only [List.length_cons, List.length_nil, List.map_cons, List.map_nil]
    rw [printfLoop_u, printfLoop_literal _ _ _ _ _ hdot, printfLoop_u, printfLoop_literal _ _ _ _ _ hdot, printfLoop_u,
      printfLoop_literal _ _ _ _ _ hdot, printfLoop_u]
    simp only [List.tail_cons, vaArg_byte, send_send]
    simp [printfLoop, quadText, dec]
  have hprint := @vsnprintf_plain _ ⟨lit "%u.%u.%u.%u", by decide⟩ _ _ hfull mem dst size
    (by unfold INET_ADDRSTRLEN at hsize; omega)
  unfold INET_ADDRSTRLEN at hsize
  rw [List.take_of_length_le (by omega)] at hprint
  rw [ntopIp4, if_neg (by unfold INET_ADDRSTRLEN; omega), snprintf, hprint]
  rfl

end JACLibc.Inet
