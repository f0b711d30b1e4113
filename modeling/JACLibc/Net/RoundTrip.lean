import JACLibc.Lib.Bytes
import JACLibc.Net.Ntop
import JACLibc.Net.Pton

/-!
# The text of an address, read back

The text that `inet_ntop` writes has a layout of its own (`reads_addrText`): its words, with a gap where the longest
run of zeros was.  Together with what `inet_pton` does on a layout this tells which addresses come back.
-/

namespace JACLibc.Inet

/-! ### Layouts of printed texts -/

private theorem hex_chars {x : UInt16} {c : UInt8} (hc : c ∈ hex x) :
    isxdigit c = true ∧ c ≠ asc ':' ∧ c ≠ asc '.' ∧ c ≠ 0 := by
  obtain ⟨d, hd, rfl⟩ := mem_numText (by decide) hc
  clear hc
  revert d
  decide

private theorem hex_ne_nil (x : UInt16) : hex x ≠ [] := numText_ne_nil _ _

/-- The words each behind a colon. -/
def tailText (ws : List UInt16) : List UInt8 := ws.flatMap fun x => asc ':' :: hex x

/-- The words with colons between them. -/
def headText : List UInt16 → List UInt8
  | [] => []
  | x :: ws => hex x ++ tailText ws

private theorem getLast_hex (t : List UInt8) (x : UInt16) : (t ++ hex x).getLast? ≠ some (asc ':') := by
  intro h
  rw [List.getLast?_append_of_ne_nil t (hex_ne_nil x)] at h
  exact (hex_chars (List.mem_of_getLast? h)).2.1 rfl

private theorem wordsText_behind {ws : List UInt16} : ∀ {t : List UInt8}, t ≠ [] → t.getLast? ≠ some (asc ':') →
    wordsText t ws = t ++ tailText ws := by
  induction ws with
  | nil =>
    intro t _ _
    simp [wordsText, tailText]
  | cons x ws ih =>
    intro t ht hlast
    rw [wordsText, separator, if_pos ⟨ht, hlast⟩, ih (by simp) (getLast_hex _ x)]
    simp [tailText]

private theorem wordsText_front {ws : List UInt16} {t : List UInt8} (ht : t = [] ∨ t.getLast? = some (asc ':')) :
    wordsText t ws = t ++ headText ws := by
  cases ws with
  | nil => simp [wordsText, headText]
  | cons x ws =>
    have hsep : separator t = [] := by
      rw [separator, if_neg]
      rintro ⟨h0, hlast⟩
      rcases ht with ht | ht
      · exact h0 ht
      · exact hlast ht
    rw [wordsText, hsep, List.append_nil, wordsText_behind (by simp [hex_ne_nil]) (getLast_hex _ x), headText,
      List.append_assoc]

/-- What may follow a word in a printed text. -/
structure Continues (rest : List UInt8) : Prop where
  colon : ∀ c ∈ rest.head?, c = asc ':'
  noDot : asc '.' ∉ rest

private theorem Continues.endsNumber {rest : List UInt8} (h : Continues rest) : EndsNumber 16 rest := by
  intro c hc
  obtain rfl := h.colon c hc
  decide

private theorem Reads.hex {rest : List UInt8} {l : Layout} (h : Reads rest l) (hrest : Continues rest) (x : UInt16) :
    Reads (hex x ++ rest) (.word x l) := by
  have hlt := x.toNat_lt
  obtain ⟨c, cs, hcs⟩ := List.exists_cons_of_ne_nil (numText_ne_nil 16 x.toNat)
  have hread := @strtoul_numText 16 x.toNat (by decide) (by decide) (by unfold UINTMAX_MAX; omega) rest hrest.endsNumber
  have hchars := fun y (hy : y ∈ Inet.hex x) => hex_chars hy
  unfold Inet.hex at hchars ⊢
  have hdrop : (numText 16 x.toNat ++ rest).drop (strtoul (numText 16 x.toNat ++ rest) 16).endptr = rest := by
    rw [hread, List.drop_left]
  have hval : (strtoul (numText 16 x.toNat ++ rest) 16).val = x.toNat := by rw [hread]
  rw [hcs] at hchars hdrop hval ⊢
  have hword : Reads (c :: (cs ++ rest)) (.word (strtoul (c :: cs ++ rest) 16).val.toUInt16 l) := by
    refine .word (hchars c (by simp)).1 ?_ ?_ ?_
    · rintro ⟨-, hdot⟩
      rw [← List.cons_append, List.mem_append] at hdot
      rcases hdot with hdot | hdot
      · exact (hchars _ hdot).2.2.1 rfl
      · exact hrest.noDot hdot
    · rw [← List.cons_append, hval]
      omega
    · rw [← List.cons_append, hdrop]
      exact h
  rw [hval] at hword
  simpa using hword

private theorem noDot_tailText (ws : List UInt16) : asc '.' ∉ tailText ws := by
  intro h
  obtain ⟨x, -, hx⟩ := List.mem_flatMap.1 h
  rcases List.mem_cons.1 hx with hx | hx
  · exact absurd hx (by decide)
  · exact (hex_chars hx).2.2.1 rfl

private theorem Continues.tail {rest : List UInt8} (h : Continues rest) (ws : List UInt16) :
    Continues (tailText ws ++ rest) := by
  constructor
  · intro c hc
    cases ws with
    | nil => exact h.colon c hc
    | cons x ws =>
      simp only [tailText, List.flatMap_cons, List.cons_append, List.head?_cons, Option.mem_def, Option.some.injEq]
        at hc
      exact hc.symm
  · rw [List.mem_append, not_or]
    exact ⟨noDot_tailText ws, h.noDot⟩

private theorem Reads.tail {rest : List UInt8} {l : Layout} (h : Reads rest l) (hrest : Continues rest)
    (ws : List UInt16) :
    Reads (tailText ws ++ rest) (.words ws l) := by
  induction ws with
  | nil => exact h
  | cons x ws ih =>
    have hword := ih.hex (hrest.tail ws) x
    have hnext : deref (Inet.hex x ++ (tailText ws ++ rest)) ≠ asc ':' := by
      obtain ⟨c, cs, hcs⟩ := List.exists_cons_of_ne_nil (hex_ne_nil x)
      rw [hcs]
      exact (hex_chars (x := x) (by rw [hcs]; exact List.mem_cons_self)).2.1
    have hcolon := Reads.colon hnext hword
    rw [tailText, List.flatMap_cons, List.append_assoc]
    exact hcolon

private theorem Reads.head {rest : List UInt8} {l : Layout} (h : Reads rest l) (hrest : Continues rest)
    (ws : List UInt16) :
    Reads (headText ws ++ rest) (.words ws l) := by
  cases ws with
  | nil => exact h
  | cons x ws =>
    rw [headText, List.append_assoc]
    exact (h.tail hrest ws).hex (hrest.tail ws) x

private theorem noDot_headText (ws : List UInt16) : asc '.' ∉ headText ws := by
  cases ws with
  | nil => simp [headText]
  | cons x ws =>
    rw [headText, List.mem_append, not_or]
    exact ⟨fun h => (hex_chars h).2.2.1 rfl, noDot_tailText ws⟩

/-- The layout of an address. -/
def addrLayout (words : List UInt16) : Layout :=
  match bestRun words with
  | (none, _) => .words words .stop
  | (some k, n) => .words (words.take k) (.gap (.words (words.drop (k + n)) .stop))

theorem reads_addrText (words : List UInt16) : Reads (addrText words) (addrLayout words) := by
  have hend : Continues [] := ⟨by simp, by simp⟩
  unfold addrText addrLayout
  generalize bestRun words = best
  obtain ⟨_ | k, n⟩ := best
  · have hall := Reads.stop.head hend words
    rw [List.append_nil] at hall
    show Reads (wordsText [] words) (.words words .stop)
    rw [wordsText_front (.inl rfl)]
    exact hall
  · have hbehind := Reads.stop.head hend (words.drop (k + n))
    rw [List.append_nil] at hbehind
    have hgap : Continues (asc ':' :: asc ':' :: headText (words.drop (k + n))) := by
      refine ⟨fun c hc => by cases hc; rfl, ?_⟩
      simp [noDot_headText, show asc '.' ≠ asc ':' by decide]
    show Reads (wordsText (wordsText [] (words.take k) ++ [asc ':', asc ':']) (words.drop (k + n))) _
    rw [wordsText_front (.inr (by simp)), wordsText_front (.inl rfl), List.nil_append, List.append_assoc]
    exact (Reads.gap hbehind).head hgap (words.take k)

/-! ### IPv6 addresses -/

/-- The longest run of zero words, if it has two, is at the front. -/
def LeadingRun (words : List UInt16) : Prop := ∀ i, zeroRun words i ≤ max 1 (zeroRun words 0)

theorem pton_addrText {words : List UInt16} (hwords : words.length = 8) (h : LeadingRun words) (dst : Nat) (mem : Mem) :
    ptonIp6 (addrText words) dst mem = some (1, storeBytes mem dst (wordBytes words)) := by
  rw [ptonIp6_eq, (reads_addrText words).loop, addrLayout]
  rcases bestRun_spec words with ⟨hnone, -⟩ | ⟨k, n, hbest, hn, hleft⟩
  · rw [show bestRun words = (none, (bestRun words).2) from Prod.ext hnone rfl]
    exact Layout.result_words hwords dst mem
  · have hk : k = 0 := by
      by_contra hk
      have hfirst : zeroRun words 0 < n := hleft.lt 0 (by omega)
      have hlongest : zeroRun words k = n := hleft.here
      have := h k
      omega
    subst hk
    have hrun : zeroRun words 0 = n := hleft.here
    have hdrop : (words.drop n).length = 8 - n := by rw [List.length_drop, hwords]
    have hle : n ≤ 8 := by
      have := Stretch.stretch_le (· = 0) words 0
      have := hleft.here
      omega
    rw [hbest]
    show ((Layout.words (words.take 0) (.gap (.words (words.drop (0 + n)) .stop))).run .init).result dst mem = _
    rw [Nat.zero_add, List.take_zero, Layout.result_leading_gap (by omega), hdrop,
      show 8 - (8 - n) = n by omega, ← hrun]
    unfold zeroRun
    rw [← Stretch.eq_replicate_append words 0]

theorem pton_addrText_overrun {words : List UInt16} (hwords : words.length = 8) (h : ¬LeadingRun words) (dst : Nat)
    (mem : Mem) : ptonIp6 (addrText words) dst mem = none := by
  rw [ptonIp6_eq_none]
  refine ⟨_, reads_addrText words, ?_⟩
  unfold addrLayout
  rcases bestRun_spec words with ⟨-, hshort⟩ | ⟨k, n, hbest, hn, hleft⟩
  · exact absurd (fun i => (hshort i).trans (Nat.le_max_left _ _)) h
  · have hhere : zeroRun words k = n := hleft.here
    have hk : k ≠ 0 := by
      rintro rfl
      refine h fun i => ?_
      rw [hhere]
      exact (hleft.le i).trans (Nat.le_max_right _ _)
    have hfits : k + n ≤ 8 := by
      have := Stretch.stretch_le (· = 0) words k
      have := hleft.here
      omega
    rw [hbest]
    refine ⟨words.take k, words.drop (k + n), .stop, rfl, ?_, .inl ⟨rfl, ?_⟩⟩
    · rw [List.length_take, List.length_drop]
      omega
    · intro hnil
      have := congrArg List.length hnil
      rw [List.length_take, List.length_nil] at this
      omega

private theorem word_toNat (x y : UInt8) : (x.toUInt16 <<< 8 ||| y.toUInt16).toNat = x.toNat * 2 ^ 8 + y.toNat := by
  have hx := x.toNat_lt
  have hy := y.toNat_lt
  have hshift : (x.toUInt16 <<< 8).toNat = x.toNat <<< 8 := by
    simp [UInt16.toNat_shiftLeft, Nat.shiftLeft_eq]
    omega
  rw [UInt16.toNat_or, hshift, UInt8.toNat_toUInt16, Bytes.shift_or hy]

private theorem word_high (x y : UInt8) : ((x.toUInt16 <<< 8 ||| y.toUInt16) >>> 8).toUInt8 = x := by
  have hx := x.toNat_lt
  have hy := y.toNat_lt
  apply UInt8.toNat_inj.1
  rw [UInt16.toNat_toUInt8, UInt16.toNat_shiftRight, word_toNat]
  simp [Nat.shiftRight_eq_div_pow]
  omega

private theorem word_low (x y : UInt8) : ((x.toUInt16 <<< 8 ||| y.toUInt16) &&& 0xff).toUInt8 = y := by
  have hy := y.toNat_lt
  have hmask : (x.toNat * 2 ^ 8 + y.toNat) &&& 255 = (x.toNat * 2 ^ 8 + y.toNat) % 2 ^ 8 :=
    Nat.and_two_pow_sub_one_eq_mod _ 8
  apply UInt8.toNat_inj.1
  rw [UInt16.toNat_toUInt8, UInt16.toNat_and, word_toNat, show (0xff : UInt16).toNat = 255 from rfl, hmask]
  omega

/-- The bytes of the words of an address are the bytes of the address. -/
private theorem wordBytes_wordsOf (b : Mem) : wordBytes (wordsOf b) = (List.range 16).map b := by
  simp only [wordBytes, wordsOf, List.flatMap_map, word_high, word_low]
  rfl

/-! ### IPv4 addresses -/

private theorem dec_chars {x c : UInt8} (hc : c ∈ dec x) : c ≠ 0 := by
  obtain ⟨d, hd, rfl⟩ := mem_numText (by decide) hc
  clear hc
  revert d
  decide

private theorem ptonIp4Loop_dec {dst i : Nat} (hi : i < 4) (x : UInt8) {rest : List UInt8} (hends : EndsNumber 10 rest)
    (hrest : deref rest = if i < 3 then asc '.' else 0) (mem : Mem) :
    ptonIp4Loop dst i (dec x ++ rest) mem = ptonIp4Loop dst (i + 1) rest.tail (Function.update mem (dst + i) x) := by
  have hlt := x.toNat_lt
  have hlen : (dec x).length ≠ 0 := fun h => numText_ne_nil 10 x.toNat (List.length_eq_zero_iff.1 h)
  have hread : strtoul (dec x ++ rest) 10 = ⟨x.toNat, (dec x).length, false⟩ :=
    strtoul_numText (by decide) (by decide) (by unfold UINTMAX_MAX; omega) hends
  have hdrop : (dec x ++ rest).drop ((dec x).length + 1) = rest.tail := by
    rw [← List.drop_drop, List.drop_left, List.drop_one]
  rw [ptonIp4Loop, if_pos hi]
  simp only [hread, List.drop_left, hrest, hdrop]
  rw [if_neg (by simp [hlen]; omega)]
  simp

/-- Four numbers with dots between them. -/
theorem pton_quadText (b : Mem) (dst : Nat) (mem : Mem) :
    ptonIp4 (quadText b) dst mem = (1, storeBytes mem dst ((List.range 4).map b)) := by
  have hdot : ∀ rest, EndsNumber 10 (asc '.' :: rest) := endsNumber_cons (by decide)
  rw [ptonIp4, quadText, ptonIp4Loop_dec (by decide) _ (hdot _) rfl, List.tail_cons,
    ptonIp4Loop_dec (by decide) _ (hdot _) rfl, List.tail_cons, ptonIp4Loop_dec (by decide) _ (hdot _) rfl,
    List.tail_cons,
    show dec (b 3) = dec (b 3) ++ [] by
      simp, ptonIp4Loop_dec (by decide) _ (endsNumber_nil 10) rfl, ptonIp4Loop, if_neg (by decide)]
  rw [show (List.range 4).map b = [b 0, b 1, b 2, b 3] from rfl]
  simp only [storeBytes_cons, storeBytes_nil, Nat.add_zero]

/-! ### The string in a buffer -/

theorem storeBytes_map (mem : Mem) (dst n : Nat) (b : Mem) {k : Nat} (hk : k < n) :
    storeBytes mem dst ((List.range n).map b) (dst + k) = b k := by
  simp [storeBytes, hk]

/-- The string at `dst` in a buffer of `size` bytes. -/
def stringAt (mem : Mem) (dst size : Nat) : CString := CString.of ((List.range size).map fun k => mem (dst + k))

theorem stringAt_storeBytes (mem : Mem) (dst : Nat) {size : Nat} {t : List UInt8} (ht : 0 ∉ t)
    (hsize : t.length < size) :
    (stringAt (storeBytes mem dst (t ++ [0])) dst size).bytes = t := by
  have hfront : ((List.range size).map fun k => storeBytes mem dst (t ++ [0]) (dst + k)).take (t.length + 1) =
      t ++ [0] := by
    apply List.ext_getElem
    · simp
      omega
    · intro k hk hk'
      simp [storeBytes, List.getElem?_eq_getElem hk']
  have hsplit := List.take_append_drop (t.length + 1) ((List.range size).map fun k =>
    storeBytes mem dst (t ++ [0]) (dst + k))
  have hall : ∀ c ∈ t, decide (c ≠ 0) = true := by
    intro c hc
    have hne : c ≠ 0 := fun h0 => ht (h0 ▸ hc)
    simpa using hne
  rw [hfront, List.append_assoc] at hsplit
  show List.takeWhile _ _ = t
  rw [← hsplit, List.takeWhile_append_of_pos hall]
  simp

private theorem noNul_headText (ws : List UInt16) : 0 ∉ headText ws := by
  cases ws with
  | nil => simp [headText]
  | cons x ws =>
    rw [headText, List.mem_append, tailText, List.mem_flatMap]
    rintro (h | ⟨y, -, h⟩)
    · exact (hex_chars h).2.2.2 rfl
    · rcases List.mem_cons.1 h with h | h
      · exact absurd h (by decide)
      · exact (hex_chars h).2.2.2 rfl

private theorem noNul_addrText (words : List UInt16) : 0 ∉ addrText words := by
  unfold addrText
  generalize bestRun words = best
  obtain ⟨_ | k, n⟩ := best
  · show 0 ∉ wordsText [] words
    rw [wordsText_front (.inl rfl)]
    exact noNul_headText words
  · show 0 ∉ wordsText (wordsText [] (words.take k) ++ [asc ':', asc ':']) (words.drop (k + n))
    rw [wordsText_front (.inr (by simp)), wordsText_front (.inl rfl), List.nil_append]
    simp only [List.mem_append, List.mem_cons, List.not_mem_nil, or_false, not_or]
    exact ⟨⟨noNul_headText _, by decide, by decide⟩, noNul_headText _⟩

private theorem noNul_quadText (b : Mem) : 0 ∉ quadText b := by
  have hdot : (0 : UInt8) ≠ asc '.' := by decide
  simp only [quadText, List.mem_append, List.mem_cons, not_or]
  exact ⟨fun h => dec_chars h rfl, hdot, fun h => dec_chars h rfl, hdot, fun h => dec_chars h rfl, hdot,
    fun h => dec_chars h rfl⟩

/-! ### The round trip -/

/-- `inet_ntop` of the address `a` of `n` bytes into a buffer of `size` bytes returns the buffer, writes inside it
only and leaves a string in it, of which `inet_pton` makes `a` again. -/
def RoundTrip (af : Int) (n : Nat) (a : Mem) (dst size : Nat) (mem : Mem) : Prop :=
  ∃ mem', inetNtop af (some a) (some dst) size mem = some (some dst, mem') ∧
    (∀ x, x < dst ∨ dst + size ≤ x → mem' x = mem x) ∧ (∃ k < size, mem' (dst + k) = 0) ∧
    ∀ (out : Nat) (m : Mem), ∃ m', inetPton af (some (stringAt mem' dst size)) (some out) m = some (1, m') ∧
      ∀ k < n, m' (out + k) = a k

/-- `inet_pton` of the text returns, with its stores inside the scratch array and the `n` bytes of the address. -/
def InBounds (af : Int) (n : Nat) (text : CString) (dst : Nat) (mem : Mem) : Prop :=
  ∃ r mem', inetPton af (some text) (some dst) mem = some (r, mem') ∧ ∀ x, x < dst ∨ dst + n ≤ x → mem' x = mem x

/-- What is left of a round trip once the text is known. -/
private theorem roundTrip_iff {af : Int} {n : Nat} {a : Mem} {dst size : Nat} {mem : Mem} {t : List UInt8} (ht : 0 ∉ t)
    (hsize : t.length < size) (hntop : inetNtop af (some a) (some dst) size mem = some (some dst,
    storeBytes mem dst (t ++ [0]))) :
    RoundTrip af n a dst size mem ↔
      ∀ (out : Nat) (m : Mem), ∃ m', inetPton af (some ⟨t, ht⟩) (some out) m = some (1, m') ∧
      ∀ k < n, m' (out + k) = a k := by
  have htext : stringAt (storeBytes mem dst (t ++ [0])) dst size = ⟨t, ht⟩ := by
    have hbytes := stringAt_storeBytes mem dst ht hsize
    generalize stringAt (storeBytes mem dst (t ++ [0])) dst size = s at hbytes ⊢
    cases s
    cases hbytes
    rfl
  constructor
  · rintro ⟨mem', hmem', -, -, hpton⟩
    rw [hntop] at hmem'
    cases hmem'
    rw [htext] at hpton
    exact hpton
  · intro hpton
    refine ⟨_, hntop, fun x hx => ?_, ⟨t.length, hsize, by simp [storeBytes]⟩, ?_⟩
    · exact storeBytes_frame mem dst (by rw [List.length_append, List.length_singleton]; omega)
    · rw [htext]
      exact hpton

theorem roundTrip_ip4 (a : Mem) (dst : Nat) {size : Nat} (mem : Mem) (hsize : INET_ADDRSTRLEN ≤ size) :
    RoundTrip AF_INET 4 a dst size mem := by
  have hlen := length_quadText_le a
  have hntop : inetNtop AF_INET (some a) (some dst) size mem = some (some dst,
    storeBytes mem dst (quadText a ++ [0])) :=
    ntopIp4_text a dst hsize mem
  unfold INET_ADDRSTRLEN at hsize
  rw [roundTrip_iff (noNul_quadText a) (by omega) hntop]
  intro out m
  exact ⟨_, congrArg some (pton_quadText a out m), fun k hk => storeBytes_map m out 4 a hk⟩

theorem roundTrip_ip6 (a : Mem) (dst : Nat) {size : Nat} (mem : Mem) (hsize : INET6_ADDRSTRLEN ≤ size) :
    RoundTrip AF_INET6 16 a dst size mem ↔ LeadingRun (wordsOf a) := by
  have hwords : (wordsOf a).length = 8 := by simp [wordsOf]
  obtain ⟨hlen, htext⟩ := ntopIp6_text a dst hsize mem
  have hntop : inetNtop AF_INET6 (some a) (some dst) size mem =
      some (some dst, storeBytes mem dst (addrText (wordsOf a) ++ [0])) := htext
  unfold INET6_ADDRSTRLEN at hsize
  rw [roundTrip_iff (noNul_addrText (wordsOf a)) (by omega) hntop]
  constructor
  · intro hpton
    by_contra hrun
    obtain ⟨m', hm', -⟩ := hpton 0 mem
    have hsome : ptonIp6 (addrText (wordsOf a)) 0 mem = some (1, m') := hm'
    rw [pton_addrText_overrun hwords hrun] at hsome
    cases hsome
  · intro hrun out m
    refine ⟨_, pton_addrText hwords hrun out m, fun k hk => ?_⟩
    rw [wordBytes_wordsOf]
    exact storeBytes_map m out 16 a hk

theorem inBounds_ip6 (text : CString) (dst : Nat) (mem : Mem) :
    InBounds AF_INET6 16 text dst mem ↔ ¬∃ l, Reads text.bytes l ∧ l.Overruns := by
  rw [← ptonIp6_eq_none text.bytes dst mem]
  constructor
  · rintro ⟨r, mem', h, -⟩ hnone
    have hsome : ptonIp6 text.bytes dst mem = some (r, mem') := h
    rw [hnone] at hsome
    cases hsome
  · intro hsome
    obtain ⟨⟨r, mem'⟩, h⟩ := Option.ne_none_iff_exists.1 hsome
    exact ⟨r, mem', h.symm, fun x hx => ptonIp6_frame h.symm hx⟩

/-- Every IPv4 address comes back from its text, and an IPv6 address exactly when its longest run of zero words is at
the front or has no two words.  A text for an IPv4 address is read in bounds, one for an IPv6 address exactly when it
does not have a layout that leaves the array. -/
theorem inet_text (a : Mem) (text : CString) (dst size : Nat) (mem : Mem) :
    (INET_ADDRSTRLEN ≤ size → RoundTrip AF_INET 4 a dst size mem) ∧
    (INET6_ADDRSTRLEN ≤ size → (RoundTrip AF_INET6 16 a dst size mem ↔ LeadingRun (wordsOf a))) ∧
    InBounds AF_INET 4 text dst mem ∧
    (InBounds AF_INET6 16 text dst mem ↔ ¬∃ l, Reads text.bytes l ∧ l.Overruns) := by
  refine ⟨?_, ?_, ?_, inBounds_ip6 text dst mem⟩
  · intro hsize
    exact roundTrip_ip4 a dst mem hsize
  · intro hsize
    exact roundTrip_ip6 a dst mem hsize
  · exact ⟨_, _, rfl, fun x hx => ptonIp4_frame text.bytes dst mem hx⟩

/-- `127.0.0.1` and `::1` -/
theorem inet_text_loopback :
    RoundTrip AF_INET 4 (fun k => [127, 0, 0, 1].getD k 0) 100 16 (fun _ => 7) ∧
    RoundTrip AF_INET6 16 (fun k => if k = 15 then 1 else 0) 100 46 (fun _ => 7) := by
  obtain ⟨hip4, -⟩ := inet_text (fun k => [127, 0, 0, 1].getD k 0) ⟨[], by decide⟩ 100 16 fun _ => 7
  obtain ⟨-, hip6, -⟩ := inet_text (fun k => if k = 15 then 1 else 0) ⟨[], by decide⟩ 100 46 fun _ => 7
  refine ⟨hip4 (by decide), (hip6 (by decide)).2 fun i => ?_⟩
  have hfirst : zeroRun (wordsOf fun k => if k = 15 then 1 else 0) 0 = 7 := by decide
  have hle : zeroRun (wordsOf fun k => if k = 15 then 1 else 0) i ≤ 8 - i := Stretch.stretch_le _ _ i
  rcases Nat.eq_zero_or_pos i with rfl | hi
  · exact Nat.le_max_right _ _
  · omega

/-- `2001:db8::1` does not come back, and the text `1::2` is not read in bounds. -/
theorem inet_text_gap :
    ¬RoundTrip AF_INET6 16 (fun k => [0x20, 0x01, 0x0d, 0xb8].getD k (if k = 15 then 1 else 0)) 100 46 (fun _ => 7) ∧
    ¬InBounds AF_INET6 16 ⟨lit "1::2", by decide⟩ 100 (fun _ => 7) := by
  constructor
  · rintro ⟨mem', hntop, -, -, hpton⟩
    have hrun : ((inetNtop AF_INET6 (some fun k => [0x20, 0x01, 0x0d, 0xb8].getD k (if k = 15 then 1 else 0))
      (some 100) 46
        (fun _ => 7)).map fun r => (inetPton AF_INET6 (some (stringAt r.2 100 46)) (some 200) (fun _ => 7)).isNone) =
          some true := by
      decide +kernel
    obtain ⟨m', hm', -⟩ := hpton 200 (fun _ => 7)
    rw [hntop, Option.map_some, hm'] at hrun
    cases hrun
  · rintro ⟨r, mem', hpton, -⟩
    have hrun : (inetPton AF_INET6 (some ⟨lit "1::2", by decide⟩) (some 100) (fun _ => 7)).isNone = true := by
      decide +kernel
    rw [hpton] at hrun
    cases hrun

end JACLibc.Inet
