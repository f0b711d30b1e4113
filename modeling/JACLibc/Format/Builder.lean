import JACLibc.Format.Text

/-!
# Messages in a buffer

The builders of messages put one piece of text after another into a buffer, each with `snprintf` or `memcpy`, and end
with a `return 0` where a piece does not fit, or with no answer where a string in it does not.  `Fills` says of a
piece when it goes on, and that the text is then in the buffer; pieces compose with `>>=`.
-/

namespace JACLibc

/-- The locals of a builder; `p` is an offset in the buffer, whose memory comes with it. -/
structure Out where
  mem : Nat → UInt8
  p : Nat
  rem : Nat

/-- What a piece leads to: the builder goes on, or there is a `return 0` with the buffer as it is, or nothing because
a call in it does not return. -/
abbrev Piece := ExceptT (Nat → UInt8) Option Out

/-- `n = snprintf(p, rem, ...); if (n < 0 || (size_t)n >= rem) return 0; p += n; rem -= n;` -/
def Out.print (o : Out) (fmt : CString) (args : List Arg) : Piece :=
  ExceptT.mk ((appendf o.mem o.p o.rem fmt args).map fun r =>
    match r.1 with
    | none => .error r.2
    | some n => .ok ⟨r.2, o.p + n, o.rem - n⟩)

/-- `if (refused) return 0; memcpy(p, bs, len); p += len; rem -= len;` -/
def Out.copy (o : Out) (refused : Bool) (bs : List UInt8) : Piece :=
  if refused then throw o.mem else pure ⟨storeBytes o.mem o.p bs, o.p + bs.length, o.rem - bs.length⟩

/-- `if (rem < 2) return 0; memcpy(p, "\r\n", 2); p += 2; rem -= 2;` -/
def Out.blank (o : Out) : Piece := o.copy (o.rem < 2) (lit "\r\n")

/-- The answer of a builder, the length of what it has put into the buffer, and the buffer. -/
def Piece.answer (x : Piece) : Option (Nat × (Nat → UInt8)) :=
  x.run.map fun r =>
    match r with
    | .ok o => (o.p, o.mem)
    | .error mem => (0, mem)

/-- The bytes `mem[0 .. n)` -/
def bytesOf (mem : Nat → UInt8) (n : Nat) : List UInt8 := (List.range n).map mem

theorem length_bytesOf (mem : Nat → UInt8) (n : Nat) : (bytesOf mem n).length = n := by
  rw [bytesOf, List.length_map, List.length_range]

theorem Written.bytes {mem0 mem : Nat → UInt8} {size : Nat} {text : List UInt8} (h : Written mem0 mem size text) :
    bytesOf mem text.length = text := by
  apply List.ext_getElem
  · rw [length_bytesOf]
  · intro i h₁ h₂
    simp only [bytesOf, List.getElem_map, List.getElem_range]
    exact h.stored i h₂

/-! ### Pieces -/

/-- The text is in the buffer, and the pointer and what is left of the buffer are behind it. -/
structure Placed (buf : Nat → UInt8) (size : Nat) (text : List UInt8) (o : Out) : Prop where
  p : o.p = text.length
  rem : o.rem = size - text.length
  written : Written buf o.mem size text

section Pieces

variable {buf : Nat → UInt8} {size : Nat}

/-- A piece goes on with the text in the buffer where `c` holds, and does not where it does not; it writes into the
buffer only. -/
def Fills (buf : Nat → UInt8) (size : Nat) (x : Piece) (c : Prop) (text : List UInt8) : Prop :=
  (c ∧ ∃ o, x.run = some (.ok o) ∧ Placed buf size text o) ∨
    (¬c ∧ ∀ r, x.run = some r → ∃ mem, r = .error mem ∧ ∀ a, size ≤ a → mem a = buf a)

theorem Fills.bind {x : Piece} {f : Out → Piece} {c d : Prop} {text text' : List UInt8} (hx : Fills buf size x c text)
    (hf : ∀ o, Placed buf size text o → Fills buf size (f o) d text') : Fills buf size (x >>= f) (c ∧ d) text' := by
  rcases hx with ⟨hc, o, hrun, ho⟩ | ⟨hc, hends⟩
  · have hbind : (x >>= f).run = (f o).run := by
      rw [ExceptT.run_bind, hrun]
      rfl
    unfold Fills
    rw [hbind]
    rcases hf o ho with ⟨hd, hok⟩ | ⟨hd, herror⟩
    · exact .inl ⟨⟨hc, hd⟩, hok⟩
    · exact .inr ⟨fun h => hd h.2, herror⟩
  · refine .inr ⟨fun h => hc h.1, fun r hr => ?_⟩
    rw [ExceptT.run_bind] at hr
    cases hrun : x.run with
    | none =>
      rw [hrun] at hr
      exact absurd hr (by simp)
    | some r' =>
      obtain ⟨mem, rfl, hmem⟩ := hends r' hrun
      rw [hrun] at hr
      exact ⟨mem, (Option.some.inj hr).symm, hmem⟩

theorem Fills.of_iff {x : Piece} {c d : Prop} {text : List UInt8} (h : Fills buf size x c text) (hcd : c ↔ d) :
    Fills buf size x d text := by
  unfold Fills at h ⊢
  rwa [hcd] at h

theorem Fills.of_eq {x : Piece} {c : Prop} {text text' : List UInt8} (h : Fills buf size x c text)
    (heq : c → text = text') :
    Fills buf size x c text' := by
  rcases h with ⟨hc, hok⟩ | herror
  · rw [heq hc] at hok
    exact .inl ⟨hc, hok⟩
  · exact .inr herror

theorem Placed.start (buf : Nat → UInt8) (size : Nat) : Placed buf size [] ⟨buf, 0, size⟩ :=
  ⟨rfl, rfl, Written.empty _ _⟩

variable {text : List UInt8} {o : Out}

theorem Placed.skip (h : Placed buf size text o) : Fills buf size (pure o) True text := .inl ⟨trivial, o, rfl, h⟩

theorem Placed.print (h : Placed buf size text o) {fmt : CString} {args : List Arg} {p : Printed}
    (ht : Prints fmt args p) (hneed : p.need ≤ p.text.length) (hlen : p.text.length < 2 ^ 32) :
    Fills buf size (o.print fmt args) (text.length + p.text.length < size ∧
    p.text.length < 2 ^ 31) (text ++ p.text) := by
  obtain ⟨bs, hbs, hfit, happend⟩ := appendf_eq ht o.mem o.p o.rem hlen
  have hfits := h.written.fits
  have hrem := h.rem
  have hroom : p.text.length < o.rem ∧ p.text.length < 2 ^ 31 ↔ text.length + p.text.length < size ∧
    p.text.length < 2 ^ 31 := by omega
  by_cases hok : p.text.length < o.rem ∧ p.text.length < 2 ^ 31
  · refine .inl ⟨hroom.1 hok, ⟨storeBytes o.mem o.p bs, o.p + p.text.length, o.rem - p.text.length⟩, ?_, ?_, ?_, ?_⟩
    · rw [Out.print, happend, if_pos (by omega), if_pos hok]
      rfl
    · rw [List.length_append, h.p]
    · rw [List.length_append, hrem, Nat.sub_sub]
    · rw [hfit hok.1, h.p]
      refine h.written.store p.text [0] ?_
      rw [List.length_append, List.length_singleton]
      omega
  · refine .inr ⟨fun h => hok (hroom.2 h), fun r hr => ?_⟩
    rw [Out.print, happend, if_neg hok] at hr
    split at hr
    · refine ⟨storeBytes o.mem o.p bs, (Option.some.inj hr).symm, ?_⟩
      rw [h.p]
      exact (h.written.scratch bs (by omega)).beyond
    · cases hr

/-- A piece that prints a text ends unless a string in it has no place. -/
theorem Out.print_returns {fmt : CString} {args : List Arg} {p : Printed} (ht : Prints fmt args p) (o : Out) :
    ((o.print fmt args).run = none ↔ ¬p.need ≤ o.rem - 1) := by
  obtain ⟨bs, -, -, hprint⟩ := snprintf_eq ht o.mem o.p o.rem
  change ((appendf o.mem o.p o.rem fmt args).map _ : Option _) = none ↔ _
  rw [Option.map_eq_none_iff, appendf, Option.map_eq_none_iff, hprint]
  split <;> simp_all

theorem Placed.copy (h : Placed buf size text o) {refused : Bool} {bs : List UInt8}
    (hfit : refused = false → bs.length ≤ o.rem) :
    Fills buf size (o.copy refused bs) (refused = false) (text ++ bs) := by
  have hfits := h.written.fits
  have hrem := h.rem
  cases refused with
  | true =>
    refine .inr ⟨by simp, fun r hr => ⟨o.mem, (Option.some.inj hr).symm, h.written.beyond⟩⟩
  | false =>
    refine .inl ⟨rfl, ⟨storeBytes o.mem o.p bs, o.p + bs.length, o.rem - bs.length⟩, rfl, ?_, ?_, ?_⟩
    · rw [List.length_append, h.p]
    · rw [List.length_append, hrem, Nat.sub_sub]
    · have := h.written.store bs [] (by
        have := hfit rfl
        rw [List.append_nil]
        omega)
      rwa [List.append_nil, ← h.p] at this

/-- The text that is printed may be taken for another one where both are no `int`. -/
theorem Placed.print_as (h : Placed buf size text o) {fmt : CString} {args : List Arg} {p : Printed} {t' : List UInt8}
    (ht : Prints fmt args p) (hneed : p.need ≤ p.text.length) (hlen : p.text.length < 2 ^ 32)
    (htext : p.text = t' ∨ (2 ^ 31 ≤ p.text.length ∧ 2 ^ 31 ≤ t'.length)) :
    Fills buf size (o.print fmt args) (text.length + t'.length < size ∧ t'.length < 2 ^ 31) (text ++ t') := by
  rcases htext with rfl | ⟨hlong, hlong'⟩
  · exact h.print ht hneed hlen
  · refine ((h.print ht hneed hlen).of_iff ⟨fun hfit => ?_, fun hfit => ?_⟩).of_eq fun hfit => ?_
    · omega
    · omega
    · omega

/-- A string that is printed with more characters around it. -/
theorem Placed.print_str (h : Placed buf size text o) {fmt : CString} {args : List Arg} {s : CString}
    {before after : List UInt8} (ht : Prints fmt args (.around before s.printed after))
    (hpos : 0 < before.length + after.length) (hshort : before.length + after.length < 2 ^ 31) :
    Fills buf size (o.print fmt args) (text.length + (before ++ s.bytes ++ after).length < size ∧
      (before ++ s.bytes ++ after).length < 2 ^ 31) (text ++ (before ++ s.bytes ++ after)) := by
  have hprinted : s.printed.length = min (2 ^ 31 - 1) s.bytes.length := List.length_take
  have hlen : ∀ l : List UInt8, (before ++ l ++ after).length = before.length + l.length + after.length := by
    intro l
    rw [List.length_append, List.length_append]
  apply h.print_as ht (need_around_le _ _ _)
  · rw [text_around, hlen]
    omega
  · rw [text_around]
    by_cases hs : s.bytes.length ≤ 2 ^ 31 - 1
    · exact .inl (by rw [CString.printed, List.take_of_length_le hs])
    · right
      rw [hlen, hlen]
      omega

theorem Placed.blank (h : Placed buf size text o) :
    Fills buf size o.blank (text.length + 2 ≤ size) (text ++ lit "\r\n") := by
  have hrem := h.rem
  have hfits := h.written.fits
  refine (h.copy fun hfit => ?_).of_iff ?_
  · exact Nat.not_lt.1 (of_decide_eq_false hfit)
  · rw [decide_eq_false_iff_not]
    omega

/-- Texts that are printed one after another, the first behind `n` bytes, all fit. -/
def Room (size : Nat) : Nat → List (List UInt8) → Prop
  | _, [] => True
  | n, t :: ts => (n + t.length < size ∧ t.length < 2 ^ 31) ∧ Room size (n + t.length) ts

theorem room_append {n : Nat} {ts ts' : List (List UInt8)} :
    Room size n (ts ++ ts') ↔ Room size n ts ∧ Room size (n + ts.flatten.length) ts' := by
  induction ts generalizing n with
  | nil => simp [Room]
  | cons t ts ih => rw [List.cons_append, Room, Room, ih, List.flatten_cons, List.length_append, Nat.add_assoc,
    and_assoc, and_assoc, and_assoc]

/-- In front of more text it is the length of all that decides. -/
theorem room_iff {n k : Nat} (hk : 0 < k) {ts : List (List UInt8)} : Room size n ts ∧ n + ts.flatten.length + k ≤ size ↔
    (∀ t ∈ ts, t.length < 2 ^ 31) ∧ n + ts.flatten.length + k ≤ size := by
  induction ts generalizing n with
  | nil => simp [Room]
  | cons t ts ih =>
    have ih := ih (n := n + t.length)
    rw [Room, List.flatten_cons, List.length_append, List.forall_mem_cons, ← Nat.add_assoc]
    constructor
    · rintro ⟨⟨ht, hroom⟩, hsize⟩
      exact ⟨⟨ht.2, (ih.1 ⟨hroom, hsize⟩).1⟩, hsize⟩
    · rintro ⟨⟨ht, hts⟩, hsize⟩
      exact ⟨⟨⟨by omega, ht⟩, (ih.2 ⟨hts, hsize⟩).1⟩, hsize⟩

/-- A piece prints these texts behind the text in the buffer. -/
def Adds (buf : Nat → UInt8) (size : Nat) (text : List UInt8) (x : Piece) (ts : List (List UInt8)) : Prop :=
  Fills buf size x (Room size text.length ts) (text ++ ts.flatten)

theorem Placed.nothing (h : Placed buf size text o) : Adds buf size text (pure o) [] := by
  unfold Adds
  rw [List.flatten_nil, List.append_nil]
  exact h.skip

theorem Fills.single {x : Piece} {t : List UInt8}
    (h : Fills buf size x (text.length + t.length < size ∧ t.length < 2 ^ 31) (text ++ t)) :
    Adds buf size text x [t] := by
  unfold Adds
  rw [List.flatten_singleton]
  exact h.of_iff (and_iff_left trivial).symm

theorem Adds.bind {x : Piece} {f : Out → Piece} {ts ts' : List (List UInt8)} (hx : Adds buf size text x ts)
    (hf : ∀ o, Placed buf size (text ++ ts.flatten) o → Adds buf size (text ++ ts.flatten) (f o) ts') :
    Adds buf size text (x >>= f) (ts ++ ts') := by
  have h := Fills.bind hx hf
  rw [List.length_append, ← room_append, List.append_assoc, ← List.flatten_append] at h
  exact h

/-- What a builder answers. -/
theorem Fills.answer {x : Piece} {c : Prop} (h : Fills buf size x c text) :
    (c → ∃ mem, x.answer = some (text.length, mem) ∧ (∀ a, size ≤ a → mem a = buf a) ∧ bytesOf mem text.length = text) ∧
      (¬c → ∀ n mem, x.answer = some (n, mem) → n = 0 ∧ ∀ a, size ≤ a → mem a = buf a) := by
  rcases h with ⟨hc, o, hrun, ho⟩ | ⟨hc, hends⟩
  · refine ⟨fun _ => ⟨o.mem, ?_, ho.written.beyond, ho.written.bytes⟩, fun h => absurd hc h⟩
    rw [Piece.answer, hrun, ← ho.p]
    rfl
  · refine ⟨fun h => absurd h hc, fun _ n mem hanswer => ?_⟩
    obtain ⟨r, hrun, hr⟩ := Option.map_eq_some_iff.1 hanswer
    obtain ⟨mem', rfl, hmem⟩ := hends r hrun
    obtain ⟨rfl, rfl⟩ := Prod.mk.inj hr
    exact ⟨rfl, hmem⟩

/-- A builder answers where its pieces are done. -/
theorem answer_eq_none {x : Piece} : x.answer = none ↔ x.run = none := Option.map_eq_none_iff

end Pieces

end JACLibc
