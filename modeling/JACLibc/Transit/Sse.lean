import JACLibc.Format.Builder
import JACLibc.Transit.EventStream

/-!
# Server-sent events

`sse_event_build` puts the fields of an event into a buffer, one field line after another, with one line for each line
of the data, and a blank line behind them.  What a reader gets back (`sse_round_trip`) is the event itself unless its
data is empty, in which case nothing is dispatched, or ends with a newline, which is lost, or has a line whose length
does not fit into an `int`.
-/

namespace JACLibc.Sse

/-- `sse_event_t` -/
structure Event where
  event : Option CString
  data : Option CString
  id : Option CString
  retry_ms : BitVec 32

/-- The string behind its first `n` characters. -/
def dropChars (s : CString) (n : Nat) : CString := ⟨s.bytes.drop n, fun h => s.noNul (List.mem_of_mem_drop h)⟩

/-- The optional fields of `sse_event_build`. -/
def putEvent (ev : Event) (o : Out) : Piece :=
  match ev.event with
  | some event => o.print ⟨lit "event: %s\r\n", by decide⟩ [.str event]
  | none => pure o

def putId (ev : Event) (o : Out) : Piece :=
  match ev.id with
  | some id => o.print ⟨lit "id: %s\r\n", by decide⟩ [.str id]
  | none => pure o

def putRetry (ev : Event) (o : Out) : Piece :=
  if ev.retry_ms.toInt > 0 then o.print ⟨lit "retry: %d\r\n", by decide⟩ [.int (ev.retry_ms.setWidth 64)] else pure o

/-- The loop over the lines of the data; `line` are the characters up to `nl`, or all where `strchr` answers NULL. -/
def putData (d : CString) (o : Out) : Piece :=
  if d.bytes = [] then pure o
  else do
    let line := d.bytes.takeWhile (· ≠ asc '\n')
    let o ← o.print ⟨lit "data: %.*s\r\n", by decide⟩ [.int (BitVec.ofNat 64 line.length), .str d]
    if line.length = d.bytes.length then pure o else putData (dropChars d (line.length + 1)) o
termination_by d.bytes.length
decreasing_by
  rw [dropChars, List.length_drop]
  have := List.length_pos_iff.2 ‹_›
  omega

def eventPieces (ev : Event) (data : CString) (o : Out) : Piece := do
  let o ← putEvent ev o
  let o ← putId ev o
  let o ← putRetry ev o
  let o ← putData data o
  o.blank

/-- `sse_event_build`: the answer and the buffer. -/
def sseEventBuild (buf : Nat → UInt8) (buf_size : Nat) (ev : Event) : Option (Nat × (Nat → UInt8)) :=
  match ev.data with
  | none => some (0, buf)
  | some data => (eventPieces ev data ⟨buf, 0, buf_size⟩).answer

/-! ### The text -/

/-- The lines of the data that the loop goes through. -/
def dataLines : List UInt8 → List (List UInt8)
  | [] => []
  | c :: cs =>
    if c = asc '\n' then [] :: dataLines cs
    else
      match dataLines cs with
      | [] => [[c]]
      | line :: lines => (c :: line) :: lines

/-- What is printed of a line: the precision is an `int`, and a negative one leads to more than an `int` can count. -/
def shown (line : List UInt8) : List UInt8 := line.take (line.length % 2 ^ 32)

/-- The field lines of the event. -/
def Event.lines (ev : Event) (data : CString) : List (List UInt8) :=
  (ev.event.map fun event => fieldLine (lit "event") event.bytes).toList ++
    (ev.id.map fun id => fieldLine (lit "id") id.bytes).toList ++
    (if ev.retry_ms.toInt > 0 then [fieldLine (lit "retry") (decText ev.retry_ms.toInt)] else []) ++
    (dataLines data.bytes).map fun line => fieldLine (lit "data") (shown line)

/-- Each line is one that an `int` can count, and all lines and the blank line fit into the buffer. -/
def Event.Fits (ev : Event) (data : CString) (size : Nat) : Prop :=
  (∀ t ∈ ev.lines data, t.length < 2 ^ 31) ∧ (ev.lines data).flatten.length + 2 ≤ size

/-- An optional text; one that is left out reads as an empty one. -/
def textOf (v : Option CString) : List UInt8 := (v.map CString.bytes).getD []

/-- The reconnection time, if there is one. -/
def Event.retry (ev : Event) : Option Nat := if ev.retry_ms.toInt > 0 then some ev.retry_ms.toNat else none

/-- A reader gets the event and nothing else from these bytes. -/
def Event.Received (ev : Event) (bytes : List UInt8) : Prop :=
  ∃ data, ev.data = some data ∧
    (Stream.fresh.read bytes).messages = [⟨textOf ev.event, data.bytes, textOf ev.id⟩] ∧
    (Stream.fresh.read bytes).retry = ev.retry

theorem dropChars_bytes (s : CString) (n : Nat) : (dropChars s n).bytes = s.bytes.drop n := rfl

/-! ### Lines of the data -/

/-- One turn of the loop: the first line, and the lines behind its newline. -/
theorem dataLines_cons {d : List UInt8} (hd : d ≠ []) :
    dataLines d = d.takeWhile (· ≠ asc '\n') :: dataLines (d.dropWhile (· ≠ asc '\n')).tail := by
  induction d with
  | nil => exact absurd rfl hd
  | cons c cs ih =>
    by_cases hc : c = asc '\n'
    · subst hc
      rfl
    · rw [dataLines, if_neg hc, List.takeWhile_cons_of_pos (by simpa using hc),
        List.dropWhile_cons_of_pos (by simpa using hc)]
      by_cases hcs : cs = []
      · subst hcs
        rfl
      · rw [ih hcs]

/-- The lines with their newlines are the data, and a newline behind the last line if it has none. -/
theorem flatten_dataLines (d : List UInt8) : (dataLines d).flatMap (· ++ [asc '\n']) =
    d ++ if d = [] ∨ d.getLast? = some (asc '\n') then [] else [asc '\n'] := by
  induction d with
  | nil => rfl
  | cons c cs ih =>
    by_cases hc : c = asc '\n'
    · rw [dataLines, if_pos hc, List.flatMap_cons, ih]
      by_cases hcs : cs = []
      · simp [hcs, hc]
      · rw [List.getLast?_cons_of_ne_nil hcs]
        simp [hcs, hc]
    · rw [dataLines, if_neg hc]
      by_cases hcs : cs = []
      · simp [hcs, hc, dataLines]
      · rw [List.getLast?_cons_of_ne_nil hcs]
        rw [dataLines_cons hcs] at ih ⊢
        simp only [List.flatMap_cons, hcs, false_or] at ih ⊢
        rw [List.cons_append, List.cons_append, ih]
        simp

theorem dataLines_noBreak {d : List UInt8} (hd : asc '\r' ∉ d) : ∀ line ∈ dataLines d, NoBreak line := by
  induction d with
  | nil => exact fun _ h => absurd h List.not_mem_nil
  | cons c cs ih =>
    simp only [List.mem_cons, not_or] at hd
    have ih := ih hd.2
    by_cases hc : c = asc '\n'
    · rw [dataLines, if_pos hc]
      exact List.forall_mem_cons.2 ⟨by decide, ih⟩
    · have hline : NoBreak [c] := ⟨by simpa using Ne.symm hc, by simpa using hd.1⟩
      rw [dataLines, if_neg hc]
      cases hlines : dataLines cs with
      | nil => exact List.forall_mem_cons.2 ⟨hline, fun _ h => absurd h List.not_mem_nil⟩
      | cons line lines =>
        rw [hlines] at ih
        rw [List.forall_mem_cons] at ih
        exact List.forall_mem_cons.2 ⟨hline.append ih.1, ih.2⟩

/-! ### Building -/

theorem prints_retry (v : BitVec 32) : Prints ⟨lit "retry: %d\r\n", by decide⟩ [.int (v.setWidth 64)]
    (.plain (lit "retry: " ++ decText v.toInt ++ lit "\r\n")) := by
  intro w
  have hv : ((v.setWidth 64).setWidth 32).toInt = v.toInt := by
    rw [BitVec.setWidth_setWidth_of_le _ (by decide), BitVec.setWidth_eq]
  refine (printfLoop_literals _ 5 _ _ _ (lit "retry: ") (by decide)).trans ?_
  refine (printfLoop_d _ 4 _ _ _).trans ?_
  refine (printfLoop_literals _ 2 _ [] _ (lit "\r\n") (by decide)).trans ?_
  rw [← hv, print_plain]
  simp only [printfLoop, send_send]
  rfl

/-- The `(int)len` that is the precision. -/
def precision (len : Nat) : Int := ((BitVec.ofNat 64 len).setWidth 32).toInt

theorem prints_data (len : Nat) (d : CString) :
    Prints ⟨lit "data: %.*s\r\n", by decide⟩ [.int (BitVec.ofNat 64 len), .str d]
      (.around (lit "data: ") (d.bytes.take (if precision len < 0 then INT_MAX else precision len).toNat)
      (lit "\r\n")) := by
  intro w
  rw [print_around]
  refine (printfLoop_literals _ 7 _ _ _ (lit "data: ") (by decide)).trans ?_
  refine (printfLoop_prec_s _ 6 _ _ [BitVec.ofNat 64 len, 2] (show (2 : BitVec 64) ≠ 0 by decide)).trans ?_
  exact Option.bind_congr fun w _ =>
    printfLoop_literals (strings [.int (BitVec.ofNat 64 len), .str d]) 4 w [] _ (lit "\r\n") (by decide)

theorem precision_eq (len : Nat) : precision len = if len % 2 ^ 32 < 2 ^ 31 then ((len % 2 ^ 32 : Nat) : Int) else
    ((len % 2 ^ 32 : Nat) : Int) - 2 ^ 32 := by
  unfold precision
  rw [BitVec.toInt_eq_toNat_cond, BitVec.toNat_setWidth, BitVec.toNat_ofNat, Nat.mod_mod_of_dvd _ (by decide)]
  split
  · rw [if_pos (by omega)]
  · rw [if_neg (by omega)]
    rfl

theorem length_fieldLine (name value : List UInt8) :
    (fieldLine name value).length = name.length + value.length + 4 := by
  rw [fieldLine, List.length_append, List.length_append, List.length_append, show (lit ": ").length = 2 from rfl,
    show (lit "\r\n").length = 2 from rfl]
  omega

section Build

variable {buf : Nat → UInt8} {size : Nat} {text : List UInt8} {o : Out}

theorem putEvent_adds (h : Placed buf size text o) (ev : Event) :
    Adds buf size text (putEvent ev o) (ev.event.map fun event => fieldLine (lit "event") event.bytes).toList := by
  unfold putEvent
  cases ev.event with
  | none => exact h.nothing
  | some event =>
    have hprint : Prints ⟨lit "event: %s\r\n", by decide⟩ [.str event]
      (.around (lit "event: ") event.printed (lit "\r\n")) :=
      prints_str event (by decide) (by decide) rfl
    exact Fills.single (h.print_str hprint (by decide) (by decide))

theorem putId_adds (h : Placed buf size text o) (ev : Event) :
    Adds buf size text (putId ev o) (ev.id.map fun id => fieldLine (lit "id") id.bytes).toList := by
  unfold putId
  cases ev.id with
  | none => exact h.nothing
  | some id =>
    have hprint : Prints ⟨lit "id: %s\r\n", by decide⟩ [.str id] (.around (lit "id: ") id.printed (lit "\r\n")) :=
      prints_str id (by decide) (by decide) rfl
    exact Fills.single (h.print_str hprint (by decide) (by decide))

theorem putRetry_adds (h : Placed buf size text o) (ev : Event) : Adds buf size text (putRetry ev o)
    (if ev.retry_ms.toInt > 0 then [fieldLine (lit "retry") (decText ev.retry_ms.toInt)] else []) := by
  unfold putRetry
  by_cases hretry : ev.retry_ms.toInt > 0
  · rw [if_pos hretry, if_pos hretry]
    have hlen : (fieldLine (lit "retry") (decText ev.retry_ms.toInt)).length < 2 ^ 32 := by
      have := length_decText ev.retry_ms
      rw [length_fieldLine, show (lit "retry").length = 5 from rfl]
      omega
    exact Fills.single (h.print (prints_retry ev.retry_ms) (Nat.zero_le _) hlen)
  · rw [if_neg hretry, if_neg hretry]
    exact h.nothing

/-- One turn of the loop prints what is shown of the line, or more than an `int` can count where the precision is
negative. -/
theorem putLine_adds (h : Placed buf size text o) (d : CString) {line : List UInt8} (hline : line <+: d.bytes) :
    Adds buf size text (o.print ⟨lit "data: %.*s\r\n", by decide⟩ [.int (BitVec.ofNat 64 line.length), .str d])
      [fieldLine (lit "data") (shown line)] := by
  have hprec := precision_eq line.length
  have hlen : ∀ l : List UInt8, (fieldLine (lit "data") l).length = l.length + 8 := by
    intro l
    rw [length_fieldLine, show (lit "data").length = 4 from rfl]
    omega
  have hshown : (shown line).length = line.length % 2 ^ 32 := by
    rw [shown, List.length_take]
    exact Nat.min_eq_left (Nat.mod_le _ _)
  apply Fills.single
  by_cases hmod : line.length % 2 ^ 32 < 2 ^ 31
  · have htake : d.bytes.take (if precision line.length < 0 then INT_MAX else precision line.length).toNat =
      shown line := by
      rw [if_pos hmod] at hprec
      obtain ⟨rest, hrest⟩ := hline
      rw [hprec, if_neg (by omega), Int.toNat_natCast, ← hrest, List.take_append_of_le_length (Nat.mod_le _ _)]
      rfl
    have hprint := prints_data line.length d
    rw [htake] at hprint
    have htext : (Printed.around (lit "data: ") (shown line) (lit "\r\n")).text = fieldLine (lit "data") (shown line) :=
      text_around _ _ _
    have hfills := h.print hprint (need_around_le _ _ _) (by rw [htext, hlen]; omega)
    rwa [htext] at hfills
  · have hlong := hline.length_le
    have hmod' := Nat.mod_le line.length (2 ^ 32)
    have htake : (d.bytes.take (if precision line.length < 0 then INT_MAX else precision line.length).toNat).length =
      2 ^ 31 - 1 := by
      have hneg : precision line.length < 0 := by
        rw [hprec, if_neg hmod]
        omega
      rw [if_pos hneg, List.length_take]
      exact Nat.min_eq_left (by unfold INT_MAX; omega)
    have htext := hlen (d.bytes.take (if precision line.length < 0 then INT_MAX else precision line.length).toNat)
    rw [htake] at htext
    have hprinted : ∀ l, (Printed.around (lit "data: ") l (lit "\r\n")).text = fieldLine (lit "data") l :=
      fun l => text_around _ l _
    refine h.print_as (prints_data line.length d) (need_around_le _ _ _) (by rw [hprinted, htext]; decide)
      (.inr ⟨by rw [hprinted, htext]; decide, ?_⟩)
    rw [hlen]
    omega

/-- The loop prints the lines of the data, one after another. -/
theorem putData_adds (d : CString) : ∀ {text : List UInt8} {o : Out}, Placed buf size text o →
    Adds buf size text (putData d o) ((dataLines d.bytes).map fun line => fieldLine (lit "data") (shown line)) := by
  induction hn : d.bytes.length using Nat.strong_induction_on generalizing d with
  | _ n ih =>
    intro text o h
    rw [putData]
    by_cases hd : d.bytes = []
    · rw [if_pos hd, hd]
      exact h.nothing
    · have hparts : d.bytes.takeWhile (· ≠ asc '\n') ++ d.bytes.dropWhile (· ≠ asc '\n') = d.bytes :=
        List.takeWhile_append_dropWhile
      have hline : d.bytes.takeWhile (· ≠ asc '\n') <+: d.bytes := List.takeWhile_prefix _
      have hlen := congrArg List.length hparts
      rw [List.length_append] at hlen
      rw [if_neg hd, dataLines_cons hd, List.map_cons, ← List.singleton_append]
      refine (putLine_adds h d hline).bind fun o' ho' => ?_
      by_cases hlast : (d.bytes.takeWhile (· ≠ asc '\n')).length = d.bytes.length
      · have hnil : d.bytes.dropWhile (· ≠ asc '\n') = [] := List.length_eq_zero_iff.1 (by omega)
        rw [if_pos hlast, hnil]
        exact ho'.nothing
      · have hrest : (dropChars d ((d.bytes.takeWhile (· ≠ asc '\n')).length + 1)).bytes =
          (d.bytes.dropWhile (· ≠ asc '\n')).tail := by
          have hdrop := @List.drop_left _ (d.bytes.takeWhile (· ≠ asc '\n')) (d.bytes.dropWhile (· ≠ asc '\n'))
          rw [hparts] at hdrop
          rw [dropChars_bytes, ← List.tail_drop, hdrop]
        rw [if_neg hlast, ← hrest]
        refine ih _ ?_ _ rfl ho'
        rw [hrest, List.length_tail, ← hn]
        omega

/-- The pieces make up the field lines of the event and the blank line behind them. -/
theorem eventPieces_fills (ev : Event) (data : CString) :
    Fills buf size (eventPieces ev data ⟨buf, 0, size⟩) (ev.Fits data size)
    ((ev.lines data).flatten ++ lit "\r\n") := by
  have hlines := (((putEvent_adds (Placed.start buf size) ev).bind fun _ h₁ => putId_adds h₁ ev).bind fun _ h₂ =>
    putRetry_adds h₂ ev).bind fun _ h₃ => putData_adds data h₃
  have hall := Fills.bind hlines fun _ h₄ => h₄.blank
  rw [bind_assoc, bind_assoc, bind_assoc] at hall
  refine hall.of_iff ?_
  have hroom : Room size 0 (ev.lines data) ∧ 0 + (ev.lines data).flatten.length + 2 ≤ size ↔
      (∀ t ∈ ev.lines data, t.length < 2 ^ 31) ∧ 0 + (ev.lines data).flatten.length + 2 ≤ size := room_iff (by decide)
  rw [Nat.zero_add] at hroom
  exact hroom

end Build

/-! ### Reading -/

theorem read_event (s : Stream) (hs : s.event = []) {v : Option CString} (hv : ∀ x, v = some x → NoBreak x.bytes)
    (rest : List UInt8) :
    s.read ((v.map fun event => fieldLine (lit "event") event.bytes).toList.flatten ++ rest) =
      { s with event := textOf v }.read rest := by
  cases v with
  | none =>
    cases s
    rw [show textOf none = [] from rfl, ← hs]
    rfl
  | some x =>
    rw [Option.map_some, Option.toList_some, List.flatten_singleton,
      read_field s (by decide) (by decide) (by decide) (hv x rfl)]
    rfl

theorem read_id (s : Stream) (hs : s.id = []) {v : Option CString} (hv : ∀ x, v = some x → NoBreak x.bytes)
    (rest : List UInt8) :
    s.read ((v.map fun id => fieldLine (lit "id") id.bytes).toList.flatten ++ rest) =
    { s with id := textOf v }.read rest := by
  cases v with
  | none =>
    cases s
    rw [show textOf none = [] from rfl, ← hs]
    rfl
  | some x =>
    have hfield : s.field (lit "id") x.bytes = { s with id := textOf (some x) } := if_neg x.noNul
    rw [Option.map_some, Option.toList_some, List.flatten_singleton,
      read_field s (by decide) (by decide) (by decide) (hv x rfl), hfield]

theorem read_retry (s : Stream) (hs : s.retry = none) (ev : Event) (rest : List UInt8) :
    s.read ((if ev.retry_ms.toInt > 0 then [fieldLine (lit "retry") (decText ev.retry_ms.toInt)] else []).flatten ++
    rest) =
      { s with retry := ev.retry }.read rest := by
  unfold Event.retry
  by_cases hretry : ev.retry_ms.toInt > 0
  · have htext : decText ev.retry_ms.toInt = numText 10 ev.retry_ms.toNat := by
      have habs : ev.retry_ms.toInt.natAbs = ev.retry_ms.toNat := by
        rw [BitVec.toInt_eq_toNat_cond] at hretry ⊢
        split at hretry
        · rw [if_pos ‹_›, Int.natAbs_natCast]
        · have := ev.retry_ms.isLt
          omega
      rw [decText, if_neg (by omega), habs]
    have hfield : s.field (lit "retry") (numText 10 ev.retry_ms.toNat) =
      { s with retry := some ev.retry_ms.toNat } := by
      change { s with retry := decimal (numText 10 ev.retry_ms.toNat) <|> s.retry } = _
      rw [decimal_numText]
      rfl
    rw [if_pos hretry, if_pos hretry, List.flatten_singleton, htext,
      read_field s (by decide) (by decide) (by decide) (numText_noBreak _), hfield]
  · rw [if_neg hretry, if_neg hretry, ← hs]
    rfl

theorem read_data (s : Stream) {lines : List (List UInt8)} (hlines : ∀ l ∈ lines, NoBreak l) (rest : List UInt8) :
    s.read ((lines.map fun line => fieldLine (lit "data") (shown line)).flatten ++ rest) =
      { s with data := s.data ++ lines.flatMap fun line => shown line ++ [asc '\n'] }.read rest := by
  induction lines generalizing s with
  | nil =>
    rw [List.flatMap_nil, List.append_nil]
    rfl
  | cons line lines ih =>
    obtain ⟨hline, hlines⟩ := List.forall_mem_cons.1 hlines
    have hshown : NoBreak (shown line) :=
      ⟨fun h => hline.1 (List.mem_of_mem_take h), fun h => hline.2 (List.mem_of_mem_take h)⟩
    have hfield : s.field (lit "data") (shown line) = { s with data := s.data ++ shown line ++ [asc '\n'] } := rfl
    rw [List.map_cons, List.flatten_cons, List.append_assoc, read_field s (by decide) (by decide) (by decide) hshown,
      hfield, ih _ hlines, List.flatMap_cons]
    simp only [List.append_assoc]

/-- A line of which all is shown is one whose length fits into 32 bits. -/
theorem shown_eq_iff (line : List UInt8) : (shown line).length = line.length ↔ line.length < 2 ^ 32 := by
  rw [shown, List.length_take]
  omega

theorem length_shown_le (line : List UInt8) : (shown line).length ≤ line.length := by
  rw [shown, List.length_take]
  exact Nat.min_le_right _ _

/-- What is lost of the lines shows in the length. -/
theorem length_flatMap_shown (lines : List (List UInt8)) :
    (lines.flatMap fun line => shown line ++ [asc '\n']).length ≤ (lines.flatMap (· ++ [asc '\n'])).length ∧
      ((lines.flatMap (· ++ [asc '\n'])).length ≤ (lines.flatMap fun line => shown line ++ [asc '\n']).length →
        ∀ line ∈ lines, line.length < 2 ^ 32) := by
  induction lines with
  | nil => exact ⟨Nat.le_refl _, fun _ _ h => absurd h List.not_mem_nil⟩
  | cons line lines ih =>
    have hle := length_shown_le line
    simp only [List.flatMap_cons, List.length_append, List.length_singleton, List.forall_mem_cons]
    refine ⟨by omega, fun h => ⟨(shown_eq_iff line).1 (by omega), ih.2 (by omega)⟩⟩

section Received

variable {ev : Event} {data : CString}

/-- A reader has the event's fields when it comes to the blank line. -/
theorem read_lines (hevent : ∀ v, ev.event = some v → NoBreak v.bytes) (hid : ∀ v, ev.id = some v → NoBreak v.bytes)
    (hdata : asc '\r' ∉ data.bytes) : Stream.fresh.read ((ev.lines data).flatten ++ lit "\r\n") =
      Stream.dispatch ⟨(dataLines data.bytes).flatMap fun line => shown line ++ [asc '\n'], textOf ev.event,
      textOf ev.id, ev.retry, []⟩ := by
  rw [Event.lines, List.flatten_append, List.flatten_append, List.flatten_append, List.append_assoc, List.append_assoc,
    List.append_assoc, read_event _ rfl hevent, read_id _ rfl hid, read_retry _ rfl,
    read_data _ (dataLines_noBreak hdata)]
  exact read_blank _ []

/-- The event is received exactly where its data is not empty, does not end with a newline and is shown. -/
theorem received_iff (hevent : ∀ v, ev.event = some v → NoBreak v.bytes) (hid : ∀ v, ev.id = some v → NoBreak v.bytes)
    (hdata : asc '\r' ∉ data.bytes) (hev : ev.data = some data) : ev.Received ((ev.lines data).flatten ++ lit "\r\n") ↔
      data.bytes ≠ [] ∧ data.bytes.getLast? ≠ some (asc '\n') ∧ ∀ line ∈ dataLines data.bytes,
      line.length < 2 ^ 32 := by
  have hflat := flatten_dataLines data.bytes
  obtain ⟨hle, hall⟩ := length_flatMap_shown (dataLines data.bytes)
  unfold Event.Received
  rw [read_lines hevent hid hdata]
  constructor
  · rintro ⟨data', hdata', hmessages, -⟩
    obtain rfl := Option.some.inj (hev.symm.trans hdata')
    unfold Stream.dispatch at hmessages
    split at hmessages
    · exact absurd hmessages (by simp)
    · next hne =>
      have hlast := congrArg List.length (congrArg Message.data (List.cons.inj hmessages).1)
      have hpos := List.length_pos_iff.2 hne
      rw [List.length_dropLast] at hlast
      dsimp only at hlast hpos
      by_cases hend : data.bytes = [] ∨ data.bytes.getLast? = some (asc '\n')
      · rw [if_pos hend, List.append_nil] at hflat
        rw [hflat] at hle
        omega
      · rw [not_or] at hend
        refine ⟨hend.1, hend.2, hall ?_⟩
        rw [hflat, if_neg (not_or.2 hend), List.length_append, List.length_singleton]
        omega
  · rintro ⟨hne, hend, hlines⟩
    have hshown : ((dataLines data.bytes).flatMap fun line => shown line ++ [asc '\n']) = data.bytes ++ [asc '\n'] := by
      rw [if_neg (not_or.2 ⟨hne, hend⟩)] at hflat
      rw [← hflat, List.flatMap_congr]
      intro line hline
      rw [shown, Nat.mod_eq_of_lt (hlines line hline), List.take_length]
    rw [hshown, Stream.dispatch, if_neg (by simp)]
    refine ⟨data, hev, ?_, rfl⟩
    rw [List.dropLast_concat]
    rfl

end Received

/-- An event that fits the buffer is built.  Of an event without line ends in its name and its id and without CR in
its data a reader gets the event back, where something was built, exactly if the data is not empty, does not end with
a newline and has no line of `2^32` characters or more. -/
theorem sse_round_trip (ev : Event) (hevent : ∀ v, ev.event = some v → NoBreak v.bytes)
    (hid : ∀ v, ev.id = some v → NoBreak v.bytes) (hdata : ∀ v, ev.data = some v → asc '\r' ∉ v.bytes)
    (buf : Nat → UInt8) (buf_size : Nat) :
    (∀ data, ev.data = some data → ev.Fits data buf_size → ∃ n buf', sseEventBuild buf buf_size ev = some (n, buf') ∧
    0 < n) ∧
      ((∀ n buf', sseEventBuild buf buf_size ev = some (n, buf') → 0 < n → ev.Received (bytesOf buf' n)) ↔
        ∀ data, ev.data = some data → ev.Fits data buf_size →
          data.bytes ≠ [] ∧ data.bytes.getLast? ≠ some (asc '\n') ∧ ∀ line ∈ dataLines data.bytes,
          line.length < 2 ^ 32) := by
  cases hev : ev.data with
  | none =>
    have hbuild : sseEventBuild buf buf_size ev = some (0, buf) := by rw [sseEventBuild, hev]
    refine ⟨fun data hdata => absurd hdata (by simp), iff_of_true (fun n buf' h hn => ?_) fun data hdata =>
      absurd hdata (by simp)⟩
    rw [hbuild] at h
    obtain ⟨rfl, -⟩ := Prod.mk.inj (Option.some.inj h)
    exact absurd hn (Nat.lt_irrefl 0)
  | some data =>
    obtain ⟨hbuilt, hrefused⟩ := (@eventPieces_fills buf buf_size ev data).answer
    have hbuild : sseEventBuild buf buf_size ev = (eventPieces ev data ⟨buf, 0, buf_size⟩).answer := by
      rw [sseEventBuild, hev]
    have hreceived := received_iff hevent hid (hdata data hev) hev
    rw [hbuild]
    by_cases hfits : ev.Fits data buf_size
    · obtain ⟨mem, hanswer, -, hbytes⟩ := hbuilt hfits
      have hpos : 0 < ((ev.lines data).flatten ++ lit "\r\n").length := by
        rw [List.length_append]
        exact Nat.lt_of_lt_of_le (by decide : 0 < (lit "\r\n").length) (Nat.le_add_left _ _)
      refine ⟨fun _ _ _ => ⟨_, mem, hanswer, hpos⟩, ?_⟩
      rw [hanswer]
      constructor
      · rintro h data' hdata' -
        obtain rfl := Option.some.inj hdata'
        have := h _ _ rfl hpos
        rwa [hbytes, hreceived] at this
      · intro h n buf' heq _
        obtain ⟨rfl, rfl⟩ := Prod.mk.inj (Option.some.inj heq)
        rw [hbytes, hreceived]
        exact h data rfl hfits
    · refine ⟨fun data' hdata' hfits' => ?_, iff_of_true (fun n buf' h hn => ?_) fun data' hdata' hfits' => ?_⟩
      · obtain rfl := Option.some.inj hdata'
        exact absurd hfits' hfits
      · exact absurd (hrefused hfits n buf' h).1 (Nat.pos_iff_ne_zero.1 hn)
      · obtain rfl := Option.some.inj hdata'
        exact absurd hfits' hfits

/-- An event with a name, three lines and a reconnection time in a buffer of 64 bytes. -/
theorem sse_round_trip_tick : ∃ n buf',
    sseEventBuild (fun _ => 0) 64 ⟨some ⟨lit "tick", by decide⟩, some ⟨lit "one\n\ntwo", by decide⟩, none, 3000⟩ =
    some (n, buf') ∧
      0 < n ∧ Event.Received ⟨some ⟨lit "tick", by decide⟩, some ⟨lit "one\n\ntwo", by decide⟩, none, 3000⟩
        (bytesOf buf' n) := by
  have hfits : Event.Fits ⟨some ⟨lit "tick", by decide⟩, some ⟨lit "one\n\ntwo", by decide⟩, none, 3000⟩
    ⟨lit "one\n\ntwo", by decide⟩
      64 := by
    unfold Event.Fits
    decide
  obtain ⟨hbuilds, hiff⟩ :=
    sse_round_trip ⟨some ⟨lit "tick", by decide⟩, some ⟨lit "one\n\ntwo", by decide⟩, none, 3000⟩
    (fun v hv => by obtain rfl := Option.some.inj hv; decide) (fun v hv => absurd hv (by simp))
    (fun v hv => by obtain rfl := Option.some.inj hv; decide) (fun _ => 0) 64
  obtain ⟨n, buf', hbuild, hpos⟩ := hbuilds _ rfl hfits
  refine ⟨n, buf', hbuild, hpos, hiff.2 (fun data hdata _ => ?_) n buf' hbuild hpos⟩
  obtain rfl := Option.some.inj hdata
  exact ⟨by decide, by decide, by decide⟩

/-- The newline at the end of the data is lost. -/
theorem sse_round_trip_newline : ∃ n buf',
    sseEventBuild (fun _ => 0) 64 ⟨none, some ⟨lit "a\n", by decide⟩, none, 0⟩ = some (n, buf') ∧ 0 < n ∧
      ¬Event.Received ⟨none, some ⟨lit "a\n", by decide⟩, none, 0⟩ (bytesOf buf' n) := by
  have hfits : Event.Fits ⟨none, some ⟨lit "a\n", by decide⟩, none, 0⟩ ⟨lit "a\n", by decide⟩ 64 := by
    unfold Event.Fits
    decide
  obtain ⟨mem, hanswer, -, hbytes⟩ := (@eventPieces_fills (fun _ => 0) 64
    ⟨none, some ⟨lit "a\n", by decide⟩, none, 0⟩ ⟨lit "a\n", by decide⟩).answer.1 hfits
  refine ⟨_, mem, hanswer, by decide, ?_⟩
  rw [hbytes, received_iff (fun v hv => absurd hv (by simp)) (fun v hv => absurd hv (by simp)) (by decide) rfl]
  exact fun h => h.2.1 rfl

end JACLibc.Sse
