import JACLibc.Format.Builder

/-!
# Responses

`http_res_header` collects header lines in a buffer of the response, and `http_res_build` puts the status line, these
lines, the length of the body, a blank line and the body into the buffer of its caller.  Each piece is refused where
it does not fit, so that what is built is the whole message or nothing; but where it is the key, the value or the
reason that does not fit, `snprintf` does not return (`response_assembly`).
-/

namespace JACLibc.Http

/-- `http_code_reason`; the codes are those of `http_code_t`. -/
def codeReason (code : BitVec 32) : CString :=
  match code.toNat with
  | 200 => ⟨lit "OK", by decide⟩
  | 201 => ⟨lit "Created", by decide⟩
  | 204 => ⟨lit "No Content", by decide⟩
  | 301 => ⟨lit "Moved Permanently", by decide⟩
  | 302 => ⟨lit "Found", by decide⟩
  | 304 => ⟨lit "Not Modified", by decide⟩
  | 401 => ⟨lit "Unauthorized", by decide⟩
  | 403 => ⟨lit "Forbidden", by decide⟩
  | 404 => ⟨lit "Not Found", by decide⟩
  | 405 => ⟨lit "Method Not Allowed", by decide⟩
  | 400 => ⟨lit "Bad Request", by decide⟩
  | 501 => ⟨lit "Not Implemented", by decide⟩
  | 502 => ⟨lit "Bad Gateway", by decide⟩
  | 503 => ⟨lit "Service Unavailable", by decide⟩
  | _ => ⟨lit "Unknown", by decide⟩

/-- `http_res_t`, with what the building reads. -/
structure Res where
  code : BitVec 32
  reason : CString
  hdr_buf : Nat → UInt8
  hdr_len : Nat
  hdr_cap : Nat
  body : Option (Nat → UInt8)
  body_len : BitVec 64
  file_fd : Int
  chunked : Bool

/-- `http_res_init` -/
def resInit (code : BitVec 32) (reason : Option CString) : Res where
  code := code
  reason := reason.getD (codeReason code)
  hdr_buf := fun _ => 0
  hdr_len := 0
  hdr_cap := 1024
  body := none
  body_len := 0
  file_fd := -1
  chunked := false

/-- What `http_res_header` makes of an `n` that is not refused. -/
def Res.added (res : Res) (r : Option Nat × (Nat → UInt8)) : Int × Res :=
  match r.1 with
  | none => (-1, { res with hdr_buf := r.2 })
  | some n => (0, { res with hdr_buf := r.2, hdr_len := res.hdr_len + n })

/-- `http_res_header` -/
def resHeader (res : Res) (key val : Option CString) : Option (Int × Res) :=
  match key, val with
  | some key, some val =>
    let rem := toSize (res.hdr_cap - res.hdr_len)
    if rem < 32 then some (-1, res)
    else (appendf res.hdr_buf res.hdr_len rem ⟨lit "%s: %s\r\n", by decide⟩ [.str key, .str val]).map res.added
  | _, _ => some (-1, res)

/-- `http_res_body` -/
def resBody (res : Res) (data : Option (Nat → UInt8)) (len : BitVec 64) : Res :=
  { res with body := data, body_len := len, file_fd := -1, chunked := false }

/-- `res->body && res->body_len > 0 && !res->chunked && res->file_fd < 0` -/
def Res.hasBody (res : Res) : Bool := res.body.isSome && res.body_len ≠ 0 && !res.chunked && res.file_fd < 0

/-- `res->body[0 .. body_len)` -/
def Res.bodyBytes (res : Res) : List UInt8 := (res.body.map fun body => bytesOf body res.body_len.toNat).getD []

/-- The pieces of `http_res_build`, one after another. -/
def putStatus (res : Res) (o : Out) : Piece :=
  o.print ⟨lit "HTTP/1.1 %d %s\r\n", by decide⟩ [.int (res.code.setWidth 64), .str res.reason]

def putHeaders (res : Res) (o : Out) : Piece :=
  if res.hdr_len > 0 then o.copy (res.hdr_len ≥ o.rem) (bytesOf res.hdr_buf res.hdr_len) else pure o

def putLength (res : Res) (o : Out) : Piece :=
  if res.hasBody then o.print ⟨lit "Content-Length: %zu\r\n", by decide⟩ [.int res.body_len] else pure o

def putBody (res : Res) (o : Out) : Piece :=
  if res.hasBody then o.copy (res.body_len.toNat > o.rem) res.bodyBytes else pure o

def buildPieces (buf : Nat → UInt8) (buf_size : Nat) (res : Res) : Piece := do
  let o ← putStatus res ⟨buf, 0, buf_size⟩
  let o ← putHeaders res o
  let o ← putLength res o
  let o ← o.blank
  putBody res o

/-- `http_res_build`: the answer and the buffer. -/
def resBuild (buf : Nat → UInt8) (buf_size : Nat) (res : Res) : Option (Nat × (Nat → UInt8)) :=
  if buf_size < 64 then some (0, buf)
  else (buildPieces buf buf_size res).answer

/-! ### The message -/

/-- A field of the header. -/
structure Field where
  key : CString
  val : CString

def Field.line (f : Field) : List UInt8 := f.key.bytes ++ lit ": " ++ f.val.bytes ++ lit "\r\n"

/-- The status line. -/
def statusLine (code : BitVec 32) (reason : CString) : List UInt8 :=
  lit "HTTP/1.1 " ++ decText code.toInt ++ lit " " ++ reason.bytes ++ lit "\r\n"

/-- The length of the body, in front of the blank line, if there is a body. -/
def lengthLine (body : List UInt8) : List UInt8 :=
  if body = [] then [] else lit "Content-Length: " ++ numText 10 body.length ++ lit "\r\n"

/-- The status line, the fields, the length of the body if there is one, a blank line, and the body. -/
def message (code : BitVec 32) (reason : CString) (fields : List Field) (body : List UInt8) : List UInt8 :=
  statusLine code reason ++ fields.flatMap Field.line ++ lengthLine body ++ lit "\r\n" ++ body

/-- The responses along the calls of `http_res_header`, and the fields that were added. -/
def headers : Res → List (Option CString × Option CString) → Option (List Field × Res)
  | res, [] => some ([], res)
  | res, (key, val) :: calls =>
    (resHeader res key val).bind fun r =>
      (headers r.2 calls).map fun rest =>
        match key, val with
        | some key, some val => if r.1 = 0 then (⟨key, val⟩ :: rest.1, rest.2) else rest
        | _, _ => rest

/-- In front of the last of `rem` bytes there is a place for the key and the value, and for what stands between them
where there is a value. -/
def Field.Fits (f : Field) (rem : Nat) : Prop :=
  if f.val.bytes = [] then f.key.bytes.length < rem else f.key.bytes.length + 2 + f.val.bytes.length < rem

instance (f : Field) (rem : Nat) : Decidable (f.Fits rem) := by
  unfold Field.Fits
  infer_instance

/-- Every key and value finds a place behind the lines that the calls before have added; `used` bytes hold lines
already, and with less than 32 bytes left nothing is printed. -/
def HeadersFit : Nat → List (Option CString × Option CString) → Prop
  | _, [] => True
  | used, (some key, some val) :: calls =>
    if 1024 - used < 32 then HeadersFit used calls
    else Field.Fits ⟨key, val⟩ (1024 - used) ∧
      HeadersFit (if (Field.line ⟨key, val⟩).length < 1024 - used then used + (Field.line ⟨key, val⟩).length
      else used) calls
  | used, _ :: calls => HeadersFit used calls

/-- The reason finds a place in the buffer behind the code. -/
def StatusFits (code : BitVec 32) (reason : CString) (size : Nat) : Prop :=
  reason.bytes = [] ∨ (lit "HTTP/1.1 " ++ decText code.toInt ++ lit " " ++ reason.printed).length < size

/-! ### The texts of the formats -/

/-- What `snprintf` prints of a field. -/
def Field.text (f : Field) : Printed :=
  (Printed.str f.key.printed).append (.around (lit ": ") f.val.printed (lit "\r\n"))

theorem prints_header (f : Field) : Prints ⟨lit "%s: %s\r\n", by decide⟩ [.str f.key, .str f.val] f.text := by
  intro w
  rw [Field.text, print_append]
  refine (printfLoop_s _ 8 _ (lit ": %s\r\n") [1, 2] (by decide)).trans (Option.bind_congr fun w _ => ?_)
  rw [print_around]
  refine (printfLoop_literals _ 6 _ (lit "%s\r\n") _ (lit ": ") (by decide)).trans ?_
  refine (printfLoop_s _ 5 _ (lit "\r\n") [2] (by decide)).trans (Option.bind_congr fun w _ => ?_)
  exact printfLoop_literals (strings [.str f.key, .str f.val]) 3 w [] _ (lit "\r\n") (by decide)

theorem prints_status (code : BitVec 32) (reason : CString) : Prints ⟨lit "HTTP/1.1 %d %s\r\n", by decide⟩
    [.int (code.setWidth 64), .str reason]
    (.around (lit "HTTP/1.1 " ++ decText code.toInt ++ lit " ") reason.printed (lit "\r\n")) := by
  intro w
  have hcode : ((code.setWidth 64).setWidth 32).toInt = code.toInt := by
    rw [BitVec.setWidth_setWidth_of_le _ (by decide), BitVec.setWidth_eq]
  rw [print_around, ← hcode, ← send_send, ← send_send]
  refine (printfLoop_literals _ 8 _ _ _ (lit "HTTP/1.1 ") (by decide)).trans ?_
  refine (printfLoop_d _ 7 _ _ _).trans ?_
  refine (printfLoop_literals _ 6 _ _ _ (lit " ") (by decide)).trans ?_
  refine (printfLoop_s _ 5 _ _ [2] (by decide)).trans (Option.bind_congr fun w _ => ?_)
  exact printfLoop_literals (strings [.int (code.setWidth 64), .str reason]) 3 w [] _ (lit "\r\n") (by decide)

theorem prints_length (n : BitVec 64) : Prints ⟨lit "Content-Length: %zu\r\n", by decide⟩ [.int n]
    (.plain (lit "Content-Length: " ++ numText 10 n.toNat ++ lit "\r\n")) := by
  intro w
  rw [print_plain]
  refine (printfLoop_literals _ 6 _ _ _ (lit "Content-Length: ") (by decide)).trans ?_
  refine (printfLoop_zu _ 5 _ _ _).trans ?_
  refine (printfLoop_literals _ 3 _ [] _ (lit "\r\n") (by decide)).trans ?_
  simp only [printfLoop, send_send]
  rfl

/-! ### Headers -/

/-- The response holds the lines of the fields. -/
structure Held (res : Res) (fields : List Field) : Prop where
  cap : res.hdr_cap = 1024
  len : res.hdr_len = (fields.flatMap Field.line).length
  lines : Written (fun _ => 0) res.hdr_buf 1024 (fields.flatMap Field.line)

theorem Held.room {res : Res} {fields : List Field} (h : Held res fields) :
    toSize (res.hdr_cap - res.hdr_len) = 1024 - res.hdr_len ∧ res.hdr_len ≤ 1024 := by
  have hfits := h.lines.fits
  rw [← h.len] at hfits
  refine ⟨?_, hfits⟩
  rw [h.cap, toSize]
  omega

theorem length_printed (s : CString) : s.printed.length = min (2 ^ 31 - 1) s.bytes.length := List.length_take

theorem printed_eq_nil (s : CString) : s.printed = [] ↔ s.bytes = [] := by
  rw [← List.length_eq_zero_iff, ← List.length_eq_zero_iff, length_printed]
  omega

theorem Field.length_line (f : Field) : f.line.length = f.key.bytes.length + f.val.bytes.length + 4 := by
  simp only [Field.line, List.length_append]
  rw [show (lit ": ").length = 2 from rfl, show (lit "\r\n").length = 2 from rfl]
  omega

/-- The characters of the strings that are printed find a place exactly if the strings do. -/
theorem Field.need_le_iff (f : Field) {rem : Nat} (hrem : 0 < rem) (hshort : rem ≤ 1024) : f.text.need ≤ rem - 1 ↔
    f.Fits rem := by
  have hkey := length_printed f.key
  have hval := length_printed f.val
  have htwo : (lit ": ").length = 2 := rfl
  have hneed := need_around (lit ": ") f.val.printed (lit "\r\n")
  by_cases hnil : f.val.bytes = []
  · rw [if_pos ((printed_eq_nil _).2 hnil)] at hneed
    rw [Field.Fits, if_pos hnil]
    simp only [Field.text, Printed.append, Printed.str, hneed, if_true]
    omega
  · rw [if_neg fun h => hnil ((printed_eq_nil _).1 h)] at hneed
    rw [Field.Fits, if_neg hnil]
    have hpos := List.length_pos_iff.2 hnil
    simp only [Field.text, Printed.append, Printed.str, hneed]
    rw [if_neg (by omega)]
    omega

/-- A text whose strings have a place is the line. -/
theorem Field.text_eq {f : Field} {rem : Nat} (hshort : rem ≤ 1024) (h : f.Fits rem) : f.text.text = f.line := by
  have hlen : f.key.bytes.length < rem ∧ f.val.bytes.length < rem := by
    unfold Field.Fits at h
    split at h
    · rename_i hnil
      rw [hnil, List.length_nil]
      omega
    · omega
  rw [Field.text, Field.line, CString.printed, CString.printed, List.take_of_length_le (by omega),
    List.take_of_length_le (by omega)]
  simp only [Printed.append, text_around, Printed.str, List.append_assoc]

/-- A call with room for a line returns exactly if the key and the value find a place, and adds the line if all of it
does. -/
theorem resHeader_eq {res : Res} {fields : List Field} (h : Held res fields) (f : Field)
    (hrem : ¬1024 - res.hdr_len < 32) :
    ∃ bs : List UInt8, bs.length ≤ 1024 - res.hdr_len ∧ (f.line.length < 1024 - res.hdr_len →
    f.Fits (1024 - res.hdr_len) → bs = f.line ++ [0]) ∧
      resHeader res (some f.key) (some f.val) = if f.Fits (1024 - res.hdr_len) then
        some (res.added (if f.line.length < 1024 - res.hdr_len then some f.line.length else none,
        storeBytes res.hdr_buf res.hdr_len bs))
      else none := by
  obtain ⟨bs, hbs, hfit, hprint⟩ := snprintf_eq (prints_header f) res.hdr_buf res.hdr_len (1024 - res.hdr_len)
  have hneed := @Field.need_le_iff f (1024 - res.hdr_len) (by omega) (by omega)
  refine ⟨bs, hbs, fun hline hfits => ?_, ?_⟩
  · have htext := Field.text_eq (Nat.sub_le _ _) hfits
    rw [htext] at hfit
    exact hfit hline
  · rw [resHeader]
    simp only [h.room.1, if_neg hrem, appendf]
    rw [hprint]
    by_cases hfits : f.Fits (1024 - res.hdr_len)
    · have htext := Field.text_eq (Nat.sub_le _ _) hfits
      have hlen := f.length_line
      have hshort : f.line.length < 2000 := by
        unfold Field.Fits at hfits
        split at hfits
        · rename_i hnil
          rw [hnil, List.length_nil] at hlen
          omega
        · omega
      have hwrap : wrapInt f.line.length = f.line.length := wrapInt_of_le (by omega) (by unfold INT_MAX; omega)
      rw [if_pos (hneed.2 hfits), if_pos hfits, Option.map_some, Option.map_some, htext, hwrap, Int.toNat_natCast]
      by_cases hline : f.line.length < 1024 - res.hdr_len
      · rw [if_neg (by omega), if_pos hline]
      · rw [if_pos (by omega), if_neg hline]
    · rw [if_neg fun hle => hfits (hneed.1 hle), if_neg hfits]
      rfl

/-- A call that does not print. -/
theorem resHeader_full {res : Res} {fields : List Field} (h : Held res fields) (hrem : 1024 - res.hdr_len < 32)
    (key val : CString) :
    resHeader res (some key) (some val) = some (-1, res) := by
  rw [resHeader]
  simp only [h.room.1, if_pos hrem]

/-- A call that refuses its line. -/
theorem refused_held {res : Res} {fields : List Field} (h : Held res fields) {bs : List UInt8}
    (hbs : bs.length ≤ 1024 - res.hdr_len) :
    Held (res.added (none, storeBytes res.hdr_buf res.hdr_len bs)).2 fields ∧
      ∀ i < res.hdr_len, storeBytes res.hdr_buf res.hdr_len bs i = res.hdr_buf i := by
  have hlen := h.len
  have hroom := h.room.2
  refine ⟨⟨h.cap, h.len, ?_⟩, fun i hi => if_neg (Nat.not_le.2 hi)⟩
  have := h.lines.scratch bs (by omega)
  rwa [← hlen] at this

/-- A failing call leaves the lines as they are, whatever it was asked for. -/
theorem resHeader_fails {res : Res} {fields : List Field} (h : Held res fields) {key val : Option CString}
    {r : Int × Res} (hr : resHeader res key val = some r) (hfail : r.1 ≠ 0) :
    Held r.2 fields ∧ r.2.hdr_len = res.hdr_len ∧ ∀ i < res.hdr_len, r.2.hdr_buf i = res.hdr_buf i := by
  have same : ∀ {r : Int × Res}, some ((-1 : Int), res) = some r →
      Held r.2 fields ∧ r.2.hdr_len = res.hdr_len ∧ ∀ i < res.hdr_len, r.2.hdr_buf i = res.hdr_buf i := by
    intro r hr
    obtain rfl := Option.some.inj hr
    exact ⟨h, rfl, fun _ _ => rfl⟩
  cases key with
  | none => exact same hr
  | some key =>
    cases val with
    | none => exact same hr
    | some val =>
      by_cases hrem : 1024 - res.hdr_len < 32
      · rw [resHeader_full h hrem] at hr
        exact same hr
      · obtain ⟨bs, hbs, -, heq⟩ := resHeader_eq h ⟨key, val⟩ hrem
        rw [heq] at hr
        split at hr
        · obtain rfl := Option.some.inj hr
          split at hfail
          · exact absurd rfl hfail
          · rename_i hline
            obtain ⟨hheld, hsame⟩ := refused_held h hbs
            rw [if_neg hline]
            exact ⟨hheld, rfl, hsame⟩
        · exact absurd hr (by simp)

/-- A call that adds its line. -/
theorem added_held {res : Res} {fields : List Field} (h : Held res fields) {f : Field}
    (hline : f.line.length < 1024 - res.hdr_len) :
    Held (res.added (some f.line.length, storeBytes res.hdr_buf res.hdr_len (f.line ++ [0]))).2 (fields ++ [f]) := by
  have hlen := h.len
  refine ⟨h.cap, ?_, ?_⟩
  · rw [List.flatMap_append, List.length_append, ← h.len, List.flatMap_singleton]
    rfl
  · have hstore := h.lines.store f.line [0] (by
      rw [List.length_append, List.length_singleton]
      omega)
    rw [← hlen] at hstore
    rw [List.flatMap_append, List.flatMap_singleton]
    exact hstore

theorem resInit_held (code : BitVec 32) (reason : Option CString) : Held (resInit code reason) [] :=
  ⟨rfl, rfl, Written.empty _ _⟩

/-- Along calls that find their places the response holds the lines of the fields that were added, in order; and other
calls are not done. -/
theorem headers_held {res : Res} {fields : List Field} (h : Held res fields)
    (calls : List (Option CString × Option CString)) :
    (HeadersFit res.hdr_len calls → ∃ more res', headers res calls = some (more, res') ∧ Held res' (fields ++ more) ∧
      res'.code = res.code ∧ res'.reason = res.reason) ∧
      (¬HeadersFit res.hdr_len calls → headers res calls = none) := by
  induction calls generalizing res fields with
  | nil => exact ⟨fun _ => ⟨[], res, rfl, by rwa [List.append_nil], rfl, rfl⟩, fun hfit => absurd trivial hfit⟩
  | cons call calls ih =>
    obtain ⟨key, val⟩ := call
    -- a call that fails and leaves the response as it is
    have hskip : resHeader res key val = some (-1, res) → headers res ((key, val) :: calls) = headers res calls := by
      intro hr
      rw [headers, hr, Option.bind_some]
      cases key <;> cases val <;> simp
    cases key with
    | none => rw [hskip rfl]; exact ih h
    | some key =>
      cases val with
      | none => rw [hskip rfl]; exact ih h
      | some val =>
        by_cases hrem : 1024 - res.hdr_len < 32
        · rw [hskip (resHeader_full h hrem key val), HeadersFit, if_pos hrem]
          exact ih h
        · obtain ⟨bs, hbs, hstored, heq⟩ := resHeader_eq h ⟨key, val⟩ hrem
          rw [HeadersFit, if_neg hrem]
          by_cases hfits : Field.Fits ⟨key, val⟩ (1024 - res.hdr_len)
          · rw [if_pos hfits] at heq
            rw [and_iff_right hfits, headers, heq, Option.bind_some]
            by_cases hline : (Field.line ⟨key, val⟩).length < 1024 - res.hdr_len
            · obtain rfl := hstored hline hfits
              obtain ⟨hgo, hstop⟩ := ih (added_held h hline)
              rw [if_pos hline, if_pos hline]
              refine ⟨fun hrest => ?_, fun hrest => by rw [hstop hrest]; rfl⟩
              obtain ⟨more, res', hmore, hheld, hcode, hreason⟩ := hgo hrest
              refine ⟨⟨key, val⟩ :: more, res', ?_, by rwa [List.append_assoc] at hheld, hcode, hreason⟩
              rw [hmore]
              rfl
            · obtain ⟨hgo, hstop⟩ := ih (refused_held h hbs).1
              rw [if_neg hline, if_neg hline]
              refine ⟨fun hrest => ?_, fun hrest => by rw [hstop hrest]; rfl⟩
              obtain ⟨more, res', hmore, hheld, hcode, hreason⟩ := hgo hrest
              refine ⟨more, res', ?_, hheld, hcode, hreason⟩
              rw [hmore]
              rfl
          · rw [if_neg hfits] at heq
            refine ⟨fun hall => absurd hall.1 hfits, fun _ => ?_⟩
            rw [headers, heq]
            rfl

/-! ### Building -/

section Build

variable {buf : Nat → UInt8} {size : Nat} {text : List UInt8} {o : Out}

theorem Held.bytes {res : Res} {fields : List Field} (h : Held res fields) :
    bytesOf res.hdr_buf res.hdr_len = fields.flatMap Field.line := by
  apply List.ext_getElem
  · rw [length_bytesOf, h.len]
  · intro i h₁ h₂
    simp only [bytesOf, List.getElem_map, List.getElem_range]
    exact h.lines.stored i h₂

theorem hasBody_iff (res : Res) (data : Option (Nat → UInt8)) (len : BitVec 64) :
    (resBody res data len).hasBody = true ↔ (resBody res data len).bodyBytes ≠ [] := by
  cases data with
  | none => exact iff_of_false Bool.false_ne_true fun h => h rfl
  | some data =>
    have hlen : len ≠ 0 ↔ len.toNat ≠ 0 := by
      rw [ne_eq, ← BitVec.toNat_inj]
      rfl
    have hbytes : (resBody res (some data) len).bodyBytes = bytesOf data len.toNat := rfl
    rw [hbytes, ← List.length_pos_iff, length_bytesOf, Nat.pos_iff_ne_zero, ← hlen]
    change (true && decide (len ≠ 0) && !false && decide ((-1 : Int) < 0)) = true ↔ len ≠ 0
    simp

variable (res : Res) {fields : List Field} (data : Option (Nat → UInt8)) (len : BitVec 64)

/-- Whether the source takes the response to have a body, and what it takes for the body. -/
theorem body_cases :
    ((resBody res data len).hasBody = true ∧ (resBody res data len).bodyBytes ≠ [] ∧
      (resBody res data len).bodyBytes.length = len.toNat) ∨
    (¬(resBody res data len).hasBody = true ∧ (resBody res data len).bodyBytes = []) := by
  by_cases hbody : (resBody res data len).hasBody = true
  · have hne := (hasBody_iff res data len).1 hbody
    refine .inl ⟨hbody, hne, ?_⟩
    cases data with
    | none => exact absurd rfl hne
    | some data => exact length_bytesOf _ _
  · refine .inr ⟨hbody, ?_⟩
    by_contra hne
    exact hbody ((hasBody_iff res data len).2 hne)

theorem putLength_fills (h : Placed buf size text o) : Fills buf size (putLength (resBody res data len) o)
    (lengthLine (resBody res data len).bodyBytes = [] ∨
    text.length + (lengthLine (resBody res data len).bodyBytes).length < size)
    (text ++ lengthLine (resBody res data len).bodyBytes) := by
  unfold putLength
  rcases body_cases res data len with ⟨hbody, hne, hlen⟩ | ⟨hbody, hnil⟩
  · have hline : lengthLine (resBody res data len).bodyBytes = lit "Content-Length: " ++ numText 10 len.toNat ++
      lit "\r\n" := by
      rw [lengthLine, if_neg hne, hlen]
    have hdigits := length_numText_le (by decide : 1 < 10) (by decide : 0 < 20) (show len.toNat < 10 ^ 20 by omega)
    have hcount : (lengthLine (resBody res data len).bodyBytes).length = 18 + (numText 10 len.toNat).length := by
      rw [hline, List.length_append, List.length_append, show (lit "Content-Length: ").length = 16 from rfl,
        show (lit "\r\n").length = 2 from rfl]
      omega
    rw [if_pos hbody]
    have hprints : Prints ⟨lit "Content-Length: %zu\r\n", by decide⟩ [.int len]
        (.plain (lengthLine (resBody res data len).bodyBytes)) := by
      rw [hline]
      exact prints_length len
    have hshort : (lengthLine (resBody res data len).bodyBytes).length < 2 ^ 31 := by omega
    refine (h.print hprints (Nat.zero_le _) (Nat.lt_trans hshort (by decide))).of_iff ⟨fun hfit => .inr hfit.1, ?_⟩
    rintro (hnil | hfit)
    · rw [hnil, List.length_nil] at hcount
      omega
    · exact ⟨hfit, hshort⟩
  · have hline : lengthLine (resBody res data len).bodyBytes = [] := if_pos hnil
    rw [if_neg hbody, hline, List.append_nil]
    exact h.skip.of_iff ⟨fun _ => .inl rfl, fun _ => trivial⟩

theorem putBody_fills (h : Placed buf size text o) : Fills buf size (putBody (resBody res data len) o)
    (text.length + (resBody res data len).bodyBytes.length ≤ size) (text ++ (resBody res data len).bodyBytes) := by
  have hrem := h.rem
  have hfits := h.written.fits
  unfold putBody
  rcases body_cases res data len with ⟨hbody, -, hlen⟩ | ⟨hbody, hnil⟩
  · rw [if_pos hbody]
    have hlen' : (resBody res data len).body_len = len := rfl
    refine (h.copy fun hfit => ?_).of_iff ?_
    · rw [hlen]
      exact Nat.not_lt.1 (of_decide_eq_false hfit)
    · rw [decide_eq_false_iff_not, hlen, hlen']
      omega
  · rw [if_neg hbody, hnil, List.append_nil]
    exact h.skip.of_iff ⟨fun _ => by simpa using hfits, fun _ => trivial⟩

theorem putStatus_fills (h : Placed buf size text o) : Fills buf size (putStatus res o)
    (text.length + (statusLine res.code res.reason).length < size ∧ (statusLine res.code res.reason).length < 2 ^ 31)
    (text ++ statusLine res.code res.reason) := by
  have hcode := length_decText res.code
  have hbefore : (lit "HTTP/1.1 " ++ decText res.code.toInt ++ lit " ").length = 10 +
    (decText res.code.toInt).length := by
    rw [List.length_append, List.length_append, show (lit "HTTP/1.1 ").length = 9 from rfl,
      show (lit " ").length = 1 from rfl]
    omega
  have hafter : (lit "\r\n").length = 2 := rfl
  exact h.print_str (prints_status res.code res.reason) (by omega) (by omega)

variable {res}

theorem putHeaders_fills (hh : Held res fields) (h : Placed buf size text o) : Fills buf size (putHeaders res o)
    (res.hdr_len = 0 ∨ text.length + res.hdr_len < size) (text ++ fields.flatMap Field.line) := by
  have hrem := h.rem
  unfold putHeaders
  by_cases hpos : res.hdr_len > 0
  · rw [if_pos hpos, ← hh.bytes]
    refine (h.copy fun hfit => ?_).of_iff ?_
    · have := of_decide_eq_false hfit
      rw [length_bytesOf]
      omega
    · rw [decide_eq_false_iff_not]
      omega
  · have hnil : fields.flatMap Field.line = [] := by
      have := hh.len
      exact List.length_eq_zero_iff.1 (by omega)
    rw [if_neg hpos, hnil, List.append_nil]
    exact h.skip.of_iff ⟨fun _ => .inl (Nat.eq_zero_of_not_pos hpos), fun _ => trivial⟩

/-- The pieces make up the message. -/
theorem buildPieces_fills (hh : Held res fields) : ∃ c, Fills buf size (buildPieces buf size (resBody res data len)) c
    (message res.code res.reason fields (resBody res data len).bodyBytes) := by
  have hheld : Held (resBody res data len) fields := ⟨hh.cap, hh.len, hh.lines⟩
  have hall := (((putStatus_fills (resBody res data len) (Placed.start buf size)).bind fun _ h₁ =>
    putHeaders_fills hheld h₁).bind fun _ h₂ => putLength_fills res data len h₂).bind fun _ h₃ => h₃.blank
  have hbody := hall.bind fun _ h₄ => putBody_fills res data len h₄
  rw [bind_assoc, bind_assoc, bind_assoc] at hbody
  exact ⟨_, hbody⟩

/-! ### What returns -/

/-- A piece behind which nothing can hang. -/
theorem bind_eq_none {x : Piece} {f : Out → Piece} (hf : ∀ o, (f o).run ≠ none) : (x >>= f).run = none ↔
    x.run = none := by
  rw [ExceptT.run_bind]
  cases x.run with
  | none => exact iff_of_true rfl rfl
  | some r =>
    refine iff_of_false ?_ (by simp)
    cases r with
    | error mem => exact Option.some_ne_none _
    | ok o => exact hf o

theorem copy_ne_none (o : Out) (refused : Bool) (bs : List UInt8) : (o.copy refused bs).run ≠ none := by
  cases refused <;> exact Option.some_ne_none _

theorem putHeaders_ne_none (res : Res) (o : Out) : (putHeaders res o).run ≠ none := by
  unfold putHeaders
  split
  · exact copy_ne_none o _ _
  · exact Option.some_ne_none _

theorem blank_ne_none (o : Out) : o.blank.run ≠ none := copy_ne_none o _ _

theorem putLength_ne_none (res : Res) (o : Out) : (putLength res o).run ≠ none := by
  unfold putLength
  split
  · intro hnone
    exact (o.print_returns (prints_length res.body_len)).1 hnone (Nat.zero_le _)
  · exact Option.some_ne_none _

theorem putBody_ne_none (res : Res) (o : Out) : (putBody res o).run ≠ none := by
  unfold putBody
  split
  · exact copy_ne_none o _ _
  · exact Option.some_ne_none _

/-- Nothing but the status line can hang. -/
theorem buildPieces_eq_none (buf : Nat → UInt8) (size : Nat) (res : Res) :
    (buildPieces buf size res).run = none ↔ ¬StatusFits res.code res.reason size := by
  have hrest : ∀ o, (putHeaders res o >>= putLength res >>= Out.blank >>= putBody res).run ≠ none := by
    intro o hnone
    rw [bind_eq_none (putBody_ne_none res), bind_eq_none blank_ne_none, bind_eq_none (putLength_ne_none res)] at hnone
    exact putHeaders_ne_none res o hnone
  have hpieces : buildPieces buf size res =
      putStatus res ⟨buf, 0, size⟩ >>= fun o => putHeaders res o >>= putLength res >>= Out.blank >>= putBody res := by
    simp only [bind_assoc]
    rfl
  rw [hpieces, bind_eq_none hrest]
  refine (Out.print_returns (prints_status res.code res.reason) ⟨buf, 0, size⟩).trans (not_congr ?_)
  have hpos : 0 < (lit "HTTP/1.1 " ++ decText res.code.toInt ++ lit " ").length := by
    rw [List.length_append]
    exact Nat.lt_add_left _ (by decide)
  rw [need_around, StatusFits, ← printed_eq_nil, @List.length_append _ _ res.reason.printed]
  by_cases hnil : res.reason.printed = []
  · rw [if_pos hnil]
    exact iff_of_true (Nat.zero_le _) (.inl hnil)
  · rw [if_neg hnil, or_iff_right hnil]
    have : 0 < res.reason.printed.length := List.length_pos_iff.2 hnil
    change _ ≤ size - 1 ↔ _
    omega

end Build

/-- Both are done, and what is built is the whole message or nothing and stays in the buffer, exactly if each key,
each value and the reason find a place; and a call of `http_res_header` that fails leaves the headers as they are. -/
theorem response_assembly (code : BitVec 32) (reason : Option CString)
    (calls : List (Option CString × Option CString)) :
    (∀ fields res, headers (resInit code reason) calls = some (fields, res) →
    ∀ key val r, resHeader res key val = some r → r.1 ≠ 0 →
      r.2.hdr_len = res.hdr_len ∧ ∀ i < res.hdr_len, r.2.hdr_buf i = res.hdr_buf i) ∧
    ∀ (data : Option (Nat → UInt8)) (len : BitVec 64) (buf : Nat → UInt8) (buf_size : Nat),
      (∃ fields res n buf', headers (resInit code reason) calls = some (fields, res) ∧
        resBuild buf buf_size (resBody res data len) = some (n, buf') ∧ (∀ a, buf_size ≤ a → buf' a = buf a) ∧
        (n = 0 ∨ bytesOf buf' n = message code (reason.getD (codeReason code)) fields
        (resBody res data len).bodyBytes)) ↔
      HeadersFit 0 calls ∧ (buf_size < 64 ∨ StatusFits code (reason.getD (codeReason code)) buf_size) := by
  obtain ⟨hgo, hstop⟩ := headers_held (resInit_held code reason) calls
  by_cases hfit : HeadersFit 0 calls
  · obtain ⟨fields, res, hrun, hheld, hcode, hreason⟩ := hgo hfit
    have hcode : res.code = code := hcode
    have hreason : res.reason = reason.getD (codeReason code) := hreason
    refine ⟨fun fields' res' hrun' key val r hr hfail => ?_, fun data len buf size => ?_⟩
    · obtain ⟨rfl, rfl⟩ := Prod.mk.inj (Option.some.inj (hrun.symm.trans hrun'))
      exact (resHeader_fails hheld hr hfail).2
    rw [and_iff_right hfit]
    by_cases hsize : size < 64
    · refine iff_of_true ⟨fields, res, 0, buf, hrun, if_pos hsize, fun _ _ => rfl, .inl rfl⟩ (.inl hsize)
    have hbuild : resBuild buf size (resBody res data len) = (buildPieces buf size (resBody res data len)).answer :=
      if_neg hsize
    have hnone : (buildPieces buf size (resBody res data len)).run = none ↔
      ¬StatusFits code (reason.getD (codeReason code)) size := by
      have hpieces := buildPieces_eq_none buf size (resBody res data len)
      rwa [show (resBody res data len).code = code from hcode,
        show (resBody res data len).reason = reason.getD (codeReason code) from hreason] at hpieces
    rw [or_iff_right hsize]
    constructor
    · rintro ⟨fields', res', n, buf', hrun', hbuild', -⟩
      obtain ⟨rfl, rfl⟩ := Prod.mk.inj (Option.some.inj (hrun.symm.trans hrun'))
      by_contra hstatus
      rw [hbuild, answer_eq_none.2 (hnone.2 hstatus)] at hbuild'
      exact absurd hbuild' (by simp)
    · intro hstatus
      obtain ⟨c, hfills⟩ := buildPieces_fills data len hheld
      rw [hcode, hreason] at hfills
      obtain ⟨hbuilt, hrefused⟩ := hfills.answer
      by_cases hc : c
      · obtain ⟨mem, hanswer, hmem, hbytes⟩ := hbuilt hc
        exact ⟨fields, res, _, mem, hrun, hbuild.trans hanswer, hmem, .inr hbytes⟩
      · obtain ⟨⟨n, mem⟩, hanswer⟩ := Option.ne_none_iff_exists'.1 fun h => hnone.1 (answer_eq_none.1 h) hstatus
        obtain ⟨hn, hmem⟩ := hrefused hc n mem hanswer
        exact ⟨fields, res, n, mem, hrun, hbuild.trans hanswer, hmem, .inl hn⟩
  · have hnone : headers (resInit code reason) calls = none := hstop hfit
    refine ⟨fun fields res hrun => ?_, fun data len buf size => ?_⟩
    · rw [hnone] at hrun
      exact absurd hrun (by simp)
    · refine iff_of_false ?_ fun h => hfit h.1
      rintro ⟨fields, res, n, buf', hrun, -⟩
      rw [hnone] at hrun
      exact absurd hrun (by simp)

theorem response_assembly_short : ∃ fields res n buf',
    headers (resInit 200 none) [(some ⟨lit "Accept", by decide⟩, some ⟨lit "*/*", by decide⟩), (none, none)] =
      some (fields, res) ∧
    resBuild (fun _ => 0) 100 (resBody res none 0) = some (n, buf') ∧ (∀ a, 100 ≤ a → buf' a = 0) ∧
    (n = 0 ∨ bytesOf buf' n = message 200 (codeReason 200) fields (resBody res none 0).bodyBytes) := by
  refine ((response_assembly 200 none _).2 none 0 (fun _ => 0) 100).2 ⟨?_, .inr (.inr (by decide))⟩
  rw [HeadersFit, if_neg (by decide)]
  exact ⟨by decide, trivial⟩

/-- A name of `n` characters. -/
def nameOf (n : Nat) : CString := ⟨List.replicate n (asc 'a'), fun h => absurd (List.eq_of_mem_replicate h) (by decide)⟩

/-- A key that is as long as the room for all headers is never printed to its end. -/
theorem response_assembly_long : headers (resInit 200 none) [(some (nameOf 1024), some (nameOf 1))] = none := by
  refine (headers_held (resInit_held 200 none) _).2 fun hfit => ?_
  have hline := hfit.1
  rw [Field.Fits, if_neg (by simp [nameOf])] at hline
  simp only [nameOf, List.length_replicate] at hline
  omega

end JACLibc.Http
