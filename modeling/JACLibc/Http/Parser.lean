import JACLibc.Strings.Compare
import Mathlib.Data.List.Basic

/-!
# The HTTP parser of `transit/http.h`

`http_feed` reads a request out of a buffer that fills up between calls.  It works in place: line ends, the spaces of
the request line, the `?` and the colons of the headers become NULs, and the fields of the request are pointers to the
strings made that way.  A pointer is an offset into the buffer.  `_state`, `_offset` and `_line_start` are kept
between calls; on the way through the loop they live in `Feed`.

`strtoul`, which reads the value of `Content-Length`, is a parameter.
-/

namespace JACLibc

/-- `strcasecmp` on two non-NULL strings. -/
def strcasecmp : List UInt8 → List UInt8 → Int
  | x :: a, y :: b => if lower x ≠ lower y then lower x - lower y else strcasecmp a b
  | a, b => lower (deref a) - lower (deref b)
where
  /-- `tolower` -/
  lower (c : UInt8) : Int := if asc 'A' ≤ c ∧ c ≤ asc 'Z' then c.toNat + 32 else c.toNat

namespace Http

inductive Method
  | get | post | put | delete | head | options | patch | connect | unknown
  deriving DecidableEq

inductive Version
  | v10 | v11
  deriving DecidableEq

/-- `http_stat_t`; no modelled function answers `HSTAT_VERSION`. -/
inductive Stat
  | headers | more | error | upgrade
  deriving DecidableEq

/-- The values of `_state`. -/
inductive State
  | requestLine
  | headerLines
  deriving DecidableEq

/-- The public fields of `http_req_t`; `hcount` is the length of `hdrs`. -/
structure Fields where
  method : Method
  path : Option Nat
  query : Option Nat
  authority : Option Nat
  version : Version
  hdrs : List (Nat × Nat)
  contentLen : Nat
  chunked : Bool
  keepAlive : Bool
  upgrade : Bool
  upgradeProto : Option Nat
  deriving DecidableEq

/-- `http_req_t` -/
structure Req extends Fields where
  state : State
  offset : Nat
  lineStart : Nat
  deriving DecidableEq

def HTTP_MAXHDR : Nat := 32

abbrev Buf := List UInt8

/-- The string at `p`. -/
def str (buf : Buf) (p : Nat) : List UInt8 := (buf.drop p).takeWhile (· ≠ 0)

/-- `strchr` of a character other than NUL. -/
def strchr (buf : Buf) (p : Nat) (c : UInt8) : Option Nat := ((str buf p).findIdx? (· = c)).map (p + ·)

def parseMethod (s : List UInt8) : Method :=
  if strcmp s (lit "GET") = 0 then .get
  else if strcmp s (lit "POST") = 0 then .post
  else if strcmp s (lit "PUT") = 0 then .put
  else if strcmp s (lit "DELETE") = 0 then .delete
  else if strcmp s (lit "HEAD") = 0 then .head
  else if strcmp s (lit "OPTIONS") = 0 then .options
  else if strcmp s (lit "PATCH") = 0 then .patch
  else if strcmp s (lit "CONNECT") = 0 then .connect
  else .unknown

/-- `http_parse_request_line` -/
def parseRequestLine (f : Fields) (buf : Buf) (line : Nat) : Stat × Fields × Buf :=
  match strchr buf line (asc ' ') with
  | none => (.error, f, buf)
  | some sp1 =>
    let buf := buf.set sp1 0
    let f := { f with method := parseMethod (str buf line) }
    let p2 := sp1 + 1
    match strchr buf p2 (asc ' ') with
    | none => (.error, f, buf)
    | some sp2 =>
      let buf := buf.set sp2 0
      let q := strchr buf p2 (asc '?')
      let f := { f with path := some p2, query := q.map (· + 1), version := .v11 }
      let buf := match q with
        | some q => buf.set q 0
        | none => buf
        if strcmp (str buf (sp2 + 1)) (lit "HTTP/1.0") = 0
        then (.more, { f with version := .v10, keepAlive := false }, buf)
      else (.more, f, buf)

/-- `while (*val == ' ' || *val == '\t') val++;` -/
def skipBlanks (buf : Buf) (val : Nat) : Nat :=
  val + ((str buf val).takeWhile fun c => c = asc ' ' ∨ c = asc '\t').length

section Parser

variable (strtoul : List UInt8 → Nat)

/-- `http_parse_header`; its answer is not used. -/
def parseHeader (f : Fields) (buf : Buf) (line : Nat) : Fields × Buf :=
  if f.hdrs.length ≥ HTTP_MAXHDR then (f, buf)
  else
    match strchr buf line (asc ':') with
    | none => (f, buf)
    | some col =>
      let buf := buf.set col 0
      let val := skipBlanks buf (col + 1)
      let key := str buf line
      let g :=
        if strcasecmp key (lit "Content-Length") = 0 then { f with contentLen := strtoul (str buf val) }
        else if strcasecmp key (lit "Transfer-Encoding") = 0 ∧ strcasecmp (str buf val) (lit "chunked") = 0 then
          { f with chunked := true }
        else if strcasecmp key (lit "Connection") = 0 then
          { f with keepAlive := strcasecmp (str buf val) (lit "close") ≠ 0 }
        else if strcasecmp key (lit "Upgrade") = 0 then { f with upgrade := true, upgradeProto := some val }
        else if strcasecmp key (lit "Host") = 0 then { f with authority := some val }
        else f
      ({ g with hdrs := f.hdrs ++ [(line, val)] }, buf)

/-- `http_init` -/
def init : Req where
  method := .unknown
  path := none
  query := none
  authority := none
  version := .v11
  hdrs := []
  contentLen := 0
  chunked := false
  keepAlive := true
  upgrade := false
  upgradeProto := none
  state := .requestLine
  offset := 0
  lineStart := 0

/-- `http_reset`; `_line_start`, `version` and `keep_alive` are left as they are. -/
def reset (r : Req) : Req :=
  { r with
    method := .unknown, path := none, query := none, authority := none, hdrs := [], contentLen := 0, chunked := false,
    upgrade := false, upgradeProto := none, state := .requestLine, offset := 0 }

/-- The variables of the loop of `http_feed`. -/
structure Feed where
  fields : Fields
  state : State
  lineStart : Nat
  buf : Buf
  i : Nat
  deriving DecidableEq

/-- `buf[i] == '\r' && buf[i+1] == '\n'` -/
def crlf (buf : Buf) (i : Nat) : Bool := buf.getD i 0 = asc '\r' ∧ buf.getD (i + 1) 0 = asc '\n'

/-- `buf[i] = '\0'; buf[i+1] = '\0';` -/
def cut (buf : Buf) (i : Nat) : Buf := (buf.set i 0).set (i + 1) 0

/-- One turn of the loop of `http_feed` at a byte that has another one after it; the loop goes on after `HSTAT_MORE`. -/
def turn (s : Feed) : Stat × Feed :=
  if crlf s.buf s.i then
    match s.state with
    | .requestLine =>
      let (st, f, buf) := parseRequestLine s.fields (cut s.buf s.i) s.lineStart
      if st = .more then (.more, ⟨f, .headerLines, s.i + 2, buf, s.i + 2⟩)
      else (st, ⟨f, .requestLine, s.lineStart, buf, s.i + 2⟩)
    | .headerLines =>
      if s.lineStart = s.i then
        (if s.fields.upgrade then .upgrade else .headers, ⟨s.fields, .headerLines, s.lineStart, cut s.buf s.i, s.i + 2⟩)
      else
        let (f, buf) := parseHeader strtoul s.fields (cut s.buf s.i) s.lineStart
        (.more, ⟨f, .headerLines, s.i + 2, buf, s.i + 2⟩)
  else (.more, { s with i := s.i + 1 })

/-- The loop of `http_feed`, with at least as much fuel as bytes to read. -/
def feedLoop (len : Nat) : Nat → Feed → Stat × Feed
  | 0, s => (.more, s)
  | fuel + 1, s =>
    if s.i + 1 ≥ len then (.more, s)
    else
      match turn strtoul s with
      | (.more, s) => feedLoop len fuel s
      | (st, s) => (st, s)

/-- What `http_feed` answers: the status, `*consumed`, the request and the buffer. -/
structure Answer where
  stat : Stat
  consumed : Nat
  req : Req
  buf : Buf
  deriving DecidableEq

/-- `http_feed` -/
def feed (r : Req) (buf : Buf) (len : Nat) : Answer :=
  let (st, s) := feedLoop strtoul len (len - r.offset) ⟨r.toFields, r.state, r.lineStart, buf, r.offset⟩
  ⟨st, s.i, ⟨s.fields, s.state, if st = .more then s.i else r.offset, s.lineStart⟩, s.buf⟩

/-- `http_feed` with each length in turn, up to the first answer other than `HSTAT_MORE`; the length of the last call
comes with its answer. -/
def feeds (r : Req) (buf : Buf) (len : Nat) : List Nat → Nat × Answer
  | [] => (len, feed strtoul r buf len)
  | len' :: lens =>
    let a := feed strtoul r buf len
    if a.stat = .more then feeds a.req a.buf len' lens else (len, a)

/-! ### Resuming the loop -/

/-- Every turn moves on. -/
theorem lt_turn (s : Feed) : s.i < (turn strtoul s).2.i := by
  rw [turn]
  by_cases hcr : crlf s.buf s.i
  · rw [if_pos hcr]
    cases s.state with
    | requestLine =>
      simp only
      split <;> simp
    | headerLines =>
      simp only
      split <;> simp
  · rw [if_neg hcr]
    exact Nat.lt_succ_self _

theorem feedLoop_more {len m : Nat} {s t : Feed} (hlt : s.i + 1 < len) (ht : turn strtoul s = (.more, t)) :
    feedLoop strtoul len (m + 1) s = feedLoop strtoul len m t := by
  rw [feedLoop, if_neg (Nat.not_le.mpr hlt), ht]

theorem feedLoop_stop {len m : Nat} {s t : Feed} {st : Stat} (hlt : s.i + 1 < len) (hst : st ≠ .more)
    (ht : turn strtoul s = (st, t)) : feedLoop strtoul len (m + 1) s = (st, t) := by
  rw [feedLoop, if_neg (Nat.not_le.mpr hlt), ht]
  cases st <;> first | rfl | exact absurd rfl hst

theorem feedLoop_end {len : Nat} {s : Feed} (hend : len ≤ s.i + 1) : ∀ m, feedLoop strtoul len m s = (.more, s)
  | 0 => rfl
  | m + 1 => by rw [feedLoop, if_pos hend]

/-- Fuel beyond the bytes that are left changes nothing. -/
theorem feedLoop_fuel {len m n : Nat} {s : Feed} (hm : len - s.i ≤ m) (hn : len - s.i ≤ n) :
    feedLoop strtoul len m s = feedLoop strtoul len n s := by
  induction m generalizing n s with
  | zero =>
    rw [feedLoop_end strtoul (by omega), feedLoop_end strtoul (by omega)]
  | succ m ih =>
    by_cases hend : len ≤ s.i + 1
    · rw [feedLoop_end strtoul hend, feedLoop_end strtoul hend]
    · obtain ⟨n, rfl⟩ : ∃ k, n = k + 1 := ⟨n - 1, by omega⟩
      have hlt : s.i + 1 < len := by omega
      obtain ⟨st, t, ht⟩ : ∃ st t, turn strtoul s = (st, t) := ⟨_, _, rfl⟩
      have hmove : s.i < t.i := by simpa [ht] using lt_turn strtoul s
      by_cases hst : st = .more
      · subst hst
        rw [feedLoop_more strtoul hlt ht, feedLoop_more strtoul hlt ht]
        exact ih (by omega) (by omega)
      · rw [feedLoop_stop strtoul hlt hst ht, feedLoop_stop strtoul hlt hst ht]

/-- Where the loop has stopped for want of bytes, a longer buffer is read on as if it had not stopped. -/
theorem feedLoop_resume {len len' m : Nat} {s u : Feed} (hle : len ≤ len') (h : feedLoop strtoul len m s = (.more, u)) :
    feedLoop strtoul len' (len' - s.i) s = feedLoop strtoul len' (len' - u.i) u := by
  induction m generalizing s with
  | zero =>
    obtain rfl : s = u := congrArg Prod.snd h
    rfl
  | succ m ih =>
    by_cases hend : len ≤ s.i + 1
    · obtain rfl : s = u := by
        rw [feedLoop_end strtoul hend] at h
        exact congrArg Prod.snd h
      rfl
    · have hlt : s.i + 1 < len := by omega
      obtain ⟨st, t, ht⟩ : ∃ st t, turn strtoul s = (st, t) := ⟨_, _, rfl⟩
      have hmove : s.i < t.i := by simpa [ht] using lt_turn strtoul s
      by_cases hst : st = .more
      · subst hst
        rw [feedLoop_more strtoul hlt ht] at h
        obtain ⟨k, hk⟩ : ∃ k, len' - s.i = k + 1 := ⟨len' - s.i - 1, by omega⟩
        rw [← ih h, hk, feedLoop_more strtoul (by omega) ht]
        exact feedLoop_fuel strtoul (by omega) (Nat.le_refl _)
      · rw [feedLoop_stop strtoul hlt hst ht] at h
        exact absurd (congrArg Prod.fst h) hst

/-- What two answers have in common when they differ in `_offset` at most. -/
def Answer.Agrees (a b : Answer) : Prop :=
  a.stat = b.stat ∧ a.consumed = b.consumed ∧ a.req.toFields = b.req.toFields ∧ a.req.state = b.req.state ∧
    a.req.lineStart = b.req.lineStart ∧ a.buf = b.buf

/-- One call after an answer `HSTAT_MORE` agrees with a call on the request as it was before that answer. -/
theorem feed_resume {r : Req} {buf : Buf} {len len' : Nat} (hle : len ≤ len')
    (hmore : (feed strtoul r buf len).stat = .more) :
    (feed strtoul (feed strtoul r buf len).req (feed strtoul r buf len).buf len').Agrees (feed strtoul r buf len') := by
  obtain ⟨st, t, ht⟩ : ∃ st t,
      feedLoop strtoul len (len - r.offset) ⟨r.toFields, r.state, r.lineStart, buf, r.offset⟩ = (st, t) := ⟨_, _, rfl⟩
  have hfeed : feed strtoul r buf len =
      ⟨st, t.i, ⟨t.fields, t.state, if st = .more then t.i else r.offset, t.lineStart⟩, t.buf⟩ := by
    rw [feed, ht]
  obtain rfl : st = .more := by rw [hfeed] at hmore; exact hmore
  have hloop := feedLoop_resume strtoul hle ht
  simp only [if_true] at hfeed
  rw [hfeed, Answer.Agrees, feed, feed, hloop]
  exact ⟨rfl, rfl, rfl, rfl, rfl, rfl⟩

theorem Answer.Agrees.trans {a b c : Answer} (hab : a.Agrees b) (hbc : b.Agrees c) : a.Agrees c := by
  obtain ⟨h1, h2, h3, h4, h5, h6⟩ := hab
  obtain ⟨g1, g2, g3, g4, g5, g6⟩ := hbc
  exact ⟨h1.trans g1, h2.trans g2, h3.trans g3, h4.trans g4, h5.trans g5, h6.trans g6⟩

private theorem le_feeds {r : Req} {buf : Buf} {len : Nat} {lens : List Nat} (hlens : (len :: lens).Pairwise (· < ·)) :
    len ≤ (feeds strtoul r buf len lens).1 := by
  induction lens generalizing r buf len with
  | nil => exact Nat.le_refl _
  | cons len' lens ih =>
    rw [List.pairwise_cons] at hlens
    have hlt : len < len' := hlens.1 len' (List.mem_cons_self ..)
    by_cases hmore : (feed strtoul r buf len).stat = .more
    · rw [feeds, if_pos hmore]
      exact Nat.le_trans (Nat.le_of_lt hlt) (ih hlens.2)
    · simp [feeds, hmore]

private theorem feeds_agrees {r : Req} {buf : Buf} {len : Nat} {lens : List Nat}
    (hlens : (len :: lens).Pairwise (· < ·)) :
    (feeds strtoul r buf len lens).2.Agrees (feed strtoul r buf (feeds strtoul r buf len lens).1) := by
  induction lens generalizing r buf len with
  | nil => exact ⟨rfl, rfl, rfl, rfl, rfl, rfl⟩
  | cons len' lens ih =>
    rw [List.pairwise_cons] at hlens
    have hlt : len < len' := hlens.1 len' (List.mem_cons_self ..)
    by_cases hmore : (feed strtoul r buf len).stat = .more
    · rw [feeds, if_pos hmore]
      refine (ih hlens.2).trans (feed_resume strtoul ?_ hmore)
      exact Nat.le_trans (Nat.le_of_lt hlt) (le_feeds strtoul hlens.2)
    · rw [feeds, if_neg hmore]
      exact ⟨rfl, rfl, rfl, rfl, rfl, rfl⟩

/-- Feeding the buffer by any increasing lengths ends as one call with the last of the lengths used does: with the same
status, `*consumed` and fields, and with the same bytes in the buffer that the fields point into. -/
theorem feed_incremental (buf : Buf) (len : Nat) (lens : List Nat) (hlens : (len :: lens).Pairwise (· < ·)) :
    (feeds strtoul init buf len lens).2.Agrees (feed strtoul init buf (feeds strtoul init buf len lens).1) :=
  feeds_agrees strtoul hlens

end Parser

/-- The calls stop inside the request line, between the two bytes of its line end, inside a header and at its end. -/
theorem feed_incremental_split :
    (feeds (fun _ => 0) init (lit "GET /a?b HTTP/1.1\r\nHost: x\r\n\r\n") 7 [18, 25, 28, 30]).2.stat = .headers ∧
      (feeds (fun _ => 0) init (lit "GET /a?b HTTP/1.1\r\nHost: x\r\n\r\n") 7 [18, 25, 28, 30]).2.Agrees
        (feed (fun _ => 0) init (lit "GET /a?b HTTP/1.1\r\nHost: x\r\n\r\n")
          (feeds (fun _ => 0) init (lit "GET /a?b HTTP/1.1\r\nHost: x\r\n\r\n") 7 [18, 25, 28, 30]).1) :=
  ⟨by decide, feed_incremental _ _ _ _ (by decide)⟩

end Http

end JACLibc
