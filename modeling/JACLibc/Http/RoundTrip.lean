import JACLibc.Http.Request

/-!
# Reading back a request

A request written out as a client does (`Message.bytes`) is read by one call of `http_feed`: the call takes every byte
of it and the fields of the parser point to the method, path, query and headers that were written, in their order
(`feed_message`).

The parser makes its strings in place, so what a field points to is read in the buffer as it is at the end.  A field
keeps its string because every string ends at a NUL that lies in the part of the buffer that has been read (`Reads`),
and later lines change only bytes behind it.
-/

namespace JACLibc.Http

/-! ### Names without their case -/

def foldCase (c : UInt8) : UInt8 := if asc 'A' ≤ c ∧ c ≤ asc 'Z' then c + 32 else c

theorem lower_eq (c : UInt8) : strcasecmp.lower c = (foldCase c).toNat := by
  apply forall_byte (c := c)
  decide +kernel

theorem lower_inj {c d : UInt8} : strcasecmp.lower c = strcasecmp.lower d ↔ foldCase c = foldCase d := by
  rw [lower_eq, lower_eq, Int.natCast_inj, UInt8.toNat_inj]

theorem lower_eq_zero {c : UInt8} (hc : c ≠ 0) : strcasecmp.lower c ≠ 0 := by
  revert hc
  apply forall_byte (c := c)
  decide +kernel

/-- `strcasecmp` answers zero exactly on strings that are equal but for the case of their letters. -/
theorem strcasecmp_eq_zero {a b : List UInt8} (ha : 0 ∉ a) (hb : 0 ∉ b) :
    strcasecmp a b = 0 ↔ a.map foldCase = b.map foldCase := by
  have hnul : strcasecmp.lower 0 = 0 := by decide
  induction a generalizing b with
  | nil =>
    cases b with
    | nil => simp [strcasecmp]
    | cons y b =>
      have hy : strcasecmp.lower y ≠ 0 := lower_eq_zero fun h => hb (h ▸ List.mem_cons_self)
      simp only [strcasecmp, deref, List.headD_nil, List.headD_cons, hnul, List.map_nil, List.map_cons, reduceCtorEq,
        iff_false]
      omega
  | cons x a ih =>
    have hx : strcasecmp.lower x ≠ 0 := lower_eq_zero fun h => ha (h ▸ List.mem_cons_self)
    cases b with
    | nil =>
      simp only [strcasecmp, deref, List.headD_nil, List.headD_cons, hnul, List.map_nil, List.map_cons, reduceCtorEq,
        iff_false]
      omega
    | cons y b =>
      simp only [List.mem_cons, not_or] at ha hb
      have hrec : strcasecmp a b = 0 ↔ a.map foldCase = b.map foldCase := ih ha.2 hb.2
      rw [strcasecmp, List.map_cons, List.map_cons, List.cons.injEq, ← lower_inj, ← hrec]
      by_cases hxy : strcasecmp.lower x = strcasecmp.lower y
      · simp [hxy]
      · simp only [ne_eq, hxy, not_false_eq_true, if_true, false_and, iff_false]
        omega

/-! ### Messages -/

def Method.name : Method → List UInt8
  | get => lit "GET"
  | post => lit "POST"
  | put => lit "PUT"
  | delete => lit "DELETE"
  | head => lit "HEAD"
  | options => lit "OPTIONS"
  | patch => lit "PATCH"
  | connect => lit "CONNECT"
  | unknown => []

/-- A request with a known method, in the parts that the parser should find. -/
structure Message where
  method : Method
  path : List UInt8
  query : Option (List UInt8)
  hdrs : List (List UInt8 × List UInt8)
  known : method ≠ .unknown
  paths : ∀ c ∈ path, Plain c ∧ c ≠ asc ' ' ∧ c ≠ asc '?'
  queries : ∀ q ∈ query, ∀ c ∈ q, Plain c ∧ c ≠ asc ' '
  few : hdrs.length ≤ HTTP_MAXHDR
  keys : ∀ h ∈ hdrs, ∀ c ∈ h.1, Plain c ∧ c ≠ asc ':'
  values : ∀ h ∈ hdrs, ∀ c ∈ h.2, Plain c
  trimmed : ∀ h ∈ hdrs, ∀ c ∈ h.2.head?, c ≠ asc ' ' ∧ c ≠ asc '\t'

/-- `path[?query]` -/
def target (path : List UInt8) : Option (List UInt8) → List UInt8
  | none => path
  | some q => path ++ asc '?' :: q

def Message.requestLine (m : Message) : List UInt8 :=
  m.method.name ++ asc ' ' :: (target m.path m.query ++ asc ' ' :: lit "HTTP/1.1")

/-- A header with the blank in front of its value. -/
def blank (h : List UInt8 × List UInt8) : List UInt8 × List UInt8 := (h.1, asc ' ' :: h.2)

/-- The request line, the lines `key: value` and the empty line. -/
def Message.bytes (m : Message) : List UInt8 := m.requestLine ++ (lineEnd ++ headerLines (m.hdrs.map blank))

/-- Whether there is a header `Upgrade`. -/
def Message.upgrades (m : Message) : Bool := m.hdrs.any fun h => h.1.map foldCase = lit "upgrade"

/-- The answer to a message: `HSTAT_UPGRADE` where there is an `Upgrade` header and `HSTAT_HEADERS` otherwise, with
all bytes consumed and with method, path, query and headers as they were written. -/
def Answer.Gives (a : Answer) (m : Message) : Prop :=
  a.stat = (if m.upgrades then .upgrade else .headers) ∧ a.consumed = m.bytes.length ∧ a.req.method = m.method ∧
    a.req.path.map (str a.buf) = some m.path ∧ a.req.query.map (str a.buf) = m.query ∧
    a.req.hdrs.map (fun h => (str a.buf h.1, str a.buf h.2)) = m.hdrs

/-! ### The request line -/

theorem parseMethod_name (m : Method) : parseMethod m.name = m := by
  cases m <;> decide

theorem name_plain {m : Method} {c : UInt8} (hc : c ∈ m.name) : Plain c ∧ c ≠ asc ' ' := by
  have key : ∀ m : Method, ∀ c ∈ m.name, Plain c ∧ c ≠ asc ' ' := by
    intro m
    cases m <;> decide +kernel
  exact key m c hc

theorem target_plain (m : Message) : ∀ c ∈ target m.path m.query, Plain c ∧ c ≠ asc ' ' := by
  intro c hc
  cases hq : m.query with
  | none =>
    rw [hq] at hc
    exact ⟨(m.paths c hc).1, (m.paths c hc).2.1⟩
  | some q =>
    rw [hq, target, List.mem_append, List.mem_cons] at hc
    rcases hc with hc | rfl | hc
    · exact ⟨(m.paths c hc).1, (m.paths c hc).2.1⟩
    · decide
    · exact m.queries q (hq ▸ rfl) c hc

theorem Message.requestLine_plain (m : Message) : ∀ c ∈ m.requestLine, Plain c := by
  intro c hc
  have hversion : ∀ c ∈ lit "HTTP/1.1", Plain c := by decide +kernel
  simp only [Message.requestLine, List.mem_append, List.mem_cons] at hc
  rcases hc with hc | rfl | hc | rfl | hc
  · exact (name_plain hc).1
  · decide
  · exact (target_plain m c hc).1
  · decide
  · exact hversion c hc

theorem strchr_none {l : List UInt8} (hl : ∀ c ∈ l, c ≠ 0) {c : UInt8} (hc : ∀ d ∈ l, d ≠ c) (pre rest : List UInt8) :
    strchr (pre ++ l ++ 0 :: rest) pre.length c = none := by
  have hidx : l.findIdx? (· = c) = none := by
    rw [List.findIdx?_eq_none_iff]
    intro d hd
    simpa using hc d hd
  rw [strchr, str_line hl, hidx]
  rfl

/-- What the fields say where the buffer is `a`, and that `a` ends in a NUL none of them points behind. -/
structure Reads (f : Fields) (a : Buf) (method : Method) (path : List UInt8) (query : Option (List UInt8))
    (hdrs : List (List UInt8 × List UInt8)) (upgrade : Bool) : Prop where
  method : f.method = method
  path : f.path.map (str a) = some path
  query : f.query.map (str a) = query
  hdrs : f.hdrs.map (fun h => (str a h.1, str a h.2)) = hdrs
  upgrade : f.upgrade = upgrade
  last : a[a.length - 1]? = some 0
  below : f.Below (a.length - 1)

theorem getElem?_unquery_nul {b : Buf} {j : Nat} (hj : b[j]? = some 0) (q : Option Nat) :
    (unquery b q)[j]? = some 0 := by
  cases q with
  | none => exact hj
  | some q => exact getElem?_set_nul hj q

section Target

variable {path : List UInt8} {query : Option (List UInt8)} (hpath : ∀ c ∈ path, c ≠ 0 ∧ c ≠ asc '?')
  (hquery : ∀ q ∈ query, ∀ c ∈ q, c ≠ (0 : UInt8))
include hpath hquery

/-- The question mark becomes a NUL when there is a query. -/
theorem unquery_target (pre rest : List UInt8) :
    str (unquery (pre ++ target path query ++ 0 :: rest) (strchr (pre ++ target path query ++ 0 :: rest) pre.length
    (asc '?')))
        pre.length = path ∧
      ((strchr (pre ++ target path query ++ 0 :: rest) pre.length (asc '?')).map (· + 1)).map
        (str (unquery (pre ++ target path query ++ 0 :: rest)
          (strchr (pre ++ target path query ++ 0 :: rest) pre.length (asc '?')))) = query := by
  cases query with
  | none =>
    rw [target, strchr_none (fun c hc => (hpath c hc).1) (fun d hd => (hpath d hd).2)]
    exact ⟨str_line (fun c hc => (hpath c hc).1) pre rest, rfl⟩
  | some q =>
    have hnul : ∀ c ∈ path ++ asc '?' :: q, c ≠ 0 := by
      intro c hc
      rw [List.mem_append, List.mem_cons] at hc
      rcases hc with hc | rfl | hc
      · exact (hpath c hc).1
      · decide
      · exact hquery q rfl c hc
    have hset : unquery (pre ++ (path ++ asc '?' :: q) ++ 0 :: rest) (some (pre.length + path.length)) =
        pre ++ path ++ 0 :: (q ++ 0 :: rest) := by
      rw [unquery, ← List.length_append]
      simp
    have hstr := str_line (hquery q rfl) (pre ++ path ++ [0]) rest
    have hplace : (pre ++ path ++ [0]).length = pre.length + path.length + 1 := by simp [Nat.add_assoc]
    have hassoc : pre ++ path ++ [0] ++ q ++ 0 :: rest = pre ++ path ++ 0 :: (q ++ 0 :: rest) := by simp
    rw [hplace, hassoc] at hstr
    rw [target, strchr_line hnul (fun d hd => (hpath d hd).2) rfl, hset]
    exact ⟨str_line (fun c hc => (hpath c hc).1) pre _, congrArg some hstr⟩

end Target

/-- A line of three words: where its spaces are found, and the line with NULs in their place. -/
theorem words_split {name tgt ver : List UInt8} (hname : ∀ c ∈ name, c ≠ 0 ∧ c ≠ asc ' ')
    (htgt : ∀ c ∈ tgt, c ≠ 0 ∧ c ≠ asc ' ') (hver : ∀ c ∈ ver, c ≠ 0) {b : Buf}
    (hb : b = name ++ asc ' ' :: (tgt ++ asc ' ' :: ver) ++ [0, 0]) :
    strchr b 0 (asc ' ') = some name.length ∧ str (b.set name.length 0) 0 = name ∧
      strchr (b.set name.length 0) (name.length + 1) (asc ' ') = some (name.length + 1 + tgt.length) ∧
      (b.set name.length 0).set (name.length + 1 + tgt.length) 0 = (name ++ [0]) ++ tgt ++ 0 :: (ver ++ [0, 0]) := by
  have hrest : ∀ c ∈ tgt ++ asc ' ' :: ver, c ≠ 0 := by
    intro c hc
    rw [List.mem_append, List.mem_cons] at hc
    rcases hc with hc | rfl | hc
    · exact (htgt c hc).1
    · decide
    · exact hver c hc
  have hline : ∀ c ∈ name ++ asc ' ' :: (tgt ++ asc ' ' :: ver), c ≠ 0 := by
    intro c hc
    rw [List.mem_append, List.mem_cons] at hc
    rcases hc with hc | rfl | hc
    · exact (hname c hc).1
    · decide
    · exact hrest c hc
  have hset : b.set name.length 0 = (name ++ [0]) ++ (tgt ++ asc ' ' :: ver) ++ 0 :: [0] := by simp [hb]
  have hpre : name.length + 1 = (name ++ [0]).length := by simp
  have hassoc : (name ++ [0]) ++ (tgt ++ asc ' ' :: ver) ++ 0 :: [0] =
      [] ++ name ++ 0 :: (tgt ++ asc ' ' :: ver ++ 0 :: [0]) := by simp
  refine ⟨?_, ?_, ?_, ?_⟩
  · have := strchr_line hline (fun d hd => (hname d hd).2) rfl [] [0]
    rwa [List.nil_append, List.length_nil, Nat.zero_add, ← hb] at this
  · rw [hset, hassoc]
    exact str_line (fun c hc => (hname c hc).1) [] _
  · rw [hset, hpre]
    exact strchr_line hrest (fun d hd => (htgt d hd).2) rfl (name ++ [0]) [0]
  · rw [hset, hpre, ← List.length_append]
    simp

/-- The spaces and the question mark of the request line become NULs, and the fields point behind them. -/
theorem Message.parse (m : Message) : ∃ g b,
    parseRequestLine init.toFields (m.requestLine ++ [0, 0]) 0 = (.more, g, b) ∧
      b.length = m.requestLine.length + 2 ∧ Reads g b m.method m.path m.query [] false := by
  have hver : ∀ c ∈ lit "HTTP/1.1", c ≠ 0 := by decide +kernel
  obtain ⟨h1, hname, h2, hset⟩ := words_split (fun c hc => ⟨(name_plain hc).1.1, (name_plain hc).2⟩)
    (fun c hc => ⟨(target_plain m c hc).1.1, (target_plain m c hc).2⟩) hver (b := m.requestLine ++ [0, 0]) rfl
  have htarget := unquery_target (fun c hc => ⟨(m.paths c hc).1.1, (m.paths c hc).2.2⟩)
    (fun q hq c hc => (m.queries q hq c hc).1.1) (m.method.name ++ [0]) (lit "HTTP/1.1" ++ [0, 0])
  have hpre : (m.method.name ++ [0]).length = m.method.name.length + 1 := by simp
  rw [hpre] at htarget
  rw [← hset] at htarget
  obtain ⟨b, hb⟩ : ∃ b, unquery (((m.requestLine ++ [0, 0]).set m.method.name.length 0).set
      (m.method.name.length + 1 + (target m.path m.query).length) 0)
      (strchr (((m.requestLine ++ [0, 0]).set m.method.name.length 0).set
        (m.method.name.length + 1 + (target m.path m.query).length) 0) (m.method.name.length + 1) (asc '?')) = b :=
          ⟨_, rfl⟩
  have hparse := parseRequestLine_some init.toFields h1 h2 hb
  rw [hname, parseMethod_name] at hparse
  rw [hb] at htarget
  -- that the fields stay inside the line is known of any line
  have hj : (m.requestLine ++ [0, 0])[m.requestLine.length + 1]? = some 0 := by
    rw [List.getElem?_append_right (by omega)]
    simp
  obtain ⟨st, g, b', hparse', hlen, -, hbelow, -⟩ := parseRequestLine_append init.toFields hj (Nat.zero_le _)
  rw [hparse] at hparse'
  obtain ⟨-, hfields⟩ := Prod.mk.inj hparse'
  obtain ⟨rfl, rfl⟩ := Prod.mk.inj hfields
  have hlen' : b.length = m.requestLine.length + 2 := by simpa using hlen
  refine ⟨_, b, hparse, hlen', rfl, congrArg some htarget.1, htarget.2, rfl, rfl, ?_, ?_⟩
  · rw [hlen', ← hb]
    exact getElem?_unquery_nul (getElem?_set_nul (getElem?_set_nul hj _) _) _
  · rw [hlen']
    exact hbelow ⟨by simp [init], by simp [init], by simp [init], by simp [init], by simp [init]⟩

/-! ### The headers -/

section Headers

variable (strtoul : List UInt8 → Nat) {h : List UInt8 × List UInt8} (hk : ∀ c ∈ h.1, Plain c ∧ c ≠ asc ':')
  (hv : ∀ c ∈ h.2, Plain c) (ht : ∀ c ∈ h.2.head?, c ≠ asc ' ' ∧ c ≠ asc '\t')
include hk hv

theorem blank_plain : ∀ c ∈ headerLine (blank h), Plain c := by
  refine headerLine_plain (h := blank h) hk ?_
  intro c hc
  rw [blank, List.mem_cons] at hc
  rcases hc with rfl | hc
  · decide
  · exact hv c hc

include ht

omit hk in
/-- The blanks before the value are skipped, and no others. -/
theorem skipBlanks_value (pre rest : List UInt8) :
    skipBlanks (pre ++ asc ' ' :: h.2 ++ 0 :: rest) pre.length = pre.length + 1 := by
  have hnul : ∀ c ∈ asc ' ' :: h.2, c ≠ 0 := by
    intro c hc
    rw [List.mem_cons] at hc
    rcases hc with rfl | hc
    · decide
    · exact (hv c hc).1
  have hstop : h.2.takeWhile (fun c => decide (c = asc ' ' ∨ c = asc '\t')) = [] := by
    cases hval : h.2 with
    | nil => rfl
    | cons c value =>
      have := ht c (by simp [hval])
      exact List.takeWhile_cons_of_neg (by simp [this.1, this.2])
  rw [skipBlanks, str_line hnul, List.takeWhile_cons_of_pos (by simp), hstop]
  rfl

omit hk hv ht in
/-- Of the headers that the parser knows, only `Upgrade` touches one of the fields looked at here. -/
theorem special_fields {key : List UInt8} (hnul : 0 ∉ key) (f : Fields) (value : List UInt8) (val : Nat) {g : Fields}
    (hg : g =
      if strcasecmp key (lit "Content-Length") = 0 then { f with contentLen := strtoul value }
      else if strcasecmp key (lit "Transfer-Encoding") = 0 ∧
        strcasecmp value (lit "chunked") = 0 then { f with chunked := true }
      else if strcasecmp key (lit "Connection") = 0 then { f with keepAlive := strcasecmp value (lit "close") ≠ 0 }
      else if strcasecmp key (lit "Upgrade") = 0 then { f with upgrade := true, upgradeProto := some val }
      else if strcasecmp key (lit "Host") = 0 then { f with authority := some val }
      else f) :
    g.method = f.method ∧ g.path = f.path ∧ g.query = f.query ∧
      g.upgrade = (f.upgrade || decide (key.map foldCase = lit "upgrade")) := by
  have hlen : strcasecmp key (lit "Content-Length") = 0 → key.map foldCase ≠ lit "upgrade" := fun h =>
    (strcasecmp_eq_zero hnul (by decide)).1 h ▸ by decide
  have henc : strcasecmp key (lit "Transfer-Encoding") = 0 → key.map foldCase ≠ lit "upgrade" := fun h =>
    (strcasecmp_eq_zero hnul (by decide)).1 h ▸ by decide
  have hconn : strcasecmp key (lit "Connection") = 0 → key.map foldCase ≠ lit "upgrade" := fun h =>
    (strcasecmp_eq_zero hnul (by decide)).1 h ▸ by decide
  have hup : strcasecmp key (lit "Upgrade") = 0 ↔ key.map foldCase = lit "upgrade" := by
    rw [strcasecmp_eq_zero hnul (by decide)]
    exact Iff.of_eq (congrArg (key.map foldCase = ·) (by decide))
  subst hg
  split_ifs with h1 h2 h3 h4 h5
  · simp [hlen h1]
  · simp [henc h2.1]
  · simp [hconn h3]
  · simp [hup.1 h4]
  · simp [mt hup.2 h4]
  · simp [mt hup.2 h4]

/-- One header: its key and value are added to those read before, and everything before it stays. -/
theorem parseHeader_line {f : Fields} {a : Buf} {method : Method} {path : List UInt8} {query : Option (List UInt8)}
    {hdrs : List (List UInt8 × List UInt8)} {upgrade : Bool} (hf : Reads f a method path query hdrs upgrade)
    (hfew : hdrs.length < HTTP_MAXHDR) : ∃ g b,
    parseHeader strtoul f (a ++ headerLine (blank h) ++ [0, 0]) a.length = (g, b) ∧
      b.length = a.length + (headerLine (blank h)).length + 2 ∧
      Reads g b method path query (hdrs ++ [h]) (upgrade || decide (h.1.map foldCase = lit "upgrade")) := by
  have hplain := blank_plain hk hv
  have hcol : strchr (a ++ headerLine (blank h) ++ [0, 0]) a.length (asc ':') = some (a.length + h.1.length) :=
    strchr_line (fun c hc => (hplain c hc).1) (fun d hd => (hk d hd).2) rfl a [0]
  obtain ⟨b, hb⟩ : ∃ b, a ++ h.1 ++ [0] ++ asc ' ' :: h.2 ++ 0 :: [0] = b := ⟨_, rfl⟩
  have hset : (a ++ headerLine (blank h) ++ [0, 0]).set (a.length + h.1.length) 0 = b := by
    rw [← hb, ← List.length_append]
    simp [headerLine, blank]
  have hcount : f.hdrs.length = hdrs.length := by rw [← hf.hdrs, List.length_map]
  have hval : skipBlanks b (a.length + h.1.length + 1) = a.length + h.1.length + 2 := by
    have := skipBlanks_value hv ht (a ++ h.1 ++ [0]) [0]
    have hplace : (a ++ h.1 ++ [0]).length = a.length + h.1.length + 1 := by simp [Nat.add_assoc]
    rwa [hb, hplace] at this
  have hkey : str b a.length = h.1 := by
    have := str_line (fun c hc => (hk c hc).1.1) a (asc ' ' :: h.2 ++ 0 :: [0])
    have hassoc : a ++ h.1 ++ 0 :: (asc ' ' :: h.2 ++ 0 :: [0]) = b := by simp [← hb]
    rwa [hassoc] at this
  have hvalue : str b (a.length + h.1.length + 2) = h.2 := by
    have := str_line (fun c hc => (hv c hc).1) (a ++ h.1 ++ [0, asc ' ']) [0]
    have hassoc : a ++ h.1 ++ [0, asc ' '] ++ h.2 ++ 0 :: [0] = b := by simp [← hb]
    have hplace : (a ++ h.1 ++ [0, asc ' ']).length = a.length + h.1.length + 2 := by simp [Nat.add_assoc]
    rwa [hassoc, hplace] at this
  -- what was read before lies in front
  have hold : ∀ p, p ≤ a.length - 1 → str b p = str a p := by
    intro p hp
    have hassoc : b = a ++ (h.1 ++ [0] ++ asc ' ' :: h.2 ++ 0 :: [0]) := by simp [← hb]
    rw [hassoc]
    exact str_append hf.last hp
  have hlen : b.length = a.length + (headerLine (blank h)).length + 2 := by
    rw [← hset, List.length_set]
    simp [Nat.add_assoc]
  have hj : (a ++ headerLine (blank h) ++ [0, 0])[a.length + (headerLine (blank h)).length + 1]? = some 0 := by
    rw [List.getElem?_append_right (by simp [Nat.add_assoc])]
    simp
  obtain ⟨g, b', hparse, -, hbelow, -⟩ := parseHeader_append strtoul f hj (show a.length ≤ _ by omega)
  have hg := hparse
  simp only [parseHeader, hcount, if_neg (Nat.not_le.2 hfew), hcol, hset, hval, hkey, hvalue] at hg
  obtain ⟨hfields, rfl⟩ := Prod.mk.inj hg
  have hnul : 0 ∉ h.1 := fun h0 => (hk 0 h0).1.1 rfl
  obtain ⟨h1, h2, h3, h4⟩ := special_fields strtoul hnul f h.2 (a.length + h.1.length + 2) rfl
  have hpath : g.path = f.path := by rw [← hfields]; exact h2
  have hquery : g.query = f.query := by rw [← hfields]; exact h3
  have hhdrs : g.hdrs = f.hdrs ++ [(a.length, a.length + h.1.length + 2)] := by rw [← hfields]
  refine ⟨g, b, hparse, hlen, ?_, ?_, ?_, ?_, ?_, ?_, ?_⟩
  · rw [← hfields, ← hf.method]
    exact h1
  · rw [hpath, ← hf.path]
    exact Option.map_congr fun p hp => hold p (hf.below.path p hp)
  · rw [hquery, ← hf.query]
    exact Option.map_congr fun p hp => hold p (hf.below.query p hp)
  · rw [hhdrs, List.map_append, List.map_singleton, hkey, hvalue, ← hf.hdrs]
    congr 1
    apply List.map_congr_left
    intro x hx
    rw [hold x.1 (hf.below.hdrs x hx).1, hold x.2 (hf.below.hdrs x hx).2]
  · rw [← hfields, ← hf.upgrade]
    exact h4
  · rw [hlen, ← hset]
    exact getElem?_set_nul hj _
  · rw [hlen]
    exact hbelow (hf.below.mono (by omega))

end Headers

section Loop

variable (strtoul : List UInt8 → Nat) {f : Fields} {a : Buf} {method : Method} {path : List UInt8}
  {query : Option (List UInt8)}
  {seen : List (List UInt8 × List UInt8)} {upgrade : Bool}

/-- The NULs of the empty line change nothing that has been read. -/
theorem Reads.close (hf : Reads f a method path query seen upgrade) :
    Reads f (a ++ [0, 0]) method path query seen upgrade := by
  have hold : ∀ p, p ≤ a.length - 1 → str (a ++ [0, 0]) p = str a p := fun p hp => str_append hf.last hp
  have hlen : (a ++ [0, 0]).length - 1 = a.length + 1 := by simp
  refine ⟨hf.method, ?_, ?_, ?_, hf.upgrade, ?_, ?_⟩
  · rw [← hf.path]
    exact Option.map_congr fun p hp => hold p (hf.below.path p hp)
  · rw [← hf.query]
    exact Option.map_congr fun p hp => hold p (hf.below.query p hp)
  · rw [← hf.hdrs]
    apply List.map_congr_left
    intro x hx
    rw [hold x.1 (hf.below.hdrs x hx).1, hold x.2 (hf.below.hdrs x hx).2]
  · rw [hlen, List.getElem?_append_right (by omega)]
    simp
  · rw [hlen]
    exact hf.below.mono (by omega)

/-- All header lines up to the empty one, from any place in the request. -/
theorem headers_loop (hs : List (List UInt8 × List UInt8)) (hk : ∀ h ∈ hs, ∀ c ∈ h.1, Plain c ∧ c ≠ asc ':')
    (hv : ∀ h ∈ hs, ∀ c ∈ h.2, Plain c) (ht : ∀ h ∈ hs, ∀ c ∈ h.2.head?, c ≠ asc ' ' ∧ c ≠ asc '\t')
    (hf : Reads f a method path query seen upgrade) (hfew : seen.length + hs.length ≤ HTTP_MAXHDR) {len : Nat}
    (hlen : len = a.length + (headerLines (hs.map blank)).length) : ∃ g b p,
    feedLoop strtoul len (len - a.length) ⟨f, .headerLines, a.length, a ++ headerLines (hs.map blank), a.length⟩ =
        (if g.upgrade then .upgrade else .headers, ⟨g, .headerLines, p, b, len⟩) ∧
      Reads g b method path query (seen ++ hs) (upgrade || hs.any fun h => h.1.map foldCase = lit "upgrade") := by
  induction hs generalizing f a seen upgrade with
  | nil =>
    have hlen' : len = a.length + 2 := hlen
    have hturn := emptyLine_turn strtoul f a []
    rw [List.append_nil] at hturn
    refine ⟨f, a ++ [0, 0], a.length, ?_, by simpa using hf.close⟩
    obtain ⟨k, hk⟩ : ∃ k, len - a.length = k + 1 := ⟨1, by omega⟩
    rw [hk, List.map_nil, headerLines, feedLoop_stop strtoul (show a.length + 1 < len by omega) ?_ hturn, hlen']
    split <;> simp
  | cons h hs ih =>
    have hk' := hk h List.mem_cons_self
    have hv' := hv h List.mem_cons_self
    rw [List.length_cons] at hfew
    obtain ⟨l, hl⟩ : ∃ l, headerLine (blank h) = l := ⟨_, rfl⟩
    have hpos : 0 < l.length := by
      rw [← hl, headerLine, List.length_append, List.length_cons]
      omega
    have hrest := length_headerLines (hs.map blank)
    have hlen' : len = a.length + l.length + 2 + (headerLines (hs.map blank)).length := by
      rw [hlen, List.map_cons, headerLines, hl, List.length_append, List.length_append]
      simp only [lineEnd, List.length_cons, List.length_nil]
      omega
    obtain ⟨g, b, hparse, hb, hg⟩ := parseHeader_line strtoul hk' hv' (ht h List.mem_cons_self) hf (by omega)
    rw [hl] at hparse hb
    have hturn := turn_headerLine strtoul hpos hparse (headerLines (hs.map blank))
    have hscan := scan_whole strtoul len (a := a) (l := l) (fun c hc => (blank_plain hk' hv' c (hl ▸ hc)).2.1)
      (s := ⟨f, .headerLines, a.length, a ++ (l ++ (lineEnd ++ headerLines (hs.map blank))), a.length⟩) rfl rfl
      (by simp only; omega)
    have hloop := loop_turn strtoul len
      (s := ⟨f, .headerLines, a.length, a ++ (l ++ (lineEnd ++ headerLines (hs.map blank))), a.length + l.length⟩)
      (by simp only; omega) hturn
    obtain ⟨g', b', p, h1, h2⟩ := ih (fun x hx => hk x (List.mem_cons_of_mem _ hx)) (fun x hx =>
      hv x (List.mem_cons_of_mem _ hx))
      (fun x hx => ht x (List.mem_cons_of_mem _ hx)) hg (by simpa [Nat.add_assoc, Nat.add_comm 1] using hfew)
      (by rw [hb]; exact hlen')
    rw [hb] at h1
    refine ⟨g', b', p, ?_, by simpa [Bool.or_assoc] using h2⟩
    rw [List.map_cons, headerLines, hl]
    exact hscan.trans (hloop.trans h1)

/-- One call of `http_feed` reads a whole message. -/
theorem feed_message (m : Message) : (feed strtoul init m.bytes m.bytes.length).Gives m := by
  obtain ⟨g, b, hparse, hb, hg⟩ := m.parse
  have hrest := length_headerLines (m.hdrs.map blank)
  have hlen : m.bytes.length = b.length + (headerLines (m.hdrs.map blank)).length := by
    rw [hb, Message.bytes, List.length_append, List.length_append]
    simp only [lineEnd, List.length_cons, List.length_nil]
    omega
  have hturn := turn_requestLine strtoul hparse (headerLines (m.hdrs.map blank))
  have hscan := scan_whole strtoul m.bytes.length (a := []) (l := m.requestLine) (fun c hc =>
    (m.requestLine_plain c hc).2.1)
    (s := ⟨init.toFields, .requestLine, 0, m.bytes, 0⟩) rfl rfl (by simp only; omega)
  have hloop := loop_turn strtoul m.bytes.length
    (s := ⟨init.toFields, .requestLine, 0, m.bytes, m.requestLine.length⟩) (by simp only; omega) hturn
  obtain ⟨g', b', p, h1, h2⟩ := headers_loop strtoul m.hdrs m.keys m.values m.trimmed hg (by simpa using m.few) hlen
  simp only [Nat.zero_add] at hscan
  rw [hb] at h1
  rw [feed_of_loop strtoul (r := init) (hscan.trans (hloop.trans h1)), h2.upgrade]
  exact ⟨rfl, rfl, h2.method, h2.path, h2.query, h2.hdrs⟩

end Loop

/-- A request with a query and two headers. -/
def form : Message where
  method := .post
  path := lit "/form"
  query := some (lit "a=1")
  hdrs := [(lit "Host", lit "x"), (lit "Accept", lit "text/plain")]
  known := by decide
  paths := by decide +kernel
  queries := by decide +kernel
  few := by decide
  keys := by decide +kernel
  values := by decide +kernel
  trimmed := by decide +kernel

theorem feed_message_form : form.bytes.length = 56 ∧ (feed (fun _ => 0) init form.bytes form.bytes.length).Gives form :=
  ⟨by decide, feed_message (fun _ => 0) form⟩

end JACLibc.Http
