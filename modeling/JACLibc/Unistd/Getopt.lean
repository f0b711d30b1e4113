import JACLibc.CString
import JACLibc.Lib.Checked
import JACLibc.Lib.First
import JACLibc.Strings.Compare
import Mathlib.Data.List.GetD

/-!
# `getopt`

`getopt` keeps its place in `optind` and in a static `optpos`, the position in the argument.  Every read of an
argument is checked here: the argument has to be one of the `argc`, and the position not behind its NUL.

`listing` is what the calls are to return up to the first `-1`, and where they are to stop.  The code takes an
argument `-` as well, reads the argument behind the last one for its message if an option lacks its argument, and
returns `-1` for the option character 255 (`getopt_iff`).
-/

namespace JACLibc.Getopt

/-! ### The code -/

/-- A read of no argument or behind the NUL of one; or a loop that is not done. -/
inductive Fault where
  | outside | forever
  deriving DecidableEq, Repr

/-- `optind`, `optpos`, `optarg` and what was written to `stderr`. -/
structure State where
  optind : Nat
  optpos : Nat
  optarg : Option (List UInt8)
  err : List UInt8
  deriving DecidableEq, Repr

variable (argv : List CString) (optstring : List UInt8) (opterr : Bool)

/-- `argv[i]`, where it is not NULL. -/
def argument (i : Nat) : Except Fault (List UInt8) :=
  match argv[i]? with
  | some a => .ok a.bytes
  | none => .error .outside

/-- `argv[i][k]` -/
def charAt (i k : Nat) : Except Fault UInt8 := do
  let a ← argument argv i
  if k ≤ a.length then .ok (a.getD k 0) else .error .outside

/-- `strchr(optstring, c)` -/
def strchr (c : UInt8) : Option (List UInt8) :=
  if c ∈ optstring ++ [0] then some ((optstring ++ [0]).dropWhile (· ≠ c)) else none

/-- `optpos++`, and on to the next argument at the end of this one. -/
def nextChar (s : State) : Except Fault State := do
  let c ← charAt argv s.optind (s.optpos + 1)
  return if c = 0 then { s with optind := s.optind + 1, optpos := 1 } else { s with optpos := s.optpos + 1 }

/-- The four calls of `write`. -/
def complain (text : String) (s : State) : Except Fault State := do
  let program ← argument argv 0
  let c ← charAt argv s.optind s.optpos
  return { s with err := s.err ++ program ++ lit text ++ [c, asc '\n'] }

/-- `getopt` behind the tests for the end of the options. -/
def option (s : State) : Except Fault (Int × State) := do
  let c ← charAt argv s.optind s.optpos
  match strchr optstring c with
  | none =>
    let s ← if opterr then complain argv ": illegal option -- " s else .ok s
    let s ← nextChar argv s
    return ((asc '?').toNat, s)
  | some opt =>
    if deref opt = asc ':' then
      let s ← if opterr then complain argv ": illegal option -- " s else .ok s
      let s ← nextChar argv s
      return ((asc '?').toNat, s)
    else if deref opt.tail = asc ':' then
      let d ← charAt argv s.optind (s.optpos + 1)
      if d ≠ 0 then
        let a ← argument argv s.optind
        return (charVal (deref opt),
          { s with optarg := some (a.drop (s.optpos + 1)), optind := s.optind + 1, optpos := 1 })
      else if s.optind + 1 < argv.length then
        let a ← argument argv (s.optind + 1)
        return (charVal (deref opt), { s with optarg := some a, optind := s.optind + 2, optpos := 1 })
      else
        let s := { s with optarg := none, optind := s.optind + 1 }
        let s ← if opterr then complain argv ": option requires an argument -- " s else .ok s
        return ((if deref optstring = asc ':' then asc ':' else asc '?').toNat, s)
    else
      let s ← nextChar argv { s with optarg := none }
      return (charVal (deref opt), s)

/-- `getopt` -/
def getopt (s : State) : Except Fault (Int × State) := do
  let s := if s.optind = 0 then { s with optind := 1, optpos := 1 } else s
  if argv.length ≤ s.optind then return (-1, s)
  else
    let c0 ← charAt argv s.optind 0
    if c0 ≠ asc '-' then return (-1, s)
    else
      let c1 ← charAt argv s.optind 1
      if c1 = 0 then return (-1, { s with optind := s.optind + 1 })
      else
        let c2 ← if c1 = asc '-' then charAt argv s.optind 2 else .ok 1
        if c2 = 0 then return (-1, { s with optind := s.optind + 1 })
        else option argv optstring opterr s

/-- `n` calls. -/
def calls : Nat → State → Except Fault State
  | 0, s => .ok s
  | n + 1, s => do
    let r ← getopt argv optstring opterr s
    calls n r.2

/-- What a call returns, and `optarg` behind it. -/
structure Event where
  ret : Int
  optarg : Option (List UInt8)
  deriving DecidableEq, Repr

/-- The calls up to the first that returns `-1`, and `optind` behind that one. -/
def scan : Nat → State → Except Fault (List Event × Nat)
  | 0, _ => .error .forever
  | fuel + 1, s => do
    let r ← getopt argv optstring opterr s
    if r.1 = -1 then return ([], r.2.optind)
    else
      let rest ← scan fuel r.2
      return (⟨r.1, r.2.optarg⟩ :: rest.1, rest.2)

def State.start : State := ⟨1, 1, none, []⟩

/-! ### What the calls are to return -/

/-- Whether an option character is known, and takes an argument. -/
def takesArgument (c : UInt8) : Option Bool :=
  if c = asc ':' ∨ c ∉ optstring then none else some (deref (optstring.dropWhile (· ≠ c)).tail = asc ':')

/-- The number of steps that a list of characters and arguments is good for. -/
def size (cs : List UInt8) (args : List CString) : Nat := cs.length + (args.map fun a => a.bytes.length + 1).sum

/-- The options in the characters `cs` of a cluster and in the arguments behind it, each with its argument, and the
arguments that are left where the scanning stops; `prev` is `optarg` so far. -/
def listing (cs : List UInt8) (args : List CString) (prev : Option (List UInt8)) : List Event × List CString :=
  match cs, args with
  | [], [] => ([], [])
  | [], a :: args =>
    if deref a.bytes ≠ asc '-' ∨ a.bytes = lit "-" then ([], a :: args)
    else if a.bytes = lit "--" then ([], args)
    else listing a.bytes.tail args prev
  | c :: cs, args =>
    match takesArgument optstring c with
    | none => (⟨(asc '?').toNat, prev⟩ :: (listing cs args prev).1, (listing cs args prev).2)
    | some false => (⟨charVal c, none⟩ :: (listing cs args none).1, (listing cs args none).2)
    | some true =>
      if cs ≠ [] then (⟨charVal c, some cs⟩ :: (listing [] args (some cs)).1, (listing [] args (some cs)).2)
      else
        match args with
        | a :: args => (⟨charVal c, some a.bytes⟩ :: (listing [] args (some a.bytes)).1,
          (listing [] args (some a.bytes)).2)
        | [] => ([⟨(if deref optstring = asc ':' then asc ':' else asc '?').toNat, none⟩], [])
termination_by size cs args
decreasing_by all_goals simp [size] <;> omega

/-- The scanning does not stop at `-`, no option lacks its argument while messages are written, and no option
character that is known is the byte 255. -/
def Clean (cs : List UInt8) (args : List CString) : Prop :=
  match cs, args with
  | [], [] => True
  | [], a :: args =>
    if deref a.bytes ≠ asc '-' then True
    else if a.bytes = lit "-" then False
    else if a.bytes = lit "--" then True
    else Clean a.bytes.tail args
  | c :: cs, args =>
    match takesArgument optstring c with
    | none => Clean cs args
    | some false => c ≠ 255 ∧ Clean cs args
    | some true =>
      if cs ≠ [] then c ≠ 255 ∧ Clean [] args
      else
        match args with
        | _ :: args => c ≠ 255 ∧ Clean [] args
        | [] => opterr = false
termination_by size cs args
decreasing_by all_goals simp [size] <;> omega

/-- No option lacks its argument while messages are written, also where the calls go on behind a `-1`. -/
def Safe (cs : List UInt8) (args : List CString) : Prop :=
  match cs, args with
  | [], [] => True
  | [], a :: args =>
    if deref a.bytes ≠ asc '-' then True
    else if a.bytes = lit "-" ∨ a.bytes = lit "--" then Safe [] args
    else Safe a.bytes.tail args
  | c :: cs, args =>
    if takesArgument optstring c = some true then
      if cs ≠ [] then Safe [] args
      else
        match args with
        | _ :: args => Safe [] args
        | [] => opterr = false
    else Safe cs args
termination_by size cs args
decreasing_by all_goals simp [size] <;> omega

/-! ### Where a call stands -/

/-- The characters that are left of the argument at `optind`, and the arguments behind it. -/
def Stands (s : State) : List UInt8 → List CString → Prop
  | [], args => ∃ before, argv.tail = before ++ args ∧ s.optind = before.length + 1 ∧ (s.optpos = 1 ∨ args = [])
  | c :: cs, args => ∃ before a head, argv.tail = before ++ a :: args ∧ s.optind = before.length + 1 ∧
      a.bytes = asc '-' :: (head ++ c :: cs) ∧ s.optpos = head.length + 1 ∧ a.bytes ≠ lit "--"

section Reads

variable {argv} {before args : List CString} {a : CString} {s : State}

theorem argument_at (h : argv.tail = before ++ a :: args) : argument argv (before.length + 1) = .ok a.bytes := by
  rcases argv with _ | ⟨program, rest⟩
  · simp at h
  · rw [List.tail_cons] at h
    simp [argument, h]

theorem argument_zero (h : argv.tail = before ++ a :: args) : ∃ program, argument argv 0 = .ok program := by
  rcases argv with _ | ⟨program, rest⟩
  · simp at h
  · exact ⟨program.bytes, rfl⟩

theorem optind_lt (h : argv.tail = before ++ a :: args) : before.length + 1 < argv.length ∧
    (args = [] ↔ ¬before.length + 2 < argv.length) := by
  have hlen := congrArg List.length h
  rw [List.length_tail, List.length_append, List.length_cons] at hlen
  rw [← List.length_eq_zero_iff]
  omega

/-- Every character up to the NUL can be read. -/
theorem charAt_at (h : argv.tail = before ++ a :: args) (head : List UInt8) {rest : List UInt8}
    (ha : a.bytes = head ++ rest) :
    charAt argv (before.length + 1) head.length = .ok (deref rest) := by
  have hle : head.length ≤ a.bytes.length := by
    rw [ha, List.length_append]
    exact Nat.le_add_right _ _
  have hget : a.bytes.getD head.length 0 = deref rest := by
    rw [ha, List.getD_append_right _ _ _ _ (Nat.le_refl _), Nat.sub_self]
    cases rest <;> rfl
  rw [charAt, argument_at h, ok_bind, if_pos hle, hget]

theorem charAt_zero (h : argv.tail = before ++ a :: args) : charAt argv (before.length + 1) 0 = .ok (deref a.bytes) :=
  charAt_at h [] rfl

theorem charAt_one (h : argv.tail = before ++ a :: args) {x : UInt8} {rest : List UInt8} (ha : a.bytes = x :: rest) :
    charAt argv (before.length + 1) 1 = .ok (deref rest) :=
  charAt_at h [x] ha

theorem charAt_two (h : argv.tail = before ++ a :: args) {x y : UInt8} {rest : List UInt8}
    (ha : a.bytes = x :: y :: rest) :
    charAt argv (before.length + 1) 2 = .ok (deref rest) :=
  charAt_at h [x, y] ha

theorem deref_ne_zero {l : List UInt8} (h0 : 0 ∉ l) (h : l ≠ []) : deref l ≠ 0 := by
  rcases l with _ | ⟨c, l⟩
  · exact absurd rfl h
  · exact fun hc => h0 (hc ▸ List.mem_cons_self)

end Reads

/-! ### A call -/

section Call

variable {argv optstring opterr} {s : State} {c : UInt8} {cs : List UInt8} {a : CString} {args : List CString}

theorem nextChar_stands (h : Stands argv s (c :: cs) args) :
    ∃ s', nextChar argv s = .ok s' ∧ s'.optarg = s.optarg ∧ Stands argv s' cs args := by
  obtain ⟨before, a, head, hargv, hind, ha, hpos, hne⟩ := h
  have hread : charAt argv s.optind (s.optpos + 1) = .ok (deref cs) := by
    have hat := charAt_at hargv (asc '-' :: (head ++ [c])) (show a.bytes = _ ++ cs by rw [ha]; simp)
    rw [List.length_cons, List.length_append, List.length_singleton] at hat
    rw [hind, hpos, hat]
  rw [nextChar, hread, ok_bind]
  rcases cs with _ | ⟨d, cs⟩
  · rw [if_pos (show deref [] = 0 from rfl)]
    exact ⟨_, rfl, rfl, before ++ [a], by simp [hargv], by simp [hind], .inl rfl⟩
  · have hd : deref (d :: cs) ≠ 0 := deref_ne_zero (fun h0 => a.noNul (ha ▸ by simp [List.mem_cons.1 h0])) (by simp)
    rw [if_neg hd]
    exact ⟨_, rfl, rfl, before, a, head ++ [c], hargv, hind, by simp [ha], by simp [hpos], hne⟩

theorem complain_ok (h : Stands argv s (c :: cs) args) (text : String) :
    ∃ err, complain argv text s = .ok { s with err := err } := by
  obtain ⟨before, a, head, hargv, hind, ha, hpos, hne⟩ := h
  obtain ⟨program, hprogram⟩ := argument_zero hargv
  have hread : charAt argv s.optind s.optpos = .ok (deref (c :: cs)) := by
    rw [hind, hpos]
    exact charAt_at hargv (asc '-' :: head) ha
  rw [complain, hprogram, ok_bind, hread, ok_bind]
  exact ⟨_, rfl⟩

/-- Behind the last argument, or at one without `-`. -/
theorem getopt_operand (h : Stands argv s [] args) (hargs : ∀ a ∈ args.head?, deref a.bytes ≠ asc '-') :
    getopt argv optstring opterr s = .ok (-1, s) := by
  obtain ⟨before, hargv, hind, hpos⟩ := h
  have hne : s.optind ≠ 0 := by omega
  unfold getopt
  simp only [if_neg hne]
  rcases args with _ | ⟨a, args⟩
  · have hlen := congrArg List.length hargv
    rw [List.append_nil, List.length_tail] at hlen
    rw [if_pos (by omega)]
    rfl
  · have hread : charAt argv s.optind 0 = .ok (deref a.bytes) := by
      rw [hind]
      exact charAt_zero hargv
    rw [if_neg (by have := (optind_lt hargv).1; omega), hread, ok_bind, if_pos (hargs a rfl)]
    rfl

/-- At `-` or `--`. -/
theorem getopt_stop (optstring : List UInt8) (opterr : Bool) (h : Stands argv s [] (a :: args))
    (ha : a.bytes = lit "-" ∨ a.bytes = lit "--") :
    getopt argv optstring opterr s = .ok (-1, { s with optind := s.optind + 1 }) ∧
    Stands argv { s with optind := s.optind + 1 } [] args := by
  obtain ⟨before, hargv, hind, hpos⟩ := h
  have hne : s.optind ≠ 0 := by omega
  refine ⟨?_, before ++ [a], by simp [hargv], by simp [hind], .inl (hpos.resolve_right (by simp))⟩
  unfold getopt
  simp only [if_neg hne]
  rw [if_neg (by have := (optind_lt hargv).1; omega), hind]
  rcases ha with ha | ha
  · rw [charAt_zero hargv, ok_bind, ha, if_neg (by decide), charAt_one hargv ha, ok_bind]
    rfl
  · rw [charAt_zero hargv, ok_bind, ha, if_neg (by decide), charAt_one hargv ha, ok_bind, if_neg (by decide),
      if_pos (by decide), charAt_two hargv ha, ok_bind]
    rfl

/-- A cluster begins. -/
theorem stands_open (h : Stands argv s [] (a :: args)) (hdash : deref a.bytes = asc '-') (hone : a.bytes ≠ lit "-")
    (htwo : a.bytes ≠ lit "--") : Stands argv s a.bytes.tail args := by
  obtain ⟨before, hargv, hind, hpos⟩ := h
  have hpos := hpos.resolve_right (by simp)
  rcases hbytes : a.bytes with _ | ⟨x, _ | ⟨c, cs⟩⟩
  · rw [hbytes] at hdash
    exact absurd hdash (by decide)
  · rw [hbytes, deref_cons] at hdash
    exact absurd (hbytes.trans (by rw [hdash]; rfl)) hone
  · rw [hbytes, deref_cons] at hdash
    exact ⟨before, a, [], hargv, hind, by rw [hbytes, hdash]; rfl, hpos, htwo⟩

/-- In a cluster a call comes to the next option. -/
theorem getopt_cluster (h : Stands argv s (c :: cs) args) :
    getopt argv optstring opterr s = option argv optstring opterr s := by
  obtain ⟨before, a, head, hargv, hind, ha, hpos, hdashes⟩ := h
  have hne : s.optind ≠ 0 := by omega
  have h0 : 0 ∉ head ++ c :: cs := fun hmem => a.noNul (ha ▸ List.mem_cons_of_mem _ hmem)
  have hone := deref_ne_zero h0 (by simp)
  unfold getopt
  simp only [if_neg hne]
  rw [if_neg (by have := (optind_lt hargv).1; omega), hind, charAt_zero hargv, ok_bind, ha, deref_cons,
    if_neg (not_not_intro rfl), charAt_one hargv ha, ok_bind, if_neg hone]
  by_cases hdash : deref (head ++ c :: cs) = asc '-'
  · obtain ⟨rest, hrest⟩ : ∃ rest, head ++ c :: cs = asc '-' :: rest := by
      rcases hbytes : head ++ c :: cs with _ | ⟨x, rest⟩
      · simp at hbytes
      · rw [hbytes, deref_cons] at hdash
        exact ⟨rest, by rw [hdash]⟩
    rw [hrest] at ha h0
    have hnil : rest ≠ [] := fun hnil => hdashes (by rw [ha, hnil]; rfl)
    have htwo := deref_ne_zero (fun hmem => h0 (List.mem_cons_of_mem _ hmem)) hnil
    rw [if_pos hdash, charAt_two hargv ha, ok_bind, if_neg htwo]
  · rw [if_neg hdash, ok_bind, if_neg (by decide)]

end Call

/-! ### An option -/

section Option

variable {argv optstring opterr} {s : State} {c : UInt8} {cs : List UInt8} {a : CString} {args : List CString}

theorem charAt_current (h : Stands argv s (c :: cs) args) : charAt argv s.optind s.optpos = .ok c ∧ c ≠ 0 := by
  obtain ⟨before, a, head, hargv, hind, ha, hpos, hne⟩ := h
  rw [hind, hpos]
  exact ⟨charAt_at hargv (asc '-' :: head) ha, fun hc => a.noNul (by simp [ha, hc])⟩

theorem strchr_none (h0 : c ≠ 0) (hc : c ∉ optstring) : strchr optstring c = none :=
  if_neg fun hmem => (List.mem_append.1 hmem).elim hc fun h => h0 (List.mem_singleton.1 h)

theorem strchr_some (hc : c ∈ optstring) :
    strchr optstring c = some (c :: ((optstring.dropWhile (· ≠ c)).tail ++ [0])) := by
  have hsplit : optstring ++ [0] = optstring.takeWhile (· ≠ c) ++ c :: ((optstring.dropWhile (· ≠ c)).tail ++ [0]) := by
    rw [← List.cons_append, ← List.append_assoc, ← First.split hc]
  rw [strchr, if_pos (List.mem_append_left _ hc), hsplit, First.dropWhile_append (First.not_mem_takeWhile _ _)]

theorem deref_append (l : List UInt8) : deref (l ++ [0]) = deref l := by
  cases l <;> rfl

theorem complain_then {β : Type} (h : Stands argv s (c :: cs) args) (text : String) (f : State → Except Fault β) :
    ∃ err, (if opterr = true then complain argv text s >>= f else f s) = f { s with err := err } := by
  by_cases hopt : opterr = true
  · obtain ⟨err, herr⟩ := complain_ok h text
    exact ⟨err, by rw [if_pos hopt, herr, ok_bind]⟩
  · exact ⟨s.err, by rw [if_neg hopt]⟩

/-- An option that is not known. -/
theorem option_unknown (opterr : Bool) (h : Stands argv s (c :: cs) args) (hc : takesArgument optstring c = none) :
    ∃ s', option argv optstring opterr s = .ok ((asc '?').toNat, s') ∧ s'.optarg = s.optarg ∧
    Stands argv s' cs args := by
  obtain ⟨hread, h0⟩ := charAt_current h
  obtain ⟨err, herr⟩ := @complain_then argv opterr s c cs args _ h ": illegal option -- " fun s =>
    nextChar argv s >>= fun s => (pure (((asc '?').toNat : Int), s) : Except Fault (Int × State))
  obtain ⟨s', hs', hoptarg, hstands⟩ := nextChar_stands (s := { s with err := err }) h
  refine ⟨s', ?_, hoptarg, hstands⟩
  rw [hs', ok_bind] at herr
  rw [option, hread, ok_bind]
  by_cases hmem : c ∈ optstring
  · have hcolon : c = asc ':' := by
      by_contra hne
      rw [takesArgument, if_neg (by tauto)] at hc
      cases hc
    rw [strchr_some hmem]
    simp only [deref_cons, if_pos hcolon]
    exact herr
  · rw [strchr_none h0 hmem]
    exact herr

/-- A known option: the character behind it says whether it takes an argument. -/
theorem strchr_known {b : Bool} (hc : takesArgument optstring c = some b) :
    c ≠ asc ':' ∧ ∃ opt, strchr optstring c = some (c :: opt) ∧ (deref opt = asc ':' ↔ b = true) := by
  rw [takesArgument] at hc
  split at hc
  · cases hc
  · rename_i hnot
    rw [not_or, not_not] at hnot
    refine ⟨hnot.1, _, strchr_some hnot.2, ?_⟩
    rw [deref_append, ← Option.some.inj hc, decide_eq_true_iff]

theorem option_plain (opterr : Bool) (h : Stands argv s (c :: cs) args) (hc : takesArgument optstring c = some false) :
    ∃ s', option argv optstring opterr s = .ok (charVal c, s') ∧ s'.optarg = none ∧ Stands argv s' cs args := by
  obtain ⟨hread, h0⟩ := charAt_current h
  obtain ⟨hcolon, opt, hopt, htakes⟩ := strchr_known hc
  obtain ⟨s', hs', hoptarg, hstands⟩ := nextChar_stands (s := { s with optarg := none }) h
  refine ⟨s', ?_, hoptarg, hstands⟩
  rw [option, hread, ok_bind, hopt]
  simp only [deref_cons, if_neg hcolon, List.tail_cons, if_neg (mt htakes.1 Bool.false_ne_true), hs', ok_bind]
  rfl

/-- The argument is the rest of the cluster. -/
theorem option_attached (opterr : Bool) (h : Stands argv s (c :: cs) args)
    (hc : takesArgument optstring c = some true) (hcs : cs ≠ []) :
    ∃ s', option argv optstring opterr s = .ok (charVal c, s') ∧ s'.optarg = some cs ∧ Stands argv s' [] args := by
  obtain ⟨hread, h0⟩ := charAt_current h
  obtain ⟨hcolon, opt, hopt, htakes⟩ := strchr_known hc
  obtain ⟨before, a, head, hargv, hind, ha, hpos, hne⟩ := h
  have ha' : a.bytes = asc '-' :: (head ++ [c]) ++ cs := by simp [ha]
  have hlen : (asc '-' :: (head ++ [c])).length = s.optpos + 1 := by simp [hpos]
  have hnext : charAt argv s.optind (s.optpos + 1) = .ok (deref cs) := by
    rw [← hlen, hind]
    exact charAt_at hargv _ ha'
  have hd : deref cs ≠ 0 := deref_ne_zero (fun hmem => a.noNul (ha' ▸ List.mem_append_right _ hmem)) hcs
  refine ⟨{ s with optarg := some cs, optind := s.optind + 1, optpos := 1 }, ?_, rfl, before ++ [a], by simp [hargv],
    by simp [hind], .inl rfl⟩
  rw [option, hread, ok_bind, hopt]
  simp only [deref_cons, if_neg hcolon, List.tail_cons, if_pos (htakes.2 rfl), hnext, ok_bind, if_pos hd]
  rw [hind, argument_at hargv, ok_bind, ha', ← hlen, List.drop_left]
  rfl

/-- The option ends its cluster. -/
theorem option_last (opterr : Bool) (h : Stands argv s [c] args) (hc : takesArgument optstring c = some true) :
    ∃ before a, argv.tail = before ++ a :: args ∧ s.optind = before.length + 1 ∧ option argv optstring opterr s =
      if s.optind + 1 < argv.length then do
        let a ← argument argv (s.optind + 1)
        return (charVal c, { s with optarg := some a, optind := s.optind + 2, optpos := 1 })
      else do
        let s := { s with optarg := none, optind := s.optind + 1 }
        let s ← if opterr then complain argv ": option requires an argument -- " s else .ok s
        return ((if deref optstring = asc ':' then asc ':' else asc '?').toNat, s) := by
  obtain ⟨hread, h0⟩ := charAt_current h
  obtain ⟨hcolon, opt, hopt, htakes⟩ := strchr_known hc
  obtain ⟨before, a, head, hargv, hind, ha, hpos, hne⟩ := h
  have hlen : (asc '-' :: (head ++ [c])).length = s.optpos + 1 := by simp [hpos]
  have hnext : charAt argv s.optind (s.optpos + 1) = .ok 0 := by
    rw [← hlen, hind]
    exact charAt_at hargv (asc '-' :: (head ++ [c])) (show a.bytes = _ ++ [] by simp [ha])
  refine ⟨before, a, hargv, hind, ?_⟩
  rw [option, hread, ok_bind, hopt]
  simp only [deref_cons, if_neg hcolon, List.tail_cons, if_pos (htakes.2 rfl), hnext, ok_bind,
    if_neg (not_not_intro rfl)]

/-- The argument is the next one. -/
theorem option_next (opterr : Bool) (h : Stands argv s [c] (a :: args)) (hc : takesArgument optstring c = some true) :
    ∃ s', option argv optstring opterr s = .ok (charVal c, s') ∧ s'.optarg = some a.bytes ∧ Stands argv s' [] args := by
  obtain ⟨before, a0, hargv, hind, hoption⟩ := option_last opterr h hc
  have hmore := (optind_lt hargv).2
  have hargv' : argv.tail = (before ++ [a0]) ++ a :: args := by simp [hargv]
  have hnext : argument argv (s.optind + 1) = .ok a.bytes := by
    rw [hind]
    simpa using argument_at hargv'
  refine ⟨{ s with optarg := some a.bytes, optind := s.optind + 2, optpos := 1 }, ?_, rfl,
    before ++ [a0] ++ [a], by simp [hargv], by simp [hind], .inl rfl⟩
  rw [hoption, if_pos (by rw [hind]; by_contra hle; exact absurd (hmore.2 hle) (by simp)), hnext, ok_bind]
  rfl

/-- There is no argument left: the message has the character of the argument behind the last one. -/
theorem option_missing (opterr : Bool) (h : Stands argv s [c] []) (hc : takesArgument optstring c = some true) :
    (opterr = true → option argv optstring opterr s = .error .outside) ∧
    (opterr = false → ∃ s', option argv optstring opterr s =
    .ok ((if deref optstring = asc ':' then asc ':' else asc '?').toNat, s') ∧
      s'.optarg = none ∧ Stands argv s' [] []) := by
  obtain ⟨before, a, hargv, hind, hoption⟩ := option_last opterr h hc
  have hlast := (optind_lt hargv).2.1 rfl
  rw [hoption, if_neg (by omega)]
  constructor
  · intro hopt
    obtain ⟨program, hprogram⟩ := argument_zero hargv
    have hread : ∀ k, charAt argv (s.optind + 1) k = .error .outside := by
      intro k
      rw [charAt, argument, List.getElem?_eq_none (by omega)]
      rfl
    simp only [if_pos hopt, complain, hprogram, hread, ok_bind, error_bind]
  · intro hopt
    simp only [hopt, Bool.false_eq_true, if_false]
    exact ⟨_, rfl, rfl, before ++ [a], by simp [hargv], by simp [hind], .inr rfl⟩

end Option

/-! ### Up to the first `-1` -/

section Scan

variable {argv optstring opterr} {s : State}

theorem scan_mono {fuel fuel' : Nat} (hle : fuel ≤ fuel') {s : State} {r : List Event × Nat}
    (h : scan argv optstring opterr fuel s = .ok r) : scan argv optstring opterr fuel' s = .ok r := by
  induction fuel generalizing fuel' s r with
  | zero => cases h
  | succ fuel ih =>
    obtain ⟨k, rfl⟩ : ∃ k, fuel' = k + 1 := ⟨fuel' - 1, by omega⟩
    rw [scan, bind_eq_ok] at h ⊢
    obtain ⟨t, ht, h⟩ := h
    refine ⟨t, ht, ?_⟩
    by_cases hend : t.1 = -1
    · rw [if_pos hend] at h ⊢
      exact h
    · rw [if_neg hend, bind_eq_ok] at h ⊢
      obtain ⟨rest, hrest, h⟩ := h
      exact ⟨rest, ih (by omega) hrest, h⟩

theorem scan_end {s' : State} (h : getopt argv optstring opterr s = .ok (-1, s')) (fuel : Nat) :
    scan argv optstring opterr (fuel + 1) s = .ok ([], s'.optind) := by
  rw [scan, h, ok_bind, if_pos rfl]
  rfl

/-- A call that returns an option, and the calls behind it. -/
theorem scan_event {s' : State} {ret : Int} (h : getopt argv optstring opterr s = .ok (ret, s')) (hret : ret ≠ -1)
    (fuel : Nat) (events : List Event) (stop : Nat) :
    scan argv optstring opterr (fuel + 1) s = .ok (⟨ret, s'.optarg⟩ :: events, stop) ↔
      scan argv optstring opterr fuel s' = .ok (events, stop) := by
  rw [scan, h, ok_bind, if_neg hret]
  rcases scan argv optstring opterr fuel s' with e | ⟨events', stop'⟩
  · exact iff_of_false (fun h => by cases h) (fun h => by cases h)
  · rw [ok_bind]
    change Except.ok _ = _ ↔ _
    simp

theorem charVal_eq_end {c : UInt8} : charVal c = -1 ↔ c = 255 :=
  ⟨fun h => charVal_injective (h.trans (by decide)), fun h => by rw [h]; decide⟩

/-- The number of the argument where the scanning stops. -/
def stop (argv left : List CString) : Nat := 1 + (argv.tail.length - left.length)

theorem stop_eq {args : List CString} (h : Stands argv s [] args) : stop argv args = s.optind := by
  obtain ⟨before, hargv, hind, -⟩ := h
  rw [stop, hargv, List.length_append]
  omega

theorem scan_known {s' : State} {c : UInt8} (h : getopt argv optstring opterr s = .ok (charVal c, s')) (fuel : Nat)
    (events : List Event) (stop : Nat) : scan argv optstring opterr (fuel + 1) s =
    .ok (⟨charVal c, s'.optarg⟩ :: events, stop) ↔
      c ≠ 255 ∧ scan argv optstring opterr fuel s' = .ok (events, stop) := by
  by_cases hc : c = 255
  · rw [charVal_eq_end.2 hc] at h
    rw [scan_end h]
    exact iff_of_false (fun h => by cases h) fun h => h.1 hc
  · rw [scan_event h (mt charVal_eq_end.1 hc)]
    exact (and_iff_right hc).symm

/-- With as much fuel as there are characters, the calls return the options up to the first `-1` in the cases of
`Clean`. -/
theorem scan_clean (cs : List UInt8) (args : List CString) (prev : Option (List UInt8)) :
    ∀ (s : State) (fuel : Nat), Stands argv s cs args → s.optarg = prev → size cs args < fuel →
    (scan argv optstring opterr fuel s = .ok ((listing optstring cs args prev).1,
    stop argv (listing optstring cs args prev).2) ↔
      Clean optstring opterr cs args) := by
  induction cs, args, prev using listing.induct optstring with
  | case1 prev =>
    rintro s (_ | fuel) h - hfuel
    · omega
    rw [scan_end (getopt_operand h (by simp)), listing, Clean, stop_eq h]
    exact iff_of_true rfl trivial
  | case2 prev a args ha =>
    rintro s (_ | fuel) h - hfuel
    · omega
    rw [listing, if_pos ha, Clean, stop_eq h]
    by_cases hdash : deref a.bytes ≠ asc '-'
    · rw [scan_end (getopt_operand h (by simpa using hdash)), if_pos hdash]
      exact iff_of_true rfl trivial
    · have hone := ha.resolve_left hdash
      rw [scan_end (getopt_stop optstring opterr h (.inl hone)).1, if_neg hdash, if_pos hone]
      refine iff_of_false (fun heq => ?_) id
      simp at heq
  | case3 prev a args ha htwo =>
    rintro s (_ | fuel) h - hfuel
    · omega
    obtain ⟨hcall, hstands⟩ := getopt_stop optstring opterr h (.inr htwo)
    rw [not_or] at ha
    rw [scan_end hcall, listing, if_neg (by tauto), if_pos htwo, Clean, if_neg ha.1, if_neg ha.2, if_pos htwo,
      stop_eq hstands]
    exact iff_of_true rfl trivial
  | case4 prev a args ha htwo ih =>
    rintro s fuel h hprev hfuel
    rw [not_or, not_not] at ha
    rw [listing, if_neg (by tauto), if_neg htwo, Clean, if_neg (not_not_intro ha.1), if_neg ha.2, if_neg htwo]
    refine ih s fuel (stands_open h ha.1 ha.2 htwo) hprev ?_
    simp only [size, List.length_tail, List.map_cons, List.sum_cons, List.length_nil] at hfuel ⊢
    omega
  | case5 prev c cs args hc ih =>
    rintro s (_ | fuel) h hprev hfuel
    · omega
    obtain ⟨s', hs', hoptarg, hstands⟩ := option_unknown opterr h hc
    rw [← getopt_cluster h] at hs'
    rw [listing.eq_def, Clean.eq_def]
    simp only [hc, ← hprev, ← hoptarg]
    rw [scan_event hs' (by decide), hoptarg, hprev]
    exact ih s' fuel hstands (hoptarg.trans hprev) (by simp only [size, List.length_cons] at hfuel ⊢; omega)
  | case6 prev c cs args hc ih =>
    rintro s (_ | fuel) h hprev hfuel
    · omega
    obtain ⟨s', hs', hoptarg, hstands⟩ := option_plain opterr h hc
    rw [← getopt_cluster h] at hs'
    rw [listing.eq_def, Clean.eq_def]
    simp only [hc]
    conv => enter [1, 2, 1, 1, 1]; rw [← hoptarg]
    rw [scan_known hs']
    exact and_congr_right fun _ => ih s' fuel hstands hoptarg (by simp only [size, List.length_cons] at hfuel ⊢; omega)
  | case7 prev c cs args hc hcs ih =>
    rintro s (_ | fuel) h hprev hfuel
    · omega
    obtain ⟨s', hs', hoptarg, hstands⟩ := option_attached opterr h hc hcs
    rw [← getopt_cluster h] at hs'
    rw [listing.eq_def, Clean.eq_def]
    simp only [hc, if_pos hcs, ← hoptarg]
    rw [scan_known hs', hoptarg]
    exact and_congr_right fun _ =>
      ih s' fuel hstands hoptarg (by simp only [size, List.length_cons, List.length_nil] at hfuel ⊢; omega)
  | case8 prev c cs hc hcs a args ih =>
    rintro s (_ | fuel) h hprev hfuel
    · omega
    rw [not_not] at hcs
    subst hcs
    obtain ⟨s', hs', hoptarg, hstands⟩ := option_next opterr h hc
    rw [← getopt_cluster h] at hs'
    rw [listing.eq_def, Clean.eq_def]
    simp only [hc, ne_eq, not_true_eq_false, if_false, ← hoptarg]
    rw [scan_known hs', hoptarg]
    refine and_congr_right fun _ => ih s' fuel hstands hoptarg ?_
    simp only [size, List.length_cons, List.length_nil, List.map_cons, List.sum_cons] at hfuel ⊢
    omega
  | case9 prev c cs hc hcs =>
    rintro s (_ | fuel) h hprev hfuel
    · omega
    rw [not_not] at hcs
    subst hcs
    obtain ⟨herror, hok⟩ := option_missing opterr h hc
    rw [← getopt_cluster h] at herror hok
    rw [listing.eq_def, Clean.eq_def]
    simp only [hc, ne_eq, not_true_eq_false, if_false]
    rcases opterr with _ | _
    · obtain ⟨s', hs', hoptarg, hstands⟩ := hok rfl
      rw [← hoptarg, scan_event hs' (by split <;> decide)]
      rcases fuel with _ | fuel
      · simp [size] at hfuel
      · rw [scan_end (getopt_operand hstands (by simp)), stop_eq hstands]
        exact iff_of_true rfl rfl
    · rw [scan, herror rfl, error_bind]
      exact iff_of_false (fun h => by cases h) (fun h => by cases h)

end Scan

/-! ### Any number of calls -/

section Calls

variable {argv optstring opterr} {s : State}

/-- All calls go through if the first one does, and those behind it. -/
theorem calls_step {r : Int × State} (h : getopt argv optstring opterr s = .ok r) :
    (∀ n, ∃ s', calls argv optstring opterr n s = .ok s') ↔ ∀ n, ∃ s', calls argv optstring opterr n r.2 = .ok s' := by
  constructor
  · intro hall n
    obtain ⟨s', hs'⟩ := hall (n + 1)
    rw [calls, h, ok_bind] at hs'
    exact ⟨s', hs'⟩
  · intro hall n
    rcases n with _ | n
    · exact ⟨s, rfl⟩
    · rw [calls, h, ok_bind]
      exact hall n

theorem calls_operand {ret : Int} (h : getopt argv optstring opterr s = .ok (ret, s)) (n : Nat) :
    calls argv optstring opterr n s = .ok s := by
  induction n with
  | zero => rfl
  | succ n ih => rw [calls, h, ok_bind, ih]

theorem calls_safe (cs : List UInt8) (args : List CString) : ∀ s : State, Stands argv s cs args →
    ((∀ n, ∃ s', calls argv optstring opterr n s = .ok s') ↔ Safe optstring opterr cs args) := by
  induction cs, args using Safe.induct optstring with
  | case1 =>
    intro s h
    rw [Safe]
    exact iff_of_true (fun n => ⟨s, calls_operand (getopt_operand h (by simp)) n⟩) trivial
  | case2 a args ha =>
    intro s h
    rw [Safe, if_pos ha]
    exact iff_of_true (fun n => ⟨s, calls_operand (getopt_operand h (by simpa using ha)) n⟩) trivial
  | case3 a args ha hstop ih =>
    intro s h
    obtain ⟨hcall, hstands⟩ := getopt_stop optstring opterr h hstop
    rw [Safe, if_neg ha, if_pos hstop, calls_step hcall]
    exact ih _ hstands
  | case4 a args ha hstop ih =>
    intro s h
    rw [Safe, if_neg ha, if_neg hstop]
    rw [not_or] at hstop
    exact ih s (stands_open h (not_not.1 ha) hstop.1 hstop.2)
  | case5 c cs args hc hcs ih =>
    intro s h
    obtain ⟨s', hs', -, hstands⟩ := option_attached opterr h hc hcs
    rw [← getopt_cluster h] at hs'
    rw [Safe.eq_def]
    simp only [if_pos hc, if_pos hcs]
    rw [calls_step hs']
    exact ih s' hstands
  | case6 c cs hc hcs a args ih =>
    intro s h
    rw [not_not] at hcs
    subst hcs
    obtain ⟨s', hs', -, hstands⟩ := option_next opterr h hc
    rw [← getopt_cluster h] at hs'
    rw [Safe, if_pos hc, if_neg (not_not_intro rfl), calls_step hs']
    exact ih s' hstands
  | case7 c cs hc hcs =>
    intro s h
    rw [not_not] at hcs
    subst hcs
    obtain ⟨herror, hok⟩ := option_missing opterr h hc
    rw [← getopt_cluster h] at herror hok
    rw [Safe, if_pos hc, if_neg (not_not_intro rfl)]
    rcases opterr with _ | _
    · obtain ⟨s', hs', -, hstands⟩ := hok rfl
      rw [calls_step hs']
      exact iff_of_true (fun n => ⟨s', calls_operand (getopt_operand hstands (by simp)) n⟩) rfl
    · refine iff_of_false (fun hall => ?_) (fun h => by cases h)
      obtain ⟨s', hs'⟩ := hall 1
      rw [calls, herror rfl, error_bind] at hs'
      cases hs'
  | case8 c cs args hc ih =>
    intro s h
    rw [Safe.eq_def]
    simp only [if_neg hc]
    rcases htakes : takesArgument optstring c with _ | _ | _
    · obtain ⟨s', hs', -, hstands⟩ := option_unknown opterr h htakes
      rw [← getopt_cluster h] at hs'
      rw [calls_step hs']
      exact ih s' hstands
    · obtain ⟨s', hs', -, hstands⟩ := option_plain opterr h htakes
      rw [← getopt_cluster h] at hs'
      rw [calls_step hs']
      exact ih s' hstands
    · exact absurd htakes hc

end Calls

/-! ### All of it -/

theorem stands_start (argv : List CString) : Stands argv State.start [] argv.tail :=
  ⟨[], rfl, rfl, .inl rfl⟩

/-- Every read of any number of calls is inside of an argument, and the calls up to the first `-1` return the options
one by one and stop where the options end. -/
def Scans (argv : List CString) (optstring : List UInt8) (opterr : Bool) : Prop :=
  (∀ n, ∃ s, calls argv optstring opterr n State.start = .ok s) ∧
  ∃ fuel, scan argv optstring opterr fuel State.start =
    .ok ((listing optstring [] argv.tail none).1, stop argv (listing optstring [] argv.tail none).2)

/-- The calls do that if and only if the options do not end at an argument `-`, no known option is the character 255,
and no option lacks its argument while messages are written. -/
theorem getopt_iff (argv : List CString) (optstring : CString) (opterr : Bool) : Scans argv optstring.bytes opterr ↔
    Clean optstring.bytes opterr [] argv.tail ∧ Safe optstring.bytes opterr [] argv.tail := by
  have hstart := stands_start argv
  have hscan := fun fuel => @scan_clean argv optstring.bytes opterr [] argv.tail none State.start fuel hstart rfl
  rw [Scans, calls_safe [] argv.tail State.start hstart, and_comm]
  refine and_congr_left fun _ => ⟨fun ⟨fuel, h⟩ => ?_, fun h => ⟨_, (hscan _ (Nat.lt_succ_self _)).2 h⟩⟩
  exact (hscan (fuel + size [] argv.tail + 1) (by omega)).1 (scan_mono (by omega) h)

/-- The argument `-` is consumed. -/
theorem getopt_dash : ¬∀ (argv : List CString) (optstring : CString) (opterr : Bool),
    Scans argv optstring.bytes opterr := by
  intro h
  obtain ⟨-, fuel, hfuel⟩ := h [⟨lit "prog", by decide⟩, ⟨lit "-", by decide⟩] ⟨[], by decide⟩ false
  have hsize : size [] [⟨lit "-", by decide⟩] < fuel + 3 := Nat.lt_add_left fuel (by decide)
  have hclean := (scan_clean [] [⟨lit "-", by decide⟩] none State.start (fuel + 3) (stands_start _) rfl hsize).1
    (scan_mono (Nat.le_add_right _ _) hfuel)
  rw [Clean, if_neg (by decide), if_pos rfl] at hclean
  exact hclean

end JACLibc.Getopt
