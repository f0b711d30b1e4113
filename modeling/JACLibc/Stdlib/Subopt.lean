import JACLibc.Lib.First
import JACLibc.Strings.Compare
import Mathlib.Data.List.GetD
import Mathlib.Logic.Function.Iterate

/-!
# `getsubopt`

A call cuts the buffer at the comma, looks the suboption up in the list of tokens, and puts the comma back.  `*valuep`
points into the buffer, so that the string there goes on behind the comma.

`answer` is what a call is to return for a suboption; a call returns it if the token that it takes has no `=`, and if
there is no value or no comma behind it (`getsubopt_iff`).
-/

namespace JACLibc.Subopt

/-! ### The code -/

/-- The `int` returned, and the places `*valuep` and `*optionp` in the buffer. -/
structure Result where
  ret : Int
  valuep : Option Nat
  optionp : Nat
  buf : List UInt8
  deriving DecidableEq, Repr

/-- `for (int i = 0; tokens[i]; i++)`, and what follows it. -/
def lookup (buf : List UInt8) (start : Nat) : Nat → List CString → Int × Option Nat
  | _, [] => (-1, some start)
  | i, token :: tokens =>
    let tlen := token.bytes.length
    if strncmp (buf.drop start) token.bytes tlen = 0 then
      if buf.getD (start + tlen) 0 = 0 then (i, none)
      else if buf.getD (start + tlen) 0 = asc '=' then (i, some (start + tlen + 1))
      else lookup buf start (i + 1) tokens
    else lookup buf start (i + 1) tokens

/-- `getsubopt` on the suboptions from `start` on. -/
def getsubopt (tokens : List CString) (buf : List UInt8) (start : Nat) : Result :=
  let stop := start + ((buf.drop start).takeWhile fun c => c ≠ 0 ∧ c ≠ asc ',').length
  let optionp := if buf.getD stop 0 ≠ 0 then stop + 1 else stop
  let saved := buf.getD stop 0
  let cut := buf.set stop 0
  let found := lookup cut start 0 tokens
  ⟨found.1, found.2, optionp, cut.set stop saved⟩

/-- What `n` calls return, one after another, with the strings that `*valuep` points to. -/
def calls (tokens : List CString) : Nat → List UInt8 → Nat → List (Int × Option (List UInt8))
  | 0, _, _ => []
  | n + 1, buf, start =>
    let r := getsubopt tokens buf start
    (r.ret, r.valuep.map fun off => (CString.of (r.buf.drop off)).bytes) :: calls tokens n r.buf r.optionp

/-! ### The suboptions -/

/-- The text up to the first comma. -/
def suboption (s : List UInt8) : List UInt8 := s.takeWhile (· ≠ asc ',')

/-- The text behind the first comma. -/
def rest (s : List UInt8) : List UInt8 := (s.dropWhile (· ≠ asc ',')).tail

def name (item : List UInt8) : List UInt8 := item.takeWhile (· ≠ asc '=')

def value (item : List UInt8) : Option (List UInt8) :=
  if asc '=' ∈ item then some (item.dropWhile (· ≠ asc '=')).tail else none

/-- The index of the first token that is the name, with the value; or -1 with the whole suboption. -/
def answer (tokens : List CString) (item : List UInt8) : Int × Option (List UInt8) :=
  match tokens.findIdx? (·.bytes = name item) with
  | some i => (i, value item)
  | none => (-1, some item)

def reference (tokens : List CString) : Nat → List UInt8 → List (Int × Option (List UInt8))
  | 0, _ => []
  | n + 1, s => answer tokens (suboption s) :: reference tokens n (rest s)

/-! ### Where the code agrees -/

/-- The suboption is the token, or begins with it and a `=`. -/
def takes (item : List UInt8) (token : CString) : Bool := item = token.bytes ∨ token.bytes ++ [asc '='] <+: item

/-- The first token that the suboption begins with has no `=` itself, and the suboption is the last one or has no
value. -/
def Fits (tokens : List CString) (s : List UInt8) : Prop :=
  (∀ token ∈ tokens.find? (takes (suboption s)), asc '=' ∉ token.bytes) ∧
    (asc ',' ∉ s ∨ (answer tokens (suboption s)).2 = none)

/-! ### The tokens -/

theorem strncmp_token {token : List UInt8} (h : 0 ∉ token) (a : List UInt8) : strncmp a token token.length = 0 ↔
    token <+: a := by
  induction token generalizing a with
  | nil => exact iff_of_true rfl (List.nil_prefix)
  | cons c token ih =>
    have hc : c ≠ 0 := fun hc => h (hc ▸ List.mem_cons_self)
    have hne : ∀ p : Prop, [Decidable p] → (if p then (-1 : Int) else 1) ≠ 0 := by
      intro p _
      split <;> decide
    rw [strncmp, List.length_cons, ncmp, List.headD_cons]
    rcases a with _ | ⟨x, a⟩
    · rw [List.headD_nil, if_neg fun h => h.1 rfl]
      exact iff_of_false (hne _) (by simp)
    · rw [List.headD_cons]
      by_cases hx : x = c
      · rw [hx, if_pos ⟨hc, rfl⟩, List.cons_prefix_cons]
        exact (ih (fun h' => h (List.mem_cons_of_mem _ h')) a).trans (by simp)
      · rw [if_neg fun h => hx h.2, List.cons_prefix_cons]
        exact iff_of_false (hne _) fun h => hx h.1.symm

/-- A token has no NUL, so that it does not go beyond the suboption. -/
theorem token_front {item after : List UInt8} {token : List UInt8} (h : 0 ∉ token) :
    token <+: item ++ 0 :: after ↔ token <+: item := by
  constructor
  · intro hpre
    rcases List.prefix_or_prefix_of_prefix hpre (List.prefix_append item _) with hitem | ⟨u, rfl⟩
    · exact hitem
    · rw [List.prefix_append_right_inj] at hpre
      rcases u with _ | ⟨c, u⟩
      · exact ⟨[], by simp⟩
      · rw [List.cons_prefix_cons] at hpre
        exact absurd (List.mem_append_right item (hpre.1 ▸ List.mem_cons_self)) h
  · exact fun hitem => hitem.trans (List.prefix_append item _)

/-- A token is taken if the suboption begins with it, up to its end or a `=`. -/
theorem lookup_cons {pre item after : List UInt8} (hitem : 0 ∉ item) (i : Nat) (token : CString)
    (tokens : List CString) :
    lookup (pre ++ (item ++ 0 :: after)) pre.length i (token :: tokens) = (if takes item token then
      ((i : Int), if item = token.bytes then none else some (pre.length + token.bytes.length + 1))
      else lookup (pre ++ (item ++ 0 :: after)) pre.length (i + 1) tokens) := by
  have hget : ∀ k, (pre ++ (item ++ 0 :: after)).getD (pre.length + k) 0 = (item ++ 0 :: after).getD k 0 := by
    intro k
    rw [List.getD_append_right _ _ _ _ (Nat.le_add_right _ _), Nat.add_sub_cancel_left]
  rw [lookup, List.drop_left]
  simp only [strncmp_token token.noNul, hget, token_front token.noNul]
  by_cases hpre : token.bytes <+: item
  · obtain ⟨behind, rfl⟩ := hpre
    rw [if_pos (List.prefix_append _ _), List.append_assoc, List.getD_append_right _ _ _ _ (Nat.le_refl _),
      Nat.sub_self]
    rcases behind with _ | ⟨c, behind⟩
    · have htakes : takes (token.bytes ++ []) token = true := decide_eq_true (.inl (List.append_nil _))
      rw [if_pos htakes, List.append_nil, if_pos rfl]
      rfl
    · have hc : c ≠ 0 := fun h => hitem (List.mem_append_right _ (h ▸ List.mem_cons_self))
      have hlonger : token.bytes ++ c :: behind ≠ token.bytes := by simp
      have htakes : takes (token.bytes ++ c :: behind) token = decide (c = asc '=') := by
        unfold takes
        refine decide_eq_decide.mpr ⟨fun h => ?_, fun h => .inr ?_⟩
        · have hfront := h.resolve_left hlonger
          rw [List.prefix_append_right_inj, List.cons_prefix_cons] at hfront
          exact hfront.1.symm
        · rw [List.prefix_append_right_inj, h, List.cons_prefix_cons]
          exact ⟨rfl, List.nil_prefix⟩
      rw [htakes, List.cons_append, List.getD_cons_zero, if_neg hc, if_neg hlonger]
      by_cases heq : c = asc '='
      · rw [if_pos heq, if_pos (decide_eq_true heq)]
      · rw [if_neg heq, if_neg (by simpa using heq)]
  · have htakes : takes item token = false := by
      refine decide_eq_false fun h => hpre ?_
      rcases h with rfl | h
      · exact List.prefix_refl _
      · exact (List.prefix_append _ _).trans h
    rw [if_neg hpre, htakes, if_neg (by decide)]

section Lookup

variable {pre item after : List UInt8} (hitem : 0 ∉ item) {tokens : List CString}

include hitem

theorem lookup_none (h : ∀ token ∈ tokens, takes item token = false) (i : Nat) :
    lookup (pre ++ (item ++ 0 :: after)) pre.length i tokens = (-1, some pre.length) := by
  induction tokens generalizing i with
  | nil => rfl
  | cons token tokens ih =>
    rw [lookup_cons hitem, h token List.mem_cons_self, if_neg (by decide)]
    exact ih (fun t ht => h t (List.mem_cons_of_mem _ ht)) _

theorem lookup_first {token : CString} {others : List CString} (h : ∀ t ∈ tokens, takes item t = false)
    (htoken : takes item token) (i : Nat) :
    lookup (pre ++ (item ++ 0 :: after)) pre.length i (tokens ++ token :: others) =
      (((i + tokens.length : Nat) : Int), if item = token.bytes then none
      else some (pre.length + token.bytes.length + 1)) := by
  induction tokens generalizing i with
  | nil => rw [List.nil_append, lookup_cons hitem, if_pos htoken]; rfl
  | cons t tokens ih =>
    rw [List.cons_append, lookup_cons hitem, h t List.mem_cons_self, if_neg (by decide),
      ih fun x hx => h x (List.mem_cons_of_mem _ hx), List.length_cons, Nat.add_assoc, Nat.add_comm 1]

end Lookup

/-! ### The name -/

/-- A token without `=` is taken if it is the name. -/
theorem takes_name {item : List UInt8} {token : CString} (h : asc '=' ∉ token.bytes) : takes item token ↔
    token.bytes = name item := by
  rw [takes, decide_eq_true_iff]
  constructor
  · rintro (rfl | ⟨behind, rfl⟩)
    · exact (First.takeWhile_of_not_mem h).symm
    · rw [name, List.append_assoc, List.singleton_append, First.takeWhile_append h]
  · intro hname
    by_cases heq : asc '=' ∈ item
    · right
      have hsplit := First.split heq
      rw [← name, ← hname] at hsplit
      rw [hsplit, List.prefix_append_right_inj, List.cons_prefix_cons]
      exact ⟨rfl, List.nil_prefix⟩
    · exact .inl ((First.takeWhile_of_not_mem heq).symm.trans hname.symm)

theorem not_mem_name (item : List UInt8) : asc '=' ∉ name item := First.not_mem_takeWhile _ _

/-! ### A call -/

theorem set_middle (pre item after : List UInt8) (x y : UInt8) :
    (pre ++ (item ++ x :: after)).set (pre.length + item.length) y = pre ++ (item ++ y :: after) := by
  rw [List.set_append_right _ _ (Nat.le_add_right _ _), Nat.add_sub_cancel_left,
    List.set_append_right _ _ (Nat.le_refl _), Nat.sub_self]
  rfl

/-- The buffer is as it was. -/
theorem getsubopt_eq (tokens : List CString) {pre item after : List UInt8} (h0 : 0 ∉ item) (hcomma : asc ',' ∉ item)
    {x : UInt8} (hx : x = 0 ∨ x = asc ',') : getsubopt tokens (pre ++ (item ++ x :: after)) pre.length =
      ⟨(lookup (pre ++ (item ++ 0 :: after)) pre.length 0 tokens).1,
      (lookup (pre ++ (item ++ 0 :: after)) pre.length 0 tokens).2,
        if x = 0 then pre.length + item.length else pre.length + item.length + 1, pre ++ (item ++ x :: after)⟩ := by
  have hstop : ((pre ++ (item ++ x :: after)).drop pre.length).takeWhile (fun c => c ≠ 0 ∧ c ≠ asc ',') = item := by
    have hall : ∀ c ∈ item, decide (c ≠ 0 ∧ c ≠ asc ',') = true :=
      fun c hc => decide_eq_true ⟨fun h => h0 (h ▸ hc), fun h => hcomma (h ▸ hc)⟩
    rw [List.drop_left, List.takeWhile_append_of_pos hall, List.takeWhile_cons_of_neg (by simp; tauto), List.append_nil]
  have hget : (pre ++ (item ++ x :: after)).getD (pre.length + item.length) 0 = x := by
    rw [List.getD_append_right _ _ _ _ (Nat.le_add_right _ _), Nat.add_sub_cancel_left,
      List.getD_append_right _ _ _ _ (Nat.le_refl _), Nat.sub_self, List.getD_cons_zero]
  rw [getsubopt]
  simp only [hstop, hget, set_middle, ne_eq, ite_not]

/-! ### What a call finds -/

/-- The first token that is taken, or none. -/
theorem first_token (item : List UInt8) (tokens : List CString) :
    (tokens.find? (takes item) = none ∧ ∀ t ∈ tokens, takes item t = false) ∨
    ∃ before token others, tokens = before ++ token :: others ∧ tokens.find? (takes item) = some token ∧
      (∀ t ∈ before, takes item t = false) ∧ takes item token = true := by
  induction tokens with
  | nil => exact .inl ⟨rfl, fun t ht => by cases ht⟩
  | cons t tokens ih =>
    by_cases ht : takes item t = true
    · exact .inr ⟨[], t, tokens, rfl, List.find?_cons_of_pos ht, List.forall_mem_nil _, ht⟩
    · rw [List.find?_cons_of_neg ht]
      rw [Bool.not_eq_true] at ht
      rcases ih with ⟨hnone, hall⟩ | ⟨before, token, others, rfl, hfind, hall, htoken⟩
      · exact .inl ⟨hnone, List.forall_mem_cons.2 ⟨ht, hall⟩⟩
      · exact .inr ⟨t :: before, token, others, rfl, hfind, List.forall_mem_cons.2 ⟨ht, hall⟩, htoken⟩

/-- A token that is not taken is not the name. -/
theorem ne_name {item : List UInt8} {token : CString} (h : takes item token = false) : ¬token.bytes = name item := by
  intro hname
  have htakes := (takes_name (hname ▸ not_mem_name item)).2 hname
  rw [h] at htakes
  cases htakes

theorem answer_none {item : List UInt8} {tokens : List CString} (h : ∀ t ∈ tokens, takes item t = false) :
    answer tokens item = (-1, some item) := by
  have hidx : tokens.findIdx? (·.bytes = name item) = none := by
    rw [List.findIdx?_eq_none_iff]
    exact fun t ht => decide_eq_false (ne_name (h t ht))
  rw [answer, hidx]

theorem answer_first {item : List UInt8} {before others : List CString} {token : CString}
    (h : ∀ t ∈ before, takes item t = false) (htoken : takes item token = true) (heq : asc '=' ∉ token.bytes) :
    answer (before ++ token :: others) item = ((before.length : Int), value item) := by
  have hidx : (before ++ token :: others).findIdx? (·.bytes = name item) = some before.length := by
    rw [List.findIdx?_append, List.findIdx?_cons, if_pos (decide_eq_true ((takes_name heq).1 htoken))]
    have hbefore : before.findIdx? (·.bytes = name item) = none := by
      rw [List.findIdx?_eq_none_iff]
      exact fun t ht => decide_eq_false (ne_name (h t ht))
    rw [hbefore]
    simp
  rw [answer, hidx]

/-- A token with a `=` is not the name. -/
theorem answer_other {item : List UInt8} {before others : List CString} {token : CString}
    (heq : asc '=' ∈ token.bytes) : (answer (before ++ token :: others) item).1 ≠ before.length := by
  intro hanswer
  rw [answer] at hanswer
  rcases hidx : (before ++ token :: others).findIdx? (·.bytes = name item) with _ | i
  · rw [hidx] at hanswer
    simp only at hanswer
    omega
  · rw [hidx] at hanswer
    obtain rfl : i = before.length := by
      simp only at hanswer
      omega
    rw [List.findIdx?_eq_some_iff_getElem] at hidx
    obtain ⟨hlt, hname, -⟩ := hidx
    rw [List.getElem_append_right (Nat.le_refl _)] at hname
    simp only [Nat.sub_self, List.getElem_cons_zero, decide_eq_true_eq] at hname
    exact not_mem_name item (hname ▸ heq)

/-- The string that a place in the buffer points to. -/
theorem string_at {pre s : List UInt8} (hs : 0 ∉ s) {k : Nat} (hk : k ≤ s.length) :
    (CString.of ((pre ++ (s ++ [0])).drop (pre.length + k))).bytes = s.drop k := by
  rw [← List.drop_drop, List.drop_left, List.drop_append_of_le_length hk]
  exact CString.of_append (fun h => hs (List.mem_of_mem_drop h)) []

theorem suboption_eq (s : List UInt8) : suboption s = s ↔ asc ',' ∉ s := by
  constructor
  · intro h
    rw [← h]
    exact First.not_mem_takeWhile _ _
  · exact fun h => First.takeWhile_of_not_mem h

/-- A part of the suboption is what is left of the string if it is the last one. -/
theorem drop_suboption (s : List UInt8) {k : Nat} (hk : k ≤ (suboption s).length) : s.drop k = (suboption s).drop k ↔
    asc ',' ∉ s := by
  rw [← suboption_eq]
  constructor
  · intro h
    have hlen := congrArg List.length h
    have hle := (List.takeWhile_prefix (· ≠ asc ',') (l := s)).length_le
    rw [List.length_drop, List.length_drop] at hlen
    exact List.Sublist.eq_of_length (List.takeWhile_sublist _) (by unfold suboption at *; omega)
  · exact fun h => by rw [h]

theorem value_drop {item : List UInt8} {token : CString} (heq : asc '=' ∉ token.bytes)
    (htoken : takes item token = true) :
    (item = token.bytes ∧ value item = none) ∨
    (item ≠ token.bytes ∧ token.bytes.length + 1 ≤ item.length ∧
    value item = some (item.drop (token.bytes.length + 1))) := by
  rcases (decide_eq_true_iff.1 htoken : item = token.bytes ∨ token.bytes ++ [asc '='] <+: item) with rfl | ⟨behind, rfl⟩
  · exact .inl ⟨rfl, if_neg heq⟩
  · right
    rw [List.append_assoc, List.singleton_append, value, if_pos (by simp), First.dropWhile_append heq, List.tail_cons]
    refine ⟨by simp, by simp, ?_⟩
    rw [← List.drop_drop, List.drop_left, List.drop_one, List.tail_cons]

/-- What a call finds is the answer for the suboption in the cases of `Fits`. -/
theorem found_iff (tokens : List CString) {pre s after : List UInt8} (hs : 0 ∉ s) :
    let found := lookup (pre ++ (suboption s ++ 0 :: after)) pre.length 0 tokens
    (found.1, found.2.map fun off => (CString.of ((pre ++ (s ++ [0])).drop off)).bytes) =
      answer tokens (suboption s) ↔ Fits tokens s := by
  have hsub : (suboption s).length ≤ s.length := (List.takeWhile_sublist _).length_le
  have hitem : 0 ∉ suboption s := fun h => hs ((List.takeWhile_sublist _).subset h)
  have hwhole := @string_at pre s hs 0 (Nat.zero_le _)
  rw [Nat.add_zero, List.drop_zero] at hwhole
  intro found
  rcases first_token (suboption s) tokens with ⟨hnone, hall⟩ | ⟨before, token, others, rfl, hfind, hall, htoken⟩
  · have hfound : found = (-1, some pre.length) := lookup_none hitem hall 0
    rw [hfound, Fits, answer_none hall, Option.map_some, hwhole, hnone]
    have hlast := drop_suboption s (Nat.zero_le _)
    rw [List.drop_zero, List.drop_zero] at hlast
    simp [hlast]
  · have hfound : found = _ := lookup_first hitem hall htoken 0
    rw [hfound, Nat.zero_add]
    by_cases heq : asc '=' ∈ token.bytes
    · refine iff_of_false (fun h => ?_) fun h => h.1 token hfind heq
      exact @answer_other (suboption s) before others token heq (congrArg Prod.fst h).symm
    · rw [Fits, answer_first hall htoken heq, hfind]
      have hfirst : ∀ t ∈ some token, asc '=' ∉ t.bytes := by
        rintro t ⟨rfl⟩
        exact heq
      rcases value_drop heq htoken with ⟨hsame, hvalue⟩ | ⟨hne, hlen, hvalue⟩
      · rw [if_pos hsame, hvalue]
        exact iff_of_true rfl ⟨hfirst, .inr rfl⟩
      · rw [if_neg hne, hvalue, Option.map_some, Nat.add_assoc, string_at hs (hlen.trans hsub)]
        have hlast := drop_suboption s hlen
        simp only [Prod.mk.injEq, true_and, Option.some.injEq, hlast, reduceCtorEq, or_false]
        exact ⟨fun h => ⟨hfirst, h⟩, fun h => h.2⟩

/-! ### All calls -/

/-- After a call `*optionp` is at the rest of the string, and the buffer is as it was. -/
theorem getsubopt_iff_fits (tokens : List CString) (pre : List UInt8) {s : List UInt8} (hs : 0 ∉ s) :
    let r := getsubopt tokens (pre ++ (s ++ [0])) pre.length
    ((r.ret, r.valuep.map fun off => (CString.of (r.buf.drop off)).bytes) = answer tokens (suboption s) ↔
      Fits tokens s) ∧
    ∃ pre', r.optionp = pre'.length ∧ r.buf = pre' ++ (rest s ++ [0]) := by
  have hitem : 0 ∉ suboption s := fun h => hs ((List.takeWhile_sublist _).subset h)
  have hcomma : asc ',' ∉ suboption s := First.not_mem_takeWhile _ _
  intro r
  by_cases hmem : asc ',' ∈ s
  · have hsplit : s ++ [0] = suboption s ++ asc ',' :: (rest s ++ [0]) := by
      rw [← List.cons_append, ← List.append_assoc]
      exact congrArg (· ++ [0]) (First.split hmem)
    have hr : r = _ := (congrArg (fun b => getsubopt tokens (pre ++ b) pre.length) hsplit).trans
      (getsubopt_eq tokens hitem hcomma (.inr rfl))
    rw [hr]
    refine ⟨?_, pre ++ (suboption s ++ [asc ',']), by simp [show asc ',' ≠ 0 by decide, Nat.add_assoc], by simp⟩
    rw [← hsplit]
    exact found_iff tokens hs
  · have hwhole := (suboption_eq s).2 hmem
    have hr : r = _ := getsubopt_eq tokens hs hmem (.inl rfl)
    rw [hr]
    refine ⟨?_, pre ++ s, by simp, ?_⟩
    · have h := @found_iff tokens pre s [] hs
      rw [hwhole] at h ⊢
      exact h
    · rw [rest, First.dropWhile_of_not_mem hmem]
      simp

/-- The calls return the answers for the suboptions, one after another, if and only if for each of them the first
token that it begins with, up to its end or a `=`, has no `=`, and it is the last one or has no value to return. -/
theorem getsubopt_iff (tokens : List CString) (s : CString) (n : Nat) :
    calls tokens n (s.bytes ++ [0]) 0 = reference tokens n s.bytes ↔ ∀ k < n, Fits tokens (rest^[k] s.bytes) := by
  have key : ∀ (n : Nat) (pre s : List UInt8), 0 ∉ s →
      (calls tokens n (pre ++ (s ++ [0])) pre.length = reference tokens n s ↔ ∀ k < n, Fits tokens (rest^[k] s)) := by
    intro n
    induction n with
    | zero => exact fun pre s hs => iff_of_true rfl fun k hk => absurd hk (Nat.not_lt_zero k)
    | succ n ih =>
      intro pre s hs
      obtain ⟨hcall, pre', hoptionp, hbuf⟩ := getsubopt_iff_fits tokens pre hs
      have hrest : 0 ∉ rest s := fun h => hs ((List.dropWhile_suffix _).mem (List.mem_of_mem_tail h))
      rw [calls, reference, List.cons.injEq, hcall, hoptionp, hbuf, ih pre' (rest s) hrest]
      constructor
      · rintro ⟨hfits, hall⟩ k hk
        rcases k with _ | k
        · exact hfits
        · exact hall k (Nat.lt_of_succ_lt_succ hk)
      · exact fun h => ⟨h 0 (Nat.succ_pos n), fun k hk => h (k + 1) (Nat.succ_lt_succ hk)⟩
  exact key n [] s.bytes s.noNul

/-- In `a=1,b` the value of the first suboption is `1,b`. -/
theorem getsubopt_value : ¬∀ (tokens : List CString) (s : CString) (n : Nat),
    calls tokens n (s.bytes ++ [0]) 0 = reference tokens n s.bytes := by
  intro h
  exact absurd (h [⟨lit "a", by decide⟩] ⟨lit "a=1,b", by decide⟩ 1) (by decide)

end JACLibc.Subopt
