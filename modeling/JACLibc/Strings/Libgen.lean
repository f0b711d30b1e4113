import JACLibc.CString
import Mathlib.Data.List.DropRight

/-!
# `splitname`, `basename` and `dirname`

`splitname` scans the path backwards three times, behind the slashes at its end, the last component and the slashes in
front of it, and cuts the path with a NUL where the first and the last scan stop.  The three loops are one
(`walkBack`), and what is in front of a place where it stops is a `rdropWhile` of the path (`walkBack_eq`).
-/

namespace JACLibc.Libgen

/-! ### The functions -/

/-- `while (i > low && test(p[i - 1])) i--;` -/
def walkBack (p : List UInt8) (low : Nat) (test : UInt8 → Bool) : Nat → Nat
  | 0 => 0
  | i + 1 => if low < i + 1 ∧ test (p.getD i 0) then walkBack p low test i else i + 1

def isSlash (c : UInt8) : Bool := c = asc '/'

/-- Where a name is: a string literal, or the offset of its first character in the path. -/
inductive Name where
  | literal (s : List UInt8)
  | inside (i : Nat)
  deriving DecidableEq

/-- What `splitname` leaves behind: the bytes of the path, with the NULs written into it, and the two names. -/
structure Split where
  path : List UInt8
  dir : Name
  base : Name
  deriving DecidableEq

/-- The string that a name stands for. -/
def Split.string (m : Split) : Name → List UInt8
  | .literal s => s
  | .inside i => (CString.of (m.path.drop i)).bytes

/-- `splitname`; nothing for `-1`. -/
def splitname (path : Option CString) : Option Split :=
  path.map fun s =>
    let p := s.bytes ++ [0]
    let len := s.bytes.length
    if len = 0 then ⟨p, .literal (lit "."), .literal (lit ".")⟩
    else
      let len := walkBack p 1 isSlash len
      let p := p.set len 0
      if len = 1 ∧ p.getD 0 0 = asc '/' then ⟨p, .literal (lit "/"), .literal (lit "/")⟩
      else
        let slash := walkBack p 0 (fun c => !isSlash c) len
        if slash = 0 then ⟨p, .literal (lit "."), .inside 0⟩
        else
          let dirEnd := walkBack p 0 isSlash (slash - 1)
          if dirEnd = 0 then ⟨p, .literal (lit "/"), .inside slash⟩ else ⟨p.set dirEnd 0, .inside 0, .inside slash⟩

/-- `basename` -/
def basename (path : Option CString) : List UInt8 :=
  match splitname path with
  | none => lit "."
  | some m => m.string m.base

/-- `dirname` -/
def dirname (path : Option CString) : List UInt8 :=
  match splitname path with
  | none => lit "."
  | some m => m.string m.dir

/-! ### The names of a path -/

/-- The last component of a path, behind the slashes at its end. -/
def lastComponent (s : List UInt8) : List UInt8 := (s.rdropWhile isSlash).rtakeWhile fun c => !isSlash c

/-- What is in front of the last component, with the slashes between them. -/
def front (s : List UInt8) : List UInt8 := (s.rdropWhile isSlash).rdropWhile fun c => !isSlash c

/-- The base name that POSIX gives a path. -/
def posixBase (s : List UInt8) : List UInt8 :=
  if s = [] then lit "." else if s.all isSlash then lit "/" else lastComponent s

/-- The directory that POSIX gives a path. -/
def posixDir (s : List UInt8) : List UInt8 :=
  if s = [] then lit "."
  else if s.all isSlash then lit "/"
  else if front s = [] then lit "."
  else if (front s).all isSlash then lit "/"
  else (front s).rdropWhile isSlash

/-! ### The scans -/

/-- A scan backwards stops behind what `rdropWhile` leaves, or at its limit. -/
theorem walkBack_eq (p : List UInt8) (low : Nat) (test : UInt8 → Bool) {i : Nat} (hlow : low ≤ i) (hi : i ≤ p.length) :
    walkBack p low test i = max low ((p.take i).rdropWhile test).length := by
  induction i with
  | zero =>
    obtain rfl := Nat.le_zero.1 hlow
    simp [walkBack]
  | succ i ih =>
    have htake : p.take (i + 1) = p.take i ++ [p.getD i 0] := by
      rw [List.take_add_one, List.getD_eq_getElem?_getD, List.getElem?_eq_getElem hi]
      rfl
    have hlen : (p.take (i + 1)).length = i + 1 := List.length_take_of_le hi
    have hle : ((p.take (i + 1)).rdropWhile test).length ≤ i + 1 :=
      (List.rdropWhile_prefix test _).length_le.trans_eq hlen
    rw [walkBack]
    split
    next h => rw [ih (Nat.le_of_lt_succ h.1) (Nat.le_of_succ_le hi), htake, List.rdropWhile_concat_pos _ _ _ h.2]
    next h =>
      by_cases hlt : low < i + 1
      · have hno : ¬test (p.getD i 0) = true := fun ht => h ⟨hlt, ht⟩
        rw [htake, List.rdropWhile_concat_neg _ _ _ hno, ← htake, hlen]
        exact (Nat.max_eq_right hlow).symm
      · obtain rfl : low = i + 1 := Nat.le_antisymm hlow (Nat.le_of_not_lt hlt)
        exact (Nat.max_eq_left hle).symm

/-- What is in front of the slashes at the end is the front and the last component. -/
theorem front_append (s : List UInt8) : front s ++ lastComponent s = s.rdropWhile isSlash :=
  List.rdropWhile_append_rtakeWhile

/-- The front ends with a slash. -/
theorem front_eq_concat {s : List UInt8} (h : front s ≠ []) : ∃ f, front s = f ++ [asc '/'] := by
  have hlast := List.rdropWhile_last_not (fun c => !isSlash c) (s.rdropWhile isSlash) h
  refine ⟨(front s).dropLast, ?_⟩
  have hslash : (front s).getLast h = asc '/' := by
    rw [Bool.not_eq_true, Bool.not_eq_false'] at hlast
    exact of_decide_eq_true hlast
  rw [← hslash, List.dropLast_append_getLast]

theorem slash_not_mem (s : List UInt8) : asc '/' ∉ lastComponent s := by
  intro h
  have := List.mem_rtakeWhile_imp h
  exact absurd this (by decide)

/-- A NUL written behind a prefix ends the string there. -/
theorem set_prefix {a b : List UInt8} (hb : b ≠ []) : (a ++ b).set a.length 0 = a ++ 0 :: b.tail := by
  obtain ⟨x, b, rfl⟩ := List.exists_cons_of_ne_nil hb
  simp

/-- What stays in front of a place is what is taken up to it. -/
theorem take_prefix (a b : List UInt8) : (a ++ b).take a.length = a := List.take_left

/-- The two names, where the path has a component. -/
theorem splitname_component {s : CString} (hall : ¬s.bytes.all isSlash = true) :
    ∃ m, splitname (some s) = some m ∧ m.string m.base = lastComponent s.bytes ∧
      m.string m.dir = if front s.bytes = [] then lit "." else if (front s.bytes).all isSlash then lit "/"
      else (front s.bytes).rdropWhile isSlash := by
  set t := s.bytes.rdropWhile isSlash with ht
  have hsplit : front s.bytes ++ lastComponent s.bytes = t := front_append s.bytes
  obtain ⟨u, hu⟩ : ∃ u, t ++ u = s.bytes := List.rdropWhile_prefix isSlash s.bytes
  have hs0 : 0 ∉ t ++ u := hu ▸ s.noNul
  have ht0 : t ≠ [] := by
    intro hnil
    exact hall (List.all_eq_true.2 (List.rdropWhile_eq_nil_iff.1 hnil))
  have hne : s.bytes ≠ [] := by
    rintro hnil
    rw [hnil] at hall
    exact hall rfl
  have hpos : 0 < t.length := List.length_pos_of_ne_nil ht0
  -- the slashes at the end
  have hlen : walkBack (s.bytes ++ [0]) 1 isSlash s.bytes.length = t.length := by
    rw [walkBack_eq _ _ _ (List.length_pos_of_ne_nil hne) (by simp), take_prefix, ← ht]
    exact Nat.max_eq_right hpos
  obtain ⟨w, hw⟩ : ∃ w, (s.bytes ++ [0]).set t.length 0 = t ++ 0 :: w := by
    rw [← hu, List.append_assoc]
    exact ⟨_, set_prefix (by simp)⟩
  have hroot : ¬(t.length = 1 ∧ (t ++ 0 :: w).getD 0 0 = asc '/') := by
    rintro ⟨hone, hslash⟩
    obtain ⟨x, hx⟩ := List.length_eq_one_iff.1 hone
    have hself : t.rdropWhile isSlash = t := List.rdropWhile_idempotent isSlash s.bytes
    rw [hx] at hslash hself
    have hx' : x = asc '/' := hslash
    rw [hx'] at hself
    cases hself
  -- the last component
  have hslash : walkBack (t ++ 0 :: w) 0 (fun c => !isSlash c) t.length = (front s.bytes).length := by
    rw [walkBack_eq _ _ _ (Nat.zero_le _) (by simp), take_prefix, Nat.zero_max]
    rfl
  have ht : 0 ∉ t := fun h => hs0 (List.mem_append_left u h)
  have hbase : (CString.of ((front s.bytes ++ lastComponent s.bytes ++ 0 :: w).drop (front s.bytes).length)).bytes =
    lastComponent s.bytes := by
    rw [List.append_assoc, List.drop_left]
    exact CString.of_append (fun h => ht (hsplit ▸ List.mem_append_right _ h)) w
  rw [splitname, Option.map_some]
  refine ⟨_, rfl, ?_⟩
  simp only [List.length_eq_zero_iff, if_neg hne, hlen, hw, if_neg hroot, hslash]
  by_cases hfront : front s.bytes = []
  · rw [if_pos hfront, if_pos hfront]
    rw [hfront, List.nil_append] at hbase
    refine ⟨?_, rfl⟩
    rw [← hsplit, hfront]
    exact hbase
  rw [if_neg hfront, if_neg hfront]
  obtain ⟨f, hf⟩ := front_eq_concat hfront
  have hslashes : (front s.bytes).rdropWhile isSlash = f.rdropWhile isSlash := by
    rw [hf, List.rdropWhile_concat_pos _ _ _ rfl]
  -- the slashes in front of it
  have hdir : walkBack (t ++ 0 :: w) 0 isSlash ((front s.bytes).length - 1) =
    ((front s.bytes).rdropWhile isSlash).length := by
    have hlen : (front s.bytes).length - 1 = f.length := by rw [hf, List.length_append]; rfl
    rw [hlen, ← hsplit, hf, walkBack_eq _ _ _ (Nat.zero_le _) (by simp), Nat.zero_max, ← hf, hslashes, hf,
      List.append_assoc, List.append_assoc, take_prefix]
  simp only [hdir, List.length_eq_zero_iff]
  have hall : (front s.bytes).rdropWhile isSlash = [] ↔ (front s.bytes).all isSlash = true := by
    rw [List.rdropWhile_eq_nil_iff, List.all_eq_true]
  by_cases hroot : (front s.bytes).rdropWhile isSlash = []
  · rw [if_pos hroot, if_pos (hall.1 hroot)]
    refine ⟨?_, rfl⟩
    rw [← hsplit]
    exact hbase
  rw [if_neg hroot, if_neg fun h => hroot (hall.2 h)]
  obtain ⟨v, hv⟩ : ∃ v, (front s.bytes).rdropWhile isSlash ++ v = front s.bytes := List.rdropWhile_prefix isSlash _
  obtain ⟨x, v, rfl⟩ : ∃ x v', v = x :: v' := by
    refine List.exists_cons_of_ne_nil ?_
    rintro rfl
    have hle := (List.rdropWhile_prefix isSlash f).length_le
    rw [List.append_nil, hslashes, hf] at hv
    rw [hv, List.length_append, List.length_singleton] at hle
    omega
  have hcut : (t ++ 0 :: w).set ((front s.bytes).rdropWhile isSlash).length 0 =
      (front s.bytes).rdropWhile isSlash ++ 0 :: (v ++ (lastComponent s.bytes ++ 0 :: w)) := by
    rw [← hsplit, List.append_assoc]
    nth_rewrite 1 [← hv]
    rw [List.append_assoc, set_prefix (by simp)]
    rfl
  have hdrop : ((front s.bytes).rdropWhile isSlash ++ 0 :: (v ++ (lastComponent s.bytes ++ 0 :: w))).drop
    (front s.bytes).length =
      lastComponent s.bytes ++ 0 :: w := by
    have hfl : (front s.bytes).length = ((front s.bytes).rdropWhile isSlash ++ 0 :: v).length := by
      nth_rewrite 1 [← hv]
      simp
    rw [← List.cons_append, ← List.append_assoc, hfl, List.drop_left]
  rw [hcut]
  constructor
  · show (CString.of (List.drop _ _)).bytes = _
    rw [hdrop]
    exact CString.of_append (fun h => ht (hsplit ▸ List.mem_append_right _ h)) w
  · apply CString.of_append
    intro h
    exact ht (hsplit ▸ List.mem_append_left _ ((List.rdropWhile_prefix isSlash _).mem h))

/-- A path of slashes only. -/
theorem splitname_root {s : CString} (hne : s.bytes ≠ []) (hall : s.bytes.all isSlash = true) :
    ∃ m, splitname (some s) = some m ∧ m.dir = .literal (lit "/") ∧ m.base = .literal (lit "/") := by
  have hlen : walkBack (s.bytes ++ [0]) 1 isSlash s.bytes.length = 1 := by
    have hnil : s.bytes.rdropWhile isSlash = [] := List.rdropWhile_eq_nil_iff.2 (List.all_eq_true.1 hall)
    rw [walkBack_eq _ _ _ (List.length_pos_of_ne_nil hne) (by simp), take_prefix, hnil]
    rfl
  have hhead : ((s.bytes ++ [0]).set 1 0).getD 0 0 = asc '/' := by
    obtain ⟨x, u, hu⟩ := List.exists_cons_of_ne_nil hne
    rw [hu, List.all_cons, Bool.and_eq_true] at hall
    rw [hu]
    exact of_decide_eq_true hall.1
  rw [splitname, Option.map_some]
  refine ⟨_, rfl, ?_⟩
  simp only [List.length_eq_zero_iff, if_neg hne, hlen, hhead, and_self, if_true]

/-- The names of any path. -/
theorem splitname_string (path : CString) :
    ∃ m, splitname (some path) = some m ∧ m.string m.dir = posixDir path.bytes ∧
    m.string m.base = posixBase path.bytes := by
  rw [posixDir, posixBase]
  by_cases hne : path.bytes = []
  · simp only [splitname, Option.map_some, hne, List.length_nil, if_true]
    exact ⟨_, rfl, rfl, rfl⟩
  rw [if_neg hne, if_neg hne]
  by_cases hall : path.bytes.all isSlash = true
  · obtain ⟨m, hm, hdir, hbase⟩ := splitname_root hne hall
    rw [if_pos hall, if_pos hall]
    refine ⟨m, hm, ?_, ?_⟩
    · rw [hdir]
      rfl
    · rw [hbase]
      rfl
  · obtain ⟨m, hm, hbase, hdir⟩ := splitname_component hall
    rw [if_neg hall, if_neg hall]
    exact ⟨m, hm, hdir, hbase⟩

/-- The names that `splitname` finds are the ones of POSIX; `basename` and `dirname` answer them, and a base name has
no slash in it unless it is a slash. -/
theorem splitname_posix (path : CString) :
    ∃ m, splitname (some path) = some m ∧ m.string m.dir = posixDir path.bytes ∧
    m.string m.base = posixBase path.bytes ∧
      dirname (some path) = posixDir path.bytes ∧ basename (some path) = posixBase path.bytes ∧
      (asc '/' ∈ m.string m.base → m.string m.base = lit "/") := by
  obtain ⟨m, hm, hdir, hbase⟩ := splitname_string path
  refine ⟨m, hm, hdir, hbase, ?_, ?_, ?_⟩
  · rw [dirname, hm]
    exact hdir
  · rw [basename, hm]
    exact hbase
  · rw [hbase, posixBase]
    intro h
    split at h
    next => exact absurd h (by decide)
    next hne =>
      rw [if_neg hne]
      split at h
      next hall => rw [if_pos hall]
      next => exact absurd h (slash_not_mem path.bytes)

example : dirname (some (CString.of (lit "/a//b/"))) = lit "/a" := by decide

end JACLibc.Libgen
