import JACLibc.Lib.First
import JACLibc.Strings.Compare

/-!
# `execvp`

The search loop copies `PATH` to a buffer of 4096 bytes and calls `execve` for its elements, one after another, with
`execve` a sequence of errors.  An element whose joined name does not fit is left by a `continue` that does not move
on, so that the loop never ends once it gets there; and it never sees what `PATH` has behind 4095 bytes.

`tried` are the names that are to be given to `execve`; they are if no such element is reached and the copy has the
same names as far as the search goes (`execvp_iff`).
-/

namespace JACLibc.Execvp

def ENOENT : Nat := 2

/-- `sizeof(path_copy)` and `sizeof(full_path)` -/
def BUFFER : Nat := 4096

/-! ### The code -/

/-- What a call of `execvp` did: the `int` returned, `errno`, and the names given to `execve`. -/
structure Result where
  ret : Int
  errno : Nat
  names : List (List UInt8)
  deriving DecidableEq, Repr

/-- The loop over `environ`, and the default behind it. -/
def envPath : List CString → List UInt8
  | [] => lit "/bin:/usr/bin"
  | e :: env => if strncmp e.bytes (lit "PATH=") 5 = 0 then e.bytes.drop 5 else envPath env

/-- `while (1)` from `start` on, where `execve` sets `errno` to `errs n` when it is called for the time `n`. -/
def searchLoop (file : List UInt8) (errs : Nat → Nat) : Nat → List UInt8 → List (List UInt8) → Option Result
  | 0, _, _ => none
  | fuel + 1, start, names =>
    let dir := start.takeWhile (· ≠ asc ':')
    let stop := start.dropWhile (· ≠ asc ':')
    let further := fun names => if stop = [] then some ⟨-1, ENOENT, names⟩
      else searchLoop file errs fuel stop.tail names
    if dir ≠ [] then
      -- `continue`, with `start` where it was
      if BUFFER < dir.length + 1 + file.length + 1 then searchLoop file errs fuel start names
      else
        let names' := names ++ [dir ++ asc '/' :: file]
        if errs names.length ≠ ENOENT then some ⟨-1, errs names.length, names'⟩ else further names'
    else further names

/-- `execvp` -/
def execvp (environ : List CString) (file : List UInt8) (errs : Nat → Nat) (fuel : Nat) : Option Result :=
  if asc '/' ∈ file then some ⟨-1, errs 0, [file]⟩
  else searchLoop file errs fuel ((envPath environ).take (BUFFER - 1)) []

/-! ### The names to be tried -/

/-- The parts between the colons. -/
def elements (path : List UInt8) : List (List UInt8) :=
  if asc ':' ∈ path then path.takeWhile (· ≠ asc ':') :: elements (path.dropWhile (· ≠ asc ':')).tail else [path]
termination_by path.length
decreasing_by
  have hsplit := congrArg List.length (First.split ‹_›)
  rw [List.length_append, List.length_cons] at hsplit
  omega

def dirs (path : List UInt8) : List (List UInt8) := (elements path).filter (· ≠ [])

def fits (file dir : List UInt8) : Bool := dir.length + 1 + file.length + 1 ≤ BUFFER

def join (file dir : List UInt8) : List UInt8 := dir ++ asc '/' :: file

/-- The names of the elements that fit. -/
def names (file path : List UInt8) : List (List UInt8) := ((dirs path).filter (fits file)).map (join file)

/-- The names up to the first error other than `ENOENT`, where `n` calls were made. -/
def tried (errs : Nat → Nat) : Nat → List (List UInt8) → List (List UInt8)
  | _, [] => []
  | n, name :: names => name :: (if errs n = ENOENT then tried errs (n + 1) names else [])

/-- Every element that the search reaches fits. -/
def Clear (file : List UInt8) (errs : Nat → Nat) : Nat → List (List UInt8) → Prop
  | _, [] => True
  | n, dir :: dirs => fits file dir ∧ (errs n = ENOENT → Clear file errs (n + 1) dirs)

/-- No element of the copy that is reached is too long, and `PATH` is not longer than the copy, or its names are the
same as far as they are tried. -/
def Fits (path file : List UInt8) (errs : Nat → Nat) : Prop :=
  Clear file errs 0 (dirs (path.take (BUFFER - 1))) ∧
    (path.length < BUFFER ∨ tried errs 0 (names file (path.take (BUFFER - 1))) = tried errs 0 (names file path))

/-! ### The loop -/

/-- The elements that are not empty, from the first on. -/
theorem dirs_eq (path : List UInt8) : dirs path =
    (if path.takeWhile (· ≠ asc ':') ≠ [] then [path.takeWhile (· ≠ asc ':')] else []) ++
      (if path.dropWhile (· ≠ asc ':') = [] then [] else dirs (path.dropWhile (· ≠ asc ':')).tail) := by
  have hfilter : ∀ (d : List UInt8) (ds : List (List UInt8)),
    (d :: ds).filter (· ≠ []) = (if d ≠ [] then [d] else []) ++ ds.filter (· ≠ []) := by
    intro d ds
    by_cases hd : d = []
    · rw [List.filter_cons_of_neg (by simpa using hd), if_neg (by simpa using hd), List.nil_append]
    · rw [List.filter_cons_of_pos (by simpa using hd), if_pos hd, List.singleton_append]
  by_cases h : asc ':' ∈ path
  · have hstop : path.dropWhile (· ≠ asc ':') ≠ [] := by
      intro hnil
      have hsplit := List.takeWhile_append_dropWhile (p := (· ≠ asc ':')) (l := path)
      rw [hnil, List.append_nil] at hsplit
      exact First.not_mem_takeWhile (asc ':') path (by rw [hsplit]; exact h)
    rw [dirs, elements, if_pos h, hfilter, if_neg hstop]
    rfl
  · rw [dirs, elements, if_neg h, hfilter, First.takeWhile_of_not_mem h, if_pos (First.dropWhile_of_not_mem h)]
    rfl

section Loop

variable {file : List UInt8} {errs : Nat → Nat}

/-- The elements that are reached are tried. -/
theorem searchLoop_clear (fuel : Nat) {start : List UInt8} {names : List (List UInt8)} (hfuel : start.length < fuel)
    (h : Clear file errs names.length (dirs start)) :
    ∃ r, searchLoop file errs fuel start names = some r ∧
    r.names = names ++ tried errs names.length ((dirs start).map (join file)) := by
  induction fuel generalizing start names with
  | zero => exact absurd hfuel (Nat.not_lt_zero _)
  | succ fuel ih =>
    have hsplit := congrArg List.length (List.takeWhile_append_dropWhile (p := (· ≠ asc ':')) (l := start))
    rw [List.length_append] at hsplit
    rw [dirs_eq] at h ⊢
    rw [searchLoop]
    generalize start.takeWhile (· ≠ asc ':') = dir at h hsplit ⊢
    generalize start.dropWhile (· ≠ asc ':') = stop at h hsplit ⊢
    -- behind the element
    have hfurther : ∀ names' : List (List UInt8),
      Clear file errs names'.length (if stop = [] then [] else dirs stop.tail) →
        ∃ r, (if stop = [] then some ⟨-1, ENOENT, names'⟩ else searchLoop file errs fuel stop.tail names') = some r ∧
          r.names = names' ++ tried errs names'.length ((if stop = [] then [] else dirs stop.tail).map
          (join file)) := by
      intro names' hclear
      rcases stop with _ | ⟨c, stop⟩
      · exact ⟨_, if_pos rfl, by rw [if_pos rfl, List.map_nil, tried, List.append_nil]⟩
      · rw [if_neg (List.cons_ne_nil _ _)] at hclear ⊢
        rw [if_neg (List.cons_ne_nil _ _), List.tail_cons]
        rw [List.length_cons] at hsplit
        exact ih (by omega) hclear
    by_cases hdir : dir ≠ []
    · rw [if_pos hdir, List.singleton_append, Clear] at h
      have hfits : ¬BUFFER < dir.length + 1 + file.length + 1 := Nat.not_lt.2 (of_decide_eq_true h.1)
      simp only [if_pos hdir, if_neg hfits, List.singleton_append, List.map_cons, tried]
      by_cases herr : errs names.length = ENOENT
      · rw [if_neg (not_not_intro herr), if_pos herr]
        obtain ⟨r, hr, hnames⟩ := hfurther (names ++ [join file dir]) (by rw [List.length_append]; exact h.2 herr)
        refine ⟨r, hr, hnames.trans ?_⟩
        rw [List.length_append, List.append_assoc]
        rfl
      · rw [if_pos herr, if_neg herr]
        exact ⟨_, rfl, rfl⟩
    · rw [if_neg hdir, List.nil_append] at h
      simp only [if_neg hdir, List.nil_append]
      exact hfurther names h

/-- An element that is too long is tried for ever. -/
theorem searchLoop_stuck (fuel : Nat) {start : List UInt8} {names : List (List UInt8)}
    (h : ¬Clear file errs names.length (dirs start)) :
    searchLoop file errs fuel start names = none := by
  induction fuel generalizing start names with
  | zero => rfl
  | succ fuel ih =>
    have hstay := @ih start names h
    rw [dirs_eq] at h
    rw [searchLoop]
    generalize start.takeWhile (· ≠ asc ':') = dir at h ⊢
    generalize start.dropWhile (· ≠ asc ':') = stop at h ⊢
    have hfurther : ∀ names' : List (List UInt8),
      ¬Clear file errs names'.length (if stop = [] then [] else dirs stop.tail) →
        (if stop = [] then some ⟨-1, ENOENT, names'⟩ else searchLoop file errs fuel stop.tail names') = none := by
      intro names' hclear
      by_cases hstop : stop = []
      · rw [if_pos hstop] at hclear
        exact absurd trivial hclear
      · rw [if_neg hstop] at hclear ⊢
        exact ih hclear
    by_cases hdir : dir ≠ []
    · rw [if_pos hdir, List.singleton_append, Clear, not_and_or] at h
      simp only [if_pos hdir]
      by_cases hfits : fits file dir = true
      · have hlong : ¬BUFFER < dir.length + 1 + file.length + 1 := Nat.not_lt.2 (of_decide_eq_true hfits)
        have hrest := h.resolve_left (not_not_intro hfits)
        rw [Classical.not_imp] at hrest
        rw [if_neg hlong, if_neg (not_not_intro hrest.1)]
        exact hfurther _ (by rw [List.length_append]; exact hrest.2)
      · rw [if_pos (Nat.lt_of_not_le fun hle => hfits (decide_eq_true hle))]
        exact hstay
    · rw [if_neg hdir, List.nil_append] at h
      simp only [if_neg hdir]
      exact hfurther names h

/-- More fuel does not change a result. -/
theorem searchLoop_mono {fuel fuel' : Nat} (hle : fuel ≤ fuel') {start : List UInt8} {names : List (List UInt8)}
    {r : Result} (h : searchLoop file errs fuel start names = some r) :
    searchLoop file errs fuel' start names = some r := by
  induction fuel generalizing fuel' start names with
  | zero => cases h
  | succ fuel ih =>
    obtain ⟨fuel', rfl⟩ : ∃ n, fuel' = n + 1 := ⟨fuel' - 1, by omega⟩
    have hle := Nat.le_of_succ_le_succ hle
    rw [searchLoop] at h ⊢
    generalize start.takeWhile (· ≠ asc ':') = dir at h ⊢
    generalize start.dropWhile (· ≠ asc ':') = stop at h ⊢
    have hfurther : ∀ names' : List (List UInt8), (if stop = [] then some ⟨-1, ENOENT, names'⟩ else
        searchLoop file errs fuel stop.tail names') = some r → (if stop = [] then some ⟨-1, ENOENT, names'⟩ else
        searchLoop file errs fuel' stop.tail names') = some r := by
      intro names' h
      by_cases hstop : stop = []
      · rwa [if_pos hstop] at h ⊢
      · rw [if_neg hstop] at h ⊢
        exact ih hle h
    by_cases hdir : dir ≠ []
    · simp only [if_pos hdir] at h ⊢
      by_cases hlong : BUFFER < dir.length + 1 + file.length + 1
      · rw [if_pos hlong] at h ⊢
        exact ih hle h
      · rw [if_neg hlong] at h ⊢
        by_cases herr : errs names.length ≠ ENOENT
        · rwa [if_pos herr] at h ⊢
        · rw [if_neg herr] at h ⊢
          exact hfurther _ h
    · simp only [if_neg hdir] at h ⊢
      exact hfurther _ h

/-- Where the elements fit that are reached, only they are tried. -/
theorem tried_clear {n : Nat} {ds : List (List UInt8)} (h : Clear file errs n ds) :
    tried errs n (ds.map (join file)) = tried errs n ((ds.filter (fits file)).map (join file)) := by
  induction ds generalizing n with
  | nil => rfl
  | cons dir ds ih =>
    rw [List.filter_cons_of_pos h.1, List.map_cons, List.map_cons, tried, tried]
    by_cases herr : errs n = ENOENT
    · rw [if_pos herr, if_pos herr, ih (h.2 herr)]
    · rw [if_neg herr, if_neg herr]

end Loop

/-- For a name without a slash the search ends and gives `execve` the names of the elements that fit, up to the first
error other than `ENOENT`, if and only if it reaches no element that is too long, and what `PATH` has behind 4095
bytes makes no difference. -/
theorem execvp_iff (environ : List CString) (file : CString) (errs : Nat → Nat) (hfile : asc '/' ∉ file.bytes) :
    (∃ fuel r, execvp environ file.bytes errs fuel = some r ∧
    r.names = tried errs 0 (names file.bytes (envPath environ))) ↔
      Fits (envPath environ) file.bytes errs := by
  unfold execvp Fits
  simp only [if_neg hfile]
  generalize envPath environ = path
  by_cases hclear : Clear file.bytes errs 0 (dirs (path.take (BUFFER - 1)))
  · obtain ⟨r, hr, hnames⟩ := @searchLoop_clear file.bytes errs ((path.take (BUFFER - 1)).length + 1) _ []
      (Nat.lt_succ_self _) hclear
    rw [List.nil_append, List.length_nil, tried_clear hclear] at hnames
    have hiff : (∃ fuel r, searchLoop file.bytes errs fuel (path.take (BUFFER - 1)) [] = some r ∧
        r.names = tried errs 0 (names file.bytes path)) ↔
        tried errs 0 (names file.bytes (path.take (BUFFER - 1))) = tried errs 0 (names file.bytes path) := by
      constructor
      · rintro ⟨fuel, r', hr', hnames'⟩
        have hsame := (searchLoop_mono (Nat.le_max_left _ fuel) hr).symm.trans
          (searchLoop_mono (Nat.le_max_right _ fuel) hr')
        rw [← Option.some.inj hsame] at hnames'
        exact hnames.symm.trans hnames'
      · exact fun h => ⟨_, r, hr, hnames.trans h⟩
    rw [hiff]
    refine ⟨fun h => ⟨hclear, .inr h⟩, fun h => h.2.elim (fun hlen => ?_) id⟩
    rw [List.take_of_length_le (Nat.le_sub_one_of_lt hlen)]
  · refine iff_of_false ?_ fun h => hclear h.1
    rintro ⟨fuel, r, hr, -⟩
    rw [searchLoop_stuck fuel hclear] at hr
    cases hr

/-- With `PATH=/a::/b` and `ENOENT` both `/a/x` and `/b/x` are tried. -/
theorem execvp_two : ∃ fuel r, execvp [⟨lit "PATH=/a::/b", by decide⟩] (lit "x") (fun _ => ENOENT) fuel = some r ∧
    r.names = tried (fun _ => ENOENT) 0 (names (lit "x") (envPath [⟨lit "PATH=/a::/b", by decide⟩])) := by
  have hdirs : dirs (lit "/a::/b") = [lit "/a", lit "/b"] := by
    rw [dirs_eq, if_pos (by decide), if_neg (by decide), dirs_eq, if_neg (by decide), if_neg (by decide), dirs_eq,
      if_pos (by decide), if_pos (by decide)]
    decide
  refine (execvp_iff [⟨lit "PATH=/a::/b", by decide⟩] ⟨lit "x", by decide⟩ (fun _ => ENOENT) (by decide)).2 ⟨?_,
    .inl (by decide)⟩
  change Clear (lit "x") (fun _ => ENOENT) 0 (dirs (lit "/a::/b"))
  rw [hdirs]
  exact ⟨by decide, fun _ => ⟨by decide, fun _ => trivial⟩⟩

/-- A `PATH` of one element of 4095 bytes. -/
def longPath : CString := ⟨lit "PATH=" ++ List.replicate (BUFFER - 1) (asc 'a'), by
  rw [List.mem_append, not_or]
  exact ⟨by decide, fun h => absurd (List.eq_of_mem_replicate h) (by decide)⟩⟩

theorem envPath_longPath : envPath [longPath] = List.replicate (BUFFER - 1) (asc 'a') := by
  have hname : ∀ value : List UInt8, strncmp (lit "PATH=" ++ value) (lit "PATH=") 5 = 0 := fun _ => rfl
  rw [envPath, longPath, if_pos (hname _)]
  rfl

/-- With this `PATH` the search for `x` never ends. -/
theorem execvp_long : ¬∀ (environ : List CString) (file : CString) (errs : Nat → Nat), asc '/' ∉ file.bytes →
    ∃ fuel r, execvp environ file.bytes errs fuel = some r ∧
    r.names = tried errs 0 (names file.bytes (envPath environ)) := by
  intro h
  obtain ⟨fuel, r, hr, -⟩ := h [longPath] ⟨lit "x", by decide⟩ (fun _ => ENOENT) (by decide)
  have hcolon : asc ':' ∉ List.replicate (BUFFER - 1) (asc 'a') :=
    fun h => absurd (List.eq_of_mem_replicate h) (by decide)
  have hlong : ¬Clear (lit "x") (fun _ => ENOENT) 0 (dirs (List.replicate (BUFFER - 1) (asc 'a'))) := by
    rw [dirs_eq, First.takeWhile_of_not_mem hcolon, if_pos (by rw [ne_eq, List.replicate_eq_nil_iff]; decide)]
    intro hclear
    have hfits := of_decide_eq_true hclear.1
    rw [List.length_replicate] at hfits
    exact absurd hfits (by decide)
  rw [execvp, if_neg (by decide), envPath_longPath, List.take_of_length_le (by rw [List.length_replicate])] at hr
  rw [searchLoop_stuck fuel hlong] at hr
  cases hr

end JACLibc.Execvp
