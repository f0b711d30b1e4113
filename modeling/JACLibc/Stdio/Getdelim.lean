import JACLibc.Stdio.Input

/-!
# `getdelim`

`getdelim` reads a line into a block that grows by doubling: it keeps room for the byte read and for the NUL behind
it, so that the second check of the size, before the NUL is stored, never grows the block.  `getline` is `getdelim` up
to a newline.
-/

namespace JACLibc.Stdio

/-! ### The functions -/

/-- `*lineptr` and `*n`: `block` is what `*lineptr` points to, and empty for NULL.  Not in the source: `calls` and
`refused`, the number of calls of `realloc` and whether one has failed, and `outside`, whether a byte was stored
behind the block. -/
structure Line where
  block : List UInt8
  n : Nat
  calls : Nat
  refused : Bool
  outside : Bool
  deriving DecidableEq

/-- What `realloc` answers, by number of the call: nothing, or what the bytes behind the old ones hold. -/
abbrev Answers := Nat → Option (Nat → UInt8)

variable (mem : Answers)

/-- `realloc(*lineptr, size)`, with both variables set where it succeeds.  No block is larger than `PTRDIFF_MAX`. -/
def Line.realloc (l : Line) (size : Nat) : Bool × Line :=
  match if size < 2 ^ 63 then mem l.calls else none with
  | none => (false, { l with calls := l.calls + 1, refused := true })
  | some junk =>
    (true, { l with
      block := l.block.take size ++ (List.range (size - l.block.length)).map junk, n := size, calls := l.calls + 1 })

/-- `(*lineptr)[i] = c;` -/
def Line.put (l : Line) (i : Nat) (c : UInt8) : Line :=
  { l with block := l.block.set i c, outside := l.outside || decide (l.block.length ≤ i) }

/-- How the loop is left: by `return -1`, by `EOF`, or by the delimiter. -/
inductive Left
  | failed
  | eof
  | delim
  deriving DecidableEq

variable (K : Kernel) (delim : Int)

/-- The loop of `getdelim`, with `pos` bytes stored.  `pos` stays below the size of the block. -/
def getdelimLoop : Nat → Nat → Line → File → Option (Left × Nat × Line × File)
  | 0, _, _, _ => none
  | fuel + 1, pos, l, f =>
    match fgetc K f with
    | (none, f) => some (.eof, pos, l, f)
    | (some c, f) =>
      match if pos + 1 ≥ l.n then l.realloc mem (if l.n ≠ 0 then l.n * 2 % 2 ^ 64 else 128) else (true, l) with
      | (false, l) => some (.failed, pos, l, f)
      | (true, l) =>
        if (c.toNat : Int) = delim then some (.delim, pos + 1, l.put pos c, f)
        else getdelimLoop fuel (pos + 1) (l.put pos c) f

/-- `getdelim` -/
def getdelim (fuel : Nat) (l : Line) (f : File) : Option (Int × Line × File) :=
  match getdelimLoop mem K delim fuel 0 l f with
  | none => none
  | some (left, pos, l, f) =>
    if left = .failed then some (-1, l, f)
    else if pos = 0 ∧ left = .eof then some (-1, l, f)
    else
      match if pos ≥ l.n then l.realloc mem (pos + 1) else (true, l) with
      | (false, l) => some (-1, l, f)
      | (true, l) => some (pos, l.put pos 0, f)

/-- `getline` -/
def getline (fuel : Nat) (l : Line) (f : File) : Option (Int × Line × File) := getdelim mem K 10 fuel l f

/-- The bytes that are left of a stream. -/
def Reader.unread (file : List UInt8) (a : Reader) : List UInt8 := a.stack ++ file.drop a.next

/-- The bytes up to a delimiter, which is one of them, or all bytes. -/
def upTo (delim : Int) : List UInt8 → List UInt8
  | [] => []
  | c :: s => if (c.toNat : Int) = delim then [c] else c :: upTo delim s

/-- `*n` bytes are there, and none has been stored behind them. -/
structure Line.Ok (l : Line) : Prop where
  n_le : l.n ≤ l.block.length
  fits : l.block.length < 2 ^ 63
  inside : l.outside = false

/-- The block holds `w`, and room behind it if it is not empty. -/
structure Line.Holds (l : Line) (w : List UInt8) : Prop extends Line.Ok l where
  front : l.block.take w.length = w
  room : w = [] ∨ w.length < l.n

variable {mem} {l : Line} {w : List UInt8}

/-- `realloc` to a larger size keeps what is there. -/
theorem Line.Holds.realloc {l' : Line} {size : Nat} (h : l.Holds w) (hsize : w.length < size)
    (hrun : l.realloc mem size = (true, l')) :
    l'.Holds w ∧ l'.n = size ∧ l'.refused = l.refused := by
  have hw : w.length ≤ l.block.length := by
    rcases h.room with rfl | hroom
    · exact Nat.zero_le _
    · have := h.n_le
      omega
  unfold Line.realloc at hrun
  split at hrun
  · cases hrun
  next junk hjunk =>
    obtain ⟨-, rfl⟩ := Prod.mk.inj hrun
    have hlt : size < 2 ^ 63 := by
      by_contra hlt
      rw [if_neg hlt] at hjunk
      cases hjunk
    have hlen : (l.block.take size ++ (List.range (size - l.block.length)).map junk).length = size := by
      rw [List.length_append, List.length_take, List.length_map, List.length_range]
      omega
    refine ⟨⟨⟨hlen.ge, hlen.trans_lt hlt, h.inside⟩, ?_, .inr hsize⟩, rfl, rfl⟩
    change (l.block.take size ++ _).take w.length = w
    rw [List.take_append_of_le_length (by rw [List.length_take]; omega), List.take_take, Nat.min_eq_left (by omega)]
    exact h.front

theorem Line.Ok.refuse {l' : Line} {size : Nat} (h : l.Ok) (hrun : l.realloc mem size = (false, l')) :
    l'.Ok ∧ l'.refused = true := by
  unfold Line.realloc at hrun
  split at hrun
  · obtain ⟨-, rfl⟩ := Prod.mk.inj hrun
    exact ⟨⟨h.n_le, h.fits, h.inside⟩, rfl⟩
  · cases hrun

/-- A byte is stored behind what the block holds. -/
theorem Line.Holds.put (h : l.Holds w) (hroom : w.length < l.n) (c : UInt8) :
    (l.put w.length c).Ok ∧ (l.put w.length c).block.take (w ++ [c]).length = w ++ [c] := by
  have hn := h.n_le
  have hlt : w.length < l.block.length := by omega
  refine ⟨⟨?_, ?_, ?_⟩, ?_⟩
  · simpa [Line.put] using hn
  · simpa [Line.put] using h.fits
  · simpa [Line.put, h.inside] using hlt
  · rw [List.length_append, List.length_singleton]
    change (l.block.set w.length c).take (w.length + 1) = w ++ [c]
    rw [List.take_succ_eq_append_getElem (by simpa using hlt), List.getElem_set_self,
      List.take_set_of_le (Nat.le_refl _), h.front]

/-- The check before a byte is stored makes room for it and for the NUL. -/
theorem Line.Holds.grow (h : l.Holds w) {l' : Line} {ok : Bool}
    (hrun : (if w.length + 1 ≥ l.n then l.realloc mem (if l.n ≠ 0 then l.n * 2 % 2 ^ 64 else 128) else (true, l)) =
    (ok, l')) :
    (ok = true → l'.Holds w ∧ w.length + 1 < l'.n ∧ l'.refused = l.refused) ∧
    (ok = false → l'.Ok ∧ l'.refused = true) := by
  by_cases hroom : w.length + 1 ≥ l.n
  · rw [if_pos hroom] at hrun
    refine ⟨?_, ?_⟩
    · rintro rfl
      have hn := h.n_le
      have hfits := h.fits
      have hsize : w.length + 1 < if l.n ≠ 0 then l.n * 2 % 2 ^ 64 else 128 := by
        rcases h.room with rfl | hlt
        · rw [List.length_nil] at hroom ⊢
          split <;> omega
        · rw [if_pos (by omega), Nat.mod_eq_of_lt (by omega)]
          omega
      obtain ⟨hholds, hn', hrefused⟩ := h.realloc (Nat.lt_of_succ_lt hsize) hrun
      exact ⟨hholds, by rw [hn']; exact hsize, hrefused⟩
    · rintro rfl
      exact h.toOk.refuse hrun
  · rw [if_neg hroom] at hrun
    obtain ⟨rfl, rfl⟩ := Prod.mk.inj hrun
    exact ⟨fun _ => ⟨h, by omega, rfl⟩, fun hfalse => absurd hfalse (by decide)⟩

/-! ### One call -/

variable {K} {delim} {f : File} {a : Reader}

/-- The lines of a stream, for one delimiter after another. -/
def lines : List Int → List UInt8 → List (List UInt8)
  | [], _ => []
  | d :: ds, s => if s = [] then [] else upTo d s :: lines ds (s.drop (upTo d s).length)

end JACLibc.Stdio
