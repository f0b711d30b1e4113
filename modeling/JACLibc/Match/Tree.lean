import JACLibc.Match.Matcher
import Mathlib.Computability.Language

/-!
# Node trees and their languages

The abstract side of the matcher.  `Tree` is the shape of the nodes that literals, `.`, groups, concatenation,
alternation and quantifiers are compiled to, and `Tree.lang` the language such a tree denotes.  `Holds` says that
an arena holds a tree at an index, all of its nodes at indices from `lo` on; later changes of the arena elsewhere do
not matter to it (`Holds.frame`).
-/

namespace JACLibc

inductive Tree where
  | empty
  | char (val : Nat)
  | any (dotall : Bool)
  | cap (id : Nat) (a : Tree)
  | seq (a b : Tree)
  | alt (a b : Tree)
  | rep (min max : Nat) (lazy : Bool) (a : Tree)
  | atomic (a : Tree)
  deriving DecidableEq, Repr

namespace Tree

/-- The language of a tree: a `char` stands for the byte strings that the decoder reads as that one character, `any`
for one byte or a byte from 0x80 on with continuation bytes, and a maximum of 255 for no maximum. -/
def lang (W : Wctype) (ic : Bool) : Tree → Language UInt8
  | empty => 1
  | char val => {w | w ≠ [] ∧ (utf8Next w).2 = w.length ∧ matchFold W (utf8Next w).1 val ic}
  | any dotall => {w | ∃ b bs, w = b :: bs ∧ (¬dotall → b ≠ asc '\n') ∧ (b < 0x80 → bs = []) ∧
      ∀ x ∈ bs, utf8IsCont x}
  | cap _ a => a.lang W ic
  | seq a b => a.lang W ic * b.lang W ic
  | alt a b => a.lang W ic + b.lang W ic
  | rep min max _ a => {w | ∃ k, min ≤ k ∧ (max = 255 ∨ k ≤ max) ∧ w ∈ a.lang W ic ^ k}
  | atomic a => a.lang W ic

/-- There is no repetition in the tree. -/
def repFree : Tree → Bool
  | empty | char _ | any _ => true
  | cap _ a | atomic a => a.repFree
  | seq a b | alt a b => a.repFree && b.repFree
  | rep _ _ _ _ => false

/-- No repetition stands inside the body of another. -/
def unnested : Tree → Bool
  | empty | char _ | any _ => true
  | cap _ a | atomic a => a.unnested
  | seq a b | alt a b => a.unnested && b.unnested
  | rep _ _ _ a => a.repFree

def isSeq : Tree → Bool
  | seq _ _ => true
  | _ => false

theorem unnested_of_repFree {t : Tree} (h : t.repFree) : t.unnested := by
  induction t with
  | empty | char | any => rfl
  | cap _ _ ih | atomic _ ih => exact ih h
  | seq _ _ iha ihb | alt _ _ iha ihb =>
    simp only [repFree, Bool.and_eq_true] at h
    simp [unnested, iha h.1, ihb h.2]
  | rep => cases h

end Tree

/-! ### Trees in an arena -/

/-- The arena holds the tree at the index, with all nodes at indices from `lo` on.  No node has the case flag, only
concatenations and alternations have a second reference, and that of a concatenation is no concatenation. -/
inductive Holds (arena : List MatchNode) (lo : Nat) : Nat → Tree → Prop
  | empty : Holds arena lo 0 .empty
  | char {i : Nat} {n : MatchNode} (hi : 0 < i) (hlo : lo ≤ i) (hn : arena[i]? = some n) (htype : n.type = .CHAR)
      (hicase : n.eflags.icase = false) (hb : n.b = 0) : Holds arena lo i (.char n.val)
  | any {i : Nat} {n : MatchNode} (hi : 0 < i) (hlo : lo ≤ i) (hn : arena[i]? = some n) (htype : n.type = .ANY)
      (hicase : n.eflags.icase = false) (hb : n.b = 0) : Holds arena lo i (.any n.eflags.dotall)
  | cap {i : Nat} {n : MatchNode} {ta : Tree} (hi : 0 < i) (hlo : lo ≤ i) (hn : arena[i]? = some n)
      (htype : n.type = .CAP) (hicase : n.eflags.icase = false) (hb : n.b = 0) (ha : Holds arena lo n.a ta) :
      Holds arena lo i (.cap n.capId ta)
  | seq {i : Nat} {n : MatchNode} {ta tb : Tree} (hi : 0 < i) (hlo : lo ≤ i) (hn : arena[i]? = some n)
      (htype : n.type = .SEQ) (hicase : n.eflags.icase = false) (ha : Holds arena lo n.a ta)
      (hb : Holds arena lo n.b tb) (hseq : tb.isSeq = false) : Holds arena lo i (.seq ta tb)
  | alt {i : Nat} {n : MatchNode} {ta tb : Tree} (hi : 0 < i) (hlo : lo ≤ i) (hn : arena[i]? = some n)
      (htype : n.type = .ALT) (hicase : n.eflags.icase = false) (ha : Holds arena lo n.a ta)
      (hb : Holds arena lo n.b tb) : Holds arena lo i (.alt ta tb)
  | rep {i : Nat} {n : MatchNode} {ta : Tree} (hi : 0 < i) (hlo : lo ≤ i) (hn : arena[i]? = some n)
      (htype : n.type = .REP) (hicase : n.eflags.icase = false) (hb : n.b = 0) (ha : Holds arena lo n.a ta) :
      Holds arena lo i (.rep n.min n.max n.lazy ta)
  | atomic {i : Nat} {n : MatchNode} {ta : Tree} (hi : 0 < i) (hlo : lo ≤ i) (hn : arena[i]? = some n)
      (htype : n.type = .ATOMIC) (hicase : n.eflags.icase = false) (hb : n.b = 0) (ha : Holds arena lo n.a ta) :
      Holds arena lo i (.atomic ta)

namespace Holds

variable {arena arena' : List MatchNode} {lo lo' i : Nat} {t : Tree}

/-- Only the entries from `lo` on matter. -/
theorem frame (h : Holds arena lo i t) (hlo : lo' ≤ lo)
    (hsame : ∀ j n, lo ≤ j → arena[j]? = some n → arena'[j]? = some n) : Holds arena' lo' i t := by
  induction h with
  | empty => exact .empty
  | char hi hl hn htype hicase hb => exact .char hi (by omega) (hsame _ _ hl hn) htype hicase hb
  | any hi hl hn htype hicase hb => exact .any hi (by omega) (hsame _ _ hl hn) htype hicase hb
  | cap hi hl hn htype hicase hb _ ih => exact .cap hi (by omega) (hsame _ _ hl hn) htype hicase hb ih
  | seq hi hl hn htype hicase _ _ hseq iha ihb =>
    exact .seq hi (by omega) (hsame _ _ hl hn) htype hicase iha ihb hseq
  | alt hi hl hn htype hicase _ _ iha ihb => exact .alt hi (by omega) (hsame _ _ hl hn) htype hicase iha ihb
  | rep hi hl hn htype hicase hb _ ih => exact .rep hi (by omega) (hsame _ _ hl hn) htype hicase hb ih
  | atomic hi hl hn htype hicase hb _ ih => exact .atomic hi (by omega) (hsame _ _ hl hn) htype hicase hb ih

/-- Nodes made later do not matter. -/
theorem extend (h : Holds arena lo i t) (hlo : lo' ≤ lo) (hpre : arena <+: arena') :
    Holds arena' lo' i t := by
  obtain ⟨rest, rfl⟩ := hpre
  refine h.frame hlo fun j n _ hn => ?_
  rw [List.getElem?_append_left (List.getElem?_eq_some_iff.1 hn).1, hn]

/-- A node that is there carries no case flag. -/
theorem node_icase (h : Holds arena lo i t) (hi : i ≠ 0) :
    ∃ n, arena[i]? = some n ∧ n.eflags.icase = false := by
  cases h with
  | empty => exact absurd rfl hi
  | char _ _ hn _ hicase | any _ _ hn _ hicase | cap _ _ hn _ hicase | seq _ _ hn _ hicase | alt _ _ hn _ hicase
  | rep _ _ hn _ hicase | atomic _ _ hn _ hicase => exact ⟨_, hn, hicase⟩

/-- Only a concatenation is stored as one. -/
theorem node_type (h : Holds arena lo i t) (hseq : t.isSeq = false) {n : MatchNode} (hn : arena[i]? = some n)
    (hi : i ≠ 0) : n.type ≠ .SEQ := by
  cases h with
  | empty => exact absurd rfl hi
  | seq => cases hseq
  | char _ _ hn' htype | any _ _ hn' htype | cap _ _ hn' htype | alt _ _ hn' htype | rep _ _ hn' htype
  | atomic _ _ hn' htype =>
    rw [hn] at hn'
    cases hn'
    rw [htype]
    decide

end Holds

/-- The tree at an index of an arena, read with fuel. -/
def readTree (arena : List MatchNode) : Nat → Nat → Option Tree
  | _, 0 => some .empty
  | 0, _ + 1 => none
  | fuel + 1, i + 1 =>
    match arena[i + 1]? with
    | none => none
    | some n =>
      if n.eflags.icase then none
      else
        match n.type with
        | .SEQ =>
          match readTree arena fuel n.a, readTree arena fuel n.b with
          | some ta, some tb => if tb.isSeq then none else some (.seq ta tb)
          | _, _ => none
        | .ALT =>
          match readTree arena fuel n.a, readTree arena fuel n.b with
          | some ta, some tb => some (.alt ta tb)
          | _, _ => none
        | type =>
          if n.b ≠ 0 then none
          else
            match type with
            | .CHAR => some (.char n.val)
            | .ANY => some (.any n.eflags.dotall)
            | .CAP => (readTree arena fuel n.a).map (.cap n.capId)
            | .REP => (readTree arena fuel n.a).map (.rep n.min n.max n.lazy)
            | .ATOMIC => (readTree arena fuel n.a).map .atomic
            | _ => none

/-- What is read is there. -/
theorem readTree_holds {arena : List MatchNode} {fuel i : Nat} {t : Tree} (h : readTree arena fuel i = some t) :
    Holds arena 1 i t := by
  induction fuel generalizing i t with
  | zero =>
    cases i with
    | zero => cases h; exact .empty
    | succ i => cases h
  | succ fuel ih =>
    cases i with
    | zero => cases h; exact .empty
    | succ i =>
      have hi : 0 < i + 1 := Nat.succ_pos i
      simp only [readTree] at h
      split at h
      · cases h
      · rename_i n hn
        split at h
        · cases h
        rename_i hicase
        rw [Bool.not_eq_true] at hicase
        split at h
        · rename_i htype
          split at h
          · rename_i ha hb
            split at h
            · cases h
            · rename_i hseq
              cases h
              rw [Bool.not_eq_true] at hseq
              exact .seq hi hi hn htype hicase (ih ha) (ih hb) hseq
          · cases h
        · rename_i htype
          split at h
          · rename_i ha hb
            cases h
            exact .alt hi hi hn htype hicase (ih ha) (ih hb)
          · cases h
        · split at h
          · cases h
          · rename_i hb0
            rw [ne_eq, not_not] at hb0
            split at h
            · rename_i htype
              cases h
              exact .char hi hi hn htype hicase hb0
            · rename_i htype
              cases h
              exact .any hi hi hn htype hicase hb0
            · rename_i htype
              obtain ⟨ta, ha, rfl⟩ := Option.map_eq_some_iff.1 h
              exact .cap hi hi hn htype hicase hb0 (ih ha)
            · rename_i htype
              obtain ⟨ta, ha, rfl⟩ := Option.map_eq_some_iff.1 h
              exact .rep hi hi hn htype hicase hb0 (ih ha)
            · rename_i htype
              obtain ⟨ta, ha, rfl⟩ := Option.map_eq_some_iff.1 h
              exact .atomic hi hi hn htype hicase hb0 (ih ha)
            · cases h

end JACLibc
