import JACLibc.Net.Dns
import Mathlib.Logic.Relation

/-!
# Names in a message

What a name in a message is, apart from the code that reads one: labels and pointers are followed from a place (`Hop`,
`Comes`) until a zero byte, and the text is the labels joined by dots.  There is one way to go from each place, so two
ways through a message that cannot go on are the same (`comes_unique`).
-/

namespace JACLibc.Dns

/-! ### The text of a name -/

/-- The labels joined by dots. -/
def textOf (ls : List (List UInt8)) : List UInt8 := [asc '.'].intercalate ls

/-- The text of a name up to where its next label begins. -/
def lead (ls : List (List UInt8)) : List UInt8 := if ls = [] then [] else textOf ls ++ [asc '.']

theorem textOf_concat (ls : List (List UInt8)) (l : List UInt8) : textOf (ls ++ [l]) = lead ls ++ l := by
  induction ls with
  | nil => simp [textOf, lead]
  | cons x xs ih =>
    unfold lead at ih ⊢
    rw [if_neg (List.cons_ne_nil x xs)]
    cases xs with
    | nil => simp [textOf]
    | cons y ys =>
      rw [if_neg (List.cons_ne_nil y ys)] at ih
      unfold textOf at ih ⊢
      rw [List.cons_append, List.cons_append, List.intercalate_cons_cons, ← List.cons_append, ih,
        List.intercalate_cons_cons]
      simp

theorem length_lead_le (ls : List (List UInt8)) : (lead ls).length ≤ (textOf ls).length + 1 := by
  unfold lead
  split
  · simp
  · simp

theorem length_textOf_le (ls : List (List UInt8)) : (textOf ls).length ≤ (lead ls).length := by
  unfold lead
  split
  · rename_i h
    simp [h, textOf]
  · simp

theorem length_textOf {ls : List (List UInt8)} (h : ls ≠ []) :
    (textOf ls).length + 1 = (ls.map fun l => l.length + 1).sum := by
  induction ls with
  | nil => exact absurd rfl h
  | cons x xs ih =>
    cases xs with
    | nil => simp [textOf]
    | cons y ys =>
      have hys := ih (List.cons_ne_nil y ys)
      unfold textOf at hys ⊢
      rw [List.intercalate_cons_cons, List.map_cons, List.sum_cons, ← hys]
      simp
      omega

/-- Each label behind its length. -/
def counted (ls : List (List UInt8)) : List UInt8 := ls.flatMap fun l => l.length.toUInt8 :: l

/-- The wire form of a name: its labels, and a zero byte. -/
def wire (ls : List (List UInt8)) : List UInt8 := counted ls ++ [0]

/-! ### Following a name -/

/-- The labels met on the way through a message, the places of the pointers followed, and the place come to. -/
structure Trail where
  labels : List (List UInt8)
  pointers : List Nat
  place : Nat

/-- One label or one pointer further. -/
inductive Hop (msg : List UInt8) (t : Trail) : Trail → Prop
  | label {len : UInt8} (hlen : msg[t.place]? = some len) (h0 : len ≠ 0) (h63 : len ≤ 63)
  (hin : t.place + 1 + len.toNat ≤ msg.length) :
      Hop msg t ⟨t.labels ++ [(msg.drop (t.place + 1)).take len.toNat], t.pointers, t.place + 1 + len.toNat⟩
  | pointer {high low : UInt8} (hhigh : msg[t.place]? = some high) (hbits : high &&& 0xC0 = 0xC0)
      (hlow : msg[t.place + 1]? = some low) (hin : target high low < msg.length) :
      Hop msg t ⟨t.labels, t.pointers ++ [t.place], target high low⟩

/-- Following labels and pointers from `src` leads along the trail. -/
def Comes (msg : List UInt8) (src : Nat) (t : Trail) : Prop := Relation.ReflTransGen (Hop msg) ⟨[], [], src⟩ t

/-- The trail is a name: it has followed ten pointers at most and has come to a zero byte. -/
structure IsName (msg : List UInt8) (src : Nat) (t : Trail) : Prop where
  comes : Comes msg src t
  few : t.pointers.length ≤ 10
  zero : msg[t.place]? = some 0

/-- The bytes that the name occupies at `src`, up to and including its zero byte or its first pointer. -/
def occupied (src : Nat) (t : Trail) : Int :=
  match t.pointers with
  | [] => t.place - src + 1
  | q :: _ => q - src + 2

theorem le_of_bits {high : UInt8} (h : high &&& 0xC0 = 0xC0) : 63 < high := by
  have hand : high.toNat &&& 0xC0 = 0xC0 := by
    rw [show (0xC0 : Nat) = (0xC0 : UInt8).toNat from rfl, ← UInt8.toNat_and, h]
  have hle : high.toNat &&& 0xC0 ≤ high.toNat := Nat.and_le_left
  rw [UInt8.lt_iff_toNat_lt]
  exact Nat.lt_of_lt_of_le (by decide) (hand ▸ hle)

/-- There is one way to go. -/
theorem hop_unique (msg : List UInt8) : Relator.RightUnique (Hop msg) := by
  intro t t₁ t₂ h₁ h₂
  cases h₁ with
  | @label len hlen h0 h63 hin =>
    cases h₂ with
    | @label len' hlen' h0' h63' hin' =>
      cases hlen.symm.trans hlen'
      rfl
    | pointer hhigh hbits hlow hin' =>
      cases hlen.symm.trans hhigh
      exact absurd h63 (UInt8.not_le.2 (le_of_bits hbits))
  | pointer hhigh hbits hlow hin =>
    cases h₂ with
    | label hlen h0 h63 hin' =>
      cases hlen.symm.trans hhigh
      exact absurd h63 (UInt8.not_le.2 (le_of_bits hbits))
    | pointer hhigh' hbits' hlow' hin' =>
      cases hhigh.symm.trans hhigh'
      cases hlow.symm.trans hlow'
      rfl

/-- There is no way to go from a zero byte or from the end of the message. -/
theorem not_hop {msg : List UInt8} {t t' : Trail} (h : msg[t.place]? = some 0 ∨ msg.length ≤ t.place) :
    ¬Hop msg t t' := by
  have hbyte : ∀ b, msg[t.place]? = some b → b = 0 := by
    intro b hb
    rcases h with h | h
    · exact Option.some.inj (hb.symm.trans h)
    · rw [List.getElem?_eq_none h] at hb
      cases hb
  intro hop
  cases hop with
  | label hlen h0 h63 hin => exact h0 (hbyte _ hlen)
  | pointer hhigh hbits hlow hin =>
    rw [hbyte _ hhigh] at hbits
    exact absurd hbits (by decide)

/-- Two trails that cannot go on are the same. -/
theorem comes_unique {msg : List UInt8} {src : Nat} {t t' : Trail} (h : Comes msg src t) (h' : Comes msg src t')
    (hend : msg[t.place]? = some 0 ∨ msg.length ≤ t.place) (hend' : msg[t'.place]? = some 0 ∨ msg.length ≤ t'.place) :
    t = t' := by
  rcases Relation.ReflTransGen.total_of_right_unique (hop_unique msg) h h' with hto | hto
  · rcases Relation.ReflTransGen.cases_head hto with heq | ⟨u, hop, -⟩
    · exact heq
    · exact absurd hop (not_hop hend)
  · rcases Relation.ReflTransGen.cases_head hto with heq | ⟨u, hop, -⟩
    · exact heq.symm
    · exact absurd hop (not_hop hend')

/-- What one hop adds. -/
theorem Hop.grows {msg : List UInt8} {t t' : Trail} (h : Hop msg t t') :
    (∃ l, l ≠ [] ∧ l.length ≤ 63 ∧ t'.labels = t.labels ++ [l] ∧ t'.pointers = t.pointers) ∨
      (t'.labels = t.labels ∧ t'.pointers = t.pointers ++ [t.place]) := by
  cases h with
  | @label len hlen h0 h63 hin =>
    left
    have hlength : ((msg.drop (t.place + 1)).take len.toNat).length = len.toNat := by
      rw [List.length_take, List.length_drop]
      omega
    have hpos : 0 < len.toNat := Nat.pos_of_ne_zero fun h => h0 (UInt8.toNat_inj.1 h)
    have h63' := UInt8.le_iff_toNat_le.1 h63
    refine ⟨_, ?_, ?_, rfl, rfl⟩
    · intro hnil
      rw [hnil] at hlength
      simp only [List.length_nil] at hlength
      omega
    · rw [hlength]
      exact h63'
  | pointer hhigh hbits hlow hin =>
    right
    exact ⟨rfl, rfl⟩

/-- A label that can stand in a name. -/
def IsLabel (l : List UInt8) : Prop := l ≠ [] ∧ l.length ≤ 63

theorem IsLabel.toNat {l : List UInt8} (h : IsLabel l) : l.length.toUInt8.toNat = l.length :=
  UInt8.toNat_ofNat_of_lt' (Nat.lt_of_le_of_lt h.2 (by decide))

/-- A label behind its length is followed. -/
theorem hop_counted {msg : List UInt8} {l : List UInt8} (hl : IsLabel l) {rest : List UInt8} {t : Trail}
    (hat : msg.drop t.place = l.length.toUInt8 :: (l ++ rest)) :
    Hop msg t ⟨t.labels ++ [l], t.pointers, t.place + 1 + l.length⟩ := by
  have hlen := hl.toNat
  have hsize := congrArg List.length hat
  rw [List.length_drop, List.length_cons, List.length_append] at hsize
  have hfirst : msg[t.place]? = some l.length.toUInt8 := by
    rw [← Nat.add_zero t.place, ← List.getElem?_drop, hat]
    rfl
  have hbehind : msg.drop (t.place + 1) = l ++ rest := by
    rw [← List.drop_drop, hat]
    rfl
  have := @Hop.label msg t _ hfirst ?_ ?_ ?_
  · rwa [hlen, hbehind, List.take_left] at this
  · intro h0
    rw [h0] at hlen
    exact hl.1 (List.length_eq_zero_iff.1 hlen.symm)
  · rw [UInt8.le_iff_toNat_le, hlen]
    exact hl.2
  · rw [hlen]
    omega

/-- Labels in wire form are followed. -/
theorem comes_counted {msg : List UInt8} {ls : List (List UInt8)} (hls : ∀ l ∈ ls, IsLabel l) {rest : List UInt8}
    {t : Trail} (hat : msg.drop t.place = counted ls ++ rest) :
    Relation.ReflTransGen (Hop msg) t ⟨t.labels ++ ls, t.pointers, t.place + (counted ls).length⟩ := by
  induction ls generalizing t with
  | nil =>
    rw [List.append_nil]
    exact .refl
  | cons l ls ih =>
    have hcounted : counted (l :: ls) = l.length.toUInt8 :: (l ++ counted ls) := rfl
    rw [hcounted, List.cons_append, List.append_assoc] at hat
    have hnext := @ih (fun x hx => hls x (List.mem_cons_of_mem l hx)) ⟨t.labels ++ [l], t.pointers,
      t.place + 1 + l.length⟩ (by
      dsimp only
      rw [← List.drop_drop, ← List.drop_drop, hat, List.drop_succ_cons, List.drop_zero, List.drop_left])
    dsimp only at hnext
    rw [List.append_assoc, List.singleton_append] at hnext
    have hplace : t.place + (counted (l :: ls)).length = t.place + 1 + l.length + (counted ls).length := by
      rw [hcounted, List.length_cons, List.length_append]
      omega
    rw [hplace]
    exact .head (hop_counted (hls l List.mem_cons_self) hat) hnext

end JACLibc.Dns
