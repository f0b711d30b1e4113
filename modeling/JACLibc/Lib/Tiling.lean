import Mathlib.Data.Set.Insert
import Mathlib.Logic.Function.Basic
import Mathlib.Order.Nat

/-!
# Tilings of address spans

A map `T` from addresses to blocks tiles a set of spans when every span begins with a block, every block of a span is
followed by another one or by the end of the span, and no two blocks overlap.  `len` gives the length of a block, at
least `m`.  Blocks may be relabelled, cut in two and merged with the next one, and a span with one block may be added.
-/

variable {β : Type*}

structure Tiling (len : β → Nat) (m : Nat) (S : Set (Nat × Nat)) (T : Nat → Option β) : Prop where
  min_le : ∀ {a b}, T a = some b → m ≤ len b
  apart : ∀ {a a' b b'}, T a = some b → T a' = some b' → a < a' → a + len b ≤ a'
  within : ∀ {a b}, T a = some b → ∃ I ∈ S, I.1 ≤ a ∧ a + len b ≤ I.2
  first : ∀ {I}, I ∈ S → ∃ b, T I.1 = some b ∧ I.1 + len b ≤ I.2
  next : ∀ {I a b}, I ∈ S → T a = some b → I.1 ≤ a → a + len b < I.2 → ∃ b', T (a + len b) = some b'
  unique : ∀ {I J x}, I ∈ S → J ∈ S → I.1 ≤ x → x < I.2 → J.1 ≤ x → x < J.2 → I = J

namespace Tiling

variable {len : β → Nat} {m : Nat} {S : Set (Nat × Nat)} {T T' : Nat → Option β} {a x : Nat} {b c d : β}

/-- A block that begins inside a span ends inside it. -/
theorem end_le (h : Tiling len m S T) (hm : 0 < m) {I : Nat × Nat} (hI : I ∈ S) (ha : T a = some b) (h1 : I.1 ≤ a)
    (h2 : a < I.2) : a + len b ≤ I.2 := by
  obtain ⟨J, hJ, h3, h4⟩ := h.within ha
  have h5 := h.min_le ha
  rw [h.unique hI hJ h1 h2 h3 (by omega)]
  exact h4

/-- Changes that keep every address and length. -/
theorem relabel (h : Tiling len m S T) (he : ∀ a, (T' a).map len = (T a).map len) : Tiling len m S T' := by
  have back : ∀ {a b}, T' a = some b → ∃ b', T a = some b' ∧ len b' = len b := by
    intro a b hb
    have := he a
    rw [hb, Option.map_some] at this
    exact Option.map_eq_some_iff.1 this.symm
  have forth : ∀ {a b}, T a = some b → ∃ b', T' a = some b' ∧ len b' = len b := by
    intro a b hb
    have := he a
    rw [hb, Option.map_some] at this
    exact Option.map_eq_some_iff.1 this
  constructor
  · intro a b hb
    obtain ⟨b', h1, h2⟩ := back hb
    exact h2 ▸ h.min_le h1
  · intro a a' b b' hb hb' hlt
    obtain ⟨c, h1, h2⟩ := back hb
    obtain ⟨c', h3, -⟩ := back hb'
    exact h2 ▸ h.apart h1 h3 hlt
  · intro a b hb
    obtain ⟨b', h1, h2⟩ := back hb
    exact h2 ▸ h.within h1
  · intro I hI
    obtain ⟨b, hb, hle⟩ := h.first hI
    obtain ⟨b', hb', e⟩ := forth hb
    exact ⟨b', hb', e ▸ hle⟩
  · intro I a b hI hb h1 h2
    obtain ⟨c, h3, h4⟩ := back hb
    rw [← h4] at h2 ⊢
    obtain ⟨c', h5⟩ := h.next hI h3 h1 h2
    obtain ⟨b', h6, -⟩ := forth h5
    exact ⟨b', h6⟩
  · exact h.unique

theorem update (h : Tiling len m S T) (ha : T a = some b) (hl : len c = len b) :
    Tiling len m S (Function.update T a (some c)) := by
  apply h.relabel
  intro x
  rcases eq_or_ne x a with rfl | hx
  · rw [Function.update_self, ha, Option.map_some, Option.map_some, hl]
  · rw [Function.update_of_ne hx]

/-- Where the blocks `y` and `z` of a map are changed, every block is the new one at `y`, the new one at `z`, or an old
one at another address. -/
private theorem update_update_cases {y z : Nat} {e : β} {o p : Option β}
    (he : Function.update (Function.update T z o) y p a = some e) :
    (a = y ∧ p = some e) ∨ (a ≠ y ∧ a = z ∧ o = some e) ∨ (a ≠ y ∧ a ≠ z ∧ T a = some e) := by
  rcases eq_or_ne a y with rfl | hy
  · rw [Function.update_self] at he
    exact Or.inl ⟨rfl, he⟩
  · rw [Function.update_of_ne hy] at he
    rcases eq_or_ne a z with rfl | hz
    · rw [Function.update_self] at he
      exact Or.inr (Or.inl ⟨hy, rfl, he⟩)
    · rw [Function.update_of_ne hz] at he
      exact Or.inr (Or.inr ⟨hy, hz, he⟩)

/-- Two blocks that follow each other become one. -/
theorem merge (h : Tiling len m S T) (hm : 0 < m) {I : Nat × Nat} (hI : I ∈ S) (hx : T x = some b) (h1 : I.1 ≤ x)
    (hy : T (x + len b) = some c) (h2 : x + len b < I.2) (hd : len d = len b + len c) :
    Tiling len m S (Function.update (Function.update T (x + len b) none) x (some d)) := by
  have hb := h.min_le hx
  have hc := h.min_le hy
  have hend := h.end_le hm hI hy (by omega) h2
  -- a block of the new map is the merged one, or an old one away from both
  have cases : ∀ {a e}, Function.update (Function.update T (x + len b) none) x (some d) a = some e →
      (a = x ∧ d = e) ∨ (a ≠ x ∧ a ≠ x + len b ∧ T a = some e) := by
    intro a e he
    rcases update_update_cases he with ⟨h3, h4⟩ | ⟨-, -, h4⟩ | h3
    · exact Or.inl ⟨h3, Option.some.inj h4⟩
    · cases h4
    · exact Or.inr h3
  have other : ∀ {a e}, a ≠ x + len b → T a = some e →
      ∃ e', Function.update (Function.update T (x + len b) none) x (some d) a = some e' := by
    intro a e hay he
    rcases eq_or_ne a x with rfl | hax
    · exact ⟨d, Function.update_self _ _ _⟩
    · exact ⟨e, by rw [Function.update_of_ne hax, Function.update_of_ne hay, he]⟩
  constructor
  · intro a e he
    rcases cases he with ⟨-, rfl⟩ | ⟨-, -, ho⟩
    · omega
    · exact h.min_le ho
  · intro a a' e e' he he' hlt
    rcases cases he with ⟨ha, hde⟩ | ⟨-, -, ho⟩
    · subst ha hde
      rcases cases he' with ⟨ha', -⟩ | ⟨-, hay, ho'⟩
      · omega
      · have h3 := h.apart hx ho' hlt
        have h4 := h.apart hy ho' (by omega)
        omega
    · rcases cases he' with ⟨ha', -⟩ | ⟨-, -, ho'⟩
      · exact ha' ▸ h.apart ho hx (ha' ▸ hlt)
      · exact h.apart ho ho' hlt
  · intro a e he
    rcases cases he with ⟨ha, hde⟩ | ⟨-, -, ho⟩
    · subst ha hde
      exact ⟨I, hI, h1, by omega⟩
    · exact h.within ho
  · intro J hJ
    obtain ⟨e, he, hle⟩ := h.first hJ
    have h3 := h.min_le he
    have hne : J.1 ≠ x + len b := by
      intro hJx
      have hIJ := h.unique hI hJ (by omega : I.1 ≤ x + len b) h2 (by omega) (by omega)
      rw [hIJ] at h1
      omega
    rcases eq_or_ne J.1 x with hJx | hJx
    · have hIJ := h.unique hI hJ h1 (by omega) (by omega) (by omega)
      rw [← hJx, Function.update_self]
      exact ⟨d, rfl, by rw [← hIJ]; rw [← hIJ] at hJx; omega⟩
    · rw [Function.update_of_ne hJx, Function.update_of_ne hne]
      exact ⟨e, he, hle⟩
  · intro J a e hJ he hJa hlt
    rcases cases he with ⟨ha, hde⟩ | ⟨hax, hay, ho⟩
    · subst ha hde
      have hIJ := h.unique hI hJ h1 (by omega) hJa (by omega)
      rw [← hIJ] at hlt
      obtain ⟨e', he'⟩ := h.next hI hy (by omega) (by omega)
      rw [hd, ← Nat.add_assoc]
      exact other (by omega) he'
    · obtain ⟨e', he'⟩ := h.next hJ ho hJa hlt
      apply other _ he'
      intro hae
      have h3 := h.min_le ho
      rcases lt_or_gt_of_ne hax with h4 | h4
      · have := h.apart ho hx h4
        omega
      · have := h.apart hx ho h4
        omega
  · exact h.unique

/-- A block is cut in two. -/
theorem split (h : Tiling len m S T) (hm : 0 < m) (hx : T x = some b) (hl : len b = len c + len d) (hc : m ≤ len c)
    (hd : m ≤ len d) :
    Tiling len m S (Function.update (Function.update T x (some c)) (x + len c) (some d)) := by
  -- no block begins inside the one that is cut
  have gap : ∀ {a e}, T a = some e → a ≠ x → a + len e ≤ x ∨ x + len b ≤ a := by
    intro a e he hax
    rcases lt_or_gt_of_ne hax with h3 | h3
    · exact Or.inl (h.apart he hx h3)
    · exact Or.inr (h.apart hx he h3)
  have cases : ∀ {a e}, Function.update (Function.update T x (some c)) (x + len c) (some d) a = some e →
      (a = x + len c ∧ d = e) ∨ (a = x ∧ c = e) ∨ (a ≠ x ∧ T a = some e) := by
    intro a e he
    rcases update_update_cases he with ⟨h3, h4⟩ | ⟨-, h3, h4⟩ | ⟨-, h3, h4⟩
    · exact Or.inl ⟨h3, Option.some.inj h4⟩
    · exact Or.inr (Or.inl ⟨h3, Option.some.inj h4⟩)
    · exact Or.inr (Or.inr ⟨h3, h4⟩)
  have other : ∀ {a e}, T a = some e → ∃ e', len e' ≤ len e ∧
      Function.update (Function.update T x (some c)) (x + len c) (some d) a = some e' := by
    intro a e he
    rcases eq_or_ne a x with rfl | hax
    · have hec : e = b := Option.some.inj (he.symm.trans hx)
      exact ⟨c, by rw [hec]; omega, by rw [Function.update_of_ne (by omega), Function.update_self]⟩
    · have hne : a ≠ x + len c := by
        intro h3
        have := h.min_le he
        rcases gap he hax with h4 | h4 <;> omega
      exact ⟨e, le_rfl, by rw [Function.update_of_ne hne, Function.update_of_ne hax, he]⟩
  constructor
  · intro a e he
    rcases cases he with ⟨-, rfl⟩ | ⟨-, rfl⟩ | ⟨-, ho⟩
    · exact hd
    · exact hc
    · exact h.min_le ho
  · intro a a' e e' he he' hlt
    rcases cases he with ⟨ha, hde⟩ | ⟨ha, hde⟩ | ⟨hax, ho⟩ <;>
      rcases cases he' with ⟨ha', hde'⟩ | ⟨ha', hde'⟩ | ⟨hax', ho'⟩
    · omega
    · omega
    · rcases gap ho' hax' with h3 | h3 <;> rw [← hde] <;> omega
    · rw [← hde]; omega
    · omega
    · rcases gap ho' hax' with h3 | h3 <;> rw [← hde] <;> omega
    · rcases gap ho hax with h3 | h3 <;> omega
    · rcases gap ho hax with h3 | h3 <;> omega
    · exact h.apart ho ho' hlt
  · intro a e he
    obtain ⟨I, hI, h3, h4⟩ := h.within hx
    rcases cases he with ⟨ha, hde⟩ | ⟨ha, hde⟩ | ⟨-, ho⟩
    · exact ⟨I, hI, by omega, by rw [← hde]; omega⟩
    · exact ⟨I, hI, by omega, by rw [← hde]; omega⟩
    · exact h.within ho
  · intro I hI
    obtain ⟨e, he, hle⟩ := h.first hI
    obtain ⟨e', h3, h4⟩ := other he
    exact ⟨e', h4, by omega⟩
  · intro I a e hI he hIa hlt
    rcases cases he with ⟨ha, hde⟩ | ⟨ha, hde⟩ | ⟨-, ho⟩
    · subst ha hde
      obtain ⟨J, hJ, h3, h4⟩ := h.within hx
      have hIJ := h.unique hI hJ hIa (by omega) (by omega) (by omega)
      obtain ⟨e', he'⟩ := h.next hJ hx h3 (by rw [hIJ] at hlt; omega)
      obtain ⟨e'', -, h5⟩ := other he'
      rw [hl, ← Nat.add_assoc] at h5
      exact ⟨e'', h5⟩
    · subst ha hde
      exact ⟨d, Function.update_self _ _ _⟩
    · obtain ⟨e', he'⟩ := h.next hI ho hIa hlt
      obtain ⟨e'', -, h5⟩ := other he'
      exact ⟨e'', h5⟩
  · exact h.unique

/-- A new span that holds one block. -/
theorem grow (h : Tiling len m S T) (hm : 0 < m) {lo : Nat} (hb : m ≤ len b)
    (hS : ∀ I ∈ S, I.2 ≤ lo ∨ lo + len b ≤ I.1) :
    Tiling len m (insert (lo, lo + len b) S) (Function.update T lo (some b)) := by
  have away : ∀ {a e}, T a = some e → a + len e ≤ lo ∨ lo + len b ≤ a := by
    intro a e he
    obtain ⟨I, hI, h3, h4⟩ := h.within he
    rcases hS I hI with h5 | h5 <;> omega
  have cases : ∀ {a e}, Function.update T lo (some b) a = some e → (a = lo ∧ b = e) ∨ T a = some e := by
    intro a e he
    rcases eq_or_ne a lo with rfl | ha
    · rw [Function.update_self] at he
      exact Or.inl ⟨rfl, Option.some.inj he⟩
    · rw [Function.update_of_ne ha] at he
      exact Or.inr he
  have other : ∀ {a e}, T a = some e → Function.update T lo (some b) a = some e := by
    intro a e he
    have h3 := h.min_le he
    rw [Function.update_of_ne, he]
    rcases away he with h4 | h4 <;> omega
  constructor
  · intro a e he
    rcases cases he with ⟨-, rfl⟩ | ho
    · exact hb
    · exact h.min_le ho
  · intro a a' e e' he he' hlt
    rcases cases he with ⟨ha, hbe⟩ | ho <;> rcases cases he' with ⟨ha', hbe'⟩ | ho'
    · omega
    · rw [← hbe]
      rcases away ho' with h3 | h3 <;> omega
    · rcases away ho with h3 | h3 <;> omega
    · exact h.apart ho ho' hlt
  · intro a e he
    rcases cases he with ⟨ha, hbe⟩ | ho
    · exact ⟨_, Set.mem_insert _ _, by simp [ha], by simp [ha, hbe]⟩
    · obtain ⟨I, hI, h3⟩ := h.within ho
      exact ⟨I, Set.mem_insert_of_mem _ hI, h3⟩
  · intro I hI
    rcases hI with rfl | hI
    · exact ⟨b, Function.update_self _ _ _, le_rfl⟩
    · obtain ⟨e, he, hle⟩ := h.first hI
      exact ⟨e, other he, hle⟩
  · intro I a e hI he hIa hlt
    rcases cases he with ⟨ha, hbe⟩ | ho <;> rcases hI with rfl | hI
    · simp only [ha, hbe] at hlt
      omega
    · have h3 := hS I hI
      rw [ha, ← hbe] at hlt
      omega
    · have h3 := away ho
      have h4 := h.min_le ho
      simp only at hIa hlt
      omega
    · obtain ⟨e', he'⟩ := h.next hI ho hIa hlt
      exact ⟨e', other he'⟩
  · intro I J x hI hJ h1 h2 h3 h4
    rcases hI with rfl | hI <;> rcases hJ with rfl | hJ
    · rfl
    · have h5 := hS J hJ
      simp only at h1 h2
      omega
    · have h5 := hS I hI
      simp only at h3 h4
      omega
    · exact h.unique hI hJ h1 h2 h3 h4

/-- A block that does not begin its span has one right before it. -/
theorem exists_prev (h : Tiling len m S T) (hm : 0 < m) {I : Nat × Nat} (hI : I ∈ S) (ha : T a = some b) (h1 : I.1 < a)
    (h2 : a < I.2) : ∃ x c, I.1 ≤ x ∧ T x = some c ∧ x + len c = a := by
  -- walk from the first block: the next block is never behind `a`
  have key : ∀ k x c, a - x = k → I.1 ≤ x → x < a → T x = some c → ∃ y d, I.1 ≤ y ∧ T y = some d ∧ y + len d = a := by
    intro k
    induction k using Nat.strong_induction_on with
    | _ k ih =>
      intro x c hk hx hxa hc
      have h3 := h.apart hc ha hxa
      have h4 := h.min_le hc
      rcases eq_or_lt_of_le h3 with h5 | h5
      · exact ⟨x, c, hx, hc, h5⟩
      · obtain ⟨c', hc'⟩ := h.next hI hc hx (by omega)
        exact ih _ (by omega) (x + len c) c' rfl (by omega) h5 hc'
  obtain ⟨c, hc, -⟩ := h.first hI
  exact key _ I.1 c rfl le_rfl h1 hc

end Tiling
