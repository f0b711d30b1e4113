import Mathlib.Computability.Language
import Mathlib.Order.CompletePartialOrder

/-!
# Parts of a list in a language

`Spans s L i j` says that the part of `s` from offset `i` up to `j` belongs to the language `L`.  Spans of a product are
adjacent spans of the factors.
-/

namespace Language

variable {α : Type*} {s : List α} {A B L : Language α} {i j k : Nat}

def Spans (s : List α) (L : Language α) (i j : Nat) : Prop := i ≤ j ∧ j ≤ s.length ∧ (s.take j).drop i ∈ L

theorem take_drop_append (hik : i ≤ k) (hkj : k ≤ j) :
    (s.take k).drop i ++ (s.take j).drop k = (s.take j).drop i := by
  obtain ⟨a, rfl⟩ := Nat.exists_eq_add_of_le hik
  obtain ⟨b, rfl⟩ := Nat.exists_eq_add_of_le hkj
  simp only [List.drop_take, show i + a - i = a by omega, show i + a + b - (i + a) = b by omega,
    show i + a + b - i = a + b by omega]
  rw [List.take_add, List.drop_drop]

theorem Spans.one (hi : i ≤ s.length) : Spans s (1 : Language α) i i :=
  ⟨le_rfl, hi, by simp⟩

theorem Spans.mul (h : Spans s A i k) (h' : Spans s B k j) : Spans s (A * B) i j := by
  obtain ⟨hik, -, hA⟩ := h
  obtain ⟨hkj, hj, hB⟩ := h'
  refine ⟨hik.trans hkj, hj, ?_⟩
  rw [← take_drop_append hik hkj]
  exact append_mem_mul hA hB

theorem Spans.mono (h : Spans s A i j) (hAB : A ≤ B) : Spans s B i j := ⟨h.1, h.2.1, hAB h.2.2⟩

/-- `p` is the smallest offset at which a part in the language begins. -/
def Leftmost (s : List α) (L : Language α) (p : Nat) : Prop :=
  (∃ j, Spans s L p j) ∧ ∀ q < p, ∀ j, ¬Spans s L q j

theorem exists_leftmost (h : ∃ i j, Spans s L i j) : ∃ p, Leftmost s L p := by
  classical
  exact ⟨Nat.find h, Nat.find_spec h, fun q hq j hj => Nat.find_min h hq ⟨j, hj⟩⟩

theorem Leftmost.le_length {p : Nat} (h : Leftmost s L p) : p ≤ s.length := by
  obtain ⟨⟨j, hpj, hj, -⟩, -⟩ := h
  exact hpj.trans hj

end Language
