import JACLibc.Format.Number
import JACLibc.Net.Inet

/-!
# IPv4 addresses as text

`Ip4Text` is the grammar of dotted decimal addresses.  `inet_pton` takes all of them, and besides the texts with a
number in them that `strtoul` reads though it is not one to three digits (`StrayIp4`).
-/

namespace JACLibc.Inet

/-- The texts `ts` with `sep` between them. -/
def joined (sep : UInt8) : List (List UInt8) → List UInt8
  | [] => []
  | [t] => t
  | t :: ts => t ++ sep :: joined sep ts

/-- A decimal number of one to three digits, at most 255. -/
structure IsDecimal (t : List UInt8) : Prop where
  nonempty : t ≠ []
  short : t.length ≤ 3
  digits : ∀ c ∈ t, isdigit c
  le : horner 10 0 t ≤ 255

def Ip4Text (s : List UInt8) : Prop := ∃ ts, ts.length = 4 ∧ (∀ t ∈ ts, IsDecimal t) ∧ s = joined (asc '.') ts

/-! ### What is taken -/

/-- `strtoul` takes `t` off the front of `t ++ rest` as a number that fits a byte. -/
structure TakesByte (t rest : List UInt8) : Prop where
  nonempty : t ≠ []
  all : (strtoul (t ++ rest) 10).endptr = t.length
  le : (strtoul (t ++ rest) 10).val ≤ 255

variable {s t : List UInt8} {ts : List (List UInt8)}

/-! ### Numbers in front of dots -/

theorem joined_cons (sep : UInt8) (t : List UInt8) (h : ts ≠ []) :
    joined sep (t :: ts) = t ++ sep :: joined sep ts := by
  cases ts with
  | nil => exact absurd rfl h
  | cons t' ts => rfl

theorem isDigitOf_dec {c : UInt8} (h : isdigit c) : IsDigitOf 10 c := by
  revert h
  apply forall_byte (c := c)
  decide +kernel

/-- At most three digits in front of a dot or the end. -/
private theorem strtoul_decimal {rest : List UInt8} (hne : t ≠ []) (hshort : t.length ≤ 3)
    (hdigits : ∀ c ∈ t, isdigit c) (hrest : EndsNumber 10 rest) :
    strtoul (t ++ rest) 10 = ⟨horner 10 0 t, t.length, false⟩ := by
  have hdigits' := fun c hc => isDigitOf_dec (hdigits c hc)
  have hval : horner 10 0 t < 10 ^ 3 := by
    have hlt := @horner_lt 10 t 0 hdigits'
    have hpow : 10 ^ t.length ≤ 10 ^ 3 := Nat.pow_le_pow_right (by decide) hshort
    omega
  obtain ⟨c, cs, rfl⟩ := List.exists_cons_of_ne_nil hne
  rw [List.length_cons] at hshort
  exact strtoul_digits (by decide) hdigits' hrest (fun h => absurd h (by decide)) (by unfold INT_MAX; omega)
    (by unfold UINTMAX_MAX; omega)

private theorem IsDecimal.takes {rest : List UInt8} (h : IsDecimal t) (hrest : EndsNumber 10 rest) :
    TakesByte t rest := by
  have hread := strtoul_decimal h.nonempty h.short h.digits hrest
  exact ⟨h.nonempty, by rw [hread], by rw [hread]; exact h.le⟩

private theorem TakesByte.decimal {rest : List UInt8} (h : TakesByte t rest) (hrest : EndsNumber 10 rest)
    (hshort : t.length ≤ 3) (hdigits : ∀ c ∈ t, isdigit c) : IsDecimal t := by
  have hle := h.le
  rw [strtoul_decimal h.nonempty hshort hdigits hrest] at hle
  exact ⟨h.nonempty, hshort, hdigits, hle⟩

end JACLibc.Inet
