import JACLibc.Format.Number

/-!
# `snprintf` with strings and numbers

`snprintf` with its arguments written out, each string at an address of its own, and the use that the builders of
messages make of it: a text is put into what is left of a buffer, or refused where it does not fit (`appendf`).  A
`%s` stops at `INT_MAX` characters, and the returned `int` is the length of the text modulo `2^32`, so that what is
accepted is the whole text only below `2^32`.  Where it is a string that does not fit there is no answer.
-/

namespace JACLibc

/-- An argument of `snprintf`. -/
inductive Arg
  | int (x : BitVec 64)
  | str (s : CString)

/-- The slot of the `i`-th argument; a string stands at the address `i + 1`. -/
def Arg.slot (i : Nat) : Arg → BitVec 64
  | int x => x
  | str _ => BitVec.ofNat 64 (i + 1)

/-- The strings at these addresses. -/
def strings (args : List Arg) (a : Nat) : CString :=
  match args[a - 1]? with
  | some (.str s) => s
  | _ => ⟨[], by simp⟩

/-- `snprintf` into the `n` bytes from `p` on. -/
def snprintf (mem : Nat → UInt8) (p n : Nat) (fmt : CString) (args : List Arg) : Option (Int × (Nat → UInt8)) :=
  vsnprintf (strings args) mem (some p) n fmt (args.mapIdx Arg.slot)

/-- `n = snprintf(p, rem, fmt, ...); if (n < 0 || (size_t)n >= rem) return 0;`: the `n` that was not refused, and the
memory. -/
def appendf (mem : Nat → UInt8) (p rem : Nat) (fmt : CString) (args : List Arg) : Option (Option Nat × (Nat → UInt8)) :=
  (snprintf mem p rem fmt args).map fun r => (if r.1 < 0 ∨ r.1.toNat ≥ rem then none else some r.1.toNat, r.2)

/-! ### Strings -/

/-- What `%s` prints of a string. -/
def CString.printed (s : CString) : List UInt8 := s.bytes.take (2 ^ 31 - 1)

theorem strSpan_eq (prec : Int) {s : List UInt8} (hs : 0 ∉ s) (slen : Nat) :
    strSpan prec s slen = slen + min s.length (prec - slen).toNat := by
  induction s generalizing slen with
  | nil => simp [strSpan]
  | cons c s ih =>
    simp only [List.mem_cons, not_or] at hs
    rw [strSpan]
    by_cases hlt : (slen : Int) < prec
    · rw [if_pos ⟨Ne.symm hs.1, hlt⟩, ih hs.2, List.length_cons]
      omega
    · rw [if_neg fun h => hlt h.2]
      omega

/-- A string, every character of which needs a place. -/
def Printed.str (bytes : List UInt8) : Printed := ⟨bytes, bytes.length⟩

private theorem strText_plain (s : CString) (prec : Int) :
    strText .zero s.bytes prec 0 = .str (s.bytes.take (if prec < 0 then INT_MAX else prec).toNat) := by
  have htake : ∀ n : Nat, s.bytes.take (min s.bytes.length n) = s.bytes.take n := by
    intro n
    rw [Nat.min_comm, ← List.take_eq_take_min]
  have hpad : ∀ n : Nat, (if (0 : Int) > n then (0 : Int) - n else 0) = 0 := by
    intro n
    rw [if_neg (by omega)]
  simp only [strText, strSpan_eq _ s.noNul, Nat.zero_add, Int.natCast_zero, Int.sub_zero, hpad, htake, Int.toNat_zero,
    List.replicate_zero, ite_self, Printed.append_nil, Printed.nil_append, Printed.str]

section Loop

variable (str : Nat → CString) (fuel : Nat) (w : Counted) (fmt : List UInt8) (ap : VaList)

theorem printfLoop_literals (cs : List UInt8) (h : asc '%' ∉ cs) :
    printfLoop str (cs.length + fuel) w (cs ++ fmt) ap = printfLoop str fuel (w.send cs) fmt ap := by
  induction cs generalizing w with
  | nil => simp [Counted.send, emit]
  | cons c cs ih =>
    simp only [List.mem_cons, not_or] at h
    have hadd : (c :: cs).length + fuel = cs.length + fuel + 1 := by
      rw [List.length_cons]
      omega
    rw [hadd, List.cons_append, printfLoop_literal _ _ _ _ _ (Ne.symm h.1), ih _ h.2, send_send]
    rfl

private theorem printfLoop_str (pre : List UInt8) {prec : Int} {ap' : VaList}
    (hpre : deref (pre ++ asc 's' :: fmt) ≠ asc '%')
    (hspec : specPrintf ap (pre ++ asc 's' :: fmt) = ⟨.zero, prec, 0, asc 's' :: fmt, ap'⟩) (hp : (vaArg ap').1 ≠ 0) :
    printfLoop str (fuel + 1) w (asc '%' :: (pre ++ asc 's' :: fmt)) ap =
      (w.print (.str ((str (vaArg ap').1.toNat).bytes.take (if prec < 0 then INT_MAX else prec).toNat))).bind fun w =>
        printfLoop str fuel w fmt ap'.tail := by
  have hp' : (vaArg ap').1.toNat ≠ 0 := by
    intro h0
    exact hp (BitVec.eq_of_toNat_eq h0)
  have hout : printfConv str w.2 ⟨.zero, prec, 0, asc 's' :: fmt, ap'⟩ =
      (Counted.print (0, w.2) (.str ((str (vaArg ap').1.toNat).bytes.take (if prec < 0 then INT_MAX
      else prec).toNat))).map fun w =>
        (w, ap'.tail) := by
    rw [← strText_plain, ← outputStr_eq]
    change printfStr str w.2 _ = _
    simp only [printfStr, if_neg hp']
    rfl
  rw [printfLoop, if_neg (by simp), if_neg hpre, print_count]
  simp only [hspec, hout, List.tail_cons]
  cases Counted.print (0, w.2) _ with
  | none => rfl
  | some r => rfl

theorem printfLoop_s (hp : (vaArg ap).1 ≠ 0) : printfLoop str (fuel + 1) w (asc '%' :: asc 's' :: fmt) ap =
    (w.print (.str (str (vaArg ap).1.toNat).printed)).bind fun w => printfLoop str fuel w fmt ap.tail :=
  printfLoop_str str fuel w fmt ap [] (show asc 's' ≠ asc '%' by decide) rfl hp

/-- `%.*s` with a precision that is negative as an `int` prints like `%s`. -/
theorem printfLoop_prec_s (hp : (vaArg ap.tail).1 ≠ 0) :
    printfLoop str (fuel + 1) w (asc '%' :: asc '.' :: asc '*' :: asc 's' :: fmt) ap =
      (w.print (.str ((str (vaArg ap.tail).1.toNat).bytes.take (if (vaInt ap).1 < 0 then INT_MAX
      else (vaInt ap).1).toNat))).bind
        fun w => printfLoop str fuel w fmt ap.tail.tail :=
  printfLoop_str str fuel w fmt ap [asc '.', asc '*'] (show asc '.' ≠ asc '%' by decide) rfl hp

end Loop

/-! ### What is put into a buffer -/

/-- What a format prints with its arguments. -/
def Prints (fmt : CString) (args : List Arg) (p : Printed) : Prop :=
  ∀ w, printfLoop (strings args) (fmt.bytes.length + 1) w fmt.bytes (args.mapIdx Arg.slot) = w.print p

/-- Literal characters, a string and literal characters. -/
def Printed.around (before s after : List UInt8) : Printed :=
  (Printed.plain before).append ((Printed.str s).append (.plain after))

theorem print_around (w : Counted) (before s after : List UInt8) :
    w.print (.around before s after) = ((w.send before).print (.str s)).bind fun w => some (w.send after) := by
  simp only [Printed.around, print_append, print_plain, Option.bind_some]

@[simp] theorem text_around (before s after : List UInt8) :
    (Printed.around before s after).text = before ++ s ++ after :=
  (List.append_assoc before s after).symm

/-- The place that is needed: none for an empty string. -/
theorem need_around (before s after : List UInt8) :
    (Printed.around before s after).need = if s = [] then 0 else before.length + s.length := by
  have hs : s.length = 0 ↔ s = [] := List.length_eq_zero_iff
  simp only [Printed.around, Printed.append, Printed.plain, Printed.str, if_true, Nat.zero_max, hs]

theorem need_around_le (before s after : List UInt8) :
    (Printed.around before s after).need ≤ (Printed.around before s after).text.length := by
  rw [need_around, text_around, List.length_append, List.length_append]
  split <;> omega

/-- One string with literal characters around it. -/
theorem prints_str (v : CString) {fmt : CString} {before after : List UInt8} (hbefore : asc '%' ∉ before)
    (hafter : asc '%' ∉ after) (hfmt : fmt.bytes = before ++ asc '%' :: asc 's' :: after) :
    Prints fmt [.str v] (.around before v.printed after) := by
  intro w
  have hlen : fmt.bytes.length + 1 = before.length + (after.length + 2 + 1) := by
    rw [hfmt, List.length_append, List.length_cons, List.length_cons, Nat.add_assoc]
  have hslots : [Arg.str v].mapIdx Arg.slot = [1] := rfl
  have hstr : strings [Arg.str v] (vaArg [1]).1.toNat = v := rfl
  rw [hlen, hfmt, printfLoop_literals _ _ _ _ _ _ hbefore, hslots,
    printfLoop_s _ _ _ _ _ (show (vaArg [1]).1 ≠ 0 by decide), hstr, print_around]
  refine Option.bind_congr fun w _ => ?_
  have hafter' := printfLoop_literals (strings [.str v]) 2 w [] [] _ hafter
  rw [List.append_nil] at hafter'
  exact hafter'

section Append

variable {fmt : CString} {args : List Arg} {p : Printed} (ht : Prints fmt args p) (mem : Nat → UInt8) (a rem : Nat)

include ht

/-- `snprintf` returns exactly if all characters of strings find a place. -/
theorem snprintf_eq : ∃ bs : List UInt8, bs.length ≤ rem ∧ (p.text.length < rem → bs = p.text ++ [0]) ∧
    snprintf mem a rem fmt args =
      if p.need ≤ rem - 1 then some (wrapInt p.text.length, storeBytes mem a bs) else none := by
  rcases Nat.eq_zero_or_pos rem with rfl | hrem
  · refine ⟨[], Nat.le_refl _, fun h => absurd h (Nat.not_lt_zero _), ?_⟩
    rw [storeBytes_nil, Nat.zero_sub, snprintf, vsnprintf_zero ht]
    exact if_congr Nat.le_zero.symm rfl rfl
  · refine ⟨p.text.take (rem - 1) ++ [0], ?_, ?_, vsnprintf_pos ht mem a hrem⟩
    · rw [List.length_append, List.length_take, List.length_singleton]
      omega
    · intro hfit
      rw [List.take_of_length_le (by omega)]

/-- A text of less than `2^32` characters is stored with its NUL where it fits, and else refused, as it is from `2^31`
characters on; but where a string does not fit the call does not return. -/
theorem appendf_eq (hlen : p.text.length < 2 ^ 32) : ∃ bs : List UInt8, bs.length ≤ rem ∧
    (p.text.length < rem → bs = p.text ++ [0]) ∧ appendf mem a rem fmt args = if p.need ≤ rem - 1 then
      some (if p.text.length < rem ∧ p.text.length < 2 ^ 31 then some p.text.length else none, storeBytes mem a bs)
      else none := by
  obtain ⟨bs, hbs, hfit, hprint⟩ := snprintf_eq ht mem a rem
  refine ⟨bs, hbs, hfit, ?_⟩
  rw [appendf, hprint]
  by_cases hroom : p.need ≤ rem - 1
  · rw [if_pos hroom, if_pos hroom, Option.map_some]
    by_cases hshort : p.text.length < 2 ^ 31
    · have hwrap : wrapInt p.text.length = p.text.length := wrapInt_of_le (by omega) (by unfold INT_MAX; omega)
      simp only [hwrap, Int.toNat_natCast]
      by_cases hrem : p.text.length < rem
      · rw [if_neg (by omega), if_pos ⟨hrem, hshort⟩]
      · rw [if_pos (.inr (Nat.not_lt.1 hrem)), if_neg (fun h => hrem h.1)]
    · have hwrap : wrapInt p.text.length < 0 := by
        unfold wrapInt
        rw [Int.bmod_def]
        omega
      have hrefused : wrapInt p.text.length < 0 ∨ (wrapInt p.text.length).toNat ≥ rem := .inl hwrap
      simp only [if_pos hrefused]
      rw [if_neg (fun h => hshort h.2)]
  · rw [if_neg hroom, if_neg hroom]
    rfl

end Append

/-! ### Buffers -/

/-- The buffer of `size` bytes has `text` at its start, and behind it nothing has changed. -/
structure Written (mem0 mem : Nat → UInt8) (size : Nat) (text : List UInt8) : Prop where
  fits : text.length ≤ size
  stored : ∀ i (h : i < text.length), mem i = text[i]
  beyond : ∀ a, size ≤ a → mem a = mem0 a

namespace Written

variable {mem0 mem : Nat → UInt8} {size : Nat} {text : List UInt8}

theorem empty (mem0 : Nat → UInt8) (size : Nat) : Written mem0 mem0 size [] :=
  ⟨Nat.zero_le _, fun _ h => absurd h (Nat.not_lt_zero _), fun _ _ => rfl⟩

/-- Bytes behind the text, of which the first are counted to it. -/
theorem store (h : Written mem0 mem size text) (bs tail : List UInt8)
    (hfit : text.length + (bs ++ tail).length ≤ size) :
    Written mem0 (storeBytes mem text.length (bs ++ tail)) size (text ++ bs) := by
  rw [List.length_append] at hfit
  refine ⟨by rw [List.length_append]; omega, fun i hi => ?_, fun a ha => ?_⟩
  · rw [List.length_append] at hi
    unfold storeBytes
    by_cases hlt : i < text.length
    · rw [if_neg (by omega), List.getElem_append_left hlt]
      exact h.stored i hlt
    · have hget : (bs ++ tail)[i - text.length]? = some bs[i - text.length] := by
        rw [List.getElem?_append_left (by omega), List.getElem?_eq_getElem (by omega)]
      rw [if_pos (by omega), List.getElem_append_right (by omega), hget]
      rfl
  · unfold storeBytes
    rw [if_pos (by omega), List.getElem?_eq_none (by rw [List.length_append]; omega)]
    exact h.beyond a ha

/-- Bytes behind the text that are not counted to it. -/
theorem scratch (h : Written mem0 mem size text) (bs : List UInt8) (hfit : text.length + bs.length ≤ size) :
    Written mem0 (storeBytes mem text.length bs) size text := by
  have := h.store [] bs hfit
  rwa [List.append_nil, List.nil_append] at this

end Written

end JACLibc
