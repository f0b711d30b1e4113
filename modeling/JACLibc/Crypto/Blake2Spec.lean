import JACLibc.Crypto.Blake2
import JACLibc.Lib.Bytes
import Mathlib.Tactic.Ring

/-!
# BLAKE2 of a message in pieces

The blocks that RFC 7693 compresses for a message, `rfcCalls`, and the blocks that the context compresses while it
reads the message in pieces.  A context keeps at least one byte of the message back in its buffer, so that the last
block is compressed by `final` only (`Absorbed`).
-/

namespace JACLibc.Blake2

/-- A number as the two words of a counter. -/
def counter (w n : Nat) : Pair w := (BitVec.ofNat w n, BitVec.ofNat w (n / 2 ^ w))

/-- The first `k` blocks of `n` bytes of the data, none of them the last one. -/
def blockCalls (w n k : Nat) (data : List UInt8) : List (Call w) :=
  (List.range k).map fun i => ⟨counter w ((i + 1) * n), (0, 0), (data.drop (i * n)).take n⟩

/-- The compressions of RFC 7693: the blocks of `n` bytes with the bytes so far, and the last one (an empty one if
there is no data) filled up with zeros, with the length of the data and `f[0]` all ones. -/
def rfcCalls (w n : Nat) (data : List UInt8) : List (Call w) :=
  let k := (data.length - 1) / n
  blockCalls w n k data ++
    [⟨counter w data.length, (-1, 0), data.drop (k * n) ++ List.replicate ((k + 1) * n - data.length) 0⟩]

/-- The data of RFC 7693: the key, if there is one, as a block of its own, and the message. -/
def rfcData (n : Nat) (key : List UInt8) (m : List UInt8) : List UInt8 :=
  if key = [] then m else key ++ List.replicate (n - key.length) 0 ++ m

theorem blockCalls_succ (w n k : Nat) (data : List UInt8) :
    blockCalls w n (k + 1) data = blockCalls w n k data ++
    [⟨counter w ((k + 1) * n), (0, 0), (data.drop (k * n)).take n⟩] := by
  unfold blockCalls
  rw [List.range_succ, List.map_append]
  rfl

theorem blockCalls_append {w n k : Nat} {data : List UInt8} (hk : k * n ≤ data.length) (rest : List UInt8) :
    blockCalls w n k (data ++ rest) = blockCalls w n k data := by
  unfold blockCalls
  apply List.map_congr_left
  intro i hi
  have hle : i * n + n ≤ data.length := by
    have := Nat.mul_le_mul_right n (show i + 1 ≤ k from List.mem_range.1 hi)
    rw [Nat.succ_mul] at this
    omega
  rw [List.drop_append_of_le_length (by omega), List.take_append_of_le_length (by rw [List.length_drop]; omega)]

/-! ### The counter -/

theorem count_counter {w : Nat} {v : Variant w} {ctx : Ctx v} {a n : Nat} (ht : ctx.t = counter w a) (hn : n < 2 ^ w) :
    (ctx.count n).t = counter w (a + n) := by
  have hpos : 0 < 2 ^ w := Nat.two_pow_pos w
  have hmod : (a + n) % 2 ^ w = if a % 2 ^ w + n < 2 ^ w then a % 2 ^ w + n else a % 2 ^ w + n - 2 ^ w := by
    have ha := Nat.mod_lt a hpos
    rw [Nat.add_mod, Nat.mod_eq_of_lt hn]
    split
    · exact Nat.mod_eq_of_lt ‹_›
    · rw [Nat.mod_eq_sub_mod (by omega), Nat.mod_eq_of_lt (by omega)]
  have hdiv : (a + n) / 2 ^ w = if a % 2 ^ w + n < 2 ^ w then a / 2 ^ w else a / 2 ^ w + 1 := by
    rw [Nat.add_div hpos, Nat.div_eq_of_lt hn, Nat.mod_eq_of_lt hn]
    split <;> split <;> omega
  unfold Ctx.count counter
  simp only [ht, counter, ← BitVec.ofNat_add, BitVec.toNat_ofNat, hmod, hdiv]
  have ha := Nat.mod_lt a hpos
  by_cases hcarry : a % 2 ^ w + n < 2 ^ w
  · rw [if_pos hcarry, if_neg (by omega), if_pos hcarry]
  · rw [if_neg hcarry, if_pos (by omega), if_neg hcarry, BitVec.ofNat_add (a / 2 ^ w) 1]
    rfl

section Streaming

variable {w : Nat} {v : Variant w} {h₀ : State w} {ctx : Ctx v} {whole tail : List UInt8} {k : Nat}

/-- The chaining value after compressions from `h₀` on. -/
def chain (v : Variant w) (h₀ : State w) (calls : List (Call w)) : State w :=
  calls.foldl (fun h c => v.compress h c.t c.f c.block) h₀

theorem chain_concat (v : Variant w) (h₀ : State w) (calls : List (Call w)) (c : Call w) :
    chain v h₀ (calls ++ [c]) = v.compress (chain v h₀ calls) c.t c.f c.block := by
  unfold chain
  rw [List.foldl_append]
  rfl

/-- The context after the data `whole ++ tail`: the blocks of `whole` are compressed and `tail` is in the buffer. -/
structure Absorbed (h₀ : State w) (ctx : Ctx v) (k : Nat) (whole tail : List UInt8) : Prop where
  length : whole.length = k * v.block
  short : tail.length ≤ v.block
  kept : tail = [] → whole = []
  buflen : ctx.buflen = tail.length
  front : tail <+: ctx.buf
  t : ctx.t = counter w whole.length
  f : ctx.f = (0, 0)
  calls : ctx.calls = blockCalls w v.block k whole
  h : ctx.h = chain v h₀ ctx.calls

/-- The context when a block has been compressed and more of the input is to come. -/
structure Between (h₀ : State w) (ctx : Ctx v) (k : Nat) (whole : List UInt8) : Prop where
  length : whole.length = k * v.block
  buflen : ctx.buflen = 0
  t : ctx.t = counter w whole.length
  f : ctx.f = (0, 0)
  calls : ctx.calls = blockCalls w v.block k whole
  h : ctx.h = chain v h₀ ctx.calls

/-- The block sizes fit into the words of the counter. -/
def Variant.Fits (v : Variant w) : Prop := v.block < 2 ^ w

theorem blockCalls_concat {n : Nat} (hwhole : whole.length = k * n) {b : List UInt8} (hb : b.length = n) :
    blockCalls w n (k + 1) (whole ++ b) = blockCalls w n k whole ++ [⟨counter w (whole.length + n), (0, 0), b⟩] := by
  rw [blockCalls_succ, blockCalls_append (Nat.le_of_eq hwhole.symm), ← hwhole, List.drop_left,
    List.take_of_length_le (Nat.le_of_eq hb), Nat.succ_mul, ← hwhole]

/-- A block that is not the last one is counted and compressed. -/
theorem Between.block (hv : v.Fits) (hc : Between h₀ ctx k whole) {b : List UInt8} (hb : b.length = v.block) :
    Between h₀ ((ctx.count v.block).compress b) (k + 1) (whole ++ b) := by
  have ht := count_counter hc.t hv
  have hcalls : ((ctx.count v.block).compress b).calls = blockCalls w v.block (k + 1) (whole ++ b) := by
    rw [blockCalls_concat hc.length hb, ← hc.calls, ← ht, ← hc.f]
    rfl
  refine ⟨by rw [List.length_append, hc.length, hb, Nat.succ_mul], hc.buflen, ?_, hc.f, hcalls, ?_⟩
  · rw [List.length_append, hb]
    exact ht
  · change v.compress ctx.h (ctx.count v.block).t ctx.f b =
      chain v h₀ (ctx.calls ++ [⟨(ctx.count v.block).t, ctx.f, b⟩])
    rw [chain_concat, ← hc.h]

/-- The loop over whole blocks leaves between one byte and a block of its input. -/
theorem Between.bulk (hv : v.Fits) (turns : Nat) :
    ∀ {ctx : Ctx v} {k : Nat} {whole pin : List UInt8}, Between h₀ ctx k whole → pin.length ≤ turns → pin ≠ [] →
      ∃ k' whole', whole' ++ (bulk turns ctx pin).2 = whole ++ pin ∧ (bulk turns ctx pin).2 ≠ [] ∧
        (bulk turns ctx pin).2.length ≤ v.block ∧ Between h₀ (bulk turns ctx pin).1 k' whole' := by
  induction turns with
  | zero =>
    intro ctx k whole pin _ hle hne
    exact absurd (List.length_eq_zero_iff.1 (Nat.le_zero.1 hle)) hne
  | succ turns ih =>
    intro ctx k whole pin hc hle hne
    have hpos := v.block_pos
    rw [Blake2.bulk]
    by_cases hmore : pin.length > v.block
    · rw [if_pos hmore]
      have hb : (pin.take v.block).length = v.block := List.length_take_of_le (by omega)
      have hle' : (pin.drop v.block).length ≤ turns := by
        rw [List.length_drop]
        omega
      obtain ⟨k', whole', heq, hrest⟩ := ih (hc.block hv hb) hle'
        (by intro hnil; have := congrArg List.length hnil; rw [List.length_drop, List.length_nil] at this; omega)
      exact ⟨k', whole', by rw [heq, List.append_assoc, List.take_append_drop], hrest⟩
    · rw [if_neg hmore]
      exact ⟨k, whole, rfl, hne, Nat.not_lt.1 hmore, hc⟩

/-- What is left of the input goes into the empty buffer. -/
theorem Between.keep (hc : Between h₀ ctx k whole) {pin : List UInt8} (hne : pin ≠ []) (hpin : pin.length ≤ v.block) :
    Absorbed h₀ (ctx.append pin) k whole pin where
  length := hc.length
  short := hpin
  kept hnil := absurd hnil hne
  buflen := by
    change ctx.buflen + pin.length = _
    rw [hc.buflen, Nat.zero_add]
  front := by
    have hfits : pin.length ≤ ctx.buf.length := by
      rw [ctx.length_buf]
      exact hpin
    have hwrite : Buffer.write ([] ++ ctx.buf) ([] : List UInt8).length pin = _ := Buffer.write_front hfits
    rw [List.nil_append, List.nil_append, List.length_nil] at hwrite
    change pin <+: Buffer.write ctx.buf ctx.buflen pin
    rw [hc.buflen, hwrite]
    exact List.prefix_append _ _
  t := hc.t
  f := hc.f
  calls := hc.calls
  h := hc.h

/-- An input that does not fit into the buffer completes it, and is compressed but for between one byte and a block. -/
theorem Absorbed.overflow (hv : v.Fits) (hc : Absorbed h₀ ctx k whole tail) {pin : List UInt8}
    (hover : pin.length > v.block - tail.length) :
    ∃ k' whole', whole' ++ (overflow ctx pin).2 = whole ++ tail ++ pin ∧ (overflow ctx pin).2 ≠ [] ∧
      (overflow ctx pin).2.length ≤ v.block ∧ Between h₀ (overflow ctx pin).1 k' whole' := by
  obtain ⟨rest, hrest⟩ := hc.front
  have hlength : tail.length + rest.length = v.block := by rw [← ctx.length_buf, ← hrest, List.length_append]
  obtain ⟨front, hfront⟩ : ∃ front, pin.take (v.block - tail.length) = front := ⟨_, rfl⟩
  have hfill : front.length = v.block - tail.length := by
    rw [← hfront, List.length_take]
    omega
  have hbuf : Buffer.write ctx.buf tail.length front = tail ++ front := by
    rw [← hrest, Buffer.write_front (by omega), List.drop_of_length_le (by omega), List.append_nil]
  have hb : (tail ++ front).length = v.block := by
    rw [List.length_append]
    omega
  have hbetween : Between h₀ ({ ctx with buflen := 0 }.write tail.length front) k whole :=
    ⟨hc.length, rfl, hc.t, hc.f, hc.calls, hc.h⟩
  have hblock := hbetween.block hv hb
  rw [← hbuf] at hblock
  have hdrop : (pin.drop (v.block - tail.length)).length = pin.length - (v.block - tail.length) := List.length_drop
  obtain ⟨k', whole', heq, hrest⟩ :=
    hblock.bulk hv pin.length (show (pin.drop (v.block - tail.length)).length ≤ pin.length by omega)
    (List.ne_nil_of_length_pos (by omega))
  unfold Blake2.overflow
  simp only [hc.buflen, hfront]
  refine ⟨k', whole', ?_, hrest⟩
  calc whole' ++ _ = whole ++ Buffer.write ctx.buf tail.length front ++ pin.drop (v.block - tail.length) := heq
    _ = whole ++ tail ++ (pin.take (v.block - tail.length) ++ pin.drop (v.block - tail.length)) := by
      rw [hbuf, hfront]; simp
    _ = whole ++ tail ++ pin := by rw [List.take_append_drop]

/-- An input that fits is only stored. -/
theorem Absorbed.append (hc : Absorbed h₀ ctx k whole tail) {pin : List UInt8} (hne : pin ≠ [])
    (hfits : tail.length + pin.length ≤ v.block) : Absorbed h₀ (ctx.append pin) k whole (tail ++ pin) where
  length := hc.length
  short := by rw [List.length_append]; exact hfits
  kept hnil := absurd (List.append_eq_nil_iff.1 hnil).2 hne
  buflen := by
    change ctx.buflen + pin.length = _
    rw [hc.buflen, List.length_append]
  front := by
    obtain ⟨rest, hrest⟩ := hc.front
    have hlength : tail.length + rest.length = v.block := by rw [← ctx.length_buf, ← hrest, List.length_append]
    change tail ++ pin <+: Buffer.write ctx.buf ctx.buflen pin
    rw [hc.buflen, ← hrest, Buffer.write_front (by omega)]
    exact List.prefix_append _ _
  t := hc.t
  f := hc.f
  calls := hc.calls
  h := hc.h

theorem Absorbed.update (hv : v.Fits) (hc : Absorbed h₀ ctx k whole tail) (pin : List UInt8) :
    ∃ k' whole' tail', whole' ++ tail' = whole ++ tail ++ pin ∧ Absorbed h₀ (update ctx pin) k' whole' tail' := by
  have hshort := hc.short
  unfold Blake2.update
  by_cases hne : pin = []
  · subst hne
    exact ⟨k, whole, tail, by simp, by simpa using hc⟩
  · rw [if_pos (List.length_pos_iff.2 hne), hc.buflen]
    by_cases hover : pin.length > v.block - tail.length
    · rw [if_pos hover]
      obtain ⟨k', whole', heq, hne', hle, hbetween⟩ := hc.overflow hv hover
      exact ⟨k', whole', _, heq, hbetween.keep hne' hle⟩
    · rw [if_neg hover]
      exact ⟨k, whole, tail ++ pin, (List.append_assoc ..).symm, hc.append hne (by omega)⟩

theorem Absorbed.updates (hv : v.Fits) (pieces : List (List UInt8)) :
    ∀ {ctx : Ctx v} {k : Nat} {whole tail : List UInt8}, Absorbed h₀ ctx k whole tail →
      ∃ k' whole' tail', whole' ++ tail' = whole ++ tail ++ pieces.flatten ∧
      Absorbed h₀ (pieces.foldl Blake2.update ctx) k' whole' tail' := by
  induction pieces with
  | nil =>
    intro ctx k whole tail hc
    exact ⟨k, whole, tail, by simp, hc⟩
  | cons pin pieces ih =>
    intro ctx k whole tail hc
    obtain ⟨k₁, whole₁, tail₁, heq₁, hc₁⟩ := hc.update hv pin
    obtain ⟨k₂, whole₂, tail₂, heq₂, hc₂⟩ := ih hc₁
    exact ⟨k₂, whole₂, tail₂, by rw [heq₂, heq₁]; simp, hc₂⟩

/-- All blocks but the last have been compressed when `final` is called. -/
theorem Absorbed.blocks (hc : Absorbed h₀ ctx k whole tail) : ((whole ++ tail).length - 1) / v.block = k := by
  have hpos := v.block_pos
  have hshort := hc.short
  rw [List.length_append, hc.length]
  by_cases hnil : tail = []
  · have hwhole : k * v.block = 0 := by rw [← hc.length, hc.kept hnil, List.length_nil]
    have hk : k = 0 := (Nat.mul_eq_zero.1 hwhole).resolve_right (by omega)
    subst hk
    simp [hnil]
  · have hlen := List.length_pos_iff.2 hnil
    rw [Nat.add_sub_assoc hlen, Nat.mul_comm, Nat.mul_add_div hpos, Nat.div_eq_of_lt (by omega), Nat.add_zero]

/-- `final` compresses what is left, filled up with zeros, as the last block. -/
theorem Absorbed.final (hv : v.Fits) (hc : Absorbed h₀ ctx k whole tail) :
    (final ctx).2 = rfcCalls w v.block (whole ++ tail) ∧
      (final ctx).1 = digest (chain v h₀ (rfcCalls w v.block (whole ++ tail))) ctx.outlen := by
  have hshort := hc.short
  obtain ⟨rest, hrest⟩ := hc.front
  have hlength : tail.length + rest.length = v.block := by rw [← ctx.length_buf, ← hrest, List.length_append]
  have hbuf : Buffer.write ctx.buf tail.length (List.replicate (v.block - tail.length) 0) =
      tail ++ List.replicate (v.block - tail.length) 0 := by
    rw [← hrest, Buffer.write_front (by rw [List.length_replicate]; omega),
      List.drop_of_length_le (by rw [List.length_replicate]; omega), List.append_nil]
  have ht : (ctx.count tail.length).t = counter w (whole ++ tail).length := by
    rw [List.length_append]
    exact count_counter hc.t (Nat.lt_of_le_of_lt hshort hv)
  have hpad : (k + 1) * v.block - (whole ++ tail).length = v.block - tail.length := by
    rw [List.length_append, hc.length, Nat.succ_mul]
    omega
  have hcalls : rfcCalls w v.block (whole ++ tail) =
      ctx.calls ++ [⟨(ctx.count tail.length).t, (-1, 0), tail ++ List.replicate (v.block - tail.length) 0⟩] := by
    simp only [rfcCalls, hc.blocks, hpad, ht]
    rw [blockCalls_append (Nat.le_of_eq hc.length.symm), ← hc.length, List.drop_left, hc.calls]
  have hf : ctx.f.2 = 0 := by rw [hc.f]
  constructor
  · rw [hcalls, ← hbuf, ← hf, ← hc.buflen]
    rfl
  · rw [hcalls, chain_concat, ← hc.h, ← hbuf, ← hf, ← hc.buflen]
    rfl

variable (ctx) in
/-- A context with nothing read yet. -/
theorem absorbed_nil (hcalls : ctx.calls = []) (ht : ctx.t = (0, 0)) (hf : ctx.f = (0, 0)) (hlen : ctx.buflen = 0) :
    Absorbed ctx.h ctx 0 [] [] where
  length := by rw [Nat.zero_mul]; rfl
  short := Nat.zero_le _
  kept _ := rfl
  buflen := hlen
  front := List.nil_prefix
  t := by simp [ht, counter]
  f := hf
  calls := hcalls
  h := by rw [hcalls]; rfl

theorem update_outlen (ctx : Ctx v) (pin : List UInt8) : (update ctx pin).outlen = ctx.outlen := by
  have hbulk : ∀ (turns : Nat) (ctx : Ctx v) (pin : List UInt8), (bulk turns ctx pin).1.outlen = ctx.outlen := by
    intro turns
    induction turns with
    | zero => intro ctx pin; rfl
    | succ turns ih =>
      intro ctx pin
      rw [bulk]
      split
      · rw [ih]
        rfl
      · rfl
  unfold update
  split
  · split
    · exact hbulk _ _ _
    · rfl
  · rfl

theorem updates_outlen (pieces : List (List UInt8)) (ctx : Ctx v) : (pieces.foldl update ctx).outlen = ctx.outlen := by
  induction pieces generalizing ctx with
  | nil => rfl
  | cons pin pieces ih => rw [List.foldl_cons, ih, update_outlen]

/-- The bytes of the key. -/
def keyOf (key : Option (Nat → UInt8)) (keylen : Nat) : List UInt8 := (List.range keylen).map (key.getD fun _ => 0)

/-- An accepted init has read the block of the key, if there is a key. -/
theorem init_absorbed (hv : v.Fits) {ctx c : Ctx v} {outlen keylen : Nat} {key : Option (Nat → UInt8)}
    (hinit : init ctx outlen key keylen = some c) : c.outlen = outlen ∧ ∃ k whole tail,
      whole ++ tail = rfcData v.block (keyOf key keylen) [] ∧ Absorbed (firstState v outlen keylen) c k whole tail := by
  unfold init at hinit
  split at hinit
  · exact absurd hinit (by simp)
  · split at hinit
    · exact absurd hinit (by simp)
    · split at hinit
      · exact absurd hinit (by simp)
      · rename_i hout hlen hnull
        simp only at hinit
        rw [← firstState] at hinit
        have hempty := absorbed_nil { ctx with
          h := firstState v outlen keylen, t := (0, 0), f := (0, 0), buflen := 0, outlen := outlen, calls :=
            [] } rfl rfl rfl rfl
        cases key with
        | none =>
          have hzero : keylen = 0 := by simpa using hnull
          subst hzero
          obtain rfl := Option.some.inj hinit
          exact ⟨rfl, 0, [], [], rfl, hempty⟩
        | some key =>
          by_cases hpos : keylen > 0
          · simp only [if_pos hpos] at hinit
            obtain rfl := Option.some.inj hinit
            obtain ⟨k, whole, tail, heq, hc⟩ :=
              hempty.update hv ((List.range keylen).map key ++ List.replicate (v.block - keylen) 0)
            refine ⟨update_outlen _ _, k, whole, tail, ?_, hc⟩
            have hne : keyOf (some key) keylen ≠ [] := by
              intro hnil
              have := congrArg List.length hnil
              simp [keyOf] at this
              omega
            rw [heq, rfcData, if_neg hne]
            simp [keyOf]
          · have hzero : keylen = 0 := by omega
            subst hzero
            simp only [if_neg hpos] at hinit
            obtain rfl := Option.some.inj hinit
            exact ⟨rfl, 0, [], [], rfl, hempty⟩

/-- The calls of update on each piece in turn and final, after an init. -/
def stream (c : Ctx v) (pieces : List (List UInt8)) : List UInt8 × List (Call w) := final (pieces.foldl update c)

theorem rfcData_append (n : Nat) (key m : List UInt8) : rfcData n key [] ++ m = rfcData n key m := by
  unfold rfcData
  split
  · rfl
  · rw [List.append_nil]

theorem stream_spec (hv : v.Fits) {ctx c : Ctx v} {outlen keylen : Nat} {key : Option (Nat → UInt8)}
    (hinit : init ctx outlen key keylen = some c) (pieces : List (List UInt8)) :
    (stream c pieces).2 = rfcCalls w v.block (rfcData v.block (keyOf key keylen) pieces.flatten) ∧
      (stream c pieces).1 = digest (chain v (firstState v outlen keylen) (stream c pieces).2) outlen := by
  obtain ⟨hout, k, whole, tail, heq, hc⟩ := init_absorbed hv hinit
  obtain ⟨k', whole', tail', heq', hc'⟩ := hc.updates hv pieces
  rw [heq, rfcData_append] at heq'
  obtain ⟨hcalls, hdigest⟩ := hc'.final hv
  rw [heq'] at hcalls hdigest
  unfold stream
  exact ⟨hcalls, by rw [hdigest, hcalls, updates_outlen, hout]⟩

theorem stream_eq (hv : v.Fits) {ctx c : Ctx v} {outlen keylen : Nat} {key : Option (Nat → UInt8)}
    (hinit : init ctx outlen key keylen = some c) {pieces pieces' : List (List UInt8)}
    (heq : pieces'.flatten = pieces.flatten) :
    stream c pieces' = stream c pieces := by
  obtain ⟨hcalls, hdigest⟩ := stream_spec hv hinit pieces
  obtain ⟨hcalls', hdigest'⟩ := stream_spec hv hinit pieces'
  have h : (stream c pieces').2 = (stream c pieces).2 := by rw [hcalls', hcalls, heq]
  exact Prod.ext (by rw [hdigest', hdigest, h]) h

end Streaming

/-- Both variants, over any compression function, for every output length and key that the init accepts, whatever the
context held before: the compressions are those of RFC 7693 for the block of the key and the message, the digest is
taken from the state they lead to, and another cutting of the message gives the same.  (The counter of data too long
for its two words has wrapped.) -/
theorem blake2_streaming :
    (∀ (compress : State 64 → Pair 64 → Pair 64 → List UInt8 → State 64) (ctx c : Ctx (blake2b compress))
    (outlen keylen : Nat)
      (key : Option (Nat → UInt8)), init ctx outlen key keylen = some c → ∀ pieces : List (List UInt8),
        (stream c pieces).2 = rfcCalls 64 128 (rfcData 128 (keyOf key keylen) pieces.flatten) ∧
        (stream c pieces).1 = digest (chain (blake2b compress) (firstState (blake2b compress) outlen keylen)
        (stream c pieces).2) outlen ∧ ∀ pieces', pieces'.flatten = pieces.flatten →
        stream c pieces' = stream c pieces) ∧
    (∀ (compress : State 32 → Pair 32 → Pair 32 → List UInt8 → State 32) (ctx c : Ctx (blake2s compress))
    (outlen keylen : Nat)
      (key : Option (Nat → UInt8)), init ctx outlen key keylen = some c → ∀ pieces : List (List UInt8),
        (stream c pieces).2 = rfcCalls 32 64 (rfcData 64 (keyOf key keylen) pieces.flatten) ∧
        (stream c pieces).1 = digest (chain (blake2s compress) (firstState (blake2s compress) outlen keylen)
        (stream c pieces).2) outlen ∧ ∀ pieces', pieces'.flatten = pieces.flatten →
        stream c pieces' = stream c pieces) := by
  constructor
  · intro compress ctx c outlen keylen key hinit pieces
    have hv : (blake2b compress).Fits := show (128 : Nat) < 2 ^ 64 by decide
    obtain ⟨hcalls, hdigest⟩ := stream_spec hv hinit pieces
    exact ⟨hcalls, hdigest, fun pieces' => stream_eq hv hinit⟩
  · intro compress ctx c outlen keylen key hinit pieces
    have hv : (blake2s compress).Fits := show (64 : Nat) < 2 ^ 32 by decide
    obtain ⟨hcalls, hdigest⟩ := stream_spec hv hinit pieces
    exact ⟨hcalls, hdigest, fun pieces' => stream_eq hv hinit⟩

/-- BLAKE2s of `abc` in two pieces, in a context that held something else. -/
theorem blake2_streaming_abc :
    ∃ c : Ctx (blake2s blake2sCompress), init ⟨blake2sIv, (1, 2), (3, 4), List.replicate 64 0xAA, 9, 5, rfl,
    []⟩ 32 none 0 = some c ∧
      (stream c [[0x61], [0x62, 0x63]]).2 = rfcCalls 32 64 [0x61, 0x62, 0x63] ∧
      stream c [[0x61, 0x62, 0x63]] = stream c [[0x61], [0x62, 0x63]] ∧
      (stream c [[0x61], [0x62, 0x63]]).1 =
      Bytes.be 32 0x508c5e8c327c14e2e1a72ba34eeb452f37458b209ed63a294d999b4c86675982 := by
  refine ⟨_, rfl, ?_⟩
  obtain ⟨hcalls, -, hcut⟩ := blake2_streaming.2 blake2sCompress
    ⟨blake2sIv, (1, 2), (3, 4), List.replicate 64 0xAA, 9, 5, rfl, []⟩ _ 32 0 none rfl [[0x61], [0x62, 0x63]]
  exact ⟨hcalls, hcut _ rfl, by decide +kernel⟩

end JACLibc.Blake2
