import JACLibc.Crypto.Keccak
import JACLibc.Lib.Blocks
import Mathlib.Logic.Equiv.Basic

/-!
# The sponge, in pieces

The message may come in any pieces.  The output may be cut anywhere but at the end of a block: a call that has to
begin a new block puts out the block before it once more, for `keccak_squeeze` permutes only behind the first byte of
a call.
-/

namespace JACLibc.Keccak

open Blocks

/-! ### The sponge as a function of the whole message -/

section Spec

variable (f : State → State) (rate : Rate)

/-- The bytes behind a message of `n` bytes: the delimiter, zeros, and a last bit that ends a block. -/
def padding (delim : UInt8) (n : Nat) : List UInt8 :=
  if n % rate.bytes + 1 = rate.bytes then [delim ||| 0x80]
  else delim :: (List.replicate (rate.bytes - n % rate.bytes - 2) 0 ++ [0x80])

def absorbed (msg : List UInt8) : State :=
  foldBlocks (fun st b => f (xorBlock rate st b)) rate.bytes (Vector.replicate 25 0) msg

/-- Byte `i` of the output from a state: every block is followed by a permutation. -/
def outByte (s : State) (i : Nat) : UInt8 := (block rate (f^[i / rate.bytes] s)).getD (i % rate.bytes) 0

/-- The first `n` bytes of the sponge over a message. -/
def sponge (delim : UInt8) (msg : List UInt8) (n : Nat) : List UInt8 :=
  (List.range' 0 n).map (outByte f rate (absorbed f rate (msg ++ padding rate delim msg.length)))

end Spec

theorem length_block (rate : Rate) (st : State) : (block rate st).length = rate.bytes := by
  have hdvd := Nat.div_mul_cancel rate.dvd
  have hle := rate.le
  rw [block, List.length_flatMap]
  simp only [Bytes.length_le, List.map_const', List.sum_replicate_nat, List.length_take, Vector.length_toList]
  omega

/-- Only the bytes of the rate go into the state. -/
theorem xorBlock_append (rate : Rate) (st : State) {b : List UInt8} (hb : b.length = rate.bytes) (rest : List UInt8) :
    xorBlock rate st (b ++ rest) = xorBlock rate st b := by
  rw [xorBlock, xorBlock]
  congr 1
  funext j
  by_cases hj : j.val < rate.bytes / 8
  · have hdvd := Nat.div_mul_cancel rate.dvd
    rw [if_pos hj, if_pos hj, List.drop_append_of_le_length (by omega),
      List.take_append_of_le_length (by rw [List.length_drop]; omega)]
  · rw [if_neg hj, if_neg hj]

/-! ### Absorbing -/

section Absorb

variable {f : State → State} {rate : Rate} {ctx : Ctx} {whole tail : List UInt8}

/-- The context after the message `whole ++ tail`. -/
structure Absorbed (f : State → State) (rate : Rate) (ctx : Ctx) (whole tail : List UInt8) : Prop where
  rate_eq : ctx.rate = rate
  blocks : rate.bytes ∣ whole.length
  short : tail.length < rate.bytes
  len : ctx.buf_len = tail.length
  front : tail <+: ctx.buf
  state : ctx.st = absorbed f rate whole

theorem absorbed_init (f : State → State) (rate : Rate) : Absorbed f rate (keccakInit rate) [] [] where
  rate_eq := rfl
  blocks := Nat.dvd_zero _
  short := rate.pos
  len := rfl
  front := List.nil_prefix
  state := (foldBlocks_nil _ _ _).symm

/-- There is room for one more byte. -/
theorem Absorbed.room (h : Absorbed f rate ctx whole tail) :
    ∃ c rest, ctx.buf = tail ++ c :: rest ∧ tail.length + 1 + rest.length = 200 := by
  obtain ⟨rest, hrest⟩ := h.front
  have hlength := congrArg List.length hrest
  have hshort := h.short
  have hle := rate.le
  rw [List.length_append, ctx.length_buf] at hlength
  cases rest with
  | nil =>
    rw [List.length_nil] at hlength
    omega
  | cons c rest =>
    rw [List.length_cons] at hlength
    exact ⟨c, rest, hrest.symm, by omega⟩

theorem Absorbed.put (h : Absorbed f rate ctx whole tail) (b : UInt8) :
    ∃ rest, (ctx.put b).buf = tail ++ [b] ++ rest ∧ tail.length + 1 + rest.length = 200 := by
  obtain ⟨c, rest, hbuf, hlength⟩ := h.room
  refine ⟨rest, ?_, hlength⟩
  change Buffer.write ctx.buf ctx.buf_len [b] = _
  rw [h.len, hbuf, Buffer.write_front (by simp)]
  rfl

theorem Absorbed.put_len (h : Absorbed f rate ctx whole tail) (b : UInt8) : (ctx.put b).buf_len = tail.length + 1 :=
  congrArg (· + 1) h.len

theorem Absorbed.put_rate (h : Absorbed f rate ctx whole tail) (b : UInt8) : (ctx.put b).rate = rate := h.rate_eq

/-- A full block goes into the state. -/
theorem absorbed_block (hblocks : rate.bytes ∣ whole.length) {b : List UInt8} (hb : b.length = rate.bytes)
    (rest : List UInt8) :
    f (xorBlock rate (absorbed f rate whole) (b ++ rest)) = absorbed f rate (whole ++ b) := by
  rw [xorBlock_append rate _ hb, absorbed, absorbed, foldBlocks_concat _ rate.pos hblocks _ hb]

/-- A byte goes behind the tail, which becomes a block when it is full. -/
theorem Absorbed.byte (h : Absorbed f rate ctx whole tail) (b : UInt8) :
    ∃ whole' tail', whole' ++ tail' = whole ++ tail ++ [b] ∧ Absorbed f rate (absorbByte f ctx b) whole' tail' := by
  obtain ⟨rest, hput, -⟩ := h.put b
  have hlen : (tail ++ [b]).length = tail.length + 1 := by
    rw [List.length_append, List.length_singleton]
  rw [absorbByte]
  by_cases hfull : tail.length + 1 = rate.bytes
  · refine ⟨whole ++ (tail ++ [b]), [], by simp, ?_⟩
    rw [if_pos (by rw [h.put_len, h.put_rate]; exact hfull)]
    refine ⟨h.rate_eq, ?_, rate.pos, rfl, List.nil_prefix, ?_⟩
    · rw [List.length_append, hlen, hfull]
      exact Nat.dvd_add_self_right.2 h.blocks
    · change f (xorBlock ctx.rate ctx.st (ctx.put b).buf) = _
      rw [hput, h.state, h.rate_eq]
      exact absorbed_block h.blocks (hlen.trans hfull) rest
  · have hshort := h.short
    refine ⟨whole, tail ++ [b], by simp, ?_⟩
    rw [if_neg (by rw [h.put_len, h.put_rate]; exact hfull)]
    exact ⟨h.rate_eq, h.blocks, by omega, by rw [hlen, h.put_len], ⟨rest, hput.symm⟩, h.state⟩

theorem Absorbed.absorb (h : Absorbed f rate ctx whole tail) (data : List UInt8) :
    ∃ whole' tail', whole' ++ tail' = whole ++ tail ++ data ∧
    Absorbed f rate (keccakAbsorb f ctx data) whole' tail' := by
  induction data generalizing ctx whole tail with
  | nil => exact ⟨whole, tail, by simp, h⟩
  | cons b data ih =>
    obtain ⟨whole₁, tail₁, heq₁, h₁⟩ := h.byte b
    obtain ⟨whole₂, tail₂, heq₂, h₂⟩ := ih h₁
    exact ⟨whole₂, tail₂, by rw [heq₂, heq₁]; simp, h₂⟩

theorem absorb_flatten (f : State → State) (pieces : List (List UInt8)) (ctx : Ctx) :
    pieces.foldl (keccakAbsorb f) ctx = keccakAbsorb f ctx pieces.flatten := by
  induction pieces generalizing ctx with
  | nil => rfl
  | cons piece pieces ih =>
    rw [List.foldl_cons, ih, List.flatten_cons]
    exact List.foldl_append.symm

/-! ### Padding -/

theorem setLast_buf {pre rest : List UInt8} {x : UInt8} (hbuf : ctx.buf = pre ++ x :: rest)
    (hpre : pre.length + 1 = ctx.rate.bytes) :
    ctx.setLast.buf = pre ++ (x ||| 0x80) :: rest := by
  have hlast : ctx.rate.bytes - 1 = pre.length := by omega
  change Buffer.write ctx.buf (ctx.rate.bytes - 1) [ctx.buf.getD (ctx.rate.bytes - 1) 0 ||| 0x80] = _
  rw [hlast, hbuf, Buffer.write_front (by simp)]
  simp

/-- The block that `keccak_pad` makes of the tail. -/
theorem Absorbed.padded (h : Absorbed f rate ctx whole tail) (delim : UInt8) :
    ∃ rest, ((ctx.put delim).zeros.setLast).buf = tail ++ padding rate delim tail.length ++ rest ∧
      (tail ++ padding rate delim tail.length).length = rate.bytes := by
  obtain ⟨rest, hput, hlength⟩ := h.put delim
  have hshort := h.short
  have hle := rate.le
  have hmod : tail.length % rate.bytes = tail.length := Nat.mod_eq_of_lt hshort
  have hlen : (tail ++ [delim]).length = tail.length + 1 := by
    rw [List.length_append, List.length_singleton]
  have hzeros : (ctx.put delim).zeros.buf = tail ++ [delim] ++ List.replicate (rate.bytes - (tail.length + 1)) 0 ++
      rest.drop (rate.bytes - (tail.length + 1)) := by
    change Buffer.write (ctx.put delim).buf (ctx.put delim).buf_len (List.replicate ((ctx.put delim).rate.bytes -
      (ctx.put delim).buf_len) 0) = _
    rw [hput, h.put_len, h.put_rate, ← hlen, Buffer.write_front (by rw [List.length_replicate]; omega),
      List.length_replicate]
  have hrate : (ctx.put delim).zeros.rate.bytes = rate.bytes := congrArg Rate.bytes h.rate_eq
  rw [padding, hmod]
  by_cases hlast : tail.length + 1 = rate.bytes
  · rw [if_pos hlast]
    rw [hlast, Nat.sub_self, List.replicate_zero, List.append_nil, List.drop_zero, List.append_assoc] at hzeros
    refine ⟨rest, ?_, by rw [List.length_append, List.length_singleton, hlast]⟩
    rw [setLast_buf hzeros (hlast.trans hrate.symm), List.append_assoc]
    rfl
  · obtain ⟨z, hz⟩ : ∃ z, rate.bytes - (tail.length + 1) = z + 1 := ⟨rate.bytes - tail.length - 2, by omega⟩
    have hz' : rate.bytes - tail.length - 2 = z := by omega
    rw [if_neg hlast, hz']
    rw [hz] at hzeros
    have hsplit : (ctx.put delim).zeros.buf = (tail ++ delim :: List.replicate z 0) ++ 0 :: rest.drop (z + 1) := by
      rw [hzeros, List.replicate_succ']
      simp
    have hpre : (tail ++ delim :: List.replicate z 0).length + 1 = (ctx.put delim).zeros.rate.bytes := by
      rw [hrate, List.length_append, List.length_cons, List.length_replicate]
      omega
    refine ⟨rest.drop (z + 1), ?_, ?_⟩
    · rw [setLast_buf hsplit hpre]
      simp
    · simp only [List.length_append, List.length_cons, List.length_replicate, List.length_nil]
      omega

theorem Absorbed.pad (h : Absorbed f rate ctx whole tail) (delim : UInt8) : (keccakPad f ctx delim).st =
    absorbed f rate (whole ++ tail ++ padding rate delim (whole ++ tail).length) := by
  obtain ⟨rest, hbuf, hblock⟩ := h.padded delim
  have hmod : (whole ++ tail).length % rate.bytes = tail.length % rate.bytes := by
    obtain ⟨k, hk⟩ := h.blocks
    rw [List.length_append, hk, Nat.mul_add_mod]
  have hpad : padding rate delim (whole ++ tail).length = padding rate delim tail.length := by
    rw [padding, padding, hmod]
  change f (xorBlock ctx.rate ctx.st (ctx.put delim).zeros.setLast.buf) = _
  rw [hbuf, h.state, h.rate_eq, hpad, List.append_assoc whole]
  exact absorbed_block h.blocks hblock rest

end Absorb

/-! ### Squeezing -/

section Squeeze

variable {f : State → State} {rate : Rate} {s : State} {ctx : Ctx} {o : Nat}

/-- The context after `o` bytes of output from the state `s`: nothing yet, or `r` bytes of block `q`. -/
inductive Squeezed (f : State → State) (rate : Rate) (s : State) (ctx : Ctx) : Nat → Prop
  | start (hrate : ctx.rate = rate) (hlen : ctx.buf_len = 0) (hst : ctx.st = s) : Squeezed f rate s ctx 0
  | within (hrate : ctx.rate = rate) (q r : Nat) (hr : r < rate.bytes) (hlen : ctx.buf_len = rate.bytes - (r + 1))
    (hst : ctx.st = f^[q] s)
      (hbuf : block rate ctx.st <+: ctx.buf) : Squeezed f rate s ctx (q * rate.bytes + (r + 1))

theorem outByte_eq (q : Nat) {r : Nat} (hr : r < rate.bytes) :
    outByte f rate s (q * rate.bytes + r) = (block rate (f^[q] s)).getD r 0 := by
  rw [outByte, Nat.mul_comm, Nat.mul_add_div rate.pos, Nat.div_eq_of_lt hr, Nat.add_zero, Nat.mul_add_mod,
    Nat.mod_eq_of_lt hr]

theorem getD_prefix {bs buf : List UInt8} (h : bs <+: buf) {r : Nat} (hr : r < bs.length) :
    buf.getD r 0 = bs.getD r 0 := by
  obtain ⟨rest, rfl⟩ := h
  rw [List.getD_eq_getElem?_getD, List.getD_eq_getElem?_getD, List.getElem?_append_left hr]

theorem refill_front (ctx : Ctx) (i : Nat) : block ctx.rate (ctx.refill f i).st <+: (ctx.refill f i).buf := by
  have hwrite : ∀ ctx : Ctx, block ctx.rate ctx.st <+: (ctx.write 0 (block ctx.rate ctx.st)).buf := by
    intro ctx
    have hfits : (block ctx.rate ctx.st).length ≤ ctx.buf.length := by
      rw [length_block, ctx.length_buf]
      exact ctx.rate.le
    have hfront : Buffer.write ([] ++ ctx.buf) ([] : List UInt8).length (block ctx.rate ctx.st) = _ :=
      Buffer.write_front hfits
    exact ⟨_, hfront.symm⟩
  rw [Ctx.refill]
  split
  · exact hwrite (ctx.permute f)
  · exact hwrite ctx

/-- Byte `r` of a block in the buffer. -/
theorem squeezeByte_within (i q r : Nat) (hr : r < rate.bytes) (hfilled : (ctx.filled f i).buf_len = rate.bytes - r)
    (hrate : (ctx.filled f i).rate = rate) (hst : (ctx.filled f i).st = f^[q] s)
    (hbuf : block rate (ctx.filled f i).st <+: (ctx.filled f i).buf) :
    (squeezeByte f ctx i).2 = outByte f rate s (q * rate.bytes + r) ∧
      Squeezed f rate s (squeezeByte f ctx i).1 (q * rate.bytes + (r + 1)) := by
  constructor
  · have hpos : rate.bytes - (rate.bytes - r) = r := by omega
    change (ctx.filled f i).buf.getD ((ctx.filled f i).rate.bytes - (ctx.filled f i).buf_len) 0 = _
    rw [outByte_eq q hr, hrate, hfilled, hpos, ← hst]
    exact getD_prefix hbuf (by rw [length_block]; exact hr)
  · have hlen : (squeezeByte f ctx i).1.buf_len = rate.bytes - (r + 1) := by
      change (ctx.filled f i).buf_len - 1 = _
      rw [hfilled]
      omega
    have hrate' : (squeezeByte f ctx i).1.rate = rate := hrate
    exact .within hrate' q r hr hlen hst hbuf

/-- The next byte, unless the call begins at the end of a block. -/
theorem Squeezed.byte (h : Squeezed f rate s ctx o) {i : Nat} (hi : i ≤ o) (hbegin : i = 0 → 0 < o → ¬rate.bytes ∣ o) :
    (squeezeByte f ctx i).2 = outByte f rate s o ∧ Squeezed f rate s (squeezeByte f ctx i).1 (o + 1) := by
  have hpos := rate.pos
  cases h with
  | start hrate hlen hst =>
    obtain rfl := Nat.le_zero.1 hi
    have hfilled : ctx.filled f 0 = ctx.refill f 0 := if_pos hlen
    have hbyte := @squeezeByte_within f rate s ctx 0 0 0 rate.pos
    rw [hfilled, Nat.zero_mul] at hbyte
    refine hbyte (congrArg Rate.bytes hrate) hrate hst ?_
    have hfront := @refill_front f ctx 0
    rwa [hrate] at hfront
  | within hrate q r hr hlen hst hbuf =>
    by_cases hlast : r + 1 = rate.bytes
    · -- the block is used up: a new one begins
      have hend : q * rate.bytes + (r + 1) = (q + 1) * rate.bytes := by rw [hlast, Nat.succ_mul]
      have hne : 0 < i := by
        refine Nat.pos_of_ne_zero fun hzero => hbegin hzero (by omega) ?_
        rw [hend]
        exact Nat.dvd_mul_left _ _
      have hfilled : ctx.filled f i = ctx.refill f i := if_pos (by omega)
      have hpermuted : (ctx.refill f i).st = f^[q + 1] s := by
        rw [Function.iterate_succ_apply', ← hst]
        change (if i > 0 then ctx.permute f else ctx).st = _
        rw [if_pos hne]
        rfl
      have hrate' : (ctx.refill f i).rate = rate := by
        change (if i > 0 then ctx.permute f else ctx).rate = rate
        rw [if_pos hne]
        exact hrate
      have hbyte := @squeezeByte_within f rate s ctx i (q + 1) 0 rate.pos
      rw [hfilled, Nat.add_zero, Nat.zero_add, ← hend] at hbyte
      refine hbyte ?_ hrate' hpermuted ?_
      · change (if i > 0 then ctx.permute f else ctx).rate.bytes = _
        rw [if_pos hne]
        exact congrArg Rate.bytes hrate
      · have hfront := @refill_front f ctx i
        rwa [hrate] at hfront
    · have hfilled : ctx.filled f i = ctx := if_neg (by omega)
      have hbyte := @squeezeByte_within f rate s ctx i q (r + 1) (by omega)
      rw [hfilled] at hbyte
      exact hbyte hlen hrate hst hbuf

/-- A whole call. -/
theorem Squeezed.call {n : Nat} (h : Squeezed f rate s ctx o) {i : Nat} (hi : i ≤ o)
    (hbegin : i = 0 → 0 < n → 0 < o → ¬rate.bytes ∣ o) :
    (squeezeFrom f i n ctx).2 = (List.range' o n).map (outByte f rate s) ∧
    Squeezed f rate s (squeezeFrom f i n ctx).1 (o + n) := by
  induction n generalizing i o ctx with
  | zero => exact ⟨rfl, h⟩
  | succ n ih =>
    obtain ⟨hbyte, hnext⟩ := h.byte hi fun hzero => hbegin hzero (Nat.succ_pos n)
    obtain ⟨hout, hrest⟩ := ih hnext (Nat.succ_le_succ hi) fun hzero => absurd hzero (Nat.succ_ne_zero i)
    have hsum : o + (n + 1) = o + 1 + n := by omega
    rw [List.range'_succ, List.map_cons, ← hbyte, ← hout, hsum]
    exact ⟨rfl, hrest⟩

/-- No call that puts out something begins at the end of a block, when `o` bytes came before. -/
def Fresh (rate : Rate) (o : Nat) (outlens : List Nat) : Prop :=
  ∀ pre n post, outlens = pre ++ n :: post → 0 < n → 0 < o + pre.sum → ¬rate.bytes ∣ o + pre.sum

theorem fresh_cons {n : Nat} {outlens : List Nat} :
    Fresh rate o (n :: outlens) ↔ (0 < n → 0 < o → ¬rate.bytes ∣ o) ∧ Fresh rate (o + n) outlens := by
  constructor
  · intro h
    refine ⟨fun hn ho => h [] n outlens rfl hn ho, ?_⟩
    rintro pre m post rfl hm hpos
    have := h (n :: pre) m post rfl hm
    rw [List.sum_cons, ← Nat.add_assoc] at this
    exact this hpos
  · rintro ⟨hfirst, hrest⟩ pre m post heq hm hpos
    cases pre with
    | nil =>
      obtain ⟨rfl, -⟩ := List.cons.inj heq
      exact hfirst hm hpos
    | cons k pre =>
      obtain ⟨rfl, hpost⟩ := List.cons.inj heq
      rw [List.sum_cons, ← Nat.add_assoc] at hpos ⊢
      exact hrest pre m post hpost hm hpos

theorem squeezes_cons (ctx : Ctx) (n : Nat) (outlens : List Nat) :
    squeezes f ctx (n :: outlens) = (squeezeFrom f 0 n ctx).2 ++ squeezes f (squeezeFrom f 0 n ctx).1 outlens := rfl

theorem Squeezed.calls (h : Squeezed f rate s ctx o) {outlens : List Nat} (hfresh : Fresh rate o outlens) :
    squeezes f ctx outlens = (List.range' o outlens.sum).map (outByte f rate s) := by
  induction outlens generalizing o ctx with
  | nil => rfl
  | cons n outlens ih =>
    obtain ⟨hfirst, hrest⟩ := fresh_cons.1 hfresh
    obtain ⟨hout, hnext⟩ := h.call (Nat.zero_le o) fun _ => hfirst
    rw [squeezes_cons, hout, ih hnext hrest, List.sum_cons, ← List.map_append, ← List.range'_append, Nat.one_mul]

theorem addOne_head (st : State) : (block rate (addOne st)).getD 0 0 ≠ (block rate st).getD 0 0 := by
  have hset : (addOne st)[0] = st[0] + 1 := by
    change (st.set 0 (st[0] + 1))[0] = _
    simp
  rw [block_head, block_head, hset]
  intro heq
  have hnat := congrArg UInt8.toNat heq
  rw [Bytes.toNat_toUInt8, Bytes.toNat_toUInt8, BitVec.toNat_add] at hnat
  have hone : (1 : BitVec 64).toNat = 1 := rfl
  omega

/-- A call that begins at the end of a block puts out the block before it. -/
theorem Squeezed.stale (h : Squeezed addOne rate s ctx o) (hpos : 0 < o) (hdvd : rate.bytes ∣ o) :
    (squeezeByte addOne ctx 0).2 ≠ outByte addOne rate s o := by
  cases h with
  | start => exact absurd hpos (Nat.lt_irrefl 0)
  | within hrate q r hr hlen hst hbuf =>
    have hlast : r + 1 = rate.bytes := by
      have hdvd' := (Nat.dvd_add_right (Nat.dvd_mul_left rate.bytes q)).1 hdvd
      have := Nat.le_of_dvd (Nat.succ_pos r) hdvd'
      omega
    have hend : q * rate.bytes + (r + 1) = (q + 1) * rate.bytes + 0 := by rw [hlast, Nat.succ_mul, Nat.add_zero]
    have hfilled : ctx.filled addOne 0 = ctx.refill addOne 0 := if_pos (by omega)
    have hfront := @refill_front addOne ctx 0
    have hread : (squeezeByte addOne ctx 0).2 = (block rate (addOne^[q] s)).getD 0 0 := by
      change (ctx.filled addOne 0).buf.getD ((ctx.filled addOne 0).rate.bytes - (ctx.filled addOne 0).buf_len) 0 = _
      rw [hfilled, ← hst, ← hrate]
      change (ctx.refill addOne 0).buf.getD (ctx.rate.bytes - ctx.rate.bytes) 0 = _
      rw [Nat.sub_self]
      exact getD_prefix hfront (by rw [length_block]; exact ctx.rate.pos)
    rw [hread, hend, outByte_eq (q + 1) rate.pos, Function.iterate_succ_apply']
    exact (addOne_head _).symm

/-- With that permutation, calls put out the bytes of the sponge only if none begins at the end of a block. -/
theorem Squeezed.fresh (h : Squeezed addOne rate s ctx o) {outlens : List Nat}
    (hout : squeezes addOne ctx outlens = (List.range' o outlens.sum).map (outByte addOne rate s)) :
    Fresh rate o outlens := by
  induction outlens generalizing o ctx with
  | nil =>
    intro pre n post heq
    exact absurd heq (by simp)
  | cons n outlens ih =>
    rw [squeezes_cons, List.sum_cons, ← List.range'_append, Nat.one_mul, List.map_append] at hout
    have hfirst : 0 < n → 0 < o → ¬rate.bytes ∣ o := by
      intro hn ho hdvd
      obtain ⟨m, rfl⟩ := Nat.exists_eq_add_of_lt hn
      rw [Nat.zero_add, List.range'_succ, squeezeFrom, List.map_cons] at hout
      exact h.stale ho hdvd (List.cons.inj hout).1
    obtain ⟨hcall, hnext⟩ := h.call (Nat.zero_le o) fun _ => hfirst
    rw [hcall] at hout
    exact fresh_cons.2 ⟨hfirst, ih hnext (List.append_cancel_left hout)⟩

end Squeeze

/-! ### Whole runs -/

section Run

variable {f : State → State} {rate : Rate} {pieces : List (List UInt8)} {delim : UInt8} {outlens : List Nat}

/-- The state behind the padding is that of the whole message, in whatever pieces it came. -/
theorem squeezed_pad (f : State → State) (rate : Rate) (pieces : List (List UInt8)) (delim : UInt8) :
    Squeezed f rate (absorbed f rate (pieces.flatten ++ padding rate delim pieces.flatten.length))
      (keccakPad f (pieces.foldl (keccakAbsorb f) (keccakInit rate)) delim) 0 := by
  obtain ⟨whole, tail, hmsg, h⟩ := (absorbed_init f rate).absorb pieces.flatten
  rw [List.nil_append, List.nil_append] at hmsg
  rw [absorb_flatten]
  refine .start h.rate_eq rfl ?_
  rw [h.pad, hmsg]

theorem run_eq (hfresh : Fresh rate 0 outlens) :
    run f rate pieces delim outlens = sponge f rate delim pieces.flatten outlens.sum :=
  (squeezed_pad f rate pieces delim).calls hfresh

theorem fresh_of_run (hrun : run addOne rate pieces delim outlens =
    sponge addOne rate delim pieces.flatten outlens.sum) :
    Fresh rate 0 outlens := (squeezed_pad addOne rate pieces delim).fresh hrun

/-- One call begins no block but the first. -/
theorem fresh_singleton (rate : Rate) (n : Nat) : Fresh rate 0 [n] := by
  refine fresh_cons.2 ⟨fun _ h => absurd h (Nat.lt_irrefl 0), ?_⟩
  intro pre m post heq
  exact absurd heq (by simp)

end Run

/-- Over every permutation, what comes out is that of one call each and of the sponge, exactly if no call but the
first begins a block. -/
theorem keccak_sponge (rate : Rate) (pieces : List (List UInt8)) (delim : UInt8) (outlens : List Nat) :
    (∀ f : Equiv.Perm State, run f rate pieces delim outlens = run f rate [pieces.flatten] delim [outlens.sum] ∧
      run f rate pieces delim outlens = sponge f rate delim pieces.flatten outlens.sum) ↔ Fresh rate 0 outlens := by
  constructor
  · intro h
    exact fresh_of_run (h addOne).2
  · intro hfresh f
    have hone : run f rate [pieces.flatten] delim [outlens.sum] = sponge f rate delim pieces.flatten outlens.sum := by
      rw [run_eq (fresh_singleton rate outlens.sum), List.flatten_singleton, List.sum_singleton]
    rw [hone, run_eq hfresh]
    exact ⟨rfl, rfl⟩

/-- The rate of SHAKE128. -/
def shake128 : Rate := ⟨168, by decide, by decide, by decide⟩

/-- SHAKE128 with two calls of a block each. -/
theorem keccak_sponge_two_blocks : ¬∀ f : Equiv.Perm State,
    run f shake128 [] 0x1F [168, 168] = run f shake128 [[]] 0x1F [336] ∧
      run f shake128 [] 0x1F [168, 168] = sponge f shake128 0x1F [] 336 := by
  intro h
  have hfresh : Fresh shake128 0 [168, 168] := @fresh_of_run shake128 [] 0x1F [168, 168] (h addOne).2
  exact hfresh [168] 168 [] rfl (by decide) (by decide) (by decide)

end JACLibc.Keccak
