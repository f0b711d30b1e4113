import JACLibc.Lib.Buffer
import JACLibc.Lib.Checked
import Mathlib.Algebra.Ring.Nat

/-!
# HKDF expansion

`sha256_hkdf_expand` and `sha512_hkdf_expand` of `crypto/sha2.h` are one function of the digest size `D`; the HMAC is
a parameter.  Every store to the local `buf` of `D + 256 + 1` bytes is checked.  The buffer has room for a digest, 256
bytes of `info` and the counter, and no length of `info` is refused.
-/

namespace JACLibc.Hkdf

/-- A store behind the end of `buf`. -/
structure OutOfBounds where
  index : Nat
  deriving DecidableEq

/-- `memcpy(buf + i, bs, n)` -/
def store {n : Nat} (buf : Vector UInt8 n) (i : Nat) (bs : List UInt8) : Except OutOfBounds (Vector UInt8 n) :=
  if i + bs.length ≤ n then .ok ⟨(Buffer.write buf.toList i bs).toArray, by simp⟩ else .error ⟨n⟩

/-- `if (n) { memcpy(buf + blen, bs, n); blen += n; }` -/
def append {n : Nat} (buf : Vector UInt8 n) (blen : Nat) (bs : List UInt8) :
    Except OutOfBounds (Vector UInt8 n × Nat) :=
  if bs = [] then pure (buf, blen)
  else do
    let buf ← store buf blen bs
    pure (buf, blen + bs.length)

/-- The local variables of the loop but `pos`. -/
structure Frame (D : Nat) where
  T : Vector UInt8 D
  buf : Vector UInt8 (D + 256 + 1)
  Tlen : Nat
  ctr : UInt8

section Expand

variable {D : Nat} (hmac : Vector UInt8 D → List UInt8 → Vector UInt8 D) (prk : Vector UInt8 D)
  (info : Option (List UInt8))

/-- `info && ilen`, and the bytes then: a null `info` has none. -/
def infoBytes : List UInt8 := info.getD []

/-- What the HMAC before left in `T`. -/
def Frame.last (f : Frame D) : List UInt8 := f.T.toList.take f.Tlen

/-- The body of the loop up to the HMAC. -/
def turn (f : Frame D) : Except OutOfBounds (Frame D) := do
  let (buf, blen) ← append f.buf 0 f.last
  let (buf, blen) ← append buf blen (infoBytes info)
  let (buf, blen) ← append buf blen [f.ctr]
  pure ⟨hmac prk (buf.toList.take blen), buf, D, f.ctr + 1⟩

/-- `(olen - pos < D) ? (olen - pos) : D` -/
def copyLen (D olen pos : Nat) : Nat := if olen - pos < D then olen - pos else D

/-- `while (pos < olen)`; what is stored at `okm + pos` and behind it. -/
def expandLoop [NeZero D] (olen : Nat) (f : Frame D) (pos : Nat) : Except OutOfBounds (List UInt8) :=
  if pos < olen then do
    let f ← turn hmac prk info f
    let rest ← expandLoop olen f (pos + copyLen D olen pos)
    pure (f.T.toList.take (copyLen D olen pos) ++ rest)
  else pure []
termination_by olen - pos
decreasing_by
  have hD := Nat.pos_of_neZero D
  rw [copyLen]
  split <;> omega

/-- The function of both digest sizes: the return value and the bytes stored to `okm`; `buf` is the memory of the
local variable. -/
def hkdfExpand [NeZero D] (buf : Vector UInt8 (D + 256 + 1)) (olen : Nat) : Except OutOfBounds (Int × List UInt8) :=
  if olen > 255 * D then pure (-1, [])
  else do
    let okm ← expandLoop hmac prk info olen ⟨Vector.replicate D 0, buf, 0, 1⟩ 0
    pure (0, okm)

end Expand

/-- `sha256_hkdf_expand` -/
def sha256HkdfExpand (sha256Hmac : Vector UInt8 32 → List UInt8 → Vector UInt8 32) :=
  hkdfExpand sha256Hmac

/-- `sha512_hkdf_expand` -/
def sha512HkdfExpand (sha512Hmac : Vector UInt8 64 → List UInt8 → Vector UInt8 64) :=
  hkdfExpand sha512Hmac

/-! ### Expansion as it is defined -/

section Spec

variable {D : Nat} (hmac : Vector UInt8 D → List UInt8 → Vector UInt8 D) (prk : Vector UInt8 D) (info : List UInt8)

/-- `T(i)`: the HMAC over `T(i-1)`, the info and the octet `i`. -/
def T : Nat → List UInt8
  | 0 => []
  | i + 1 => (hmac prk (T i ++ info ++ [(i + 1).toUInt8])).toList

/-- The first `n` bytes of `T(1) || T(2) || ... || T(255)`. -/
def okm (n : Nat) : List UInt8 := ((List.range' 1 255).flatMap (T hmac prk info)).take n

/-- What a call is to answer. -/
def answer (olen : Nat) : Int × List UInt8 := if olen > 255 * D then (-1, []) else (0, okm hmac prk info olen)

end Spec

/-- No round puts more into the buffer than it holds: the first has no digest before the info, and all later ones
have. -/
def Fits (D : Nat) (info : Option (List UInt8)) (olen : Nat) : Prop :=
  olen > 255 * D ∨ olen = 0 ∨ (infoBytes info).length ≤ 256 ∨ olen ≤ D ∧ (infoBytes info).length ≤ D + 256

instance (D : Nat) (info : Option (List UInt8)) (olen : Nat) : Decidable (Fits D info olen) :=
  inferInstanceAs (Decidable (_ ∨ _ ∨ _ ∨ _ ∧ _))

/-! ### A round -/

section Turn

variable {n : Nat} {buf : Vector UInt8 n} {pre bs : List UInt8}

/-- What is stored behind the bytes in front of the buffer. -/
theorem store_ok (hpre : pre <+: buf.toList) (hfits : pre.length + bs.length ≤ n) :
    ∃ buf', store buf pre.length bs = .ok buf' ∧ pre ++ bs <+: buf'.toList := by
  obtain ⟨rest, hrest⟩ := hpre
  have hlen := congrArg List.length hrest
  rw [List.length_append, Vector.length_toList] at hlen
  have hwrite : Buffer.write buf.toList pre.length bs = pre ++ bs ++ rest.drop bs.length := by
    rw [← hrest, Buffer.write_front (by omega)]
  refine ⟨_, if_pos hfits, ?_⟩
  rw [Vector.toList_mk, hwrite]
  exact List.prefix_append _ _

theorem append_ok (hpre : pre <+: buf.toList) (hfits : pre.length + bs.length ≤ n) :
    ∃ buf', append buf pre.length bs = .ok (buf', (pre ++ bs).length) ∧ pre ++ bs <+: buf'.toList := by
  by_cases hbs : bs = []
  · refine ⟨buf, ?_, ?_⟩
    · rw [append, if_pos hbs, hbs, List.append_nil]
      rfl
    · rw [hbs, List.append_nil]
      exact hpre
  · obtain ⟨buf', hstore, hpre'⟩ := store_ok hpre hfits
    refine ⟨buf', ?_, hpre'⟩
    rw [append, if_neg hbs, hstore, List.length_append]
    rfl

theorem append_front (buf : Vector UInt8 n) (hfits : bs.length ≤ n) :
    ∃ buf', append buf 0 bs = .ok (buf', bs.length) ∧ bs <+: buf'.toList := by
  have happend := @append_ok n buf [] bs List.nil_prefix
  rw [List.length_nil, Nat.zero_add, List.nil_append] at happend
  exact happend hfits

theorem append_error {blen : Nat} (hbs : bs ≠ []) (h : n < blen + bs.length) : append buf blen bs = .error ⟨n⟩ := by
  rw [append, if_neg hbs, store, if_neg (Nat.not_le.2 h)]
  rfl

variable {D : Nat} {hmac : Vector UInt8 D → List UInt8 →
  Vector UInt8 D} {prk : Vector UInt8 D} {info : Option (List UInt8)} {f : Frame D}

theorem length_last_le (f : Frame D) : f.last.length ≤ D := by
  rw [Frame.last, List.length_take, Vector.length_toList]
  exact Nat.min_le_right _ _

/-- The message of a round is put together and read back, if there is room for it. -/
theorem turn_ok (hfits : f.last.length + (infoBytes info).length ≤ D + 256) :
    ∃ buf, turn hmac prk info f = .ok ⟨hmac prk (f.last ++ infoBytes info ++ [f.ctr]), buf, D, f.ctr + 1⟩ := by
  have hle := length_last_le f
  obtain ⟨buf₁, happend₁, hpre₁⟩ := append_front f.buf (show f.last.length ≤ D + 256 + 1 by omega)
  obtain ⟨buf₂, happend₂, hpre₂⟩ := @append_ok _ _ _ (infoBytes info) hpre₁ (by omega)
  obtain ⟨buf₃, happend₃, hpre₃⟩ :=
    @append_ok _ _ _ [f.ctr] hpre₂ (by rw [List.length_append, List.length_singleton]; omega)
  refine ⟨buf₃, ?_⟩
  have hmsg := (List.prefix_iff_eq_take.1 hpre₃).symm
  simp only [turn, happend₁, happend₂, happend₃, ok_bind, hmsg]
  rfl

/-- The counter has no place behind a full buffer, and the info has none if it is longer than that. -/
theorem turn_error (hfull : D + 256 < f.last.length + (infoBytes info).length) :
    turn hmac prk info f = .error ⟨D + 256 + 1⟩ := by
  have hle := length_last_le f
  obtain ⟨buf₁, happend₁, hpre₁⟩ := append_front f.buf (show f.last.length ≤ D + 256 + 1 by omega)
  simp only [turn, happend₁, ok_bind]
  by_cases hinfo : f.last.length + (infoBytes info).length ≤ D + 256 + 1
  · obtain ⟨buf₂, happend₂, hpre₂⟩ := @append_ok _ _ _ (infoBytes info) hpre₁ hinfo
    have herror : append buf₂ (f.last ++ infoBytes info).length [f.ctr] = .error ⟨D + 256 + 1⟩ :=
      append_error (List.cons_ne_nil _ _) (by rw [List.length_append, List.length_singleton]; omega)
    simp only [happend₂, herror, ok_bind, error_bind]
  · have hne : infoBytes info ≠ [] := by
      intro hnil
      rw [hnil, List.length_nil] at hinfo
      omega
    rw [append_error hne (by omega)]
    rfl

end Turn

/-! ### The loop -/

section Loop

variable {D : Nat} {hmac : Vector UInt8 D → List UInt8 →
  Vector UInt8 D} {prk : Vector UInt8 D} {info : Option (List UInt8)}
  {olen : Nat} {f : Frame D}

theorem length_T_succ (info : List UInt8) (i : Nat) : (T hmac prk info (i + 1)).length = D := by
  rw [T, Vector.length_toList]

/-- The local variables after `i` rounds. -/
structure After (hmac : Vector UInt8 D → List UInt8 → Vector UInt8 D) (prk : Vector UInt8 D)
    (info : Option (List UInt8)) (i : Nat) (f : Frame D) : Prop where
  last : f.last = T hmac prk (infoBytes info) i
  ctr : f.ctr = (i + 1).toUInt8

theorem after_zero (buf : Vector UInt8 (D + 256 + 1)) : After hmac prk info 0 ⟨Vector.replicate D 0, buf, 0, 1⟩ :=
  ⟨rfl, rfl⟩

/-- A round whose message has room computes the next block. -/
theorem After.turn {i : Nat} (h : After hmac prk info i f) (hfits : f.last.length + (infoBytes info).length ≤ D + 256) :
    ∃ f', turn hmac prk info f = .ok f' ∧ After hmac prk info (i + 1) f' ∧
    f'.T.toList = T hmac prk (infoBytes info) (i + 1) := by
  obtain ⟨buf, hturn⟩ := @turn_ok D hmac prk info f hfits
  have hT : (hmac prk (f.last ++ infoBytes info ++ [f.ctr])).toList = T hmac prk (infoBytes info) (i + 1) := by
    rw [T, h.last, h.ctr]
  refine ⟨_, hturn, ⟨?_, ?_⟩, hT⟩
  · rw [Frame.last, hT]
    exact List.take_of_length_le (Nat.le_of_eq (length_T_succ _ _))
  · change f.ctr + 1 = _
    rw [h.ctr]
    exact (UInt8.ofNat_add (i + 1) 1).symm

theorem After.length_last {i : Nat} (h : After hmac prk info i f) : f.last.length = if i = 0 then 0 else D := by
  rw [h.last]
  cases i with
  | zero => rfl
  | succ i => exact length_T_succ _ i

variable [NeZero D]

theorem expandLoop_step {pos : Nat} (h : pos < olen) : expandLoop hmac prk info olen f pos =
    turn hmac prk info f >>= fun f => expandLoop hmac prk info olen f (pos + copyLen D olen pos) >>= fun rest =>
      pure (f.T.toList.take (copyLen D olen pos) ++ rest) := by
  rw [expandLoop, if_pos h]

theorem expandLoop_end {pos : Nat} (h : olen ≤ pos) : expandLoop hmac prk info olen f pos = .ok [] := by
  rw [expandLoop, if_neg (Nat.not_lt.2 h)]
  rfl

/-- Rounds until the output is long enough: the bytes of the blocks still to come. -/
theorem expandLoop_eq {i k : Nat} (hk : i + k = 255) (holen : olen ≤ 255 * D)
    (hfits : ∀ j, i ≤ j → j * D < olen → (if j = 0 then 0 else D) + (infoBytes info).length ≤ D + 256)
    (h : After hmac prk info i f) :
    expandLoop hmac prk info olen f (min (i * D) olen) =
      .ok (((List.range' (i + 1) k).flatMap (T hmac prk (infoBytes info))).take (olen - min (i * D) olen)) := by
  induction k generalizing i f with
  | zero =>
    have hi : i = 255 := by omega
    subst hi
    rw [Nat.min_eq_right holen, expandLoop_end (Nat.le_refl _), Nat.sub_self, List.take_zero]
  | succ k ih =>
    by_cases hmore : i * D < olen
    · obtain ⟨f', hturn, hafter, hT⟩ := h.turn (by rw [h.length_last]; exact hfits i (Nat.le_refl i) hmore)
      have hnext : i * D + copyLen D olen (i * D) = min ((i + 1) * D) olen := by
        rw [copyLen, Nat.succ_mul]
        split <;> omega
      have hrest := ih (by omega) (fun j hj => hfits j (by omega)) hafter
      rw [Nat.min_eq_left (Nat.le_of_lt hmore), expandLoop_step hmore, hturn, ok_bind, hnext, hrest, ok_bind, hT,
        List.range'_succ, List.flatMap_cons, List.take_append, length_T_succ, ← hnext]
      congr 2
      · rw [copyLen]
        split
        · rfl
        · rw [List.take_of_length_le (Nat.le_of_eq (length_T_succ _ _)), List.take_of_length_le]
          rw [length_T_succ]
          omega
      · congr 1
        rw [copyLen]
        split <;> omega
    · rw [Nat.min_eq_right (by omega), expandLoop_end (Nat.le_refl _), Nat.sub_self, List.take_zero]

/-- A call whose output is not too long answers what it is to answer, exactly if every round has room for its message.
-/
theorem hkdfExpand_eq (buf : Vector UInt8 (D + 256 + 1)) :
    hkdfExpand hmac prk info buf olen = .ok (answer hmac prk (infoBytes info) olen) ↔ Fits D info olen := by
  have hD := Nat.pos_of_neZero D
  have hafter : After hmac prk info 0 ⟨Vector.replicate D 0, buf, 0, 1⟩ := after_zero buf
  by_cases hlong : olen > 255 * D
  · refine iff_of_true ?_ (.inl hlong)
    rw [hkdfExpand, answer, if_pos hlong, if_pos hlong]
    rfl
  · rw [hkdfExpand, answer, if_neg hlong, if_neg hlong]
    constructor
    · intro hrun
      by_contra hnot
      obtain ⟨-, hne, hinfo, hfirst⟩ : ¬olen > 255 * D ∧ olen ≠ 0 ∧ ¬(infoBytes info).length ≤ 256 ∧
          ¬(olen ≤ D ∧ (infoBytes info).length ≤ D + 256) := by
        simpa only [Fits, not_or] using hnot
      rw [expandLoop_step (Nat.pos_of_ne_zero hne)] at hrun
      by_cases hroom : (infoBytes info).length ≤ D + 256
      · -- the first round has room, and there is a second one
        obtain ⟨f, hturn, hnext, -⟩ := hafter.turn (by rw [hafter.length_last, if_pos rfl]; omega)
        have hmore : 0 + copyLen D olen 0 < olen := by
          rw [copyLen]
          split <;> omega
        have hsecond : turn hmac prk info f = .error ⟨D + 256 + 1⟩ :=
          turn_error (by rw [hnext.length_last, if_neg (by decide)]; omega)
        rw [hturn, ok_bind, expandLoop_step hmore, hsecond] at hrun
        exact absurd hrun (by simp)
      · rw [turn_error (by rw [hafter.length_last, if_pos rfl]; omega)] at hrun
        exact absurd hrun (by simp)
    · intro hfits
      have hroom : ∀ j, 0 ≤ j → j * D < olen → (if j = 0 then 0 else D) + (infoBytes info).length ≤ D + 256 := by
        intro j _ hj
        rcases hfits with h | h | h | ⟨h, hinfo⟩
        · exact absurd h hlong
        · omega
        · split <;> omega
        · have hzero : j = 0 := by
            by_contra hne
            have := Nat.le_mul_of_pos_left D (Nat.pos_of_ne_zero hne)
            omega
          rw [if_pos hzero]
          omega
      have hloop := expandLoop_eq (i := 0) (k := 255) rfl (Nat.le_of_not_lt hlong) hroom hafter
      rw [Nat.zero_mul, Nat.zero_min, Nat.sub_zero] at hloop
      rw [hloop]
      rfl

end Loop

/-- Both functions, over any HMAC: every access stays inside `buf` and the call answers -1 for an output that is too
long, and otherwise the bytes of the expansion, exactly if every round has room for its message. -/
theorem hkdf_expand (hmac : Vector UInt8 32 → List UInt8 → Vector UInt8 32) (hmac' : Vector UInt8 64 → List UInt8 →
    Vector UInt8 64)
    (prk : Vector UInt8 32) (prk' : Vector UInt8 64) (buf : Vector UInt8 289) (buf' : Vector UInt8 321)
    (info : Option (List UInt8)) (olen : Nat) :
    (sha256HkdfExpand hmac prk info buf olen = .ok (answer hmac prk (infoBytes info) olen) ↔ Fits 32 info olen) ∧
      (sha512HkdfExpand hmac' prk' info buf' olen = .ok (answer hmac' prk' (infoBytes info) olen) ↔
      Fits 64 info olen) :=
  ⟨hkdfExpand_eq buf, hkdfExpand_eq buf'⟩

/-- Two blocks with 257 bytes of info: in the second round the counter is stored behind the end of the buffer. -/
theorem hkdf_expand_long_info :
    sha256HkdfExpand (fun _ _ => Vector.replicate 32 0) (Vector.replicate 32 0) (some (List.replicate 257 0))
    (Vector.replicate 289 0) 33 ≠
      .ok (answer (fun _ _ => Vector.replicate 32 0) (Vector.replicate 32 0) (List.replicate 257 0) 33) := by
  intro h
  have hfits : Fits 32 (some (List.replicate 257 0)) 33 := (hkdfExpand_eq _).1 h
  rw [Fits, infoBytes, Option.getD_some, List.length_replicate] at hfits
  omega

end JACLibc.Hkdf
