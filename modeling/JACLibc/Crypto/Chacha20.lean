import JACLibc.CString
import JACLibc.Crypto.Poly1305Spec

/-!
# ChaCha20-Poly1305

The stream cipher and the authenticated encryption of `crypto/chacha20.h`.  A word of the key stream is read as its
bytes, lowest first, as on a little-endian machine, and so are the two lengths at the end of what is authenticated.
Input and output buffers are distinct; a buffer that is written is the memory from its pointer on.
-/

namespace JACLibc.Chacha20

open Poly1305 (load32Le)

/-- The words of a block. -/
abbrev words : Nat := 16

local instance : NeZero words := ⟨by decide⟩

abbrev State := Vector (BitVec 32) words

/-- A key of `CHACHA20_KEY_SIZE` bytes. -/
abbrev Key := { key : List UInt8 // key.length = 32 }

/-- A nonce of `CHACHA20_NONCE_SIZE` bytes. -/
abbrev Nonce := { nonce : List UInt8 // nonce.length = 12 }

/-! ### The stream cipher -/

/-- `__jacl_chacha20_qr` on the words `a`, `b`, `c`, `d` of the state. -/
def qr (x : State) (a b c d : Fin words) : State :=
  let x := x.set a (x[a] + x[b])
  let x := x.set d ((x[d] ^^^ x[a]).rotateLeft 16)
  let x := x.set c (x[c] + x[d])
  let x := x.set b ((x[b] ^^^ x[c]).rotateLeft 12)
  let x := x.set a (x[a] + x[b])
  let x := x.set d ((x[d] ^^^ x[a]).rotateLeft 8)
  let x := x.set c (x[c] + x[d])
  x.set b ((x[b] ^^^ x[c]).rotateLeft 7)

/-- A column round and a diagonal round. -/
def doubleRound (x : State) : State :=
  let x := qr x 0 4 8 12
  let x := qr x 1 5 9 13
  let x := qr x 2 6 10 14
  let x := qr x 3 7 11 15
  let x := qr x 0 5 10 15
  let x := qr x 1 6 11 12
  let x := qr x 2 7 8 13
  qr x 3 4 9 14

/-- `__jacl_chacha20_block` -/
def block (input : State) : State :=
  Vector.zipWith (· + ·) ((List.range 10).foldl (fun x _ => doubleRound x) input) input

/-- `chacha20_init`: the state of the context. -/
def init (key : Key) (nonce : Nonce) (counter : BitVec 32) : State :=
  #v[0x61707865, 0x3320646e, 0x79622d32, 0x6b206574, load32Le key.1 0, load32Le key.1 4, load32Le key.1 8,
    load32Le key.1 12, load32Le key.1 16, load32Le key.1 20, load32Le key.1 24, load32Le key.1 28, counter,
    load32Le nonce.1 0, load32Le nonce.1 4, load32Le nonce.1 8]

/-- The bytes of a block of the key stream. -/
def blockBytes (x : State) : List UInt8 := x.toList.flatMap fun w => Bytes.le 4 w.toNat

/-- The loop of `chacha20_xor`: the bytes written for the input that is left. -/
def xorLoop : Nat → State → List UInt8 → List UInt8
  | 0, _, _ => []
  | fuel + 1, state, input =>
    if input = [] then []
    else
      List.zipWith (· ^^^ ·) (input.take 64) (blockBytes (block state)) ++
        xorLoop fuel (state.set 12 (state[12] + 1)) (input.drop 64)

/-- `chacha20_xor`; every turn takes a byte. -/
def chacha20Xor (state : State) (input : List UInt8) : List UInt8 := xorLoop input.length state input

@[simp]
theorem length_blockBytes (x : State) : (blockBytes x).length = 64 := by
  unfold blockBytes
  simp [List.length_flatMap, words]

theorem length_xorLoop (fuel : Nat) : ∀ (state : State) {input : List UInt8}, input.length ≤ fuel →
    (xorLoop fuel state input).length = input.length := by
  induction fuel with
  | zero =>
    intro state input h
    exact (Nat.le_zero.1 h).symm
  | succ fuel ih =>
    intro state input h
    unfold xorLoop
    split
    · next hnil => rw [hnil]
    · next hnil =>
      have hpos := List.length_pos_of_ne_nil hnil
      rw [List.length_append, List.length_zipWith, length_blockBytes, List.length_take,
        ih _ (by rw [List.length_drop]; omega), List.length_drop]
      omega

@[simp]
theorem length_chacha20Xor (state : State) (input : List UInt8) : (chacha20Xor state input).length = input.length :=
  length_xorLoop _ state (Nat.le_refl _)

theorem zipWith_xor_cancel (xs ks : List UInt8) (h : xs.length ≤ ks.length) :
    List.zipWith (· ^^^ ·) (List.zipWith (· ^^^ ·) xs ks) ks = xs := by
  induction xs generalizing ks with
  | nil => rfl
  | cons x xs ih =>
    cases ks with
    | nil => exact absurd h (by simp)
    | cons k ks =>
      rw [List.zipWith_cons_cons, List.zipWith_cons_cons, UInt8.xor_assoc, UInt8.xor_self, UInt8.xor_zero,
        ih ks (by simpa using h)]

/-- The front of a block's length and the rest of what was cut, put together again. -/
theorem take_drop_front {input front rest : List UInt8} (hrest : rest.length = (input.drop 64).length)
    (hfront : front.length = min 64 input.length) : (front ++ rest).take 64 = front ∧
    (front ++ rest).drop 64 = rest := by
  rw [List.length_drop] at hrest
  by_cases hlong : 64 ≤ input.length
  · exact ⟨List.take_left' (by omega), List.drop_left' (by omega)⟩
  · obtain rfl := List.length_eq_zero_iff.1 (show rest.length = 0 by omega)
    rw [List.append_nil]
    exact ⟨List.take_of_length_le (by omega), List.drop_of_length_le (by omega)⟩

/-- The same state undoes what it did, block by block. -/
theorem xorLoop_xorLoop (fuel : Nat) : ∀ (state : State) {input : List UInt8}, input.length ≤ fuel →
    xorLoop fuel state (xorLoop fuel state input) = input := by
  induction fuel with
  | zero =>
    intro state input h
    exact (List.length_eq_zero_iff.1 (Nat.le_zero.1 h)).symm
  | succ fuel ih =>
    intro state input h
    by_cases hnil : input = []
    · subst hnil
      rfl
    · have hpos := List.length_pos_of_ne_nil hnil
      have hrest : (input.drop 64).length ≤ fuel := by
        rw [List.length_drop]
        omega
      have hcut := take_drop_front (length_xorLoop fuel (state.set 12 (state[12] + 1)) hrest)
        (show (List.zipWith (· ^^^ ·) (input.take 64) (blockBytes (block state))).length = min 64 input.length by simp)
      have hne : List.zipWith (· ^^^ ·) (input.take 64) (blockBytes (block state)) ++
          xorLoop fuel (state.set 12 (state[12] + 1)) (input.drop 64) ≠ [] := by
        intro h'
        have hfront := congrArg List.length h'
        rw [List.length_append, List.length_zipWith, List.length_take, length_blockBytes, List.length_nil] at hfront
        omega
      rw [xorLoop, xorLoop, if_neg hnil, if_neg hne, hcut.1, hcut.2, ih _ hrest, zipWith_xor_cancel _ _ (by simp),
        List.take_append_drop]

theorem chacha20Xor_chacha20Xor (state : State) (input : List UInt8) :
    chacha20Xor state (chacha20Xor state input) = input := by
  unfold chacha20Xor
  rw [length_xorLoop _ _ (Nat.le_refl _)]
  exact xorLoop_xorLoop _ state (Nat.le_refl _)

/-! ### Authenticated encryption -/

/-- `polykey` -/
def polykey (key : Key) (nonce : Nonce) : Poly1305.Key :=
  ⟨chacha20Xor (init key nonce 0) (List.replicate 32 0), by rw [length_chacha20Xor, List.length_replicate]⟩

/-- The data and the zeros up to the next sixteen bytes, as they are given to `poly1305_update`. -/
def padded (data : List UInt8) : List (List UInt8) :=
  data :: if data.length % 16 ≠ 0 then [List.replicate (16 - data.length % 16) 0] else []

/-- The arguments of the calls of `poly1305_update`, in order.  The additional data may be NULL. -/
def updates (aad : Option Object) (ct : Object) : List (List UInt8) :=
  let alen := (aad.map fun a => a.bytes.length).getD 0
  (match aad with
    | some a => if alen ≠ 0 then padded a.bytes else []
    | none => []) ++
    padded ct.bytes ++ [Bytes.le 8 alen ++ Bytes.le 8 ct.bytes.length]

/-- A tag of `POLY1305_TAG_SIZE` bytes. -/
abbrev Tag := { tag : List UInt8 // tag.length = 16 }

theorem length_mac (key : Poly1305.Key) (pieces : List (List UInt8)) : (Poly1305.mac key pieces).length = 16 := by
  simp [Poly1305.mac, Poly1305.final, Poly1305.tagBytes]

/-- The tag both functions compute: `poly1305_init`, the updates, `poly1305_final`. -/
def authTag (key : Key) (nonce : Nonce) (aad : Option Object) (ct : Object) : Tag :=
  ⟨Poly1305.mac (polykey key nonce) (updates aad ct), length_mac _ _⟩

/-- `chacha20poly1305_encrypt`: the ciphertext and the tag. -/
def encrypt (key : Key) (nonce : Nonce) (aad : Option Object) (pt : Object) : Object × Tag :=
  let ct : Object := ⟨chacha20Xor (init key nonce 1) pt.bytes, by rw [length_chacha20Xor]; exact pt.fits⟩
  (ct, authTag key nonce aad ct)

/-- `__jacl_timingsafe_memcmp` -/
def timingsafeMemcmp (a b : List UInt8) : UInt8 := (a.zip b).foldl (fun d p => d ||| (p.1 ^^^ p.2)) 0

/-- `chacha20poly1305_decrypt`: the answer, and what is at `pt` afterwards. -/
def decrypt (key : Key) (nonce : Nonce) (aad : Option Object) (ct : Object) (tag : Tag) (pt : List UInt8) :
    Int × List UInt8 :=
  let ctag := authTag key nonce aad ct
  if timingsafeMemcmp tag.1 ctag.1 ≠ 0 then (-1, pt)
  else (0, chacha20Xor (init key nonce 1) ct.bytes ++ pt.drop ct.bytes.length)

/-! ### What is authenticated -/

theorem timingsafeMemcmp_eq_zero {a b : List UInt8} (h : a.length = b.length) : timingsafeMemcmp a b = 0 ↔ a = b := by
  have key : ∀ (a b : List UInt8) (d : UInt8), a.length = b.length →
      ((a.zip b).foldl (fun d p => d ||| (p.1 ^^^ p.2)) d = 0 ↔ d = 0 ∧ a = b) := by
    intro a
    induction a with
    | nil =>
      intro b d h
      obtain rfl := List.length_eq_zero_iff.1 h.symm
      simp
    | cons x a ih =>
      intro b d h
      obtain ⟨y, b, rfl⟩ := List.exists_cons_of_length_eq_add_one h.symm
      rw [List.zip_cons_cons, List.foldl_cons, ih b _ (by simpa using h), UInt8.or_eq_zero_iff, UInt8.xor_eq_zero_iff,
        List.cons.injEq, and_assoc]
  simpa [timingsafeMemcmp] using key a b 0 h

/-- The additional data; none for NULL. -/
def aadBytes (aad : Option Object) : List UInt8 := (aad.map Object.bytes).getD []

/-- Data with its zeros. -/
def zeroPad (data : List UInt8) : List UInt8 := (padded data).flatten

theorem updates_flatten (aad : Option Object) (ct : Object) :
    (updates aad ct).flatten =
      zeroPad (aadBytes aad) ++ zeroPad ct.bytes ++
      (Bytes.le 8 (aadBytes aad).length ++ Bytes.le 8 ct.bytes.length) := by
  unfold updates
  cases aad with
  | none => simp [aadBytes, zeroPad, padded]
  | some a =>
    by_cases ha : a.bytes = []
    · simp [aadBytes, ha, zeroPad, padded]
    · simp [aadBytes, ha, zeroPad]

theorem zeroPad_eq (data : List UInt8) : ∃ n, zeroPad data = data ++ List.replicate n 0 ∧
    n = (16 - data.length % 16) % 16 := by
  refine ⟨_, ?_, rfl⟩
  unfold zeroPad padded
  split
  · rw [Nat.mod_eq_of_lt (show 16 - data.length % 16 < 16 by omega)]
    simp
  · next h =>
    rw [not_not.1 h]
    simp

/-- The zeros depend on the length of the data only. -/
theorem zeroPad_inj {a b : List UInt8} (hlength : a.length = b.length) {s t : List UInt8}
    (h : zeroPad a ++ s = zeroPad b ++ t) :
    a = b ∧ s = t := by
  obtain ⟨m, ha, hm⟩ := zeroPad_eq a
  obtain ⟨n, hb, hn⟩ := zeroPad_eq b
  have hmn : m = n := by rw [hm, hn, hlength]
  subst hmn
  rw [ha, hb, List.append_assoc, List.append_assoc] at h
  obtain ⟨hab, hrest⟩ := List.append_inj h hlength
  exact ⟨hab, (List.append_inj hrest rfl).2⟩

/-- The lengths at the end tell where the additional data and the ciphertext are. -/
theorem updates_inj {aad aad' : Option Object} {ct ct' : Object}
    (h : (updates aad ct).flatten = (updates aad' ct').flatten) :
    aadBytes aad = aadBytes aad' ∧ ct = ct' := by
  have hfits : ∀ aad : Option Object, (aadBytes aad).length < 256 ^ 8 := by
    intro aad
    cases aad with
    | none => exact Nat.succ_pos _
    | some a => exact lt_trans a.fits (by decide)
  have hct : ∀ ct : Object, ct.bytes.length < 256 ^ 8 := fun ct => lt_trans ct.fits (by decide)
  rw [updates_flatten, updates_flatten] at h
  obtain ⟨hdata, hlens⟩ := List.append_inj' h (by simp)
  obtain ⟨halen, hclen⟩ := List.append_inj hlens (by simp)
  have ha := Bytes.le_inj (hfits aad) (hfits aad') halen
  have hc := Bytes.le_inj (hct ct) (hct ct') hclen
  obtain ⟨haad, hrest⟩ := zeroPad_inj ha hdata
  have hbytes := (zeroPad_inj hc (by rw [hrest] : zeroPad ct.bytes ++ [] = zeroPad ct'.bytes ++ [])).1
  cases ct
  cases ct'
  subst hbytes
  exact ⟨haad, rfl⟩

/-- Decryption gives back what was encrypted; it answers 0 exactly for the tag it computes, and otherwise writes
nothing; the tag is that of the bytes given to `poly1305_update`, which are those of one pair of additional data and
ciphertext only. -/
theorem aead :
    (∀ (key : Key) (nonce : Nonce) (aad : Option Object) (pt : Object) (buf : List UInt8),
      decrypt key nonce aad (encrypt key nonce aad pt).1 (encrypt key nonce aad pt).2 buf =
      (0, pt.bytes ++ buf.drop pt.bytes.length)) ∧
    (∀ (key : Key) (nonce : Nonce) (aad : Option Object) (ct : Object) (tag : Tag) (buf : List UInt8),
      decrypt key nonce aad ct tag buf =
        if tag = authTag key nonce aad ct then (0, chacha20Xor (init key nonce 1) ct.bytes ++ buf.drop ct.bytes.length)
        else (-1, buf)) ∧
    (∀ (key : Key) (nonce : Nonce) (aad : Option Object) (ct : Object),
      (authTag key nonce aad ct).1 = Poly1305.poly1305 (polykey key nonce) (updates aad ct).flatten) ∧
    ∀ (aad aad' : Option Object) (ct ct' : Object),
      (updates aad ct).flatten = (updates aad' ct').flatten ↔ aadBytes aad = aadBytes aad' ∧ ct = ct' := by
  have hdecrypt : ∀ (key : Key) (nonce : Nonce) (aad : Option Object) (ct : Object) (tag : Tag) (buf : List UInt8),
      decrypt key nonce aad ct tag buf =
        if tag = authTag key nonce aad ct then (0, chacha20Xor (init key nonce 1) ct.bytes ++ buf.drop ct.bytes.length)
        else (-1, buf) := by
    intro key nonce aad ct tag buf
    have heq := timingsafeMemcmp_eq_zero (tag.2.trans (authTag key nonce aad ct).2.symm)
    unfold decrypt
    by_cases htag : tag = authTag key nonce aad ct
    · rw [if_neg (not_not.2 (heq.2 (congrArg Subtype.val htag))), if_pos htag]
    · rw [if_pos (fun h => htag (Subtype.ext (heq.1 h))), if_neg htag]
  refine ⟨?_, hdecrypt, ?_, ?_⟩
  · intro key nonce aad pt buf
    rw [hdecrypt, if_pos (show (encrypt key nonce aad pt).2 =
      authTag key nonce aad (encrypt key nonce aad pt).1 from rfl)]
    change (0, chacha20Xor _ (chacha20Xor _ pt.bytes) ++ buf.drop (chacha20Xor _ pt.bytes).length) = _
    rw [chacha20Xor_chacha20Xor, length_chacha20Xor]
  · intro key nonce aad ct
    exact Poly1305.mac_eq _ _
  · intro aad aad' ct ct'
    constructor
    · exact updates_inj
    · rintro ⟨haad, rfl⟩
      rw [updates_flatten, updates_flatten, haad]

end JACLibc.Chacha20
