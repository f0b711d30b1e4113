import JACLibc.Lib.Checked
import JACLibc.Transit.Ws

/-!
# The bounds of WebSocket frames

The functions of `transit/ws.h` with every access checked: a read behind the bytes that have come and a write behind
the end of the buffer are faults.  Where there is none, the functions do what they do unchecked (`buildChecked_eq`,
`serveInChecked_eq`).  `ws_bounds` says for which buffers and lengths the accesses stay inside and frames are whole:
the masked builder cuts the payload, the reader looks at the bytes of a long length before they have come, and both
add a length of 64 bits to that of the header without looking at the carry.
-/

namespace JACLibc.Ws

/-- An access outside of the buffer. -/
inductive Fault
  | read (i : Nat)
  | write (i : Nat)
  deriving DecidableEq

/-! ### Building -/

/-- `buf[i++] = b` -/
def Out.store (s : Out) (b : UInt8) : Except Fault Out :=
  if s.i < s.buf.length then .ok (s.put b) else .error (.write s.i)

/-- Bytes stored one after the other. -/
def Out.stores (s : Out) : List UInt8 → Except Fault Out
  | [] => .ok s
  | b :: bs => do
    let s ← s.store b
    s.stores bs

/-- `buf[i]` -/
def Out.load (s : Out) (i : Nat) : Except Fault UInt8 :=
  if i < s.buf.length then .ok (s.buf.getD i 0) else .error (.read i)

/-- `memcpy(buf + i, payload + j, n)`, with the bytes that `payload` reads. -/
def copyLoop (payload : Nat → Except Fault UInt8) : Nat → Nat → Out → Except Fault Out
  | 0, _, s => .ok s
  | n + 1, j, s => do
    let c ← payload j
    let s ← s.store c
    copyLoop payload n (j + 1) s

/-- The loop that copies and masks; `n` bytes of the payload are left. -/
def maskChecked (payload : Nat → Except Fault UInt8) : Nat → Nat → Out → Except Fault Out
  | 0, _, s => .ok s
  | n + 1, j, s =>
    if s.i < s.buf.length then do
      let c ← payload j
      let k ← s.load (s.i - 4 + j % 4)
      let s ← s.store (c ^^^ k)
      maskChecked payload n (j + 1) s
    else .ok s

/-- `ws_frame_build` with checked accesses, for any length of 64 bits. -/
def buildChecked (buf : List UInt8) (opcode : Opcode) (payload : Nat → Except Fault UInt8) (len : BitVec 64)
    (mask : Option MaskKey) :
    Except Fault (Nat × List UInt8) :=
  if buf.length < 14 then .ok (0, buf)
  else do
    let s ← Out.stores ⟨buf, 0⟩ (header opcode mask.isSome len.toNat)
    match mask with
    | some key =>
      let s ← s.stores [key.k0, key.k1, key.k2, key.k3]
      let s ← maskChecked payload len.toNat 0 s
      .ok (s.i, s.buf)
    | none =>
      if (s.i + len.toNat) % 2 ^ 64 > buf.length then .ok (0, s.buf)
      else do
        let s' ← copyLoop payload len.toNat 0 s
        .ok ((s.i + len.toNat) % 2 ^ 64, s'.buf)

/-! ### Reading -/

/-- `sc->buf[i]`, of which `used` bytes have come. -/
def load (buf : List UInt8) (used i : Nat) : Except Fault UInt8 :=
  if i < used then .ok (buf.getD i 0) else .error (.read i)

/-- The eight bytes of a long length. -/
def longLen (rd : Nat → Except Fault UInt8) : List Nat → Nat → Except Fault Nat
  | [], len => .ok len
  | i :: is, len => do
    let b ← rd (1 + i)
    longLen rd is ((len <<< 8) % 2 ^ 64 ||| b.toNat)

/-- `ws_decode_len` with checked accesses. -/
def decodeChecked (rd : Nat → Except Fault UInt8) : Except Fault (Nat × Nat) := do
  let b ← rd 0
  let len := (b &&& 0x7F).toNat
  if len = 126 then
    let high ← rd 1
    let low ← rd 2
    .ok (high.toNat <<< 8 ||| low.toNat, 3)
  else if len = 127 then
    let len ← longLen rd (List.range 8) 0
    .ok (len, 9)
  else .ok (len, 1)

/-- The first part of `ws_serve_in` with checked accesses. -/
def readChecked (buf : List UInt8) (used : Nat) : Except Fault (Option Frame) :=
  if used < 2 then .ok none
  else do
    let b0 ← load buf used 0
    let b1 ← load buf used 1
    let (payloadLen, lenOffset) ← decodeChecked fun i => load buf used (1 + i)
    let masked : Bool := b1 &&& 0x80 ≠ 0
    let f : Frame :=
      { opcode := b0 &&& 0x0F, fin := b0 &&& 0x80 ≠ 0, masked, key := 2 + lenOffset,
        headerSize := 2 + lenOffset + if masked then 4 else 0, payloadLen }
    .ok (if used < f.size then none else some f)

/-- The byte of the key for the `j`-th byte of the payload. -/
def keyByte (rd : Nat → Except Fault UInt8) (f : Frame) (j : Nat) : Except Fault UInt8 :=
  if f.masked then rd (f.key + j % 4) else .ok 0

/-- The payload of a data frame from its `j`-th byte on. -/
def payloadChecked (rd : Nat → Except Fault UInt8) (f : Frame) : Nat → Nat → Except Fault (List UInt8)
  | 0, _ => .ok []
  | n + 1, j => do
    let c ← rd (f.headerSize + j)
    let k ← keyByte rd f j
    let cs ← payloadChecked rd f n (j + 1)
    .ok ((c ^^^ k) :: cs)

/-- `ws_serve_in` with checked accesses. -/
def serveInChecked (c : Conn) : Except Fault (Ret × Conn) := do
  match ← readChecked c.buf c.bufUsed with
  | none => .ok (.ok, c)
  | some f =>
    if f.opcode = Opcode.ping.code then
      -- `ws_send_pong` builds its frame in a buffer of 128 bytes
      let _ ← buildChecked (List.replicate 128 0) .pong (fun j => load c.buf c.bufUsed (f.headerSize + j))
        (BitVec.ofNat 64 f.payloadLen) none
      .ok (.ok, { c with replies := c.replies ++ [.pong (f.raw c.buf)], bufConsumed := f.size })
    else if f.opcode = Opcode.pong.code then .ok (.ok, { c with bufConsumed := f.size })
    else if f.opcode = Opcode.close.code then
      if f.payloadLen ≥ 2 then
        let high ← load c.buf c.bufUsed f.headerSize
        let low ← load c.buf c.bufUsed (f.headerSize + 1)
        .ok (.close, { c with closeCode := high.toNat <<< 8 ||| low.toNat })
      else .ok (.close, c)
    else if f.opcode = Opcode.text.code ∨ f.opcode = Opcode.binary.code then
      if (c.msgUsed + f.payloadLen) % 2 ^ 64 > c.msgBuf.length then
        .ok (.close, { c with replies := c.replies ++ [.close 1009 (lit "Message too big")] })
      else
        let payload ← payloadChecked (load c.buf c.bufUsed) f f.payloadLen 0
        let msg := c.msgBuf.take c.msgUsed ++ payload ++ c.msgBuf.drop (c.msgUsed + f.payloadLen)
        let used := c.msgUsed + f.payloadLen
        let msg := if f.fin ∧ f.opcode = Opcode.text.code then msg.set used 0 else msg
        .ok (.done, { c with msgBuf := msg, msgUsed := if f.fin then 0 else used, bufConsumed := f.size })
    else .ok (.ok, { c with bufConsumed := f.size })

/-! ### Accesses of the builder -/

theorem put_i (s : Out) (b : UInt8) : (s.put b).i = s.i + 1 := rfl

theorem put_length (s : Out) (b : UInt8) : (s.put b).buf.length = s.buf.length := List.length_set

theorem puts_i (s : Out) (bs : List UInt8) : (s.puts bs).i = s.i + bs.length := by
  induction bs generalizing s with
  | nil => rfl
  | cons b bs ih =>
    rw [Out.puts, List.foldl_cons]
    refine (ih (s.put b)).trans ?_
    rw [put_i, List.length_cons]
    omega

theorem puts_length (s : Out) (bs : List UInt8) : (s.puts bs).buf.length = s.buf.length := by
  induction bs generalizing s with
  | nil => rfl
  | cons b bs ih =>
    rw [Out.puts, List.foldl_cons]
    exact (ih (s.put b)).trans (put_length s b)

theorem store_ok {s : Out} (h : s.i < s.buf.length) (b : UInt8) : s.store b = .ok (s.put b) := if_pos h

theorem stores_ok {s : Out} {bs : List UInt8} (h : s.i + bs.length ≤ s.buf.length) : s.stores bs = .ok (s.puts bs) := by
  induction bs generalizing s with
  | nil => rfl
  | cons b bs ih =>
    rw [List.length_cons] at h
    rw [Out.stores, store_ok (by omega), ok_bind, ih (by rw [put_i, put_length]; omega)]
    rfl

/-- The header, behind which the key and the payload go. -/
theorem header_stored {buf : List UInt8} (hbuf : 14 ≤ buf.length) (opcode : Opcode) (masked : Bool) (len : Nat) :
    ∃ s, Out.stores ⟨buf, 0⟩ (header opcode masked len) = .ok s ∧ s.i = headerLen len ∧ s.buf.length = buf.length := by
  have hlen := length_header opcode masked len
  have h10 := headerLen_le len
  refine ⟨_, stores_ok ?_, ?_, puts_length _ _⟩
  · rw [hlen]
    dsimp only
    omega
  · rw [puts_i, hlen, Nat.zero_add]

/-- The builder stays inside of the buffer, and what it answers is a whole frame. -/
def BuildBounded (buf : List UInt8) (opcode : Opcode) (payload : Nat → Except Fault UInt8) (len : BitVec 64)
    (mask : Option MaskKey) : Prop :=
  ∃ n buf', buildChecked buf opcode payload len mask = .ok (n, buf') ∧
    (n ≠ 0 → headerLen len.toNat + (if mask.isSome then 4 else 0) + len.toNat ≤ buf.length)

/-- More bytes than there is room for are not copied without a fault. -/
theorem copyLoop_fault (payload : Nat → Except Fault UInt8) {n j : Nat} {s : Out} (hs : s.i ≤ s.buf.length)
    (h : s.buf.length < s.i + n) :
    ∃ e, copyLoop payload n j s = .error e := by
  induction n generalizing j s with
  | zero => omega
  | succ n ih =>
    rw [copyLoop]
    cases payload j with
    | error e => exact ⟨e, rfl⟩
    | ok c =>
      rw [ok_bind]
      by_cases hlt : s.i < s.buf.length
      · rw [store_ok hlt, ok_bind]
        apply ih
        · rw [put_i, put_length]
          exact hlt
        · rw [put_i, put_length]
          omega
      · exact ⟨.write s.i, by rw [Out.store, if_neg hlt]; rfl⟩

section Build

variable {payload : Nat → Except Fault UInt8} {bytes : Nat → UInt8} {m : Nat} (hpayload : ∀ j < m,
  payload j = .ok (bytes j))

include hpayload

theorem copyLoop_ok {n j : Nat} {s : Out} (hn : j + n ≤ m) (h : s.i + n ≤ s.buf.length) :
    copyLoop payload n j s = .ok (s.puts ((List.range' j n).map bytes)) := by
  induction n generalizing j s with
  | zero => rfl
  | succ n ih =>
    rw [copyLoop, hpayload j (by omega), ok_bind, store_ok (by omega), ok_bind,
      ih (by omega) (by rw [put_i, put_length]; omega)]
    rfl

/-- The masking loop stays inside and stops at the end of the payload or of the buffer. -/
theorem maskChecked_ok {n j : Nat} {s : Out} (hn : j + n ≤ m) (hs : s.i ≤ s.buf.length) (hkey : 4 ≤ s.i) :
    ∃ s', maskChecked payload n j s = .ok s' ∧ s'.i = min (s.i + n) s.buf.length := by
  induction n generalizing j s with
  | zero => exact ⟨s, rfl, by omega⟩
  | succ n ih =>
    rw [maskChecked]
    by_cases hlt : s.i < s.buf.length
    · have hload : s.load (s.i - 4 + j % 4) = .ok (s.buf.getD (s.i - 4 + j % 4) 0) := if_pos (by omega)
      rw [if_pos hlt, hpayload j (by omega), ok_bind, hload, ok_bind, store_ok hlt, ok_bind]
      obtain ⟨s', hs', hi⟩ := ih (j := j + 1) (s := s.put (bytes j ^^^ s.buf.getD (s.i - 4 + j % 4) 0)) (by omega)
        (by rw [put_i, put_length]; exact hlt) (by rw [put_i]; omega)
      refine ⟨s', hs', ?_⟩
      rw [hi, put_i, put_length]
      omega
    · exact ⟨s, if_neg hlt, by omega⟩

end Build

section Bounded

variable {payload : Nat → Except Fault UInt8} {bytes : Nat → UInt8} {len : BitVec 64} (hpayload : ∀ j < len.toNat,
  payload j = .ok (bytes j))

include hpayload

/-- The length of an unmasked frame has no carry, or the masked frame fits. -/
def FrameFits (size len : Nat) : Option MaskKey → Prop
  | none => headerLen len + len < 2 ^ 64
  | some _ => headerLen len + 4 + len ≤ size

/-- Without a mask it is the carry that lets a frame through that does not fit. -/
theorem build_unmasked {buf : List UInt8} (hbuf : buf.length < 2 ^ 64) (hbig : 14 ≤ buf.length) (opcode : Opcode) :
    BuildBounded buf opcode payload len none ↔ headerLen len.toNat + len.toNat < 2 ^ 64 := by
  obtain ⟨s, hs, hi, hlength⟩ := header_stored hbig opcode false len.toNat
  have h10 := headerLen_le len.toNat
  have h2 := two_le_headerLen len.toNat
  have hlen := len.isLt
  unfold BuildBounded buildChecked
  rw [if_neg (Nat.not_lt.2 hbig), Option.isSome_none, hs, ok_bind]
  dsimp only
  rw [hi]
  by_cases hcarry : headerLen len.toNat + len.toNat < 2 ^ 64
  · rw [Nat.mod_eq_of_lt hcarry]
    refine iff_of_true ?_ hcarry
    by_cases hfit : headerLen len.toNat + len.toNat > buf.length
    · rw [if_pos hfit]
      exact ⟨0, s.buf, rfl, fun h => absurd rfl h⟩
    · rw [if_neg hfit, copyLoop_ok hpayload (by omega) (by omega), ok_bind]
      refine ⟨_, _, rfl, fun _ => ?_⟩
      rw [if_neg (by decide)]
      omega
  · refine iff_of_false ?_ hcarry
    rintro ⟨n, buf', hrun, -⟩
    obtain ⟨e, he⟩ := copyLoop_fault payload (n := len.toNat) (j := 0) (s := s) (by omega) (by omega)
    rw [if_neg (by omega), he] at hrun
    exact absurd hrun (by simp)

/-- With a mask the payload is cut at the end of the buffer. -/
theorem build_masked {buf : List UInt8} (hbig : 14 ≤ buf.length) (opcode : Opcode) (key : MaskKey) :
    BuildBounded buf opcode payload len (some key) ↔ headerLen len.toNat + 4 + len.toNat ≤ buf.length := by
  obtain ⟨s, hs, hi, hlength⟩ := header_stored hbig opcode true len.toNat
  have h10 := headerLen_le len.toNat
  have hkey : s.stores [key.k0, key.k1, key.k2, key.k3] = .ok (s.puts [key.k0, key.k1, key.k2, key.k3]) :=
    stores_ok (by rw [hi, hlength, List.length_cons, List.length_cons, List.length_cons, List.length_singleton]; omega)
  have hi' : (s.puts [key.k0, key.k1, key.k2, key.k3]).i = headerLen len.toNat + 4 := by
    rw [puts_i, hi]
    rfl
  have hlength' := puts_length s [key.k0, key.k1, key.k2, key.k3]
  obtain ⟨s', hs', hend⟩ := maskChecked_ok hpayload (n := len.toNat) (j := 0)
    (s := s.puts [key.k0, key.k1, key.k2, key.k3])
    (by omega) (by omega) (by omega)
  unfold BuildBounded buildChecked
  rw [if_neg (Nat.not_lt.2 hbig), Option.isSome_some, hs, ok_bind]
  dsimp only
  rw [hkey, ok_bind, hs', ok_bind, if_pos rfl]
  constructor
  · rintro ⟨n, buf', hrun, hwhole⟩
    refine hwhole ?_
    have hn := (Prod.mk.inj (Except.ok.inj hrun)).1
    omega
  · exact fun hfit => ⟨_, _, rfl, fun _ => hfit⟩

/-- For which lengths the builder is right. -/
theorem build_bounded_iff {buf : List UInt8} (hbuf : buf.length < 2 ^ 64) (opcode : Opcode) (mask : Option MaskKey) :
    BuildBounded buf opcode payload len mask ↔ buf.length < 14 ∨ FrameFits buf.length len.toNat mask := by
  by_cases hbig : 14 ≤ buf.length
  · rw [or_iff_right (Nat.not_lt.2 hbig)]
    cases mask with
    | none => exact build_unmasked hpayload hbuf hbig opcode
    | some key => exact build_masked hpayload hbig opcode key
  · refine iff_of_true ⟨0, buf, if_pos (Nat.not_le.1 hbig), fun h => absurd rfl h⟩ (.inl (Nat.not_le.1 hbig))

end Bounded

/-! ### The builder without checks -/

/-- A payload in memory. -/
def payloadOf (payload : List UInt8) (j : Nat) : Except Fault UInt8 := .ok (payload.getD j 0)

theorem maskChecked_eq (payload : List UInt8) {q : List UInt8} {j : Nat} (hq : payload.drop j = q) {s s' : Out}
    (hrun : maskChecked (payloadOf payload) q.length j s = .ok s') : s' = maskLoop s.buf.length q j s := by
  induction q generalizing j s with
  | nil => exact (Except.ok.inj hrun).symm
  | cons c q ih =>
    have hc : payload.getD j 0 = c := by
      rw [List.getD_eq_getElem?_getD, ← List.head?_drop, hq]
      rfl
    have hq' : payload.drop (j + 1) = q := by
      rw [← List.tail_drop, hq]
      rfl
    rw [List.length_cons, maskChecked] at hrun
    rw [maskLoop]
    by_cases hlt : s.i < s.buf.length
    · rw [if_pos hlt, payloadOf, hc, ok_bind, bind_eq_ok] at hrun
      obtain ⟨k, hk, hrun⟩ := hrun
      unfold Out.load at hk
      split at hk
      · obtain rfl := Except.ok.inj hk
        rw [store_ok hlt, ok_bind] at hrun
        rw [if_pos hlt, ih hq' hrun, put_length]
      · exact absurd hk (by simp)
    · rw [if_neg hlt] at hrun ⊢
      exact (Except.ok.inj hrun).symm

theorem range_map_getD (payload : List UInt8) : (List.range' 0 payload.length).map (fun j => payload.getD j 0) =
    payload := by
  apply List.ext_getElem
  · rw [List.length_map, List.length_range']
  · intro i h₁ h₂
    rw [List.getElem_map, List.getElem_range', Nat.zero_add, Nat.one_mul, List.getD_eq_getElem?_getD,
      List.getElem?_eq_getElem h₂, Option.getD_some]

/-- Where no access is outside, the builder is the one without checks. -/
theorem buildChecked_eq {buf payload : Object} {opcode : Opcode} {mask : Option MaskKey} {r : Nat × List UInt8}
    (hrun : buildChecked buf.bytes opcode (payloadOf payload.bytes) (BitVec.ofNat 64 payload.bytes.length) mask =
    .ok r) :
    frameBuild buf opcode payload mask = r := by
  have hfits := payload.fits
  have hbuf := buf.fits
  have hlen : (BitVec.ofNat 64 payload.bytes.length).toNat = payload.bytes.length := by
    rw [BitVec.toNat_ofNat, Nat.mod_eq_of_lt (by omega)]
  have h10 := headerLen_le payload.bytes.length
  unfold buildChecked at hrun
  rw [hlen] at hrun
  unfold frameBuild
  by_cases hsmall : buf.bytes.length < 14
  · rw [if_pos hsmall] at hrun ⊢
    exact Except.ok.inj hrun
  · have hheader : ((Out.mk buf.bytes 0).put (0x80 ||| (opcode.code &&& 0x0F))).puts
      (lengthBytes mask.isSome payload.bytes.length) =
        (Out.mk buf.bytes 0).puts (header opcode mask.isSome payload.bytes.length) := rfl
    have hi := puts_i ⟨buf.bytes, 0⟩ (header opcode mask.isSome payload.bytes.length)
    have hlength := puts_length ⟨buf.bytes, 0⟩ (header opcode mask.isSome payload.bytes.length)
    rw [length_header, Nat.zero_add] at hi
    rw [if_neg hsmall] at hrun ⊢
    rw [stores_ok (by rw [length_header]; dsimp only; omega), ok_bind] at hrun
    rw [hheader]
    generalize (Out.mk buf.bytes 0).puts (header opcode mask.isSome payload.bytes.length) = s at hi hlength hrun
    cases mask with
    | none =>
      dsimp only at hrun ⊢
      by_cases hfit : (s.i + payload.bytes.length) % 2 ^ 64 > buf.bytes.length
      · rw [if_pos hfit] at hrun ⊢
        exact Except.ok.inj hrun
      · have hmod : (s.i + payload.bytes.length) % 2 ^ 64 = s.i + payload.bytes.length := Nat.mod_eq_of_lt (by omega)
        have hcopy : copyLoop (payloadOf payload.bytes) payload.bytes.length 0 s = _ :=
          copyLoop_ok (fun _ _ => rfl) (Nat.le_refl _) (by dsimp only at hlength; omega)
        rw [range_map_getD] at hcopy
        rw [if_neg hfit, hcopy, ok_bind, hmod] at hrun
        rw [if_neg hfit]
        exact Except.ok.inj hrun
    | some key =>
      dsimp only at hrun hlength ⊢
      rw [stores_ok (by simp only [List.length_cons, List.length_nil]; omega), ok_bind, bind_eq_ok] at hrun
      obtain ⟨s', hs', hrun⟩ := hrun
      have hmask := maskChecked_eq payload.bytes (j := 0) (q := payload.bytes) rfl hs'
      rw [puts_length, hlength] at hmask
      rw [← hmask]
      exact Except.ok.inj hrun

/-! ### Accesses of the reader -/

theorem load_ok {used i : Nat} (h : i < used) (buf : List UInt8) : load buf used i = .ok (buf.getD i 0) := if_pos h

theorem load_fault {used i : Nat} (h : used ≤ i) (buf : List UInt8) : load buf used i = .error (.read i) :=
  if_neg (Nat.not_lt.2 h)

section Read

variable (buf : List UInt8) (used : Nat)

theorem getD_tail (i : Nat) : buf.tail.getD i 0 = buf.getD (1 + i) 0 := by
  rw [List.getD_eq_getElem?_getD, List.getD_eq_getElem?_getD, List.getElem?_tail, Nat.add_comm]

theorem longLen_ok {is : List Nat} (his : ∀ i ∈ is, i + 2 < used) (len : Nat) :
    longLen (fun i => load buf used (1 + i)) is len =
      .ok (is.foldl (fun len i => (len <<< 8) % 2 ^ 64 ||| (buf.tail.getD (1 + i) 0).toNat) len) := by
  induction is generalizing len with
  | nil => rfl
  | cons i is ih =>
    obtain ⟨hi, his⟩ := List.forall_mem_cons.1 his
    rw [longLen, load_ok (by omega), ok_bind, ih his, List.foldl_cons, getD_tail]

theorem longLen_fault {is : List Nat} {i : Nat} (hi : i ∈ is) (hused : used ≤ i + 2) (len : Nat) :
    ∃ e, longLen (fun i => load buf used (1 + i)) is len = .error e := by
  induction is generalizing len with
  | nil => exact absurd hi List.not_mem_nil
  | cons x is ih =>
    rw [longLen]
    by_cases hx : used ≤ 1 + (1 + x)
    · exact ⟨.read (1 + (1 + x)), by rw [load_fault hx]; rfl⟩
    · rw [load_ok (Nat.not_le.1 hx), ok_bind]
      rcases List.mem_cons.1 hi with rfl | hi
      · omega
      · exact ih hi _

/-- The bytes of the length are read, all of them, and looked at whether they have come or not. -/
theorem decodeChecked_eq (hused : 2 ≤ used) :
    (1 + (decodeLen buf.tail).2 ≤ used → decodeChecked (fun i => load buf used (1 + i)) = .ok (decodeLen buf.tail)) ∧
      (used < 1 + (decodeLen buf.tail).2 → ∃ e, decodeChecked (fun i => load buf used (1 + i)) = .error e) := by
  have h0 : load buf used 1 = .ok (buf.tail.getD 0 0) := by rw [load_ok (by omega), getD_tail]
  unfold decodeChecked decodeLen
  simp only [Nat.reduceAdd, h0, ok_bind]
  by_cases h126 : (buf.tail.getD 0 0 &&& 0x7F).toNat = 126
  · rw [if_pos h126, if_pos h126]
    dsimp only
    constructor
    · intro h
      rw [load_ok (by omega), ok_bind, load_ok (by omega), ok_bind, getD_tail, getD_tail]
    · intro h
      by_cases h1 : used ≤ 2
      · exact ⟨.read 2, by rw [load_fault h1]; rfl⟩
      · exact ⟨.read 3, by rw [load_ok (Nat.not_le.1 h1), ok_bind, load_fault (by omega)]; rfl⟩
  · rw [if_neg h126, if_neg h126]
    by_cases h127 : (buf.tail.getD 0 0 &&& 0x7F).toNat = 127
    · rw [if_pos h127, if_pos h127]
      constructor
      · intro h
        rw [longLen_ok buf used (fun i hi => by rw [List.mem_range] at hi; dsimp only at h; omega), ok_bind]
      · intro h
        obtain ⟨e, he⟩ := longLen_fault buf used (show 7 ∈ List.range 8 by decide) (by dsimp only at h; omega) 0
        exact ⟨e, by rw [he]; rfl⟩
    · rw [if_neg h127, if_neg h127]
      exact ⟨fun _ => rfl, fun h => by dsimp only at h; omega⟩

theorem readChecked_eq (hused : 2 ≤ used) :
    (1 + (decodeLen buf.tail).2 ≤ used → readChecked buf used = .ok (readFrame buf used)) ∧
      (used < 1 + (decodeLen buf.tail).2 → ∃ e, readChecked buf used = .error e) := by
  obtain ⟨hok, hfault⟩ := decodeChecked_eq buf used hused
  unfold readChecked
  rw [if_neg (by omega), load_ok (by omega), ok_bind, load_ok (by omega), ok_bind]
  constructor
  · intro h
    rw [hok h, ok_bind, readFrame, if_neg (by omega)]
  · intro h
    obtain ⟨e, he⟩ := hfault h
    exact ⟨e, by rw [he]; rfl⟩

end Read

/-- The length of a frame's header: two bytes, those of a long length, and the key. -/
def wireHeader (buf : List UInt8) : Nat :=
  let code := (buf.getD 1 0 &&& 0x7F).toNat
  2 + (if code = 126 then 2 else if code = 127 then 8 else 0) + if buf.getD 1 0 &&& 0x80 ≠ 0 then 4 else 0

/-- The header that `ws_serve_in` takes the frame to have, which is one byte longer. -/
def headerSize (buf : List UInt8) : Nat :=
  2 + (decodeLen buf.tail).2 + if decide (buf.getD 1 0 &&& 0x80 ≠ 0) then 4 else 0

/-- What `ws_serve_in` makes of the first bytes. -/
def frameAt (buf : List UInt8) : Frame where
  opcode := buf.getD 0 0 &&& 0x0F
  fin := buf.getD 0 0 &&& 0x80 ≠ 0
  masked := buf.getD 1 0 &&& 0x80 ≠ 0
  key := 2 + (decodeLen buf.tail).2
  headerSize := headerSize buf
  payloadLen := (decodeLen buf.tail).1

theorem readFrame_eq {buf : List UInt8} {used : Nat} (hused : 2 ≤ used) :
    readFrame buf used = if used < (frameAt buf).size then none else some (frameAt buf) := by
  rw [readFrame, if_neg (Nat.not_lt.2 hused)]
  rfl

theorem headerSize_eq (buf : List UInt8) : headerSize buf = wireHeader buf + 1 := by
  have h0 : buf.tail.getD 0 0 = buf.getD 1 0 := getD_tail buf 0
  unfold headerSize wireHeader decodeLen
  rw [h0]
  simp only [decide_eq_true_eq]
  by_cases h126 : (buf.getD 1 0 &&& 0x7F).toNat = 126
  · rw [if_pos h126, if_pos h126]
    omega
  · rw [if_neg h126, if_neg h126]
    by_cases h127 : (buf.getD 1 0 &&& 0x7F).toNat = 127
    · rw [if_pos h127, if_pos h127]
      omega
    · rw [if_neg h127, if_neg h127]
      omega

theorem frameAt_key (buf : List UInt8) (hmask : (frameAt buf).masked = true) :
    (frameAt buf).key + 4 = (frameAt buf).headerSize := by
  have hsize : (frameAt buf).headerSize = 2 + (decodeLen buf.tail).2 + if (frameAt buf).masked then 4 else 0 := rfl
  rw [hsize, if_pos hmask]
  rfl

section Serve

variable {buf : List UInt8} {used : Nat} {f : Frame}

theorem payloadChecked_ok (hkey : f.masked = true → f.key + 4 ≤ used) {n j : Nat} (hin : f.headerSize + j + n ≤ used) :
    payloadChecked (load buf used) f n j = .ok ((List.range' j n).map fun i =>
      buf.getD (f.headerSize + i) 0 ^^^ if f.masked then buf.getD (f.key + i % 4) 0 else 0) := by
  induction n generalizing j with
  | zero => rfl
  | succ n ih =>
    have hk : keyByte (load buf used) f j = .ok (if f.masked then buf.getD (f.key + j % 4) 0 else 0) := by
      unfold keyByte
      by_cases hmask : f.masked = true
      · have := hkey hmask
        rw [if_pos hmask, if_pos hmask, load_ok (by omega)]
      · rw [if_neg hmask, if_neg hmask]
    rw [payloadChecked, load_ok (by omega), ok_bind, hk, ok_bind, ih (by omega), ok_bind]
    rfl

theorem payload_eq (hin : f.headerSize + f.payloadLen ≤ buf.length) : ((List.range' 0 f.payloadLen).map fun i =>
    buf.getD (f.headerSize + i) 0 ^^^ if f.masked then buf.getD (f.key + i % 4) 0 else 0) = f.payload buf := by
  have hraw : (f.raw buf).length = f.payloadLen := by
    rw [Frame.raw, List.length_take, List.length_drop]
    omega
  apply List.ext_getElem
  · rw [List.length_map, List.length_range', Frame.payload]
    split
    · rw [List.length_mapIdx, hraw]
    · exact hraw.symm
  · intro i h₁ h₂
    rw [List.length_map, List.length_range'] at h₁
    have hget : (f.raw buf)[i] = buf.getD (f.headerSize + i) 0 := by
      simp only [Frame.raw, List.getElem_take, List.getElem_drop]
      rw [List.getD_eq_getElem?_getD, List.getElem?_eq_getElem (by omega), Option.getD_some]
    rw [List.getElem_map, List.getElem_range', Nat.zero_add, Nat.one_mul, ← hget]
    simp only [Frame.payload]
    by_cases hmask : f.masked = true
    · simp only [if_pos hmask, List.getElem_mapIdx]
    · simp only [if_neg hmask, UInt8.xor_zero]

/-- A frame that is all there is read inside, and what is done with it is what the function without checks does. -/
theorem serveInChecked_ok {c : Conn} (hused : c.bufUsed ≤ c.buf.length) (hbuf : c.buf.length < 2 ^ 63)
    (hread : readChecked c.buf c.bufUsed = .ok (some f)) (hframe : readFrame c.buf c.bufUsed = some f)
    (hkey : f.masked = true → f.key + 4 = f.headerSize) (hin : f.headerSize + f.payloadLen ≤ c.bufUsed) :
    serveInChecked c = .ok (serveIn c) := by
  unfold serveInChecked serveIn
  rw [hread, ok_bind, hframe]
  dsimp only
  by_cases hping : f.opcode = Opcode.ping.code
  · have hlen : (BitVec.ofNat 64 f.payloadLen).toNat = f.payloadLen := by
      rw [BitVec.toNat_ofNat, Nat.mod_eq_of_lt (by omega)]
    have h10 := headerLen_le f.payloadLen
    have hpayload : ∀ j < (BitVec.ofNat 64 f.payloadLen).toNat,
        load c.buf c.bufUsed (f.headerSize + j) = .ok (c.buf.getD (f.headerSize + j) 0) := by
      intro j hj
      exact load_ok (by omega) _
    obtain ⟨n, b, hbuild, -⟩ :=
      (build_unmasked hpayload (show (List.replicate 128 0).length < 2 ^ 64 by simp) (by simp) .pong).2
      (by rw [hlen]; omega)
    rw [if_pos hping, if_pos hping, hbuild, ok_bind]
  · rw [if_neg hping, if_neg hping]
    by_cases hpong : f.opcode = Opcode.pong.code
    · rw [if_pos hpong, if_pos hpong]
    · rw [if_neg hpong, if_neg hpong]
      by_cases hclose : f.opcode = Opcode.close.code
      · rw [if_pos hclose, if_pos hclose]
        by_cases hlong : f.payloadLen ≥ 2
        · rw [if_pos hlong, if_pos hlong, load_ok (by omega), ok_bind, load_ok (by omega), ok_bind]
        · rw [if_neg hlong, if_neg hlong]
      · rw [if_neg hclose, if_neg hclose]
        by_cases hdata : f.opcode = Opcode.text.code ∨ f.opcode = Opcode.binary.code
        · rw [if_pos hdata, if_pos hdata]
          by_cases hbig : (c.msgUsed + f.payloadLen) % 2 ^ 64 > c.msgBuf.length
          · rw [if_pos hbig, if_pos hbig]
          · rw [if_neg hbig, if_neg hbig, payloadChecked_ok (fun hmask => by have := hkey hmask; omega) (by omega),
              ok_bind, payload_eq (by omega)]
        · rw [if_neg hdata, if_neg hdata]

/-- What is consumed has come. -/
theorem serveIn_consumed (c : Conn) : (serveIn c).2.bufConsumed = c.bufConsumed ∨
    (serveIn c).2.bufConsumed ≤ c.bufUsed := by
  unfold serveIn
  cases hframe : readFrame c.buf c.bufUsed with
  | none => exact .inl rfl
  | some f =>
    have hsize : f.size ≤ c.bufUsed := by
      by_cases htwo : 2 ≤ c.bufUsed
      · rw [readFrame_eq htwo] at hframe
        split at hframe
        · exact absurd hframe (by simp)
        · obtain rfl := Option.some.inj hframe
          omega
      · rw [readFrame, if_pos (Nat.not_le.1 htwo)] at hframe
        exact absurd hframe (by simp)
    dsimp only
    split
    · exact .inr hsize
    · split
      · exact .inr hsize
      · split
        · split
          · exact .inl rfl
          · exact .inl rfl
        · split
          · split
            · exact .inl rfl
            · exact .inr hsize
          · exact .inr hsize

end Serve

/-- The reader looks only at bytes that have come, acts only on a frame of which all has come, and consumes no more
than has come. -/
def ServeBounded (c : Conn) : Prop :=
  ∃ r, serveInChecked c = .ok r ∧
    (∀ f, readChecked c.buf c.bufUsed = .ok (some f) → wireHeader c.buf + f.payloadLen ≤ c.bufUsed) ∧
    (r.2.bufConsumed = c.bufConsumed ∨ r.2.bufConsumed ≤ c.bufUsed)

/-- The bytes of a long length have come, and the size of the frame has no carry that makes it look small. -/
def Framed (c : Conn) : Prop :=
  c.bufUsed < 2 ∨ (1 + (decodeLen c.buf.tail).2 ≤ c.bufUsed ∧
    (headerSize c.buf + (decodeLen c.buf.tail).1 < 2 ^ 64 ∨
    c.bufUsed < (headerSize c.buf + (decodeLen c.buf.tail).1) % 2 ^ 64))

section Framed

variable {c : Conn} (hused : c.bufUsed ≤ c.buf.length) (hbuf : c.buf.length < 2 ^ 63)

include hused hbuf

/-- There the reader does what it does without checks, and a frame that is acted upon is all there. -/
theorem serveInChecked_eq (h : Framed c) : serveInChecked c = .ok (serveIn c) ∧
    ∀ f, readChecked c.buf c.bufUsed = .ok (some f) → wireHeader c.buf + f.payloadLen ≤ c.bufUsed := by
  have nothing : readChecked c.buf c.bufUsed = .ok none → readFrame c.buf c.bufUsed = none →
    serveInChecked c = .ok (serveIn c) ∧
      ∀ f, readChecked c.buf c.bufUsed = .ok (some f) → wireHeader c.buf + f.payloadLen ≤ c.bufUsed := by
    intro hread hframe
    refine ⟨?_, fun f hf => ?_⟩
    · rw [serveInChecked, hread, serveIn, hframe]
      rfl
    · rw [hread] at hf
      exact absurd hf (by simp)
  by_cases htwo : c.bufUsed < 2
  · exact nothing (if_pos htwo) (by rw [readFrame, if_pos htwo])
  · obtain ⟨hcome, hcarry⟩ := h.resolve_left htwo
    have hread := (readChecked_eq c.buf c.bufUsed (Nat.not_lt.1 htwo)).1 hcome
    have hframe : readFrame c.buf c.bufUsed = _ := readFrame_eq (Nat.not_lt.1 htwo)
    have hsize : (frameAt c.buf).size = (headerSize c.buf + (decodeLen c.buf.tail).1) % 2 ^ 64 := rfl
    rw [hframe] at hread
    by_cases hmore : c.bufUsed < (frameAt c.buf).size
    · rw [if_pos hmore] at hread hframe
      exact nothing hread hframe
    · have hnocarry : headerSize c.buf + (decodeLen c.buf.tail).1 < 2 ^ 64 := by omega
      rw [if_neg hmore] at hread hframe
      rw [hsize, Nat.mod_eq_of_lt hnocarry, Nat.not_lt] at hmore
      refine ⟨serveInChecked_ok hused hbuf hread hframe (frameAt_key c.buf) hmore, fun f hf => ?_⟩
      obtain rfl := Option.some.inj (Except.ok.inj (hread.symm.trans hf))
      have hheader := headerSize_eq c.buf
      exact le_trans (Nat.add_le_add_right (by omega) _) hmore

/-- The reader is right exactly there. -/
theorem serve_bounded_iff : ServeBounded c ↔ Framed c := by
  constructor
  · rintro ⟨r, hr, hwhole, -⟩
    by_cases htwo : c.bufUsed < 2
    · exact .inl htwo
    · obtain ⟨hok, hfault⟩ := readChecked_eq c.buf c.bufUsed (Nat.not_lt.1 htwo)
      have hcome : 1 + (decodeLen c.buf.tail).2 ≤ c.bufUsed := by
        by_contra hcome
        obtain ⟨e, he⟩ := hfault (Nat.not_le.1 hcome)
        rw [serveInChecked, he] at hr
        exact absurd hr (by simp)
      refine .inr ⟨hcome, ?_⟩
      by_contra hcarry
      rw [not_or, Nat.not_lt, Nat.not_lt] at hcarry
      have hframe : readFrame c.buf c.bufUsed = some (frameAt c.buf) := by
        rw [readFrame_eq (Nat.not_lt.1 htwo)]
        exact if_neg (Nat.not_lt.2 hcarry.2)
      have hlarge : wireHeader c.buf + (decodeLen c.buf.tail).1 ≤ c.bufUsed :=
        hwhole (frameAt c.buf) (by rw [hok hcome, hframe])
      have hheader := headerSize_eq c.buf
      omega
  · intro h
    obtain ⟨hrun, hwhole⟩ := serveInChecked_eq hused hbuf h
    exact ⟨_, hrun, hwhole, serveIn_consumed c⟩

end Framed

/-- `ws_frame_build` and `ws_serve_in` stay inside of their buffers and deal in whole frames exactly if, building, an
unmasked frame's length has no carry or a masked frame fits, and, reading, the bytes of the length have come and its
sum with the header has no carry. -/
theorem ws_bounds (buf : List UInt8) (hbuf : buf.length < 2 ^ 64) (opcode : Opcode) (payload : Nat → UInt8)
    (len : BitVec 64) (mask : Option MaskKey) (c : Conn) (hused : c.bufUsed ≤ c.buf.length)
    (hobject : c.buf.length < 2 ^ 63) :
    (BuildBounded buf opcode (fun j => .ok (payload j)) len mask ↔ buf.length < 14 ∨
    FrameFits buf.length len.toNat mask) ∧ (ServeBounded c ↔ Framed c) :=
  ⟨build_bounded_iff (fun _ _ => rfl) hbuf opcode mask, serve_bounded_iff hused hobject⟩

theorem ws_bounds_ping :
    (BuildBounded (List.replicate 20 0) .ping (fun _ => .ok 7) 3 (some ⟨1, 2, 3, 4⟩) ↔
    (List.replicate 20 (0 : UInt8)).length < 14 ∨
      FrameFits (List.replicate 20 (0 : UInt8)).length 3 (some ⟨1, 2, 3, 4⟩)) ∧
    (ServeBounded ⟨[0x89, 0x01, 0x07, 0x00], 4, 0, [], 0, 0, []⟩ ↔
    Framed ⟨[0x89, 0x01, 0x07, 0x00], 4, 0, [], 0, 0, []⟩) :=
  ws_bounds (List.replicate 20 0) (by decide) .ping (fun _ => 7) 3 (some ⟨1, 2, 3, 4⟩) _ (by decide) (by decide)

/-- A masked frame of 100 bytes is cut to the 14 bytes of the buffer, and of a length of 65536 bytes in ten bytes the
reader asks for eight that have not come. -/
theorem ws_bounds_cut : ¬BuildBounded (List.replicate 14 0) .binary (fun _ => .ok 0) 100 (some ⟨1, 2, 3, 4⟩) ∧
    ¬ServeBounded ⟨[0x82, 0x7F, 0, 0, 0, 0, 0, 1, 0, 0], 2, 0, [], 0, 0, []⟩ := by
  constructor
  · rw [build_bounded_iff (fun _ _ => rfl) (by decide)]
    unfold FrameFits
    decide
  · rw [serve_bounded_iff (by decide) (by decide)]
    unfold Framed
    decide

end JACLibc.Ws
