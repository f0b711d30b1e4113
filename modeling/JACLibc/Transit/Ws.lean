import JACLibc.CString

/-!
# WebSocket frames of `transit/ws.h`

`ws_frame_build` writes a frame into a buffer and `ws_serve_in` reads one out of the bytes that have come.  The two do
not agree on where the header ends: `ws_decode_len` counts the length byte itself in the offset it hands back, and
`ws_serve_in` adds it to the two bytes that already include that byte.  So the reader asks for one byte more than the
frame has, and no frame that the builder makes is ever read (`frame_round_trip`).
-/

namespace JACLibc.Ws

/-- `ws_opcode_t` -/
inductive Opcode
  | cont | text | binary | close | ping | pong
  deriving DecidableEq

def Opcode.code : Opcode → UInt8
  | cont => 0x0
  | text => 0x1
  | binary => 0x2
  | close => 0x8
  | ping => 0x9
  | pong => 0xA

/-! ### Building a frame -/

/-- The four bytes that `rand` gives for a mask key. -/
structure MaskKey where
  k0 : UInt8
  k1 : UInt8
  k2 : UInt8
  k3 : UInt8
  deriving DecidableEq

/-- The buffer and the index of `ws_frame_build`. -/
structure Out where
  buf : List UInt8
  i : Nat
  deriving DecidableEq

/-- `buf[i++] = b` -/
def Out.put (s : Out) (b : UInt8) : Out := ⟨s.buf.set s.i b, s.i + 1⟩

/-- Bytes stored one after the other. -/
def Out.puts (s : Out) (bs : List UInt8) : Out := bs.foldl Out.put s

/-- The loop that copies and masks the payload from its `j`-th byte on; it stops at the end of the buffer, and it
counts the place of the key from the byte that is being written. -/
def maskLoop (size : Nat) : List UInt8 → Nat → Out → Out
  | [], _, s => s
  | c :: payload, j, s =>
    if s.i < size then maskLoop size payload (j + 1) (s.put (c ^^^ s.buf.getD (s.i - 4 + j % 4) 0)) else s

/-- The bytes of the length, the mask bit in the first of them. -/
def lengthBytes (masked : Bool) (len : Nat) : List UInt8 :=
  let bit : UInt8 := if masked then 0x80 else 0
  if len < 126 then [bit ||| (len &&& 0x7F).toUInt8]
  else if len < 65536 then [bit ||| 126, (len >>> 8).toUInt8, len.toUInt8]
  else (bit ||| 127) :: (List.range 8).map fun j => (len >>> ((7 - j) * 8)).toUInt8

/-- `ws_frame_build` on a buffer that is not NULL, with a mask key when the frame is to be masked: the answer and the
buffer. -/
def frameBuild (buf : Object) (opcode : Opcode) (payload : Object) (mask : Option MaskKey) : Nat × List UInt8 :=
  let size := buf.bytes.length
  let len := payload.bytes.length
  if size < 14 then (0, buf.bytes)
  else
    let s := ((Out.mk buf.bytes 0).put (0x80 ||| (opcode.code &&& 0x0F))).puts (lengthBytes mask.isSome len)
    match mask with
    | some key =>
      let s := maskLoop size payload.bytes 0 (s.puts [key.k0, key.k1, key.k2, key.k3])
      (s.i, s.buf)
    | none =>
      if (s.i + len) % 2 ^ 64 > size then (0, s.buf)
      else (s.i + len, (s.puts payload.bytes).buf)

/-! ### Reading a frame -/

/-- `ws_decode_len`: the length and the offset. -/
def decodeLen (buf : List UInt8) : Nat × Nat :=
  let len := (buf.getD 0 0 &&& 0x7F).toNat
  if len = 126 then ((buf.getD 1 0).toNat <<< 8 ||| (buf.getD 2 0).toNat, 3)
  else if len = 127 then
    ((List.range 8).foldl (fun len i => (len <<< 8) % 2 ^ 64 ||| (buf.getD (1 + i) 0).toNat) 0, 9)
  else (len, 1)

/-- What `ws_serve_in` knows of a frame that has come whole; `key` is the place of the mask key. -/
structure Frame where
  opcode : UInt8
  fin : Bool
  masked : Bool
  key : Nat
  headerSize : Nat
  payloadLen : Nat
  deriving DecidableEq

def Frame.size (f : Frame) : Nat := (f.headerSize + f.payloadLen) % 2 ^ 64

/-- The first part of `ws_serve_in`, up to the test for a full frame. -/
def readFrame (buf : List UInt8) (used : Nat) : Option Frame :=
  if used < 2 then none
  else
    let masked : Bool := buf.getD 1 0 &&& 0x80 ≠ 0
    let (payloadLen, lenOffset) := decodeLen buf.tail
    let f : Frame :=
      { opcode := buf.getD 0 0 &&& 0x0F, fin := buf.getD 0 0 &&& 0x80 ≠ 0, masked, key := 2 + lenOffset,
        headerSize := 2 + lenOffset + if masked then 4 else 0, payloadLen }
    if used < f.size then none else some f

/-- The payload as it stands in the buffer. -/
def Frame.raw (f : Frame) (buf : List UInt8) : List UInt8 := (buf.drop f.headerSize).take f.payloadLen

/-- The payload that a data frame adds to the message. -/
def Frame.payload (f : Frame) (buf : List UInt8) : List UInt8 :=
  if f.masked then (f.raw buf).mapIdx fun i c => c ^^^ buf.getD (f.key + i % 4) 0 else f.raw buf

/-- The `SERVE_*` codes that `ws_serve_in` answers. -/
inductive Ret
  | ok | done | close
  deriving DecidableEq

/-- A frame that `ws_serve_in` sends through `ws_send_pong` or `ws_send_close`. -/
inductive Reply
  | pong (data : List UInt8)
  | close (code : Nat) (reason : List UInt8)
  deriving DecidableEq

/-- The fields of `serve_conn_t` and `ws_state_t` that `ws_serve_in` uses, and the frames it has sent. -/
structure Conn where
  buf : List UInt8
  bufUsed : Nat
  bufConsumed : Nat
  msgBuf : List UInt8
  msgUsed : Nat
  closeCode : Nat
  replies : List Reply
  deriving DecidableEq

/-- `ws_serve_in` -/
def serveIn (c : Conn) : Ret × Conn :=
  match readFrame c.buf c.bufUsed with
  | none => (.ok, c)
  | some f =>
    if f.opcode = Opcode.ping.code then
      (.ok, { c with replies := c.replies ++ [.pong (f.raw c.buf)], bufConsumed := f.size })
    else if f.opcode = Opcode.pong.code then (.ok, { c with bufConsumed := f.size })
    else if f.opcode = Opcode.close.code then
      if f.payloadLen ≥ 2 then
        (.close, { c with
          closeCode := (c.buf.getD f.headerSize 0).toNat <<< 8 ||| (c.buf.getD (f.headerSize + 1) 0).toNat })
      else (.close, c)
    else if f.opcode = Opcode.text.code ∨ f.opcode = Opcode.binary.code then
      if (c.msgUsed + f.payloadLen) % 2 ^ 64 > c.msgBuf.length then
        (.close, { c with replies := c.replies ++ [.close 1009 (lit "Message too big")] })
      else
        let msg := c.msgBuf.take c.msgUsed ++ f.payload c.buf ++ c.msgBuf.drop (c.msgUsed + f.payloadLen)
        let used := c.msgUsed + f.payloadLen
        let msg := if f.fin ∧ f.opcode = Opcode.text.code then msg.set used 0 else msg
        (.done, { c with msgBuf := msg, msgUsed := if f.fin then 0 else used, bufConsumed := f.size })
    else (.ok, { c with bufConsumed := f.size })

/-! ### What the builder writes -/

/-- Bytes stored behind `pre` replace what was there. -/
theorem puts_eq (pre old bs : List UInt8) (hfit : bs.length ≤ old.length) :
    (Out.mk (pre ++ old) pre.length).puts bs = ⟨pre ++ bs ++ old.drop bs.length, (pre ++ bs).length⟩ := by
  induction bs generalizing pre old with
  | nil => simp [Out.puts]
  | cons b bs ih =>
    cases old with
    | nil => simp at hfit
    | cons o old =>
      have hput : (Out.mk (pre ++ o :: old) pre.length).put b = ⟨(pre ++ [b]) ++ old, (pre ++ [b]).length⟩ := by
        simp [Out.put]
      have hrest := ih (pre ++ [b]) old (by simpa using hfit)
      calc (Out.mk (pre ++ o :: old) pre.length).puts (b :: bs)
          = ((Out.mk (pre ++ o :: old) pre.length).put b).puts bs := rfl
        _ = _ := by rw [hput, hrest]; simp

/-- The masking loop writes at most the payload, and only behind the place where it starts. -/
theorem maskLoop_spec (size : Nat) (payload : List UInt8) (j : Nat) (s : Out) :
    (maskLoop size payload j s).i ≤ s.i + payload.length ∧ s.i ≤ (maskLoop size payload j s).i ∧
      ∀ k < s.i, (maskLoop size payload j s).buf[k]? = s.buf[k]? := by
  induction payload generalizing j s with
  | nil => exact ⟨Nat.le_refl _, Nat.le_refl _, fun _ _ => rfl⟩
  | cons c payload ih =>
    rw [maskLoop, List.length_cons]
    split
    · obtain ⟨h1, h2, h3⟩ := ih (j + 1) (s.put (c ^^^ s.buf.getD (s.i - 4 + j % 4) 0))
      simp only [Out.put] at h1 h2 h3 ⊢
      refine ⟨by omega, by omega, fun k hk => ?_⟩
      rw [h3 k (by omega), List.getElem?_set_ne (by omega)]
    · exact ⟨by omega, Nat.le_refl _, fun _ _ => rfl⟩

/-- The bytes before the mask key and the payload. -/
def header (opcode : Opcode) (masked : Bool) (len : Nat) : List UInt8 :=
  (0x80 ||| (opcode.code &&& 0x0F)) :: lengthBytes masked len

/-- The length of the header. -/
def headerLen (len : Nat) : Nat := if len < 126 then 2 else if len < 65536 then 4 else 10

theorem length_header (opcode : Opcode) (masked : Bool) (len : Nat) :
    (header opcode masked len).length = headerLen len := by
  simp only [header, headerLen, lengthBytes]
  by_cases h1 : len < 126
  · simp [h1]
  · by_cases h2 : len < 65536
    · simp [h1, h2]
    · simp [h1, h2]

theorem headerLen_le (len : Nat) : headerLen len ≤ 10 := by
  unfold headerLen
  split
  · decide
  · split <;> decide

theorem two_le_headerLen (len : Nat) : 2 ≤ headerLen len := by
  unfold headerLen
  split
  · decide
  · split <;> decide

section Build

variable {buf : Object} (opcode : Opcode) (payload : Object) (mask : Option MaskKey)

/-- A frame begins with its header and is at most as long as header, key and payload; there is none exactly where the
buffer is too small for the code. -/
theorem frameBuild_spec :
    ((frameBuild buf opcode payload mask).1 = 0 ↔ buf.bytes.length < 14 ∨
      mask = none ∧ buf.bytes.length < headerLen payload.bytes.length + payload.bytes.length) ∧
    (0 < (frameBuild buf opcode payload mask).1 →
      headerLen payload.bytes.length ≤ (frameBuild buf opcode payload mask).1 ∧
      (frameBuild buf opcode payload mask).1 ≤
        headerLen payload.bytes.length + (if mask.isSome then 4 else 0) + payload.bytes.length ∧
      ∀ k < headerLen payload.bytes.length,
        (frameBuild buf opcode payload mask).2[k]? = (header opcode mask.isSome payload.bytes.length)[k]?) := by
  have hlen := payload.fits
  have hsize := buf.fits
  obtain ⟨len, hdef⟩ : ∃ len, payload.bytes.length = len := ⟨_, rfl⟩
  obtain ⟨hd, hhd⟩ : ∃ hd, header opcode mask.isSome len = hd := ⟨_, rfl⟩
  have hhdlen : hd.length = headerLen len := by rw [← hhd, length_header]
  have h10 := headerLen_le len
  have h2 := two_le_headerLen len
  by_cases hsmall : buf.bytes.length < 14
  · simp [frameBuild, hsmall]
  have hstart : ((Out.mk buf.bytes 0).put (0x80 ||| (opcode.code &&& 0x0F))).puts (lengthBytes mask.isSome len) =
      ⟨hd ++ buf.bytes.drop hd.length, hd.length⟩ := by
    have := puts_eq [] buf.bytes hd (by omega)
    rw [List.nil_append, List.nil_append] at this
    rw [← this, ← hhd]
    rfl
  cases mask with
  | none =>
    have hmod : (hd.length + len) % 2 ^ 64 = hd.length + len := Nat.mod_eq_of_lt (by omega)
    simp only [frameBuild, if_neg hsmall, hdef, hstart, hmod]
    split
    · exact ⟨⟨fun _ => .inr ⟨trivial, by omega⟩, fun _ => rfl⟩, fun h => absurd h (Nat.lt_irrefl 0)⟩
    · have hputs := puts_eq hd (buf.bytes.drop hd.length) payload.bytes (by rw [List.length_drop, hdef]; omega)
      refine ⟨⟨fun h => by omega, fun h => by omega⟩, fun _ => ⟨by omega, by simp; omega, fun k hk => ?_⟩⟩
      rw [hputs, List.append_assoc, List.getElem?_append_left (by omega), hhd]
  | some key =>
    have hputs := puts_eq hd (buf.bytes.drop hd.length) [key.k0, key.k1, key.k2, key.k3]
      (by simp only [List.length_drop, List.length_cons, List.length_nil]; omega)
    simp only [frameBuild, if_neg hsmall, hdef, hstart, hputs]
    obtain ⟨h3, h4, h5⟩ := maskLoop_spec buf.bytes.length payload.bytes 0
      ⟨hd ++ [key.k0, key.k1, key.k2, key.k3] ++
        (buf.bytes.drop hd.length).drop [key.k0, key.k1, key.k2, key.k3].length,
        (hd ++ [key.k0, key.k1, key.k2, key.k3]).length⟩
    have hkey : (hd ++ [key.k0, key.k1, key.k2, key.k3]).length = headerLen len + 4 := by
      rw [List.length_append, hhdlen]
      rfl
    simp only [hdef] at h3
    simp only [hkey] at h3 h4 h5 ⊢
    refine ⟨⟨fun h => by omega, fun h => ?_⟩,
      fun _ => ⟨by omega, by simp only [Option.isSome_some, if_true]; omega, fun k hk => ?_⟩⟩
    · rcases h with h | ⟨h, -⟩
      · exact absurd h hsmall
      · exact absurd h (by simp)
    · rw [h5 k (by omega), List.append_assoc, List.getElem?_append_left (by omega), hhd]

end Build

/-! ### What the reader makes of it -/

theorem decodeLen_short (masked : Bool) {len : Nat} (hlen : len < 126) {buf : List UInt8}
    (h0 : buf[0]? = (lengthBytes masked len)[0]?) : decodeLen buf = (len, 1) := by
  have hbyte : ∀ n : Fin 126,
      (((if masked then 0x80 else 0) ||| (n.val &&& 0x7F).toUInt8) &&& 0x7F : UInt8).toNat = n.val := by
    cases masked <;> decide
  have hlow : (buf.getD 0 0 &&& 0x7F).toNat = len := by
    rw [List.getD_eq_getElem?_getD, h0]
    simpa [lengthBytes, hlen] using hbyte ⟨len, hlen⟩
  simp only [decodeLen, hlow]
  rw [if_neg (by omega), if_neg (by omega)]

theorem decodeLen_medium (masked : Bool) {len : Nat} (h1 : 126 ≤ len) (h2 : len < 65536) {buf : List UInt8}
    (h : ∀ k < 3, buf[k]? = (lengthBytes masked len)[k]?) : decodeLen buf = (len, 3) := by
  have hlow : (buf.getD 0 0 &&& 0x7F).toNat = 126 := by
    rw [List.getD_eq_getElem?_getD, h 0 (by decide)]
    cases masked <;> simp [lengthBytes, Nat.not_lt.2 h1, h2]
  have hhigh : (buf.getD 1 0).toNat = len / 256 := by
    rw [List.getD_eq_getElem?_getD, h 1 (by decide)]
    simp [lengthBytes, Nat.not_lt.2 h1, h2, Nat.shiftRight_eq_div_pow]
    omega
  have hlast : (buf.getD 2 0).toNat = len % 256 := by
    rw [List.getD_eq_getElem?_getD, h 2 (by decide)]
    simp [lengthBytes, Nat.not_lt.2 h1, h2]
  simp only [decodeLen, hlow, hhigh, hlast, if_true]
  rw [← Nat.shiftLeft_add_eq_or_of_lt (Nat.mod_lt _ (by decide) : len % 256 < 2 ^ 8), Nat.shiftLeft_eq]
  simp only [Prod.mk.injEq, and_true]
  omega

theorem decodeLen_long (masked : Bool) {len : Nat} (h1 : 65536 ≤ len) (h2 : len < 2 ^ 64) {buf : List UInt8}
    (h : ∀ k < 9, buf[k]? = (lengthBytes masked len)[k]?) : decodeLen buf = (len, 9) := by
  have hn1 : ¬len < 126 := by omega
  have hn2 : ¬len < 65536 := by omega
  have hlow : (buf.getD 0 0 &&& 0x7F).toNat = 127 := by
    rw [List.getD_eq_getElem?_getD, h 0 (by decide)]
    cases masked <;> simp [lengthBytes, hn1, hn2]
  have hbyte : ∀ i < 8, (buf.getD (1 + i) 0).toNat = len / 2 ^ ((7 - i) * 8) % 256 := by
    intro i hi
    rw [List.getD_eq_getElem?_getD, h (1 + i) (by omega), Nat.add_comm]
    simp [lengthBytes, hn1, hn2, hi, Nat.shiftRight_eq_div_pow]
  -- after `n` bytes the accumulator holds the top `n` bytes of the length
  have hfold : ∀ n ≤ 8, (List.range n).foldl (fun len i => (len <<< 8) % 2 ^ 64 ||| (buf.getD (1 + i) 0).toNat) 0 =
      len / 2 ^ ((8 - n) * 8) := by
    intro n hn
    induction n with
    | zero => simpa using (Nat.div_eq_of_lt h2).symm
    | succ n ih =>
      obtain ⟨y, hy⟩ : ∃ y, len / 2 ^ ((7 - n) * 8) = y := ⟨_, rfl⟩
      have hacc : len / 2 ^ ((8 - n) * 8) = y / 256 := by
        rw [← hy, Nat.div_div_eq_div_mul, show (8 - n) * 8 = (7 - n) * 8 + 8 by omega, Nat.pow_add]
      have hle : y ≤ len := hy ▸ Nat.div_le_self ..
      have hmod : (y / 256) <<< 8 % 2 ^ 64 = (y / 256) <<< 8 := by
        rw [Nat.shiftLeft_eq]
        omega
      rw [List.range_succ, List.foldl_append, ih (by omega), hacc, List.foldl_cons, List.foldl_nil,
        hbyte n (by omega), hy, hmod, ← Nat.shiftLeft_add_eq_or_of_lt (Nat.mod_lt _ (by decide) : y % 256 < 2 ^ 8),
        Nat.shiftLeft_eq,
        show 8 - (n + 1) = 7 - n by omega, hy]
      omega
  simp only [decodeLen, hlow]
  rw [if_neg (by decide), hfold 8 (Nat.le_refl _)]
  simp

/-- The reader finds the length that the builder wrote, and an offset that is one less than the header. -/
theorem decodeLen_header (opcode : Opcode) (masked : Bool) {len : Nat} (hlen : len < 2 ^ 64) {buf : List UInt8}
    (h : ∀ k < headerLen len, buf[k]? = (header opcode masked len)[k]?) :
    decodeLen buf.tail = (len, headerLen len - 1) := by
  have htail : ∀ k, k + 1 < headerLen len → buf.tail[k]? = (lengthBytes masked len)[k]? := by
    intro k hk
    rw [List.getElem?_tail, h (k + 1) hk]
    rfl
  unfold headerLen at htail ⊢
  by_cases h1 : len < 126
  · rw [if_pos h1] at htail ⊢
    exact decodeLen_short masked h1 (htail 0 (by decide))
  · rw [if_neg h1] at htail ⊢
    by_cases h2 : len < 65536
    · rw [if_pos h2] at htail ⊢
      exact decodeLen_medium masked (Nat.not_lt.1 h1) h2 fun k hk => htail k (by omega)
    · rw [if_neg h2] at htail ⊢
      exact decodeLen_long masked (Nat.not_lt.1 h2) hlen fun k hk => htail k (by omega)

theorem mask_bit (masked : Bool) (len : Nat) :
    decide ((lengthBytes masked len).getD 0 0 &&& 0x80 ≠ 0) = masked := by
  have hbyte : ∀ n : Fin 126,
      decide ((((if masked then 0x80 else 0) ||| (n.val &&& 0x7F).toUInt8) &&& 0x80 : UInt8) ≠ 0) = masked := by
    cases masked <;> decide
  by_cases h1 : len < 126
  · simpa [lengthBytes, h1] using hbyte ⟨len, h1⟩
  · by_cases h2 : len < 65536
    · simp only [lengthBytes, if_neg h1, if_pos h2, List.getD_cons_zero]
      cases masked <;> decide
    · simp only [lengthBytes, if_neg h1, if_neg h2, List.getD_cons_zero]
      cases masked <;> decide

/-- The bytes of a frame that has come whole are not enough for the reader, whatever else is in the buffer. -/
theorem readFrame_built {buf payload : Object} {opcode : Opcode} {mask : Option MaskKey}
    (hn : 0 < (frameBuild buf opcode payload mask).1) (stale : List UInt8) :
    readFrame ((frameBuild buf opcode payload mask).2.take (frameBuild buf opcode payload mask).1 ++ stale)
      (frameBuild buf opcode payload mask).1 = none := by
  obtain ⟨hlow, hhigh, hhead⟩ := (frameBuild_spec opcode payload mask).2 hn
  obtain ⟨n, hndef⟩ : ∃ n, (frameBuild buf opcode payload mask).1 = n := ⟨_, rfl⟩
  obtain ⟨bytes, hbytes⟩ : ∃ bytes, (frameBuild buf opcode payload mask).2.take n ++ stale = bytes := ⟨_, rfl⟩
  have h2 := two_le_headerLen payload.bytes.length
  have h10 := headerLen_le payload.bytes.length
  have hfits := payload.fits
  rw [hndef] at hlow hhigh ⊢
  rw [hbytes]
  have hheader : ∀ k < headerLen payload.bytes.length,
      bytes[k]? = (header opcode mask.isSome payload.bytes.length)[k]? := by
    intro k hk
    have hk' : (frameBuild buf opcode payload mask).2[k]? = (header opcode mask.isSome payload.bytes.length)[k]? :=
      hhead k hk
    have hlt : k < (frameBuild buf opcode payload mask).2.length := by
      rw [← length_header opcode mask.isSome] at hk
      rw [List.getElem?_eq_getElem hk] at hk'
      exact (List.getElem?_eq_some_iff.1 hk').1
    rw [← hbytes, List.getElem?_append_left (by rw [List.length_take]; omega), List.getElem?_take_of_lt (by omega), hk']
  have hdecode := decodeLen_header opcode mask.isSome (by omega) hheader
  have hbit : decide (bytes.getD 1 0 &&& 0x80 ≠ 0) = mask.isSome := by
    rw [List.getD_eq_getElem?_getD, hheader 1 (by omega)]
    exact mask_bit mask.isSome payload.bytes.length
  simp only [readFrame, hdecode, hbit, Frame.size]
  rw [if_neg (by omega), if_pos]
  have hmod : (2 + (headerLen payload.bytes.length - 1) + (if mask.isSome = true then 4 else 0) +
    payload.bytes.length) % 2 ^ 64 =
      2 + (headerLen payload.bytes.length - 1) + (if mask.isSome = true then 4 else 0) + payload.bytes.length := by
    apply Nat.mod_eq_of_lt
    split <;> omega
  omega

/-- So `ws_serve_in` waits for more, and nothing about the connection changes. -/
theorem serveIn_built {buf payload : Object} {opcode : Opcode} {mask : Option MaskKey} {c : Conn}
    (hn : 0 < (frameBuild buf opcode payload mask).1) (stale : List UInt8)
    (hbuf : c.buf = (frameBuild buf opcode payload mask).2.take (frameBuild buf opcode payload mask).1 ++ stale)
    (hused : c.bufUsed = (frameBuild buf opcode payload mask).1) : serveIn c = (.ok, c) := by
  rw [serveIn, hbuf, hused, readFrame_built hn]

/-- What the reader has to make of a frame, for any bytes left in its buffer behind it. -/
def RoundTrip (buf : Object) (opcode : Opcode) (payload : Object) (mask : Option MaskKey) : Prop :=
  0 < (frameBuild buf opcode payload mask).1 →
    ∀ stale bytes, bytes = (frameBuild buf opcode payload mask).2.take (frameBuild buf opcode payload mask).1 ++ stale →
      ∃ f, readFrame bytes (frameBuild buf opcode payload mask).1 = some f ∧ f.opcode = opcode.code ∧
        f.payload bytes = payload.bytes ∧ f.size = (frameBuild buf opcode payload mask).1

/-- The builder and the reader agree only where the builder makes no frame: where it is given fewer than 14 bytes, or
where an unmasked frame does not fit into the buffer. -/
theorem frame_round_trip (buf : Object) (opcode : Opcode) (payload : Object) (mask : Option MaskKey) :
    RoundTrip buf opcode payload mask ↔ buf.bytes.length < 14 ∨
      mask = none ∧ buf.bytes.length < headerLen payload.bytes.length + payload.bytes.length := by
  rw [← (frameBuild_spec opcode payload mask).1]
  constructor
  · intro h
    by_contra hne
    have hpos : 0 < (frameBuild buf opcode payload mask).1 := Nat.pos_of_ne_zero hne
    obtain ⟨f, hf, -⟩ := h hpos [] _ rfl
    rw [readFrame_built hpos] at hf
    exact absurd hf (by simp)
  · intro h hpos
    exact absurd h (Nat.pos_iff_ne_zero.1 hpos)

/-- The text frame `hi`, unmasked, in a buffer of 14 bytes. -/
theorem frame_round_trip_hi :
    ¬RoundTrip ⟨List.replicate 14 0, by decide⟩ .text ⟨lit "hi", by decide⟩ none := by
  intro h
  obtain ⟨f, hf, -⟩ := h (by decide) [] _ rfl
  have hnone : readFrame ((frameBuild ⟨List.replicate 14 0, by decide⟩ .text ⟨lit "hi", by decide⟩ none).2.take
      (frameBuild ⟨List.replicate 14 0, by decide⟩ .text ⟨lit "hi", by decide⟩ none).1 ++ [])
      (frameBuild ⟨List.replicate 14 0, by decide⟩ .text ⟨lit "hi", by decide⟩ none).1 = none := by decide
  rw [hnone] at hf
  exact absurd hf (by simp)

end JACLibc.Ws
