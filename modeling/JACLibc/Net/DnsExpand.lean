import JACLibc.Net.DnsName

/-!
# `dn_expand` against names

The loop of `dn_expand` follows a name: its locals are what the trail says (`Follows`), and each round takes one hop
where the text still fits and there are pointers left (`step_hop`).  So the run is read off the trail (`loop_comes`,
`loop_ends`).  `dn_expand_safe` says when every access stays inside, and `dn_expand_result` when the answer is the one
that the name calls for: the loop treats the end of the message as the end of the name, stores a second NUL behind the
text, and counts in an `int`.
-/

namespace JACLibc.Dns

variable {msg : List UInt8} {src : Nat} {dstsiz : Int} {t t' : Trail} {s : Expand}

/-! ### The locals -/

/-- The first of the values that is not zero. -/
def firstNonzero (l : List Int) : Int := (l.find? (· ≠ 0)).getD 0

theorem firstNonzero_concat (l : List Int) (x : Int) :
    firstNonzero (l ++ [x]) = if firstNonzero l = 0 then x else firstNonzero l := by
  induction l with
  | nil =>
    unfold firstNonzero
    by_cases hx : x = 0 <;> simp [hx]
  | cons y ys ih =>
    by_cases hy : y = 0
    · unfold firstNonzero at ih ⊢
      simpa [hy] using ih
    · simp [firstNonzero, hy]

/-- The distances from `src` to behind each pointer followed. -/
def Trail.distances (t : Trail) (src : Nat) : List Int := t.pointers.map fun q : Nat => (q : Int) - src + 2

/-- The text of the trail fits with its NUL, where there is a label. -/
def Trail.Fits (t : Trail) (dstsiz : Int) : Prop := t.labels = [] ∨ (textOf t.labels).length < dstsiz

/-- The locals of the loop after the trail. -/
structure Follows (src : Nat) (dstsiz : Int) (t : Trail) (s : Expand) : Prop where
  p : s.p = t.place
  pos : s.pos = (textOf t.labels).length
  jumps : s.jumps = t.pointers.length
  consumed : s.consumed = firstNonzero ((t.distances src).map wrapInt)
  dst : ∃ rest, s.dst = textOf t.labels ++ rest
  size : s.dst.length = dstsiz.toNat
  full : ∀ l ∈ t.labels, l ≠ []
  few : t.pointers.length ≤ 10
  fits : t.Fits dstsiz

theorem follows_start (src : Nat) {dst : List UInt8} (h : dst.length = dstsiz.toNat) :
    Follows src dstsiz ⟨[], [], src⟩ ⟨src, 0, 0, 0, dst⟩ where
  p := rfl
  pos := rfl
  jumps := rfl
  consumed := rfl
  dst := ⟨dst, rfl⟩
  size := h
  full := by simp
  few := by simp
  fits := .inl rfl

theorem length_textOf_pos {ls : List (List UInt8)} (h : ls ≠ []) (hfull : ∀ l ∈ ls, l ≠ []) :
    0 < (textOf ls).length := by
  obtain ⟨ls, l, rfl⟩ := List.eq_nil_or_concat' ls |>.resolve_left h
  rw [textOf_concat, List.length_append]
  have := List.length_pos_iff.2 (hfull l (by simp))
  omega

/-- The byte put behind the text, where there is a label. -/
def behind (ls : List (List UInt8)) (c : UInt8) : List UInt8 := if ls = [] then [] else [c]

theorem lead_eq (ls : List (List UInt8)) : lead ls = textOf ls ++ behind ls (asc '.') := by
  unfold lead behind
  split
  · rename_i h
    simp [h, textOf]
  · rfl

/-- The dot before the next label, and the NUL of a zero byte. -/
theorem put_behind (h : Follows src dstsiz t s) (hsiz : dstsiz ≤ INT_MAX) (c : UInt8) :
    ∃ rest, s.put dstsiz c =
        .ok { s with
          pos := (textOf t.labels ++ behind t.labels c).length
          dst := textOf t.labels ++ behind t.labels c ++ rest } ∧
      (textOf t.labels ++ behind t.labels c ++ rest).length = dstsiz.toNat := by
  obtain ⟨rest, hrest⟩ := h.dst
  have hsize := h.size
  have hpos := h.pos
  unfold INT_MAX at hsiz
  by_cases hnil : t.labels = []
  · refine ⟨rest, ?_, ?_⟩
    · unfold Expand.put
      rw [if_neg (by rw [hpos, hnil]; simp [textOf])]
      cases s
      simp_all [behind]
    · rw [← hsize, hrest]
      simp [behind, hnil]
  · have hfits := h.fits.resolve_left hnil
    have h0 := length_textOf_pos hnil h.full
    have hlen : (textOf t.labels).length + 1 ≤ (textOf t.labels ++ rest).length := by
      rw [← hrest, hsize]
      omega
    rw [List.length_append] at hlen
    refine ⟨rest.drop 1, ?_, ?_⟩
    · unfold Expand.put store
      rw [if_pos ⟨by omega, by omega⟩, hrest, hpos, if_pos ⟨by omega, by simp; omega⟩, Int.toNat_natCast,
        Buffer.write_front (by simpa using hlen)]
      have hwrap : wrapInt ((textOf t.labels).length + 1) = (textOf t.labels ++ behind t.labels c).length := by
        rw [wrapInt_of_le (by omega) (by unfold INT_MAX; omega), behind, if_neg hnil]
        simp
      rw [hwrap, behind, if_neg hnil]
      rfl
    · rw [← hsize, hrest, behind, if_neg hnil]
      simp
      omega

theorem put_dot (h : Follows src dstsiz t s) (hsiz : dstsiz ≤ INT_MAX) :
    ∃ rest, s.put dstsiz (asc '.') = .ok { s with pos := (lead t.labels).length, dst := lead t.labels ++ rest } ∧
      (lead t.labels ++ rest).length = dstsiz.toNat := by
  rw [lead_eq]
  exact put_behind h hsiz (asc '.')

/-! ### One round -/

/-- The round for a label that lies inside the message. -/
theorem step_label {len : UInt8} (hlen : msg[s.p]? = some len) (h0 : len ≠ 0) (h63 : len ≤ 63)
    (hin : s.p + 1 + len.toNat ≤ msg.length) {s₁ : Expand} (hput : s.put dstsiz (asc '.') = .ok s₁) :
    expandStep msg src dstsiz s =
      if dstsiz ≤ wrapInt (s₁.pos + len.toNat) then .ok (.fail s₁)
      else
        store s₁.dst s₁.pos ((msg.drop (s₁.p + 1)).take len.toNat) >>= fun dst =>
          .ok (.again { s₁ with p := s₁.p + 1 + len.toNat, pos := wrapInt (s₁.pos + len.toNat), dst := dst }) := by
  obtain ⟨hp, -⟩ := List.getElem?_eq_some_iff.1 hlen
  have hbits : ¬len &&& 0xC0 = 0xC0 := fun h => UInt8.not_le.2 (le_of_bits h) h63
  have hp₁ := (Expand.put_eq hput).1
  unfold expandStep load
  rw [if_pos hp, hlen]
  simp only [ok_bind, if_neg h0, if_neg hbits, if_neg (UInt8.not_lt.2 h63), if_neg (Nat.not_lt.2 hin), hput]
  unfold loads
  rw [hp₁, if_pos hin]
  rfl

/-- The round for a pointer that leads into the message. -/
theorem step_pointer {high low : UInt8} (hhigh : msg[s.p]? = some high) (hbits : high &&& 0xC0 = 0xC0)
    (hlow : msg[s.p + 1]? = some low) (hin : target high low < msg.length) :
    expandStep msg src dstsiz s =
      if 10 < s.jumps + 1 then .ok (.fail s)
      else .ok (.again { s.consume src 2 with p := target high low, jumps := s.jumps + 1 }) := by
  obtain ⟨hp, -⟩ := List.getElem?_eq_some_iff.1 hhigh
  obtain ⟨hp1, -⟩ := List.getElem?_eq_some_iff.1 hlow
  have h0 : high ≠ 0 := by
    rintro rfl
    exact absurd hbits (by decide)
  unfold expandStep load
  rw [if_pos hp, hhigh, hlow]
  simp only [ok_bind, if_neg h0, if_pos hbits, if_neg (Nat.not_le.2 hp1), if_neg (Nat.not_le.2 hin)]

theorem length_label {p n : Nat} (hin : p + 1 + n ≤ msg.length) : ((msg.drop (p + 1)).take n).length = n := by
  rw [List.length_take, List.length_drop]
  omega

/-- The sum of `pos` and the length of the label, before it wraps around. -/
theorem length_textOf_concat (ls : List (List UInt8)) {p n : Nat} (hin : p + 1 + n ≤ msg.length) :
    (textOf (ls ++ [(msg.drop (p + 1)).take n])).length = (lead ls).length + n := by
  rw [textOf_concat, List.length_append, length_label hin]

/-- A hop after which the text still fits, and the pointers are ten at most, takes one round. -/
theorem step_hop (h : Follows src dstsiz t s) (hsiz : dstsiz ≤ INT_MAX) (hop : Hop msg t t')
    (hfew : t'.pointers.length ≤ 10) (hfits : t'.Fits dstsiz) : ∃ s', expandStep msg src dstsiz s = .ok (.again s') ∧
    Follows src dstsiz t' s' := by
  cases hop with
  | @label len hlen h0 h63 hin =>
    obtain ⟨rest, hput, hsize⟩ := put_dot h hsiz
    have htext := length_textOf_concat t.labels hin
    have hlt := hfits.resolve_left (by simp)
    dsimp only at hlt
    rw [htext] at hlt
    have hlabel := length_label hin
    rw [List.length_append] at hsize
    have hroom : (lead t.labels).length + len.toNat ≤ (lead t.labels).length + rest.length := by omega
    have hwrap : wrapInt ((lead t.labels).length + len.toNat) = ((lead t.labels).length + len.toNat : Nat) := by
      rw [wrapInt_of_le (by omega) (by omega), Int.natCast_add]
    rw [← h.p] at hlen hin
    rw [step_label hlen h0 h63 hin hput]
    dsimp only
    unfold store
    rw [hwrap, if_neg (Int.not_le.2 hlt), h.p,
      if_pos ⟨Int.natCast_nonneg _, by rw [hlabel, List.length_append]; exact_mod_cast hroom⟩, ok_bind,
      Int.toNat_natCast, Buffer.write_front (by rw [hlabel]; exact Nat.le_of_add_le_add_left hroom)]
    clear hwrap
    refine ⟨_, rfl, ⟨rfl, ?_, h.jumps, h.consumed, ⟨rest.drop ((msg.drop (t.place + 1)).take len.toNat).length, ?_⟩,
      ?_, ?_, hfew, hfits⟩⟩
    · rw [htext]
    · rw [textOf_concat]
    · simp only [List.length_append, List.length_drop, hlabel]
      omega
    · intro l hl
      rcases List.mem_append.1 hl with hl | hl
      · exact h.full l hl
      · rw [List.mem_singleton.1 hl, ← List.length_pos_iff, hlabel]
        exact Nat.pos_of_ne_zero fun h => h0 (UInt8.toNat_inj.1 h)
  | @pointer high low hhigh hbits hlow hin =>
    rw [← h.p] at hhigh hlow
    dsimp only at hfew
    rw [List.length_append, List.length_singleton] at hfew
    rw [step_pointer hhigh hbits hlow hin, if_neg (by rw [h.jumps]; omega)]
    have hconsume : s.consume src 2 =
        { s with consumed := if s.consumed = 0 then wrapInt (s.p - src + 2) else s.consumed } := by
      unfold Expand.consume
      split <;> rfl
    rw [hconsume]
    refine ⟨_, rfl, ⟨rfl, h.pos, ?_, ?_, h.dst, h.size, h.full, by simpa using hfew, hfits⟩⟩
    · simp [h.jumps]
    · simp only [Trail.distances, List.map_append, List.map_cons, List.map_nil, firstNonzero_concat, h.consumed, h.p]

/-- The text of the trail is below `INT_MAX`. -/
theorem Follows.text_lt (h : Follows src dstsiz t s) (hsiz : dstsiz ≤ INT_MAX) :
    ((textOf t.labels).length : Int) < INT_MAX := by
  rcases h.fits with hnil | hlt
  · rw [hnil]
    decide
  · omega

/-- Where no hop can be taken, since there is none or there is no room or no pointer left for it, the function answers
`-1`. -/
theorem step_refused (h : Follows src dstsiz t s) (hsiz : dstsiz ≤ INT_MAX) (hin : t.place < msg.length)
    (hbyte : msg[t.place]? ≠ some 0) (hno : ∀ t', Hop msg t t' → t'.pointers.length ≤ 10 → ¬t'.Fits dstsiz ∧
    (textOf t'.labels).length ≤ INT_MAX) :
    ∃ s', expandStep msg src dstsiz s = .ok (.fail s') := by
  obtain ⟨len, hlen⟩ : ∃ len, msg[t.place]? = some len := ⟨_, List.getElem?_eq_getElem hin⟩
  have h0 : len ≠ 0 := by
    rintro rfl
    exact hbyte hlen
  by_cases hbits : len &&& 0xC0 = 0xC0
  · by_cases hp : t.place + 1 < msg.length
    · obtain ⟨low, hlow⟩ : ∃ low, msg[t.place + 1]? = some low := ⟨_, List.getElem?_eq_getElem hp⟩
      by_cases htarget : target len low < msg.length
      · have hmany : 10 < t.pointers.length + 1 := by
          by_contra hfew
          exact (hno _ (.pointer hlen hbits hlow htarget) (by simpa using hfew)).1 h.fits
        rw [← h.p] at hlen hlow
        rw [step_pointer hlen hbits hlow htarget, h.jumps, if_pos hmany]
        exact ⟨s, rfl⟩
      · unfold expandStep load
        rw [h.p, if_pos hin, hlen, hlow]
        simp only [ok_bind, if_neg h0, if_pos hbits, if_pos (Nat.not_lt.1 htarget), if_neg (Nat.not_le.2 hp)]
        split <;> exact ⟨s, rfl⟩
    · unfold expandStep load
      rw [h.p, if_pos hin, hlen]
      simp only [ok_bind, if_neg h0, if_pos hbits, if_pos (Nat.not_lt.1 hp)]
      exact ⟨s, rfl⟩
  · by_cases h63 : len ≤ 63
    · by_cases hend : t.place + 1 + len.toNat ≤ msg.length
      · obtain ⟨hlong, hmax⟩ := hno _ (.label hlen h0 h63 hend) h.few
        obtain ⟨rest, hput, -⟩ := put_dot h hsiz
        dsimp only [Trail.Fits] at hlong hmax
        rw [not_or, length_textOf_concat _ hend] at hlong
        rw [length_textOf_concat _ hend] at hmax
        rw [← h.p] at hlen hend
        rw [step_label hlen h0 h63 hend hput]
        dsimp only
        rw [← Int.natCast_add, wrapInt_of_le (Int.natCast_nonneg _) hmax, if_pos (Int.not_lt.1 hlong.2)]
        exact ⟨_, rfl⟩
      · unfold expandStep load
        rw [h.p, if_pos hin, hlen]
        simp only [ok_bind, if_neg h0, if_neg hbits, if_neg (UInt8.not_lt.2 h63), if_pos (Nat.not_le.1 hend)]
        exact ⟨s, rfl⟩
    · unfold expandStep load
      rw [h.p, if_pos hin, hlen]
      simp only [ok_bind, if_neg h0, if_neg hbits, if_pos (UInt8.not_le.1 h63)]
      exact ⟨s, rfl⟩

/-- Where the text leaves `int`, its length wraps around to below zero, and the label is stored behind the end. -/
theorem step_over (h : Follows src dstsiz t s) (hsiz : dstsiz ≤ INT_MAX) (hop : Hop msg t t')
    (hover : INT_MAX < (textOf t'.labels).length) : ∃ e, expandStep msg src dstsiz s = .error e := by
  cases hop with
  | @label len hlen h0 h63 hin =>
    obtain ⟨rest, hput, hsize⟩ := put_dot h hsiz
    have hlead := length_lead_le t.labels
    have hlt := h.text_lt hsiz
    have h63' := UInt8.le_iff_toNat_le.1 h63
    have hlabel := length_label hin
    dsimp only at hover
    rw [length_textOf_concat _ hin] at hover
    rw [List.length_append] at hsize
    have h63'' : len.toNat ≤ 63 := h63'
    have hmax : ((lead t.labels).length + len.toNat : Nat) ≤ INT_MAX + 2 ^ 31 := by omega
    have hneg : ¬dstsiz ≤ ((lead t.labels).length + len.toNat : Nat) - 2 ^ 32 := by
      have hpos : 0 < dstsiz.toNat := by
        unfold INT_MAX at hover
        omega
      unfold INT_MAX at hmax
      omega
    have hroom : ¬((lead t.labels).length + len.toNat ≤ (lead t.labels).length + rest.length) := by omega
    rw [← h.p] at hlen hin
    rw [step_label hlen h0 h63 hin hput]
    dsimp only
    unfold store
    rw [← Int.natCast_add, wrapInt_over hover hmax, if_neg hneg, h.p, if_neg]
    · exact ⟨_, rfl⟩
    · rw [hlabel, List.length_append]
      rintro ⟨-, hle⟩
      exact hroom (by exact_mod_cast hle)
  | @pointer high low hhigh hbits hlow hin =>
    have hlt := h.text_lt hsiz
    dsimp only at hover
    omega

/-! ### The end of the loop -/

/-- What `consumed ? consumed : (int)(p - src + 1)` gives at the end of the trail. -/
def reported (src : Nat) (t : Trail) : Int :=
  firstNonzero ((t.distances src ++ [(t.place : Int) - src + 1]).map wrapInt)

/-- The locals behind the loop; `nul` is the NUL that the zero byte has put behind the text, if there is one. -/
structure Stopped (src : Nat) (dstsiz : Int) (t : Trail) (nul : List UInt8) (s : Expand) : Prop where
  pos : s.pos = (textOf t.labels ++ nul).length
  returned : (if s.consumed ≠ 0 then s.consumed else wrapInt (s.p - src + 1)) = reported src t
  dst : ∃ rest, s.dst = textOf t.labels ++ nul ++ rest
  size : s.dst.length = dstsiz.toNat

theorem Follows.returned (h : Follows src dstsiz t s) :
    (if s.consumed ≠ 0 then s.consumed else wrapInt (s.p - src + 1)) = reported src t := by
  unfold reported
  rw [List.map_append, List.map_singleton, firstNonzero_concat, ← h.consumed, h.p]
  split <;> simp_all

/-- At the end of the message the loop is left with the locals as they are. -/
theorem stop_off (h : Follows src dstsiz t s) (hoff : msg.length ≤ t.place) :
    ∃ s', expandStep msg src dstsiz s = .ok (.stop s') ∧ Stopped src dstsiz t [] s' := by
  refine ⟨s, ?_, by rw [List.append_nil]; exact h.pos, h.returned, by simpa using h.dst, h.size⟩
  unfold expandStep
  rw [h.p, if_neg (Nat.not_lt.2 hoff)]

/-- At a zero byte the loop is left with a NUL behind the text. -/
theorem stop_zero (h : Follows src dstsiz t s) (hsiz : dstsiz ≤ INT_MAX) (hzero : msg[t.place]? = some 0) :
    ∃ s', expandStep msg src dstsiz s = .ok (.stop s') ∧ Stopped src dstsiz t (behind t.labels 0) s' := by
  obtain ⟨rest, hput, hsize⟩ := put_behind h hsiz 0
  obtain ⟨hin, -⟩ := List.getElem?_eq_some_iff.1 hzero
  have hreturned := h.returned
  have hstep : ∃ s', expandStep msg src dstsiz s = .ok (.stop s') ∧
      s' = Expand.consume { s with pos := (textOf t.labels ++ behind t.labels 0).length,
                                   dst := textOf t.labels ++ behind t.labels 0 ++ rest } src 1 := by
    refine ⟨_, ?_, rfl⟩
    unfold expandStep load
    rw [hput, h.p, if_pos hin, hzero]
    simp only [ok_bind, ↓reduceIte]
  obtain ⟨s', hs', heq⟩ := hstep
  refine ⟨s', hs', ?_⟩
  unfold Expand.consume at heq
  dsimp only at heq
  by_cases h0 : s.consumed = 0
  · rw [if_pos h0] at heq
    rw [if_neg (by simpa using h0)] at hreturned
    subst heq
    refine ⟨rfl, ?_, ⟨rest, rfl⟩, hsize⟩
    dsimp only
    rw [hreturned, ite_self]
  · rw [if_neg h0] at heq
    subst heq
    exact ⟨rfl, hreturned, ⟨rest, rfl⟩, hsize⟩

/-! ### The run -/

theorem loop_again {s' : Expand} (h : expandStep msg src dstsiz s = .ok (.again s')) :
    expandLoop msg src dstsiz s = expandLoop msg src dstsiz s' := by
  rw [expandLoop]
  split <;> simp_all

theorem loop_fail {s' : Expand} (h : expandStep msg src dstsiz s = .ok (.fail s')) :
    expandLoop msg src dstsiz s = .ok (true, s') := by
  rw [expandLoop]
  split <;> simp_all

theorem loop_stop {s' : Expand} (h : expandStep msg src dstsiz s = .ok (.stop s')) :
    expandLoop msg src dstsiz s = .ok (false, s') := by
  rw [expandLoop]
  split <;> simp_all

theorem loop_error {e : Fault} (h : expandStep msg src dstsiz s = .error e) :
    expandLoop msg src dstsiz s = .error e := by
  rw [expandLoop]
  split <;> simp_all

/-- A trail that fits has fitted all along. -/
theorem Hop.fits (hop : Hop msg t t') (h : t'.Fits dstsiz) : t.Fits dstsiz := by
  rcases hop.grows with ⟨l, -, -, hlabels, -⟩ | ⟨hlabels, -⟩
  · have hlt := h.resolve_left (by simp [hlabels])
    rw [hlabels, textOf_concat, List.length_append] at hlt
    have := length_textOf_le t.labels
    right
    omega
  · unfold Trail.Fits at h ⊢
    rwa [hlabels] at h

theorem Hop.few (hop : Hop msg t t') (h : t'.pointers.length ≤ 10) : t.pointers.length ≤ 10 := by
  rcases hop.grows with ⟨l, -, -, -, hpointers⟩ | ⟨-, hpointers⟩
  · rwa [hpointers] at h
  · rw [hpointers, List.length_append] at h
    omega

/-- The loop comes along every trail whose text fits. -/
theorem loop_comes {dst : List UInt8} (hdst : dst.length = dstsiz.toNat) (hsiz : dstsiz ≤ INT_MAX) (h : Comes msg src t)
    (hfew : t.pointers.length ≤ 10) (hfits : t.Fits dstsiz) :
    ∃ s, Follows src dstsiz t s ∧ expandLoop msg src dstsiz ⟨src, 0, 0, 0, dst⟩ = expandLoop msg src dstsiz s := by
  induction h with
  | refl => exact ⟨_, follows_start src hdst, rfl⟩
  | tail _ hop ih =>
    obtain ⟨s, hs, hrun⟩ := ih (hop.few hfew) (hop.fits hfits)
    obtain ⟨s', hstep, hs'⟩ := step_hop hs hsiz hop hfew hfits
    exact ⟨s', hs', hrun.trans (loop_again hstep)⟩

/-- The loop goes on until no hop can be taken. -/
theorem loop_ends (hsiz : dstsiz ≤ INT_MAX) (t : Trail) (s : Expand) (hs : Follows src dstsiz t s) :
    ∃ t' s', Relation.ReflTransGen (Hop msg) t t' ∧ Follows src dstsiz t' s' ∧
    expandLoop msg src dstsiz s = expandLoop msg src dstsiz s' ∧
      ∀ u, Hop msg t' u → u.pointers.length ≤ 10 → ¬u.Fits dstsiz := by
  by_cases hnext : ∃ u, Hop msg t u ∧ u.pointers.length ≤ 10 ∧ u.Fits dstsiz
  · obtain ⟨u, hop, hfew, hfits⟩ := hnext
    obtain ⟨s₁, hstep, hs₁⟩ := step_hop hs hsiz hop hfew hfits
    obtain ⟨t', s', hto, hs', hrun, hlast⟩ := loop_ends hsiz u s₁ hs₁
    exact ⟨t', s', .head hop hto, hs', (loop_again hstep).trans hrun, hlast⟩
  · exact ⟨t, s, .refl, hs, rfl, fun u hop hfew hfits => hnext ⟨u, hop, hfew, hfits⟩⟩
termination_by (10 - t.pointers.length, msg.length - t.place)
decreasing_by
  cases hop with
  | label hlen h0 h63 hin => exact Prod.Lex.right _ (by dsimp only; omega)
  | pointer hhigh hbits hlow hin =>
    refine Prod.Lex.left _ _ ?_
    dsimp only at hfew ⊢
    rw [List.length_append, List.length_singleton] at hfew ⊢
    omega

/-- `dn_expand` where the loop was left and not answered `-1`. -/
theorem expand_stopped {dst nul : List UInt8} (hrun : expandLoop msg src dstsiz ⟨src, 0, 0, 0, dst⟩ = .ok (false, s))
    (hs : Stopped src dstsiz t nul s) :
    ∃ text, dnExpand msg src dst dstsiz = .ok (if dstsiz ≤ (textOf t.labels ++ nul).length then -1
    else reported src t, text) ∧
      (¬dstsiz ≤ (textOf t.labels ++ nul).length → ∃ rest, text = textOf t.labels ++ nul ++ 0 :: rest) := by
  obtain ⟨rest, hrest⟩ := hs.dst
  unfold dnExpand
  rw [hrun, ok_bind]
  dsimp only
  simp only [Bool.false_eq_true, false_or, hs.pos]
  by_cases hlong : dstsiz ≤ (textOf t.labels ++ nul).length
  · rw [if_pos hlong, if_pos hlong]
    exact ⟨_, rfl, fun h => absurd hlong h⟩
  · have hsize := hs.size
    rw [hrest, List.length_append] at hsize
    have hroom : 1 ≤ rest.length := by omega
    rw [if_neg hlong, if_neg hlong, hrest]
    unfold store
    rw [if_pos ⟨by omega, by rw [@List.length_append _ _ rest]; simp only [List.length_singleton]; omega⟩,
      Int.toNat_natCast, Buffer.write_front (by simpa using hroom), ok_bind, hs.returned]
    exact ⟨_, rfl, fun _ => ⟨rest.drop 1, by simp⟩⟩

/-! ### Safety -/

/-- One label alone is no longer than `INT_MAX`. -/
theorem Hop.over (hop : Hop msg t t') (hfits : t.Fits dstsiz) (hover : INT_MAX < (textOf t'.labels).length) :
    (textOf t.labels).length < dstsiz := by
  rcases hfits with hnil | hlt
  · rcases hop.grows with ⟨l, -, h63, hlabels, -⟩ | ⟨hlabels, -⟩
    · rw [hlabels, hnil, textOf_concat, List.length_append] at hover
      simp only [lead, ↓reduceIte, List.length_nil] at hover
      unfold INT_MAX at hover
      omega
    · rw [hlabels, hnil] at hover
      exact absurd hover (by decide)
  · exact hlt

/-- Where the text leaves `int`, an access does not stay inside. -/
theorem expand_over {dst : List UInt8} (hdst : dst.length = dstsiz.toNat) (hsiz : dstsiz ≤ INT_MAX)
    (h : Comes msg src t) (hfew : t.pointers.length ≤ 10) (hlt : (textOf t.labels).length < dstsiz) (hop : Hop msg t t')
    (hover : INT_MAX < (textOf t'.labels).length) : ∃ e, dnExpand msg src dst dstsiz = .error e := by
  obtain ⟨s, hs, hrun⟩ := loop_comes hdst hsiz h hfew (.inr hlt)
  obtain ⟨e, he⟩ := step_over hs hsiz hop hover
  unfold dnExpand
  rw [hrun, loop_error he]
  exact ⟨e, rfl⟩

/-- `dn_expand` terminates, and its accesses stay inside the message and the `dstsiz` bytes of the text, unless a
label carries a text that was still shorter than `dstsiz` beyond `INT_MAX`. -/
theorem dn_expand_safe (msg : List UInt8) (src : Nat) {dstsiz : Int} (hsiz : dstsiz ≤ INT_MAX) {dst : List UInt8}
    (hdst : dst.length = dstsiz.toNat) :
    (∃ n text, dnExpand msg src dst dstsiz = .ok (n, text)) ↔
      ¬∃ t t', Comes msg src t ∧ t.pointers.length ≤ 10 ∧ (textOf t.labels).length < dstsiz ∧
        Hop msg t t' ∧ INT_MAX < (textOf t'.labels).length := by
  constructor
  · rintro ⟨n, text, hok⟩ ⟨t, t', hcomes, hfew, hlt, hop, hover⟩
    obtain ⟨e, he⟩ := expand_over hdst hsiz hcomes hfew hlt hop hover
    rw [hok] at he
    cases he
  · intro hno
    obtain ⟨t, s, hcomes, hs, hrun, hlast⟩ := @loop_ends msg src dstsiz hsiz _ _ (follows_start src hdst)
    by_cases hoff : msg.length ≤ t.place
    · obtain ⟨s', hstep, hs'⟩ := stop_off hs hoff
      obtain ⟨text, hok, -⟩ := expand_stopped (hrun.trans (loop_stop hstep)) hs'
      exact ⟨_, text, hok⟩
    by_cases hzero : msg[t.place]? = some 0
    · obtain ⟨s', hstep, hs'⟩ := stop_zero hs hsiz hzero
      obtain ⟨text, hok, -⟩ := expand_stopped (hrun.trans (loop_stop hstep)) hs'
      exact ⟨_, text, hok⟩
    have hmax : ∀ u, Hop msg t u → u.pointers.length ≤ 10 → ¬u.Fits dstsiz ∧ (textOf u.labels).length ≤ INT_MAX := by
      intro u hop hfew
      refine ⟨hlast u hop hfew, Int.not_lt.1 fun hover => ?_⟩
      exact hno ⟨t, u, hcomes, hs.few, hop.over hs.fits hover, hop, hover⟩
    obtain ⟨s', hstep⟩ := step_refused hs hsiz (Nat.not_le.1 hoff) hzero hmax
    unfold dnExpand
    rw [hrun, loop_fail hstep]
    exact ⟨-1, s'.dst, rfl⟩

/-- The trails of a name of one letter. -/
theorem hop_letter {t t' : Trail} (ht : t = ⟨[], [], 0⟩ ∨ t = ⟨[[97]], [], 2⟩) (hop : Hop [1, 97, 0] t t') :
    t' = ⟨[[97]], [], 2⟩ := by
  rcases ht with rfl | rfl
  · cases hop with
    | label hlen =>
      cases hlen
      rfl
    | pointer hhigh hbits =>
      cases hhigh
      exact absurd hbits (by decide)
  · cases hop with
    | label hlen h0 =>
      cases hlen
      exact absurd rfl h0
    | pointer hhigh hbits =>
      cases hhigh
      exact absurd hbits (by decide)

theorem comes_letter {t : Trail} (h : Comes [1, 97, 0] 0 t) : t = ⟨[], [], 0⟩ ∨ t = ⟨[[97]], [], 2⟩ := by
  induction h with
  | refl => exact .inl rfl
  | tail _ hop ih => exact .inr (hop_letter ih hop)

/-- No label of it carries the text far, so that it is expanded. -/
theorem dn_expand_safe_letter : ∃ n text, dnExpand [1, 97, 0] 0 [0, 0, 0, 0] 4 = .ok (n, text) := by
  refine (dn_expand_safe [1, 97, 0] 0 (by decide) rfl).2 ?_
  rintro ⟨t, t', ht, -, -, hop, hover⟩
  rw [hop_letter (comes_letter ht) hop] at hover
  exact absurd hover (by decide)

/-- `n` labels of 63 bytes, and one of a single byte. -/
def longLabels (n : Nat) : List (List UInt8) := List.replicate n (List.replicate 63 97) ++ [[97]]

theorem length_longLabels (n : Nat) : (textOf (longLabels n)).length = 64 * n + 1 := by
  have h := @length_textOf (longLabels n) (List.append_ne_nil_of_right_ne_nil _ (List.cons_ne_nil _ _))
  unfold longLabels at h ⊢
  rw [List.map_append, List.map_replicate, List.sum_append, List.sum_replicate_nat, List.length_replicate] at h
  simp only [List.map_cons, List.map_nil, List.sum_cons, List.sum_nil, List.length_cons, List.length_nil] at h
  omega

theorem longLabels_labels (n : Nat) : ∀ l ∈ longLabels n, IsLabel l := by
  intro l hl
  unfold longLabels at hl
  simp only [List.mem_append, List.mem_replicate, List.mem_singleton] at hl
  rcases hl with ⟨-, rfl⟩ | rfl
  · exact ⟨by decide, by decide⟩
  · exact ⟨by decide, by decide⟩

/-- Their text with one label more leaves `int`. -/
theorem long_text {n : Nat} (hn : n = 2 ^ 25 - 1) : ((textOf (longLabels n)).length : Int) < INT_MAX ∧
    INT_MAX < (textOf (longLabels n ++ [List.replicate 63 97])).length := by
  have hlen := length_longLabels n
  have hle := length_textOf_le (longLabels n)
  rw [textOf_concat, List.length_append, List.length_replicate]
  unfold INT_MAX
  constructor <;> omega

/-- The way up to the last label of a name, and the hop to it. -/
theorem comes_last {ls : List (List UInt8)} (hls : ∀ l ∈ ls, IsLabel l) {l : List UInt8} (hl : IsLabel l) :
    Comes (wire (ls ++ [l])) 0 ⟨ls, [], (counted ls).length⟩ ∧
      Hop (wire (ls ++ [l])) ⟨ls, [], (counted ls).length⟩ ⟨ls ++ [l], [], (counted ls).length + 1 + l.length⟩ := by
  have hwire : wire (ls ++ [l]) = counted ls ++ (l.length.toUInt8 :: (l ++ [0])) := by
    unfold wire counted
    rw [List.flatMap_append, List.flatMap_singleton, List.append_assoc]
    rfl
  rw [hwire]
  have hcomes := @comes_counted (counted ls ++ (l.length.toUInt8 :: (l ++ [0]))) ls hls _ ⟨[], [], 0⟩ rfl
  rw [List.nil_append, Nat.zero_add] at hcomes
  exact ⟨hcomes, hop_counted hl List.drop_left⟩

/-- A name of two GiB, into a buffer of `INT_MAX` bytes. -/
theorem dn_expand_two_gib : ¬∃ n text, dnExpand (wire (longLabels (2 ^ 25 - 1) ++ [List.replicate 63 97])) 0
    (List.replicate INT_MAX.toNat 0) INT_MAX = .ok (n, text) := by
  generalize hn : 2 ^ 25 - 1 = n
  generalize hdst : List.replicate INT_MAX.toNat (0 : UInt8) = dst
  have hsize : dst.length = INT_MAX.toNat := by rw [← hdst, List.length_replicate]
  clear hdst
  have hlabel : IsLabel (List.replicate 63 97) := ⟨by decide, by decide⟩
  obtain ⟨hlt, hover⟩ := long_text hn.symm
  obtain ⟨hcomes, hop⟩ := comes_last (longLabels_labels n) hlabel
  rintro ⟨r, text, hok⟩
  obtain ⟨e, he⟩ := expand_over hsize (Int.le_refl _) hcomes (Nat.zero_le 10) hlt hop hover
  rw [hok] at he
  cases he

/-! ### The answer -/

/-- The answer `r` of `dn_expand` is the one that the name at `src` calls for. -/
structure Answers (msg : List UInt8) (src : Nat) (dstsiz : Int) (r : Except Fault (Int × List UInt8)) : Prop where
  sound : ∀ n text, r = .ok (n, text) → 0 ≤ n → ∃ t, IsName msg src t ∧ n = occupied src t ∧ n ≤ msg.length - src ∧
    text.take ((textOf t.labels).length + 1) = textOf t.labels ++ [0]
  complete : ∀ t, IsName msg src t → (textOf t.labels).length + 1 ≤ dstsiz → ∃ n text, r = .ok (n, text) ∧ 0 ≤ n

/-- The first of the distances that is not a multiple of `2^32` becomes a negative `int`. -/
def Wraps (ds : List Int) : Prop := ∃ pre d post, ds = pre ++ d :: post ∧ (∀ x ∈ pre, 2 ^ 32 ∣ x) ∧ 2 ^ 31 ≤ d % 2 ^ 32

theorem wrapInt_eq_zero {d : Int} : wrapInt d = 0 ↔ 2 ^ 32 ∣ d := by
  unfold wrapInt
  rw [Int.bmod_def]
  split <;> omega

theorem wrapInt_neg {d : Int} : wrapInt d < 0 ↔ 2 ^ 31 ≤ d % 2 ^ 32 := by
  unfold wrapInt
  rw [Int.bmod_def]
  split <;> omega

theorem firstNonzero_wraps (ds : List Int) : firstNonzero (ds.map wrapInt) < 0 ↔ Wraps ds := by
  induction ds with
  | nil => simp [firstNonzero, Wraps]
  | cons d ds ih =>
    by_cases hd : wrapInt d = 0
    · have hskip : firstNonzero ((d :: ds).map wrapInt) = firstNonzero (ds.map wrapInt) := by simp [firstNonzero, hd]
      rw [hskip, ih]
      constructor
      · rintro ⟨pre, x, post, rfl, hpre, hx⟩
        refine ⟨d :: pre, x, post, rfl, fun y hy => ?_, hx⟩
        rcases List.mem_cons.1 hy with rfl | hy
        · exact wrapInt_eq_zero.1 hd
        · exact hpre y hy
      · rintro ⟨pre, x, post, heq, hpre, hx⟩
        cases pre with
        | nil =>
          cases heq
          have := wrapInt_eq_zero.1 hd
          omega
        | cons y pre =>
          cases heq
          exact ⟨pre, x, post, rfl, fun z hz => hpre z (List.mem_cons_of_mem _ hz), hx⟩
    · have hhead : firstNonzero ((d :: ds).map wrapInt) = wrapInt d := by simp [firstNonzero, hd]
      rw [hhead, wrapInt_neg]
      constructor
      · intro h
        exact ⟨[], d, ds, rfl, by simp, h⟩
      · rintro ⟨pre, x, post, heq, hpre, hx⟩
        cases pre with
        | nil =>
          cases heq
          exact hx
        | cons y pre =>
          cases heq
          exact absurd (wrapInt_eq_zero.2 (hpre d List.mem_cons_self)) hd

theorem firstNonzero_le (ds : List Int) : firstNonzero (ds.map wrapInt) ≤ INT_MAX := by
  induction ds with
  | nil => decide
  | cons d ds ih =>
    by_cases hd : wrapInt d = 0
    · simpa [firstNonzero, hd] using ih
    · have hhead : firstNonzero ((d :: ds).map wrapInt) = wrapInt d := by simp [firstNonzero, hd]
      rw [hhead]
      exact wrapInt_le d

/-- The name lies where it is. -/
theorem Comes.bounds (h : Comes msg src t) :
    (t.pointers = [] → src ≤ t.place) ∧ ∀ q qs, t.pointers = q :: qs → src ≤ q ∧ q + 2 ≤ msg.length := by
  induction h with
  | refl => exact ⟨fun _ => le_rfl, fun q qs hq => by cases hq⟩
  | @tail t t' _ hop ih =>
    cases hop with
    | label hlen h0 h63 hin =>
      dsimp only
      exact ⟨fun h => (ih.1 h).trans (by omega), ih.2⟩
    | pointer hhigh hbits hlow hin =>
      obtain ⟨hp, -⟩ := List.getElem?_eq_some_iff.1 hlow
      dsimp only
      refine ⟨fun h => absurd h (by simp), fun q qs hq => ?_⟩
      cases hpointers : t.pointers with
      | nil =>
        rw [hpointers] at hq
        cases hq
        exact ⟨ih.1 hpointers, by omega⟩
      | cons q' qs' =>
        rw [hpointers] at hq
        cases hq
        exact ih.2 _ _ hpointers

theorem occupied_bounds (h : IsName msg src t) : 1 ≤ occupied src t ∧ occupied src t ≤ msg.length - src := by
  obtain ⟨hin, -⟩ := List.getElem?_eq_some_iff.1 h.zero
  obtain ⟨hfirst, hnext⟩ := h.comes.bounds
  unfold occupied
  cases hpointers : t.pointers with
  | nil =>
    have := hfirst hpointers
    dsimp only
    omega
  | cons q qs =>
    have := hnext q qs hpointers
    dsimp only
    omega

/-- The size of the name is what is reported, if it is an `int`. -/
theorem reported_eq (h : IsName msg src t) (hle : occupied src t ≤ INT_MAX) : reported src t = occupied src t := by
  have hpos := (occupied_bounds h).1
  have hwrap : wrapInt (occupied src t) = occupied src t := wrapInt_of_le (by omega) hle
  have hhead : ∃ ds, t.distances src ++ [(t.place : Int) - src + 1] = occupied src t :: ds := by
    unfold Trail.distances occupied
    cases t.pointers with
    | nil => exact ⟨_, rfl⟩
    | cons q qs => exact ⟨_, rfl⟩
  obtain ⟨ds, hds⟩ := hhead
  unfold reported
  rw [hds, List.map_cons, hwrap]
  have : occupied src t ≠ 0 := by omega
  simp [firstNonzero, this]

theorem length_behind_le (ls : List (List UInt8)) (c : UInt8) : (behind ls c).length ≤ 1 := by
  unfold behind
  split <;> simp

theorem take_text {ls : List (List UInt8)} {rest : List UInt8} :
    (textOf ls ++ behind ls 0 ++ 0 :: rest).take ((textOf ls).length + 1) = textOf ls ++ [0] := by
  rw [List.append_assoc, List.take_length_add_append]
  unfold behind
  split <;> simp

/-- What `dn_expand` answers where the way through the message is a name. -/
theorem expand_name {dst : List UInt8} (hdst : dst.length = dstsiz.toNat) (hsiz : dstsiz ≤ INT_MAX)
    (h : IsName msg src t) (hfits : t.Fits dstsiz) :
    ∃ text, dnExpand msg src dst dstsiz =
        .ok (if dstsiz ≤ (textOf t.labels ++ behind t.labels 0).length then -1 else reported src t, text) ∧
      (¬dstsiz ≤ (textOf t.labels ++ behind t.labels 0).length →
        text.take ((textOf t.labels).length + 1) = textOf t.labels ++ [0]) := by
  obtain ⟨s, hs, hrun⟩ := loop_comes hdst hsiz h.comes h.few hfits
  obtain ⟨s', hstep, hs'⟩ := stop_zero hs hsiz h.zero
  obtain ⟨text, hok, htext⟩ := expand_stopped (hrun.trans (loop_stop hstep)) hs'
  refine ⟨text, hok, fun hlong => ?_⟩
  obtain ⟨rest, rfl⟩ := htext hlong
  exact take_text

/-- What `dn_expand` answers where the way ends with the message. -/
theorem expand_off {dst : List UInt8} (hdst : dst.length = dstsiz.toNat) (hsiz : dstsiz ≤ INT_MAX) (h : Comes msg src t)
    (hfew : t.pointers.length ≤ 10) (hoff : msg.length ≤ t.place) (hlt : (textOf t.labels).length < dstsiz) :
    ∃ text, dnExpand msg src dst dstsiz = .ok (reported src t, text) := by
  obtain ⟨s, hs, hrun⟩ := loop_comes hdst hsiz h hfew (.inr hlt)
  obtain ⟨s', hstep, hs'⟩ := stop_off hs hoff
  obtain ⟨text, hok, -⟩ := expand_stopped (hrun.trans (loop_stop hstep)) hs'
  rw [List.append_nil, if_neg (Int.not_le.2 hlt)] at hok
  exact ⟨text, hok⟩

/-- `dn_expand` answers what the name at `src` calls for, except where the way ends with the message instead of a zero
byte, where the text with its NUL takes all of the buffer, and where the size of the name is not an `int`. -/
theorem dn_expand_result {msg : List UInt8} {src : Nat} {dstsiz : Int} (hsiz : dstsiz ≤ INT_MAX)
    {dst : List UInt8} (hdst : dst.length = dstsiz.toNat) :
    Answers msg src dstsiz (dnExpand msg src dst dstsiz) ↔
      ∀ t, Comes msg src t → t.pointers.length ≤ 10 → (textOf t.labels).length < dstsiz →
        (msg[t.place]? = some 0 → occupied src t ≤ INT_MAX ∧ (t.labels = [] ∨ (textOf t.labels).length + 1 < dstsiz)) ∧
        (msg.length ≤ t.place → Wraps (t.distances src ++ [(t.place : Int) - src + 1])) := by
  constructor
  · intro hans t hcomes hfew hlt
    constructor
    · intro hzero
      have hname : IsName msg src t := ⟨hcomes, hfew, hzero⟩
      obtain ⟨text, hok, -⟩ := expand_name hdst hsiz hname (.inr hlt)
      obtain ⟨n, text', hok', hn⟩ := hans.complete t hname (by omega)
      rw [hok] at hok'
      cases hok'
      by_cases hlong : dstsiz ≤ (textOf t.labels ++ behind t.labels 0).length
      · rw [if_pos hlong] at hn
        exact absurd hn (by decide)
      · rw [if_neg hlong] at hok hn
        constructor
        · obtain ⟨u, hu, heq, -⟩ := hans.sound _ _ hok hn
          rw [comes_unique hcomes hu.comes (.inl hzero) (.inl hu.zero), ← heq]
          exact firstNonzero_le _
        · by_cases hnil : t.labels = []
          · exact .inl hnil
          · rw [behind, if_neg hnil, List.length_append, List.length_singleton] at hlong
            right
            omega
    · intro hoff
      obtain ⟨text, hok⟩ := expand_off hdst hsiz hcomes hfew hoff hlt
      rw [← firstNonzero_wraps]
      by_contra hn
      obtain ⟨u, hu, -⟩ := hans.sound _ _ hok (Int.not_lt.1 hn)
      have heq := comes_unique hcomes hu.comes (.inr hoff) (.inl hu.zero)
      obtain ⟨hin, -⟩ := List.getElem?_eq_some_iff.1 hu.zero
      rw [← heq] at hin
      omega
  · intro hcond
    constructor
    · intro n text hok hn
      obtain ⟨t, s, hcomes, hs, hrun, hlast⟩ := @loop_ends msg src dstsiz hsiz _ _ (follows_start src hdst)
      by_cases hoff : msg.length ≤ t.place
      · obtain ⟨s', hstep, hs'⟩ := stop_off hs hoff
        obtain ⟨text', hok', -⟩ := expand_stopped (hrun.trans (loop_stop hstep)) hs'
        rw [hok] at hok'
        cases hok'
        rw [List.append_nil] at hn
        by_cases hlong : dstsiz ≤ (textOf t.labels).length
        · rw [if_pos hlong] at hn
          exact absurd hn (by decide)
        · have := firstNonzero_wraps _ |>.2 ((hcond t hcomes hs.few (Int.not_le.1 hlong)).2 hoff)
          rw [if_neg hlong] at hn
          exact absurd hn (Int.not_le.2 this)
      by_cases hzero : msg[t.place]? = some 0
      · have hname : IsName msg src t := ⟨hcomes, hs.few, hzero⟩
        obtain ⟨text', hok', htext⟩ := expand_name hdst hsiz hname hs.fits
        rw [hok] at hok'
        cases hok'
        by_cases hlong : dstsiz ≤ (textOf t.labels ++ behind t.labels 0).length
        · rw [if_pos hlong] at hn
          exact absurd hn (by decide)
        · rw [List.length_append] at hlong
          obtain ⟨hle, -⟩ := (hcond t hcomes hs.few (by omega)).1 hzero
          rw [← List.length_append] at hlong
          refine ⟨t, hname, ?_, ?_, htext hlong⟩
          · rw [if_neg hlong, reported_eq hname hle]
          · rw [if_neg hlong, reported_eq hname hle]
            exact (occupied_bounds hname).2
      unfold dnExpand at hok
      by_cases hover : ∃ u, Hop msg t u ∧ INT_MAX < (textOf u.labels).length
      · obtain ⟨u, hop, hmax⟩ := hover
        obtain ⟨e, he⟩ := step_over hs hsiz hop hmax
        rw [hrun, loop_error he] at hok
        cases hok
      · obtain ⟨s', hstep⟩ := step_refused hs hsiz (Nat.not_le.1 hoff) hzero fun u hop hfew =>
          ⟨hlast u hop hfew, Int.not_lt.1 fun hmax => hover ⟨u, hop, hmax⟩⟩
        rw [hrun, loop_fail hstep] at hok
        cases hok
        exact absurd hn (by decide)
    · intro t hname hlt
      obtain ⟨text, hok, -⟩ := expand_name hdst hsiz hname (.inr (by omega))
      obtain ⟨hle, hroom⟩ := (hcond t hname.comes hname.few (by omega)).1 hname.zero
      have hshort : ¬dstsiz ≤ (textOf t.labels ++ behind t.labels 0).length := by
        rw [List.length_append]
        rcases hroom with hnil | hroom
        · rw [hnil] at hlt ⊢
          simp only [behind, ↓reduceIte, List.length_nil]
          omega
        · have := length_behind_le t.labels 0
          omega
      rw [if_neg hshort, reported_eq hname hle] at hok
      have := (occupied_bounds hname).1
      exact ⟨_, text, hok, by omega⟩

/-- A name of one letter that the message cuts off is taken for a name of three bytes in two. -/
theorem dn_expand_cut_off : ¬Answers [1, 97] 0 4 (dnExpand [1, 97] 0 [0, 0, 0, 0] 4) := by
  intro h
  have hcomes : Comes [1, 97] 0 ⟨[[97]], [], 2⟩ := .single (@Hop.label _ _ 1 rfl (by decide) (by decide) (by decide))
  have hreported : reported 0 ⟨[[97]], [], 2⟩ = 3 := by decide
  have hsiz : (4 : Int) ≤ INT_MAX := by decide
  have hroom : ([0, 0, 0, 0] : List UInt8).length = (4 : Int).toNat := rfl
  obtain ⟨text, hrun⟩ := expand_off hroom hsiz hcomes (by decide) (by decide) (by decide)
  obtain ⟨t, -, -, hle, -⟩ := h.sound _ _ hrun (by rw [hreported]; decide)
  rw [hreported] at hle
  exact absurd hle (by decide)

theorem dn_expand_result_letter : Answers [1, 97, 0] 0 8 (dnExpand [1, 97, 0] 0 [0, 0, 0, 0, 0, 0, 0, 0] 8) := by
  refine (dn_expand_result (by decide) rfl).2 fun t ht _ _ => ?_
  rcases comes_letter ht with rfl | rfl
  · exact ⟨fun h => absurd h (by decide), fun h => absurd h (by decide)⟩
  · exact ⟨fun _ => ⟨by decide, .inr (by decide)⟩, fun h => absurd h (by decide)⟩

end JACLibc.Dns
