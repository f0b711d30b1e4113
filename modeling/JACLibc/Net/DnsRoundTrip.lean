import JACLibc.Net.DnsExpand

/-!
# `dn_comp` and back

Without a table `dn_comp` writes the wire form of a name label by label (`compLoop_wire`), and `dn_expand` follows the
labels from wherever the bytes stand in a message.
-/

namespace JACLibc.Dns

/-- A label that can stand in a name given as text. -/
def IsPlain (l : List UInt8) : Prop := IsLabel l ∧ asc '.' ∉ l ∧ 0 ∉ l

/-! ### The labels of a text -/

theorem textOf_cons (l : List UInt8) {ls : List (List UInt8)} (h : ls ≠ []) :
    textOf (l :: ls) = l ++ asc '.' :: textOf ls := by
  unfold textOf
  rw [List.intercalate_cons_of_ne_nil h, List.append_assoc]
  rfl

theorem takeWhile_textOf {l : List UInt8} (hl : IsPlain l) (ls : List (List UInt8)) :
    (textOf (l :: ls)).takeWhile (· ≠ asc '.') = l ∧
      (textOf (l :: ls)).dropWhile (· ≠ asc '.') = if ls = [] then [] else asc '.' :: textOf ls := by
  have hdot : ∀ c ∈ l, decide (c ≠ asc '.') = true := by
    intro c hc
    rw [decide_eq_true_eq]
    rintro rfl
    exact hl.2.1 hc
  by_cases hnil : ls = []
  · have htext : textOf (l :: ls) = l ++ [] := by simp [textOf, hnil]
    rw [htext, List.takeWhile_append_of_pos hdot, List.dropWhile_append_of_pos hdot, if_pos hnil]
    simp
  · rw [textOf_cons l hnil, List.takeWhile_append_of_pos hdot, List.dropWhile_append_of_pos hdot, if_neg hnil]
    simp

theorem textOf_ne_nil {l : List UInt8} (hl : IsPlain l) (ls : List (List UInt8)) : textOf (l :: ls) ≠ [] := by
  intro h
  have := (takeWhile_textOf hl ls).1
  rw [h] at this
  exact hl.1.1 this.symm

/-- The loop over the name finds its labels. -/
theorem labelStarts_cons {l : List UInt8} (hl : IsPlain l) (ls : List (List UInt8)) :
    labelStarts (textOf (l :: ls)) = textOf (l :: ls) :: labelStarts (textOf ls) := by
  have hafter : afterDot (textOf (l :: ls)) = if ls = [] then none else some (textOf ls) := by
    unfold afterDot
    rw [(takeWhile_textOf hl ls).2]
    split <;> rfl
  rw [labelStarts, if_neg (textOf_ne_nil hl ls)]
  by_cases hnil : ls = []
  · rw [if_pos hnil] at hafter
    have hrest : labelStarts (textOf ls) = [] := by
      rw [hnil, labelStarts, if_pos (by rfl)]
    split
    · rw [hrest]
    · simp_all
  · rw [if_neg hnil] at hafter
    split
    · simp_all
    · simp_all

theorem labelLen_cons {l : List UInt8} (hl : IsPlain l) (ls : List (List UInt8)) :
    labelLen (textOf (l :: ls)) = l.length := by
  have h63 := hl.1.2
  unfold labelLen
  rw [(takeWhile_textOf hl ls).1, wrapInt_of_le (by omega) (by unfold INT_MAX; omega)]

theorem take_textOf {l : List UInt8} (hl : IsPlain l) (ls : List (List UInt8)) :
    (textOf (l :: ls)).take l.length = l := by
  have h := (textOf (l :: ls)).takeWhile_append_dropWhile (p := (· ≠ asc '.'))
  rw [(takeWhile_textOf hl ls).1] at h
  rw [← h, List.take_left]

/-! ### The wire form -/

/-- The labels are written one after the other, and the zero byte behind them. -/
theorem compLoop_wire {ls : List (List UInt8)} (hls : ∀ l ∈ ls, IsPlain l) {dst pos : Nat} {dstsiz : Int}
    (hmax : dstsiz ≤ INT_MAX) (hroom : pos + (wire ls).length < dstsiz) (mem : Mem) :
    compLoop dst dstsiz pos none mem (labelStarts (textOf ls)) =
      some (((pos + (wire ls).length : Nat) : Int), none, storeBytes mem (dst + pos) (wire ls)) := by
  induction ls generalizing pos mem with
  | nil =>
    have hstarts : labelStarts (textOf []) = [] := by
      rw [labelStarts, if_pos (by rfl)]
    have hone : (wire []).length = 1 := rfl
    rw [hone] at hroom
    rw [hstarts, compLoop, compEnd, wrapInt_of_le (by omega) (by omega), if_neg (by omega), Int.toNat_natCast]
    have hwire : wire [] = [0] := rfl
    rw [hwire, storeBytes_cons, storeBytes_nil]
    rfl
  | cons l ls ih =>
    have hl := hls l List.mem_cons_self
    have h63 := hl.1.2
    have hpos := List.length_pos_iff.2 hl.1.1
    have hwire : wire (l :: ls) = l.length.toUInt8 :: l ++ wire ls := by
      unfold wire counted
      rw [List.flatMap_cons, List.append_assoc]
    have hlen : (wire (l :: ls)).length = l.length + 1 + (wire ls).length := by
      rw [hwire, List.length_append, List.length_cons]
    rw [hlen] at hroom
    have hnext := @ih (fun x hx => hls x (List.mem_cons_of_mem l hx)) (pos + (l.length + 1)) (by omega)
      (storeBytes mem (dst + pos) (l.length.toUInt8 :: l))
    have hfirst : wrapInt ((pos : Int) + l.length) = ((pos + l.length : Nat) : Int) := by
      rw [wrapInt_of_le (by omega) (by omega), Int.natCast_add]
    have hsecond : wrapInt (((pos + l.length : Nat) : Int) + 1) = ((pos + l.length + 1 : Nat) : Int) := by
      rw [wrapInt_of_le (by omega) (by omega), Int.natCast_add (pos + l.length) 1]
      rfl
    have hthird : wrapInt (wrapInt ((pos : Int) + 1) + l.length) = ((pos + (l.length + 1) : Nat) : Int) := by
      rw [@wrapInt_of_le ((pos : Int) + 1) (by omega) (by omega), wrapInt_of_le (by omega) (by omega)]
      omega
    have hshort : ¬(63 < (l.length : Int) ∨ dstsiz ≤ ((pos + l.length + 1 : Nat) : Int)) := by omega
    rw [labelStarts_cons hl, compLoop]
    simp only [labelLen_cons hl, hfirst, hsecond, hthird, if_neg hshort]
    rw [if_neg (by omega), if_neg (by omega)]
    simp only [remember, Int.toNat_natCast, take_textOf hl]
    rw [hnext, hwire, storeBytes_append, List.length_append, List.length_cons]
    simp only [Nat.add_assoc]

/-- The bytes of the memory from `dst` on. -/
def bytesAt (mem : Mem) (dst n : Nat) : List UInt8 := (List.range n).map fun k => mem (dst + k)

theorem bytesAt_storeBytes (mem : Mem) (dst : Nat) (bs : List UInt8) :
    bytesAt (storeBytes mem dst bs) dst bs.length = bs := by
  apply List.ext_getElem
  · simp [bytesAt]
  · intro k hk hk'
    simp [bytesAt, storeBytes, hk']

theorem dnComp_wire {ls : List (List UInt8)} (hls : ∀ l ∈ ls, IsPlain l) {name : CString}
    (hname : name.bytes = textOf ls) {dst : Nat} {dstsiz : Int} (hmax : dstsiz ≤ INT_MAX)
    (hroom : (wire ls).length + 1 ≤ dstsiz) (mem : Mem) :
    dnComp (some name) (some dst) dstsiz none mem = some
    (((wire ls).length : Int), none, storeBytes mem dst (wire ls)) := by
  have hdot : name.bytes ≠ lit "." := by
    rw [hname]
    cases ls with
    | nil => exact List.cons_ne_nil _ _ |>.symm
    | cons l ls =>
      have hl := hls l List.mem_cons_self
      intro h
      have hfront := (takeWhile_textOf hl ls).1
      rw [h] at hfront
      exact hl.1.1 hfront.symm
  have hrun := @compLoop_wire ls hls dst 0 dstsiz hmax (by omega) mem
  unfold dnComp
  dsimp only [Option.bind]
  rw [if_neg (by omega), if_neg hdot, hname]
  rw [Nat.zero_add, Nat.add_zero] at hrun
  exact hrun

/-! ### The way back -/

theorem isName_wire {ls : List (List UInt8)} (hls : ∀ l ∈ ls, IsPlain l) (pre post : List UInt8) :
    IsName (pre ++ wire ls ++ post) pre.length ⟨ls, [], pre.length + (counted ls).length⟩ := by
  have hat : (pre ++ wire ls ++ post).drop pre.length = counted ls ++ (0 :: post) := by
    rw [List.append_assoc, List.drop_left, wire, List.append_assoc]
    rfl
  have hcomes := @comes_counted (pre ++ wire ls ++ post) ls (fun l hl => (hls l hl).1) _ ⟨[], [], pre.length⟩ hat
  rw [List.nil_append] at hcomes
  refine ⟨hcomes, Nat.zero_le 10, ?_⟩
  dsimp only
  rw [← List.getElem?_drop, hat, List.getElem?_append_right (le_refl _), Nat.sub_self]
  rfl

theorem of_text {name : CString} {text rest : List UInt8} (h : name.bytes = text) :
    CString.of (text ++ 0 :: rest) = name := by
  have hbytes := CString.of_append (h ▸ name.noNul) rest
  rw [← h] at hbytes ⊢
  generalize CString.of (name.bytes ++ 0 :: rest) = read at hbytes ⊢
  cases read
  cases name
  cases hbytes
  rfl

/-- A name that `dn_comp` writes is read back by `dn_expand`, wherever its bytes stand in a message. -/
theorem dn_name_round_trip {ls : List (List UInt8)} (hls : ∀ l ∈ ls, IsPlain l) {name : CString}
    (hname : name.bytes = textOf ls) (mem : Mem) (dst : Nat) {dstsiz : Int} (hmax : dstsiz ≤ INT_MAX)
    (hroom : (wire ls).length + 1 ≤ dstsiz) :
    ∃ mem', dnComp (some name) (some dst) dstsiz none mem = some (((wire ls).length : Int), none, mem') ∧
      bytesAt mem' dst (wire ls).length = wire ls ∧
      ∀ pre post text size, size ≤ INT_MAX → text.length = size.toNat → name.bytes.length + 2 ≤ size →
        ∃ text', dnExpand (pre ++ bytesAt mem' dst (wire ls).length ++ post) pre.length text size = .ok
        (((wire ls).length : Int), text') ∧
          CString.of text' = name := by
  refine ⟨_, dnComp_wire hls hname hmax hroom mem, bytesAt_storeBytes mem dst _, ?_⟩
  intro pre post text size hsize htext hspare
  rw [bytesAt_storeBytes]
  have hwire : (wire ls).length = (counted ls).length + 1 := by rw [wire, List.length_append, List.length_singleton]
  have hisname := isName_wire hls pre post
  have hoccupied : occupied pre.length ⟨ls, [], pre.length + (counted ls).length⟩ = (wire ls).length := by
    unfold occupied
    dsimp only
    omega
  rw [hname] at hspare
  have hbehind := length_behind_le ls 0
  obtain ⟨text', hok, htext'⟩ := expand_name htext hsize hisname (.inr (by dsimp only; omega))
  have hshort : ¬size ≤ (textOf ls ++ behind ls 0).length := by
    rw [List.length_append]
    omega
  rw [if_neg hshort, reported_eq hisname (by rw [hoccupied]; omega), hoccupied] at hok
  refine ⟨text', hok, ?_⟩
  have hfront := htext' hshort
  have hsplit : text' = textOf ls ++ 0 :: text'.drop ((textOf ls).length + 1) := by
    calc text' = text'.take ((textOf ls).length + 1) ++ text'.drop ((textOf ls).length + 1) :=
        (List.take_append_drop _ _).symm
      _ = textOf ls ++ 0 :: text'.drop ((textOf ls).length + 1) := by
        rw [hfront, List.append_assoc, List.singleton_append]
  rw [hsplit]
  exact of_text (by rw [hname])

/-- A name of two labels. -/
theorem dn_name_round_trip_two :
    ∃ mem', dnComp (some ⟨lit "ab.c", by decide⟩) (some 100) 8 none (fun _ => 0) = some (6, none, mem') ∧
      bytesAt mem' 100 6 = [2, 97, 98, 1, 99, 0] ∧
      ∀ pre post text size, size ≤ INT_MAX → text.length = size.toNat → 6 ≤ size →
        ∃ text', dnExpand (pre ++ bytesAt mem' 100 6 ++ post) pre.length text size = .ok (6, text') ∧
          CString.of text' = ⟨lit "ab.c", by decide⟩ := by
  have hls : ∀ l ∈ [lit "ab", lit "c"], IsPlain l := by
    intro l hl
    rcases List.mem_cons.1 hl with rfl | hl
    · exact ⟨⟨by decide, by decide⟩, by decide, by decide⟩
    · rw [List.mem_singleton.1 hl]
      exact ⟨⟨by decide, by decide⟩, by decide, by decide⟩
  exact dn_name_round_trip hls rfl (fun _ => 0) 100 (by decide) (by decide)

end JACLibc.Dns
