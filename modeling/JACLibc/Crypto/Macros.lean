import JACLibc.Lib.Bytes
import Mathlib.Data.List.GetD
import Mathlib.Logic.Function.Basic
import Mathlib.Tactic.IntervalCases

/-!
# The byte-order macros of `crypto/base.h`

`__jacl_store64_be` and its like are text, which C reads where it is put: the argument of a macro is evaluated in the
scope that the macro opens.  So the macros are kept as the text that they are (`CExpr`, `CStmt`), and `exec` gives the
text its meaning.  A local belongs to the scope of its own initializer, where its contents are still indeterminate.

Two things are left open by C and are parameters here: what an indeterminate local contains, and what a shift by the
width of its operand gives.
-/

namespace JACLibc.Macros

/-- An expression of unsigned integers; `index a` is `(p)[i]` for the address `a` of that byte. -/
inductive CExpr where
  | const (width value : Nat)
  | var (name : String)
  | index (a : Nat)
  | cast (width : Nat) (e : CExpr)
  | shr (e : CExpr) (k : Nat)
  | shl (e : CExpr) (k : Nat)
  | or (e e' : CExpr)

/-- `decl` is `do { uint32_t x = init; body } while (0)`, for any width. -/
inductive CStmt where
  | assign (a : Nat) (e : CExpr)
  | seq (s t : CStmt)
  | decl (width : Nat) (x : String) (init : CExpr) (body : CStmt)

/-- A value with the width of its type. -/
abbrev Value := Nat × Nat

abbrev Mem := Nat → UInt8

/-- What C leaves open: the contents of the `n`th local before it is initialized, and a shift by the width or more. -/
structure Undefined where
  contents : Nat → Nat
  wide : Nat → Nat → Nat → Nat

/-- The value of an expression; the locals in scope are those of `env`. -/
def eval (u : Undefined) (env : String → Value) (mem : Mem) : CExpr → Value
  | .const w v => (w, v % 2 ^ w)
  | .var x => env x
  | .index a => (8, (mem a).toNat)
  | .cast w e => (w, (eval u env mem e).2 % 2 ^ w)
  | .shr e k =>
    let (w, v) := eval u env mem e
    (w, if k < w then v >>> k else u.wide w v k % 2 ^ w)
  | .shl e k =>
    let (w, v) := eval u env mem e
    (w, if k < w then v <<< k % 2 ^ w else u.wide w v k % 2 ^ w)
  | .or e e' => ((eval u env mem e).1, (eval u env mem e).2 ||| (eval u env mem e').2)

/-- The run of a statement; the state is the memory and the number of locals so far. -/
def exec (u : Undefined) (env : String → Value) : CStmt → Nat × Mem → Nat × Mem
  | .assign a e, (n, mem) => (n, Function.update mem a (eval u env mem e).2.toUInt8)
  | .seq s t, st => exec u env t (exec u env s st)
  | .decl w x init body, (n, mem) =>
    -- the name is in scope in its own initializer
    let inside := Function.update env x (w, u.contents n % 2 ^ w)
    exec u (Function.update env x (w, (eval u inside mem init).2 % 2 ^ w)) body (n + 1, mem)

/-! ### The text of the macros -/

def vv : CExpr := .var "__vv"

/-- `__jacl_store32_be` -/
def store32be (p : Nat) (v : CExpr) : CStmt :=
  .decl 32 "__vv" (.cast 32 v) (.seq (.assign p (.cast 8 (.shr vv 24))) (.seq (.assign (p + 1) (.cast 8 (.shr vv 16)))
    (.seq (.assign (p + 2) (.cast 8 (.shr vv 8))) (.assign (p + 3) (.cast 8 vv)))))

/-- `__jacl_store32_le` -/
def store32le (p : Nat) (v : CExpr) : CStmt :=
  .decl 32 "__vv" (.cast 32 v) (.seq (.assign p (.cast 8 vv)) (.seq (.assign (p + 1) (.cast 8 (.shr vv 8)))
    (.seq (.assign (p + 2) (.cast 8 (.shr vv 16))) (.assign (p + 3) (.cast 8 (.shr vv 24))))))

/-- `__jacl_store64_be` -/
def store64be (p : Nat) (v : CExpr) : CStmt :=
  .decl 64 "__vv" (.cast 64 v) (.seq (store32be p (.cast 32 (.shr vv 32))) (store32be (p + 4) (.cast 32 vv)))

/-- `__jacl_store64_le` -/
def store64le (p : Nat) (v : CExpr) : CStmt :=
  .decl 64 "__vv" (.cast 64 v) (.seq (store32le p (.cast 32 vv)) (store32le (p + 4) (.cast 32 (.shr vv 32))))

/-- `__jacl_load32_be` -/
def load32be (p : Nat) : CExpr :=
  .or (.or (.or (.shl (.cast 32 (.index p)) 24) (.shl (.cast 32 (.index (p + 1))) 16))
    (.shl (.cast 32 (.index (p + 2))) 8))
    (.cast 32 (.index (p + 3)))

/-- `__jacl_load32_le` -/
def load32le (p : Nat) : CExpr :=
  .or (.or (.or (.shl (.cast 32 (.index (p + 3))) 24) (.shl (.cast 32 (.index (p + 2))) 16))
    (.shl (.cast 32 (.index (p + 1))) 8))
    (.cast 32 (.index p))

/-- `__jacl_load64_be` -/
def load64be (p : Nat) : CExpr := .or (.shl (.cast 64 (load32be p)) 32) (.cast 64 (load32be (p + 4)))

/-- `__jacl_load64_le` -/
def load64le (p : Nat) : CExpr := .or (.shl (.cast 64 (load32le (p + 4))) 32) (.cast 64 (load32le p))

/-! ### What is asked of them -/

/-- The memory at `p` is `bs`, and the rest of it is as before. -/
def Holds (mem mem' : Mem) (p : Nat) (bs : List UInt8) : Prop :=
  (∀ i < bs.length, mem' (p + i) = bs.getD i 0) ∧ ∀ a, a < p ∨ p + bs.length ≤ a → mem' a = mem a

/-- The names in an expression. -/
def CExpr.vars : CExpr → List String
  | .const _ _ | .index _ => []
  | .var x => [x]
  | .cast _ e | .shr e _ | .shl e _ => e.vars
  | .or e e' => e.vars ++ e'.vars

/-- A local that an expression does not mention does not matter to it. -/
theorem eval_update {u : Undefined} {env : String → Value} {mem : Mem} {x : String} {value : Value} {e : CExpr}
    (h : x ∉ e.vars) : eval u (Function.update env x value) mem e = eval u env mem e := by
  induction e with
  | const w v => rfl
  | index a => rfl
  | var y =>
    have hne : y ≠ x := fun he => h (by rw [he]; exact List.mem_singleton_self x)
    exact Function.update_of_ne hne _ _
  | cast w e ih | shr e k ih | shl e k ih => simp only [eval, ih h]
  | or e e' ih ih' =>
    rw [CExpr.vars, List.mem_append, not_or] at h
    simp only [eval, ih h.1, ih' h.2]

/-- A store of `k` bits at `p` leaves exactly the bytes of the value there, and the load at `p` gives the value back. -/
def Meets (u : Undefined) (env : String → Value) (n : Nat) (mem : Mem) (p : Nat) (e : CExpr) (k : Nat)
    (store : Nat → CExpr → CStmt) (load : Nat → CExpr) (bytes : Nat → Nat → List UInt8) : Prop :=
  let v := (eval u env mem e).2 % 2 ^ k
  let mem' := (exec u env (store p e) (n, mem)).2
  Holds mem mem' p (bytes (k / 8) v) ∧ (eval u env mem' (load p)).2 = v

/-! ### Stores of 32 bits -/

theorem Holds.append {mem mem' mem'' : Mem} {p : Nat} {bs cs : List UInt8} (h : Holds mem mem' p bs)
    (h' : Holds mem' mem'' (p + bs.length) cs) : Holds mem mem'' p (bs ++ cs) := by
  refine ⟨fun i hi => ?_, fun a ha => ?_⟩
  · rw [List.length_append] at hi
    by_cases hlt : i < bs.length
    · rw [h'.2 _ (.inl (by omega)), h.1 i hlt, List.getD_append _ _ _ _ hlt]
    · have hle : bs.length ≤ i := Nat.le_of_not_lt hlt
      have hat := h'.1 (i - bs.length) (by omega)
      rw [show p + bs.length + (i - bs.length) = p + i by omega] at hat
      rw [hat, List.getD_append_right _ _ _ _ hle]
  · rw [List.length_append] at ha
    rw [h'.2 a (by omega), h.2 a (by omega)]

/-- Four assignments, one behind the other. -/
private theorem holds_four (mem : Mem) (p : Nat) (a b c d : UInt8) :
    Holds mem (Function.update (Function.update (Function.update (Function.update mem p a) (p + 1) b) (p + 2) c)
    (p + 3) d) p
      [a, b, c, d] := by
  refine ⟨fun i hi => ?_, fun x hx => ?_⟩
  · have hi4 : i < 4 := hi
    interval_cases i <;> simp
  · simp only [List.length_cons, List.length_nil] at hx
    rw [Function.update_of_ne (by omega), Function.update_of_ne (by omega), Function.update_of_ne (by omega),
      Function.update_of_ne (by omega)]

private theorem be_four (v : Nat) :
    Bytes.be 4 v = [(v / 2 ^ 24).toUInt8, (v / 2 ^ 16).toUInt8, (v / 2 ^ 8).toUInt8, v.toUInt8] := by
  simp [Bytes.be, Bytes.le, Nat.div_div_eq_div_mul]

private theorem le_four (v : Nat) :
    Bytes.le 4 v = [v.toUInt8, (v / 2 ^ 8).toUInt8, (v / 2 ^ 16).toUInt8, (v / 2 ^ 24).toUInt8] := by
  simp [Bytes.le, Nat.div_div_eq_div_mul]

/-- What the local of a store is initialized with: the argument as it reads where the local is in scope. -/
def argument (u : Undefined) (env : String → Value) (n : Nat) (mem : Mem) (e : CExpr) : Nat :=
  (eval u (Function.update env "__vv" (32, u.contents n % 2 ^ 32)) mem e).2 % 2 ^ 32

private theorem toUInt8_mod (v : Nat) : (v % 2 ^ 8).toUInt8 = v.toUInt8 := Bytes.toUInt8_congr (Nat.mod_mod _ _)

private theorem shr_eq (v k : Nat) : v >>> k = v / 2 ^ k := Nat.shiftRight_eq_div_pow v k

theorem store32be_holds (u : Undefined) (env : String → Value) (n : Nat) (mem : Mem) (p : Nat) (e : CExpr) :
    (exec u env (store32be p e) (n, mem)).1 = n + 1 ∧
      Holds mem (exec u env (store32be p e) (n, mem)).2 p (Bytes.be 4 (argument u env n mem e)) := by
  refine ⟨rfl, ?_⟩
  rw [be_four]
  have h := holds_four mem p (argument u env n mem e / 2 ^ 24).toUInt8 (argument u env n mem e / 2 ^ 16).toUInt8
    (argument u env n mem e / 2 ^ 8).toUInt8 (argument u env n mem e).toUInt8
  simpa only [store32be, vv, exec, eval, argument, Function.update_self, Nat.mod_mod, toUInt8_mod, shr_eq,
    if_pos (by decide : 24 < 32), if_pos (by decide : 16 < 32), if_pos (by decide : 8 < 32)] using h

theorem store32le_holds (u : Undefined) (env : String → Value) (n : Nat) (mem : Mem) (p : Nat) (e : CExpr) :
    (exec u env (store32le p e) (n, mem)).1 = n + 1 ∧
      Holds mem (exec u env (store32le p e) (n, mem)).2 p (Bytes.le 4 (argument u env n mem e)) := by
  refine ⟨rfl, ?_⟩
  rw [le_four]
  have h := holds_four mem p (argument u env n mem e).toUInt8 (argument u env n mem e / 2 ^ 8).toUInt8
    (argument u env n mem e / 2 ^ 16).toUInt8 (argument u env n mem e / 2 ^ 24).toUInt8
  simpa only [store32le, vv, exec, eval, argument, Function.update_self, Nat.mod_mod, toUInt8_mod, shr_eq,
    if_pos (by decide : 24 < 32), if_pos (by decide : 16 < 32), if_pos (by decide : 8 < 32)] using h

/-! ### Loads -/

private theorem or_four {a b c d : Nat} (hb : b < 256) (hc : c < 256) (hd : d < 256) :
    ((a <<< 24 ||| b <<< 16) ||| c <<< 8) ||| d = ((a * 2 ^ 8 + b) * 2 ^ 8 + c) * 2 ^ 8 + d := by
  have h1 : a <<< 24 ||| b <<< 16 = (a * 2 ^ 8 + b) <<< 16 := by
    rw [Bytes.shift_or (by rw [Nat.shiftLeft_eq]; omega), Nat.shiftLeft_eq, Nat.shiftLeft_eq]
    omega
  have h2 : (a * 2 ^ 8 + b) <<< 16 ||| c <<< 8 = ((a * 2 ^ 8 + b) * 2 ^ 8 + c) <<< 8 := by
    rw [Bytes.shift_or (by rw [Nat.shiftLeft_eq]; omega), Nat.shiftLeft_eq, Nat.shiftLeft_eq]
    omega
  rw [h1, h2, Bytes.shift_or (by omega)]

section Run

variable {u : Undefined} {env : String → Value} {mem : Mem}

theorem eval_shl {e : CExpr} {w v k : Nat} (he : eval u env mem e = (w, v)) (hk : k < w) :
    eval u env mem (.shl e k) = (w, v <<< k % 2 ^ w) := by
  simp only [eval, he, if_pos hk]

theorem eval_or {e e' : CExpr} {w v v' : Nat} (he : eval u env mem e = (w, v)) (he' : eval u env mem e' = (w, v')) :
    eval u env mem (.or e e') = (w, v ||| v') := by
  simp only [eval, he, he']

/-- A byte is put in its place. -/
private theorem eval_place (a : Nat) {k : Nat} (hk : k ≤ 24) :
    eval u env mem (.shl (.cast 32 (.index a)) k) = (32, (mem a).toNat <<< k) := by
  have hb := (mem a).toNat_lt
  have hpow : 2 ^ k ≤ 2 ^ 24 := Nat.pow_le_pow_right (by decide) hk
  have hbyte : eval u env mem (.cast 32 (.index a)) = (32, (mem a).toNat) := by
    rw [eval, eval, Nat.mod_eq_of_lt (by omega)]
  rw [eval_shl hbyte (by omega), Nat.mod_eq_of_lt]
  rw [Nat.shiftLeft_eq]
  calc (mem a).toNat * 2 ^ k ≤ 255 * 2 ^ 24 := Nat.mul_le_mul (by omega) hpow
    _ < 2 ^ 32 := by decide

end Run

/-- A load of 32 bits puts the four bytes together. -/
private theorem load_four (u : Undefined) (env : String → Value) (mem : Mem) (a b c d : Nat) :
    eval u env mem (.or (.or (.or (.shl (.cast 32 (.index a)) 24) (.shl (.cast 32 (.index b)) 16))
    (.shl (.cast 32 (.index c)) 8))
      (.cast 32 (.index d))) = (32, Bytes.ofLe [mem d, mem c, mem b, mem a]) := by
  have hd := (mem d).toNat_lt
  have hlast : eval u env mem (.cast 32 (.index d)) = (32, (mem d).toNat) := by
    rw [eval, eval, Nat.mod_eq_of_lt (by omega)]
  have hload :=
    eval_or (eval_or (eval_or (@eval_place u env mem a 24 (by decide)) (@eval_place u env mem b 16 (by decide)))
    (@eval_place u env mem c 8 (by decide))) hlast
  rw [hload, or_four (mem b).toNat_lt (mem c).toNat_lt hd]
  refine Prod.ext rfl ?_
  simp only [Bytes.ofLe]
  omega

private theorem Holds.four {mem mem' : Mem} {p : Nat} {bs : List UInt8} (h : Holds mem mem' p bs)
    (hlen : bs.length = 4) :
    bs = [mem' p, mem' (p + 1), mem' (p + 2), mem' (p + 3)] := by
  obtain ⟨a, b, c, d, rfl⟩ : ∃ a b c d, bs = [a, b, c, d] := by
    match bs, hlen with
    | [a, b, c, d], _ => exact ⟨a, b, c, d, rfl⟩
  have h0 := h.1 0 (by simp)
  have h1 := h.1 1 (by simp)
  have h2 := h.1 2 (by simp)
  have h3 := h.1 3 (by simp)
  rw [Nat.add_zero] at h0
  rw [h0, h1, h2, h3]
  rfl

theorem load32be_holds {u : Undefined} {env : String → Value} {mem mem' : Mem} {p v : Nat} (hv : v < 2 ^ 32)
    (h : Holds mem mem' p (Bytes.be 4 v)) : eval u env mem' (load32be p) = (32, v) := by
  have hrev := congrArg List.reverse (h.four (Bytes.length_be 4 v))
  rw [Bytes.be, List.reverse_reverse] at hrev
  have hvalue := Bytes.ofLe_le 4 v
  rw [hrev, show 256 ^ 4 = 2 ^ 32 by decide, Nat.mod_eq_of_lt hv] at hvalue
  exact (load_four u env mem' _ _ _ _).trans (congrArg _ hvalue)

theorem load32le_holds {u : Undefined} {env : String → Value} {mem mem' : Mem} {p v : Nat} (hv : v < 2 ^ 32)
    (h : Holds mem mem' p (Bytes.le 4 v)) : eval u env mem' (load32le p) = (32, v) := by
  have hfour := h.four (Bytes.length_le 4 v)
  have hvalue := Bytes.ofLe_le 4 v
  rw [hfour, show 256 ^ 4 = 2 ^ 32 by decide, Nat.mod_eq_of_lt hv] at hvalue
  exact (load_four u env mem' _ _ _ _).trans (congrArg _ hvalue)

/-! ### Stores of 64 bits -/

/-- The two halves that `__jacl_store64_be` stores, upper half first: in both inner stores the argument names the inner
local, which is indeterminate there and has 32 bits. -/
def garbage (u : Undefined) (n : Nat) : Nat × Nat :=
  (u.wide 32 (u.contents (n + 1) % 2 ^ 32) 32 % 2 ^ 32, u.contents (n + 2) % 2 ^ 32)

/-- What `__jacl_store64_be` stores for every value. -/
def garbageBe (u : Undefined) (n : Nat) : Nat := (garbage u n).1 * 2 ^ 32 + (garbage u n).2

/-- What `__jacl_store64_le` stores for every value. -/
def garbageLe (u : Undefined) (n : Nat) : Nat :=
  u.wide 32 (u.contents (n + 2) % 2 ^ 32) 32 % 2 ^ 32 * 2 ^ 32 + u.contents (n + 1) % 2 ^ 32

section Halves

variable (u : Undefined) (env : String → Value) (n : Nat) (mem : Mem)

/-- The inner local hides the outer one. -/
private theorem argument_low : argument u env n mem (.cast 32 vv) = u.contents n % 2 ^ 32 := by
  simp only [argument, vv, eval, Function.update_self, Nat.mod_mod]

private theorem argument_high :
    argument u env n mem (.cast 32 (.shr vv 32)) = u.wide 32 (u.contents n % 2 ^ 32) 32 % 2 ^ 32 := by
  simp only [argument, vv, eval, Function.update_self, Nat.lt_irrefl, if_false, Nat.mod_mod]

end Halves

private theorem argument_eq {u : Undefined} {env : String → Value} {n : Nat} {mem : Mem} {e : CExpr}
    (he : "__vv" ∉ e.vars) :
    argument u env n mem e = (eval u env mem e).2 % 2 ^ 32 := by
  rw [argument, eval_update he]

theorem store64be_holds (u : Undefined) (env : String → Value) (n : Nat) (mem : Mem) (p : Nat) (e : CExpr) :
    Holds mem (exec u env (store64be p e) (n, mem)).2 p (Bytes.be 8 (garbageBe u n)) := by
  let env' := Function.update env "__vv"
    (64, (eval u (Function.update env "__vv" (64, u.contents n % 2 ^ 64)) mem (.cast 64 e)).2 % 2 ^ 64)
  have hhigh := (store32be_holds u env' (n + 1) mem p (.cast 32 (.shr vv 32))).2
  have hlow := (store32be_holds u env' (n + 2) (exec u env' (store32be p (.cast 32 (.shr vv 32))) (n + 1, mem)).2
    (p + 4) (.cast 32 vv)).2
  rw [argument_high] at hhigh
  rw [argument_low] at hlow
  have hboth := hhigh.append (by rwa [Bytes.length_be])
  have hbytes : Bytes.be 8 (garbageBe u n) = Bytes.be 4 (u.wide 32 (u.contents (n + 1) % 2 ^ 32) 32 % 2 ^ 32) ++
      Bytes.be 4 (u.contents (n + 2) % 2 ^ 32) := by
    rw [garbageBe, garbage, Bytes.be_add 4 4, ← Bytes.be_mod 4 (_ + _), show 256 ^ 4 = 2 ^ 32 by decide]
    congr 2
    all_goals omega
  rw [hbytes]
  exact hboth

theorem store64le_holds (u : Undefined) (env : String → Value) (n : Nat) (mem : Mem) (p : Nat) (e : CExpr) :
    Holds mem (exec u env (store64le p e) (n, mem)).2 p (Bytes.le 8 (garbageLe u n)) := by
  let env' := Function.update env "__vv"
    (64, (eval u (Function.update env "__vv" (64, u.contents n % 2 ^ 64)) mem (.cast 64 e)).2 % 2 ^ 64)
  have hlow := (store32le_holds u env' (n + 1) mem p (.cast 32 vv)).2
  have hhigh := (store32le_holds u env' (n + 2) (exec u env' (store32le p (.cast 32 vv)) (n + 1, mem)).2 (p + 4)
    (.cast 32 (.shr vv 32))).2
  rw [argument_low] at hlow
  rw [argument_high] at hhigh
  have hboth := hlow.append (by rwa [Bytes.length_le])
  have hbytes : Bytes.le 8 (garbageLe u n) = Bytes.le 4 (u.contents (n + 1) % 2 ^ 32) ++
      Bytes.le 4 (u.wide 32 (u.contents (n + 2) % 2 ^ 32) 32 % 2 ^ 32) := by
    have hlt : u.contents (n + 1) % 2 ^ 32 < 256 ^ 4 := Nat.mod_lt _ (by decide)
    rw [Bytes.le_append hlt, garbageLe, show 256 ^ 4 = 2 ^ 32 by decide, Nat.mul_comm, Nat.add_comm]
  rw [hbytes]
  exact hboth

/-- Two byte strings at one place are the same. -/
private theorem Holds.unique {mem mem' : Mem} {p : Nat} {bs cs : List UInt8} (h : Holds mem mem' p bs)
    (h' : Holds mem mem' p cs) (hlen : bs.length = cs.length) : bs = cs := by
  apply List.ext_getElem hlen
  intro i hi hi'
  have hb := h.1 i hi
  have hc := h'.1 i hi'
  rw [List.getD_eq_getElem _ _ hi] at hb
  rw [List.getD_eq_getElem _ _ hi'] at hc
  exact hb.symm.trans hc

private theorem be_inj {m n : Nat} (hm : m < 2 ^ 64) (hn : n < 2 ^ 64) (h : Bytes.be 8 m = Bytes.be 8 n) : m = n :=
  @Bytes.le_inj 8 m n hm hn (List.reverse_injective h)

/-- The two halves of eight bytes. -/
private theorem Holds.halves {mem mem' : Mem} {p : Nat} {bs cs : List UInt8} (h : Holds mem mem' p (bs ++ cs)) :
    Holds mem' mem' p bs ∧ Holds mem' mem' (p + bs.length) cs := by
  refine ⟨⟨fun i hi => ?_, fun a _ => rfl⟩, fun i hi => ?_, fun a _ => rfl⟩
  · rw [h.1 i (by rw [List.length_append]; omega), List.getD_append _ _ _ _ hi]
  · have hat := h.1 (bs.length + i) (by rw [List.length_append]; omega)
    rw [List.getD_append_right _ _ _ _ (by omega), Nat.add_sub_cancel_left, ← Nat.add_assoc] at hat
    exact hat

/-- A load of 64 bits puts the two loads of 32 bits together. -/
private theorem eval_join {u : Undefined} {env : String → Value} {mem : Mem} {e e' : CExpr} {v : Nat} (hv : v < 2 ^ 64)
    (hhigh : eval u env mem e = (32, v / 2 ^ 32)) (hlow : eval u env mem e' = (32, v % 2 ^ 32)) :
    (eval u env mem (.or (.shl (.cast 64 e) 32) (.cast 64 e'))).2 = v := by
  have hcast {e : CExpr} {x : Nat} (he : eval u env mem e = (32, x)) (hx : x < 2 ^ 32) :
    eval u env mem (.cast 64 e) = (64, x) := by
    rw [eval, he, Nat.mod_eq_of_lt (by omega)]
  rw [eval_or (eval_shl (hcast hhigh (by omega)) (by decide)) (hcast hlow (by omega))]
  have hshift : ((v / 2 ^ 32) <<< 32) % 2 ^ 64 = (v / 2 ^ 32) <<< 32 := by
    apply Nat.mod_eq_of_lt
    rw [Nat.shiftLeft_eq]
    omega
  show ((v / 2 ^ 32) <<< 32) % 2 ^ 64 ||| v % 2 ^ 32 = v
  rw [hshift, Bytes.shift_or (by omega)]
  omega

theorem load64be_holds {u : Undefined} {env : String → Value} {mem mem' : Mem} {p v : Nat} (hv : v < 2 ^ 64)
    (h : Holds mem mem' p (Bytes.be 8 v)) : (eval u env mem' (load64be p)).2 = v := by
  have hsplit : Bytes.be 8 v = Bytes.be 4 (v / 2 ^ 32) ++ Bytes.be 4 (v % 2 ^ 32) := by
    rw [Bytes.be_add 4 4, ← Bytes.be_mod 4 v, show 256 ^ 4 = 2 ^ 32 by decide]
  rw [hsplit] at h
  obtain ⟨hhigh, hlow⟩ := h.halves
  rw [Bytes.length_be] at hlow
  exact eval_join hv (load32be_holds (by omega) hhigh) (load32be_holds (by omega) hlow)

theorem load64le_holds {u : Undefined} {env : String → Value} {mem mem' : Mem} {p v : Nat} (hv : v < 2 ^ 64)
    (h : Holds mem mem' p (Bytes.le 8 v)) : (eval u env mem' (load64le p)).2 = v := by
  have hsplit : Bytes.le 8 v = Bytes.le 4 (v % 2 ^ 32) ++ Bytes.le 4 (v / 2 ^ 32) := by
    rw [Bytes.le_add 4 4, ← Bytes.le_mod 4 v, show 256 ^ 4 = 2 ^ 32 by decide]
  rw [hsplit] at h
  obtain ⟨hlow, hhigh⟩ := h.halves
  rw [Bytes.length_le] at hhigh
  exact eval_join hv (load32le_holds (by omega) hhigh) (load32le_holds (by omega) hlow)

private theorem garbage_lt (u : Undefined) (n : Nat) : garbageBe u n < 2 ^ 64 ∧ garbageLe u n < 2 ^ 64 := by
  have h (x y : Nat) : x % 2 ^ 32 * 2 ^ 32 + y % 2 ^ 32 < 2 ^ 64 := by omega
  exact ⟨h _ _, h _ _⟩

/-- The macros that store 32 bits do so, for every argument that does not mention `__vv`.  Those that store 64 bits
store the same bytes for every value, and so the bytes of the value only where it happens to be that one. -/
theorem store_macros (u : Undefined) (env : String → Value) (n : Nat) (mem : Mem) (p : Nat) {e : CExpr}
    (he : "__vv" ∉ e.vars) :
    Meets u env n mem p e 32 store32be load32be Bytes.be ∧ Meets u env n mem p e 32 store32le load32le Bytes.le ∧
      (Meets u env n mem p e 64 store64be load64be Bytes.be ↔ (eval u env mem e).2 % 2 ^ 64 = garbageBe u n) ∧
      (Meets u env n mem p e 64 store64le load64le Bytes.le ↔ (eval u env mem e).2 % 2 ^ 64 = garbageLe u n) := by
  have hlt32 : (eval u env mem e).2 % 2 ^ 32 < 2 ^ 32 := Nat.mod_lt _ (by decide)
  have hlt64 : (eval u env mem e).2 % 2 ^ 64 < 2 ^ 64 := Nat.mod_lt _ (by decide)
  have hbe := (store32be_holds u env n mem p e).2
  have hle := (store32le_holds u env n mem p e).2
  rw [argument_eq he] at hbe hle
  refine ⟨⟨hbe, ?_⟩, ⟨hle, ?_⟩, ⟨fun h => ?_, fun h => ?_⟩, ⟨fun h => ?_, fun h => ?_⟩⟩
  · rw [load32be_holds hlt32 hbe]
  · rw [load32le_holds hlt32 hle]
  · have hsame := h.1.unique (store64be_holds u env n mem p e) (by rw [Bytes.length_be, Bytes.length_be])
    exact be_inj hlt64 (garbage_lt u n).1 hsame
  · have hstore := store64be_holds u env n mem p e
    rw [← h] at hstore
    exact ⟨hstore, load64be_holds hlt64 hstore⟩
  · have hsame := h.1.unique (store64le_holds u env n mem p e) (by rw [Bytes.length_le, Bytes.length_le])
    exact @Bytes.le_inj 8 _ _ hlt64 (garbage_lt u n).2 hsame
  · have hstore := store64le_holds u env n mem p e
    rw [← h] at hstore
    exact ⟨hstore, load64le_holds hlt64 hstore⟩

/-- Where locals contain zeros and the shift gives zero. -/
def zeros : Undefined := ⟨fun _ => 0, fun _ _ _ => 0⟩

/-- The value 0x0102030405060708 in 64 bits. -/
theorem store_macros_const :
    Meets zeros (fun _ => (64, 0)) 0 (fun _ => 0) 0 (.const 64 0x0102030405060708) 32 store32be load32be Bytes.be :=
  (store_macros zeros (fun _ => (64, 0)) 0 (fun _ => 0) 0 (by decide)).1

/-- The length field of a message of eight bits stays zero. -/
theorem store64be_zero : ¬Meets zeros (fun _ => (64, 0)) 0 (fun _ => 0) 0
    (.const 64 8) 64 store64be load64be Bytes.be := by
  rintro ⟨-, hload⟩
  exact absurd hload (by decide)

end JACLibc.Macros
