import StackVm.Proofs.StraightCode

/-!
# Expressions over 32-bit integers

An expression is emitted in post-order: its constants are loaded and its operators
take their operands from the stack. `Expr.eval` gives its value in terms of integers.
The code leaves that value on top of whatever the stack held (`Expr.straight`), or
fails at the first division by zero from the left (`Expr.breaks`).
-/

namespace StackVm

inductive Operator where
  | add | div | rem | ceq | cgt | clt
  deriving DecidableEq

def wrap32 (n : Int) : Int := n.bmod 0x100000000

namespace Operator

def emission : Operator → Emission
  | add => .add
  | div => .div
  | rem => .rem
  | ceq => .ceq
  | cgt => .cgt
  | clt => .clt

def divides : Operator → Bool
  | div | rem => true
  | _ => false

def apply : Operator → Int → Int → Option Int
  | add, a, b => some (wrap32 (a + b))
  | div, a, b => if b = 0 then none else some (wrap32 (a.tdiv b))
  | rem, a, b => if b = 0 then none else some (a.tmod b)
  | ceq, a, b => some (if a = b then 1 else 0)
  | cgt, a, b => some (if b < a then 1 else 0)
  | clt, a, b => some (if a < b then 1 else 0)

theorem apply_eq_none_iff {op : Operator} {a b : Int} : op.apply a b = none ↔ op.divides = true ∧ b = 0 := by
  cases op <;> simp [apply, divides]

end Operator

inductive Expr where
  | const (c : Int32)
  | node (op : Operator) (l r : Expr)

namespace Expr

def size : Expr → Nat
  | const _ => 1
  | node _ l r => l.size + r.size + 1

def need : Expr → Nat
  | const _ => 1
  | node _ l r => max l.need (1 + r.need)

def postOrder : Expr → List Emission
  | const c => [.ldcI4 c]
  | node op l r => l.postOrder ++ r.postOrder ++ [op.emission]

def eval : Expr → Option Int
  | const c => some c.toInt
  | node op l r => l.eval.bind fun a => r.eval.bind fun b => op.apply a b

/-- Evaluated from left to right, some division or remainder has the divisor 0. -/
inductive DividesByZero : Expr → Prop
  | left {op : Operator} {l r : Expr} : DividesByZero l → DividesByZero (node op l r)
  | right {op : Operator} {l r : Expr} {a : Int} : l.eval = some a → DividesByZero r → DividesByZero (node op l r)
  | here {op : Operator} {l r : Expr} {a : Int} : l.eval = some a → r.eval = some 0 → op.divides = true →
      DividesByZero (node op l r)

theorem length_postOrder (e : Expr) : e.postOrder.length = e.size := by
  induction e with
  | const c => rfl
  | node op l r hl hr => simp [postOrder, size, hl, hr, Nat.add_assoc]

theorem need_pos (e : Expr) : 0 < e.need := by
  cases e with
  | const c => exact Nat.one_pos
  | node op l r =>
    simp only [need]
    omega

theorem eval_eq_none_iff (e : Expr) : e.eval = none ↔ e.DividesByZero := by
  induction e with
  | const c => simpa [eval] using fun h => nomatch h
  | node op l r hl hr =>
    constructor
    · intro h
      cases ha : l.eval with
      | none => exact .left (hl.mp ha)
      | some a =>
        cases hb : r.eval with
        | none => exact .right ha (hr.mp hb)
        | some b =>
          simp only [eval, ha, hb, Option.bind_some] at h
          obtain ⟨hop, rfl⟩ := Operator.apply_eq_none_iff.mp h
          exact .here ha hb hop
    · intro h
      cases h with
      | left h => simp [eval, hl.mpr h]
      | right ha h => simp [eval, hr.mpr h]
      | here ha hb hop => simp [eval, ha, hb, Operator.apply_eq_none_iff, hop]

end Expr

/-! ## Operators -/

namespace Operator

def value : Operator → Value → Value → Except Fault Value
  | add => Value.add
  | div => Value.div
  | rem => Value.rem
  | ceq => fun a b => (a.compare .ceq b).map fun order => .ofBool (order = some .eq)
  | cgt => fun a b => (a.compare .cgt b).map fun order => .ofBool (order = some .gt)
  | clt => fun a b => (a.compare .clt b).map fun order => .ofBool (order = some .lt)

theorem effect_emission (rules : Rules) (image : Image) (op : Operator) :
    Machine.effect rules image op.emission.instruction = Machine.andStay (Machine.binary op.value) := by
  cases op <;> rfl

theorem compare_int32 (op : Operation) (a b : Int32) :
    (Value.int32 a).compare op (.int32 b) = .ok (some (Ord.compare a.toInt b.toInt)) := rfl

theorem toInt_flag (p : Prop) [Decidable p] : (if p then 1 else 0 : Int32).toInt = if p then 1 else 0 := by
  split <;> rfl

theorem value_of_some {op : Operator} {a b : Int32} {n : Int} (h : op.apply a.toInt b.toInt = some n) :
    ∃ v : Int32, v.toInt = n ∧ op.value (.int32 a) (.int32 b) = .ok (.int32 v) := by
  have hzero : b.toInt = 0 ↔ b = 0 := Int32.toInt_inj (y := 0)
  cases op with
  | add =>
    cases h
    exact ⟨a + b, Int32.toInt_add a b, rfl⟩
  | div =>
    simp only [apply, hzero, Option.ite_none_left_eq_some, Option.some.injEq] at h
    exact ⟨a / b, (Int32.toInt_div a b).trans h.2, if_neg h.1⟩
  | rem =>
    simp only [apply, hzero, Option.ite_none_left_eq_some, Option.some.injEq] at h
    exact ⟨a % b, (Int32.toInt_mod a b).trans h.2, if_neg h.1⟩
  | ceq | cgt | clt =>
    cases h
    refine ⟨_, toInt_flag _, ?_⟩
    simp [value, compare_int32, Except.map, Value.ofBool, Int.compare_eq_gt, Int.compare_eq_lt]

theorem value_of_none {op : Operator} {a b : Int32} (h : op.apply a.toInt b.toInt = none) :
    op.value (.int32 a) (.int32 b) = .error .divideByZero := by
  obtain ⟨hop, hb⟩ := apply_eq_none_iff.mp h
  have hb : b = 0 := Int32.toInt_inj.mp hb
  cases op with
  | div | rem => exact if_pos hb
  | add | ceq | cgt | clt => cases hop

section
variable {rules : Rules} {image : Image} {op : Operator} {f : Frame} {a b : Int32} (hd : 2 ≤ f.stack.depth)
variable (ha : f.stack.nth 1 = .int32 a) (hb : f.stack.nth 0 = .int32 b)
include hd ha hb

theorem effect_of_some {n : Int} (hc : f.stack.depth ≤ f.stack.capacity) (h : op.apply a.toInt b.toInt = some n) :
    ∃ v : Int32, v.toInt = n ∧
      Machine.effect rules image op.emission.instruction f = .ok .stay ((f.dropped 2).pushed (.int32 v)) := by
  obtain ⟨v, hn, hv⟩ := value_of_some h
  rw [← ha, ← hb] at hv
  rw [effect_emission]
  exact ⟨v, hn, Machine.andStay_of_ok (Machine.binary_of_ok hd hc hv)⟩

theorem effect_of_none (h : op.apply a.toInt b.toInt = none) :
    Machine.effect rules image op.emission.instruction f = .error .divideByZero (f.dropped 2) := by
  have hv := value_of_none h
  rw [← ha, ← hb] at hv
  rw [effect_emission]
  apply bind_of_error
  unfold Machine.binary
  rw [bind_of_ok (Frame.pop2_of_le hd)]
  simp only [hv]
  rfl

end

end Operator

/-! ## Expressions -/

structure Tops (v : Value) (f g : Frame) : Prop where
  depth : g.stack.depth = f.stack.depth + 1
  capacity : g.stack.capacity = f.stack.capacity
  top : g.stack.nth 0 = v
  below : ∀ k < f.stack.depth, g.stack.slots[k]? = f.stack.slots[k]?

theorem tops_pushed {f : Frame} (h : f.stack.depth < f.stack.capacity) (v : Value) : Tops v f (f.pushed v) where
  depth := rfl
  capacity := Array.size_setIfInBounds
  top := Frame.nth_pushed h
  below k hk := Array.getElem?_setIfInBounds_ne (by omega)

theorem Tops.nth_one {v w : Value} {f g h : Frame} (hg : Tops v f g) (hh : Tops w g h) : h.stack.nth 1 = v := by
  have htop := hg.top
  have hbelow := hh.below f.stack.depth (by rw [hg.depth]; omega)
  unfold OperandStack.nth at htop ⊢
  rw [hg.depth, Array.getD_eq_getD_getElem?] at htop
  rw [hh.depth, hg.depth, Array.getD_eq_getD_getElem?, show f.stack.depth + 1 + 1 - 1 - 1 = f.stack.depth by omega,
    hbelow]
  exact htop

theorem Tops.replace {v w : Value} {f g h : Frame} (hg : Tops v f g) (hh : Tops w g h)
    (hroom : f.stack.depth < f.stack.capacity) (x : Value) : Tops x f ((h.dropped 2).pushed x) := by
  have hdepth : (h.dropped 2).stack.depth = f.stack.depth := by
    show h.stack.depth - 2 = _
    rw [hh.depth, hg.depth]
    omega
  have hcapacity : (h.dropped 2).stack.capacity = f.stack.capacity := hh.capacity.trans hg.capacity
  have hpushed := tops_pushed (f := h.dropped 2) (by rw [hdepth, hcapacity]; exact hroom) x
  refine ⟨by rw [hpushed.depth, hdepth], hpushed.capacity.trans hcapacity, hpushed.top, ?_⟩
  intro k hk
  rw [hpushed.below k (by rw [hdepth]; exact hk)]
  show h.stack.slots[k]? = _
  rw [hh.below k (by rw [hg.depth]; omega), hg.below k hk]

theorem OperandStack.values_of_depth_one {s : OperandStack} (h : s.depth = 1) (hc : s.depth ≤ s.capacity) :
    s.values = #[s.nth 0] := by
  obtain ⟨⟨slots⟩, depth⟩ := s
  cases h
  cases slots with
  | nil => exact absurd hc (by simp [capacity])
  | cons v slots => simp [values, nth]

section
variable (rules : Rules) (image : Image)

theorem Expr.straight (e : Expr) {n : Int} (h : e.eval = some n) (f : Frame)
    (hroom : f.stack.depth + e.need ≤ f.stack.capacity) :
    ∃ v : Int32, v.toInt = n ∧ ∃ g, Straight rules image f e.postOrder g ∧ Tops (.int32 v) f g := by
  induction e generalizing n f with
  | const c =>
    cases h
    have hload := Machine.andStay_of_ok (Frame.push_of_lt (v := .int32 c) hroom)
    exact ⟨c, rfl, f.pushed (.int32 c), .snoc .nil hload, tops_pushed hroom _⟩
  | node op l r hl hr =>
    obtain ⟨a, ha, h⟩ := Option.bind_eq_some_iff.mp h
    obtain ⟨b, hb, h⟩ := Option.bind_eq_some_iff.mp h
    simp only [need] at hroom
    obtain ⟨v, rfl, g, hg, htop⟩ := hl ha f (by omega)
    obtain ⟨w, rfl, k, hk, htop'⟩ := hr hb g (by rw [htop.depth, htop.capacity]; omega)
    have hd := htop'.depth
    have hc := htop'.capacity
    rw [htop.depth] at hd
    rw [htop.capacity] at hc
    have hpos := r.need_pos
    obtain ⟨x, hx, he⟩ := Operator.effect_of_some (by omega) (htop.nth_one htop') htop'.top (by omega) h
    exact ⟨x, hx, _, .snoc (hg.append hk) he, htop.replace htop' (by omega) _⟩

theorem Expr.breaks (e : Expr) (h : e.eval = none) (f : Frame)
    (hroom : f.stack.depth + e.need ≤ f.stack.capacity) : Breaks rules image f e.postOrder .divideByZero := by
  induction e generalizing f with
  | const c => cases h
  | node op l r hl hr =>
    simp only [need] at hroom
    cases ha : l.eval with
    | none =>
      have hbreaks := hl ha f (by omega)
      rw [postOrder, List.append_assoc]
      exact hbreaks.append _
    | some a =>
      obtain ⟨v, rfl, g, hg, htop⟩ := l.straight rules image ha f (by omega)
      have hroom' : g.stack.depth + r.need ≤ g.stack.capacity := by
        rw [htop.depth, htop.capacity]
        omega
      cases hb : r.eval with
      | none => exact (hg.breaks (hr hb g hroom')).append _
      | some b =>
        -- both operands have a value, so it is this operator that fails
        obtain ⟨w, rfl, k, hk, htop'⟩ := r.straight rules image hb g hroom'
        have hop : op.apply v.toInt w.toInt = none := by
          simpa [eval, ha, hb] using h
        have hd := htop'.depth
        rw [htop.depth] at hd
        exact .intro [] (hg.append hk) (Operator.effect_of_none (by omega) (htop.nth_one htop') htop'.top hop)

end

/-! ## Runs -/

section
variable (registry : Registry) {p : Program} {e : Expr} {f : Frame}
variable (hcode : HasAt p.method.code p.pc ((e.postOrder ++ [Emission.ret]).flatMap Emission.bytes))
variable (hd : f.stack.depth = 0) (hc : e.need ≤ f.stack.capacity)
include hcode hd hc

theorem Expr.run_of_some {n : Int} (h : e.eval = some n) : ∃ v : Int32, v.toInt = n ∧ ∃ m,
    (∀ fuel, e.size < fuel → Machine.run ⟨registry, none⟩ fuel ⟨p, f, 0⟩ = some (.ok (some (.int32 v)), m)) ∧
      m.frame.stack.values = #[.int32 v] ∧ m.executed = e.size + 1 := by
  have hpos := e.need_pos
  obtain ⟨v, hv, g, hg, htop⟩ := e.straight ⟨registry, none⟩ p.image h f (by omega)
  have hdepth : g.stack.depth = 1 := by rw [htop.depth, hd]
  have hcapacity : g.stack.depth ≤ g.stack.capacity := by
    rw [hdepth, htop.capacity]
    omega
  refine ⟨v, hv, ⟨p.stage (e.postOrder ++ [.ret]), g, e.size + 1⟩, ?_, ?_, rfl⟩
  · intro fuel hf
    rw [← e.length_postOrder] at hf ⊢
    have hrun := hg.run_ret (n := 0) hcode nofun hf
    simpa [hdepth, htop.top] using hrun
  · rw [OperandStack.values_of_depth_one hdepth hcapacity, htop.top]

theorem Expr.run_of_none (h : e.eval = none) : ∃ m, ∀ fuel, e.size < fuel →
    Machine.run ⟨registry, none⟩ fuel ⟨p, f, 0⟩ = some (.error .divideByZero, m) := by
  have hbreaks := e.breaks ⟨registry, none⟩ p.image h f (by omega)
  obtain ⟨m, hm⟩ := (hbreaks.append [.ret]).run (n := 0) hcode nofun
  rw [List.length_append, e.length_postOrder] at hm
  exact ⟨m, hm⟩

end

/-- Without a limit, the post-order code of an expression followed by `ret` returns the value of the expression, which
is alone on the stack, after one instruction for each node and the `ret`; it fails if and only if the expression
divides by zero. -/
theorem postOrder_evaluates (e : Expr) (maxStack localCount : UInt16) (hneed : e.need ≤ maxStack.toNat) (image : Image)
    (i : Interpreter) (registry : Registry) (host : Host) :
    ∃ code, assemble ((e.postOrder ++ [Emission.ret]).map .emit) = .ok code ∧
      ∃ r i' host', (∀ fuel, e.size < fuel →
        Interpreter.run fuel registry (.load (.ofMethod ⟨code, maxStack, localCount⟩ image) { i with limit := none })
          host = some (r, i', host')) ∧
        (∀ n, e.eval = some n → ∃ v : Int32, v.toInt = n ∧ r = .ok (some (.int32 v)) ∧
          i'.stack.values = #[.int32 v] ∧ i'.executed = e.size + 1) ∧
        (e.eval = none → r = .error .divideByZero) ∧
        (r = .error .divideByZero ↔ e.DividesByZero) := by
  refine ⟨_, assemble_emissions _, ?_⟩
  generalize hp : Program.ofMethod ⟨_, maxStack, localCount⟩ image = p
  have hcode : HasAt p.reset.method.code p.reset.pc ((e.postOrder ++ [Emission.ret]).flatMap Emission.bytes) := by
    rw [← hp]
    exact hasAt_toArray _
  have hc : e.need ≤ (i.start p host).frame.stack.capacity := by
    rw [← hp]
    exact Nat.le_trans hneed (Nat.le_of_eq Array.size_replicate.symm)
  rw [← e.eval_eq_none_iff]
  cases he : e.eval with
  | some n =>
    obtain ⟨v, hv, m, hm, hvalues, hexecuted⟩ := Expr.run_of_some registry hcode rfl hc he
    refine ⟨_, _, _, fun fuel hf => Interpreter.run_unlimited (hm fuel hf), ?_, nofun, by simp⟩
    intro n' hn
    cases hn
    exact ⟨v, hv, rfl, hvalues, hexecuted⟩
  | none =>
    obtain ⟨m, hm⟩ := Expr.run_of_none registry hcode rfl hc he
    exact ⟨_, _, _, fun fuel hf => Interpreter.run_unlimited (hm fuel hf), nofun, fun _ => rfl, by simp⟩

/-- The least integer over -1 is itself; a remainder by zero on the left keeps the right operand from being loaded. -/
theorem postOrder_evaluates_extremes :
    let wrapping : Expr := .node .div (.const (-0x80000000)) (.const (-1))
    let failing : Expr := .node .add (.node .rem (.const 7) (.const 0)) (.const 1)
    wrapping.need ≤ (2 : UInt16).toNat ∧ failing.need ≤ (2 : UInt16).toNat ∧
    (∃ code i' host', assemble ((wrapping.postOrder ++ [Emission.ret]).map .emit) = .ok code ∧
      (Interpreter.load (.ofMethod ⟨code, 2, 0⟩ .empty) (.ofLimit none)).run 4 .empty ⟨.ofCapacity none, #[]⟩ =
        some (.ok (some (.int32 (-0x80000000))), i', host') ∧
      i'.stack.values = #[.int32 (-0x80000000)] ∧ i'.executed = 4) ∧
    ∃ code i' host', assemble ((failing.postOrder ++ [Emission.ret]).map .emit) = .ok code ∧
      (Interpreter.load (.ofMethod ⟨code, 2, 0⟩ .empty) (.ofLimit none)).run 6 .empty ⟨.ofCapacity none, #[]⟩ =
        some (.error .divideByZero, i', host') := by
  intro wrapping failing
  have hw : wrapping.need ≤ (2 : UInt16).toNat := by decide
  have hf : failing.need ≤ (2 : UInt16).toNat := by decide
  refine ⟨hw, hf, ?_, ?_⟩
  · obtain ⟨code, hcode, r, i', host', hrun, hvalue, _⟩ :=
      postOrder_evaluates wrapping 2 0 hw .empty (.ofLimit none) .empty ⟨.ofCapacity none, #[]⟩
    obtain ⟨v, hv, rfl, hvalues, hexecuted⟩ := hvalue (-0x80000000) (by decide)
    obtain rfl : v = -0x80000000 := Int32.toInt_inj.mp hv
    exact ⟨code, i', host', hcode, hrun 4 (by decide), hvalues, hexecuted⟩
  · obtain ⟨code, hcode, r, i', host', hrun, _, hnone, _⟩ :=
      postOrder_evaluates failing 2 0 hf .empty (.ofLimit none) .empty ⟨.ofCapacity none, #[]⟩
    obtain rfl := hnone (by decide)
    exact ⟨code, i', host', hcode, hrun 6 (by decide)⟩

end StackVm
