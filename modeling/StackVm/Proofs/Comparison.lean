import StackVm.Proofs.Effect

/-!
# The order of values

Two values of one kind other than `float` are ordered by their payloads, read as
signed 64-bit integers. The reading changes the sign of large payloads but never
makes two of them equal (`eq_of_integer?`), so the order of each kind is total and
the three comparison instructions tell its three outcomes apart.
-/

namespace StackVm

theorem signed64_inj {m n : Nat} (h : signed64 m = signed64 n) : m = n := by
  -- two numbers that are 2^64 apart agree in bit 63
  have hbit : ∀ k : Nat, (0x10000000000000000 + k).testBit 63 = k.testBit 63 := by
    intro k
    exact Nat.testBit_two_pow_add_gt (i := 64) (by decide) k
  unfold signed64 at h
  split at h
  · next hm =>
    split at h
    · omega
    · next hn =>
      obtain rfl : m = 0x10000000000000000 + n := by omega
      exact absurd (hbit n ▸ hm) hn
  · next hm =>
    split at h
    · next hn =>
      obtain rfl : n = 0x10000000000000000 + m := by omega
      exact absurd (hbit m ▸ hn) hm
    · omega

namespace Value

variable {a b : Value} (op : Operation)

theorem exists_integer? (hf : a.kind ≠ .float) : ∃ x, a.integer? = some x := by
  cases a with
  | float v => exact absurd rfl hf
  | _ => exact ⟨_, rfl⟩

theorem eq_of_integer? (hk : a.kind = b.kind) {x : Int} (ha : a.integer? = some x) (hb : b.integer? = some x) :
    a = b := by
  have h : a.integer? = b.integer? := ha.trans hb.symm
  cases a <;> cases b <;> try cases hk
  case float.float => cases ha
  case byte.byte v w => rw [UInt8.toNat_inj.mp (Int.ofNat_inj.mp (Option.some.inj h))]
  case int16.int16 v w => rw [Int16.toInt_inj.mp (Option.some.inj h)]
  case int32.int32 v w => rw [Int32.toInt_inj.mp (Option.some.inj h)]
  case int64.int64 v w => rw [Int64.toInt_inj.mp (Option.some.inj h)]
  case nativeInt.nativeInt v w => rw [Int64.toInt_inj.mp (Option.some.inj h)]
  all_goals rw [signed64_inj (Option.some.inj h)]

theorem compare_of_integer? (hk : a.kind = b.kind) {x y : Int} (ha : a.integer? = some x) (hb : b.integer? = some y) :
    a.compare op b = .ok (some (Ord.compare x y)) := by
  unfold compare
  rw [if_neg (not_not_intro hk), ha, hb]
  split
  · cases ha
  · rfl

theorem compare_eq_error_iff {e : Fault} :
    a.compare op b = .error e ↔ a.kind ≠ b.kind ∧ e = .typeMismatch op a.kind b.kind := by
  unfold compare
  by_cases hk : a.kind = b.kind
  · rw [if_neg (not_not_intro hk)]
    simp only [hk, ne_eq, not_true_eq_false, false_and, iff_false]
    split <;> simp
  · simp [hk, eq_comm]

theorem kind_of_compare {o : Option Ordering} (h : a.compare op b = .ok o) : a.kind = b.kind := by
  apply Decidable.byContradiction
  intro hk
  rw [(compare_eq_error_iff op).mpr ⟨hk, rfl⟩] at h
  cases h

theorem same_iff (hf : a.kind ≠ .float) : a.same b = true ↔ a = b := by
  unfold same
  split
  · exact absurd rfl hf
  · exact decide_eq_true_iff

end Value

theorem compare_then {x y z : Int} (h : compare x y ≠ .gt) (h' : compare y z ≠ .gt) :
    compare x z = (compare x y).then (compare y z) := by
  rw [Int.compare_ne_gt] at h h'
  rcases Int.lt_or_eq_of_le h with hlt | rfl
  · rw [Int.compare_eq_lt.mpr hlt, Int.compare_eq_lt.mpr (Int.lt_of_lt_of_le hlt h')]
    rfl
  · rw [Int.compare_eq_eq.mpr rfl]
    rfl

/-! ## Instructions -/

def comparing : Ordering → Instruction
  | .eq => .ceq
  | .gt => .cgt
  | .lt => .clt

/-- The two topmost values of the frame are `a` and, above it, `b`. -/
structure Frame.Operands (f : Frame) (a b : Value) : Prop where
  two : 2 ≤ f.stack.depth
  bounded : f.stack.depth ≤ f.stack.capacity
  second : f.stack.nth 1 = a
  top : f.stack.nth 0 = b

theorem Machine.execute_comparing {a b : Value} {o : Ordering} (h : ∀ op, a.compare op b = .ok (some o)) {m : Machine}
    (hm : m.frame.Operands a b) (rules : Rules) (offset : Nat) (wanted : Ordering) :
    execute rules offset (comparing wanted) m = .ok .next
      { m with frame := (m.frame.dropped 2).pushed (.int32 (if o = wanted then 1 else 0)) } := by
  have hc : ∀ op, comparison op wanted m.frame =
      .ok () ((m.frame.dropped 2).pushed (.int32 (if o = wanted then 1 else 0))) := by
    intro op
    refine binary_of_ok hm.two hm.bounded ?_
    rw [hm.second, hm.top, h]
    simp [Except.map, Value.ofBool]
  rw [execute_eq]
  cases wanted with
  | eq => exact congrArg (settle m offset) (andStay_of_ok (hc .ceq))
  | gt => exact congrArg (settle m offset) (andStay_of_ok (hc .cgt))
  | lt => exact congrArg (settle m offset) (andStay_of_ok (hc .clt))

/-- Only values of two kinds are refused. On the values of one kind other than `float` the comparison is a total
order whose equality is that of values. The outcome alone decides which of the three instructions gives 1, and with
the operands exchanged it is the opposite one. -/
theorem comparison_orders_kinds (a b : Value) :
    (∀ op e, a.compare op b = .error e ↔ a.kind ≠ b.kind ∧ e = .typeMismatch op a.kind b.kind) ∧
    (a.kind = b.kind → a.kind ≠ .float → ∃ o : Ordering,
      (∀ op, a.compare op b = .ok (some o) ∧ b.compare op a = .ok (some o.swap)) ∧
      (o = .eq ↔ a = b) ∧ (a.same b = true ↔ a = b) ∧
      (∀ op c o', b.compare op c = .ok (some o') → o ≠ .gt → o' ≠ .gt → a.compare op c = .ok (some (o.then o'))) ∧
      ∀ rules offset (m : Machine) (wanted : Ordering),
        (m.frame.Operands a b → Machine.execute rules offset (comparing wanted) m = .ok .next
          { m with frame := (m.frame.dropped 2).pushed (.int32 (if o = wanted then 1 else 0)) }) ∧
        (m.frame.Operands b a → Machine.execute rules offset (comparing wanted.swap) m = .ok .next
          { m with frame := (m.frame.dropped 2).pushed (.int32 (if o = wanted then 1 else 0)) })) := by
  refine ⟨fun op e => Value.compare_eq_error_iff op, fun hk hf => ?_⟩
  obtain ⟨x, hx⟩ := Value.exists_integer? hf
  obtain ⟨y, hy⟩ := Value.exists_integer? (hk ▸ hf)
  have hab := fun op => Value.compare_of_integer? op hk hx hy
  have hba : ∀ op, b.compare op a = .ok (some (compare x y).swap) := by
    intro op
    rw [Int.compare_swap]
    exact Value.compare_of_integer? op hk.symm hy hx
  refine ⟨compare x y, fun op => ⟨hab op, hba op⟩, ?_, Value.same_iff hf, ?_, ?_⟩
  · rw [Int.compare_eq_eq]
    constructor
    · rintro rfl
      exact Value.eq_of_integer? hk hx hy
    · rintro rfl
      exact Option.some.inj (hx.symm.trans hy)
  · intro op c o' hbc ho ho'
    have hkc := Value.kind_of_compare op hbc
    obtain ⟨z, hz⟩ := Value.exists_integer? (a := c) (hkc ▸ hk ▸ hf)
    obtain rfl : compare y z = o' := by
      rw [Value.compare_of_integer? op hkc hy hz] at hbc
      exact Option.some.inj (Except.ok.inj hbc)
    rw [Value.compare_of_integer? op (hk.trans hkc) hx hz, compare_then ho ho']
  · intro rules offset m wanted
    refine ⟨fun hm => Machine.execute_comparing hab hm rules offset wanted, fun hm => ?_⟩
    simpa only [Ordering.swap_inj] using Machine.execute_comparing hba hm rules offset wanted.swap

def twoAddresses (lower upper : Nat) : Machine :=
  ⟨.ofMethod ⟨#[], 2, 0⟩ .empty,
    ⟨⟨#[.address lower, .address upper], 2⟩, .ofSize 0, .empty, ⟨.ofCapacity none, #[]⟩⟩, 0⟩

/-- An address with its highest bit set is less than 0, whichever of the two is on top. -/
theorem comparison_orders_kinds_addresses : ∃ m m',
    Machine.execute ⟨.builtins, none⟩ 0 .clt (twoAddresses 0x8000000000000000 0) = .ok .next m ∧
    m.frame.stack.values = #[.int32 1] ∧
    Machine.execute ⟨.builtins, none⟩ 0 .cgt (twoAddresses 0 0x8000000000000000) = .ok .next m' ∧
    m'.frame.stack.values = #[.int32 1] := by
  obtain ⟨o, ho, _, _, _, hrun⟩ :=
    (comparison_orders_kinds (.address 0x8000000000000000) (.address 0)).2 rfl (by decide)
  obtain rfl : .lt = o := Option.some.inj (Except.ok.inj (ho .clt).1)
  have hless := (hrun ⟨.builtins, none⟩ 0 (twoAddresses 0x8000000000000000 0) .lt).1
    ⟨by decide, by decide, rfl, rfl⟩
  have hgreater := (hrun ⟨.builtins, none⟩ 0 (twoAddresses 0 0x8000000000000000) .lt).2
    ⟨by decide, by decide, rfl, rfl⟩
  exact ⟨_, _, hless, rfl, hgreater, rfl⟩

end StackVm
