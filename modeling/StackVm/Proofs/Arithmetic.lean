import Mathlib.Data.Int.ModEq
import StackVm.Value

/-!
# Arithmetic on values

Two integers of one kind are added and divided as integers, and the result is
reduced to the kind's range (`Kind.Reduces`): there is exactly one number of the
range that is congruent to the exact result at the kind's width. Values of two
kinds, and of kinds that are not numbers, are refused.
-/

namespace StackVm

def Kind.least (k : Kind) (w : Nat) : Int := if k = .byte then 0 else -2 ^ (w - 1)

structure Kind.Reduces (k : Kind) (w : Nat) (n r : Int) : Prop where
  le : k.least w ≤ r
  lt : r < k.least w + 2 ^ w
  congruent : r ≡ n [ZMOD 2 ^ w]

/-- The value is an integer of the kind `k`, which is `w` bits wide, and stands for a number. -/
inductive Value.Stands : Kind → Nat → Value → Int → Prop
  | byte (v : UInt8) : Stands .byte 8 (.byte v) v.toNat
  | int16 (v : Int16) : Stands .int16 16 (.int16 v) v.toInt
  | int32 (v : Int32) : Stands .int32 32 (.int32 v) v.toInt
  | int64 (v : Int64) : Stands .int64 64 (.int64 v) v.toInt
  | nativeInt (v : Int64) : Stands .nativeInt 64 (.nativeInt v) v.toInt

inductive Arithmetic where
  | add | div | rem

namespace Arithmetic

def operation : Arithmetic → Operation
  | add => .add
  | div => .div
  | rem => .rem

def apply : Arithmetic → Value → Value → Except Fault Value
  | add => Value.add
  | div => Value.div
  | rem => Value.rem

end Arithmetic

/-! ## Ranges -/

namespace Kind

theorem Reduces.unique {k : Kind} {w : Nat} {n r r' : Int} (h : k.Reduces w n r) (h' : k.Reduces w n r') : r = r' := by
  have hmod : r - k.least w ≡ r' - k.least w [ZMOD 2 ^ w] := (h.congruent.trans h'.congruent.symm).sub_right _
  have hle := h.le
  have hlt := h.lt
  have hle' := h'.le
  have hlt' := h'.lt
  rw [Int.ModEq, Int.emod_eq_of_lt (by omega) (by omega), Int.emod_eq_of_lt (by omega) (by omega)] at hmod
  omega

theorem reduces_emod (n : Int) : Kind.byte.Reduces 8 n (n % 256) := by
  refine ⟨?_, ?_, Int.mod_modEq n 256⟩
  · simp [least]
    omega
  · simp [least]
    omega

theorem reduces_bmod {k : Kind} (hk : k ≠ .byte) (w : Nat) (n : Int) :
    k.Reduces (w + 1) n (n.bmod (2 ^ (w + 1))) := by
  have hpos : 0 < 2 ^ (w + 1) := Nat.two_pow_pos _
  have hle := Int.le_bmod (x := n) hpos
  have hlt := Int.bmod_lt (x := n) hpos
  have hdvd := Int.dvd_self_sub_bmod (x := n) (m := 2 ^ (w + 1))
  have hcast : ((2 ^ (w + 1) : Nat) : Int) = 2 ^ (w + 1) := by simp
  have hdouble : (2 : Int) ^ (w + 1) = 2 ^ w * 2 := Int.pow_succ 2 w
  rw [hcast] at hle hlt hdvd
  have hleast : k.least (w + 1) = -2 ^ w := by simp [least, hk]
  refine ⟨?_, ?_, Int.modEq_iff_dvd.mpr hdvd⟩
  · omega
  · omega

/-- Twice the least number is a multiple of the number of words, so its opposite has the same word. -/
theorem reduces_neg_least {k : Kind} (w : Nat) : k.Reduces (w + 1) (-k.least (w + 1)) (k.least (w + 1)) := by
  have hpos : (0 : Int) < 2 ^ (w + 1) := Int.pow_pos (by decide)
  refine ⟨Int.le_refl _, by omega, Int.modEq_iff_dvd.mpr ?_⟩
  by_cases hk : k = .byte
  · simp [least, hk]
  · have hdouble : (2 : Int) ^ (w + 1) = 2 ^ w * 2 := Int.pow_succ 2 w
    refine ⟨1, ?_⟩
    simp [least, hk]
    omega

end Kind

/-! ## Integers -/

structure Computes (k : Kind) (w : Nat) (a b : Value) (x y : Int) : Prop where
  add : ∃ v s, a.add b = .ok v ∧ v.Stands k w s ∧ k.Reduces w (x + y) s
  zero : y = 0 → a.div b = .error .divideByZero ∧ a.rem b = .error .divideByZero
  div : y ≠ 0 → ∃ v q, a.div b = .ok v ∧ v.Stands k w q ∧ k.Reduces w (x.tdiv y) q
  rem : y ≠ 0 → ∃ v, a.rem b = .ok v ∧ v.Stands k w (x.tmod y)

/-- The values of the kind `k` are machine words, whose own arithmetic keeps of a number what `reduce` leaves. -/
structure Words (k : Kind) (w : Nat) {α : Type} [Add α] [Div α] [Mod α] [OfNat α 0] (value : α → Value)
    (toInt : α → Int) (reduce : Int → Int) : Prop where
  stands : ∀ a, (value a).Stands k w (toInt a)
  add : ∀ a b, (value a).add (value b) = .ok (value (a + b))
  zero : ∀ a, (value a).div (value 0) = .error .divideByZero ∧ (value a).rem (value 0) = .error .divideByZero
  div : ∀ a b, b ≠ 0 → (value a).div (value b) = .ok (value (a / b))
  rem : ∀ a b, b ≠ 0 → (value a).rem (value b) = .ok (value (a % b))
  reduces : ∀ n, k.Reduces w n (reduce n)
  toInt_eq_zero : ∀ a, toInt a = 0 ↔ a = 0
  toInt_add : ∀ a b, toInt (a + b) = reduce (toInt a + toInt b)
  toInt_div : ∀ a b, toInt (a / b) = reduce ((toInt a).tdiv (toInt b))
  toInt_rem : ∀ a b, toInt (a % b) = (toInt a).tmod (toInt b)

theorem words_byte : Words .byte 8 Value.byte (fun a => (a.toNat : Int)) (· % 256) where
  stands := .byte
  add _ _ := rfl
  zero _ := ⟨rfl, rfl⟩
  div _ _ h := if_neg h
  rem _ _ h := if_neg h
  reduces := Kind.reduces_emod
  toInt_eq_zero a := by simp [← UInt8.toNat_inj]
  toInt_add a b := by simp
  toInt_div a b := by
    have hlt : a.toNat / b.toNat < 256 := Nat.lt_of_le_of_lt (Nat.div_le_self _ _) a.toNat_lt
    rw [UInt8.toNat_div, ← Int.ofNat_tdiv]
    generalize a.toNat / b.toNat = q at hlt
    omega
  toInt_rem a b := Int.ofNat_tmod a.toNat b.toNat

theorem words_int16 : Words .int16 16 Value.int16 Int16.toInt (Int.bmod · (2 ^ 16)) where
  stands := .int16
  add _ _ := rfl
  zero _ := ⟨rfl, rfl⟩
  div _ _ h := if_neg h
  rem _ _ h := if_neg h
  reduces := Kind.reduces_bmod (by decide) 15
  toInt_eq_zero _ := Int16.toInt_inj (y := 0)
  toInt_add := Int16.toInt_add
  toInt_div := Int16.toInt_div
  toInt_rem := Int16.toInt_mod

theorem words_int32 : Words .int32 32 Value.int32 Int32.toInt (Int.bmod · (2 ^ 32)) where
  stands := .int32
  add _ _ := rfl
  zero _ := ⟨rfl, rfl⟩
  div _ _ h := if_neg h
  rem _ _ h := if_neg h
  reduces := Kind.reduces_bmod (by decide) 31
  toInt_eq_zero _ := Int32.toInt_inj (y := 0)
  toInt_add := Int32.toInt_add
  toInt_div := Int32.toInt_div
  toInt_rem := Int32.toInt_mod

theorem words_int64 : Words .int64 64 Value.int64 Int64.toInt (Int.bmod · (2 ^ 64)) where
  stands := .int64
  add _ _ := rfl
  zero _ := ⟨rfl, rfl⟩
  div _ _ h := if_neg h
  rem _ _ h := if_neg h
  reduces := Kind.reduces_bmod (by decide) 63
  toInt_eq_zero _ := Int64.toInt_inj (y := 0)
  toInt_add := Int64.toInt_add
  toInt_div := Int64.toInt_div
  toInt_rem := Int64.toInt_mod

theorem words_nativeInt : Words .nativeInt 64 Value.nativeInt Int64.toInt (Int.bmod · (2 ^ 64)) where
  stands := .nativeInt
  add _ _ := rfl
  zero _ := ⟨rfl, rfl⟩
  div _ _ h := if_neg h
  rem _ _ h := if_neg h
  reduces := Kind.reduces_bmod (by decide) 63
  toInt_eq_zero _ := Int64.toInt_inj (y := 0)
  toInt_add := Int64.toInt_add
  toInt_div := Int64.toInt_div
  toInt_rem := Int64.toInt_mod

section
variable {k : Kind} {w : Nat}

theorem Words.computes {α : Type} [Add α] [Div α] [Mod α] [OfNat α 0] {value : α → Value} {toInt : α → Int}
    {reduce : Int → Int} (h : Words k w value toInt reduce) (a b : α) :
    Computes k w (value a) (value b) (toInt a) (toInt b) where
  add := by
    refine ⟨_, _, h.add a b, h.stands _, ?_⟩
    rw [h.toInt_add]
    exact h.reduces _
  zero hb := by
    rw [(h.toInt_eq_zero b).mp hb]
    exact h.zero a
  div hb := by
    refine ⟨_, _, h.div a b fun h0 => hb ((h.toInt_eq_zero b).mpr h0), h.stands _, ?_⟩
    rw [h.toInt_div]
    exact h.reduces _
  rem hb := by
    rw [← h.toInt_rem]
    exact ⟨_, h.rem a b fun h0 => hb ((h.toInt_eq_zero b).mpr h0), h.stands _⟩

theorem computes_of_stands {a b : Value} {x y : Int} (ha : a.Stands k w x) (hb : b.Stands k w y) :
    Computes k w a b x y := by
  cases ha with
  | byte a => cases hb with | byte b => exact words_byte.computes a b
  | int16 a => cases hb with | int16 b => exact words_int16.computes a b
  | int32 a => cases hb with | int32 b => exact words_int32.computes a b
  | int64 a => cases hb with | int64 b => exact words_int64.computes a b
  | nativeInt a => cases hb with | nativeInt b => exact words_nativeInt.computes a b

end

theorem Computes.divideByZero_iff {k : Kind} {w : Nat} {a b : Value} {x y : Int} (h : Computes k w a b x y) :
    (a.div b = .error .divideByZero ↔ y = 0) ∧ (a.rem b = .error .divideByZero ↔ y = 0) := by
  by_cases hy : y = 0
  · simp [hy, h.zero hy]
  · obtain ⟨u, q, hu, _⟩ := h.div hy
    obtain ⟨v, hv, _⟩ := h.rem hy
    simp [hy, hu, hv]

theorem stands_of_kind {a b : Value} (hk : a.kind = b.kind)
    (hi : a.kind ∈ [Kind.byte, .int16, .int32, .int64, .nativeInt]) :
    ∃ w x y, a.Stands a.kind w x ∧ b.Stands a.kind w y := by
  cases a with
  | byte u => cases b with | byte v => exact ⟨8, _, _, .byte u, .byte v⟩ | _ => cases hk
  | int16 u => cases b with | int16 v => exact ⟨16, _, _, .int16 u, .int16 v⟩ | _ => cases hk
  | int32 u => cases b with | int32 v => exact ⟨32, _, _, .int32 u, .int32 v⟩ | _ => cases hk
  | int64 u => cases b with | int64 v => exact ⟨64, _, _, .int64 u, .int64 v⟩ | _ => cases hk
  | nativeInt u => cases b with | nativeInt v => exact ⟨64, _, _, .nativeInt u, .nativeInt v⟩ | _ => cases hk
  | _ => simp [Value.kind] at hi

/-! ## Refusals -/

namespace Arithmetic

theorem divideByZero_of_guard {c : Prop} [Decidable c] {v : Value} {e : Fault}
    (h : (if c then .error .divideByZero else .ok v) = Except.error e) : e = .divideByZero := by
  split at h
  · cases h
    rfl
  · cases h

theorem apply_cases (op : Arithmetic) (a b : Value) :
    op.apply a b = .error (Value.refuse op.operation a b) ∨
      a.kind = b.kind ∧ a.kind.isNumeric = true ∧ ∀ e, op.apply a b = .error e → e = .divideByZero := by
  cases op with
  | add =>
    simp only [apply, Value.add]
    split
    case h_7 => exact .inl rfl
    all_goals exact .inr ⟨rfl, rfl, by simp⟩
  | div =>
    simp only [apply, Value.div]
    split
    case h_5 => exact .inr ⟨rfl, rfl, by simp⟩
    case h_7 => exact .inl rfl
    all_goals exact .inr ⟨rfl, rfl, fun _ => divideByZero_of_guard⟩
  | rem =>
    simp only [apply, Value.rem]
    split
    case h_5 => exact .inr ⟨rfl, rfl, by simp⟩
    case h_7 => exact .inl rfl
    all_goals exact .inr ⟨rfl, rfl, fun _ => divideByZero_of_guard⟩

variable (op : Arithmetic) {a b : Value}

theorem apply_of_kind_ne (h : a.kind ≠ b.kind) :
    op.apply a b = .error (.typeMismatch op.operation a.kind b.kind) := by
  rcases op.apply_cases a b with he | ⟨hk, _⟩
  · rw [he, Value.refuse, if_neg h]
  · exact absurd hk h

theorem apply_of_not_numeric (hk : a.kind = b.kind) (hn : a.kind.isNumeric = false) :
    op.apply a b = .error (.invalidOperand op.operation a.kind) := by
  rcases op.apply_cases a b with he | ⟨_, hn', _⟩
  · rw [he, Value.refuse, if_pos hk]
  · rw [hn] at hn'
    cases hn'

theorem apply_of_float (ha : a.kind = .float) (hb : b.kind = .float) : ∃ z, op.apply a b = .ok (.float z) := by
  cases a with
  | float x =>
    cases b with
    | float y => cases op <;> exact ⟨_, rfl⟩
    | _ => cases hb
  | _ => cases ha

end Arithmetic

/-! ## Quotients and remainders -/

section
variable {k : Kind} {w : Nat} {x y q : Int} (hq : k.Reduces w (x.tdiv y) q)
include hq

/-- The least number divided by -1 is too large for its kind by one, and comes back. -/
theorem Kind.Reduces.eq_least (hw : 0 < w) (hx : x = k.least w) (hy : y = -1) : q = x := by
  obtain ⟨n, rfl⟩ := Nat.exists_eq_succ_of_ne_zero (Nat.ne_of_gt hw)
  rw [hy, Int.tdiv_neg, Int.tdiv_one, hx] at hq
  rw [hx]
  exact hq.unique (reduces_neg_least n)

theorem Kind.Reduces.mul_add_tmod : q * y + x.tmod y ≡ x [ZMOD 2 ^ w] := by
  calc q * y + x.tmod y ≡ x.tdiv y * y + x.tmod y [ZMOD 2 ^ w] := (hq.congruent.mul_right y).add_right _
    _ = x := Int.tdiv_mul_add_tmod x y

end

theorem natAbs_tmod_lt (x : Int) {y : Int} (hy : y ≠ 0) : (x.tmod y).natAbs < y.natAbs := by
  rw [Int.natAbs_tmod]
  exact Nat.mod_lt _ (Int.natAbs_pos.mpr hy)

theorem tmod_nonpos {x : Int} (y : Int) (hx : x ≤ 0) : x.tmod y ≤ 0 := by
  have h := Int.tmod_nonneg y (Int.neg_nonneg_of_nonpos hx)
  rw [Int.neg_tmod] at h
  omega

theorem Value.Stands.width_pos {k : Kind} {w : Nat} {v : Value} {x : Int} (h : v.Stands k w x) : 0 < w := by
  cases h <;> decide

/-- Arithmetic takes two numbers of one kind. Floats give a float; integers give the one integer of their kind that
is congruent to the exact result, and a division by zero is a fault. The remainder needs no reduction. -/
theorem arithmetic_at_width (a b : Value) :
    (∀ op : Arithmetic,
      (a.kind ≠ b.kind → op.apply a b = .error (.typeMismatch op.operation a.kind b.kind)) ∧
      (a.kind = b.kind → a.kind ∈ [Kind.address, .transientPointer, .object, .string] →
        op.apply a b = .error (.invalidOperand op.operation a.kind)) ∧
      (a.kind = .float → b.kind = .float → ∃ z, op.apply a b = .ok (.float z))) ∧
    (a.kind = b.kind → a.kind ∈ [Kind.byte, .int16, .int32, .int64, .nativeInt] →
      ∃ w x y, a.Stands a.kind w x ∧ b.Stands a.kind w y ∧
        (∃ v s, a.add b = .ok v ∧ v.Stands a.kind w s ∧ a.kind.Reduces w (x + y) s) ∧
        (a.div b = .error .divideByZero ↔ y = 0) ∧ (a.rem b = .error .divideByZero ↔ y = 0) ∧
        (y ≠ 0 → ∃ u v q r, a.div b = .ok u ∧ u.Stands a.kind w q ∧ a.rem b = .ok v ∧ v.Stands a.kind w r ∧
          a.kind.Reduces w (x.tdiv y) q ∧ (x = a.kind.least w → y = -1 → q = x) ∧
          r.natAbs < y.natAbs ∧ (0 ≤ x → 0 ≤ r) ∧ (x ≤ 0 → r ≤ 0) ∧ x.tdiv y * y + r = x ∧
          q * y + r ≡ x [ZMOD 2 ^ w])) := by
  refine ⟨fun op => ⟨op.apply_of_kind_ne, fun hk hn => op.apply_of_not_numeric hk ?_, op.apply_of_float⟩, ?_⟩
  · simp only [List.mem_cons, List.not_mem_nil, or_false] at hn
    rcases hn with hn | hn | hn | hn <;> rw [hn] <;> rfl
  · intro hk hi
    obtain ⟨w, x, y, ha, hb⟩ := stands_of_kind hk hi
    have hc := computes_of_stands ha hb
    refine ⟨w, x, y, ha, hb, hc.add, hc.divideByZero_iff.1, hc.divideByZero_iff.2, fun hy => ?_⟩
    obtain ⟨u, q, hu, huq, hq⟩ := hc.div hy
    obtain ⟨v, hv, hvr⟩ := hc.rem hy
    exact ⟨u, v, q, x.tmod y, hu, huq, hv, hvr, hq, hq.eq_least ha.width_pos, natAbs_tmod_lt x hy,
      Int.tmod_nonneg y, tmod_nonpos y, Int.tdiv_mul_add_tmod x y, hq.mul_add_tmod⟩

theorem Value.Stands.inj {k : Kind} {w : Nat} {u v : Value} {x y : Int} (hu : u.Stands k w x) (hv : v.Stands k w y)
    (h : x = y) : u = v := by
  cases hu with
  | byte a => cases hv with | byte b => rw [UInt8.toNat_inj.mp (Int.ofNat_inj.mp h)]
  | int16 a => cases hv with | int16 b => rw [Int16.toInt_inj.mp h]
  | int32 a => cases hv with | int32 b => rw [Int32.toInt_inj.mp h]
  | int64 a => cases hv with | int64 b => rw [Int64.toInt_inj.mp h]
  | nativeInt a => cases hv with | nativeInt b => rw [Int64.toInt_inj.mp h]

/-- The least 16-bit integer over -1, and a byte that passes its greatest value. -/
theorem arithmetic_at_width_extremes :
    (Value.int16 Int16.minValue).div (.int16 (-1)) = .ok (.int16 Int16.minValue) ∧
    (Value.byte 250).add (.byte 10) = .ok (.byte 4) := by
  constructor
  · obtain ⟨w, x, y, ha, hb, _, _, _, hdiv⟩ :=
      (arithmetic_at_width (.int16 Int16.minValue) (.int16 (-1))).2 rfl (by simp [Value.kind])
    cases ha
    cases hb
    obtain ⟨u, _, q, _, hu, huq, _, _, _, hleast, _⟩ := hdiv (by decide)
    rw [hu, huq.inj (.int16 Int16.minValue) (hleast (by decide) (by decide))]
  · obtain ⟨w, x, y, ha, hb, ⟨u, s, hu, hus, hs⟩, _⟩ :=
      (arithmetic_at_width (.byte 250) (.byte 10)).2 rfl (by simp [Value.kind])
    cases ha
    cases hb
    rw [hu, hus.inj (.byte 4) (hs.unique ⟨by decide, by decide, by decide⟩)]

end StackVm
