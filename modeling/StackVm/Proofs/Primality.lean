import Mathlib
import StackVm.Sample
import StackVm.Proofs.Expressions
import StackVm.Proofs.Layout

/-!
# The primality method

The method divides its candidate by 2, 3, … until a division leaves no remainder
or the divisor reaches the candidate. Its code is cut into blocks that end in a
branch. A block is passed (`Passes`) wherever the code stands, so the loop does not
depend on the length of the constant in front of it; `Sample.trial_returns` is the
loop, by induction on what is left to try.
-/

namespace StackVm

theorem HasAt.slice {code : Code} {pos : Nat} {bs cs : List UInt8} (h : HasAt code pos bs) (k : Nat)
    (hs : (bs.drop k).take cs.length = cs) : HasAt code (pos + k) cs := by
  intro j hj
  have hget : cs[j]? = bs[k + j]? := by
    rw [← hs, List.getElem?_take_of_lt hj, List.getElem?_drop]
  have hlt : k + j < bs.length := by
    rw [List.getElem?_eq_getElem hj] at hget
    exact (List.getElem?_eq_some_iff.mp hget.symm).1
  rw [hget, ← h (k + j) hlt, Nat.add_assoc]

theorem HasAt.le_size {code : Code} {pos : Nat} {bs : List UInt8} (h : HasAt code pos bs) (hne : 0 < bs.length) :
    pos + bs.length ≤ code.size := by
  have hlast := h (bs.length - 1) (by omega)
  rw [List.getElem?_eq_getElem (by omega)] at hlast
  have := (Array.getElem?_eq_some_iff.mp hlast).1
  omega

theorem Machine.step_of_jump {rules : Rules} {m : Machine} {i : Instruction} {d : Int32} {next target : Nat} {f : Frame}
    (hw : m.Within rules) (hd : decodeAt m.program.method.code m.program.pc = .ok (i, next))
    (he : effect rules m.program.image i m.frame = .ok (.jump d) f) (ht : (next : Int) + d.toInt = target)
    (hin : target ≤ m.program.method.code.size) :
    step rules m = .ok .next ⟨{ m.program with pc := target }, f, m.executed + 1⟩ := by
  have hbranch : Program.branch m.program.pc d { m.program with pc := next } =
      .ok () { m.program with pc := target } := by
    unfold Program.branch
    simp only [ht]
    rw [if_pos ⟨Int.natCast_nonneg _, Int.ofNat_le.mpr hin⟩]
    rfl
  rw [step_of_fetch (fetch_of_ok hw (programFetch_of_decodeAt hd)), he]
  simp only [settle, past, hbranch]

/-! ## Blocks -/

section
variable (registry : Registry) (p : Program)

/-- Without a limit, a run that is at an offset with a frame comes to another offset with another frame. -/
def Passes (x y : Nat × Frame) : Prop :=
  ∀ n, ∃ k, Machine.after ⟨registry, none⟩ ⟨{ p with pc := x.1 }, x.2, n⟩ k = some ⟨{ p with pc := y.1 }, y.2, n + k⟩

def Returns (x : Nat × Frame) (v : Value) : Prop :=
  ∀ n, ∃ steps m, ∀ fuel, steps < fuel →
    Machine.run ⟨registry, none⟩ fuel ⟨{ p with pc := x.1 }, x.2, n⟩ = some (.ok (some v), m)

variable {registry p} {a b : Nat} {f g : Frame}

theorem Passes.trans {x y z : Nat × Frame} (h₁ : Passes registry p x y) (h₂ : Passes registry p y z) :
    Passes registry p x z := by
  intro n
  obtain ⟨k, hk⟩ := h₁ n
  obtain ⟨l, hl⟩ := h₂ (n + k)
  refine ⟨k + l, ?_⟩
  rw [Machine.after_add hk, hl, Nat.add_assoc]

instance : Trans (Passes registry p) (Passes registry p) (Passes registry p) := ⟨Passes.trans⟩

theorem Passes.returns {x y : Nat × Frame} {v : Value} (h₁ : Passes registry p x y) (h₂ : Returns registry p y v) :
    Returns registry p x v := by
  intro n
  obtain ⟨k, hk⟩ := h₁ n
  obtain ⟨steps, m, hm⟩ := h₂ (n + k)
  refine ⟨k + steps, m, ?_⟩
  intro fuel hf
  rw [← hm (fuel - k) (by omega), ← Machine.run_of_after hk, Nat.add_sub_cancel' (by omega)]

theorem Straight.passes {es : List Emission} (hs : Straight ⟨registry, none⟩ p.image f es g)
    (hcode : HasAt p.method.code a (es.flatMap Emission.bytes)) (hb : a + (es.flatMap Emission.bytes).length = b) :
    Passes registry p (a, f) (b, g) := by
  intro n
  refine ⟨es.length, ?_⟩
  rw [hs.after (p := { p with pc := a }) hcode nofun, ← hb]
  rfl

theorem Straight.returns {es : List Emission} (hs : Straight ⟨registry, none⟩ p.image f es g)
    (hcode : HasAt p.method.code a ((es ++ [Emission.ret]).flatMap Emission.bytes)) (hd : g.stack.depth ≠ 0) :
    Returns registry p (a, f) (g.stack.nth 0) := by
  intro n
  refine ⟨es.length, ⟨Program.stage { p with pc := a } (es ++ [.ret]), g, n + es.length + 1⟩, fun fuel hf => ?_⟩
  rw [hs.run_ret (p := { p with pc := a }) hcode nofun hf, if_neg hd]

section
variable {br : Branch} {d : Int} (hcode : HasAt p.method.code a (br.bytes d)) (hfits : br.Fits d)
include hcode hfits

theorem passes_of_jump
    (he : Machine.effect ⟨registry, none⟩ p.image (br.instruction (.ofInt d)) f = .ok (.jump (.ofInt d)) g)
    (hb : (a + br.size : Nat) + d = b) (hin : b ≤ p.method.code.size) : Passes registry p (a, f) (b, g) := by
  intro n
  refine ⟨1, ?_⟩
  have ht : ((a + br.size : Nat) : Int) + (Int32.ofInt d).toInt = b := by rw [Branch.toInt_ofInt hfits, hb]
  have hdecode := Branch.decodeAt_of_hasAt_bytes hfits hcode
  exact Machine.after_of_step rfl (Machine.step_of_jump (m := ⟨{ p with pc := a }, f, n⟩) nofun hdecode he ht hin)

theorem passes_of_stay
    (he : Machine.effect ⟨registry, none⟩ p.image (br.instruction (.ofInt d)) f = .ok .stay g)
    (hb : a + br.size = b) : Passes registry p (a, f) (b, g) := by
  intro n
  refine ⟨1, ?_⟩
  have hdecode := Branch.decodeAt_of_hasAt_bytes hfits hcode
  rw [← hb]
  exact Machine.after_of_step rfl (Machine.step_of_stay (m := ⟨{ p with pc := a }, f, n⟩) nofun hdecode he)

end

end

theorem Machine.test_of_ne {op : Operation} {wanted n : Int} {d : Int32} {f : Frame} (hd : 0 < f.stack.depth)
    (hn : (f.stack.nth 0).integer? = some n) (hne : n ≠ wanted) : test op wanted d f = .ok .stay (f.dropped 1) := by
  unfold test
  rw [bind_of_ok (popCondition_of_some hd hn), if_neg hne]
  rfl

namespace Sample

def trial : List UInt8 := (primality 0).code.toList.drop 2

theorem take_primality (c : UInt8) : (primality c).code.toList.take 2 = (Emission.ldcI4S c).bytes := by
  cbv

theorem drop_primality (c : UInt8) : (primality c).code.toList.drop 2 = trial := by
  cbv

/-- A frame of the method: a stack of two slots, and the candidate and the divisor in the locals. -/
def frame (f : Frame) (x y : Value) (depth : Nat) (n d : Int32) : Frame :=
  { f with stack := ⟨#[x, y], depth⟩, locals := ⟨#[.int32 n, .int32 d]⟩ }

section
variable {registry : Registry} {p : Program} {b : Nat} (hcode : HasAt p.method.code b trial)
variable {f g : Frame} {k t : Nat}
include hcode

theorem passes_straight {es : List Emission} (hs : Straight ⟨registry, none⟩ p.image f es g)
    (hbytes : (trial.drop k).take (es.flatMap Emission.bytes).length = es.flatMap Emission.bytes)
    (ht : k + (es.flatMap Emission.bytes).length = t) : Passes registry p (b + k, f) (b + t, g) :=
  hs.passes (hcode.slice k hbytes) (by omega)

theorem passes_jump (br : Branch) (d : Int) (hfits : br.Fits d)
    (he : Machine.effect ⟨registry, none⟩ p.image (br.instruction (.ofInt d)) f = .ok (.jump (.ofInt d)) g)
    (hbytes : (trial.drop k).take (br.bytes d).length = br.bytes d) (ht : (k + br.size : Nat) + d = t)
    (hin : t ≤ trial.length) : Passes registry p (b + k, f) (b + t, g) := by
  have hsize := hcode.le_size (by decide)
  exact passes_of_jump (hcode.slice k hbytes) hfits he (by omega) (by omega)

theorem passes_stay (br : Branch) (d : Int) (hfits : br.Fits d)
    (he : Machine.effect ⟨registry, none⟩ p.image (br.instruction (.ofInt d)) f = .ok .stay g)
    (hbytes : (trial.drop k).take (br.bytes d).length = br.bytes d) (ht : k + br.size = t) :
    Passes registry p (b + k, f) (b + t, g) :=
  passes_of_stay (hcode.slice k hbytes) hfits he (by omega)

end

/-! ## What the blocks compute -/

section
variable {rules : Rules} {image : Image} {f : Frame} {x y : Value} {n d : Int32}

theorem effect_operator (op : Operator) {a c : Int32} {r : Int} (h : op.apply a.toInt c.toInt = some r) :
    ∃ v : Int32, v.toInt = r ∧
      Machine.effect rules image op.emission.instruction (frame f (.int32 a) (.int32 c) 2 n d) =
        .ok .stay (frame f (.int32 v) (.int32 c) 1 n d) :=
  Operator.effect_of_some (Nat.le_refl 2) rfl rfl (Nat.le_refl 2) h

theorem test_of_eq {op : Operation} {wanted : Int} {v offset : Int32} (h : v.toInt = wanted) :
    Machine.test op wanted offset (frame f (.int32 v) y 1 n d) = .ok (.jump offset) (frame f (.int32 v) y 0 n d) :=
  Machine.test_eq_jump.mpr ⟨Nat.one_pos, congrArg some h, rfl, rfl⟩

theorem test_of_ne {op : Operation} {wanted : Int} {v offset : Int32} (h : v.toInt ≠ wanted) :
    Machine.test op wanted offset (frame f (.int32 v) y 1 n d) = .ok .stay (frame f (.int32 v) y 0 n d) :=
  Machine.test_of_ne Nat.one_pos rfl h

theorem straight_small (m : Int32) : ∃ v : Int32, v.toInt = (if n.toInt < 2 then 1 else 0) ∧
    Straight rules image (frame f (.int32 n) y 1 m d) [.stloc 0, .ldloc 0, .ldcI4 2, .clt]
      (frame f (.int32 v) (.int32 2) 1 n d) := by
  obtain ⟨v, hv, he⟩ := effect_operator .clt (a := n) (c := 2) rfl
  exact ⟨v, hv, .cons rfl (.cons rfl (.cons rfl (.cons he .nil)))⟩

theorem straight_less : ∃ v : Int32, v.toInt = (if d.toInt < n.toInt then 1 else 0) ∧
    Straight rules image (frame f x y 0 n d) [.ldloc 1, .ldloc 0, .clt] (frame f (.int32 v) (.int32 n) 1 n d) := by
  obtain ⟨v, hv, he⟩ := effect_operator .clt (a := d) (c := n) rfl
  exact ⟨v, hv, .cons rfl (.cons rfl (.cons he .nil))⟩

theorem straight_divides (hd : d.toInt ≠ 0) : ∃ v : Int32, v.toInt = (if n.toInt.tmod d.toInt = 0 then 1 else 0) ∧
    Straight rules image (frame f x y 0 n d) [.ldloc 0, .ldloc 1, .rem, .ldcI4 0, .ceq]
      (frame f (.int32 v) (.int32 0) 1 n d) := by
  obtain ⟨r, hr, he⟩ := effect_operator .rem (a := n) (c := d) (if_neg hd)
  obtain ⟨v, hv, he'⟩ := effect_operator .ceq (a := r) (c := 0) rfl
  rw [hr] at hv
  exact ⟨v, hv, .cons rfl (.cons rfl (.cons he (.cons rfl (.cons he' .nil))))⟩

theorem straight_succ : ∃ v : Int32, v.toInt = wrap32 (d.toInt + 1) ∧
    Straight rules image (frame f x y 0 n d) [.ldloc 1, .ldcI4 1, .add, .stloc 1]
      (frame f (.int32 v) (.int32 1) 0 n v) := by
  obtain ⟨v, hv, he⟩ := effect_operator .add (a := d) (c := 1) rfl
  exact ⟨v, hv, .cons rfl (.cons rfl (.cons he (.cons rfl .nil)))⟩

end

/-! ## The blocks in their places -/

section
variable {registry : Registry} {p : Program} {b : Nat} (hcode : HasAt p.method.code b trial)
variable {f : Frame} {x y : Value} {n d : Int32}
include hcode

theorem returns_prime : Returns registry p (b + 29, frame f x y 0 n d) (.int32 1) := by
  have hs : Straight ⟨registry, none⟩ p.image (frame f x y 0 n d) [.ldcI4 1] (frame f (.int32 1) y 1 n d) :=
    .cons rfl .nil
  exact hs.returns (hcode.slice 29 (by decide)) Nat.one_ne_zero

theorem returns_composite : Returns registry p (b + 31, frame f x y 0 n d) (.int32 0) := by
  have hs : Straight ⟨registry, none⟩ p.image (frame f x y 0 n d) [.ldcI4 0] (frame f (.int32 0) y 1 n d) :=
    .cons rfl .nil
  exact hs.returns (hcode.slice 31 (by decide)) Nat.one_ne_zero

theorem passes_small (h : n.toInt < 2) (m : Int32) :
    ∃ x y', Passes registry p (b, frame f (.int32 n) y 1 m d) (b + 31, frame f x y' 0 n d) := by
  obtain ⟨v, hv, hs⟩ := straight_small m
  rw [if_pos h] at hv
  refine ⟨.int32 v, .int32 2, ?_⟩
  calc Passes registry p (b, frame f (.int32 n) y 1 m d) (b + 5, frame f (.int32 v) (.int32 2) 1 n d) :=
        passes_straight hcode hs (k := 0) (by decide) (by decide)
    Passes registry p _ (b + 31, frame f (.int32 v) (.int32 2) 0 n d) :=
        passes_jump hcode .brtrueS 24 ⟨by decide, by decide⟩ (test_of_eq hv) (by decide) (by decide)
          (by decide)

theorem passes_large (h : ¬ n.toInt < 2) (m : Int32) :
    ∃ x y', Passes registry p (b, frame f (.int32 n) y 1 m d) (b + 9, frame f x y' 0 n 2) := by
  obtain ⟨v, hv, hs⟩ := straight_small m
  rw [if_neg h] at hv
  have hne : v.toInt ≠ 1 := by simp [hv]
  have hs' : Straight ⟨registry, none⟩ p.image (frame f (.int32 v) (.int32 2) 0 n d) [.ldcI4 2, .stloc 1]
      (frame f (.int32 2) (.int32 2) 0 n 2) := .cons rfl (.cons rfl .nil)
  refine ⟨.int32 2, .int32 2, ?_⟩
  calc Passes registry p (b, frame f (.int32 n) y 1 m d) (b + 5, frame f (.int32 v) (.int32 2) 1 n d) :=
        passes_straight hcode hs (k := 0) (by decide) (by decide)
    Passes registry p _ (b + 7, frame f (.int32 v) (.int32 2) 0 n d) :=
        passes_stay hcode .brtrueS 24 ⟨by decide, by decide⟩ (test_of_ne hne) (by decide) (by decide)
    Passes registry p _ (b + 9, frame f (.int32 2) (.int32 2) 0 n 2) :=
        passes_straight hcode hs' (by decide) (by decide)

theorem passes_end (h : ¬ d.toInt < n.toInt) :
    ∃ x' y', Passes registry p (b + 9, frame f x y 0 n d) (b + 29, frame f x' y' 0 n d) := by
  obtain ⟨v, hv, hs⟩ := straight_less
  rw [if_neg h] at hv
  refine ⟨.int32 v, .int32 n, ?_⟩
  calc Passes registry p (b + 9, frame f x y 0 n d) (b + 13, frame f (.int32 v) (.int32 n) 1 n d) :=
        passes_straight hcode hs (by decide) (by decide)
    Passes registry p _ (b + 29, frame f (.int32 v) (.int32 n) 0 n d) :=
        passes_jump hcode .brfalseS 14 ⟨by decide, by decide⟩ (test_of_eq hv) (by decide) (by decide)
          (by decide)

section
variable (h : d.toInt < n.toInt) (hd : d.toInt ≠ 0)
include h hd

theorem passes_test : ∃ v : Int32, v.toInt = (if n.toInt.tmod d.toInt = 0 then 1 else 0) ∧
    Passes registry p (b + 9, frame f x y 0 n d) (b + 21, frame f (.int32 v) (.int32 0) 1 n d) := by
  obtain ⟨v, hv, hs⟩ := straight_less
  rw [if_pos h] at hv
  have hne : v.toInt ≠ 0 := by simp [hv]
  obtain ⟨w, hw, hs'⟩ := straight_divides hd
  refine ⟨w, hw, ?_⟩
  calc Passes registry p (b + 9, frame f x y 0 n d) (b + 13, frame f (.int32 v) (.int32 n) 1 n d) :=
        passes_straight hcode hs (by decide) (by decide)
    Passes registry p _ (b + 15, frame f (.int32 v) (.int32 n) 0 n d) :=
        passes_stay hcode .brfalseS 14 ⟨by decide, by decide⟩ (test_of_ne hne) (by decide) (by decide)
    Passes registry p _ (b + 21, frame f (.int32 w) (.int32 0) 1 n d) :=
        passes_straight hcode hs' (by decide) (by decide)

theorem passes_divisor (hmod : n.toInt.tmod d.toInt = 0) :
    ∃ x' y', Passes registry p (b + 9, frame f x y 0 n d) (b + 31, frame f x' y' 0 n d) := by
  obtain ⟨v, hv, htest⟩ := passes_test hcode h hd
  rw [if_pos hmod] at hv
  refine ⟨.int32 v, .int32 0, ?_⟩
  calc Passes registry p (b + 9, frame f x y 0 n d) (b + 21, frame f (.int32 v) (.int32 0) 1 n d) := htest
    Passes registry p _ (b + 31, frame f (.int32 v) (.int32 0) 0 n d) :=
        passes_jump hcode .brtrueS 8 ⟨by decide, by decide⟩ (test_of_eq hv) (by decide) (by decide)
          (by decide)

theorem passes_succ (hmod : n.toInt.tmod d.toInt ≠ 0) : ∃ d' : Int32, d'.toInt = d.toInt + 1 ∧
    ∃ x' y', Passes registry p (b + 9, frame f x y 0 n d) (b + 9, frame f x' y' 0 n d') := by
  obtain ⟨v, hv, htest⟩ := passes_test hcode h hd
  rw [if_neg hmod] at hv
  have hne : v.toInt ≠ 1 := by simp [hv]
  obtain ⟨d', hd', hs⟩ := straight_succ
  -- the divisor stays below the candidate, so it does not wrap around
  have hwrap : wrap32 (d.toInt + 1) = d.toInt + 1 := by
    have hlow := d.le_toInt
    have hhigh := n.toInt_lt
    unfold wrap32
    rw [Int.bmod_eq_of_le] <;> omega
  refine ⟨d', hd'.trans hwrap, .int32 d', .int32 1, ?_⟩
  calc Passes registry p (b + 9, frame f x y 0 n d) (b + 21, frame f (.int32 v) (.int32 0) 1 n d) := htest
    Passes registry p _ (b + 23, frame f (.int32 v) (.int32 0) 0 n d) :=
        passes_stay hcode .brtrueS 8 ⟨by decide, by decide⟩ (test_of_ne hne) (by decide) (by decide)
    Passes registry p _ (b + 27, frame f (.int32 d') (.int32 1) 0 n d') :=
        passes_straight hcode hs (by decide) (by decide)
    Passes registry p _ (b + 9, frame f (.int32 d') (.int32 1) 0 n d') :=
        passes_jump hcode .brS (-20) ⟨by decide, by decide⟩ rfl (by decide) (by decide) (by decide)

end

/-! ## The loop -/

/-- The loop, once no number from 2 up to the divisor divides the candidate. -/
theorem trial_returns (left : Nat) (hleft : (n.toInt - d.toInt).toNat = left) (hd : 2 ≤ d.toInt)
    (hle : d.toInt ≤ n.toInt) (hnone : ∀ k, 2 ≤ k → k < d.toInt.toNat → ¬ k ∣ n.toInt.toNat) :
    Returns registry p (b + 9, frame f x y 0 n d) (.int32 (if n.toInt.toNat.Prime then 1 else 0)) := by
  induction left generalizing d x y with
  | zero =>
    have heq : d.toInt = n.toInt := by omega
    have hprime : n.toInt.toNat.Prime := by
      rw [heq] at hd hnone
      exact Nat.prime_def_lt'.mpr ⟨by omega, hnone⟩
    obtain ⟨x', y', hend⟩ := passes_end hcode (Int.not_lt.mpr (Int.le_of_eq heq.symm))
    rw [if_pos hprime]
    exact hend.returns (returns_prime hcode)
  | succ left ih =>
    have hlt : d.toInt < n.toInt := by omega
    have hpos : d.toInt ≠ 0 := by omega
    have hdvd : d.toInt.toNat ∣ n.toInt.toNat ↔ n.toInt.tmod d.toInt = 0 := by
      rw [← Int.dvd_iff_tmod_eq_zero, ← Int.natCast_dvd_natCast, Int.toNat_of_nonneg (by omega),
        Int.toNat_of_nonneg (by omega)]
    by_cases hmod : n.toInt.tmod d.toInt = 0
    · have hcomposite : ¬ n.toInt.toNat.Prime := by
        intro hprime
        exact (Nat.prime_def_lt'.mp hprime).2 d.toInt.toNat (by omega) (by omega) (hdvd.mpr hmod)
      obtain ⟨x', y', hdivisor⟩ := passes_divisor hcode hlt hpos hmod
      rw [if_neg hcomposite]
      exact hdivisor.returns (returns_composite hcode)
    · obtain ⟨d', hd', x', y', hnext⟩ := passes_succ hcode hlt hpos hmod
      have hnone' : ∀ k, 2 ≤ k → k < d'.toInt.toNat → ¬ k ∣ n.toInt.toNat := by
        intro k hk hkd
        by_cases hkeq : k = d.toInt.toNat
        · rw [hkeq, hdvd]
          exact hmod
        · exact hnone k hk (by omega)
      exact hnext.returns (ih (by omega) (by omega) (by omega) hnone')

theorem returns_primality (m : Int32) : Returns registry p (b, frame f (.int32 n) y 1 m d)
    (.int32 (if n.toInt.toNat.Prime then 1 else 0)) := by
  by_cases h : n.toInt < 2
  · have hcomposite : ¬ n.toInt.toNat.Prime := by
      intro hprime
      have := hprime.two_le
      omega
    obtain ⟨x, y', hsmall⟩ := passes_small hcode h m
    rw [if_neg hcomposite]
    exact hsmall.returns (returns_composite hcode)
  · have htwo : (2 : Int32).toInt = 2 := rfl
    obtain ⟨x, y', hlarge⟩ := passes_large hcode h m
    refine hlarge.returns (trial_returns hcode _ rfl ?_ ?_ ?_)
    · exact Int.le_of_eq htwo.symm
    · omega
    · intro k hk hlt
      omega

end

end Sample

/-- The primality method starts with the load of its candidate. With any other constant loaded there, in one, two or
five bytes, it returns 1 if that is a prime number and else 0. -/
theorem primality_decides (n : Int32) (c : UInt8) (i : Interpreter) (image : Image) (registry : Registry)
    (host : Host) :
    let code := ((Emission.ldcI4 n).bytes ++ (Sample.primality c).code.toList.drop 2).toArray
    (Sample.primality c).code.toList.take 2 = (Emission.ldcI4S c).bytes ∧
    ∃ steps i' host', ∀ fuel, steps < fuel →
      Interpreter.run fuel registry (.load (.ofMethod ⟨code, 2, 2⟩ image) { i with limit := none }) host =
        some (.ok (some (.int32 (if n.toInt.toNat.Prime then 1 else 0))), i', host') := by
  intro code
  refine ⟨Sample.take_primality c, ?_⟩
  generalize hp : Program.ofMethod ⟨code, 2, 2⟩ image = p
  have hcode : HasAt p.reset.method.code 0 ([Emission.ldcI4 n].flatMap Emission.bytes ++ Sample.trial) := by
    rw [List.flatMap_singleton, ← hp, ← Sample.drop_primality c]
    exact hasAt_toArray _
  obtain ⟨hconst, htrial⟩ := hasAt_append.mp hcode
  have hs : Straight ⟨registry, none⟩ p.image (i.start p host).frame [.ldcI4 n]
      (Sample.frame (i.start p host).frame (.int32 n) .zero 1 0 0) := by
    rw [← hp]
    exact .cons rfl .nil
  have hload := hs.passes (p := p.reset) hconst rfl
  obtain ⟨steps, m, hm⟩ := hload.returns (Sample.returns_primality htrial 0) 0
  exact ⟨steps, _, _, fun fuel hf => Interpreter.run_unlimited (hm fuel hf)⟩

end StackVm
