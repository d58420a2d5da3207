import StackVm.Proofs.Budget
import StackVm.Proofs.ControlFlow

/-!
# Code with forward branches only

A label is bound after the branch that makes it, so a branch to a label leads to
a later moment of the build. A machine that runs such code passes the moments in
their order: every instruction is executed at most once, and the run ends.
-/

namespace StackVm

/-- Neither raw bytes nor a branch whose displacement is known when it is made. -/
def Directive.Forward : Directive → Prop
  | emit _ | branch _ | bind _ => True
  | raw _ | branchTo _ _ | branchBy _ _ => False

instance : (d : Directive) → Decidable d.Forward
  | .emit _ | .branch _ | .bind _ => .isTrue trivial
  | .raw _ | .branchTo _ _ | .branchBy _ _ => .isFalse id

def emittedBefore (ds : List Directive) (k : Nat) : Nat :=
  (List.range k).countP fun j => (instructionAt? ds j).isSome

section
variable {ds : List Directive}

theorem emittedBefore_mono {j k : Nat} (h : j ≤ k) : emittedBefore ds j ≤ emittedBefore ds k :=
  (List.range_sublist.mpr h).countP_le

theorem emittedBefore_succ {k : Nat} {i : Instruction} (h : instructionAt? ds k = some i) :
    emittedBefore ds (k + 1) = emittedBefore ds k + 1 := by
  simp [emittedBefore, List.range_succ, h]

theorem emittedBefore_length (ds : List Directive) : emittedBefore ds ds.length = (emitted ds).length := by
  unfold emittedBefore emitted
  rw [List.length_filterMap_eq_countP]
  simp

theorem le_of_nextAt? {j k : Nat} (h : nextAt? ds k = some j) : k ≤ j :=
  (List.mem_range'_1.mp (List.mem_of_find?_eq_some h)).1

theorem lt_length_of_instructionAt? {k : Nat} {i : Instruction} (hi : instructionAt? ds k = some i) :
    k < ds.length := by
  obtain ⟨d, hk, _⟩ := instructionAt?_eq_some hi
  exact (List.getElem?_eq_some_iff.mp hk).1

theorem address_lt_of_instructionAt? {j k : Nat} {i : Instruction} (hi : instructionAt? ds j = some i) (h : j < k) :
    address ds j < address ds k := by
  obtain ⟨d, hj, hd⟩ := instructionAt?_eq_some hi
  calc
    address ds j < address ds (j + 1) := by
      rw [address_succ hj]
      exact Nat.lt_add_of_pos_right (Directive.size_pos hd)
    _ ≤ address ds k := address_mono h

section
variable (hforward : ∀ d ∈ ds, d.Forward) (hbound : WellBound ds)
include hforward hbound

theorem structured_of_forward : Structured ds where
  raw _ h := hforward _ h
  given _ _ h := hforward _ h
  bound := hbound
  seen _ _ _ h := (hforward _ (List.mem_of_getElem? h)).elim

theorem Leads.lt {j p : Nat} (h : Leads ds j p) : j < p ∧ p ≤ ds.length := by
  cases h with
  | bound hj hp =>
    have hp' := (List.getElem?_eq_some_iff.mp hp).1
    refine ⟨?_, Nat.le_of_lt hp'⟩
    apply Nat.lt_of_not_le
    -- up to the branch its own label is not yet made
    intro hle
    exact Nat.not_lt.mpr (labelOf_mono ds hle) (hbound.made hp)
  | unbound hj _ => exact ⟨Nat.lt_succ_self j, (List.getElem?_eq_some_iff.mp hj).1⟩
  | back hj _ _ => exact (hforward _ (List.mem_of_getElem? hj)).elim

end

end

namespace Machine

/-- The machine has come to moment `k` and has executed no instruction twice. -/
structure Advanced (ds : List Directive) (code : Code) (k : Nat) (m : Machine) : Prop extends At ds code k m where
  le : k ≤ ds.length
  executed : m.executed ≤ emittedBefore ds k

section
variable {ds : List Directive} {code : Code} {k : Nat} {m m' : Machine}

theorem Advanced.executed_lt {j : Nat} {i : Instruction} (h : Advanced ds code k m) (hn : nextAt? ds k = some j)
    (hi : instructionAt? ds j = some i) : m.executed < emittedBefore ds (j + 1) := by
  rw [emittedBefore_succ hi]
  exact Nat.lt_succ_of_le (Nat.le_trans h.executed (emittedBefore_mono (le_of_nextAt? hn)))

variable {rules : Rules} (hforward : ∀ d ∈ ds, d.Forward) (hbound : WellBound ds) (hf : AllFit ds)
  (hc : Spelled ds (displacement ds) code)
include hforward hbound hf hc

theorem Advanced.next (h : Advanced ds code k m) (hm : step rules m = .ok .next m') :
    m.program.pc < m'.program.pc ∧ ∃ k', Advanced ds code k' m' := by
  have hs := structured_of_forward hforward hbound
  have hstep := h.toAt.step hs hf hc rules
  rw [hm] at hstep
  obtain ⟨j, k', hn, hk', hat⟩ := hstep
  obtain ⟨haddress, i, hi⟩ := nextAt?_eq_some hs.raw hn
  obtain ⟨hlt, hle⟩ : j < k' ∧ k' ≤ ds.length := by
    rcases hk' with rfl | hl
    · exact ⟨Nat.lt_succ_self j, lt_length_of_instructionAt? hi⟩
    · exact hl.lt hforward hbound
  refine ⟨?_, k', hat, hle, ?_⟩
  · rw [h.pc, hat.pc, ← haddress]
    exact address_lt_of_instructionAt? hi hlt
  · rw [(executed_left_step rules m).2 m' hm]
    exact Nat.le_trans (h.executed_lt hn hi) (emittedBefore_mono hlt)

theorem Advanced.reaches {m₀ : Machine} (h : Advanced ds code 0 m₀) (hr : Reaches rules m₀ m) :
    ∃ k, Advanced ds code k m := by
  refine hr.invariant (P := fun m => ∃ k, Advanced ds code k m) ⟨0, h⟩ ?_
  rintro m m' ⟨k, hk⟩ hm
  exact (hk.next hforward hbound hf hc hm).2

theorem Advanced.executed_left (h : Advanced ds code k m) :
    (left (step rules m)).executed ≤ (emitted ds).length := by
  have hs := structured_of_forward hforward hbound
  rw [← emittedBefore_length]
  cases hn : nextAt? ds k with
  | some j =>
    -- the last step may still execute an instruction, and then it is `j`
    obtain ⟨_, i, hi⟩ := nextAt?_eq_some hs.raw hn
    calc
      (left (step rules m)).executed ≤ m.executed + 1 := (executed_left_step rules m).1
      _ ≤ emittedBefore ds (j + 1) := h.executed_lt hn hi
      _ ≤ emittedBefore ds ds.length := emittedBefore_mono (lt_length_of_instructionAt? hi)
  | none =>
    obtain ⟨e, he⟩ : ∃ e, step rules m = .error e m := by
      by_cases hw : m.Within rules
      · exact ⟨_, h.step_of_none hs.raw hf hc hw hn⟩
      · obtain ⟨limit, _, hl⟩ := fetch_of_not_within hw
        exact ⟨_, step_of_fetch_error hl⟩
    rw [he]
    exact Nat.le_trans h.executed (emittedBefore_mono h.le)

end

end Machine

/-- Code without backward branches ends, with or without a limit: the counter moves forward from one fetch to the
next, and no more instructions are executed than were emitted. -/
theorem forward_code_terminates {ds : List Directive} {code : Code} (hforward : ∀ d ∈ ds, d.Forward)
    (hbound : WellBound ds) (ha : assemble ds = .ok code) (interpreter : Interpreter) (maxStack localCount : UInt16)
    (image : Image) (registry : Registry) (host : Host) :
    let program := Program.ofMethod ⟨code, maxStack, localCount⟩ image
    let rules : Rules := ⟨registry, interpreter.limit⟩
    (∃ r after host', after.executed ≤ (emitted ds).length ∧ ∀ fuel, (emitted ds).length < fuel →
      (interpreter.load program).run fuel registry host = some (r, after, host')) ∧
    ∀ m m', Machine.Reaches rules (interpreter.start program host) m → Machine.step rules m = .ok .next m' →
      m.program.pc < m'.program.pc := by
  intro program rules
  obtain ⟨hf, hc⟩ := (structured_of_forward hforward hbound).spelled ha
  have h₀ : Machine.Advanced ds code 0 (interpreter.start program host) :=
    ⟨⟨rfl, (address_zero ds).symm⟩, Nat.zero_le _, Nat.zero_le _⟩
  refine ⟨?_, ?_⟩
  · rcases Machine.after_or_stopped rules (interpreter.start program host) ((emitted ds).length + 1) with
      ⟨m, hm⟩ | ⟨n, m, ⟨r, m'⟩, hn, hm, hstop⟩
    · -- more instructions than there are
      obtain ⟨k, hk⟩ := h₀.reaches hforward hbound hf hc (Machine.reaches_of_after hm)
      have hle := Nat.le_trans hk.executed (emittedBefore_mono hk.le)
      rw [emittedBefore_length, Machine.executed_after hm] at hle
      omega
    · obtain ⟨k, hk⟩ := h₀.reaches hforward hbound hf hc (Machine.reaches_of_after hm)
      have hle : (left (Machine.step rules m)).executed ≤ _ := hk.executed_left hforward hbound hf hc
      rw [Machine.left_of_stopped hstop] at hle
      refine ⟨r, (interpreter.load program).finish r m', m'.frame.host, hle, ?_⟩
      intro fuel hfuel
      rw [Interpreter.run_load, Machine.run_of_after_stopped hm hstop (by omega)]
      rfl
  · intro m m' hr hm
    obtain ⟨k, hk⟩ := h₀.reaches hforward hbound hf hc hr
    exact (hk.next hforward hbound hf hc hm).1

/-- A branch over an instruction to a label, and one to a label that is never bound. -/
def skipping : List Directive :=
  [.emit (.ldcI4 1), .branch .brtrueS, .emit .nop, .bind 0, .branch .brS, .emit .ret]

theorem forward_code_terminates_skipping :
    (∀ d ∈ skipping, d.Forward) ∧ WellBound skipping ∧ ∃ code, assemble skipping = .ok code ∧
      ∃ r after host, after.executed ≤ 5 ∧
        ((Interpreter.ofLimit none).load (.ofMethod ⟨code, 1, 0⟩ .empty)).run 6 .builtins ⟨.ofCapacity none, #[]⟩ =
          some (r, after, host) := by
  obtain ⟨code, hc⟩ : ∃ code, assemble skipping = .ok code := ⟨_, rfl⟩
  have hforward : ∀ d ∈ skipping, d.Forward := by decide
  have hbound : WellBound skipping := by decide
  obtain ⟨⟨r, after, host, hle, hrun⟩, _⟩ :=
    forward_code_terminates hforward hbound hc (.ofLimit none) 1 0 .empty .builtins ⟨.ofCapacity none, #[]⟩
  exact ⟨hforward, hbound, code, hc, r, after, host, hle, hrun 6 (by decide)⟩

end StackVm
