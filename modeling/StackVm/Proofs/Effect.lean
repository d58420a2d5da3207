import StackVm.Interpreter
import StackVm.Proofs.FrameOps

/-!
# One instruction, one step, one run

`effect` is what an instruction does to the frame; it sees the image but neither
the code nor the program counter, and answers how the counter has to move.
`execute_eq` puts it back in its place: a step fetches, applies the effect and
moves the counter. `Reaches` are the machines a run passes before its fetches.
-/

namespace StackVm

inductive Move where
  | stay
  | jump (offset : Int32)
  | halt (result : Option Value)

namespace Machine

section
variable (rules : Rules) (image : Image)

def loadString (token : UInt16) : FrameM Unit := fun f =>
  match image.userString token with
  | .ok text => Frame.pushString text f
  | .error e => .error e f

def dispatch (token : UInt32) : FrameM Unit := fun f =>
  match image.resolve? token with
  | none => .error (.unresolvedCall token none) f
  | some (.body _) => .error (.managedCall token) f
  | some (.external s) =>
    match rules.registry.lookup? s with
    | none => .error (.unresolvedCall token (some s)) f
    | some h => s.invoke h f

def test (op : Operation) (wanted : Int) (offset : Int32) : FrameM Move := do
  if (← popCondition op) = wanted then pure (.jump offset) else pure .stay

def andStay (x : FrameM Unit) : FrameM Move := do x; pure .stay

def effect : Instruction → FrameM Move
  | .nop => pure .stay
  | .ldloc i => andStay do Frame.push (← Frame.getLocal i.toNat)
  | .stloc i => andStay do Frame.setLocal i.toNat (← Frame.pop)
  | .ldloca i => andStay do Frame.push (← Frame.addressOf i.toNat)
  | .ldcI4 v => andStay (Frame.push (.int32 v))
  | .ldcR8 bits => andStay (Frame.push (.float (Float.ofBits bits)))
  | .call token => andStay (dispatch rules image token)
  | .ret => fun f => .ok (.halt (if f.stack.depth = 0 then none else some (f.stack.nth 0))) f
  | .br offset => pure (.jump offset)
  | .brfalse offset => test .brfalse 0 offset
  | .brtrue offset => test .brtrue 1 offset
  | .add => andStay (binary Value.add)
  | .div => andStay (binary Value.div)
  | .rem => andStay (binary Value.rem)
  | .convR8 => andStay do Frame.push (← Frame.pop).toFloat
  | .ldstr token => andStay (loadString image token)
  | .ceq => andStay (comparison .ceq .eq)
  | .cgt => andStay (comparison .cgt .gt)
  | .clt => andStay (comparison .clt .lt)

end

/-- Moves the counter of `m`, found at a branch at `offset`, after its frame became `f`. -/
def settle (m : Machine) (offset : Nat) : EStateM.Result Fault Frame Move → EStateM.Result Fault Machine Signal
  | .ok .stay f => .ok .next ⟨m.program, f, m.executed⟩
  | .ok (.jump d) f =>
    match Program.branch offset d m.program with
    | .ok _ p => .ok .next ⟨p, f, m.executed⟩
    | .error e p => .error e ⟨p, f, m.executed⟩
  | .ok (.halt v) f => .ok (.halt v) ⟨m.program, f, m.executed⟩
  | .error e f => .error e ⟨m.program, f, m.executed⟩

theorem onFrame_of_ok {α : Type} {x : FrameM α} {m : Machine} {a : α} {f : Frame} (h : x m.frame = .ok a f) :
    onFrame x m = .ok a ⟨m.program, f, m.executed⟩ := by
  obtain ⟨program, frame, executed⟩ := m
  unfold onFrame; simp only [h]

theorem onFrame_of_error {α : Type} {x : FrameM α} {m : Machine} {e : Fault} {f : Frame}
    (h : x m.frame = .error e f) : onFrame x m = .error e ⟨m.program, f, m.executed⟩ := by
  obtain ⟨program, frame, executed⟩ := m
  unfold onFrame; simp only [h]

theorem onProgram_of_ok {α : Type} {x : EStateM Fault Program α} {m : Machine} {a : α} {p : Program}
    (h : x m.program = .ok a p) : onProgram x m = .ok a ⟨p, m.frame, m.executed⟩ := by
  obtain ⟨program, frame, executed⟩ := m
  unfold onProgram; simp only [h]

theorem onProgram_of_error {α : Type} {x : EStateM Fault Program α} {m : Machine} {e : Fault} {p : Program}
    (h : x m.program = .error e p) : onProgram x m = .error e ⟨p, m.frame, m.executed⟩ := by
  obtain ⟨program, frame, executed⟩ := m
  unfold onProgram; simp only [h]

theorem execute_branch (offset : Nat) (d : Int32) (m : Machine) :
    (do onProgram (Program.branch offset d); pure Signal.next : MachineM Signal) m =
      settle m offset (.ok (.jump d) m.frame) := by
  simp only [settle]
  cases h : Program.branch offset d m.program with
  | ok a p => rw [bind_of_ok (onProgram_of_ok h)]; rfl
  | error e p => rw [bind_of_error (onProgram_of_error h)]

theorem execute_andStay {x : FrameM Unit} {y : MachineM Unit} {m : Machine} (offset : Nat) (h : y m = onFrame x m) :
    (do y; pure Signal.next : MachineM Signal) m = settle m offset (andStay x m.frame) := by
  unfold andStay
  cases hx : x m.frame with
  | ok a f => rw [bind_of_ok hx, bind_of_ok (h.trans (onFrame_of_ok hx))]; rfl
  | error e f => rw [bind_of_error hx, bind_of_error (h.trans (onFrame_of_error hx))]; rfl

theorem execute_test (op : Operation) (wanted : Int) (offset : Nat) (d : Int32) (m : Machine) :
    (do if (← onFrame (popCondition op)) = wanted then onProgram (Program.branch offset d)
        pure Signal.next : MachineM Signal) m = settle m offset (test op wanted d m.frame) := by
  unfold test
  cases hx : popCondition op m.frame with
  | error e f => rw [bind_of_error hx, bind_of_error (onFrame_of_error hx)]; rfl
  | ok n f =>
    rw [bind_of_ok hx, bind_of_ok (onFrame_of_ok hx)]
    by_cases hn : n = wanted
    · rw [if_pos hn, if_pos hn]
      exact execute_branch offset d ⟨m.program, f, m.executed⟩
    · rw [if_neg hn, if_neg hn]; rfl

theorem ldstr_eq (token : UInt16) (m : Machine) :
    ldstr token m = onFrame (loadString m.program.image token) m := by
  obtain ⟨program, frame, executed⟩ := m
  unfold ldstr onFrame loadString
  cases program.image.userString token <;> rfl

theorem call_eq (rules : Rules) (token : UInt32) (m : Machine) :
    call rules token m = onFrame (dispatch rules m.program.image token) m := by
  obtain ⟨program, frame, executed⟩ := m
  simp only [call, onFrame, dispatch]
  cases program.image.resolve? token with
  | none => rfl
  | some t =>
    cases t with
    | body b => rfl
    | external s =>
      simp only []
      cases rules.registry.lookup? s <;> rfl

theorem execute_eq (rules : Rules) (offset : Nat) (i : Instruction) (m : Machine) :
    execute rules offset i m = settle m offset (effect rules m.program.image i m.frame) := by
  cases i with
  | nop => rfl
  | ret => rfl
  | br d => exact execute_branch offset d m
  | brfalse d => exact execute_test .brfalse 0 offset d m
  | brtrue d => exact execute_test .brtrue 1 offset d m
  | ldstr token => exact execute_andStay offset (ldstr_eq token m)
  | call token => exact execute_andStay offset (call_eq rules token m)
  | _ => exact execute_andStay offset rfl

/-! ## Branches -/

theorem popCondition_of_some {op : Operation} {f : Frame} {n : Int} (hd : 0 < f.stack.depth)
    (hn : (f.stack.nth 0).integer? = some n) : popCondition op f = .ok n (f.dropped 1) := by
  unfold popCondition
  rw [bind_of_ok (Frame.pop_of_pos hd)]
  simp only [hn]; rfl

theorem popCondition_of_none {op : Operation} {f : Frame} (hd : 0 < f.stack.depth)
    (hn : (f.stack.nth 0).integer? = none) :
    popCondition op f = .error (.invalidOperand op (f.stack.nth 0).kind) (f.dropped 1) := by
  unfold popCondition
  rw [bind_of_ok (Frame.pop_of_pos hd)]
  simp only [hn]; rfl

theorem popCondition_of_zero {op : Operation} {f : Frame} (hd : f.stack.depth = 0) :
    popCondition op f = .error (.underflow 1 0) f := bind_of_error (Frame.pop_of_zero hd)

theorem test_eq_jump {op : Operation} {wanted : Int} {offset d : Int32} {f f' : Frame} :
    test op wanted offset f = .ok (.jump d) f' ↔
      0 < f.stack.depth ∧ (f.stack.nth 0).integer? = some wanted ∧ offset = d ∧ f' = f.dropped 1 := by
  unfold test
  rcases Nat.eq_zero_or_pos f.stack.depth with h0 | hd
  · rw [bind_of_error (popCondition_of_zero h0), h0]; simp
  · cases hn : (f.stack.nth 0).integer? with
    | none => rw [bind_of_error (popCondition_of_none hd hn)]; simp
    | some n =>
      rw [bind_of_ok (popCondition_of_some hd hn)]
      by_cases hw : n = wanted
      · rw [if_pos hw]
        simp [pure, EStateM.pure, hd, hw, eq_comm]
      · rw [if_neg hw]
        simp [pure, EStateM.pure, hw]

theorem andStay_ok {x : FrameM Unit} {f f' : Frame} {v : Move} (h : andStay x f = .ok v f') :
    v = .stay ∧ x f = .ok () f' := by
  unfold andStay at h
  cases hx : x f with
  | ok a g => rw [bind_of_ok hx] at h; cases h; exact ⟨rfl, rfl⟩
  | error e g => rw [bind_of_error hx] at h; cases h

theorem andStay_of_ok {x : FrameM Unit} {f f' : Frame} (h : x f = .ok () f') : andStay x f = .ok .stay f' :=
  bind_of_ok h

/-! ## Texts and operands -/

theorem loadString_of_ok {image : Image} {token : UInt16} {text : String} (h : image.userString token = .ok text)
    (f : Frame) : loadString image token f = Frame.pushString text f := by
  simp only [loadString, h]

theorem effect_ldstr {image : Image} {token : UInt16} {text : String} {f : Frame}
    (h : image.userString token = .ok text) (hc : f.stack.depth < f.stack.capacity) (rules : Rules) :
    effect rules image (.ldstr token) f = .ok .stay (f.loaded text) :=
  andStay_of_ok ((loadString_of_ok h f).trans (Frame.pushString_of_lt text hc))

theorem binary_of_ok {op : Value → Value → Except Fault Value} {f : Frame} {v : Value} (hd : 2 ≤ f.stack.depth)
    (hc : f.stack.depth ≤ f.stack.capacity) (h : op (f.stack.nth 1) (f.stack.nth 0) = .ok v) :
    binary op f = .ok () ((f.dropped 2).pushed v) := by
  have hroom : f.stack.depth - 2 < f.stack.capacity := by omega
  unfold binary
  rw [bind_of_ok (Frame.pop2_of_le hd)]
  simp only [h]
  exact Frame.push_of_lt hroom

end Machine

def Instruction.Jumps (f : Frame) : Instruction → Prop
  | .br _ => True
  | .brfalse _ => 0 < f.stack.depth ∧ (f.stack.nth 0).integer? = some 0
  | .brtrue _ => 0 < f.stack.depth ∧ (f.stack.nth 0).integer? = some 1
  | _ => False

theorem Instruction.Jumps.exists_offset {i : Instruction} {f : Frame} (h : i.Jumps f) :
    ∃ d, i.branchOffset? = some d := by
  cases i with
  | br d | brfalse d | brtrue d => exact ⟨d, rfl⟩
  | _ => exact absurd h id

namespace Machine

theorem effect_eq_jump {rules : Rules} {image : Image} {i : Instruction} {d : Int32} {f : Frame} :
    (∃ f', effect rules image i f = .ok (.jump d) f') ↔ i.Jumps f ∧ i.branchOffset? = some d := by
  cases i with
  | br offset =>
    simp [effect, Instruction.Jumps, Instruction.branchOffset?, pure, EStateM.pure]
  | brfalse offset | brtrue offset =>
    simp [effect, test_eq_jump, Instruction.Jumps, Instruction.branchOffset?, and_assoc]
  | nop | ret => simp [effect, Instruction.Jumps, pure, EStateM.pure]
  | _ =>
    constructor
    · rintro ⟨f', h⟩
      cases (andStay_ok h).1
    · intro h
      exact absurd h.1 id

/-! ## Steps -/

def Within (rules : Rules) (m : Machine) : Prop := ∀ limit, rules.limit = some limit → m.executed < limit

def past (m : Machine) (next : Nat) : Machine := ⟨{ m.program with pc := next }, m.frame, m.executed + 1⟩

theorem checkLimit_of_within {rules : Rules} {m : Machine} (h : m.Within rules) : checkLimit rules m = .ok () m := by
  unfold checkLimit
  split
  · rfl
  · next limit hl => rw [if_neg (Nat.not_le.mpr (h limit hl))]

theorem checkLimit_of_not_within {rules : Rules} {m : Machine} (h : ¬ m.Within rules) :
    ∃ limit, rules.limit = some limit ∧ checkLimit rules m = .error (.limitExceeded limit) m := by
  unfold checkLimit
  cases hl : rules.limit with
  | none => exact absurd (fun limit hs => by rw [hl] at hs; cases hs) h
  | some limit =>
    refine ⟨limit, rfl, if_pos (Nat.not_lt.mp fun hlt => h fun l hs => ?_)⟩
    rw [hl, Option.some.injEq] at hs
    rwa [← hs]

theorem fetch_of_not_within {rules : Rules} {m : Machine} (h : ¬ m.Within rules) :
    ∃ limit, rules.limit = some limit ∧ fetch rules m = .error (.limitExceeded limit) m := by
  obtain ⟨limit, hr, hl⟩ := checkLimit_of_not_within h
  exact ⟨limit, hr, bind_of_error hl⟩

theorem fetch_of_ok {rules : Rules} {m : Machine} {offset next : Nat} {i : Instruction} (h : m.Within rules)
    (hf : Program.fetch m.program = .ok (offset, i) { m.program with pc := next }) :
    fetch rules m = .ok (offset, i) (m.past next) := by
  unfold fetch
  rw [bind_of_ok (checkLimit_of_within h), bind_of_ok (onProgram_of_ok hf)]; rfl

theorem fetch_of_error {rules : Rules} {m : Machine} {e : Fault} (h : m.Within rules)
    (hf : Program.fetch m.program = .error e m.program) : fetch rules m = .error e m := by
  unfold fetch
  rw [bind_of_ok (checkLimit_of_within h), bind_of_error (onProgram_of_error hf)]

theorem programFetch_cases (p : Program) :
    (p.method.code.size ≤ p.pc ∧ Program.fetch p = .error .endOfCode p) ∨
    (∃ e, decodeAt p.method.code p.pc = .error e ∧ Program.fetch p = .error (.decode e) p) ∨
    ∃ i next, decodeAt p.method.code p.pc = .ok (i, next) ∧ Program.fetch p = .ok (p.pc, i) { p with pc := next } := by
  unfold Program.fetch
  by_cases h : p.method.code.size ≤ p.pc
  · exact Or.inl ⟨h, if_pos h⟩
  · rw [if_neg h]
    cases hd : decodeAt p.method.code p.pc with
    | error e => exact Or.inr (Or.inl ⟨e, rfl, rfl⟩)
    | ok r => exact Or.inr (Or.inr ⟨r.1, r.2, rfl, rfl⟩)

theorem programFetch_of_decodeAt {p : Program} {i : Instruction} {next : Nat}
    (h : decodeAt p.method.code p.pc = .ok (i, next)) : Program.fetch p = .ok (p.pc, i) { p with pc := next } := by
  have hlt : p.pc < p.method.code.size := by
    unfold decodeAt at h
    split at h
    · next hl => exact (lt_of_listingAt hl).2
    · cases h
  simp only [Program.fetch, if_neg (Nat.not_le.mpr hlt), h]

theorem programFetch_of_decodeAt_error {p : Program} {e : DecodeError} (hlt : p.pc < p.method.code.size)
    (h : decodeAt p.method.code p.pc = .error e) : Program.fetch p = .error (.decode e) p := by
  simp only [Program.fetch, if_neg (Nat.not_le.mpr hlt), h]

theorem fetch_cases (rules : Rules) (m : Machine) :
    (∃ e, fetch rules m = .error e m) ∨ ∃ i next, fetch rules m = .ok (m.program.pc, i) (m.past next) := by
  by_cases hw : m.Within rules
  · rcases programFetch_cases m.program with ⟨_, hf⟩ | ⟨e, _, hf⟩ | ⟨i, next, _, hf⟩
    · exact Or.inl ⟨_, fetch_of_error hw hf⟩
    · exact Or.inl ⟨_, fetch_of_error hw hf⟩
    · exact Or.inr ⟨i, next, fetch_of_ok hw hf⟩
  · obtain ⟨limit, _, hl⟩ := fetch_of_not_within hw
    exact Or.inl ⟨_, hl⟩

theorem step_of_fetch {rules : Rules} {m : Machine} {offset next : Nat} {i : Instruction}
    (h : fetch rules m = .ok (offset, i) (m.past next)) :
    step rules m = settle (m.past next) offset (effect rules m.program.image i m.frame) := by
  unfold step
  rw [bind_of_ok h]
  exact execute_eq rules offset i (m.past next)

section
variable {rules : Rules} {m : Machine} {i : Instruction} {next : Nat} {f : Frame} (hw : m.Within rules)
variable (hd : decodeAt m.program.method.code m.program.pc = .ok (i, next))
include hw hd

theorem step_of_stay (he : effect rules m.program.image i m.frame = .ok .stay f) :
    step rules m = .ok .next ⟨{ m.program with pc := next }, f, m.executed + 1⟩ := by
  rw [step_of_fetch (fetch_of_ok hw (programFetch_of_decodeAt hd)), he]
  rfl

theorem step_of_halt {v : Option Value} (he : effect rules m.program.image i m.frame = .ok (.halt v) f) :
    step rules m = .ok (.halt v) ⟨{ m.program with pc := next }, f, m.executed + 1⟩ := by
  rw [step_of_fetch (fetch_of_ok hw (programFetch_of_decodeAt hd)), he]
  rfl

end

theorem step_of_fetch_error {rules : Rules} {m m' : Machine} {e : Fault} (h : fetch rules m = .error e m') :
    step rules m = .error e m' := bind_of_error h

theorem step_cases (rules : Rules) (m : Machine) :
    (∃ e, fetch rules m = .error e m ∧ step rules m = .error e m) ∨
    ∃ i next, fetch rules m = .ok (m.program.pc, i) (m.past next) ∧
      step rules m = settle (m.past next) m.program.pc (effect rules m.program.image i m.frame) := by
  rcases fetch_cases rules m with ⟨e, he⟩ | ⟨i, next, hi⟩
  · exact Or.inl ⟨e, he, step_of_fetch_error he⟩
  · exact Or.inr ⟨i, next, hi, step_of_fetch hi⟩

/-- Moving the counter can fail, but leaves the frame alone. -/
theorem left_settle (m : Machine) (offset : Nat) (r : EStateM.Result Fault Frame Move) :
    (left (settle m offset r)).frame = left r := by
  cases r with
  | error e f => rfl
  | ok v f =>
    cases v with
    | stay | halt v => rfl
    | jump d =>
      simp only [settle]
      cases Program.branch offset d m.program <;> rfl

theorem settle_eq_ok {m m' : Machine} {offset : Nat} {r : EStateM.Result Fault Frame Move} {s : Signal}
    (h : settle m offset r = .ok s m') : ∃ v, r = .ok v m'.frame := by
  have hl := left_settle m offset r
  rw [h] at hl
  cases r with
  | error e f => cases h
  | ok v f => exact ⟨v, by rw [show m'.frame = f from hl]⟩

/-! ## Runs -/

/-- `m` is the machine before some fetch of the run from `m₀`. -/
inductive Reaches (rules : Rules) (m₀ : Machine) : Machine → Prop
  | refl : Reaches rules m₀ m₀
  | step {m m' : Machine} : Reaches rules m₀ m → step rules m = .ok .next m' → Reaches rules m₀ m'

theorem Reaches.invariant {rules : Rules} {m₀ m : Machine} {P : Machine → Prop} (h : Reaches rules m₀ m) (h₀ : P m₀)
    (hs : ∀ {m m'}, P m → Machine.step rules m = .ok .next m' → P m') : P m := by
  induction h with
  | refl => exact h₀
  | step _ hm ih => exact hs ih hm

theorem Reaches.head {rules : Rules} {m m₁ m₂ : Machine} (hs : Machine.step rules m = .ok .next m₁)
    (h : Reaches rules m₁ m₂) : Reaches rules m m₂ := by
  induction h with
  | refl => exact .step .refl hs
  | step _ hm ih => exact .step ih hm

theorem exists_of_run {rules : Rules} : ∀ {fuel : Nat} {m m' : Machine} {r : Except Fault (Option Value)},
    run rules fuel m = some (r, m') → ∃ m₁, Reaches rules m m₁ ∧
      ((∃ v, step rules m₁ = .ok (.halt v) m' ∧ r = .ok v) ∨ ∃ e, step rules m₁ = .error e m' ∧ r = .error e)
  | 0, _, _, _, h => by cases h
  | fuel + 1, m, m', r, h => by
    unfold run at h
    split at h
    · next m₁ hm =>
      obtain ⟨m₂, hr, he⟩ := exists_of_run h
      exact ⟨m₂, hr.head hm, he⟩
    · next v m₁ hm => cases h; exact ⟨m, .refl, Or.inl ⟨v, hm, rfl⟩⟩
    · next e m₁ hm => cases h; exact ⟨m, .refl, Or.inr ⟨e, hm, rfl⟩⟩

end Machine

/-- A run takes the program out for its time, which nothing else notices. -/
theorem Interpreter.run_of_some {i : Interpreter} {p : Program} (h : i.runnable? = some p) (fuel : Nat)
    (registry : Registry) (host : Host) : i.run fuel registry host =
      (Machine.run ⟨registry, i.limit⟩ fuel (i.machine p host)).map fun (r, m) => (r, i.finish r m, m.frame.host) := by
  have hm : Machine.run ⟨registry, i.begun.limit⟩ fuel (i.begun.machine p host) =
      Machine.run ⟨registry, i.limit⟩ fuel (i.machine p host) := rfl
  unfold Interpreter.run
  simp only [h, hm]
  cases Machine.run ⟨registry, i.limit⟩ fuel (i.machine p host) <;> rfl

def Interpreter.start (i : Interpreter) (p : Program) (host : Host) : Machine := (i.load p).machine p.reset host

theorem Interpreter.run_load (i : Interpreter) (p : Program) (fuel : Nat) (registry : Registry) (host : Host) :
    (i.load p).run fuel registry host =
      (Machine.run ⟨registry, i.limit⟩ fuel (i.start p host)).map fun (r, m) =>
        (r, (i.load p).finish r m, m.frame.host) := run_of_some rfl fuel registry host

end StackVm
