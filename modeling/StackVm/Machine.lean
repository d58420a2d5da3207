import StackVm.Program
import StackVm.Registry

/-! # The machine: one instruction after another

`step` performs one instruction; `run` repeats it until `ret`, a fault or the end of its fuel. -/

namespace StackVm

structure Machine where
  program : Program
  frame : Frame
  executed : Nat

/-- What a run does not change: the handlers and how many instructions it may execute. -/
structure Rules where
  registry : Registry
  limit : Option Nat

abbrev MachineM := EStateM Fault Machine

inductive Signal where
  | next
  | halt (result : Option Value)
  deriving DecidableEq

namespace Machine

def onProgram {α : Type} (x : EStateM Fault Program α) : MachineM α :=
  fun ⟨program, frame, executed⟩ =>
    match x program with
    | .ok a program => .ok a ⟨program, frame, executed⟩
    | .error e program => .error e ⟨program, frame, executed⟩

def onFrame {α : Type} (x : FrameM α) : MachineM α :=
  fun ⟨program, frame, executed⟩ =>
    match x frame with
    | .ok a frame => .ok a ⟨program, frame, executed⟩
    | .error e frame => .error e ⟨program, frame, executed⟩

def count : MachineM Unit := fun m => .ok () { m with executed := m.executed + 1 }

def checkLimit (rules : Rules) : MachineM Unit := fun m =>
  match rules.limit with
  | none => .ok () m
  | some limit => if limit ≤ m.executed then .error (.limitExceeded limit) m else .ok () m

/-- The next instruction and its offset, if the limit allows one; it counts as executed. -/
def fetch (rules : Rules) : MachineM (Nat × Instruction) := do
  checkLimit rules
  let fetched ← onProgram Program.fetch
  count
  pure fetched

def binary (op : Value → Value → Except Fault Value) : FrameM Unit := do
  let (a, b) ← Frame.pop2
  match op a b with
  | .ok v => Frame.push v
  | .error e => throw e

def comparison (op : Operation) (wanted : Ordering) : FrameM Unit :=
  binary fun a b => (a.compare op b).map fun order => .ofBool (order = some wanted)

def popCondition (op : Operation) : FrameM Int := do
  let v ← Frame.pop
  match v.integer? with
  | some n => pure n
  | none => throw (.invalidOperand op v.kind)

def ldstr (token : UInt16) : MachineM Unit := fun m =>
  match m.program.image.userString token with
  | .ok text => onFrame (Frame.pushString text) m
  | .error e => .error e m

def call (rules : Rules) (token : UInt32) : MachineM Unit := fun m =>
  match m.program.image.resolve? token with
  | none => .error (.unresolvedCall token none) m
  | some (.body _) => .error (.managedCall token) m
  | some (.external s) =>
    match rules.registry.lookup? s with
    | none => .error (.unresolvedCall token (some s)) m
    | some h => onFrame (s.invoke h) m

/-- The result of `ret`: the top of the stack, which stays there. -/
def result : MachineM (Option Value) := fun m =>
  .ok (if m.frame.stack.depth = 0 then none else some (m.frame.stack.nth 0)) m

/-- Performs an instruction found at `offset`, with the program counter already past it. -/
def execute (rules : Rules) (offset : Nat) : Instruction → MachineM Signal
  | .nop => pure .next
  | .ldloc i => do
    onFrame (do Frame.push (← Frame.getLocal i.toNat))
    pure .next
  | .stloc i => do
    onFrame (do Frame.setLocal i.toNat (← Frame.pop))
    pure .next
  | .ldloca i => do
    onFrame (do Frame.push (← Frame.addressOf i.toNat))
    pure .next
  | .ldcI4 v => do
    onFrame (Frame.push (.int32 v))
    pure .next
  | .ldcR8 bits => do
    onFrame (Frame.push (.float (Float.ofBits bits)))
    pure .next
  | .call token => do
    call rules token
    pure .next
  | .ret => .halt <$> result
  | .br d => do
    onProgram (Program.branch offset d)
    pure .next
  | .brfalse d => do
    if (← onFrame (popCondition .brfalse)) = 0 then onProgram (Program.branch offset d)
    pure .next
  | .brtrue d => do
    if (← onFrame (popCondition .brtrue)) = 1 then onProgram (Program.branch offset d)
    pure .next
  | .add => do
    onFrame (binary Value.add)
    pure .next
  | .div => do
    onFrame (binary Value.div)
    pure .next
  | .rem => do
    onFrame (binary Value.rem)
    pure .next
  | .convR8 => do
    onFrame (do Frame.push (← Frame.pop).toFloat)
    pure .next
  | .ldstr token => do
    ldstr token
    pure .next
  | .ceq => do
    onFrame (comparison .ceq .eq)
    pure .next
  | .cgt => do
    onFrame (comparison .cgt .gt)
    pure .next
  | .clt => do
    onFrame (comparison .clt .lt)
    pure .next

def step (rules : Rules) : MachineM Signal := do
  let (offset, i) ← fetch rules
  execute rules offset i

/-- How a run ended and the machine it left behind; none if `fuel` steps were not enough. -/
def run (rules : Rules) : Nat → Machine → Option (Except Fault (Option Value) × Machine)
  | 0, _ => none
  | fuel + 1, m =>
    match step rules m with
    | .ok .next m => run rules fuel m
    | .ok (.halt v) m => some (.ok v, m)
    | .error e m => some (.error e, m)

end Machine

end StackVm
