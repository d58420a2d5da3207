import StackVm.Machine

/-! # Interpreters

An interpreter runs one loaded program at a time and keeps its interned texts for the next. -/

namespace StackVm

inductive Phase where
  | empty | ready | running | halted | faulted
  deriving DecidableEq

structure Interpreter where
  limit : Option Nat
  phase : Phase
  program : Option Program
  stack : OperandStack
  locals : Locals
  strings : StringTable
  executed : Nat

namespace Interpreter

def ofLimit (limit : Option Nat) : Interpreter :=
  ⟨limit, .empty, none, .ofCapacity 0, .ofSize 0, .empty, 0⟩

def load (p : Program) (i : Interpreter) : Interpreter :=
  { i with
    phase := .ready
    program := some p.reset
    stack := .ofCapacity p.method.maxStack.toNat
    locals := .ofSize p.method.localCount.toNat
    executed := 0 }

/-- The interpreter during a run, which has taken the program out. -/
def begun (i : Interpreter) : Interpreter := { i with phase := .running, program := none }

def machine (i : Interpreter) (p : Program) (host : Host) : Machine :=
  ⟨p, ⟨i.stack, i.locals, i.strings, host⟩, i.executed⟩

def finish (i : Interpreter) (r : Except Fault (Option Value)) (m : Machine) : Interpreter :=
  { i with
    phase := match r with | .ok _ => .halted | .error _ => .faulted
    program := some m.program
    stack := m.frame.stack
    locals := m.frame.locals
    strings := m.frame.strings
    executed := m.executed }

def runnable? (i : Interpreter) : Option Program := if i.phase = .ready then i.program else none

/-- Runs the loaded program, which can be done once after it was loaded. -/
def run (fuel : Nat) (registry : Registry) (i : Interpreter) (host : Host) :
    Option (Except Fault (Option Value) × Interpreter × Host) :=
  match i.runnable? with
  | none => some (.error .noProgram, i, host)
  | some p =>
    let i := i.begun
    match Machine.run ⟨registry, i.limit⟩ fuel (i.machine p host) with
    | none => none
    | some (r, m) => some (r, i.finish r m, m.frame.host)

def resolveString (i : Interpreter) (v : Value) : Option String := v.handle?.bind i.strings.get?

end Interpreter

end StackVm
