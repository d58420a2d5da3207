import StackVm.Console
import StackVm.OperandStack
import StackVm.Locals
import StackVm.StringTable

/-! # Frames: all that a plug may touch while it runs

Operations are `FrameM` programs: an operation that fails keeps what it has done until then. -/

namespace StackVm

inductive Reply where
  | unit
  | value (v : Value)
  | pair (second top : Value)
  | int32 (n : Int32)
  | float (x : Float)
  | handle (h : Nat)
  | text (t : String)
  deriving DecidableEq

/-- What lies outside an interpreter: the console and the replies that scripted plugs noted. -/
structure Host where
  console : Console
  notes : Array Reply

structure Frame where
  stack : OperandStack
  locals : Locals
  strings : StringTable
  host : Host

abbrev FrameM := EStateM Fault Frame

namespace Frame

def onStack {α : Type} (x : EStateM Fault OperandStack α) : FrameM α :=
  fun ⟨stack, locals, strings, host⟩ =>
    match x stack with
    | .ok a stack => .ok a ⟨stack, locals, strings, host⟩
    | .error e stack => .error e ⟨stack, locals, strings, host⟩

def onLocals {α : Type} (x : EStateM Fault Locals α) : FrameM α :=
  fun ⟨stack, locals, strings, host⟩ =>
    match x locals with
    | .ok a locals => .ok a ⟨stack, locals, strings, host⟩
    | .error e locals => .error e ⟨stack, locals, strings, host⟩

def push (v : Value) : FrameM Unit := onStack (OperandStack.push v)

def pop : FrameM Value := onStack OperandStack.pop

def pop2 : FrameM (Value × Value) := onStack OperandStack.pop2

def peek : FrameM Value := onStack OperandStack.peek

def peekNth (n : Nat) : FrameM Value := onStack (OperandStack.peekNth n)

def depth : FrameM Nat := fun f => .ok f.stack.depth f

def getLocal (i : Nat) : FrameM Value := onLocals (Locals.get i)

def setLocal (i : Nat) (v : Value) : FrameM Unit := onLocals (Locals.set i v)

def addressOf (i : Nat) : FrameM Value := onLocals (Locals.addressOf i)

def intern (text : String) : FrameM Nat := fun ⟨stack, locals, strings, host⟩ =>
  match strings.intern text with
  | (h, strings) => .ok h ⟨stack, locals, strings, host⟩

def resolve (handle : Nat) : FrameM String := fun f =>
  match f.strings.resolve handle with
  | .ok text => .ok text f
  | .error e => .error e f

def popAs {α : Type} (read : Value → Option α) : FrameM α := do
  let v ← pop
  match read v with
  | some a => pure a
  | none => throw (.invalidOperand .plugArgument v.kind)

def popInt32 : FrameM Int32 := popAs Value.int32?

def popFloat : FrameM Float := popAs Value.float?

def popHandle : FrameM Nat := popAs Value.handle?

def popString : FrameM String := do
  let h ← popHandle
  resolve h

def pushString (text : String) : FrameM Unit := do
  let h ← intern text
  push (.string h)

/-- Writes a text to the console; if it is cut short, the plug fails with `preface` and what the
console says. -/
def print (preface text : String) : FrameM Unit :=
  fun ⟨stack, locals, strings, console, notes⟩ =>
    match console.writeText text with
    | (true, after) => .ok () ⟨stack, locals, strings, after, notes⟩
    | (false, after) =>
      .error (.plug (preface ++ console.failure)) ⟨stack, locals, strings, after, notes⟩

def note (r : Reply) : FrameM Unit :=
  fun ⟨stack, locals, strings, console, notes⟩ =>
    .ok () ⟨stack, locals, strings, console, notes.push r⟩

/-- Gives a failure as an answer; what was done until then stays. -/
def attempt {α : Type} (x : FrameM α) : FrameM (Except Fault α) := fun f =>
  match x f with
  | .ok a f => .ok (.ok a) f
  | .error e f => .ok (.error e) f

end Frame

end StackVm
