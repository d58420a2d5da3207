import StackVm.Builtin

/-! # Plugs: handlers of external methods

A handler performs operations on a frame. It sees what each of them gave, a failure included, and
may itself fail with any fault; the call passes that fault on as it is. -/

namespace StackVm

inductive Action where
  | push (v : Value)
  | pushString (text : String)
  | pop
  | popInt32
  | popFloat
  | popHandle
  | popString
  | peek
  | peekNth (n : Nat)
  | pop2
  | getLocal (i : Nat)
  | setLocal (i : Nat) (v : Value)
  | addressOf (i : Nat)
  | intern (text : String)
  | resolve (handle : Nat)
  | print (text : String)
  | note (r : Reply)
  | raise (e : Fault)
  | call (b : Builtin)
  deriving DecidableEq

def Action.run : Action → FrameM Reply
  | push v => do Frame.push v; pure .unit
  | pushString text => do Frame.pushString text; pure .unit
  | pop => .value <$> Frame.pop
  | popInt32 => .int32 <$> Frame.popInt32
  | popFloat => .float <$> Frame.popFloat
  | popHandle => .handle <$> Frame.popHandle
  | popString => .text <$> Frame.popString
  | peek => .value <$> Frame.peek
  | peekNth n => .value <$> Frame.peekNth n
  | pop2 => do
    let (a, b) ← Frame.pop2
    pure (.pair a b)
  | getLocal i => .value <$> Frame.getLocal i
  | setLocal i v => do Frame.setLocal i v; pure .unit
  | addressOf i => .value <$> Frame.addressOf i
  | intern text => .handle <$> Frame.intern text
  | resolve h => .text <$> Frame.resolve h
  | print text => do Frame.print "" text; pure .unit
  | note r => do Frame.note r; pure .unit
  | raise e => throw e
  | call b => do b.run; pure .unit

/-- A built-in, or a tree of operations: how it goes on after one of them depends on the reply or
the fault that it gave. -/
inductive Handler where
  | builtin (b : Builtin)
  | done
  | raise (e : Fault)
  | perform (a : Action) (next : Except Fault Reply → Handler)

namespace Handler

def run : Handler → FrameM Unit
  | builtin b => b.run
  | done => pure ()
  | raise e => throw e
  | perform a next => do
    let r ← Frame.attempt a.run
    (next r).run

/-- Performs the actions in order and notes each reply; the first failure ends it. -/
def script : List Action → Handler
  | [] => done
  | a :: actions => perform a fun
    | .ok r => perform (.note r) fun _ => script actions
    | .error e => raise e

end Handler

/-! ## Calls -/

namespace Signature

/-- The first declared parameter whose kind is not that of its argument. -/
def mismatch? : List Kind → List Value → Option Fault
  | k :: ks, v :: vs => if v.kind = k then mismatch? ks vs else some (.typeMismatch .call k v.kind)
  | _, _ => none

/-- The arguments are on the stack and of the declared kinds. A receiver may be of any kind. -/
def checkArguments (s : Signature) : FrameM Unit := fun f =>
  if f.stack.depth < s.arity then .error (.underflow s.arity f.stack.depth) f
  else match mismatch? s.params (f.stack.topmost s.params.length).toList with
    | some e => .error e f
    | none => .ok () f

def checkResult (s : Signature) (before : Nat) : FrameM Unit := do
  let actual ← Frame.depth
  let expected := before - s.arity + s.results
  if actual ≠ expected then throw (.plugEffect expected actual)
  match s.returns with
  | none => pure ()
  | some k =>
    let v ← Frame.peek
    if v.kind ≠ k then throw (.typeMismatch .call k v.kind)

def invoke (s : Signature) (h : Handler) : FrameM Unit := do
  s.checkArguments
  let before ← Frame.depth
  h.run
  s.checkResult before

end Signature

end StackVm
