import StackVm.Dump
import StackVm.Session

/-! # The journal: what a session says about its work

Records are told from a command and the session it is given to; keeping them changes nothing. -/

namespace StackVm

inductive Level where
  | off | error | warn | info | debug | trace
  deriving DecidableEq

namespace Level

def all : List Level := [off, error, warn, info, debug, trace]

def name : Level → String
  | off => "OFF"
  | error => "ERROR"
  | warn => "WARN"
  | info => "INFO"
  | debug => "DEBUG"
  | trace => "TRACE"

/-- Names are read without regard to case. -/
def ofName? (name : String) : Option Level := all.find? (·.name == name.toUpper)

end Level

structure Record where
  level : Level
  target : String
  message : String
  deriving DecidableEq

namespace Record

def interpreter (level : Level) (message : String) : Record :=
  ⟨level, "ilvm::interpreter", message⟩

def plugs (message : String) : Record := ⟨.debug, "ilvm::plugs", message⟩

end Record

structure Fetched where
  offset : Nat
  instruction : Instruction
  depth : Nat

def Fetched.text (f : Fetched) : String :=
  hex 4 f.offset ++ ": " ++ f.instruction.text ++ " (depth " ++ f.depth.repr ++ ")"

/-- Appends to `acc` the instructions that a run fetches. -/
def Machine.fetches (rules : Rules) : Nat → Machine → Array Fetched → Array Fetched
  | 0, _, acc => acc
  | fuel + 1, m, acc =>
    match Machine.fetch rules m with
    | .error _ _ => acc
    | .ok (offset, i) m =>
      let acc := acc.push ⟨offset, i, m.frame.stack.depth⟩
      match Machine.execute rules offset i m with
      | .ok .next m => fetches rules fuel m acc
      | _ => acc

namespace Journal

def loading (m : Method) : Record :=
  .interpreter .debug ("loading method: " ++ m.code.size.repr ++ " byte(s), max stack " ++
    m.maxStack.toNat.repr ++ ", " ++ m.localCount.toNat.repr ++ " local(s)")

/-- Told once, when an open registry is sealed. -/
def sealing (r : Registry) : List Record :=
  if r.isSealed then []
  else [.plugs ("sealing plug registry with " ++ r.size.repr ++ " plug(s)")]

def ended (r : Except Fault (Option Value)) (executed : Nat) : Record :=
  .interpreter .debug (match r with
    | .ok v =>
      "halted after " ++ executed.repr ++ " instruction(s) with " ++ Dump.option Value.dump v
    | .error e => "faulted after " ++ executed.repr ++ " instruction(s): " ++ e.message)

def running (fuel : Nat) (level : Level) (s : Session) : List Record :=
  match s.interpreter.runnable? with
  | none => []
  | some p =>
    let i := s.interpreter
    let rules : Rules := ⟨s.registry.toSealed, i.limit⟩
    let fetched :=
      if level = .trace then Machine.fetches rules fuel (i.machine p s.host) #[] else #[]
    let ending :=
      match s.run fuel with
      | some (r, s) => [ended r s.interpreter.executed]
      | none => []
    sealing s.registry ++ fetched.toList.map (fun f => .interpreter .trace f.text) ++ ending

/-- What a command given to a session tells at level `debug` or `trace`; at other levels there is
nothing to tell. -/
def records (fuel : Nat) (level : Level) (c : Command) (s : Session) : List Record :=
  if level ≠ .debug ∧ level ≠ .trace then []
  else match c with
    | .load m _ => [loading m]
    | .loadPrimality n _ => [loading (Sample.primality n)]
    | .loadHello text =>
      match Sample.hello text with
      | .ok p => [loading p.method]
      | .error _ => []
    | .reload =>
      match s.interpreter.program with
      | some p => [loading p.method]
      | none => []
    | .run => running fuel level s
    | .register sig h =>
      match Registry.register sig h s.registry with
      | .ok _ _ => [.plugs ("registered plug " ++ sig.text)]
      | .error _ _ => []
    | .sealPlugs => sealing s.registry
    | .resolveString _ | .lookup _ | .use _ => []

end Journal

end StackVm
