import StackVm.Interpreter
import StackVm.Sample

/-! # Sessions: interpreters that share a registry and a console -/

namespace StackVm

structure Session where
  registry : Registry
  host : Host
  interpreters : Array Interpreter
  current : Nat

/-- One thing to do in a session; what concerns an interpreter concerns the current one. -/
inductive Command where
  | load (m : Method) (image : Image)
  | loadPrimality (candidate : UInt8) (image : Image)
  | loadHello (text : String)
  | reload
  | run
  | resolveString (v : Value)
  | register (s : Signature) (h : Handler)
  | lookup (s : Signature)
  | sealPlugs
  | use (interpreter : Nat)

inductive Answer where
  | done
  | flag (b : Bool)
  | text (t : Option String)
  | loaded (r : Except ImageError Unit)
  | registered (r : Except RegistryError Unit)
  | ran (r : Except Fault (Option Value))

namespace Session

/-- `n` fresh interpreters, of which number 0 is current. -/
def start (registry : Registry) (capacity limit : Option Nat) (n : Nat) : Session :=
  ⟨registry, ⟨.ofCapacity capacity, #[]⟩, Array.replicate n (.ofLimit limit), 0⟩

def interpreter (s : Session) : Interpreter := s.interpreters.getD s.current (.ofLimit none)

def update (s : Session) (i : Interpreter) : Session :=
  { s with interpreters := s.interpreters.setIfInBounds s.current i }

def load (s : Session) (p : Program) : Session := s.update (s.interpreter.load p)

/-- Runs the current interpreter. If it has something to run, the registry is sealed first. -/
def run (fuel : Nat) (s : Session) : Option (Except Fault (Option Value) × Session) :=
  let i := s.interpreter
  let registry := if i.runnable?.isSome then s.registry.toSealed else s.registry
  match i.run fuel registry s.host with
  | none => none
  | some (r, i, host) => some (r, { s.update i with registry, host })

/-- Performs a command; none if a run does not end within `fuel` steps. -/
def perform (fuel : Nat) (c : Command) (s : Session) : Option (Answer × Session) :=
  match c with
  | .load m image => some (.done, s.load (.ofMethod m image))
  | .loadPrimality n image => some (.done, s.load (.ofMethod (Sample.primality n) image))
  | .loadHello text =>
    match Sample.hello text with
    | .ok p => some (.loaded (.ok ()), s.load p)
    | .error e => some (.loaded (.error e), s)
  | .reload =>
    match s.interpreter.program with
    | some p => some (.flag true, s.load p)
    | none => some (.flag false, s)
  | .run => (s.run fuel).map fun (r, s) => (.ran r, s)
  | .resolveString v => some (.text (s.interpreter.resolveString v), s)
  | .register sig h =>
    match Registry.register sig h s.registry with
    | .ok _ registry => some (.registered (.ok ()), { s with registry })
    | .error e registry => some (.registered (.error e), { s with registry })
  | .lookup sig => some (.flag (s.registry.lookup? sig).isSome, s)
  | .sealPlugs => some (.done, { s with registry := s.registry.toSealed })
  | .use n => some (.done, { s with current := n })

end Session

end StackVm
