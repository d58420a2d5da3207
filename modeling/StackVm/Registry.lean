import Std.Data.HashMap
import StackVm.Plug

/-! # The plug registry -/

namespace StackVm

inductive RegistryError where
  | duplicate (s : Signature)
  | afterSeal (s : Signature)
  deriving DecidableEq

def RegistryError.message : RegistryError → String
  | duplicate s => "a plug is already registered for " ++ s.text
  | afterSeal s => "the plug registry is sealed, cannot register " ++ s.text

/-- Handlers by signature; a sealed registry takes no more. -/
structure Registry where
  plugs : Std.HashMap Signature Handler
  isSealed : Bool

namespace Registry

def empty : Registry := ⟨∅, false⟩

def builtins : Registry :=
  ⟨Builtin.all.foldl (fun plugs b => plugs.insert b.signature (.builtin b)) ∅, false⟩

def size (r : Registry) : Nat := r.plugs.size

def lookup? (r : Registry) (s : Signature) : Option Handler := r.plugs[s]?

def register (s : Signature) (h : Handler) : EStateM RegistryError Registry Unit := fun r =>
  if r.isSealed then .error (.afterSeal s) r
  else if r.plugs.contains s then .error (.duplicate s) r
  else .ok () { r with plugs := r.plugs.insert s h }

def toSealed (r : Registry) : Registry := { r with isSealed := true }

end Registry

end StackVm
