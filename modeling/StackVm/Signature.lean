import StackVm.Kind

/-! # Method signatures -/

namespace StackVm

/-- Names an external method; two signatures agree only if all five fields do. An instance method
takes its receiver below the declared parameters, and no return kind means void. -/
structure Signature where
  owner : String
  name : String
  returns : Option Kind
  params : List Kind
  isInstance : Bool
  deriving DecidableEq, Hashable

namespace Signature

def arity (s : Signature) : Nat := s.params.length + s.isInstance.toNat

def results (s : Signature) : Nat := s.returns.isSome.toNat

def text (s : Signature) : String :=
  (if s.isInstance then "instance " else "") ++
    (match s.returns with | some k => k.name | none => "void") ++ " " ++
    s.owner ++ "::" ++ s.name ++ "(" ++ String.intercalate ", " (s.params.map Kind.name) ++ ")"

end Signature

end StackVm
