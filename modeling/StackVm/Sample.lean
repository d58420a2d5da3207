import StackVm.Assembler
import StackVm.Program

/-! # Two ready-made methods -/

namespace StackVm.Sample

open Directive Emission

def candidateOffset : Nat := 1

/-- Trial division: returns 1 if the candidate is prime, else 0. Local 0 holds the candidate and
local 1 the divisor; the labels lead, in order, to "composite", "prime" and "composite". -/
def primalityCode (candidate : UInt8) : Except RangeError Code := do
  let a ← assembleFrom .empty
    [ emit (ldcI4S candidate), emit (.stloc 0),
      emit (.ldloc 0), emit (.ldcI4 2), emit .clt, branch .brtrueS,
      emit (.ldcI4 2), emit (.stloc 1) ]
  let head := a.offset
  let a ← assembleFrom a
    [ emit (.ldloc 1), emit (.ldloc 0), emit .clt, branch .brfalseS,
      emit (.ldloc 0), emit (.ldloc 1), emit .rem, emit (.ldcI4 0), emit .ceq, branch .brtrueS,
      emit (.ldloc 1), emit (.ldcI4 1), emit .add, emit (.stloc 1), branchTo .brS head,
      bind 1, emit (.ldcI4 1), emit .ret,
      bind 0, bind 2, emit (.ldcI4 0), emit .ret ]
  pure a.bytes

/-- Every displacement of the primality code fits its byte, so there always is code. -/
def primality (candidate : UInt8) : Method :=
  ⟨(primalityCode candidate).toOption.getD #[], 2, 2⟩

def hello (text : String) : Except ImageError Program :=
  match Image.addString text .empty with
  | .error e _ => .error e
  | .ok token image =>
    let (writeLine, image) := image.addRef ⟨"System.Console", "WriteLine", none, [.string], false⟩
    let code := [Emission.ldstr token, .call writeLine, .ret].flatMap Emission.bytes
    .ok (.ofMethod ⟨code.toArray, 1, 0⟩ image)

end StackVm.Sample
