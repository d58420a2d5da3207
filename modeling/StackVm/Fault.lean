import StackVm.Decode
import StackVm.Signature

/-! # Faults: why a run stops without `ret` -/

namespace StackVm

inductive Fault where
  | overflow (capacity : Nat)
  | underflow (needed depth : Nat)
  | plugEffect (expected actual : Nat)
  | indexOutOfRange (index len : Nat)
  | typeMismatch (op : Operation) (left right : Kind)
  | invalidOperand (op : Operation) (kind : Kind)
  | decode (error : DecodeError)
  | branchOutOfBounds (offset : Nat) (target : Int)
  | endOfCode
  | unsupportedBlob (token : UInt16) (length : UInt8)
  | malformedString (token : UInt16)
  | unknownString (token : UInt16)
  | invalidHandle (handle : Nat)
  | unresolvedCall (token : UInt32) (signature : Option Signature)
  | managedCall (token : UInt32)
  | divideByZero
  | limitExceeded (limit : Nat)
  | noProgram
  | plug (message : String)
  deriving DecidableEq

namespace Fault

def message : Fault → String
  | overflow c => "stack imbalance: push onto a full stack of " ++ c.repr
  | underflow needed depth =>
    "stack imbalance: needed " ++ needed.repr ++ " value(s) but the stack holds " ++ depth.repr
  | plugEffect expected actual =>
    "stack imbalance: plug left depth " ++ actual.repr ++ ", expected " ++ expected.repr
  | indexOutOfRange i len =>
    "local index " ++ i.repr ++ " out of range for a bank of " ++ len.repr
  | typeMismatch op l r => "type mismatch in " ++ op.name ++ ": " ++ l.name ++ " and " ++ r.name
  | invalidOperand op k => op.name ++ " is not defined for " ++ k.name
  | decode e => e.message
  | branchOutOfBounds offset target =>
    "branch at offset " ++ offset.repr ++ " targets " ++ decimal target ++ ", outside the method"
  | endOfCode => "execution ran past the end of the method without ret"
  | unsupportedBlob token length =>
    "user string " ++ hexName 4 token.toNat ++ " uses unsupported blob length byte " ++
      hexName 2 length.toNat
  | malformedString token => "user string " ++ hexName 4 token.toNat ++ " is malformed"
  | unknownString token => "unknown user string token " ++ hexName 4 token.toNat
  | invalidHandle h => "invalid string handle " ++ h.repr
  | unresolvedCall token signature =>
    "unresolved external call " ++ hexName 8 token.toNat ++ ": " ++
      (match signature with | some s => s.text | none => "token does not resolve")
  | managedCall token =>
    "call " ++ hexName 8 token.toNat ++
      " targets a managed method body, which cannot be interpreted"
  | divideByZero => "integer division by zero"
  | limitExceeded limit => "instruction limit of " ++ limit.repr ++ " exceeded"
  | noProgram => "no program loaded"
  | plug message => "plug failed: " ++ message

end Fault

end StackVm
