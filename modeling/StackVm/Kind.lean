/-! # Value kinds and the operations that check them -/

namespace StackVm

inductive Kind where
  | byte | int16 | int32 | int64 | float | nativeInt
  | address | transientPointer | object | string
  deriving DecidableEq, Hashable

namespace Kind

def all : List Kind :=
  [byte, int16, int32, int64, float, nativeInt, address, transientPointer, object, string]

def name : Kind → String
  | byte => "byte"
  | int16 => "int16"
  | int32 => "int32"
  | int64 => "int64"
  | float => "float"
  | nativeInt => "native int"
  | address => "address"
  | transientPointer => "transient pointer"
  | object => "object"
  | string => "string"

def isNumeric : Kind → Bool
  | byte | int16 | int32 | int64 | float | nativeInt => true
  | address | transientPointer | object | string => false

end Kind

/-- What was being done when a kind did not fit. -/
inductive Operation where
  | add | div | rem | ceq | cgt | clt | call | brfalse | brtrue | plugArgument
  deriving DecidableEq

def Operation.name : Operation → String
  | add => "add"
  | div => "div"
  | rem => "rem"
  | ceq => "ceq"
  | cgt => "cgt"
  | clt => "clt"
  | call => "call"
  | brfalse => "brfalse"
  | brtrue => "brtrue"
  | plugArgument => "plug argument"

end StackVm
