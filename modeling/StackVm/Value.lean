import StackVm.Fault

/-! # Values and their arithmetic

A value is a kind with its payload. Arithmetic and comparison take two values of one kind. -/

namespace StackVm

/-- `address` holds a local's index and `string` a handle of the string table. -/
inductive Value where
  | byte (v : UInt8)
  | int16 (v : Int16)
  | int32 (v : Int32)
  | int64 (v : Int64)
  | float (v : Float)
  | nativeInt (v : Int64)
  | address (index : Nat)
  | transientPointer (word : Nat)
  | object (word : Nat)
  | string (handle : Nat)
  deriving DecidableEq

namespace Value

/-- What a fresh local holds. -/
def zero : Value := int32 0

instance : Inhabited Value := ⟨zero⟩

def ofBool (b : Bool) : Value := int32 (if b then 1 else 0)

def kind : Value → Kind
  | byte _ => .byte
  | int16 _ => .int16
  | int32 _ => .int32
  | int64 _ => .int64
  | float _ => .float
  | nativeInt _ => .nativeInt
  | address _ => .address
  | transientPointer _ => .transientPointer
  | object _ => .object
  | string _ => .string

/-- The payload as a signed 64-bit integer; floats have none. -/
def integer? : Value → Option Int
  | byte v => some v.toNat
  | int16 v => some v.toInt
  | int32 v => some v.toInt
  | int64 v | nativeInt v => some v.toInt
  | float _ => none
  | address n | transientPointer n | object n | string n => some (signed64 n)

def float? : Value → Option Float
  | float v => some v
  | _ => none

def int32? : Value → Option Int32
  | int32 v => some v
  | _ => none

def handle? : Value → Option Nat
  | string h => some h
  | _ => none

def text : Value → String
  | byte v => v.toNat.repr ++ "u8"
  | int16 v => decimal v.toInt ++ "i16"
  | int32 v => decimal v.toInt
  | int64 v => decimal v.toInt ++ "i64"
  | float v => floatText v
  | nativeInt v => decimal v.toInt ++ "n"
  | address i => "&local" ++ i.repr
  | transientPointer n => "*" ++ hexName 1 n
  | object n => "object#" ++ n.repr
  | string h => "string#" ++ h.repr

/-- Kind and payload agree; floats are compared as numbers, so NaN differs from itself and the two
zeros are equal. -/
def same : Value → Value → Bool
  | float a, float b => a == b
  | a, b => a = b

def refuse (op : Operation) (a b : Value) : Fault :=
  if a.kind = b.kind then .invalidOperand op a.kind else .typeMismatch op a.kind b.kind

/-- Integers wrap around at the width of their kind. -/
def add : Value → Value → Except Fault Value
  | byte a, byte b => .ok (byte (a + b))
  | int16 a, int16 b => .ok (int16 (a + b))
  | int32 a, int32 b => .ok (int32 (a + b))
  | int64 a, int64 b => .ok (int64 (a + b))
  | float a, float b => .ok (float (a + b))
  | nativeInt a, nativeInt b => .ok (nativeInt (a + b))
  | a, b => .error (refuse .add a b)

/-- Integer quotients are cut toward zero; the least integer over -1 is itself. -/
def div : Value → Value → Except Fault Value
  | byte a, byte b => if b = 0 then .error .divideByZero else .ok (byte (a / b))
  | int16 a, int16 b => if b = 0 then .error .divideByZero else .ok (int16 (a / b))
  | int32 a, int32 b => if b = 0 then .error .divideByZero else .ok (int32 (a / b))
  | int64 a, int64 b => if b = 0 then .error .divideByZero else .ok (int64 (a / b))
  | float a, float b => .ok (float (a / b))
  | nativeInt a, nativeInt b => if b = 0 then .error .divideByZero else .ok (nativeInt (a / b))
  | a, b => .error (refuse .div a b)

/-- The remainder has the sign of the dividend. -/
def rem : Value → Value → Except Fault Value
  | byte a, byte b => if b = 0 then .error .divideByZero else .ok (byte (a % b))
  | int16 a, int16 b => if b = 0 then .error .divideByZero else .ok (int16 (a % b))
  | int32 a, int32 b => if b = 0 then .error .divideByZero else .ok (int32 (a % b))
  | int64 a, int64 b => if b = 0 then .error .divideByZero else .ok (int64 (a % b))
  | float a, float b => .ok (float (truncMod a b))
  | nativeInt a, nativeInt b => if b = 0 then .error .divideByZero else .ok (nativeInt (a % b))
  | a, b => .error (refuse .rem a b)

def orderFloat (a b : Float) : Option Ordering :=
  if a < b then some .lt else if b < a then some .gt else if a == b then some .eq else none

def compare (op : Operation) (a b : Value) : Except Fault (Option Ordering) :=
  if a.kind ≠ b.kind then .error (.typeMismatch op a.kind b.kind)
  else match a, b with
    | float x, float y => .ok (orderFloat x y)
    | _, _ =>
      .ok (match a.integer?, b.integer? with
        | some x, some y => some (Ord.compare x y)
        | _, _ => none)

def toFloat (v : Value) : Value :=
  match v.integer? with
  | some n => float (Int64.ofInt n).toFloat
  | none => v

end Value

end StackVm
