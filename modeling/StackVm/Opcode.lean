/-! # Opcodes

Each opcode has a code of one or two bytes, a mnemonic and a list of operand fields. -/

namespace StackVm

inductive Opcode where
  | nop
  | ldloc0 | ldloc1 | ldloc2 | ldloc3
  | stloc0 | stloc1 | stloc2 | stloc3
  | ldlocS | ldlocaS | stlocS
  | ldcI40 | ldcI41 | ldcI42 | ldcI43 | ldcI44 | ldcI45 | ldcI46 | ldcI47 | ldcI48
  | ldcI4S | ldcI4 | ldcR8
  | call | ret
  | brS | brfalseS | brtrueS | brtrue
  | add | div | rem | convR8
  | ldstr
  | ceq | cgt | clt
  deriving DecidableEq

namespace Opcode

def escape : UInt8 := 0xFE

def code : Opcode → UInt16
  | nop => 0x00
  | ldloc0 => 0x06
  | ldloc1 => 0x07
  | ldloc2 => 0x08
  | ldloc3 => 0x09
  | stloc0 => 0x0A
  | stloc1 => 0x0B
  | stloc2 => 0x0C
  | stloc3 => 0x0D
  | ldlocS => 0x11
  | ldlocaS => 0x12
  | stlocS => 0x13
  | ldcI40 => 0x16
  | ldcI41 => 0x17
  | ldcI42 => 0x18
  | ldcI43 => 0x19
  | ldcI44 => 0x1A
  | ldcI45 => 0x1B
  | ldcI46 => 0x1C
  | ldcI47 => 0x1D
  | ldcI48 => 0x1E
  | ldcI4S => 0x1F
  | ldcI4 => 0x20
  | ldcR8 => 0x23
  | call => 0x28
  | ret => 0x2A
  | brS => 0x2B
  | brfalseS => 0x2C
  | brtrueS => 0x2D
  | brtrue => 0x3A
  | add => 0x58
  | div => 0x5B
  | rem => 0x5D
  | convR8 => 0x6C
  | ldstr => 0x72
  | ceq => 0xFE01
  | cgt => 0xFE02
  | clt => 0xFE04

def ofCode? : UInt16 → Option Opcode
  | 0x00 => some nop
  | 0x06 => some ldloc0
  | 0x07 => some ldloc1
  | 0x08 => some ldloc2
  | 0x09 => some ldloc3
  | 0x0A => some stloc0
  | 0x0B => some stloc1
  | 0x0C => some stloc2
  | 0x0D => some stloc3
  | 0x11 => some ldlocS
  | 0x12 => some ldlocaS
  | 0x13 => some stlocS
  | 0x16 => some ldcI40
  | 0x17 => some ldcI41
  | 0x18 => some ldcI42
  | 0x19 => some ldcI43
  | 0x1A => some ldcI44
  | 0x1B => some ldcI45
  | 0x1C => some ldcI46
  | 0x1D => some ldcI47
  | 0x1E => some ldcI48
  | 0x1F => some ldcI4S
  | 0x20 => some ldcI4
  | 0x23 => some ldcR8
  | 0x28 => some call
  | 0x2A => some ret
  | 0x2B => some brS
  | 0x2C => some brfalseS
  | 0x2D => some brtrueS
  | 0x3A => some brtrue
  | 0x58 => some add
  | 0x5B => some div
  | 0x5D => some rem
  | 0x6C => some convR8
  | 0x72 => some ldstr
  | 0xFE01 => some ceq
  | 0xFE02 => some cgt
  | 0xFE04 => some clt
  | _ => none

def mnemonic : Opcode → String
  | nop => "nop"
  | ldloc0 => "ldloc.0"
  | ldloc1 => "ldloc.1"
  | ldloc2 => "ldloc.2"
  | ldloc3 => "ldloc.3"
  | stloc0 => "stloc.0"
  | stloc1 => "stloc.1"
  | stloc2 => "stloc.2"
  | stloc3 => "stloc.3"
  | ldlocS => "ldloc.s"
  | ldlocaS => "ldloca.s"
  | stlocS => "stloc.s"
  | ldcI40 => "ldc.i4.0"
  | ldcI41 => "ldc.i4.1"
  | ldcI42 => "ldc.i4.2"
  | ldcI43 => "ldc.i4.3"
  | ldcI44 => "ldc.i4.4"
  | ldcI45 => "ldc.i4.5"
  | ldcI46 => "ldc.i4.6"
  | ldcI47 => "ldc.i4.7"
  | ldcI48 => "ldc.i4.8"
  | ldcI4S => "ldc.i4.s"
  | ldcI4 => "ldc.i4"
  | ldcR8 => "ldc.r8"
  | call => "call"
  | ret => "ret"
  | brS => "br.s"
  | brfalseS => "brfalse.s"
  | brtrueS => "brtrue.s"
  | brtrue => "brtrue"
  | add => "add"
  | div => "div"
  | rem => "rem"
  | convR8 => "conv.r8"
  | ldstr => "ldstr"
  | ceq => "ceq"
  | cgt => "cgt"
  | clt => "clt"

def operandSize : Opcode → Nat
  | ldlocS | ldlocaS | stlocS | ldcI4S | brS | brfalseS | brtrueS => 1
  | ldcI4 | call | brtrue | ldstr => 4
  | ldcR8 => 8
  | _ => 0

/-- The widths in bytes of the operand's fields, in order. `ldstr` has two: the string token and
a table tag that nothing reads. -/
def fields : Opcode → List Nat
  | ldlocS | ldlocaS | stlocS | ldcI4S | brS | brfalseS | brtrueS => [1]
  | ldcI4 | call | brtrue => [4]
  | ldcR8 => [8]
  | ldstr => [2, 2]
  | _ => []


def isExtended (op : Opcode) : Bool := (op.code >>> 8).toUInt8 == escape

def encode (op : Opcode) : List UInt8 :=
  if op.isExtended then [escape, op.code.toUInt8] else [op.code.toUInt8]

end Opcode

end StackVm
