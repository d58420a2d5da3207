import StackVm.Decimal
import StackVm.Opcode

/-! # Instructions

What an encoded instruction means, whichever of its encodings was used. -/

namespace StackVm

/-- A float constant is kept as its 64 bits, so that two encodings of NaN stay apart. -/
inductive Instruction where
  | nop
  | ldloc (index : UInt8)
  | stloc (index : UInt8)
  | ldloca (index : UInt8)
  | ldcI4 (value : Int32)
  | ldcR8 (bits : UInt64)
  | call (token : UInt32)
  | ret
  | br (offset : Int32)
  | brfalse (offset : Int32)
  | brtrue (offset : Int32)
  | add | div | rem | convR8
  | ldstr (token : UInt16)
  | ceq | cgt | clt
  deriving DecidableEq

/-- Floats are written positionally from 0.0001 up to below 10^16. -/
def floatLayout : Decimal.Layout := ⟨-4, 16, "NaN", "inf"⟩

def floatText (x : Float) : String := floatLayout.float x

namespace Instruction

def mnemonic : Instruction → String
  | nop => "nop"
  | ldloc _ => "ldloc"
  | stloc _ => "stloc"
  | ldloca _ => "ldloca"
  | ldcI4 _ => "ldc.i4"
  | ldcR8 _ => "ldc.r8"
  | call _ => "call"
  | ret => "ret"
  | br _ => "br"
  | brfalse _ => "brfalse"
  | brtrue _ => "brtrue"
  | add => "add"
  | div => "div"
  | rem => "rem"
  | convR8 => "conv.r8"
  | ldstr _ => "ldstr"
  | ceq => "ceq"
  | cgt => "cgt"
  | clt => "clt"

def operandText? : Instruction → Option String
  | ldloc i | stloc i | ldloca i => some i.toNat.repr
  | ldcI4 v => some (decimal v.toInt)
  | ldcR8 bits => some (floatText (Float.ofBits bits))
  | call token => some (hexName 8 token.toNat)
  | br d | brfalse d | brtrue d => some (signed d.toInt)
  | ldstr token => some ("#" ++ hexName 4 token.toNat)
  | nop | ret | add | div | rem | convR8 | ceq | cgt | clt => none

def line (mnemonic : String) : Option String → String
  | some operand => mnemonic ++ " " ++ operand
  | none => mnemonic

def text (i : Instruction) : String := line i.mnemonic i.operandText?

/-- The displacement of a branch, counted from the end of the instruction. -/
def branchOffset? : Instruction → Option Int32
  | br d | brfalse d | brtrue d => some d
  | _ => none

end Instruction

structure Listing where
  opcode : Opcode
  instruction : Instruction
  deriving DecidableEq

/-- The opcode's own mnemonic; an operand is shown only if one was encoded. -/
def Listing.text (l : Listing) : String :=
  Instruction.line l.opcode.mnemonic
    (if l.opcode.operandSize = 0 then none else l.instruction.operandText?)

end StackVm
