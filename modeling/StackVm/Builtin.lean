import StackVm.Frame
import StackVm.Text.Units

/-! # Built-in plugs -/

namespace StackVm

inductive Builtin where
  | writeLineString | writeLineInt32 | writeLine | writeString | writeInt32
  | sqrt | length | concat
  deriving DecidableEq

namespace Builtin

def all : List Builtin :=
  [writeLineString, writeLineInt32, writeLine, writeString, writeInt32, sqrt, length, concat]

def signature : Builtin → Signature
  | writeLineString => ⟨"System.Console", "WriteLine", none, [.string], false⟩
  | writeLineInt32 => ⟨"System.Console", "WriteLine", none, [.int32], false⟩
  | writeLine => ⟨"System.Console", "WriteLine", none, [], false⟩
  | writeString => ⟨"System.Console", "Write", none, [.string], false⟩
  | writeInt32 => ⟨"System.Console", "Write", none, [.int32], false⟩
  | sqrt => ⟨"System.Math", "Sqrt", some .float, [.float], false⟩
  | length => ⟨"System.String", "get_Length", some .int32, [], true⟩
  | concat => ⟨"System.String", "Concat", some .string, [.string, .string], false⟩

def ofSignature? (s : Signature) : Option Builtin := all.find? (·.signature == s)

def write (text : String) : FrameM Unit := Frame.print "console write failed: " text

def run : Builtin → FrameM Unit
  | writeLineString => do
    let text ← Frame.popString
    write (text ++ "\n")
  | writeLineInt32 => do
    let n ← Frame.popInt32
    write (decimal n.toInt ++ "\n")
  | writeLine => write "\n"
  | writeString => do
    let text ← Frame.popString
    write text
  | writeInt32 => do
    let n ← Frame.popInt32
    write (decimal n.toInt)
  | sqrt => do
    let x ← Frame.popFloat
    Frame.push (.float x.sqrt)
  | length => do
    let text ← Frame.popString
    let n := (units text).length
    if n < 0x80000000 then Frame.push (.int32 (Int32.ofNat n))
    else throw (.plug "string length overflows int32")
  | concat => do
    let second ← Frame.popString
    let first ← Frame.popString
    Frame.pushString (first ++ second)

end Builtin

end StackVm
