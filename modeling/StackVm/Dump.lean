import StackVm.Interpreter

/-! # Dumps: the full state of programs and interpreters as text -/

namespace StackVm

def Kind.tag : Kind → String
  | byte => "Byte"
  | int16 => "Int16"
  | int32 => "Int32"
  | int64 => "Int64"
  | float => "Float"
  | nativeInt => "NativeInt"
  | address => "Address"
  | transientPointer => "TransientPointer"
  | object => "Object"
  | string => "String"

def Value.payloadDump : Value → String
  | byte v => v.toNat.repr
  | int16 v => decimal v.toInt
  | int32 v => decimal v.toInt
  | int64 v | nativeInt v => decimal v.toInt
  | float v => floatText v
  | address n | transientPointer n | object n => n.repr
  | string h => "StringHandle(" ++ h.repr ++ ")"

def Value.dump (v : Value) : String := v.kind.tag ++ "(" ++ v.payloadDump ++ ")"

namespace Dump

def option {α : Type} (dump : α → String) : Option α → String
  | some a => "Some(" ++ dump a ++ ")"
  | none => "None"

def array {α : Type} (dump : α → String) (xs : Array α) : String :=
  "[" ++ String.intercalate ", " (xs.toList.map dump) ++ "]"

def record (name : String) (fields : List String) : String :=
  name ++ " \x7b " ++ String.intercalate ", " fields ++ " \x7d"

end Dump

def Method.dump (m : Method) : String :=
  Dump.record "MethodBody"
    [ "code: " ++ Dump.array (·.toNat.repr) m.code,
      "max_stack: " ++ m.maxStack.toNat.repr,
      "local_count: " ++ m.localCount.toNat.repr ]

def Program.dump (p : Program) : String :=
  Dump.record "Program" ["body: " ++ p.method.dump, "pc: " ++ p.pc.repr, ".."]

def Phase.tag : Phase → String
  | empty => "Empty"
  | ready => "Ready"
  | running => "Running"
  | halted => "Halted"
  | faulted => "Faulted"

def Interpreter.dump (i : Interpreter) : String :=
  Dump.record "Interpreter"
    [ "settings: " ++
        Dump.record "InterpreterSettings" ["max_instructions: " ++ Dump.option Nat.repr i.limit],
      "state: " ++ i.phase.tag,
      "program: " ++ Dump.option Program.dump i.program,
      "stack: " ++ Dump.array Value.dump i.stack.values,
      "locals: " ++ Dump.array Value.dump i.locals.slots,
      "strings: " ++ i.strings.size.repr,
      "executed: " ++ i.executed.repr,
      ".." ]

end StackVm
