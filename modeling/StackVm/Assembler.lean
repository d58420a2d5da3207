import StackVm.Decode

/-! # Assembling code

An `Assembler` appends encoded instructions to a buffer. A forward branch leaves its displacement
zero and gets a label; binding the label writes the distance to the current end of the buffer. -/

namespace StackVm

/-- The `width` low bytes of `n`, the lowest first. -/
def bytesLE : Nat → Nat → List UInt8
  | 0, _ => []
  | width + 1, n => (n % 256).toUInt8 :: bytesLE width (n / 256)

def Opcode.encodeWith (op : Opcode) (operands : List Nat) : List UInt8 :=
  op.encode ++ (List.zipWith bytesLE op.fields operands).flatten

/-- Instructions other than branches. Those without a short name of their own take the shortest
encoding of their operand. -/
inductive Emission where
  | nop | ret | add | div | rem | convR8 | ceq | cgt | clt
  | ldloc (index : UInt8)
  | ldlocS (index : UInt8)
  | stloc (index : UInt8)
  | stlocS (index : UInt8)
  | ldlocaS (index : UInt8)
  | ldcI4 (value : Int32)
  | ldcI4S (value : UInt8)
  | ldcR8 (bits : UInt64)
  | call (token : UInt32)
  | ldstr (token : UInt16)
  deriving DecidableEq

namespace Emission

def loads : List Opcode := [.ldloc0, .ldloc1, .ldloc2, .ldloc3]

def stores : List Opcode := [.stloc0, .stloc1, .stloc2, .stloc3]

def constants : List Opcode :=
  [.ldcI40, .ldcI41, .ldcI42, .ldcI43, .ldcI44, .ldcI45, .ldcI46, .ldcI47, .ldcI48]

/-- The table tag that follows a string token. -/
def stringTag : Nat := 0x7000

/-- The one-byte opcode for `n` if there is one, else `op` with `n` as its operand. -/
def shorten (ops : List Opcode) (op : Opcode) (n : Nat) : Opcode × List Nat :=
  match ops[n]? with
  | some short => (short, [])
  | none => (op, [n])

def encoding : Emission → Opcode × List Nat
  | nop => (.nop, [])
  | ret => (.ret, [])
  | add => (.add, [])
  | div => (.div, [])
  | rem => (.rem, [])
  | convR8 => (.convR8, [])
  | ceq => (.ceq, [])
  | cgt => (.cgt, [])
  | clt => (.clt, [])
  | ldloc i => shorten loads .ldlocS i.toNat
  | ldlocS i => (.ldlocS, [i.toNat])
  | stloc i => shorten stores .stlocS i.toNat
  | stlocS i => (.stlocS, [i.toNat])
  | ldlocaS i => (.ldlocaS, [i.toNat])
  | ldcI4 v =>
    if v.toUInt32 < 256 then shorten constants .ldcI4S v.toUInt32.toNat
    else (.ldcI4, [v.toUInt32.toNat])
  | ldcI4S v => (.ldcI4S, [v.toNat])
  | ldcR8 bits => (.ldcR8, [bits.toNat])
  | call token => (.call, [token.toNat])
  | ldstr token => (.ldstr, [token.toNat, stringTag])

def bytes (e : Emission) : List UInt8 := e.encoding.1.encodeWith e.encoding.2

end Emission

/-- The four encoded branches; all but `brtrue` have a displacement of one byte. -/
inductive Branch where
  | brS | brfalseS | brtrueS | brtrue
  deriving DecidableEq

def Branch.opcode : Branch → Opcode
  | brS => .brS
  | brfalseS => .brfalseS
  | brtrueS => .brtrueS
  | brtrue => .brtrue

inductive RangeError where
  | short (offset : Int)
  | long (offset : Int)
  deriving DecidableEq

def RangeError.message : RangeError → String
  | short offset => "short branch offset " ++ decimal offset ++ " does not fit in i8"
  | long offset => "branch offset " ++ decimal offset ++ " does not fit in i32"

/-- A branch whose displacement can still be written: where its operand stands, how wide it is and
where the instruction ends. -/
structure Label where
  operand : Nat
  width : Nat
  base : Nat
  deriving DecidableEq

structure Assembler where
  bytes : Array UInt8
  labels : Array Label

namespace Assembler

def empty : Assembler := ⟨#[], #[]⟩

def offset (a : Assembler) : Nat := a.bytes.size

def append (a : Assembler) (bytes : List UInt8) : Assembler :=
  { a with bytes := a.bytes.appendList bytes }

def emit (a : Assembler) (e : Emission) : Assembler := a.append e.bytes

def overwrite (code : Array UInt8) (pos : Nat) : List UInt8 → Array UInt8
  | [] => code
  | b :: bs => overwrite (code.setIfInBounds pos b) (pos + 1) bs

def displacement (width : Nat) (offset : Int) : Except RangeError (List UInt8) :=
  if width = 1 then
    if -0x80 ≤ offset ∧ offset < 0x80 then .ok (bytesLE 1 (offset % 0x100).toNat)
    else .error (.short offset)
  else if -0x80000000 ≤ offset ∧ offset < 0x80000000 then
    .ok (bytesLE 4 (offset % 0x100000000).toNat)
  else .error (.long offset)

def patch (a : Assembler) (l : Label) (offset : Int) : Except RangeError Assembler :=
  match displacement l.width offset with
  | .ok bytes => .ok { a with bytes := overwrite a.bytes l.operand bytes }
  | .error e => .error e

/-- Appends a branch of displacement zero; the label tells where to write another. -/
def placeholder (a : Assembler) (b : Branch) : Label × Assembler :=
  let width := b.opcode.operandSize
  let operand := a.offset + b.opcode.encode.length
  (⟨operand, width, operand + width⟩, a.append (b.opcode.encodeWith [0]))

/-- A forward branch, numbered after those before it. -/
def branch (a : Assembler) (b : Branch) : Assembler :=
  match a.placeholder b with
  | (l, a) => { a with labels := a.labels.push l }

/-- Lets a forward branch lead to the current end. -/
def bind (a : Assembler) (k : Nat) : Except RangeError Assembler :=
  match a.labels[k]? with
  | some l => a.patch l ((a.offset : Int) - l.base)
  | none => .ok a

def branchBy (a : Assembler) (b : Branch) (offset : Int) : Except RangeError Assembler :=
  match a.placeholder b with
  | (l, a) => a.patch l offset

/-- A branch to an offset that is already known; the offset is read as a signed word. -/
def branchTo (a : Assembler) (b : Branch) (target : Nat) : Except RangeError Assembler :=
  match a.placeholder b with
  | (l, a) => a.patch l (signed64 target - l.base)

end Assembler

inductive Directive where
  | emit (e : Emission)
  | raw (bytes : List UInt8)
  | branch (b : Branch)
  | bind (label : Nat)
  | branchTo (b : Branch) (target : Nat)
  | branchBy (b : Branch) (offset : Int32)
  deriving DecidableEq

def Directive.run (d : Directive) (a : Assembler) : Except RangeError Assembler :=
  match d with
  | emit e => .ok (a.emit e)
  | raw bytes => .ok (a.append bytes)
  | branch b => .ok (a.branch b)
  | bind k => a.bind k
  | branchTo b target => a.branchTo b target
  | branchBy b offset => a.branchBy b offset.toInt

def assembleFrom (a : Assembler) : List Directive → Except RangeError Assembler
  | [] => .ok a
  | d :: ds =>
    match d.run a with
    | .ok a => assembleFrom a ds
    | .error e => .error e

def assemble (ds : List Directive) : Except RangeError Code :=
  (assembleFrom .empty ds).map (·.bytes)

end StackVm
