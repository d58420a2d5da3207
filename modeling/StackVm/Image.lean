import StackVm.UserString

/-! # Metadata images

An image holds a heap of user strings and two tables of methods: references to external ones by
signature and definitions with a body. Tokens name what was added. -/

namespace StackVm

structure Method where
  code : Code
  maxStack : UInt16
  localCount : UInt16
  deriving DecidableEq

inductive Target where
  | body (m : Method)
  | external (s : Signature)
  deriving DecidableEq

inductive ImageError where
  | stringTooLong (units : Nat)
  | heapFull
  deriving DecidableEq

def ImageError.message : ImageError → String
  | stringTooLong n =>
    "user string of " ++ n.repr ++ " UTF-16 units does not fit a single-byte blob length"
  | heapFull => "user string heap exceeds the 16-bit token range"

/-- `offsets` are the heap offsets where blobs begin, in ascending order. -/
structure Image where
  heap : Array UInt8
  offsets : Array UInt16
  refs : Array Signature
  defs : Array Method

namespace Image

/-- Offset 0 of the heap is taken, so that no string gets the token 0. -/
def empty : Image := ⟨#[0], #[], #[], #[]⟩

/-- Appends the bytes of a blob as they are; the token is their offset. -/
def addBlob (blob : List UInt8) : EStateM ImageError Image UInt16 := fun image =>
  if image.heap.size < 0x10000 then
    let token := image.heap.size.toUInt16
    .ok token { image with heap := image.heap.appendList blob, offsets := image.offsets.push token }
  else .error .heapFull image

def addString (text : String) : EStateM ImageError Image UInt16 := do
  let us := units text
  if us.length * 2 + 1 > UserString.maxLength then throw (.stringTooLong us.length)
  else addBlob (UserString.encode us)

/-- The table a token belongs to, in its top byte. -/
def refTable : UInt32 := 0x0A

def defTable : UInt32 := 0x06

/-- The low 24 bits of a token number the rows of its table from 1. -/
def rowMask : UInt32 := 0xFFFFFF

def tokenOf (table : UInt32) (row : Nat) : UInt32 := table <<< 24 ||| (row.toUInt32 &&& rowMask)

def addRef (image : Image) (s : Signature) : UInt32 × Image :=
  (tokenOf refTable (image.refs.size + 1), { image with refs := image.refs.push s })

def addDef (image : Image) (m : Method) : UInt32 × Image :=
  (tokenOf defTable (image.defs.size + 1), { image with defs := image.defs.push m })

/-- Whether `x` occurs between `lo` and `hi` in an ascending array, by halving the range. -/
def occursIn (xs : Array UInt16) (x : UInt16) (lo hi : Nat) : Bool :=
  if lo < hi then
    let mid := (lo + hi) / 2
    match xs[mid]? with
    | none => false
    | some y =>
      if y = x then true
      else if y < x then occursIn xs x (mid + 1) hi
      else occursIn xs x lo mid
  else false
termination_by hi - lo

/-- The heap from a blob's start on, if a blob begins at the token's offset. -/
def blobAt? (image : Image) (token : UInt16) : Option (Array UInt8) :=
  if occursIn image.offsets token 0 image.offsets.size then
    some (image.heap.extract token.toNat image.heap.size)
  else none

/-- The text that a string token names. A blob is no longer than its length byte and 127 bytes. -/
def userString (image : Image) (token : UInt16) : Except Fault String :=
  if occursIn image.offsets token 0 image.offsets.size then
    UserString.decode token
      (image.heap.extract token.toNat (token.toNat + UserString.maxLength + 1)).toList
  else .error (.unknownString token)

def resolve? (image : Image) (token : UInt32) : Option Target :=
  let row := (token &&& rowMask).toNat
  if row = 0 then none
  else if token >>> 24 = defTable then image.defs[row - 1]?.map .body
  else if token >>> 24 = refTable then image.refs[row - 1]?.map .external
  else none

end Image

end StackVm
