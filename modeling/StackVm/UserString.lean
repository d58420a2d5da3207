import StackVm.Fault
import StackVm.Text.Units

/-! # User-string blobs

A blob is a length byte below 128, the UTF-16 units of the text with the low byte first, and one
flag byte; the length counts all that follows it. -/

namespace StackVm

namespace UserString

def maxLength : Nat := 0x7F

/-- A unit whose high byte is not zero, or one of the low bytes that need special handling. -/
def isSpecial (u : UInt16) : Bool :=
  u > 0xFF || (0x01 ≤ u && u ≤ 0x08) || (0x0E ≤ u && u ≤ 0x1F) ||
    u == 0x27 || u == 0x2D || u == 0x7F

def flag (us : List UInt16) : UInt8 := if us.any isSpecial then 1 else 0

def unitBytes (us : List UInt16) : List UInt8 :=
  us.flatMap fun (u : UInt16) => [u.toUInt8, (u >>> 8).toUInt8]

def encode (us : List UInt16) : List UInt8 :=
  (us.length * 2 + 1).toUInt8 :: unitBytes us ++ [flag us]

def unitsOfBytes? : List UInt8 → Option (List UInt16)
  | [] => some []
  | [_] => none
  | low :: high :: rest =>
    (unitsOfBytes? rest).map ((low.toUInt16 ||| high.toUInt16 <<< 8) :: ·)

/-- Reads the text of a blob at the start of `bytes`; the token is only named in the fault. -/
def decode (token : UInt16) (bytes : List UInt8) : Except Fault String :=
  match bytes with
  | [] => .error (.malformedString token)
  | length :: rest =>
    if length ≥ 128 || length == 0 then .error (.unsupportedBlob token length)
    else if rest.length < length.toNat then .error (.malformedString token)
    else
      match (unitsOfBytes? (rest.take (length.toNat - 1))).bind ofUnits? with
      | some text => .ok text
      | none => .error (.malformedString token)

end UserString

end StackVm
