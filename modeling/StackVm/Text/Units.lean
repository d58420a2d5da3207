/-! # UTF-16 code units of a text -/

namespace StackVm

/-- One unit for a character of the basic plane, a surrogate pair for any other. -/
def charUnits (c : Char) : List UInt16 :=
  let n := c.toNat
  if n < 0x10000 then [n.toUInt16]
  else [(0xD800 + (n - 0x10000) / 0x400).toUInt16, (0xDC00 + (n - 0x10000) % 0x400).toUInt16]

def units (text : String) : List UInt16 := text.toList.flatMap charUnits

/-- The characters that the units spell; none if a surrogate stands alone. -/
def charsOfUnits? : List UInt16 → Option (List Char)
  | [] => some []
  | u :: rest =>
    if u < 0xD800 || 0xE000 ≤ u then (charsOfUnits? rest).map (Char.ofNat u.toNat :: ·)
    else match rest with
      | [] => none
      | v :: rest =>
        if u < 0xDC00 && 0xDC00 ≤ v && v < 0xE000 then
          let c := Char.ofNat (0x10000 + (u.toNat - 0xD800) * 0x400 + (v.toNat - 0xDC00))
          (charsOfUnits? rest).map (c :: ·)
        else none

def ofUnits? (us : List UInt16) : Option String := (charsOfUnits? us).map String.ofList

end StackVm
