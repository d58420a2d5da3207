/-! # Doubles as sign, significand and exponent

`Binary64.unpack` reads a finite double as `± significand · 2 ^ exponent`, `Binary64.pack` writes
one back, and `truncMod` is the exact remainder of division built from the two. -/

namespace StackVm

/-- The finite double `± significand · 2 ^ exponent`. -/
structure Binary64 where
  negative : Bool
  significand : Nat
  exponent : Int
  deriving DecidableEq

namespace Binary64

/-- The exponent of subnormal doubles. -/
def leastExponent : Int := -1074

/-- The least significand of a normal double, `2 ^ 52`. -/
def leadingBit : Nat := 0x10000000000000

def unpack (x : Float) : Binary64 :=
  let bits := x.toBits.toNat
  let biased : Nat := bits / leadingBit % 0x800
  let fraction : Nat := bits % leadingBit
  { negative := bits.testBit 63
    significand := if biased = 0 then fraction else leadingBit + fraction
    exponent := if biased = 0 then leastExponent else (biased : Int) - 1075 }

/-- The double of this value, which must need no rounding and no exponent above the largest. -/
def pack (b : Binary64) : Float :=
  let top : Int := b.exponent + b.significand.log2 - 52
  let exponent := if b.significand = 0 then leastExponent else max top leastExponent
  let shift := b.exponent - exponent
  let significand :=
    if 0 ≤ shift then b.significand <<< shift.toNat else b.significand >>> (-shift).toNat
  let biased := if significand < leadingBit then 0 else (exponent + 1075).toNat
  let sign := if b.negative then 0x8000000000000000 else 0
  Float.ofBits (sign + biased * leadingBit + significand % leadingBit).toUInt64

end Binary64

/-- The remainder of `x / y` with the quotient cut toward zero: exact, with the sign of `x`.
There is none (NaN) for an infinite `x` or a zero `y`, and an infinite `y` leaves `x` as it is. -/
def truncMod (x y : Float) : Float :=
  if x.isNaN || y.isNaN || x.isInf || y == 0 then Float.ofBits 0x7FF8000000000000
  else if y.isInf then x
  else
    let a := Binary64.unpack x
    let b := Binary64.unpack y
    let e := min a.exponent b.exponent
    let r := (a.significand <<< (a.exponent - e).toNat) %
      (b.significand <<< (b.exponent - e).toNat)
    Binary64.pack ⟨a.negative, r, e⟩

end StackVm
