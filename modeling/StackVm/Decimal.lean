import StackVm.Binary64
import StackVm.Text.Numeral

/-! # Shortest decimals

`shortest` finds the fewest decimal digits that read back as a given double, and of those the
nearest; `Layout` says how digits and exponent are written. -/

namespace StackVm

structure Decimal where
  digits : Nat
  exponent : Int
  deriving DecidableEq

namespace Decimal

/-- A positive double together with the reals that round to it, over one denominator. -/
structure Cell where
  value : Nat
  low : Nat
  high : Nat
  denom : Nat
  /-- Whether the two ends round to the double as well. -/
  closed : Bool

/-- Half a unit to both sides, except that the gap below a power of two is half as wide. -/
def cellOf (b : Binary64) : Cell :=
  let narrow := b.significand = Binary64.leadingBit ∧ Binary64.leastExponent < b.exponent
  let shift := (b.exponent - 2).toNat
  { value := (4 * b.significand) <<< shift
    low := (4 * b.significand - if narrow then 1 else 2) <<< shift
    high := (4 * b.significand + 2) <<< shift
    denom := 1 <<< (2 - b.exponent).toNat
    closed := b.significand % 2 = 0 }

/-- The power of ten of the first digit. Doubles are above `10 ^ -340`. -/
def Cell.magnitude (c : Cell) : Int :=
  ((Nat.toDigits 10 (c.value * Nat.pow 10 340 / c.denom)).length : Int) - 341

/-- Of the two multiples of `10 ^ p` around the value, the nearer one inside the cell; a tie goes
to the greater. -/
def Cell.onGrid? (c : Cell) (p : Int) : Option Decimal :=
  let step := c.denom * Nat.pow 10 p.toNat
  let scale := Nat.pow 10 (-p).toNat
  let value := c.value * scale
  let inside (k : Nat) : Bool :=
    let x := k * step
    if c.closed then c.low * scale ≤ x && x ≤ c.high * scale
    else c.low * scale < x && x < c.high * scale
  let down := value / step
  let up := down + 1
  let nearerDown := 2 * (value % step) < step
  if inside down && (nearerDown || !inside up) then some ⟨down, p⟩
  else if inside up then some ⟨up, p⟩
  else none

def trim (d : Decimal) : Nat → Decimal
  | 0 => d
  | n + 1 =>
    if d.digits % 10 = 0 ∧ d.digits ≠ 0 then trim ⟨d.digits / 10, d.exponent + 1⟩ n else d

/-- The fewest digits that read back as a positive double: seventeen always do. -/
def shortest (b : Binary64) : Decimal :=
  let c := cellOf b
  let e := c.magnitude
  match (List.range 17).findSome? fun (n : Nat) => c.onGrid? (e - n) with
  | some d => d.trim 17
  | none => ⟨0, 0⟩

/-- How a decimal is written: positionally from exponent `least` up to below `bound`, with at
least one digit after the point, else with an exponent mark. -/
structure Layout where
  least : Int
  bound : Int
  nan : String
  infinity : String

def write (l : Layout) (d : Decimal) : String :=
  let ds := Nat.toDigits 10 d.digits
  let e := d.exponent + (ds.length - 1 : Nat)
  if l.least ≤ e && e < l.bound then
    if 0 ≤ d.exponent then
      String.ofList (ds ++ List.replicate d.exponent.toNat '0') ++ ".0"
    else
      let places := (-d.exponent).toNat
      let ds := List.replicate (places + 1 - ds.length) '0' ++ ds
      String.ofList (ds.take (ds.length - places)) ++ "." ++
        String.ofList (ds.drop (ds.length - places))
  else
    let fraction := ds.drop 1
    String.ofList (ds.take 1) ++ (if fraction = [] then "" else "." ++ String.ofList fraction) ++
      "e" ++ decimal e

/-- The text of a double under a layout; a zero keeps its sign, NaN has none. -/
def Layout.float (l : Layout) (x : Float) : String :=
  if x.isNaN then l.nan
  else
    let b := Binary64.unpack x
    (if b.negative then "-" else "") ++
      if x.isInf then l.infinity
      else if b.significand = 0 then write l ⟨0, 0⟩
      else write l (shortest b)

end Decimal

end StackVm
