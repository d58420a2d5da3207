/-! # Written numbers

Decimal, always-signed decimal and zero-padded hexadecimal text. -/

namespace StackVm

def decimal : Int → String
  | .ofNat n => n.repr
  | .negSucc n => "-" ++ (n + 1).repr

/-- Decimal with its sign written out, `+` for zero too. -/
def signed : Int → String
  | .ofNat n => "+" ++ n.repr
  | .negSucc n => "-" ++ (n + 1).repr

def hex (width n : Nat) : String :=
  let digits := Nat.toDigits 16 n
  String.ofList (List.replicate (width - digits.length) '0' ++ digits)

/-- A token or opcode as it is named in messages: `0x` and at least `width` digits. -/
def hexName (width n : Nat) : String := "0x" ++ hex width n

/-- The 64-bit two's-complement reading of `n`: a set bit 63 counts negatively. -/
def signed64 (n : Nat) : Int := if n.testBit 63 then (n : Int) - 0x10000000000000000 else n

def word64 (i : Int) : Nat := (i % 0x10000000000000000).toNat

end StackVm
