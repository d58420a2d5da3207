/-! # The console -/

namespace StackVm

/-- The bytes written so far, how many it takes in all (none means any number), and what it says
when it cannot take them. -/
structure Console where
  written : Array UInt8
  capacity : Option Nat
  failure : String

namespace Console

def ofCapacity (capacity : Option Nat) : Console := ⟨#[], capacity, "sink full"⟩

/-- Stores the bytes that still fit, and tells whether all of them did. -/
def write (bytes : Array UInt8) (c : Console) : Bool × Console :=
  match c.capacity with
  | none => (true, { c with written := c.written ++ bytes })
  | some capacity =>
    let room := capacity - c.written.size
    (bytes.size ≤ room, { c with written := c.written ++ bytes.extract 0 room })

def writeText (text : String) (c : Console) : Bool × Console := c.write text.toUTF8.data

end Console

end StackVm
