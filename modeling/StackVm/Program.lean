import StackVm.Image

/-! # Programs: a method, the image its tokens refer to, and a program counter -/

namespace StackVm

structure Program where
  method : Method
  image : Image
  pc : Nat

namespace Program

def ofMethod (method : Method) (image : Image) : Program := ⟨method, image, 0⟩

def reset (p : Program) : Program := { p with pc := 0 }

def fetch : EStateM Fault Program (Nat × Instruction) := fun p =>
  if p.method.code.size ≤ p.pc then .error .endOfCode p
  else match decodeAt p.method.code p.pc with
    | .ok (i, next) => .ok (p.pc, i) { p with pc := next }
    | .error e => .error (.decode e) p

/-- Moves the program counter by `offset`. The end of the code is still a target; `origin` is the
branch's own offset. -/
def branch (origin : Nat) (offset : Int32) : EStateM Fault Program Unit := fun p =>
  let target := (p.pc : Int) + offset.toInt
  if 0 ≤ target ∧ target ≤ p.method.code.size then .ok () { p with pc := target.toNat }
  else .error (.branchOutOfBounds origin target) p

end Program

end StackVm
