import StackVm.Value

/-! # The operand stack

A buffer of fixed size with a cursor. Popping only moves the cursor, so slots at and above `depth`
hold stale values that no operation reads. -/

namespace StackVm

structure OperandStack where
  slots : Array Value
  depth : Nat

namespace OperandStack

def ofCapacity (n : Nat) : OperandStack := ⟨Array.replicate n .zero, 0⟩

def capacity (s : OperandStack) : Nat := s.slots.size

/-- The values in use, bottom first. -/
def values (s : OperandStack) : Array Value := s.slots.extract 0 s.depth

/-- The topmost `n` values in use, or all if there are fewer, bottom first. -/
def topmost (s : OperandStack) (n : Nat) : Array Value := s.slots.extract (s.depth - n) s.depth

/-- The value `n` below the top of a stack deeper than that. -/
def nth (s : OperandStack) (n : Nat) : Value := s.slots.getD (s.depth - 1 - n) .zero

def push (v : Value) : EStateM Fault OperandStack Unit := fun ⟨slots, depth⟩ =>
  if h : depth < slots.size then .ok () ⟨slots.set depth v h, depth + 1⟩
  else .error (.overflow slots.size) ⟨slots, depth⟩

def pop : EStateM Fault OperandStack Value := fun s =>
  if s.depth = 0 then .error (.underflow 1 0) s
  else .ok (s.nth 0) { s with depth := s.depth - 1 }

/-- The second value and the top one, in the order a binary operator takes them. -/
def pop2 : EStateM Fault OperandStack (Value × Value) := fun s =>
  if s.depth < 2 then .error (.underflow 2 s.depth) s
  else .ok (s.nth 1, s.nth 0) { s with depth := s.depth - 2 }

def peekNth (n : Nat) : EStateM Fault OperandStack Value := fun s =>
  if s.depth ≤ n then .error (.underflow (n + 1) s.depth) s
  else .ok (s.nth n) s

def peek : EStateM Fault OperandStack Value := peekNth 0

end OperandStack

end StackVm
