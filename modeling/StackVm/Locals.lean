import StackVm.Value

/-! # The locals of a method -/

namespace StackVm

/-- A bank of fixed size, all `Int32` zero at first. -/
structure Locals where
  slots : Array Value

namespace Locals

def ofSize (n : Nat) : Locals := ⟨Array.replicate n .zero⟩

def size (b : Locals) : Nat := b.slots.size

def get (i : Nat) : EStateM Fault Locals Value := fun b =>
  match b.slots[i]? with
  | some v => .ok v b
  | none => .error (.indexOutOfRange i b.size) b

def set (i : Nat) (v : Value) : EStateM Fault Locals Unit := fun ⟨slots⟩ =>
  if h : i < slots.size then .ok () ⟨slots.set i v h⟩
  else .error (.indexOutOfRange i slots.size) ⟨slots⟩

def addressOf (i : Nat) : EStateM Fault Locals Value := fun b =>
  if i < b.size then .ok (.address i) b else .error (.indexOutOfRange i b.size) b

end Locals

end StackVm
