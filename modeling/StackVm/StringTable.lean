import Std.Data.HashMap
import StackVm.Fault

/-! # Interned texts

Texts are numbered in the order of their first interning and are never removed. -/

namespace StackVm

/-- `index` holds the number of each text, so that finding a duplicate takes one look-up. -/
structure StringTable where
  texts : Array String
  index : Std.HashMap String Nat

namespace StringTable

def empty : StringTable := ⟨#[], ∅⟩

def size (t : StringTable) : Nat := t.texts.size

def intern (text : String) (t : StringTable) : Nat × StringTable :=
  match t.index[text]? with
  | some h => (h, t)
  | none => (t.texts.size, ⟨t.texts.push text, t.index.insert text t.texts.size⟩)

def get? (t : StringTable) (handle : Nat) : Option String := t.texts[handle]?

def resolve (t : StringTable) (handle : Nat) : Except Fault String :=
  match t.get? handle with
  | some text => .ok text
  | none => .error (.invalidHandle handle)

def handleText (handle : Nat) : String := "#" ++ handle.repr

end StringTable

end StackVm
