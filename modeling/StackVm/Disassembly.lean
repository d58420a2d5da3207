import StackVm.Decode

/-! # Disassembly -/

namespace StackVm

namespace Disassembly

def padded (width : Nat) (text : String) : String :=
  text ++ String.ofList (List.replicate (width - text.length) ' ')

/-- Offset and listing; a branch also shows where it leads, as a 64-bit word. -/
def line (s : Span) : String :=
  hex 4 s.start ++ ": " ++
    match s.listing.instruction.branchOffset? with
    | some d => padded 16 s.listing.text ++ " ; -> " ++ hex 4 (word64 (s.stop + d.toInt))
    | none => s.listing.text

end Disassembly

def disassemble (code : Code) : List String × Option DecodeError :=
  match spans code with
  | (spans, e) => (spans.toList.map Disassembly.line, e)

end StackVm
