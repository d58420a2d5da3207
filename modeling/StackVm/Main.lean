import StackVm.CommandLine

/-! # The program: arguments, environment and files of the process -/

namespace StackVm

/-- More steps than a process can live to make. -/
def enoughFuel : Nat := 1 <<< 62

def levelVariable : String := "RUST_LOG"

def usage : String :=
  "usage: [--max-instructions N] [-v] " ++
    "(prime N | hello [TEXT] | run FILE [--max-stack N] [--locals N] | disasm FILE)"

def readFile (path : String) : IO (Except String Code) := do
  try
    let bytes ← IO.FS.readBinFile path
    return .ok bytes.data
  catch
    | .noFileOrDirectory .. => return .error "No such file or directory (os error 2)"
    | e => return .error (toString e)

end StackVm

open StackVm in
def main (args : List String) : IO UInt32 := do
  match CommandLine.parse args with
  | none =>
    IO.eprintln usage
    return 2
  | some call =>
    let contents ← match call.task.file? with
      | some path => readFile path
      | none => pure (.ok #[])
    let named := (← IO.getEnv levelVariable).bind Level.ofName?
    match CommandLine.perform enoughFuel named call contents with
    | none =>
      IO.eprintln "error: the run did not end"
      return 1
    | some outcome =>
      let stdout ← IO.getStdout
      stdout.write ⟨outcome.stdout⟩
      stdout.flush
      for line in outcome.stderr do
        IO.eprintln line
      return outcome.exitCode.toUInt32
