import StackVm.Disassembly
import StackVm.Journal

/-! # The command line

`CommandLine.parse` reads the arguments and `CommandLine.perform` does what they ask for. -/

namespace StackVm.CommandLine

/-! ## Arguments -/

inductive Task where
  | prime (candidate : UInt8)
  | hello (text : String)
  | run (file : String) (maxStack localCount : UInt16)
  | disassemble (file : String)
  deriving DecidableEq

def Task.file? : Task → Option String
  | prime _ | hello _ => none
  | run file _ _ | disassemble file => some file

structure Invocation where
  limit : Option Nat
  verbosity : Nat
  task : Task
  deriving DecidableEq

/-- The options given with a value: a limit on instructions and the sizes of a method. -/
inductive Setting where
  | limit | maxStack | localCount
  deriving DecidableEq

def Setting.ofName? : String → Option Setting
  | "--max-instructions" => some .limit
  | "--max-stack" => some .maxStack
  | "--locals" => some .localCount
  | _ => none

structure Given where
  settings : List (Setting × Nat)
  verbosity : Nat
  operands : List String

namespace Given

def empty : Given := ⟨[], 0, []⟩

def get? (g : Given) (s : Setting) : Option Nat := g.settings.lookup s

end Given

def digits? (cs : List Char) : Option Nat :=
  if cs ≠ [] ∧ cs.all Char.isDigit then some (Nat.ofDigitChars 10 cs 0) else none

def integer? (text : String) : Option Int :=
  match text.toList with
  | '+' :: cs => (digits? cs).map Int.ofNat
  | '-' :: cs => (digits? cs).map fun n => -Int.ofNat n
  | cs => (digits? cs).map Int.ofNat

def natural? (bound : Nat) (text : String) : Option Nat :=
  match integer? text with
  | some n => if 0 ≤ n ∧ n < bound then some n.toNat else none
  | none => none

/-- The values a setting takes. A limit is read as a natural number, so it has no minus sign. -/
def Setting.read? (s : Setting) (text : String) : Option Nat :=
  match s with
  | limit => if text.startsWith "-" then none else natural? 0x10000000000000000 text
  | maxStack | localCount => natural? 0x10000 text

/-- A lone hyphen is an operand. -/
def isOption (arg : String) : Bool := arg.startsWith "-" && arg != "-"

def splitValue (arg : String) : String × Option String :=
  let cs := arg.toList
  let name := String.ofList (cs.takeWhile (· ≠ '='))
  match cs.dropWhile (· ≠ '=') with
  | _ :: value => (name, some (String.ofList value))
  | [] => (name, none)

/-- How often a flag such as `-vv` asks for more records; none if it is no such flag. -/
def verbosity? (arg : String) : Option Nat :=
  if arg == "--verbose" then some 1
  else match arg.toList with
    | '-' :: vs => if vs ≠ [] ∧ vs.all (· = 'v') then some vs.length else none
    | _ => none

/-- A setting may be given once on each side of the task's name. -/
def Given.set? (allowed : List Setting) (g : Given) (s : Setting) (value : String) : Option Given :=
  if allowed.contains s && (g.get? s).isNone then
    (s.read? value).map fun n => { g with settings := (s, n) :: g.settings }
  else none

/-- Reads options up to the first operand, or to the end if `more` operands may follow. -/
def scan (allowed : List Setting) (more : Bool) (g : Given) :
    List String → Option (Given × List String)
  | [] => some (g, [])
  | arg :: rest =>
    if arg == "--" then
      if more then some ({ g with operands := g.operands ++ rest }, []) else none
    else if !isOption arg then
      if more then scan allowed more { g with operands := g.operands ++ [arg] } rest
      else some (g, arg :: rest)
    else match verbosity? arg with
      | some n => scan allowed more { g with verbosity := g.verbosity + n } rest
      | none =>
        match splitValue arg with
        | (name, value) =>
          match Setting.ofName? name, value, rest with
          | some s, some v, rest => (g.set? allowed s v).bind (scan allowed more · rest)
          | some s, none, v :: rest =>
            if isOption v then none else (g.set? allowed s v).bind (scan allowed more · rest)
          | _, _, _ => none

def defaultGreeting : String := "Hello, world!"

def defaultMaxStack : Nat := 8

def defaultLocalCount : Nat := 0

def task? (name : String) (g : Given) : Option Task :=
  match name, g.operands with
  | "prime", [n] => (natural? 0x100 n).map fun n => .prime n.toUInt8
  | "hello", [] => some (.hello defaultGreeting)
  | "hello", [text] => some (.hello text)
  | "run", [file] =>
    if file.isEmpty then none
    else some (.run file ((g.get? .maxStack).getD defaultMaxStack).toUInt16
      ((g.get? .localCount).getD defaultLocalCount).toUInt16)
  | "disasm", [file] => if file.isEmpty then none else some (.disassemble file)
  | _, _ => none

def allowedAfter (name : String) : List Setting :=
  if name == "run" then [.limit, .maxStack, .localCount] else [.limit]

/-- Reads the arguments; what stands after the task's name has precedence. -/
def parse (args : List String) : Option Invocation :=
  match scan [.limit] false .empty args with
  | some (before, name :: rest) =>
    match scan (allowedAfter name) true .empty rest with
    | some (after, _) =>
      (task? name after).map fun task =>
        { limit := after.get? .limit <|> before.get? .limit
          verbosity := if after.verbosity = 0 then before.verbosity else after.verbosity
          task }
    | none => none
  | _ => none

/-! ## Tasks -/

/-- What a task leaves behind; output before an error stands. -/
structure Outcome where
  exitCode : UInt8
  stdout : Array UInt8
  stderr : List String

def Outcome.failed (stdout : Array UInt8) (stderr : List String) (message : String) : Outcome :=
  ⟨1, stdout, stderr ++ ["error: " ++ message]⟩

def levelOf (verbosity : Nat) (named : Option Level) : Level :=
  named.getD (match verbosity with
    | 0 => .warn
    | 1 => .debug
    | _ => .trace)

def recordLine (r : Record) : String :=
  "[" ++ Disassembly.padded 5 r.level.name ++ " " ++ r.target ++ "] " ++ r.message

/-- A text in quotes, with a backslash before what would end it or not show. -/
def quoted (text : String) : String :=
  let escape (c : Char) : List Char :=
    match c with
    | '"' => ['\\', '"']
    | '\\' => ['\\', '\\']
    | '\n' => ['\\', 'n']
    | '\r' => ['\\', 'r']
    | '\t' => ['\\', 't']
    | c => [c]
  "\"" ++ String.ofList (text.toList.flatMap escape) ++ "\""

def resultText (i : Interpreter) : Option Value → String
  | none => "(void)"
  | some v =>
    match i.resolveString v with
    | some text => quoted text
    | none => v.text

def runProgram (fuel : Nat) (level : Level) (limit : Option Nat) (p : Program) : Option Outcome :=
  let s := Session.start .builtins none limit 1
  let loading : Command := .load p.method p.image
  let loaded := s.load p
  let told := Journal.records fuel level loading s ++ Journal.records fuel level .run loaded
  match loaded.run fuel with
  | none => none
  | some (.error e, s) =>
    some (.failed s.host.console.written (told.map recordLine) e.message)
  | some (.ok v, s) =>
    let executed : Record :=
      ⟨.debug, "ilvm", "executed " ++ s.interpreter.executed.repr ++ " instruction(s)"⟩
    let told := if level = .debug ∨ level = .trace then told ++ [executed] else told
    let console := s.host.console.writeText (resultText s.interpreter v ++ "\n")
    some ⟨0, console.2.written, told.map recordLine⟩

/-- Does what was asked for, given what reading the task's file gave: its bytes or why it could
not be read. None if a run does not end within `fuel` steps. -/
def perform (fuel : Nat) (named : Option Level) (call : Invocation)
    (contents : Except String Code) : Option Outcome :=
  let level := levelOf call.verbosity named
  match call.task with
  | .prime n => runProgram fuel level call.limit (.ofMethod (Sample.primality n) .empty)
  | .hello text =>
    match Sample.hello text with
    | .ok p => runProgram fuel level call.limit p
    | .error e => some (.failed #[] [] e.message)
  | .run file maxStack localCount =>
    match contents with
    | .ok code =>
      runProgram fuel level call.limit (.ofMethod ⟨code, maxStack, localCount⟩ .empty)
    | .error reason => some (.failed #[] [] ("reading " ++ file ++ ": " ++ reason))
  | .disassemble file =>
    match contents with
    | .ok code =>
      match StackVm.disassemble code with
      | (lines, e) =>
        let out := (String.join (lines.map (· ++ "\n"))).toUTF8.data
        match e with
        | some e => some (.failed out [] e.message)
        | none => some ⟨0, out, []⟩
    | .error reason => some (.failed #[] [] ("reading " ++ file ++ ": " ++ reason))

end StackVm.CommandLine
