import StackVm.Text.Numeral
import StackVm.Text.Units
import StackVm.Binary64
import StackVm.Decimal
import StackVm.Kind
import StackVm.Signature
import StackVm.Opcode
import StackVm.Instruction
import StackVm.Decode
import StackVm.Assembler
import StackVm.Disassembly
import StackVm.Fault
import StackVm.Value
import StackVm.OperandStack
import StackVm.Locals
import StackVm.StringTable
import StackVm.Console
import StackVm.UserString
import StackVm.Image
import StackVm.Program
import StackVm.Frame
import StackVm.Builtin
import StackVm.Plug
import StackVm.Registry
import StackVm.Machine
import StackVm.Interpreter
import StackVm.Sample
import StackVm.Session
import StackVm.Dump
import StackVm.Journal
import StackVm.CommandLine
import StackVm.Main
import StackVm.Proofs.Encoding
import StackVm.Proofs.Layout
import StackVm.Proofs.Patching
import StackVm.Proofs.RoundTrip
import StackVm.Proofs.Grammar
import StackVm.Proofs.Tiling
import StackVm.Proofs.DecoderSessions
import StackVm.Proofs.WrittenNumbers
import StackVm.Proofs.LosslessListing
import StackVm.Proofs.ShortestEncoding
import StackVm.Proofs.FrameOps
import StackVm.Proofs.StackRefinement
import StackVm.Proofs.Effect
import StackVm.Proofs.FrameInvariant
import StackVm.Proofs.ProgramCounter
import StackVm.Proofs.ControlFlow
import StackVm.Proofs.Respelling
import StackVm.Proofs.StackDiscipline
import StackVm.Proofs.UserStrings
import StackVm.Proofs.MethodTokens
import StackVm.Proofs.StringTokens
import StackVm.Proofs.Interning
import StackVm.Proofs.WellFormed
import StackVm.Proofs.SoundRuns
import StackVm.Proofs.SessionHistory
import StackVm.Proofs.Budget
import StackVm.Proofs.ForwardCode
import StackVm.Proofs.StraightCode
import StackVm.Proofs.CallProtocol
import StackVm.Proofs.LifeCycle
import StackVm.Proofs.LastingProperties
import StackVm.Proofs.RegistrySafety
import StackVm.Proofs.TextEquality
import StackVm.Proofs.Greeting
import StackVm.Proofs.Expressions
import StackVm.Proofs.Primality
import StackVm.Proofs.StrictMachine
import StackVm.Proofs.TrapFreedom
import StackVm.Proofs.Composition
import StackVm.Proofs.Isolation
import StackVm.Proofs.BlobFormat
import StackVm.Proofs.Arithmetic
import StackVm.Proofs.BuiltinEffects
import StackVm.Proofs.FullConsole
import StackVm.Proofs.StringAlgebra
