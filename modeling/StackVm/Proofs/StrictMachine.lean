import StackVm.Proofs.Effect
import StackVm.Proofs.SessionInvariant

/-!
# The strict machine

The machine once more, with operations that have no value outside of their range:
an index must lie within the slots, a slice within what is sliced, a difference must
not be negative, a divisor not be zero. An operation out of its range traps, and
nothing catches a trap. What has no such operation is taken over as it is.
-/

namespace StackVm

inductive Trap where
  | activeSlots | slot | arguments | receiver | difference | payload | pair | quotient | refusal
  deriving DecidableEq

def StrictM (α : Type) : Type := Frame → Except Trap (EStateM.Result Fault Frame α)

namespace StrictM

variable {α β : Type}

def lift (x : FrameM α) : StrictM α := fun f => .ok (x f)

def bind (x : StrictM α) (k : α → StrictM β) : StrictM β := fun f =>
  match x f with
  | .ok (.ok a g) => k a g
  | .ok (.error e g) => .ok (.error e g)
  | .error t => .error t

instance : Monad StrictM where
  pure a := lift (pure a)
  bind := bind

end StrictM

namespace Strict

open StrictM

def expect {α : Type} (t : Trap) : Option α → Except Trap α
  | some a => .ok a
  | none => .error t

def slice? {α : Type} (xs : List α) (lo hi : Nat) : Option (List α) :=
  if lo ≤ hi ∧ hi ≤ xs.length then some ((xs.take hi).drop lo) else none

def difference? (a b : Nat) : Option Nat := if b ≤ a then some (a - b) else none

/-! ## Values -/

def quotient {α : Type} [DecidableEq α] [OfNat α 0] (q : α → α → α) (a b : α) : Except Trap α :=
  if b = 0 then .error .quotient else .ok (q a b)

def divide {α : Type} [DecidableEq α] [OfNat α 0] (q : α → α → α) (a b : α) : Except Trap (Except Fault α) :=
  if b = 0 then .ok (.error .divideByZero) else (quotient q a b).map .ok

/-- The fault of two operands that have no result. Two numbers of one kind always have one. -/
def refuse (op : Operation) (a b : Value) : Except Trap Fault :=
  if a.kind ≠ b.kind then .ok (.typeMismatch op a.kind b.kind)
  else if a.kind.isNumeric then .error .refusal
  else .ok (.invalidOperand op a.kind)

section
variable (op : Operation) (byte : UInt8 → UInt8 → Except Trap (Except Fault UInt8))
variable (int16 : Int16 → Int16 → Except Trap (Except Fault Int16))
variable (int32 : Int32 → Int32 → Except Trap (Except Fault Int32))
variable (int64 : Int64 → Int64 → Except Trap (Except Fault Int64)) (float : Float → Float → Float)

def arithmetic : Value → Value → Except Trap (Except Fault Value)
  | .byte a, .byte b => (byte a b).map (·.map .byte)
  | .int16 a, .int16 b => (int16 a b).map (·.map .int16)
  | .int32 a, .int32 b => (int32 a b).map (·.map .int32)
  | .int64 a, .int64 b => (int64 a b).map (·.map .int64)
  | .float a, .float b => .ok (.ok (.float (float a b)))
  | .nativeInt a, .nativeInt b => (int64 a b).map (·.map .nativeInt)
  | a, b => (refuse op a b).map .error

end

def add : Value → Value → Except Trap (Except Fault Value) :=
  arithmetic .add (fun a b => .ok (.ok (a + b))) (fun a b => .ok (.ok (a + b))) (fun a b => .ok (.ok (a + b)))
    (fun a b => .ok (.ok (a + b))) (· + ·)

def div : Value → Value → Except Trap (Except Fault Value) :=
  arithmetic .div (divide (· / ·)) (divide (· / ·)) (divide (· / ·)) (divide (· / ·)) (· / ·)

def rem : Value → Value → Except Trap (Except Fault Value) :=
  arithmetic .rem (divide (· % ·)) (divide (· % ·)) (divide (· % ·)) (divide (· % ·)) truncMod

/-! ## Texts -/

/-- Two bytes at a time; a byte that is left over is not part of any pair. -/
def pairs (bytes : List UInt8) : List (List UInt8) :=
  (List.range (bytes.length / 2)).map fun k => (bytes.drop (2 * k)).take 2

def unit (pair : List UInt8) : Except Trap UInt16 := do
  let low ← expect .pair pair[0]?
  let high ← expect .pair pair[1]?
  pure (low.toUInt16 ||| high.toUInt16 <<< 8)

def text (token : UInt16) (payload : List UInt8) : Except Trap (Except Fault String) :=
  if payload.length % 2 ≠ 0 then .ok (.error (.malformedString token))
  else do
    match ofUnits? (← (pairs payload).mapM unit) with
    | some text => pure (.ok text)
    | none => pure (.error (.malformedString token))

def decode (token : UInt16) : List UInt8 → Except Trap (Except Fault String)
  | [] => .ok (.error (.malformedString token))
  | length :: rest =>
    if length ≥ 128 || length == 0 then .ok (.error (.unsupportedBlob token length))
    else
      match slice? rest 0 length.toNat with
      | none => .ok (.error (.malformedString token))
      | some contents => do
        let size ← expect .difference (difference? length.toNat 1)
        let payload ← expect .payload (slice? contents 0 size)
        text token payload

def userString (image : Image) (token : UInt16) : Except Trap (Except Fault String) :=
  match image.blobAt? token with
  | some blob => decode token blob.toList
  | none => .ok (.error (.unknownString token))

/-! ## Operations on a frame -/

def activeSlots (s : OperandStack) : Except Trap (List Value) :=
  expect .activeSlots (slice? s.slots.toList 0 s.depth)

def pop : StrictM Value := fun f =>
  if f.stack.depth = 0 then .ok (.error (.underflow 1 0) f)
  else do
    let depth ← expect .difference (difference? f.stack.depth 1)
    let v ← expect .slot f.stack.slots[depth]?
    pure (.ok v { f with stack := { f.stack with depth } })

def pop2 : StrictM (Value × Value) := fun f =>
  if f.stack.depth < 2 then .ok (.error (.underflow 2 f.stack.depth) f)
  else do
    let depth ← expect .difference (difference? f.stack.depth 2)
    let second ← expect .slot f.stack.slots[depth]?
    let top ← expect .slot f.stack.slots[depth + 1]?
    pure (.ok (second, top) { f with stack := { f.stack with depth } })

def peekNth (n : Nat) : StrictM Value := fun f =>
  if f.stack.depth ≤ n then .ok (.error (.underflow (n + 1) f.stack.depth) f)
  else do
    let top ← expect .difference (difference? f.stack.depth 1)
    let index ← expect .difference (difference? top n)
    let v ← expect .slot f.stack.slots[index]?
    pure (.ok v f)

def peek : StrictM Value := peekNth 0

def popAs {α : Type} (read : Value → Option α) : StrictM α := do
  let v ← pop
  match read v with
  | some a => pure a
  | none => lift (throw (.invalidOperand .plugArgument v.kind))

def popString : StrictM String := do
  let h ← popAs Value.handle?
  lift (Frame.resolve h)

/-! ## Handlers -/

def builtin : Builtin → StrictM Unit
  | .writeLineString => do
    let text ← popString
    lift (Builtin.write (text ++ "\n"))
  | .writeLineInt32 => do
    let n ← popAs Value.int32?
    lift (Builtin.write (decimal n.toInt ++ "\n"))
  | .writeLine => lift (Builtin.write "\n")
  | .writeString => do
    let text ← popString
    lift (Builtin.write text)
  | .writeInt32 => do
    let n ← popAs Value.int32?
    lift (Builtin.write (decimal n.toInt))
  | .sqrt => do
    let x ← popAs Value.float?
    lift (Frame.push (.float x.sqrt))
  | .length => do
    let text ← popString
    let n := (units text).length
    if n < 0x80000000 then lift (Frame.push (.int32 (Int32.ofNat n)))
    else lift (throw (.plug "string length overflows int32"))
  | .concat => do
    let second ← popString
    let first ← popString
    lift (Frame.pushString (first ++ second))

def action : Action → StrictM Reply
  | .pop => do pure (.value (← pop))
  | .popInt32 => do pure (.int32 (← popAs Value.int32?))
  | .popFloat => do pure (.float (← popAs Value.float?))
  | .popHandle => do pure (.handle (← popAs Value.handle?))
  | .popString => do pure (.text (← popString))
  | .peek => do pure (.value (← peek))
  | .peekNth n => do pure (.value (← peekNth n))
  | .pop2 => do
    let (a, b) ← pop2
    pure (.pair a b)
  | .call b => do
    builtin b
    pure .unit
  | a => lift a.run

/-- Turns a failure into an answer, but not a trap. -/
def attempt {α : Type} (x : StrictM α) : StrictM (Except Fault α) := fun f => do
  match ← x f with
  | .ok a g => pure (.ok (.ok a) g)
  | .error e g => pure (.ok (.error e) g)

def handler : Handler → StrictM Unit
  | .builtin b => builtin b
  | .done => pure ()
  | .raise e => lift (throw e)
  | .perform a next => do
    let r ← attempt (action a)
    handler (next r)

/-! ## Calls -/

def checkArguments (s : Signature) : StrictM Unit := fun f =>
  if f.stack.depth < s.arity then .ok (.error (.underflow s.arity f.stack.depth) f)
  else do
    let active ← activeSlots f.stack
    let first ← expect .difference (difference? f.stack.depth s.arity)
    let args ← expect .arguments (slice? active first active.length)
    let declared ← expect .receiver (slice? args s.isInstance.toNat args.length)
    match Signature.mismatch? s.params declared with
    | some e => pure (.error e f)
    | none => pure (.ok () f)

def checkKind (k : Kind) : StrictM Unit := do
  let v ← peek
  if v.kind ≠ k then lift (throw (.typeMismatch .call k v.kind)) else pure ()

def checkResult (s : Signature) (before : Nat) : StrictM Unit := fun f => do
  let kept ← expect .difference (difference? before s.arity)
  if f.stack.depth ≠ kept + s.results then pure (.error (.plugEffect (kept + s.results) f.stack.depth) f)
  else
    match s.returns with
    | none => pure (.ok () f)
    | some k => checkKind k f

def invoke (s : Signature) (h : Handler) : StrictM Unit := do
  checkArguments s
  let before ← lift Frame.depth
  handler h
  checkResult s before

/-! ## Instructions -/

def binary (op : Value → Value → Except Trap (Except Fault Value)) : StrictM Unit := do
  let (a, b) ← pop2
  fun f => do
    match ← op a b with
    | .ok v => lift (Frame.push v) f
    | .error e => lift (throw e) f

def comparison (op : Operation) (wanted : Ordering) : StrictM Unit :=
  binary fun a b => .ok ((a.compare op b).map fun order => .ofBool (order = some wanted))

def popCondition (op : Operation) : StrictM Int := do
  let v ← pop
  match v.integer? with
  | some n => pure n
  | none => lift (throw (.invalidOperand op v.kind))

def test (op : Operation) (wanted : Int) (offset : Int32) : StrictM Move := do
  if (← popCondition op) = wanted then pure (.jump offset) else pure .stay

section
variable (rules : Rules) (image : Image)

def loadString (token : UInt16) : StrictM Unit := fun f => do
  match ← userString image token with
  | .ok text => lift (Frame.pushString text) f
  | .error e => lift (throw e) f

def dispatch (token : UInt32) : StrictM Unit :=
  match image.resolve? token with
  | none => lift (throw (.unresolvedCall token none))
  | some (.body _) => lift (throw (.managedCall token))
  | some (.external s) =>
    match rules.registry.lookup? s with
    | none => lift (throw (.unresolvedCall token (some s)))
    | some h => invoke s h

def result : StrictM (Option Value) := fun f => do
  match ← peek f with
  | .ok v g => pure (.ok (some v) g)
  | .error _ g => pure (.ok none g)

def andStay (x : StrictM Unit) : StrictM Move := do
  x
  pure .stay

def effect : Instruction → StrictM Move
  | .stloc i => andStay do lift (Frame.setLocal i.toNat (← pop))
  | .call token => andStay (dispatch rules image token)
  | .ret => do pure (.halt (← result))
  | .brfalse offset => test .brfalse 0 offset
  | .brtrue offset => test .brtrue 1 offset
  | .add => andStay (binary add)
  | .div => andStay (binary div)
  | .rem => andStay (binary rem)
  | .convR8 => andStay do lift (Frame.push (← pop).toFloat)
  | .ldstr token => andStay (loadString image token)
  | .ceq => andStay (comparison .ceq .eq)
  | .cgt => andStay (comparison .cgt .gt)
  | .clt => andStay (comparison .clt .lt)
  | i => lift (Machine.effect rules image i)

def step (m : Machine) : Except Trap (EStateM.Result Fault Machine Signal) :=
  match Machine.fetch rules m with
  | .ok (offset, i) m => (effect rules m.program.image i m.frame).map (Machine.settle m offset)
  | .error e m => .ok (.error e m)

def run : Nat → Machine → Except Trap (Option (Except Fault (Option Value) × Machine))
  | 0, _ => .ok none
  | fuel + 1, m => do
    match ← step rules m with
    | .ok .next m => run fuel m
    | .ok (.halt v) m => pure (some (.ok v, m))
    | .error e m => pure (some (.error e, m))

end

/-! ## Sessions -/

def runCurrent (fuel : Nat) (s : Session) : Except Trap (Option (Except Fault (Option Value) × Session)) :=
  match s.interpreter.runnable? with
  | none => .ok (some (.error .noProgram, s))
  | some p =>
    (run s.rules fuel (s.interpreter.machine p s.host)).map (·.map fun (r, m) => (r, s.holding (.ending r) m))

def perform (fuel : Nat) (c : Command) (s : Session) : Except Trap (Option (Answer × Session)) :=
  match c with
  | .run => (runCurrent fuel s).map (·.map fun (r, s) => (.ran r, s))
  | c => .ok (s.perform fuel c)

end Strict

end StackVm
