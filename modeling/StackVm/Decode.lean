import StackVm.Instruction

/-! # Decoding

`listingAt` reads one instruction at an offset, `Decoder` is a cursor that reads one after another,
and `spans` takes a whole method apart. -/

namespace StackVm

abbrev Code := Array UInt8

inductive DecodeError where
  | unsupported (opcode : UInt16) (offset : Nat)
  | truncated (offset : Nat)
  deriving DecidableEq

def DecodeError.message : DecodeError → String
  | unsupported opcode offset =>
    "unsupported opcode " ++ hexName 4 opcode.toNat ++ " at offset " ++ offset.repr
  | truncated offset => "truncated instruction at offset " ++ offset.repr

/-- Why decoding stopped and the offset of the first byte it did not take. -/
structure DecodeFailure where
  error : DecodeError
  stop : Nat
  deriving DecidableEq

def readLE? (code : Code) (pos : Nat) : Nat → Option Nat
  | 0 => some 0
  | width + 1 => do
    let low ← code[pos]?
    let high ← readLE? code (pos + 1) width
    some (low.toNat + 256 * high)

/-- The numbers in consecutive fields of the given widths and the offset after them; if one is cut
short, the offset where it starts. -/
def readFields (code : Code) (pos : Nat) : List Nat → Except Nat (List Nat × Nat)
  | [] => .ok ([], pos)
  | width :: widths =>
    match readLE? code pos width with
    | none => .error pos
    | some n =>
      match readFields code (pos + width) widths with
      | .ok (ns, next) => .ok (n :: ns, next)
      | .error stop => .error stop

namespace Opcode

/-- The instruction an opcode and its first operand field stand for. `ldc.i4.s` extends its byte
with zeros, the short branches extend theirs with the sign. -/
def instruction : Opcode → Nat → Instruction
  | nop, _ => .nop
  | ldloc0, _ => .ldloc 0
  | ldloc1, _ => .ldloc 1
  | ldloc2, _ => .ldloc 2
  | ldloc3, _ => .ldloc 3
  | ldlocS, n => .ldloc n.toUInt8
  | stloc0, _ => .stloc 0
  | stloc1, _ => .stloc 1
  | stloc2, _ => .stloc 2
  | stloc3, _ => .stloc 3
  | stlocS, n => .stloc n.toUInt8
  | ldlocaS, n => .ldloca n.toUInt8
  | ldcI40, _ => .ldcI4 0
  | ldcI41, _ => .ldcI4 1
  | ldcI42, _ => .ldcI4 2
  | ldcI43, _ => .ldcI4 3
  | ldcI44, _ => .ldcI4 4
  | ldcI45, _ => .ldcI4 5
  | ldcI46, _ => .ldcI4 6
  | ldcI47, _ => .ldcI4 7
  | ldcI48, _ => .ldcI4 8
  | ldcI4S, n => .ldcI4 (Int32.ofNat n)
  | ldcI4, n => .ldcI4 (Int32.ofNat n)
  | ldcR8, n => .ldcR8 n.toUInt64
  | call, n => .call n.toUInt32
  | ret, _ => .ret
  | brS, n => .br (Int8.ofNat n).toInt32
  | brfalseS, n => .brfalse (Int8.ofNat n).toInt32
  | brtrueS, n => .brtrue (Int8.ofNat n).toInt32
  | brtrue, n => .brtrue (Int32.ofNat n)
  | add, _ => .add
  | div, _ => .div
  | rem, _ => .rem
  | convR8, _ => .convR8
  | ldstr, n => .ldstr n.toUInt16
  | ceq, _ => .ceq
  | cgt, _ => .cgt
  | clt, _ => .clt

end Opcode

def readOpcode (code : Code) (pos : Nat) : Except Nat (UInt16 × Nat) :=
  match code[pos]? with
  | none => .error pos
  | some first =>
    if first = Opcode.escape then
      match code[pos + 1]? with
      | none => .error (pos + 1)
      | some second => .ok (first.toUInt16 <<< 8 ||| second.toUInt16, pos + 2)
    else .ok (first.toUInt16, pos + 1)

def listingAt (code : Code) (pos : Nat) : Except DecodeFailure (Listing × Nat) :=
  match readOpcode code pos with
  | .error stop => .error ⟨.truncated pos, stop⟩
  | .ok (value, afterOpcode) =>
    match Opcode.ofCode? value with
    | none => .error ⟨.unsupported value pos, afterOpcode⟩
    | some op =>
      match readFields code afterOpcode op.fields with
      | .error stop => .error ⟨.truncated pos, stop⟩
      | .ok (ns, next) => .ok (⟨op, op.instruction (ns.headD 0)⟩, next)

def decodeAt (code : Code) (pos : Nat) : Except DecodeError (Instruction × Nat) :=
  match listingAt code pos with
  | .ok (l, next) => .ok (l.instruction, next)
  | .error f => .error f.error

/-- A cursor over code. `failed` records that the last instruction asked for by `next?` could not
be read. -/
structure Decoder where
  code : Code
  pos : Nat
  failed : Bool

namespace Decoder

def ofCode (code : Code) (pos : Nat) : Decoder := ⟨code, pos, false⟩

def atEnd (d : Decoder) : Bool := d.code.size ≤ d.pos

/-- Reads a listing where the cursor stands; a failure leaves it where reading stopped. -/
def listing (d : Decoder) : Except DecodeError Listing × Decoder :=
  match listingAt d.code d.pos with
  | .ok (l, next) => (.ok l, { d with pos := next })
  | .error f => (.error f.error, { d with pos := f.stop })

def decode (d : Decoder) : Except DecodeError Instruction × Decoder :=
  match d.listing with
  | (r, d) => (r.map (·.instruction), d)

/-- The next instruction, or none at the end and after the first error that it met itself. -/
def next? (d : Decoder) : Option (Except DecodeError Instruction) × Decoder :=
  if d.atEnd || d.failed then (none, d)
  else match d.decode with
    | (.ok i, d) => (some (.ok i), d)
    | (.error e, d) => (some (.error e), { d with failed := true })

end Decoder

theorem le_of_readFields {code : Code} {widths : List Nat} {pos next : Nat} {ns : List Nat}
    (h : readFields code pos widths = .ok (ns, next)) : pos ≤ next := by
  induction widths generalizing pos ns with
  | nil =>
    simp only [readFields, Except.ok.injEq, Prod.mk.injEq] at h
    omega
  | cons w ws ih =>
    simp only [readFields] at h
    split at h
    · cases h
    · split at h
      · next hr =>
        simp only [Except.ok.injEq, Prod.mk.injEq] at h
        obtain ⟨_, rfl⟩ := h
        have := ih hr
        omega
      · cases h

theorem lt_of_readOpcode {code : Code} {pos next : Nat} {value : UInt16}
    (h : readOpcode code pos = .ok (value, next)) : pos < next ∧ pos < code.size := by
  simp only [readOpcode] at h
  split at h
  · cases h
  · next hc =>
    have hlt := (Array.getElem?_eq_some_iff.mp hc).1
    split at h
    · split at h
      · cases h
      · simp only [Except.ok.injEq, Prod.mk.injEq] at h
        omega
    · simp only [Except.ok.injEq, Prod.mk.injEq] at h
      omega

/-- An instruction takes at least one byte of the code. -/
theorem lt_of_listingAt {code : Code} {pos next : Nat} {l : Listing}
    (h : listingAt code pos = .ok (l, next)) : pos < next ∧ pos < code.size := by
  simp only [listingAt] at h
  split at h
  · cases h
  · next ho =>
    split at h
    · cases h
    · split at h
      · cases h
      · next hf =>
        simp only [Except.ok.injEq, Prod.mk.injEq] at h
        have := lt_of_readOpcode ho
        have := le_of_readFields hf
        omega

structure Span where
  start : Nat
  listing : Listing
  stop : Nat
  deriving DecidableEq

def spansFrom (code : Code) (pos : Nat) (acc : Array Span) : Array Span × Option DecodeError :=
  if code.size ≤ pos then (acc, none)
  else match h : listingAt code pos with
    | .error f => (acc, some f.error)
    | .ok (l, next) =>
      have := lt_of_listingAt h
      spansFrom code next (acc.push ⟨pos, l, next⟩)
termination_by code.size - pos

def spans (code : Code) : Array Span × Option DecodeError := spansFrom code 0 #[]

end StackVm
