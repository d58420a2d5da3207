import StackVm.Assembler

/-!
# Reading back an encoding

Bytes that stand in the code at an offset are read there whatever surrounds
them: `listingAt_of_hasAt` for an opcode with its operand fields,
`decodeAt_of_emission` for an instruction other than a branch.
-/

namespace StackVm

def HasAt (code : Code) (pos : Nat) (bs : List UInt8) : Prop :=
  ∀ j < bs.length, code[pos + j]? = bs[j]?

theorem hasAt_nil (code : Code) (pos : Nat) : HasAt code pos [] := by
  intro j hj
  exact absurd hj (Nat.not_lt_zero j)

theorem hasAt_cons {code : Code} {pos : Nat} {b : UInt8} {bs : List UInt8} :
    HasAt code pos (b :: bs) ↔ code[pos]? = some b ∧ HasAt code (pos + 1) bs := by
  constructor
  · intro h
    refine ⟨by simpa using h 0 (by simp), fun j hj => ?_⟩
    have := h (j + 1) (by simpa using hj)
    rwa [List.getElem?_cons_succ, ← Nat.add_assoc, Nat.add_right_comm] at this
  · rintro ⟨h0, h⟩ j hj
    cases j with
    | zero => simpa using h0
    | succ j =>
      rw [List.getElem?_cons_succ, ← h j (by simpa using hj)]
      congr 1; omega

theorem hasAt_append {code : Code} {pos : Nat} {bs cs : List UInt8} :
    HasAt code pos (bs ++ cs) ↔ HasAt code pos bs ∧ HasAt code (pos + bs.length) cs := by
  induction bs generalizing pos with
  | nil => simp [hasAt_nil]
  | cons b bs ih =>
    rw [List.cons_append, hasAt_cons, hasAt_cons, ih, and_assoc, List.length_cons]
    have e : pos + 1 + bs.length = pos + (bs.length + 1) := by omega
    rw [e]

/-! ## Numbers -/

theorem length_bytesLE : ∀ width n, (bytesLE width n).length = width
  | 0, _ => rfl
  | width + 1, n => by rw [bytesLE, List.length_cons, length_bytesLE width]

theorem readLE?_of_hasAt {code : Code} : ∀ {width pos n : Nat}, n < Nat.pow 256 width →
    HasAt code pos (bytesLE width n) → readLE? code pos width = some n
  | 0, pos, n, hn, _ => by
    have : n = 0 := by simpa using hn
    rw [this]; rfl
  | width + 1, pos, n, hn, h => by
    obtain ⟨h0, hr⟩ := hasAt_cons.mp h
    have hn' : n / 256 < Nat.pow 256 width := Nat.div_lt_of_lt_mul (by rwa [Nat.mul_comm])
    have hb : ((n % 256).toUInt8).toNat = n % 256 := by simp
    have hs : n % 256 + 256 * (n / 256) = n := Nat.mod_add_div n 256
    simp only [readLE?, h0, readLE?_of_hasAt hn' hr, Option.bind_eq_bind, Option.bind_some, hb, hs]

def FieldsFit : List Nat → List Nat → Prop
  | [], [] => True
  | width :: widths, n :: ns => n < Nat.pow 256 width ∧ FieldsFit widths ns
  | _, _ => False

theorem length_fields : ∀ {widths ns}, FieldsFit widths ns →
    (List.zipWith bytesLE widths ns).flatten.length = widths.foldr (· + ·) 0
  | [], [], _ => rfl
  | width :: widths, n :: ns, h => by
    rw [List.zipWith_cons_cons, List.flatten_cons, List.length_append, length_bytesLE, length_fields h.2]
    rfl

theorem readFields_of_hasAt {code : Code} : ∀ {widths ns : List Nat} {pos : Nat}, FieldsFit widths ns →
    HasAt code pos (List.zipWith bytesLE widths ns).flatten →
    readFields code pos widths = .ok (ns, pos + widths.foldr (· + ·) 0)
  | [], [], _, _, _ => rfl
  | width :: widths, n :: ns, pos, hf, h => by
    rw [List.zipWith_cons_cons, List.flatten_cons, hasAt_append, length_bytesLE] at h
    simp only [readFields, readLE?_of_hasAt hf.1 h.1, readFields_of_hasAt hf.2 h.2, List.foldr_cons,
      Nat.add_assoc]

/-! ## Opcodes -/

/-- Reading the table of codes backwards undoes it. -/
theorem ofCode?_code (op : Opcode) : Opcode.ofCode? op.code = some op := by
  cases op <;> rfl

theorem Opcode.code_of_ofCode? {c : UInt16} {op : Opcode} (h : ofCode? c = some op) : op.code = c := by
  unfold ofCode? at h
  split at h <;> cases h <;> rfl

/-- The operand bytes counted for an opcode are those of the fields that reading it takes. -/
theorem Opcode.foldr_fields (op : Opcode) : op.fields.foldr (· + ·) 0 = op.operandSize := by
  cases op <;> rfl

theorem code_of_isExtended {op : Opcode} (h : op.isExtended = true) :
    Opcode.escape.toUInt16 <<< 8 ||| op.code.toUInt8.toUInt16 = op.code := by
  revert h; cases op <;> decide

theorem code_of_not_isExtended {op : Opcode} (h : ¬ op.isExtended = true) :
    op.code.toUInt8 ≠ Opcode.escape ∧ op.code.toUInt8.toUInt16 = op.code := by
  revert h; cases op <;> decide

theorem readOpcode_of_hasAt {code : Code} {pos : Nat} {op : Opcode} (h : HasAt code pos op.encode) :
    readOpcode code pos = .ok (op.code, pos + op.encode.length) := by
  unfold readOpcode
  unfold Opcode.encode at h ⊢
  by_cases he : op.isExtended = true
  · rw [if_pos he] at h ⊢
    obtain ⟨h0, h1⟩ := hasAt_cons.mp h
    simp only [h0, if_true, (hasAt_cons.mp h1).1, code_of_isExtended he, List.length_cons, List.length_nil]
  · rw [if_neg he] at h ⊢
    obtain ⟨hne, hc⟩ := code_of_not_isExtended he
    simp only [(hasAt_cons.mp h).1, hne, if_false, hc, List.length_cons, List.length_nil]

theorem length_encode_pos (op : Opcode) : 0 < op.encode.length := by
  unfold Opcode.encode; split <;> simp

theorem length_encodeWith {op : Opcode} {ns : List Nat} (hf : FieldsFit op.fields ns) :
    (op.encodeWith ns).length = op.encode.length + op.operandSize := by
  unfold Opcode.encodeWith; rw [List.length_append, length_fields hf, op.foldr_fields]

theorem listingAt_of_hasAt {code : Code} {pos : Nat} {op : Opcode} {ns : List Nat}
    (hf : FieldsFit op.fields ns) (h : HasAt code pos (op.encodeWith ns)) :
    listingAt code pos = .ok (⟨op, op.instruction (ns.headD 0)⟩, pos + (op.encodeWith ns).length) := by
  rw [length_encodeWith hf]
  obtain ⟨ho, hs⟩ := hasAt_append.mp h
  simp only [listingAt, readOpcode_of_hasAt ho, ofCode?_code, readFields_of_hasAt hf hs, op.foldr_fields,
    Nat.add_assoc]

theorem decodeAt_of_hasAt {code : Code} {pos : Nat} {op : Opcode} {ns : List Nat}
    (hf : FieldsFit op.fields ns) (h : HasAt code pos (op.encodeWith ns)) :
    decodeAt code pos = .ok (op.instruction (ns.headD 0), pos + (op.encodeWith ns).length) := by
  unfold decodeAt; rw [listingAt_of_hasAt hf h]

/-! ## Emissions -/

namespace Emission

def instruction : Emission → Instruction
  | nop => .nop
  | ret => .ret
  | add => .add
  | div => .div
  | rem => .rem
  | convR8 => .convR8
  | ceq => .ceq
  | cgt => .cgt
  | clt => .clt
  | ldloc i | ldlocS i => .ldloc i
  | stloc i | stlocS i => .stloc i
  | ldlocaS i => .ldloca i
  | ldcI4 v => .ldcI4 v
  | ldcI4S v => .ldcI4 (Int32.ofNat v.toNat)
  | ldcR8 bits => .ldcR8 bits
  | call token => .call token
  | ldstr token => .ldstr token

/-- The encoding reads back as `i`: its fields hold their operands and mean `i`. -/
def Means (c : Opcode × List Nat) (i : Instruction) : Prop :=
  FieldsFit c.1.fields c.2 ∧ c.1.instruction (c.2.headD 0) = i

theorem means_shorten {ops : List Opcode} {op : Opcode} {n : Nat} {i : Instruction}
    (hs : ∀ short, ops[n]? = some short → Means (short, []) i) (hl : Means (op, [n]) i) :
    Means (shorten ops op n) i := by
  unfold shorten
  cases h : ops[n]? with
  | none => exact hl
  | some short => exact hs short h

theorem means_loads {n : Nat} {short : Opcode} (h : loads[n]? = some short) :
    Means (short, []) (.ldloc n.toUInt8) := by
  match n, h with
  | 0, h | 1, h | 2, h | 3, h => cases h; exact ⟨trivial, rfl⟩

theorem means_stores {n : Nat} {short : Opcode} (h : stores[n]? = some short) :
    Means (short, []) (.stloc n.toUInt8) := by
  match n, h with
  | 0, h | 1, h | 2, h | 3, h => cases h; exact ⟨trivial, rfl⟩

theorem means_constants {n : Nat} {short : Opcode} (h : constants[n]? = some short) :
    Means (short, []) (.ldcI4 (Int32.ofNat n)) := by
  match n, h with
  | 0, h | 1, h | 2, h | 3, h | 4, h | 5, h | 6, h | 7, h | 8, h => cases h; exact ⟨trivial, rfl⟩

theorem fieldsFit_byte (v : UInt8) : FieldsFit [1] [v.toNat] := ⟨v.toNat_lt, trivial⟩

theorem ofNat_toUInt32 (v : Int32) : Int32.ofNat v.toUInt32.toNat = v := by
  rw [← Int32.toInt_inj]
  simp [Int32.toInt, BitVec.toInt_eq_toNat_bmod]

theorem means_ldcI4 (v : Int32) : Means (encoding (.ldcI4 v)) (.ldcI4 v) := by
  simp only [encoding]
  have hv := ofNat_toUInt32 v
  split
  · next h =>
    have hlt : v.toUInt32.toNat < 256 := h
    refine means_shorten (fun short hs => ?_) ⟨⟨hlt, trivial⟩, congrArg Instruction.ldcI4 hv⟩
    have := means_constants hs
    rwa [hv] at this
  · exact ⟨⟨v.toUInt32.toNat_lt, trivial⟩, congrArg Instruction.ldcI4 hv⟩

theorem means_encoding (e : Emission) : Means e.encoding e.instruction := by
  cases e with
  | ldloc i =>
    have hi : i.toNat.toUInt8 = i := UInt8.ofNat_toNat
    refine means_shorten (fun short hs => ?_) ⟨fieldsFit_byte i, congrArg Instruction.ldloc hi⟩
    have := means_loads hs
    rwa [hi] at this
  | stloc i =>
    have hi : i.toNat.toUInt8 = i := UInt8.ofNat_toNat
    refine means_shorten (fun short hs => ?_) ⟨fieldsFit_byte i, congrArg Instruction.stloc hi⟩
    have := means_stores hs
    rwa [hi] at this
  | ldlocS i => exact ⟨fieldsFit_byte i, congrArg Instruction.ldloc UInt8.ofNat_toNat⟩
  | stlocS i => exact ⟨fieldsFit_byte i, congrArg Instruction.stloc UInt8.ofNat_toNat⟩
  | ldlocaS i => exact ⟨fieldsFit_byte i, congrArg Instruction.ldloca UInt8.ofNat_toNat⟩
  | ldcI4 v => exact means_ldcI4 v
  | ldcI4S v => exact ⟨fieldsFit_byte v, rfl⟩
  | ldcR8 bits => exact ⟨⟨bits.toNat_lt, trivial⟩, congrArg Instruction.ldcR8 UInt64.ofNat_toNat⟩
  | call token => exact ⟨⟨token.toNat_lt, trivial⟩, congrArg Instruction.call UInt32.ofNat_toNat⟩
  | ldstr token =>
    exact ⟨⟨token.toNat_lt, by decide, trivial⟩, congrArg Instruction.ldstr UInt16.ofNat_toNat⟩
  | _ => exact ⟨trivial, rfl⟩

theorem length_bytes_pos (e : Emission) : 0 < e.bytes.length := by
  unfold bytes
  rw [length_encodeWith (means_encoding e).1]
  exact Nat.add_pos_left (length_encode_pos _) _

end Emission

theorem decodeAt_of_emission {code : Code} {pos : Nat} {e : Emission} (h : HasAt code pos e.bytes) :
    decodeAt code pos = .ok (e.instruction, pos + e.bytes.length) := by
  obtain ⟨hf, hi⟩ := e.means_encoding
  rw [← hi]
  exact decodeAt_of_hasAt hf h

end StackVm
