import StackVm.Proofs.DecoderSessions
import StackVm.Proofs.RoundTrip

/-!
# Shortest encodings

Constants and accesses to locals have several encodings: an opcode of their own
for the smallest operands, an operand of one byte, for constants also one of
four. Which opcodes a decoder takes for an instruction is read off what they
denote; an emission that does not name its encoding takes the shortest of these.
-/

namespace StackVm

/-- A decoder put in front of `bs` gives `i` and nothing after it, and has then read all of `bs`. -/
def Encodes (bs : List UInt8) (i : Instruction) : Prop :=
  (Decoder.ofCode bs.toArray 0).Yields [(0, i)] (.ofCode bs.toArray bs.length)

structure Shortest (bs : List UInt8) (i : Instruction) : Prop where
  encodes : Encodes bs i
  length_le : ∀ other, Encodes other i → bs.length ≤ other.length

def Opcode.size (op : Opcode) : Nat := op.encode.length + op.operandSize

theorem Encodes.exists_opcode {bs : List UInt8} {i : Instruction} (h : Encodes bs i) :
    ∃ (op : Opcode) (operand : List UInt8), operand.length = op.operandSize ∧ op.Denotes operand i ∧
      op.size ≤ bs.length := by
  obtain ⟨_, d, hnext, _⟩ := h
  have hask : (Decoder.ofCode bs.toArray 0).ask .next = (.instruction i, d) := by
    simp only [Decoder.ask, hnext, Decoder.Response.ofInstruction]
  obtain ⟨n, failed, _, htakes, _⟩ := (Decoder.ofCode bs.toArray 0).ask_takes .next
  rw [hask] at htakes
  have hle := htakes.le
  cases htakes with
  | @success op operand _ ho hshows =>
    obtain rfl : i = op.decoded operand := hshows
    exact ⟨op, operand, ho.length, Opcode.denotes_decoded ho.length, hle⟩

/-! ## The opcodes of an instruction -/

namespace Opcode

variable {op : Opcode} {operand : List UInt8}

theorem Denotes.load {k : UInt8} (h : op.Denotes operand (.ldloc k)) :
    Emission.loads[k.toNat]? = some op ∨ op = .ldlocS := by
  cases op with
  | ldlocS => exact .inr rfl
  | ldloc0 | ldloc1 | ldloc2 | ldloc3 =>
    cases h
    exact .inl rfl
  | _ => simp [Denotes] at h

theorem Denotes.store {k : UInt8} (h : op.Denotes operand (.stloc k)) :
    Emission.stores[k.toNat]? = some op ∨ op = .stlocS := by
  cases op with
  | stlocS => exact .inr rfl
  | stloc0 | stloc1 | stloc2 | stloc3 =>
    cases h
    exact .inl rfl
  | _ => simp [Denotes] at h

theorem Denotes.constant {v : Int32} (h : op.Denotes operand (.ldcI4 v)) (hl : operand.length = op.operandSize) :
    Emission.constants[v.toUInt32.toNat]? = some op ∨ (op = .ldcI4S ∧ v.toUInt32.toNat < 256) ∨ op = .ldcI4 := by
  cases op with
  | ldcI4 => exact .inr (.inr rfl)
  | ldcI4S =>
    obtain ⟨_, heq, hv⟩ := h
    cases heq
    have hlt := valueLE_lt operand
    rw [hl] at hlt
    -- read without a sign, the byte makes no negative constant
    have hnonneg : 0 ≤ v := by
      rw [Int32.le_iff_toInt_le, hv]
      exact Int.natCast_nonneg _
    have hnat : v.toUInt32.toNat = v.toInt.toNat := Int32.toNat_toUInt32_of_le hnonneg
    rw [hv, Int.toNat_natCast] at hnat
    exact .inr (.inl ⟨rfl, hnat ▸ hlt⟩)
  | ldcI40 | ldcI41 | ldcI42 | ldcI43 | ldcI44 | ldcI45 | ldcI46 | ldcI47 | ldcI48 =>
    cases h
    exact .inl rfl
  | _ => simp [Denotes] at h

end Opcode

/-! ## The opcode of an emission -/

namespace Emission

theorem length_bytes (e : Emission) : e.bytes.length = e.encoding.1.size := length_encodeWith (means_encoding e).1

theorem size_shorten_le {ops : List Opcode} {long op : Opcode} {n : Nat} (hops : ∀ short ∈ ops, short.size = 1)
    (h : ops[n]? = some op ∨ long.size ≤ op.size) : (shorten ops long n).1.size ≤ op.size := by
  unfold shorten
  cases hn : ops[n]? with
  | none =>
    rw [hn] at h
    exact h.resolve_left (by simp)
  | some short =>
    have hshort : short.size = 1 := hops short (List.mem_of_getElem? hn)
    have hpos := length_encode_pos op
    show short.size ≤ op.size
    rw [hshort]
    exact Nat.le_add_right_of_le hpos

theorem encodes_bytes (e : Emission) : Encodes e.bytes e.instruction := by
  have hat : HasAt e.bytes.toArray 0 e.bytes := hasAt_iff.mpr List.prefix_rfl
  have hdecode := decodeAt_of_emission hat
  rw [Nat.zero_add] at hdecode
  exact ⟨rfl, _, Decoder.next?_of_decodeAt rfl (length_bytes_pos e) hdecode, Decoder.next?_at_end (Nat.le_refl _), rfl⟩

theorem shortest_of_le {e : Emission} (h : ∀ (op : Opcode) (operand : List UInt8), operand.length = op.operandSize →
    op.Denotes operand e.instruction → e.encoding.1.size ≤ op.size) : Shortest e.bytes e.instruction := by
  refine ⟨encodes_bytes e, ?_⟩
  intro other hother
  obtain ⟨op, operand, hlength, hdenotes, hsize⟩ := hother.exists_opcode
  rw [length_bytes]
  exact Nat.le_trans (h op operand hlength hdenotes) hsize

theorem shortest_of_shorten {e : Emission} {ops : List Opcode} {long : Opcode} {n : Nat}
    (he : e.encoding = shorten ops long n) (hops : ∀ short ∈ ops, short.size = 1)
    (h : ∀ (op : Opcode) (operand : List UInt8), op.Denotes operand e.instruction → ops[n]? = some op ∨ op = long) :
    Shortest e.bytes e.instruction := by
  apply shortest_of_le
  intro op operand _ hdenotes
  rw [he]
  apply size_shorten_le hops
  rcases h op operand hdenotes with hshort | rfl
  · exact .inl hshort
  · exact .inr (Nat.le_refl _)

theorem shortest_ldloc (k : UInt8) : Shortest (ldloc k).bytes (.ldloc k) :=
  @shortest_of_shorten (ldloc k) _ _ _ rfl (by decide) fun _ _ h => h.load

theorem shortest_stloc (k : UInt8) : Shortest (stloc k).bytes (.stloc k) :=
  @shortest_of_shorten (stloc k) _ _ _ rfl (by decide) fun _ _ h => h.store

theorem shortest_ldcI4 (v : Int32) : Shortest (ldcI4 v).bytes (.ldcI4 v) := by
  apply shortest_of_le
  intro op operand hlength hdenotes
  have hspelled := hdenotes.constant hlength
  by_cases hv : v.toUInt32 < 256
  · simp only [encoding, if_pos hv]
    apply size_shorten_le (by decide)
    rcases hspelled with hshort | ⟨rfl, _⟩ | rfl
    · exact .inl hshort
    · exact .inr (Nat.le_refl _)
    · exact .inr (by decide)
  · have hlarge : ¬ v.toUInt32.toNat < 256 := hv
    simp only [encoding, if_neg hv]
    rcases hspelled with hshort | ⟨_, hsmall⟩ | rfl
    · have hlt := (List.getElem?_eq_some_iff.mp hshort).1
      exact absurd (Nat.lt_of_lt_of_le hlt (by decide)) hlarge
    · exact absurd hsmall hlarge
    · exact Nat.le_refl _

end Emission

theorem Assembler.toList_emit (a : Assembler) (e : Emission) : (a.emit e).bytes.toList = a.bytes.toList ++ e.bytes := by
  simp [emit, append]

/-- Emitting a constant or an access to a local appends an encoding of that instruction, and no sequence of bytes that
a decoder takes for this instruction alone is shorter. -/
theorem emitted_shortest (a : Assembler) :
    (∀ v : Int32, ∃ bs, (a.emit (.ldcI4 v)).bytes.toList = a.bytes.toList ++ bs ∧ Shortest bs (.ldcI4 v)) ∧
    (∀ k : UInt8, ∃ bs, (a.emit (.ldloc k)).bytes.toList = a.bytes.toList ++ bs ∧ Shortest bs (.ldloc k)) ∧
    ∀ k : UInt8, ∃ bs, (a.emit (.stloc k)).bytes.toList = a.bytes.toList ++ bs ∧ Shortest bs (.stloc k) := by
  refine ⟨?_, ?_, ?_⟩
  · intro v
    exact ⟨_, a.toList_emit _, Emission.shortest_ldcI4 v⟩
  · intro k
    exact ⟨_, a.toList_emit _, Emission.shortest_ldloc k⟩
  · intro k
    exact ⟨_, a.toList_emit _, Emission.shortest_stloc k⟩

/-- The operand of a short constant has no sign: 255 is written with it, but -1 needs one of four bytes. -/
theorem emitted_shortest_minusOne : Encodes [0x1F, 0xFF] (.ldcI4 255) ∧ ¬ Encodes [0x1F, 0xFF] (.ldcI4 (-1)) := by
  constructor
  · exact Emission.encodes_bytes (.ldcI4 255)
  · intro hshort
    obtain ⟨bs, hbs, hmin⟩ := (emitted_shortest .empty).1 (-1)
    obtain rfl : [0x20, 0xFF, 0xFF, 0xFF, 0xFF] = bs := hbs
    exact absurd (hmin.length_le _ hshort) (by decide)

end StackVm
