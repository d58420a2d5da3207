import StackVm.Proofs.Encoding

/-!
# The instruction grammar

An instruction is an opcode followed by as many operand bytes as the opcode
takes. The bytes at a cursor begin with an instruction (`Opens`), are cut off
within one (`Exceeds`), or announce an opcode that does not exist (`Unknown`); a decoder
succeeds in the first case only, and its answer tells the case.
-/

namespace StackVm

/-! ## Numbers -/

def valueLE : List UInt8 → Nat
  | [] => 0
  | b :: bs => b.toNat + 256 * valueLE bs

/-- The same in two's complement: the highest bit counts negatively. -/
def signedLE (bs : List UInt8) : Int := (valueLE bs : Int).bmod (Nat.pow 256 bs.length)

theorem valueLE_lt : ∀ bs, valueLE bs < Nat.pow 256 bs.length
  | [] => Nat.one_pos
  | b :: bs => by
    have hb : b.toNat < 256 := b.toNat_lt
    have ih := valueLE_lt bs
    have hp : Nat.pow 256 (bs.length + 1) = 256 * Nat.pow 256 bs.length := Nat.mul_comm _ _
    simp only [valueLE, List.length_cons, hp]
    omega

theorem bytesLE_valueLE : ∀ bs, bytesLE bs.length (valueLE bs) = bs
  | [] => rfl
  | b :: bs => by
    have hb : b.toNat < 256 := b.toNat_lt
    have hlow : (b.toNat + 256 * valueLE bs) % 256 = b.toNat := by omega
    have hhigh : (b.toNat + 256 * valueLE bs) / 256 = valueLE bs := by omega
    simp only [List.length_cons, bytesLE, valueLE, hlow, hhigh, bytesLE_valueLE bs]
    simp

theorem exists_fields : ∀ (widths : List Nat) (bs : List UInt8), bs.length = widths.foldr (· + ·) 0 →
    ∃ ns, FieldsFit widths ns ∧ (List.zipWith bytesLE widths ns).flatten = bs ∧
      ns.headD 0 = valueLE (bs.take (widths.headD 0))
  | [], bs, h => by
    obtain rfl : bs = [] := List.length_eq_zero_iff.mp h
    exact ⟨[], trivial, rfl, rfl⟩
  | width :: widths, bs, h => by
    rw [List.foldr_cons] at h
    have hw : (bs.take width).length = width := by
      rw [List.length_take]
      omega
    have hrest : (bs.drop width).length = widths.foldr (· + ·) 0 := by
      rw [List.length_drop]
      omega
    obtain ⟨ns, hf, hb, _⟩ := exists_fields widths (bs.drop width) hrest
    have hlt := valueLE_lt (bs.take width)
    have hback := bytesLE_valueLE (bs.take width)
    rw [hw] at hlt hback
    refine ⟨valueLE (bs.take width) :: ns, ⟨hlt, hf⟩, ?_, rfl⟩
    rw [List.zipWith_cons_cons, List.flatten_cons, hb, hback, List.take_append_drop]

/-! ## Opcodes and what they mean -/

namespace Opcode

def Denotes (operand : List UInt8) (i : Instruction) : Opcode → Prop
  | nop => i = .nop
  | ldloc0 => i = .ldloc 0
  | ldloc1 => i = .ldloc 1
  | ldloc2 => i = .ldloc 2
  | ldloc3 => i = .ldloc 3
  | ldlocS => ∃ k, i = .ldloc k ∧ k.toNat = valueLE operand
  | stloc0 => i = .stloc 0
  | stloc1 => i = .stloc 1
  | stloc2 => i = .stloc 2
  | stloc3 => i = .stloc 3
  | stlocS => ∃ k, i = .stloc k ∧ k.toNat = valueLE operand
  | ldlocaS => ∃ k, i = .ldloca k ∧ k.toNat = valueLE operand
  | ldcI40 => i = .ldcI4 0
  | ldcI41 => i = .ldcI4 1
  | ldcI42 => i = .ldcI4 2
  | ldcI43 => i = .ldcI4 3
  | ldcI44 => i = .ldcI4 4
  | ldcI45 => i = .ldcI4 5
  | ldcI46 => i = .ldcI4 6
  | ldcI47 => i = .ldcI4 7
  | ldcI48 => i = .ldcI4 8
  -- the one operand of a constant that has no sign
  | ldcI4S => ∃ v, i = .ldcI4 v ∧ v.toInt = valueLE operand
  | ldcI4 => ∃ v, i = .ldcI4 v ∧ v.toInt = signedLE operand
  | ldcR8 => ∃ bits, i = .ldcR8 bits ∧ bits.toNat = valueLE operand
  | call => ∃ token, i = .call token ∧ token.toNat = valueLE operand
  | ret => i = .ret
  | brS => ∃ d, i = .br d ∧ d.toInt = signedLE operand
  | brfalseS => ∃ d, i = .brfalse d ∧ d.toInt = signedLE operand
  | brtrueS | brtrue => ∃ d, i = .brtrue d ∧ d.toInt = signedLE operand
  | add => i = .add
  | div => i = .div
  | rem => i = .rem
  | convR8 => i = .convR8
  -- the upper two bytes are there but mean nothing
  | ldstr => ∃ token, i = .ldstr token ∧ token.toNat = valueLE (operand.take 2)
  | ceq => i = .ceq
  | cgt => i = .cgt
  | clt => i = .clt

theorem toInt_int32 {bs : List UInt8} (h : bs.length = 4) : (Int32.ofNat (valueLE bs)).toInt = signedLE bs := by
  rw [Int32.toInt_ofNat', signedLE, h]

theorem toInt_int8 {bs : List UInt8} (h : bs.length = 1) : (Int8.ofNat (valueLE bs)).toInt32.toInt = signedLE bs := by
  rw [Int8.toInt_toInt32, Int8.toInt_ofNat', signedLE, h]

theorem operandSize_le {op : Opcode} (h : op ≠ .ldstr) : op.operandSize ≤ op.fields.headD 0 := by
  revert h
  cases op <;> decide

/-- The instruction of an opcode with these operand bytes, of which only the first field counts. -/
def decoded (op : Opcode) (operand : List UInt8) : Instruction :=
  op.instruction (valueLE (operand.take (op.fields.headD 0)))

theorem denotes_decoded {op : Opcode} {operand : List UInt8} (h : operand.length = op.operandSize) :
    op.Denotes operand (op.decoded operand) := by
  unfold decoded
  by_cases hs : op = .ldstr
  · subst hs
    have htwo : (operand.take 2).length = 2 := by
      rw [List.length_take, h]
      rfl
    have hlt := valueLE_lt (operand.take 2)
    rw [htwo] at hlt
    exact ⟨_, rfl, Nat.mod_eq_of_lt hlt⟩
  · have hlt := valueLE_lt operand
    rw [List.take_of_length_le (h ▸ operandSize_le hs)]
    rw [h] at hlt
    cases op with
    | ldlocS | stlocS | ldlocaS | ldcR8 | call => exact ⟨_, rfl, Nat.mod_eq_of_lt hlt⟩
    | ldcI4S =>
      have hlt : valueLE operand < 256 := hlt
      exact ⟨_, rfl, Int32.toInt_ofNat_of_lt (by omega)⟩
    | ldcI4 | brtrue => exact ⟨_, rfl, toInt_int32 h⟩
    | brS | brfalseS | brtrueS => exact ⟨_, rfl, toInt_int8 h⟩
    | ldstr => exact absurd rfl hs
    | _ => exact rfl

structure Opens (op : Opcode) (operand rest : List UInt8) : Prop where
  length : operand.length = op.operandSize
  bytes : op.encode ++ operand <+: rest

/-- The end of `rest` cuts off the opcode with these operand bytes, or leaves nothing of it. -/
structure Exceeds (op : Opcode) (operand rest : List UInt8) : Prop where
  length : operand.length = op.operandSize
  bytes : rest <+: op.encode ++ operand
  proper : rest ≠ op.encode ++ operand

theorem Exceeds.length_lt {op : Opcode} {operand rest : List UInt8} (h : op.Exceeds operand rest) :
    rest.length < op.encode.length + op.operandSize := by
  rw [← h.length, ← List.length_append]
  apply Nat.lt_of_le_of_ne h.bytes.length_le
  intro he
  exact h.proper (h.bytes.eq_of_length he)

theorem encode_of_code {op : Opcode} {b : UInt8} (h : op.code = b.toUInt16) : op.encode = [b] := by
  have hb : b.toNat < 256 := b.toNat_lt
  have hx : op.isExtended = false := by
    unfold isExtended
    rw [h, beq_eq_false_iff_ne, ne_eq, ← UInt8.toNat_inj]
    simp [Nat.shiftRight_eq_div_pow, escape]
    omega
  simp [encode, hx, h]

theorem toNat_escaped (b : UInt8) : (escape.toUInt16 <<< 8 ||| b.toUInt16).toNat = 0xFE00 + b.toNat := by
  have hlow : b.toNat < 2 ^ 8 := b.toNat_lt
  have hor := Nat.shiftLeft_add_eq_or_of_lt hlow 0xFE
  simp at hor
  rw [UInt16.toNat_or, UInt16.toNat_shiftLeft]
  simp [escape]
  omega

theorem encode_of_code_escaped {op : Opcode} {b : UInt8} (h : op.code = escape.toUInt16 <<< 8 ||| b.toUInt16) :
    op.encode = [escape, b] := by
  have hb : b.toNat < 256 := b.toNat_lt
  have hn := toNat_escaped b
  rw [← h] at hn
  have hx : op.isExtended = true := by
    unfold isExtended
    rw [beq_iff_eq, ← UInt8.toNat_inj]
    simp [Nat.shiftRight_eq_div_pow, escape, hn]
    omega
  have hlow : op.code.toUInt8 = b := by
    rw [← UInt8.toNat_inj]
    simp [hn]
    omega
  simp [encode, hx, hlow]

end Opcode

/-- The opcode that bytes begin with, as a number: the first byte, or the escape byte and the one after it. -/
def announced? : List UInt8 → Option Nat
  | [] => none
  | first :: bs => if first = 0xFE then bs.head?.map (0xFE00 + ·.toNat) else some first.toNat

/-! ## Reading -/

section
variable {code : Code} {pos : Nat}

theorem getElem?_add (code : Code) (pos j : Nat) : code[pos + j]? = (code.toList.drop pos)[j]? := by
  rw [List.getElem?_drop, Array.getElem?_toList]

theorem hasAt_iff {bs : List UInt8} : HasAt code pos bs ↔ bs <+: code.toList.drop pos := by
  unfold HasAt
  rw [List.prefix_iff_getElem?]
  apply forall_congr'
  intro j
  apply forall_congr'
  intro hj
  rw [getElem?_add, List.getElem?_eq_getElem hj]

theorem length_rest (code : Code) (pos : Nat) : (code.toList.drop pos).length = code.size - pos := by
  rw [List.length_drop, Array.length_toList]

theorem readOpcode_cases (code : Code) (pos : Nat) :
    (code.toList.drop pos <+: [Opcode.escape] ∧ ∃ stop, readOpcode code pos = .error stop) ∨
    ∃ (value : UInt16) (bytes : List UInt8), bytes <+: code.toList.drop pos ∧
      announced? bytes = some value.toNat ∧ (∀ op : Opcode, op.code = value → op.encode = bytes) ∧
      readOpcode code pos = .ok (value, pos + bytes.length) := by
  have h0 := getElem?_add code pos 0
  have h1 := getElem?_add code pos 1
  unfold readOpcode
  cases hr : code.toList.drop pos with
  | nil =>
    simp [hr] at h0
    simp [h0]
  | cons first bs =>
    simp [hr] at h0 h1
    by_cases he : first = Opcode.escape
    · cases bs with
      | nil =>
        simp at h1
        simp [h0, h1, he]
      | cons second bs =>
        simp at h1
        refine .inr ⟨_, [Opcode.escape, second], ⟨bs, by simp [he]⟩, ?_, ?_, by simp [h0, h1, he]; rfl⟩
        · rw [Opcode.toNat_escaped]
          rfl
        · intro op hop
          exact Opcode.encode_of_code_escaped hop
    · refine .inr ⟨first.toUInt16, [first], ⟨bs, rfl⟩, ?_, ?_, by simp [h0, he]⟩
      · have he : first ≠ 0xFE := he
        simp [announced?, he]
      · intro op hop
        exact Opcode.encode_of_code hop

theorem le_of_readLE? : ∀ {width pos n : Nat}, readLE? code pos width = some n → width ≤ code.size - pos
  | 0, _, _, _ => Nat.zero_le _
  | width + 1, pos, n, h => by
    simp only [readLE?, Option.bind_eq_bind, Option.bind_eq_some_iff] at h
    obtain ⟨low, hlow, high, hhigh, _⟩ := h
    have hlt := (Array.getElem?_eq_some_iff.mp hlow).1
    have hle := le_of_readLE? hhigh
    omega

theorem sum_le_of_readFields {widths ns : List Nat} {next : Nat} (h : readFields code pos widths = .ok (ns, next)) :
    widths.foldr (· + ·) 0 ≤ code.size - pos := by
  induction widths generalizing pos ns next with
  | nil => exact Nat.zero_le _
  | cons width widths ih =>
    simp only [readFields] at h
    split at h
    · cases h
    · next hn =>
      split at h
      · next hrest =>
        have hle := le_of_readLE? hn
        have hsum := ih hrest
        simp only [List.foldr_cons]
        omega
      · cases h

theorem listingAt_of_opens {op : Opcode} {operand : List UInt8} (h : op.Opens operand (code.toList.drop pos)) :
    listingAt code pos = .ok (⟨op, op.decoded operand⟩, pos + op.encode.length + op.operandSize) := by
  obtain ⟨ns, hf, hb, hhead⟩ := exists_fields op.fields operand (h.length.trans op.foldr_fields.symm)
  have hat : HasAt code pos (op.encodeWith ns) := by
    rw [hasAt_iff, Opcode.encodeWith, hb]
    exact h.bytes
  rw [listingAt_of_hasAt hf hat, hhead, length_encodeWith hf, Nat.add_assoc]
  rfl

theorem listingAt_of_encode {op : Opcode} (h : op.encode <+: code.toList.drop pos) :
    (∃ operand, op.Opens operand (code.toList.drop pos)) ∨
    ∃ operand stop, op.Exceeds operand (code.toList.drop pos) ∧ listingAt code pos = .error ⟨.truncated pos, stop⟩ := by
  have hread := readOpcode_of_hasAt (hasAt_iff.mpr h)
  obtain ⟨bs, hbs⟩ := h
  have hlen := length_rest code pos
  rw [← hbs, List.length_append] at hlen
  by_cases hle : op.operandSize ≤ bs.length
  · refine .inl ⟨bs.take op.operandSize, List.length_take_of_le hle, ?_⟩
    rw [← hbs, List.prefix_append_right_inj]
    exact List.take_prefix _ _
  · refine .inr ⟨bs ++ List.replicate (op.operandSize - bs.length) 0, ?_⟩
    have hex : op.Exceeds (bs ++ List.replicate (op.operandSize - bs.length) 0) (code.toList.drop pos) := by
      refine ⟨?_, ?_, ?_⟩
      · simp
        omega
      · rw [← hbs, List.prefix_append_right_inj]
        exact List.prefix_append _ _
      · rw [← hbs]
        simp
        omega
    cases hf : readFields code (pos + op.encode.length) op.fields with
    | error stop => exact ⟨stop, hex, by simp only [listingAt, hread, ofCode?_code, hf]⟩
    | ok r =>
      have hsum := op.foldr_fields ▸ sum_le_of_readFields hf
      omega

end

/-! ## The three cases -/

theorem announced?_mono {bs rest : List UInt8} {n : Nat} (h : bs <+: rest) (hn : announced? bs = some n) :
    announced? rest = some n := by
  obtain ⟨more, rfl⟩ := h
  cases bs with
  | nil => cases hn
  | cons first bs =>
    simp only [announced?] at hn
    simp only [List.cons_append, announced?]
    by_cases he : first = 0xFE
    · rw [if_pos he] at hn ⊢
      cases bs with
      | nil => cases hn
      | cons second bs => exact hn
    · rw [if_neg he] at hn ⊢
      exact hn

theorem announced?_encode (op : Opcode) : announced? op.encode = some op.code.toNat := by
  cases op <;> rfl

structure Unknown (value : UInt16) (announcing rest : List UInt8) : Prop where
  bytes : announcing <+: rest
  announces : announced? announcing = some value.toNat
  missing : Opcode.ofCode? value = none

section
variable {rest : List UInt8} {op op' : Opcode} {operand operand' : List UInt8}

theorem Opcode.Opens.unique (h : op.Opens operand rest) (h' : op'.Opens operand' rest) :
    op = op' ∧ operand = operand' := by
  have heq : op = op' := by
    have hl := @listingAt_of_opens rest.toArray 0 op operand h
    rw [@listingAt_of_opens rest.toArray 0 op' operand' h'] at hl
    simp only [Except.ok.injEq, Prod.mk.injEq, Listing.mk.injEq] at hl
    exact hl.1.1.symm
  subst heq
  have hlen : (op.encode ++ operand).length = (op.encode ++ operand').length := by
    simp [h.length, h'.length]
  have hpre := List.prefix_of_prefix_length_le h.bytes h'.bytes (Nat.le_of_eq hlen)
  exact ⟨rfl, List.append_cancel_left (hpre.eq_of_length hlen)⟩

theorem Opcode.Opens.not_exceeds (h : op.Opens operand rest) : ¬ op'.Exceeds operand' rest := by
  intro h'
  have hlt := h'.length_lt
  have hle := h.bytes.length_le
  -- both would stand at the front of the longer one
  obtain ⟨rfl, _⟩ := Opcode.Opens.unique ⟨h.length, h.bytes.trans h'.bytes⟩ ⟨h'.length, List.prefix_rfl⟩
  rw [List.length_append, h.length] at hle
  omega

theorem Unknown.not_encode {value : UInt16} {announcing longer : List UInt8} (h : Unknown value announcing rest)
    (hl : rest <+: longer) : ¬ op.encode <+: longer := by
  intro hop
  have hn := announced?_mono (h.bytes.trans hl) h.announces
  rw [announced?_mono hop (announced?_encode op)] at hn
  have hv : op.code = value := UInt16.toNat_inj.mp (Option.some.inj hn)
  have hm := h.missing
  rw [← hv, ofCode?_code] at hm
  cases hm

theorem Unknown.not_opens {value : UInt16} {announcing : List UInt8} (h : Unknown value announcing rest) :
    ¬ op.Opens operand rest := by
  intro ho
  exact h.not_encode List.prefix_rfl ((List.prefix_append _ _).trans ho.bytes)

theorem Unknown.not_exceeds {value : UInt16} {announcing : List UInt8} (h : Unknown value announcing rest) :
    ¬ op.Exceeds operand rest := by
  intro ho
  exact h.not_encode ho.bytes (List.prefix_append _ _)

end

theorem listingAt_cases (code : Code) (pos : Nat) :
    (∃ (op : Opcode) (operand : List UInt8), op.Opens operand (code.toList.drop pos)) ∨
    (∃ (op : Opcode) (operand : List UInt8) (stop : Nat), op.Exceeds operand (code.toList.drop pos) ∧
      listingAt code pos = .error ⟨.truncated pos, stop⟩) ∨
    ∃ (value : UInt16) (announcing : List UInt8), Unknown value announcing (code.toList.drop pos) ∧
      listingAt code pos = .error ⟨.unsupported value pos, pos + announcing.length⟩ := by
  rcases readOpcode_cases code pos with ⟨hr, stop, ho⟩ | ⟨value, bytes, hr, hv, hop, ho⟩
  · -- whatever is left, if anything, begins every escaped opcode
    refine .inr (.inl ⟨.ceq, [], stop, ⟨rfl, hr.trans ⟨[1], rfl⟩, ?_⟩, by simp only [listingAt, ho]⟩)
    intro he
    have hle := hr.length_le
    rw [he] at hle
    exact absurd hle (by decide)
  · cases hc : Opcode.ofCode? value with
    | none => exact .inr (.inr ⟨value, bytes, ⟨hr, hv, hc⟩, by simp only [listingAt, ho, hc]⟩)
    | some op =>
      rw [← hop op (Opcode.code_of_ofCode? hc)] at hr
      rcases listingAt_of_encode hr with ⟨operand, h⟩ | ⟨operand, stop, h⟩
      · exact .inl ⟨op, operand, h⟩
      · exact .inr (.inl ⟨op, operand, stop, h⟩)

/-! ## Decoders -/

namespace Decoder

variable {d d' : Decoder}

def rest (d : Decoder) : List UInt8 := d.code.toList.drop d.pos

/-- `d'` stands where `d` stands and finds the same there, up to `stop`. -/
structure Agrees (d d' : Decoder) (stop : Nat) : Prop where
  pos : d'.pos = d.pos
  bytes : ∀ k, d.pos ≤ k → k < stop → d'.code[k]? = d.code[k]?

theorem Agrees.bytes_prefix {stop : Nat} {bs : List UInt8} (h : d.Agrees d' stop) (hs : d.pos + bs.length ≤ stop)
    (hb : bs <+: d.rest) : bs <+: d'.rest := by
  have hat := hasAt_iff.mpr hb
  apply hasAt_iff.mp
  intro j hj
  rw [h.pos, h.bytes _ (by omega) (by omega)]
  exact hat j hj

theorem Agrees.rest_eq {stop : Nat} (h : d.Agrees d' stop) (hs : d.pos + d.rest.length < stop) : d'.rest = d.rest := by
  -- one byte further than `d` has any, so that the end is seen too
  have hj : ∀ j ≤ d.rest.length, d'.rest[j]? = d.rest[j]? := by
    intro j hj
    unfold rest
    rw [← getElem?_add, ← getElem?_add, h.pos, h.bytes _ (by omega) (by omega)]
  have hend := hj _ (Nat.le_refl _)
  rw [List.getElem?_eq_none (Nat.le_refl _), List.getElem?_eq_none_iff] at hend
  apply List.ext_getElem?
  intro j
  by_cases hle : j ≤ d.rest.length
  · exact hj j hle
  · rw [List.getElem?_eq_none (by omega), List.getElem?_eq_none (by omega)]

section
variable {op : Opcode} {operand : List UInt8} {value : UInt16} {announcing : List UInt8}

theorem listing_of_opens (h : op.Opens operand d.rest) :
    d.listing = (.ok ⟨op, op.decoded operand⟩, { d with pos := d.pos + op.encode.length + op.operandSize }) := by
  simp only [listing, listingAt_of_opens h]

theorem listing_cases (d : Decoder) :
    (∃ (op : Opcode) (operand : List UInt8), op.Opens operand d.rest) ∨
    (∃ (op : Opcode) (operand : List UInt8), op.Exceeds operand d.rest ∧
      d.listing.1 = .error (.truncated d.pos)) ∨
    ∃ (value : UInt16) (announcing : List UInt8), Unknown value announcing d.rest ∧
      d.listing = (.error (.unsupported value d.pos), { d with pos := d.pos + announcing.length }) := by
  rcases listingAt_cases d.code d.pos with h | ⟨op, operand, stop, h, hl⟩ | ⟨value, announcing, h, hl⟩
  · exact .inl h
  · exact .inr (.inl ⟨op, operand, h, by simp only [listing, hl]⟩)
  · exact .inr (.inr ⟨value, announcing, h, by simp only [listing, hl]⟩)

theorem listing_of_exceeds (h : op.Exceeds operand d.rest) :
    d.listing.1 = .error (.truncated d.pos) := by
  rcases listing_cases d with ⟨op', operand', ho⟩ | ⟨_, _, _, hl⟩ | ⟨value, announcing, hu, _⟩
  · exact absurd h ho.not_exceeds
  · exact hl
  · exact absurd h hu.not_exceeds

theorem listing_of_unknown (h : Unknown value announcing d.rest) :
    d.listing.1 = .error (.unsupported value d.pos) := by
  rcases listing_cases d with ⟨op, operand, ho⟩ | ⟨op, operand, he, _⟩ | ⟨value', announcing', hu, hl⟩
  · exact absurd ho h.not_opens
  · exact absurd he h.not_exceeds
  · have hn := announced?_mono h.bytes h.announces
    rw [announced?_mono hu.bytes hu.announces] at hn
    rw [hl, UInt16.toNat_inj.mp (Option.some.inj hn)]

theorem listing_eq_ok_iff {i : Instruction} {n : Nat} : d.listing = (.ok ⟨op, i⟩, { d with pos := n }) ↔
    ∃ operand, op.Opens operand d.rest ∧ i = op.decoded operand ∧
      n = d.pos + op.encode.length + op.operandSize := by
  constructor
  · intro hl
    rcases d.listing_cases with ⟨op, operand, ho⟩ | ⟨_, _, _, he⟩ | ⟨_, _, _, hu⟩
    · rw [listing_of_opens ho] at hl
      cases hl
      exact ⟨operand, ho, rfl, rfl⟩
    · rw [hl] at he
      cases he
    · rw [hl] at hu
      cases hu
  · rintro ⟨operand, ho, rfl, rfl⟩
    exact listing_of_opens ho

theorem listing_truncated_iff {offset : Nat} : d.listing.1 = .error (.truncated offset) ↔
    offset = d.pos ∧ ∃ op : Opcode, ∃ operand, op.Exceeds operand d.rest := by
  constructor
  · intro ht
    rcases d.listing_cases with ⟨op, operand, ho⟩ | ⟨op, operand, he, hl⟩ | ⟨_, _, _, hu⟩
    · rw [listing_of_opens ho] at ht
      cases ht
    · rw [hl] at ht
      cases ht
      exact ⟨rfl, op, operand, he⟩
    · rw [hu] at ht
      cases ht
  · rintro ⟨rfl, op, operand, he⟩
    exact listing_of_exceeds he

theorem listing_unsupported_iff :
    (∃ opcode : UInt16, announced? d.rest = some opcode.toNat ∧
      d.listing.1 = .error (.unsupported opcode d.pos)) ↔
    (¬ ∃ op : Opcode, ∃ operand, op.Opens operand d.rest) ∧
      ¬ ∃ op : Opcode, ∃ operand, op.Exceeds operand d.rest := by
  constructor
  · rintro ⟨opcode, _, hl⟩
    constructor
    · rintro ⟨op, operand, ho⟩
      rw [listing_of_opens ho] at hl
      cases hl
    · rintro ⟨op, operand, he⟩
      rw [listing_of_exceeds he] at hl
      cases hl
  · rintro ⟨hno, hne⟩
    rcases d.listing_cases with ho | ⟨op, operand, he, _⟩ | ⟨value, announcing, hu, hl⟩
    · exact absurd ho hno
    · exact absurd ⟨op, operand, he⟩ hne
    · exact ⟨value, announced?_mono hu.bytes hu.announces, by rw [hl]⟩

theorem Agrees.listing_eq (ha : d.Agrees d' d.listing.2.pos) (hn : d.listing.1 ≠ .error (.truncated d.pos)) :
    d'.listing.1 = d.listing.1 := by
  rcases d.listing_cases with ⟨op, operand, ho⟩ | ⟨_, _, _, hl⟩ | ⟨value, announcing, hu, hl⟩
  · rw [listing_of_opens ho] at ha ⊢
    have hb := ha.bytes_prefix (by simp [ho.length, Nat.add_assoc]) ho.bytes
    rw [listing_of_opens ⟨ho.length, hb⟩]
  · exact absurd hl hn
  · rw [hl] at ha ⊢
    have hb := ha.bytes_prefix (Nat.le_refl _) hu.bytes
    rw [listing_of_unknown ⟨hb, hu.announces, hu.missing⟩, ha.pos]

end

end Decoder

/-- A decoder reads an opcode with its operand if they are there, and gives the instruction that they denote.
It fails for want of bytes if the code ends within an instruction, and over the opcode in all other cases;
bytes outside of the instruction do not matter. -/
theorem listing_grammar (d : Decoder) :
    (∀ op n, (∃ i, d.listing = (.ok ⟨op, i⟩, { d with pos := n })) ↔
      (∃ operand, op.Opens operand d.rest) ∧ n = d.pos + op.encode.length + op.operandSize) ∧
    (∀ (op : Opcode) operand l after, op.Opens operand d.rest → d.listing = (.ok l, after) →
      l.opcode = op ∧ op.Denotes operand l.instruction) ∧
    (∀ offset, d.listing.1 = .error (.truncated offset) ↔
      offset = d.pos ∧ ∃ op : Opcode, ∃ operand, op.Exceeds operand d.rest) ∧
    ((∃ opcode : UInt16, announced? d.rest = some opcode.toNat ∧
        d.listing.1 = .error (.unsupported opcode d.pos)) ↔
      (¬ ∃ op : Opcode, ∃ operand, op.Opens operand d.rest) ∧
        ¬ ∃ op : Opcode, ∃ operand, op.Exceeds operand d.rest) ∧
    (∀ d', d.listing.1 ≠ .error (.truncated d.pos) → d.Agrees d' d.listing.2.pos → d'.listing.1 = d.listing.1) ∧
    ∀ (op : Opcode) operand d', op.Exceeds operand d.rest →
      d.Agrees d' (d.pos + op.encode.length + op.operandSize) → d'.listing.1 = d.listing.1 := by
  refine ⟨?_, ?_, fun _ => Decoder.listing_truncated_iff, Decoder.listing_unsupported_iff, ?_, ?_⟩
  · intro op n
    simp only [Decoder.listing_eq_ok_iff]
    constructor
    · rintro ⟨i, operand, ho, _, hn⟩
      exact ⟨⟨operand, ho⟩, hn⟩
    · rintro ⟨⟨operand, ho⟩, hn⟩
      exact ⟨_, operand, ho, rfl, hn⟩
  · intro op operand l after ho hl
    rw [Decoder.listing_of_opens ho] at hl
    cases hl
    exact ⟨rfl, Opcode.denotes_decoded ho.length⟩
  · intro d' hn ha
    exact ha.listing_eq hn
  · intro op operand d' he ha
    have hlt := he.length_lt
    have hr := ha.rest_eq (by omega)
    rw [Decoder.listing_of_exceeds he, Decoder.listing_of_exceeds (hr ▸ he), ha.pos]

/-- A string token that is there, followed by half of a table tag. -/
theorem listing_grammar_half : (Decoder.ofCode #[0x2A, 0x72, 1, 0, 0x70] 1).listing.1 = .error (.truncated 1) ∧
    ∃ i, (Decoder.ofCode #[0x2A, 0x72, 1, 0, 0x70, 0] 1).listing =
      (.ok ⟨.ldstr, i⟩, Decoder.ofCode #[0x2A, 0x72, 1, 0, 0x70, 0] 6) := by
  have hcut := (listing_grammar (.ofCode #[0x2A, 0x72, 1, 0, 0x70] 1)).2.2.1 1
  have hwhole := (listing_grammar (.ofCode #[0x2A, 0x72, 1, 0, 0x70, 0] 1)).1 .ldstr 6
  refine ⟨hcut.mpr ⟨rfl, .ldstr, [1, 0, 0x70, 0], rfl, ⟨[0], rfl⟩, by decide⟩, hwhole.mpr ⟨?_, rfl⟩⟩
  exact ⟨[1, 0, 0x70, 0], rfl, List.prefix_rfl⟩

end StackVm
