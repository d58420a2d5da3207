import StackVm.CommandLine
import StackVm.Proofs.Tiling
import StackVm.Proofs.WrittenNumbers

/-!
# Disassembly loses nothing

A line begins with the opcode's mnemonic and its operand, both in one piece, so
lines of the same text list the same instruction, unless it loads a float
(`listing_of_line`). Lines are told apart in what is printed, the instructions
they list fill the same places in both codes, and of an instruction's bytes only
the table tag of a string load is not seen in it (`bytes_of_listing`).
-/

namespace StackVm

/-! ## Texts next to each other -/

theorem append_inj_of_stop {p : Char → Bool} {u v x y : List Char} (hu : ∀ c ∈ u, p c = true)
    (hv : ∀ c ∈ v, p c = true) (hx : ∀ c ∈ x.head?, p c = false) (hy : ∀ c ∈ y.head?, p c = false)
    (h : u ++ x = v ++ y) : u = v ∧ x = y := by
  have hstop : ∀ {z : List Char}, (∀ c ∈ z.head?, p c = false) → z.takeWhile p = [] := by
    intro z hz
    cases z with
    | nil => rfl
    | cons c z => simp [hz c rfl]
  have htake := congrArg (List.takeWhile p) h
  rw [List.takeWhile_append_of_pos hu, List.takeWhile_append_of_pos hv, hstop hx, hstop hy, List.append_nil,
    List.append_nil] at htake
  subst htake
  exact ⟨rfl, List.append_cancel_left h⟩

/-- What follows a text in one piece: nothing, or a blank and more. -/
def Apart (x : List Char) : Prop := ∀ c ∈ x.head?, c = ' '

theorem apart_blank (x : List Char) : Apart (' ' :: x) := by
  intro c hc
  exact (Option.some.inj hc).symm

theorem solid_append_inj {s t : String} {x y : List Char} (hs : Solid s) (ht : Solid t) (hx : Apart x) (hy : Apart y)
    (h : s.toList ++ x = t.toList ++ y) : s = t ∧ x = y := by
  have hblank : ∀ {z : List Char}, Apart z → ∀ c ∈ z.head?, (!c.isWhitespace) = false := by
    intro z hz c hc
    rw [hz c hc]
    decide
  have hsolid : ∀ {s : String}, Solid s → ∀ c ∈ s.toList, (!c.isWhitespace) = true := by
    intro s hs c hc
    rw [hs c hc]
    rfl
  have hinj := append_inj_of_stop (p := fun c => !c.isWhitespace) (hsolid hs) (hsolid ht) (hblank hx) (hblank hy) h
  exact ⟨String.toList_inj.mp hinj.1, hinj.2⟩

/-- Texts without line breaks can be told apart when each ends with one. -/
theorem lines_inj {ls ls' : List String} (h : ∀ l ∈ ls, '\n' ∉ l.toList) (h' : ∀ l ∈ ls', '\n' ∉ l.toList)
    (hjoin : String.join (ls.map (· ++ "\n")) = String.join (ls'.map (· ++ "\n"))) : ls = ls' := by
  induction ls generalizing ls' with
  | nil =>
    cases ls' with
    | nil => rfl
    | cons l' ls' =>
      have hlist := congrArg String.toList hjoin
      simp at hlist
  | cons l ls ih =>
    cases ls' with
    | nil =>
      have hlist := congrArg String.toList hjoin
      simp at hlist
    | cons l' ls' =>
      have hfree : ∀ {l : String}, '\n' ∉ l.toList → ∀ c ∈ l.toList, (c != '\n') = true := by
        intro l hl c hc
        rw [bne_iff_ne]
        rintro rfl
        exact hl hc
      have hlist : l.toList ++ '\n' :: (String.join (ls.map (· ++ "\n"))).toList =
          l'.toList ++ '\n' :: (String.join (ls'.map (· ++ "\n"))).toList := by
        simpa using congrArg String.toList hjoin
      obtain ⟨hl, hrest⟩ := append_inj_of_stop (p := fun c => c != '\n') (hfree (h l List.mem_cons_self))
        (hfree (h' l' List.mem_cons_self)) (by simp) (by simp) hlist
      rw [String.toList_inj.mp hl, ih (fun l hl => h l (List.mem_cons_of_mem _ hl))
        (fun l hl => h' l (List.mem_cons_of_mem _ hl)) (String.toList_inj.mp (List.cons.inj hrest).2)]

/-! ## Mnemonics and operands -/

namespace Opcode

def all : List Opcode :=
  [nop, ldloc0, ldloc1, ldloc2, ldloc3, stloc0, stloc1, stloc2, stloc3, ldlocS, ldlocaS, stlocS,
    ldcI40, ldcI41, ldcI42, ldcI43, ldcI44, ldcI45, ldcI46, ldcI47, ldcI48, ldcI4S, ldcI4, ldcR8,
    call, ret, brS, brfalseS, brtrueS, brtrue, add, div, rem, convR8, ldstr, ceq, cgt, clt]

theorem find?_mnemonic (op : Opcode) : all.find? (·.mnemonic == op.mnemonic) = some op := by
  cases op <;> decide

theorem mnemonic_inj {op op' : Opcode} (h : op.mnemonic = op'.mnemonic) : op = op' := by
  have hfind := find?_mnemonic op
  rw [h, find?_mnemonic op'] at hfind
  exact (Option.some.inj hfind).symm

theorem solid_mnemonic (op : Opcode) : Solid op.mnemonic := by
  cases op <;> decide

/-- An instruction other than a float load is known from its opcode and the text of its operand. -/
theorem decoded_of_text {op : Opcode} (hop : op ≠ .ldcR8) {x y : List UInt8}
    (h : (op.decoded x).operandText? = (op.decoded y).operandText?) : op.decoded x = op.decoded y := by
  unfold decoded at h ⊢
  cases op with
  | ldcR8 => exact absurd rfl hop
  | ldlocS | stlocS | ldlocaS =>
    simp only [instruction, Instruction.operandText?, Option.some.injEq] at h ⊢
    rw [UInt8.toNat_inj.mp (Nat.repr_inj.mp h)]
  | ldcI4S | ldcI4 =>
    simp only [instruction, Instruction.operandText?, Option.some.injEq] at h ⊢
    rw [Int32.toInt_inj.mp (decimal_inj h)]
  | call =>
    simp only [instruction, Instruction.operandText?, Option.some.injEq] at h ⊢
    rw [UInt32.toNat_inj.mp (hexName_inj h)]
  | brS | brfalseS | brtrueS | brtrue =>
    simp only [instruction, Instruction.operandText?, Option.some.injEq] at h ⊢
    rw [Int32.toInt_inj.mp (signed_inj h)]
  | ldstr =>
    simp only [instruction, Instruction.operandText?, Option.some.injEq] at h ⊢
    rw [UInt16.toNat_inj.mp (hexName_inj ((String.append_right_inj _).mp h))]
  | _ => rfl

theorem decoded_ne_ldcR8 {op : Opcode} (hop : op ≠ .ldcR8) (x : List UInt8) (bits : UInt64) :
    op.decoded x ≠ .ldcR8 bits := by
  unfold decoded
  cases op with
  | ldcR8 => exact absurd rfl hop
  | _ => simp [instruction]

theorem operandText?_of_pos {op : Opcode} (hop : op.operandSize ≠ 0) (x : List UInt8) :
    ∃ text, (op.decoded x).operandText? = some text := by
  revert hop
  unfold decoded
  cases op <;> simp [instruction, Instruction.operandText?, operandSize, fields]

theorem decoded_of_zero {op : Opcode} (hop : op.operandSize = 0) (x y : List UInt8) :
    op.decoded x = op.decoded y := by
  revert hop
  unfold decoded
  cases op <;> simp [instruction, operandSize, fields]

end Opcode

theorem solid_operandText {i : Instruction} (hi : ∀ bits, i ≠ .ldcR8 bits) {text : String}
    (h : i.operandText? = some text) : Solid text := by
  cases i with
  | ldcR8 bits => exact absurd rfl (hi bits)
  | ldloc k | stloc k | ldloca k =>
    cases h
    exact solid_repr _
  | ldcI4 v =>
    cases h
    exact solid_decimal _
  | call token =>
    cases h
    exact solid_hexName _ _
  | br d | brfalse d | brtrue d =>
    cases h
    exact solid_signed _
  | ldstr token =>
    cases h
    exact solid_append (by decide) (solid_hexName _ _)
  | _ => cases h

/-! ## Lines -/

def Listing.operandChars (l : Listing) : List Char :=
  match if l.opcode.operandSize = 0 then none else l.instruction.operandText? with
  | some operand => ' ' :: operand.toList
  | none => []

/-- What a line shows after the listing: where a branch leads, in a column of its own. -/
def Span.remark (s : Span) : List Char :=
  match s.listing.instruction.branchOffset? with
  | some d => List.replicate (16 - s.listing.text.length) ' ' ++
      " ; -> ".toList ++ (hex 4 (word64 (s.stop + d.toInt))).toList
  | none => []

theorem Listing.toList_text (l : Listing) : l.text.toList = l.opcode.mnemonic.toList ++ l.operandChars := by
  unfold text operandChars
  cases (if l.opcode.operandSize = 0 then none else l.instruction.operandText?) with
  | none => simp [Instruction.line]
  | some operand => simp [Instruction.line]

theorem Span.toList_line (s : Span) : (Disassembly.line s).toList = (hex 4 s.start ++ ": ").toList ++
    (s.listing.opcode.mnemonic.toList ++ (s.listing.operandChars ++ s.remark)) := by
  unfold Disassembly.line remark
  rw [← List.append_assoc s.listing.opcode.mnemonic.toList, ← Listing.toList_text]
  cases s.listing.instruction.branchOffset? with
  | none => simp
  | some d => simp [Disassembly.padded]

theorem Listing.apart_operandChars (l : Listing) {x : List Char} (hx : Apart x) : Apart (l.operandChars ++ x) := by
  unfold operandChars
  cases (if l.opcode.operandSize = 0 then none else l.instruction.operandText?) with
  | none => exact hx
  | some operand => exact apart_blank _

theorem Span.apart_remark (s : Span) : Apart s.remark := by
  unfold remark
  cases s.listing.instruction.branchOffset? with
  | none => simp [Apart]
  | some d =>
    cases 16 - s.listing.text.length with
    | zero => exact apart_blank _
    | succ k => exact apart_blank _

/-- A listing with an operand shows it in one piece, unless that is a float. -/
theorem Listing.exists_operand {l : Listing} {x : List UInt8} (hx : l.instruction = l.opcode.decoded x)
    (hop : l.opcode ≠ .ldcR8) (hsize : l.opcode.operandSize ≠ 0) : ∃ text,
    l.instruction.operandText? = some text ∧ Solid text ∧ l.operandChars = ' ' :: text.toList := by
  obtain ⟨text, ht⟩ := Opcode.operandText?_of_pos hsize x
  have hsolid := solid_operandText (Opcode.decoded_ne_ldcR8 hop x) ht
  rw [← hx] at ht
  refine ⟨text, ht, hsolid, ?_⟩
  unfold operandChars
  rw [if_neg hsize, ht]

section
variable {s s' : Span} {x y : List UInt8}

theorem listing_of_line (hx : s.listing.instruction = s.listing.opcode.decoded x)
    (hy : s'.listing.instruction = s'.listing.opcode.decoded y) (hop : s.listing.opcode ≠ .ldcR8)
    (hstart : s.start = s'.start) (h : Disassembly.line s = Disassembly.line s') : s.listing = s'.listing := by
  have hlist := congrArg String.toList h
  rw [Span.toList_line, Span.toList_line, hstart] at hlist
  obtain ⟨hname, hrest⟩ := solid_append_inj (Opcode.solid_mnemonic _) (Opcode.solid_mnemonic _)
    (s.listing.apart_operandChars s.apart_remark) (s'.listing.apart_operandChars s'.apart_remark)
    (List.append_cancel_left hlist)
  have hsame := Opcode.mnemonic_inj hname
  suffices hi : s.listing.instruction = s'.listing.instruction from (Listing.mk.injEq ..).mpr ⟨hsame, hi⟩
  by_cases hsize : s.listing.opcode.operandSize = 0
  · rw [hx, hy, ← hsame]
    exact Opcode.decoded_of_zero hsize x y
  · obtain ⟨text, ht, hsolid, hshown⟩ := Listing.exists_operand hx hop hsize
    obtain ⟨text', ht', hsolid', hshown'⟩ := Listing.exists_operand hy (hsame ▸ hop) (hsame ▸ hsize)
    rw [hshown, hshown'] at hrest
    obtain ⟨rfl, _⟩ := solid_append_inj hsolid hsolid' s.apart_remark s'.apart_remark (List.cons.inj hrest).2
    rw [← hsame] at hy
    rw [hx] at ht ⊢
    rw [hy] at ht' ⊢
    exact Opcode.decoded_of_text hop (ht.trans ht'.symm)

theorem Solid.no_break {text : String} (h : Solid text) : '\n' ∉ text.toList := by
  intro hc
  exact absurd (h _ hc) (by decide)

theorem no_break_line (hx : s.listing.instruction = s.listing.opcode.decoded x) (hop : s.listing.opcode ≠ .ldcR8) :
    '\n' ∉ (Disassembly.line s).toList := by
  have hstart := (solid_hex 4 s.start).no_break
  have hname := (Opcode.solid_mnemonic s.listing.opcode).no_break
  have hoperand : '\n' ∉ s.listing.operandChars := by
    by_cases hsize : s.listing.opcode.operandSize = 0
    · simp [Listing.operandChars, hsize]
    · obtain ⟨text, _, hsolid, hshown⟩ := Listing.exists_operand hx hop hsize
      simp [hshown, hsolid.no_break]
  have hremark : '\n' ∉ s.remark := by
    unfold Span.remark
    split
    · simp [(solid_hex _ _).no_break]
    · simp
  rw [Span.toList_line]
  simp [hstart, hname, hoperand, hremark]

end

/-! ## The same instructions -/

theorem opens_of_listingAt {code : Code} {pos : Nat} {l : Listing} {next : Nat}
    (h : listingAt code pos = .ok (l, next)) : ∃ operand, l.opcode.Opens operand (code.toList.drop pos) ∧
      l.instruction = l.opcode.decoded operand ∧ next = pos + l.opcode.encode.length + l.opcode.operandSize :=
  Decoder.listing_eq_ok_iff.mp (Decoder.listing_ofCode_ok h)

theorem Decoder.Lists.eq_of_lines {d d' : Decoder} {ss ss' : List Span} {stop stop' : Nat}
    {e e' : Option DecodeError} (h : d.Lists ss stop e) (h' : d'.Lists ss' stop' e') (hpos : d.pos = d'.pos)
    (hop : ∀ s ∈ ss, s.listing.opcode ≠ .ldcR8)
    (hlines : ss.map Disassembly.line = ss'.map Disassembly.line) : ss = ss' ∧ stop = stop' := by
  induction h generalizing d' ss' with
  | done _ | failed _ _ =>
    cases h' with
    | done _ | failed _ _ => exact ⟨rfl, hpos⟩
    | next _ _ _ => cases hlines
  | @next d after l ss stop e _ hl _ ih =>
    cases h' with
    | done _ | failed _ _ => cases hlines
    | @next _ after' l' ss' _ _ _ hl' hrest =>
      obtain ⟨hline, hmore⟩ := List.cons.inj hlines
      obtain ⟨x, _, hx, hnext⟩ := opens_of_listingAt (listing_ok_inv hl).1
      obtain ⟨y, _, hy, hnext'⟩ := opens_of_listingAt (listing_ok_inv hl').1
      obtain rfl : l = l' := listing_of_line hx hy (hop _ List.mem_cons_self) hpos hline
      -- a listing takes the same number of bytes in both codes, whatever these are
      have hafter : after.pos = after'.pos := by
        rw [hnext, hnext', hpos]
      obtain ⟨rfl, rfl⟩ := ih hrest hafter (fun s hs => hop s (List.mem_cons_of_mem _ hs)) hmore
      rw [hpos, hafter]
      exact ⟨rfl, rfl⟩

/-! ## The same bytes -/

theorem valueLE_inj {x y : List UInt8} (hlen : x.length = y.length) (h : valueLE x = valueLE y) : x = y := by
  rw [← bytesLE_valueLE x, ← bytesLE_valueLE y, hlen, h]

theorem emod_signedLE (x : List UInt8) : signedLE x % (Nat.pow 256 x.length : Nat) = valueLE x := by
  have hlt := valueLE_lt x
  unfold signedLE
  rw [Int.bmod_emod, Int.emod_eq_of_lt (by omega) (by omega)]

theorem signedLE_inj {x y : List UInt8} (hlen : x.length = y.length) (h : signedLE x = signedLE y) : x = y := by
  apply valueLE_inj hlen
  apply Int.ofNat.inj
  calc (valueLE x : Int) = signedLE x % (Nat.pow 256 x.length : Nat) := (emod_signedLE x).symm
    _ = signedLE y % (Nat.pow 256 y.length : Nat) := by rw [h, hlen]
    _ = valueLE y := emod_signedLE y

/-- What an opcode's instruction tells of its operand: the first field. -/
theorem Opcode.Denotes.field_unique {op : Opcode} {x y : List UInt8} {i : Instruction} (hx : op.Denotes x i)
    (hy : op.Denotes y i) (hlen : x.length = op.operandSize) (hlen' : y.length = op.operandSize) :
    x.take (op.fields.headD 0) = y.take (op.fields.headD 0) := by
  have hxy := hlen.trans hlen'.symm
  cases op with
  | ldlocS | stlocS | ldlocaS | ldcR8 | call =>
    obtain ⟨v, rfl, hv⟩ := hx
    obtain ⟨w, hw, hy⟩ := hy
    cases hw
    rw [valueLE_inj hxy (hv.symm.trans hy)]
  | ldcI4S =>
    obtain ⟨v, rfl, hv⟩ := hx
    obtain ⟨w, hw, hy⟩ := hy
    cases hw
    rw [valueLE_inj hxy (Int.ofNat.inj (hv.symm.trans hy))]
  | ldcI4 | brtrue | brS | brfalseS | brtrueS =>
    obtain ⟨v, rfl, hv⟩ := hx
    obtain ⟨w, hw, hy⟩ := hy
    cases hw
    rw [signedLE_inj hxy (hv.symm.trans hy)]
  | ldstr =>
    obtain ⟨v, rfl, hv⟩ := hx
    obtain ⟨w, hw, hy⟩ := hy
    cases hw
    exact valueLE_inj (by simp [hxy]) (hv.symm.trans hy)
  | _ => rfl

theorem bytes_of_listing {a b : Code} {pos next : Nat} {l : Listing} (ha : listingAt a pos = .ok (l, next))
    (hb : listingAt b pos = .ok (l, next)) {k : Nat} (hk : pos ≤ k) (hk' : k < next) :
    a[k]? = b[k]? ∨ l.opcode = .ldstr ∧ (k = pos + 3 ∨ k = pos + 4) := by
  obtain ⟨x, hox, hx, hnext⟩ := opens_of_listingAt ha
  obtain ⟨y, hoy, hy, _⟩ := opens_of_listingAt hb
  have hfield : x.take (l.opcode.fields.headD 0) = y.take (l.opcode.fields.headD 0) := by
    have hdx := Opcode.denotes_decoded hox.length
    have hdy := Opcode.denotes_decoded hoy.length
    rw [← hx] at hdx
    rw [← hy] at hdy
    exact hdx.field_unique hdy hox.length hoy.length
  obtain ⟨j, rfl⟩ := Nat.exists_eq_add_of_le hk
  by_cases hj : j < l.opcode.encode.length + l.opcode.fields.headD 0
  · have hax := hasAt_iff.mpr hox.bytes j (by rw [List.length_append, hox.length]; omega)
    have hby := hasAt_iff.mpr hoy.bytes j (by rw [List.length_append, hoy.length]; omega)
    left
    rw [hax, hby, ← List.getElem?_take_of_lt hj, List.take_length_add_append, hfield, ← List.take_length_add_append,
      List.getElem?_take_of_lt hj]
  · -- only a string load has bytes after its first field
    have hop : l.opcode = .ldstr := by
      apply Decidable.byContradiction
      intro hop
      have hle := Opcode.operandSize_le hop
      omega
    have hsizes : Opcode.ldstr.encode.length = 1 ∧ Opcode.ldstr.fields.headD 0 = 2 ∧ Opcode.ldstr.operandSize = 4 := by
      decide
    rw [hop] at hj hnext
    right
    exact ⟨hop, by omega⟩

theorem Tiles.exists_mem {k : Nat} : ∀ {ss : List Span} {lo hi : Nat}, Tiles lo ss hi → lo ≤ k → k < hi →
    ∃ s ∈ ss, s.start ≤ k ∧ k < s.stop
  | [], lo, hi, h, hlo, hhi => by
    have h : hi = lo := h
    omega
  | s :: ss, lo, hi, ⟨hstart, _, h⟩, hlo, hhi => by
    by_cases hk : k < s.stop
    · exact ⟨s, List.mem_cons_self, by omega, hk⟩
    · obtain ⟨t, ht, hin⟩ := h.exists_mem (by omega) hhi
      exact ⟨t, List.mem_cons_of_mem _ ht, hin⟩

/-! ## The same output -/

theorem utf8_inj {s t : String} (h : s.toUTF8.data = t.toUTF8.data) : s = t := by
  rw [String.toUTF8_eq_toByteArray, String.toUTF8_eq_toByteArray] at h
  exact String.toByteArray_inj.mp (ByteArray.ext h)

theorem Decoder.Lists.no_break {d : Decoder} {ss : List Span} {stop : Nat} {e : Option DecodeError}
    (h : d.Lists ss stop e) (hop : ∀ s ∈ ss, s.listing.opcode ≠ .ldcR8) :
    ∀ line ∈ ss.map Disassembly.line, '\n' ∉ line.toList := by
  intro line hline
  obtain ⟨s, hs, rfl⟩ := List.mem_map.mp hline
  obtain ⟨x, _, hx, _⟩ := opens_of_listingAt (h.listingAt s hs)
  exact no_break_line hx (hop s hs)

theorem lists_spans {code : Code} (h : (spans code).2 = none) :
    (Decoder.ofCode code 0).Lists (spans code).1.toList code.size none := by
  obtain ⟨ss, stop, e, hall, hlists⟩ := spansFrom_lists code 0 #[]
  have hspans : spans code = (ss.toArray, e) := by simp [spans, hall]
  rw [hspans] at h ⊢
  obtain rfl : e = none := h
  rcases hlists.ending (Nat.zero_le _) with ⟨_, rfl⟩ | ⟨_, he, _⟩
  · exact hlists
  · cases he

theorem stdout_disassemble {call : CommandLine.Invocation} {file : String} (h : call.task = .disassemble file)
    (fuel : Nat) (named : Option Level) (code : Code) :
    (CommandLine.perform fuel named call (.ok code)).map (·.stdout) =
      some (String.join (((spans code).1.toList.map Disassembly.line).map (· ++ "\n"))).toUTF8.data := by
  unfold CommandLine.perform disassemble
  rw [h]
  cases he : (spans code).2 with
  | none => simp [he]
  | some e => simp [he, CommandLine.Outcome.failed]

/-- Codes without floats that can be read to their ends and are printed alike have the same instructions at the same
places, and the same bytes but for the table tags of string loads. -/
theorem disassembly_loses_nothing {a b : Code} (ha : (spans a).2 = none) (hb : (spans b).2 = none)
    (hfloat : ∀ s ∈ (spans a).1, s.listing.opcode ≠ .ldcR8) (hfloat' : ∀ s ∈ (spans b).1, s.listing.opcode ≠ .ldcR8)
    {call : CommandLine.Invocation} {file : String} (htask : call.task = .disassemble file) {fuel : Nat}
    {named : Option Level} (hout : (CommandLine.perform fuel named call (.ok a)).map (·.stdout) =
      (CommandLine.perform fuel named call (.ok b)).map (·.stdout)) :
    spans a = spans b ∧ a.size = b.size ∧ ∀ k, a[k]? = b[k]? ∨
      ∃ s ∈ (spans a).1, s.listing.opcode = .ldstr ∧ (k = s.start + 3 ∨ k = s.start + 4) := by
  have hlists := lists_spans ha
  have hlists' := lists_spans hb
  simp only [← Array.mem_toList_iff] at hfloat hfloat' ⊢
  have hlines : (spans a).1.toList.map Disassembly.line = (spans b).1.toList.map Disassembly.line := by
    rw [stdout_disassemble htask, stdout_disassemble htask] at hout
    exact lines_inj (hlists.no_break hfloat) (hlists'.no_break hfloat') (utf8_inj (Option.some.inj hout))
  obtain ⟨hspans, hsize⟩ := hlists.eq_of_lines hlists' rfl hfloat hlines
  have hspans : spans a = spans b := Prod.ext (Array.toList_inj.mp hspans) (ha.trans hb.symm)
  refine ⟨hspans, hsize, ?_⟩
  intro k
  by_cases hk : k < a.size
  · obtain ⟨s, hs, hlo, hhi⟩ := hlists.tiles.exists_mem (Nat.zero_le k) hk
    have hat' := hlists'.listingAt s (hspans ▸ hs)
    rcases bytes_of_listing (hlists.listingAt s hs) hat' hlo hhi with heq | htag
    · exact .inl heq
    · exact .inr ⟨s, hs, htag⟩
  · left
    rw [Array.getElem?_eq_none (by omega), Array.getElem?_eq_none (by omega)]

/-- One string load with two different table tags. -/
theorem disassembly_loses_nothing_tagged :
    let a : Code := #[0x72, 1, 0, 0, 0x70, 0x2A]
    let b : Code := #[0x72, 1, 0, 0x2A, 0xFF, 0x2A]
    let shown (code : Code) := (CommandLine.perform 0 none ⟨none, 0, .disassemble "hello.il"⟩ (.ok code)).map (·.stdout)
    a ≠ b ∧ shown a = shown b ∧ spans a = (#[⟨0, ⟨.ldstr, .ldstr 1⟩, 5⟩, ⟨5, ⟨.ret, .ret⟩, 6⟩], none) ∧
      ∀ k, a[k]? = b[k]? ∨ k = 3 ∨ k = 4 := by
  intro a b shown
  have ha : spans a = (#[⟨0, ⟨.ldstr, .ldstr 1⟩, 5⟩, ⟨5, ⟨.ret, .ret⟩, 6⟩], none) := by decide +kernel
  have hb : spans b = spans a := by decide +kernel
  have hshown : shown a = shown b := by
    simp only [shown, CommandLine.perform, disassemble, hb]
  have hfloat : ∀ s ∈ (spans a).1, s.listing.opcode ≠ .ldcR8 := by
    rw [ha]
    decide
  refine ⟨by decide, hshown, ha, ?_⟩
  intro k
  obtain ⟨_, _, hbytes⟩ := disassembly_loses_nothing (by rw [ha]) (by rw [hb, ha]) hfloat (hb ▸ hfloat) rfl hshown
  rcases hbytes k with heq | ⟨s, hs, hop, hk⟩
  · exact .inl heq
  · rw [ha] at hs
    right
    simp at hs
    rcases hs with rfl | rfl
    · exact hk
    · cases hop

end StackVm
