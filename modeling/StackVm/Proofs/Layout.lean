import StackVm.Proofs.Encoding

/-!
# The layout of assembled code

How many bytes a directive appends does not depend on where labels are bound,
so every offset is a sum of sizes: `address ds k` is where directive `k` of `ds`
starts. `displacement ds k` is what the branch of directive `k` carries in the
end, read off the list and not off the buffer.
-/

namespace StackVm

namespace Branch

def size (b : Branch) : Nat := b.opcode.encode.length + b.opcode.operandSize

def instruction : Branch → Int32 → Instruction
  | brS => .br
  | brfalseS => .brfalse
  | brtrueS | brtrue => .brtrue

def Fits : Branch → Int → Prop
  | brtrue, d => -0x80000000 ≤ d ∧ d < 0x80000000
  | _, d => -0x80 ≤ d ∧ d < 0x80

def operand : Branch → Int → Nat
  | brtrue, d => (d % 0x100000000).toNat
  | _, d => (d % 0x100).toNat

def bytes (b : Branch) (d : Int) : List UInt8 := b.opcode.encodeWith [b.operand d]

theorem fits_zero (b : Branch) : b.Fits 0 := by
  cases b <;> exact ⟨by decide, by decide⟩

theorem bytes_zero (b : Branch) : b.bytes 0 = b.opcode.encodeWith [0] := by
  cases b <;> rfl

theorem fieldsFit_operand (b : Branch) (d : Int) : FieldsFit b.opcode.fields [b.operand d] := by
  cases b <;> exact ⟨by show Int.toNat _ < _; simp only [Nat.pow_eq]; omega, trivial⟩

theorem length_bytes (b : Branch) (d : Int) : (b.bytes d).length = b.size :=
  length_encodeWith (b.fieldsFit_operand d)

theorem bytes_eq (b : Branch) (d : Int) :
    b.bytes d = b.opcode.encode ++ bytesLE b.opcode.operandSize (b.operand d) := by
  cases b <;> rfl

theorem size_pos (b : Branch) : 0 < b.size := Nat.add_pos_left (length_encode_pos _) _

theorem displacement_of_fits {b : Branch} {d : Int} (h : b.Fits d) :
    Assembler.displacement b.opcode.operandSize d =
      .ok (bytesLE b.opcode.operandSize (b.operand d)) := by
  cases b <;> exact if_pos h

theorem displacement_of_not_fits {b : Branch} {d : Int} (h : ¬ b.Fits d) :
    ∃ e, Assembler.displacement b.opcode.operandSize d = .error e := by
  cases b <;> exact ⟨_, if_neg h⟩

theorem toInt_ofInt {b : Branch} {d : Int} (h : b.Fits d) : (Int32.ofInt d).toInt = d := by
  have hd : -0x80000000 ≤ d ∧ d < 0x80000000 := by
    cases b <;> obtain ⟨h1, h2⟩ := h <;> constructor <;> omega
  rw [Int32.toInt_ofInt, Int32.size, Int.bmod_eq_of_le] <;> omega

theorem instruction_operand {b : Branch} {d : Int} (h : b.Fits d) :
    b.opcode.instruction (b.operand d) = b.instruction (Int32.ofInt d) := by
  have short : ∀ x : Int, -0x80 ≤ x ∧ x < 0x80 →
      (Int8.ofNat (x % 0x100).toNat).toInt32 = Int32.ofInt x := by
    intro x hx
    rw [← Int32.toInt_inj, Int8.toInt_toInt32, Int8.toInt_ofNat', Int32.toInt_ofInt]
    simp only [Int8.size, Int32.size, Int.bmod]
    omega
  have long : ∀ x : Int, Int32.ofNat (x % 0x100000000).toNat = Int32.ofInt x := by
    intro x
    rw [← Int32.toInt_inj, Int32.toInt_ofNat', Int32.toInt_ofInt]
    simp only [Int32.size, Int.bmod]
    omega
  cases b with
  | brS => exact congrArg Instruction.br (short d h)
  | brfalseS => exact congrArg Instruction.brfalse (short d h)
  | brtrueS => exact congrArg Instruction.brtrue (short d h)
  | brtrue => exact congrArg Instruction.brtrue (long d)

theorem decodeAt_of_hasAt_bytes {code : Code} {pos : Nat} {b : Branch} {d : Int} (hd : b.Fits d)
    (h : HasAt code pos (b.bytes d)) :
    decodeAt code pos = .ok (b.instruction (Int32.ofInt d), pos + b.size) := by
  have := decodeAt_of_hasAt (b.fieldsFit_operand d) h
  rw [show ([b.operand d].headD 0) = b.operand d from rfl, instruction_operand hd] at this
  rw [this, ← b.length_bytes d]; rfl

end Branch

namespace Directive

def size : Directive → Nat
  | emit e => e.bytes.length
  | raw bytes => bytes.length
  | branch b | branchTo b _ | branchBy b _ => b.size
  | bind _ => 0

/-- The instruction that the directive emits, if it emits one, with `offset` in a branch. -/
def instruction? (offset : Int) : Directive → Option Instruction
  | emit e => some e.instruction
  | branch b | branchTo b _ | branchBy b _ => some (b.instruction (Int32.ofInt offset))
  | raw _ | bind _ => none

def branch? : Directive → Option Branch
  | branch b | branchTo b _ | branchBy b _ => some b
  | emit _ | raw _ | bind _ => none

def bytesWith (offset : Int) : Directive → List UInt8
  | emit e => e.bytes
  | raw bytes => bytes
  | branch b | branchTo b _ | branchBy b _ => b.bytes offset
  | bind _ => []

def isForward : Directive → Bool
  | branch _ => true
  | _ => false

theorem length_bytesWith (offset : Int) (d : Directive) : (d.bytesWith offset).length = d.size := by
  cases d with
  | branch b | branchTo b t | branchBy b t => exact b.length_bytes offset
  | _ => rfl

theorem isForward_eq_false {d : Directive} (h : ∀ b, d ≠ .branch b) : d.isForward = false := by
  cases d with
  | branch b => exact absurd rfl (h b)
  | _ => rfl

theorem size_pos {d : Directive} {offset : Int} {i : Instruction} (h : d.instruction? offset = some i) :
    0 < d.size := by
  cases d with
  | emit e => exact e.length_bytes_pos
  | branch b | branchTo b t | branchBy b t => exact b.size_pos
  | raw bs | bind l => cases h

end Directive

/-! ## Offsets -/

def address (ds : List Directive) (k : Nat) : Nat := (ds.take k).foldr (fun d n => d.size + n) 0

theorem address_zero (ds : List Directive) : address ds 0 = 0 := rfl

theorem foldr_size_append (ds es : List Directive) :
    (ds ++ es).foldr (fun d n => d.size + n) 0 =
      ds.foldr (fun d n => d.size + n) 0 + es.foldr (fun d n => d.size + n) 0 := by
  induction ds with
  | nil => simp
  | cons d ds ih => simp only [List.cons_append, List.foldr_cons, ih]; omega

theorem address_succ {ds : List Directive} {k : Nat} {d : Directive} (h : ds[k]? = some d) :
    address ds (k + 1) = address ds k + d.size := by
  obtain ⟨hk, rfl⟩ := List.getElem?_eq_some_iff.mp h
  unfold address
  rw [← List.take_append_getElem hk, foldr_size_append]; rfl

theorem address_of_length_le {ds : List Directive} {k : Nat} (h : ds.length ≤ k) :
    address ds k = address ds ds.length := by
  unfold address; rw [List.take_of_length_le h, List.take_length]

theorem address_le_succ (ds : List Directive) (k : Nat) : address ds k ≤ address ds (k + 1) := by
  cases h : ds[k]? with
  | none =>
    have hk := List.getElem?_eq_none_iff.mp h
    refine Nat.le_of_eq ?_
    rw [address_of_length_le hk, address_of_length_le (Nat.le_succ_of_le hk)]
  | some d => rw [address_succ h]; exact Nat.le_add_right _ _

theorem address_mono {ds : List Directive} {j k : Nat} (h : j ≤ k) : address ds j ≤ address ds k := by
  induction h with
  | refl => exact Nat.le_refl _
  | step _ ih => exact Nat.le_trans ih (address_le_succ ds _)

theorem address_append {ds : List Directive} (es : List Directive) {k : Nat} (h : k ≤ ds.length) :
    address (ds ++ es) k = address ds k := by
  unfold address; rw [List.take_append_of_le_length h]

theorem address_le_length (ds : List Directive) (k : Nat) : address ds k ≤ address ds ds.length := by
  rcases Nat.le_total k ds.length with h | h
  · exact address_mono h
  · exact Nat.le_of_eq (address_of_length_le h)

/-! ## Labels -/

def forwards (ds : List Directive) : Nat := ds.countP Directive.isForward

def labelOf (ds : List Directive) (k : Nat) : Nat := forwards (ds.take k)

/-- A label is bound after the branch that makes it, and at most once. -/
structure WellBound (ds : List Directive) : Prop where
  made : ∀ {p l : Nat}, ds[p]? = some (.bind l) → l < labelOf ds p
  once : ∀ {p q l : Nat}, ds[p]? = some (.bind l) → ds[q]? = some (.bind l) → p = q

def bound? (ds : List Directive) (k : Nat) : Option Nat :=
  match ds[k]? with
  | some (.bind l) => some l
  | _ => none

theorem bound?_eq_some {ds : List Directive} {k l : Nat} : bound? ds k = some l ↔ ds[k]? = some (.bind l) := by
  unfold bound?
  constructor
  · intro h
    split at h
    · next m hm => rw [hm, Option.some.inj h]
    · cases h
  · intro h; rw [h]

theorem wellBound_iff {ds : List Directive} :
    ((∀ p < ds.length, ∀ l ∈ bound? ds p, l < labelOf ds p) ∧
      ∀ p < ds.length, ∀ q < ds.length, (bound? ds p).isSome → bound? ds p = bound? ds q → p = q) ↔
      WellBound ds := by
  constructor
  · rintro ⟨hm, ho⟩
    refine ⟨fun {p l} hp => ?_, fun {p q l} hp hq => ?_⟩
    · exact hm p (List.getElem?_eq_some_iff.mp hp).1 l (bound?_eq_some.mpr hp)
    · have hbp := bound?_eq_some.mpr hp
      refine ho p (List.getElem?_eq_some_iff.mp hp).1 q (List.getElem?_eq_some_iff.mp hq).1 ?_ ?_
      · rw [hbp]; rfl
      · rw [hbp, bound?_eq_some.mpr hq]
  · intro h
    refine ⟨fun p _ l hl => h.made (bound?_eq_some.mp hl), fun p _ q _ hs he => ?_⟩
    obtain ⟨l, hl⟩ := Option.isSome_iff_exists.mp hs
    exact h.once (bound?_eq_some.mp hl) (bound?_eq_some.mp (he ▸ hl))

instance (ds : List Directive) : Decidable (WellBound ds) := decidable_of_iff _ wellBound_iff

def displacement? (ds : List Directive) (k : Nat) : Option Int :=
  match ds[k]? with
  | some (.branch _) =>
    (ds.findIdx? (· = .bind (labelOf ds k))).map fun p => (address ds p : Int) - address ds (k + 1)
  | some (.branchTo _ target) => some ((target : Int) - address ds (k + 1))
  | some (.branchBy _ offset) => some offset.toInt
  | _ => none

/-- A branch to a label that is never bound keeps the displacement 0. -/
def displacement (ds : List Directive) (k : Nat) : Int := (displacement? ds k).getD 0

def instructionAt? (ds : List Directive) (k : Nat) : Option Instruction :=
  ds[k]?.bind (·.instruction? (displacement ds k))

def AllFit (ds : List Directive) : Prop :=
  ∀ k d b offset, ds[k]? = some d → d.branch? = some b → displacement? ds k = some offset → b.Fits offset

/-! ## One more directive -/

theorem getElem?_snoc {ds : List Directive} {d e : Directive} {k : Nat} (h : (ds ++ [d])[k]? = some e) :
    (k < ds.length ∧ ds[k]? = some e) ∨ (k = ds.length ∧ d = e) := by
  have hk := (List.getElem?_eq_some_iff.mp h).1
  rw [List.length_append, List.length_singleton] at hk
  by_cases hlt : k < ds.length
  · rw [List.getElem?_append_left hlt] at h
    exact Or.inl ⟨hlt, h⟩
  · obtain rfl : k = ds.length := by omega
    rw [List.getElem?_concat_length, Option.some.injEq] at h
    exact Or.inr ⟨rfl, h⟩

theorem forwards_append (ds es : List Directive) : forwards (ds ++ es) = forwards ds + forwards es :=
  List.countP_append

theorem labelOf_append {ds : List Directive} (es : List Directive) {k : Nat} (h : k ≤ ds.length) :
    labelOf (ds ++ es) k = labelOf ds k := by
  unfold labelOf; rw [List.take_append_of_le_length h]

theorem labelOf_length (ds : List Directive) : labelOf ds ds.length = forwards ds := by
  unfold labelOf; rw [List.take_length]

theorem labelOf_mono (ds : List Directive) {j k : Nat} (h : j ≤ k) : labelOf ds j ≤ labelOf ds k := by
  unfold labelOf
  rw [← Nat.min_eq_left h, ← List.take_take]
  exact (List.take_sublist j (ds.take k)).countP_le

theorem labelOf_succ {ds : List Directive} {k : Nat} {b : Branch} (h : ds[k]? = some (.branch b)) :
    labelOf ds (k + 1) = labelOf ds k + 1 := by
  obtain ⟨hk, he⟩ := List.getElem?_eq_some_iff.mp h
  unfold labelOf
  rw [← List.take_append_getElem hk, forwards_append, he]; rfl

theorem labelOf_inj {ds : List Directive} {j k : Nat} {b c : Branch} (hj : ds[j]? = some (.branch b))
    (hk : ds[k]? = some (.branch c)) (h : labelOf ds j = labelOf ds k) : j = k := by
  rcases Nat.lt_trichotomy j k with hlt | rfl | hlt
  · have := labelOf_mono ds hlt
    rw [labelOf_succ hj] at this; omega
  · rfl
  · have := labelOf_mono ds hlt
    rw [labelOf_succ hk] at this; omega

theorem WellBound.of_append {ds es : List Directive} (h : WellBound (ds ++ es)) : WellBound ds where
  made {p l} hp := by
    obtain ⟨hlt, _⟩ := List.getElem?_eq_some_iff.mp hp
    rw [← labelOf_append es (Nat.le_of_lt hlt)]
    exact h.made (by rwa [List.getElem?_append_left hlt])
  once {p q l} hp hq := by
    obtain ⟨hlp, _⟩ := List.getElem?_eq_some_iff.mp hp
    obtain ⟨hlq, _⟩ := List.getElem?_eq_some_iff.mp hq
    exact h.once (by rwa [List.getElem?_append_left hlp]) (by rwa [List.getElem?_append_left hlq])

theorem displacement?_of_branch {ds : List Directive} {k : Nat} {b : Branch} (h : ds[k]? = some (.branch b)) :
    displacement? ds k =
      (ds.findIdx? (· = .bind (labelOf ds k))).map fun p => (address ds p : Int) - address ds (k + 1) := by
  unfold displacement?; rw [h]

theorem displacement?_of_branchTo {ds : List Directive} {k target : Nat} {b : Branch}
    (h : ds[k]? = some (.branchTo b target)) :
    displacement? ds k = some ((target : Int) - address ds (k + 1)) := by
  unfold displacement?; rw [h]

theorem displacement?_of_branchBy {ds : List Directive} {k : Nat} {b : Branch} {offset : Int32}
    (h : ds[k]? = some (.branchBy b offset)) : displacement? ds k = some offset.toInt := by
  unfold displacement?; rw [h]

theorem findIdx?_bind_eq_some {ds : List Directive} {l p : Nat} (hw : WellBound ds) :
    ds.findIdx? (· = .bind l) = some p ↔ ds[p]? = some (.bind l) := by
  rw [List.findIdx?_eq_some_iff_getElem]
  constructor
  · rintro ⟨hp, he, _⟩
    rw [List.getElem?_eq_getElem hp, of_decide_eq_true he]
  · intro h
    obtain ⟨hp, he⟩ := List.getElem?_eq_some_iff.mp h
    refine ⟨hp, decide_eq_true he, fun j hj hb => ?_⟩
    have hj' : ds[j]? = some (.bind l) := by
      rw [List.getElem?_eq_getElem (Nat.lt_trans hj hp), of_decide_eq_true hb]
    exact absurd (hw.once hj' h) (Nat.ne_of_lt hj)

theorem findIdx?_bind_eq_none {ds : List Directive} {l : Nat} :
    ds.findIdx? (· = .bind l) = none ↔ ∀ p : Nat, ds[p]? ≠ some (.bind l) := by
  rw [List.findIdx?_eq_none_iff]
  constructor
  · intro h p hp
    exact of_decide_eq_false (h _ (List.mem_of_getElem? hp)) rfl
  · intro h d hd
    obtain ⟨p, hp⟩ := List.mem_iff_getElem?.mp hd
    refine decide_eq_false fun he => h p ?_
    rw [hp, he]

theorem displacement?_snoc {ds : List Directive} {d : Directive} {k : Nat} (hk : k < ds.length)
    (hd : ∀ b, ds[k]? = some (.branch b) → d ≠ .bind (labelOf ds k)) :
    displacement? (ds ++ [d]) k = displacement? ds k := by
  have hl := labelOf_append [d] (Nat.le_of_lt hk)
  have ha := address_append [d] hk
  unfold displacement?
  rw [List.getElem?_append_left hk, hl, ha]
  cases he : ds[k]? with
  | none => rfl
  | some c =>
    cases c with
    | branch b =>
      simp only [List.findIdx?_append, List.findIdx?_singleton, decide_eq_true_eq, hd b he, if_false,
        Option.map_none, Option.or_none]
      cases hp : ds.findIdx? (· = .bind (labelOf ds k)) with
      | none => rfl
      | some p =>
        have := (List.findIdx?_eq_some_iff_getElem.mp hp).1
        rw [Option.map_some, Option.map_some, address_append [d] (Nat.le_of_lt this)]
    | _ => rfl

theorem displacement?_snoc_bind {ds : List Directive} {k : Nat} {b : Branch} (hk : ds[k]? = some (.branch b))
    (hw : WellBound (ds ++ [.bind (labelOf ds k)])) :
    displacement? (ds ++ [.bind (labelOf ds k)]) k =
      some ((address ds ds.length : Int) - address ds (k + 1)) := by
  obtain ⟨hlt, _⟩ := List.getElem?_eq_some_iff.mp hk
  have hk' : (ds ++ [.bind (labelOf ds k)])[k]? = some (.branch b) := by
    rwa [List.getElem?_append_left hlt]
  have hp : (ds ++ [.bind (labelOf ds k)])[ds.length]? = some (.bind (labelOf ds k)) := by simp
  rw [displacement?_of_branch hk', labelOf_append _ (Nat.le_of_lt hlt), (findIdx?_bind_eq_some hw).mpr hp,
    Option.map_some, address_append _ (Nat.le_refl _), address_append _ hlt]

theorem displacement?_snoc_branch {ds : List Directive} {b : Branch} (hw : WellBound (ds ++ [.branch b])) :
    displacement? (ds ++ [.branch b]) ds.length = none := by
  have hn : (ds ++ [.branch b])[ds.length]? = some (.branch b) := by simp
  rw [displacement?_of_branch hn, Option.map_eq_none_iff, findIdx?_bind_eq_none]
  intro p hp
  have hm := hw.made hp
  have hle : p ≤ ds.length := by
    have := (List.getElem?_eq_some_iff.mp hp).1
    simp at this; omega
  exact absurd (Nat.lt_of_lt_of_le hm (labelOf_mono _ hle)) (Nat.lt_irrefl _)

theorem exists_of_lt_forwards : ∀ {ds : List Directive} {l : Nat}, l < forwards ds →
    ∃ k b, ds[k]? = some (.branch b) ∧ labelOf ds k = l
  | [], l, h => absurd h (Nat.not_lt_zero l)
  | d :: ds, l, h => by
    have hc : forwards (d :: ds) = forwards ds + if d.isForward then 1 else 0 := List.countP_cons
    have hs : ∀ k, labelOf (d :: ds) (k + 1) = labelOf ds k + if d.isForward then 1 else 0 := fun k =>
      List.countP_cons
    by_cases hl : l < if d.isForward then 1 else 0
    · cases d with
      | branch b => exact ⟨0, b, rfl, by simp [Directive.isForward] at hl; rw [hl]; rfl⟩
      | _ => exact absurd hl (Nat.not_lt_zero l)
    · obtain ⟨k, b, hk, he⟩ := @exists_of_lt_forwards ds (l - if d.isForward then 1 else 0) (by omega)
      exact ⟨k + 1, b, hk, by rw [hs, he]; omega⟩

end StackVm
