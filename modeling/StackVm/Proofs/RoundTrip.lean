import StackVm.Proofs.Patching

/-!
# Decoding assembled code

Every instruction of an assembled method stands at the address of the directive
that emitted it (`decodeAt_address`), so a decoder that starts at offset 0 meets
exactly the emitted instructions, in order, and stops at the end.
-/

namespace StackVm

/-! ## The instruction at an address -/

theorem AllFit.fits_displacement {ds : List Directive} (hf : AllFit ds) {k : Nat} {d : Directive} {b : Branch}
    (hk : ds[k]? = some d) (hb : d.branch? = some b) : b.Fits (displacement ds k) := by
  unfold displacement
  cases ho : displacement? ds k with
  | none => exact b.fits_zero
  | some offset => exact hf k d b offset hk hb ho

theorem displacement_of_branch?_eq_none {ds : List Directive} {k : Nat}
    (h : ∀ d, ds[k]? = some d → d.branch? = none) : displacement ds k = 0 := by
  unfold displacement displacement?
  split
  · next hk => cases h _ hk
  · next hk => cases h _ hk
  · next hk => cases h _ hk
  · rfl

theorem AllFit.toInt_displacement {ds : List Directive} (hf : AllFit ds) (k : Nat) :
    (Int32.ofInt (displacement ds k)).toInt = displacement ds k := by
  by_cases h : ∃ d b, ds[k]? = some d ∧ d.branch? = some b
  · obtain ⟨d, b, hk, hb⟩ := h
    exact Branch.toInt_ofInt (hf.fits_displacement hk hb)
  · rw [displacement_of_branch?_eq_none fun d hk => ?_]
    · rfl
    · cases hb : d.branch? with
      | none => rfl
      | some b => exact absurd ⟨d, b, hk, hb⟩ h

theorem instructionAt?_eq_some {ds : List Directive} {k : Nat} {i : Instruction} (h : instructionAt? ds k = some i) :
    ∃ d, ds[k]? = some d ∧ d.instruction? (displacement ds k) = some i := Option.bind_eq_some_iff.mp h

theorem decodeAt_address {ds : List Directive} {code : Code} (h : Spelled ds (displacement ds) code)
    (hf : AllFit ds) {k : Nat} {i : Instruction} (hi : instructionAt? ds k = some i) :
    decodeAt code (address ds k) = .ok (i, address ds (k + 1)) := by
  obtain ⟨d, hk, hd⟩ := instructionAt?_eq_some hi
  have hc := h.code hk
  rw [address_succ hk]
  cases d with
  | emit e => cases hd; exact decodeAt_of_emission hc
  | branch b | branchTo b t | branchBy b t =>
    cases hd
    exact Branch.decodeAt_of_hasAt_bytes (hf.fits_displacement hk rfl) hc
  | raw bs | bind l => cases hd

theorem address_lt_size {ds : List Directive} {f : Nat → Int} {code : Code} (h : Spelled ds f code) {k : Nat}
    {i : Instruction} (hi : instructionAt? ds k = some i) : address ds k < code.size := by
  obtain ⟨d, hk, hd⟩ := instructionAt?_eq_some hi
  have hs := Directive.size_pos hd
  have hl := address_le_length ds (k + 1)
  rw [address_succ hk, ← h.size] at hl
  omega

theorem address_succ_of_none {ds : List Directive} (hraw : ∀ bs, .raw bs ∉ ds) {k : Nat}
    (hi : instructionAt? ds k = none) : address ds (k + 1) = address ds k := by
  cases hk : ds[k]? with
  | none =>
    have hk' := List.getElem?_eq_none_iff.mp hk
    rw [address_of_length_le hk', address_of_length_le (Nat.le_succ_of_le hk')]
  | some d =>
    rw [address_succ hk]
    unfold instructionAt? at hi
    rw [hk] at hi
    cases d with
    | bind l => rfl
    | raw bs => exact absurd (List.mem_of_getElem? hk) (hraw bs)
    | _ => cases hi

/-! ## Reading all of it -/

namespace Decoder

/-- Asked again and again, `d` gives the instructions, each read at the offset beside it, and then
none: `d'` is the decoder in the end. -/
def Yields : Decoder → List (Nat × Instruction) → Decoder → Prop
  | d, [], d' => d.next? = (none, d) ∧ d' = d
  | d, (pos, i) :: items, d' => d.pos = pos ∧ ∃ e, d.next? = (some (.ok i), e) ∧ Yields e items d'

theorem next?_of_decodeAt {d : Decoder} {i : Instruction} {next : Nat} (hf : d.failed = false)
    (hlt : d.pos < d.code.size) (h : decodeAt d.code d.pos = .ok (i, next)) :
    d.next? = (some (.ok i), { d with pos := next }) := by
  unfold decodeAt at h
  split at h
  · next l n hl =>
    simp only [Except.ok.injEq, Prod.mk.injEq] at h
    obtain ⟨rfl, rfl⟩ := h
    have he : d.atEnd = false := decide_eq_false (Nat.not_le.mpr hlt)
    simp only [next?, he, hf, decode, listing, hl, Bool.or_self, Bool.false_eq_true, if_false, Except.map]
  · cases h

theorem next?_at_end {d : Decoder} (h : d.code.size ≤ d.pos) : d.next? = (none, d) := by
  have he : d.atEnd = true := decide_eq_true h
  simp only [next?, he, Bool.true_or, if_true]

end Decoder

def emitted (ds : List Directive) : List (Nat × Instruction) :=
  (List.range ds.length).filterMap fun k => (instructionAt? ds k).map (address ds k, ·)

theorem yields_from {ds : List Directive} {code : Code} (h : Spelled ds (displacement ds) code) (hf : AllFit ds)
    (hraw : ∀ bs, .raw bs ∉ ds) : ∀ (n k : Nat), k + n = ds.length →
    Decoder.Yields ⟨code, address ds k, false⟩
      ((List.range' k n).filterMap fun j => (instructionAt? ds j).map (address ds j, ·)) ⟨code, code.size, false⟩
  | 0, k, hk => by
    obtain rfl : k = ds.length := by omega
    rw [← h.size]
    exact ⟨Decoder.next?_at_end (Nat.le_refl _), rfl⟩
  | n + 1, k, hk => by
    have ih := yields_from h hf hraw n (k + 1) (by omega)
    rw [List.range'_succ, List.filterMap_cons]
    cases hi : instructionAt? ds k with
    | none =>
      rw [address_succ_of_none hraw hi] at ih
      exact ih
    | some i =>
      exact ⟨rfl, _, Decoder.next?_of_decodeAt rfl (address_lt_size h hi) (decodeAt_address h hf hi), ih⟩

theorem signed64_of_lt {n : Nat} (h : n < 0x8000000000000000) : signed64 n = n := by
  unfold signed64
  rw [Nat.testBit_lt_two_pow (by simpa using h)]; rfl

/-- The build fails exactly if some displacement does not fit its branch. Otherwise a decoder started
at offset 0 yields the emitted instructions without an error and stops exactly at the end. -/
theorem assemble_roundTrip {ds : List Directive} (hraw : ∀ bs, .raw bs ∉ ds) (hw : WellBound ds)
    (ht : ∀ b target, .branchTo b target ∈ ds → target < 0x8000000000000000) :
    ((∃ e, assemble ds = .error e) ↔
      ∃ (k : Nat) (d : Directive) (b : Branch) (offset : Int),
        ds[k]? = some d ∧ d.branch? = some b ∧ displacement? ds k = some offset ∧ ¬ b.Fits offset) ∧
    ∀ code, assemble ds = .ok code →
      (∀ k ≤ ds.length, ∃ a, assembleFrom .empty (ds.take k) = .ok a ∧ a.offset = address ds k) ∧
      (∀ k, (Int32.ofInt (displacement ds k)).toInt = displacement ds k) ∧
      (Decoder.ofCode code 0).Yields (emitted ds) ⟨code, code.size, false⟩ := by
  have hp : Plain ds := fun k b target hk => signed64_of_lt (ht b target (List.mem_of_getElem? hk))
  obtain ⟨hok, herr⟩ := assemble_spec hw hp
  by_cases hf : AllFit ds
  · obtain ⟨a, ha, hb⟩ := hok hf
    have hasm : assemble ds = .ok a.bytes := by unfold assemble; rw [ha]; rfl
    rw [hasm]
    refine ⟨⟨fun ⟨e, he⟩ => (by cases he), fun ⟨k, d, b, o, hk, hd, ho, hn⟩ => absurd (hf k d b o hk hd ho) hn⟩, ?_⟩
    intro code hc
    obtain rfl : a.bytes = code := Except.ok.inj hc
    refine ⟨fun k _ => ?_, hf.toInt_displacement, ?_⟩
    · obtain ⟨c, hc⟩ := assembleFrom_take ha k
      exact ⟨c, hc, offset_take hc⟩
    · unfold emitted
      rw [List.range_eq_range']
      exact yields_from hb.spelled hf hraw ds.length 0 (Nat.zero_add _)
  · obtain ⟨e, he⟩ := herr hf
    have hasm : assemble ds = .error e := by unfold assemble; rw [he]; rfl
    rw [hasm]
    refine ⟨⟨fun _ => ?_, fun _ => ⟨e, rfl⟩⟩, fun code hc => by cases hc⟩
    refine Classical.byContradiction fun hn => hf fun k d b o hk hd ho => ?_
    exact Classical.byContradiction fun hnf => hn ⟨k, d, b, o, hk, hd, ho, hnf⟩

/-- Two labels that are open at once and bound in the order they were made, a branch back to the
start and one by a given displacement. -/
def interleaved : List Directive :=
  [.emit (.ldcR8 0x7FF8000000000001), .branch .brtrueS, .emit (.ldcI4 300), .branch .brtrue, .bind 0,
    .branchTo .brS 0, .branchBy .brfalseS (-3), .bind 1, .emit .ret]

theorem assemble_roundTrip_interleaved :
    WellBound interleaved ∧ ∃ code, assemble interleaved = .ok code ∧
      (Decoder.ofCode code 0).Yields
        [(0, .ldcR8 0x7FF8000000000001), (9, .brtrue 10), (11, .ldcI4 300), (16, .brtrue 4), (21, .br (-23)),
          (23, .brfalse (-3)), (25, .ret)] ⟨code, code.size, false⟩ := by
  have h := @assemble_roundTrip interleaved (by simp [interleaved]) (by decide) (by simp [interleaved])
  obtain ⟨code, hc⟩ : ∃ code, assemble interleaved = .ok code := ⟨_, rfl⟩
  have he : emitted interleaved =
      [(0, .ldcR8 0x7FF8000000000001), (9, .brtrue 10), (11, .ldcI4 300), (16, .brtrue 4), (21, .br (-23)),
        (23, .brfalse (-3)), (25, .ret)] := by decide +kernel
  rw [← he]
  exact ⟨by decide, code, hc, (h.2 code hc).2.2⟩

end StackVm
