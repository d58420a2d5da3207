import StackVm.Proofs.ControlFlow

/-!
# Builds that differ in the choice of encodings

Two builds emit the same instructions at corresponding directives, in encodings
of different lengths, so nearly every offset and displacement differs. Machines
that run them move from moment to moment together: the moments are the same
numbers in both, only their addresses are not.
-/

namespace StackVm

/-! ## Corresponding directives -/

/-- Directive `k` of the one build and of the other: the same instruction in any of its encodings, the
same bind, or a branch to the offsets that both builds had reached at an earlier moment. -/
inductive Respells (ds es : List Directive) (k : Nat) : Directive → Directive → Prop
  | emit {e e' : Emission} : e.instruction = e'.instruction → Respells ds es k (.emit e) (.emit e')
  | branch {b b' : Branch} : b.instruction = b'.instruction → Respells ds es k (.branch b) (.branch b')
  | bind (l : Nat) : Respells ds es k (.bind l) (.bind l)
  | branchTo {b b' : Branch} {p target target' : Nat} {a a' : Assembler} : b.instruction = b'.instruction → p ≤ k →
      assembleFrom .empty (ds.take p) = .ok a → a.offset = target →
      assembleFrom .empty (es.take p) = .ok a' → a'.offset = target' →
      Respells ds es k (.branchTo b target) (.branchTo b' target')

structure Respelled (ds es : List Directive) : Prop where
  length : ds.length = es.length
  each : ∀ {k : Nat} {d e : Directive}, ds[k]? = some d → es[k]? = some e → Respells ds es k d e

theorem Respells.symm {ds es : List Directive} {k : Nat} {d e : Directive} (h : Respells ds es k d e) :
    Respells es ds k e d := by
  cases h with
  | emit h => exact .emit h.symm
  | branch h => exact .branch h.symm
  | bind l => exact .bind l
  | branchTo h hp ha ht ha' ht' => exact .branchTo h.symm hp ha' ht' ha ht

namespace Respelled

variable {ds es : List Directive}

theorem symm (h : Respelled ds es) : Respelled es ds := ⟨h.length.symm, fun hk hk' => (h.each hk' hk).symm⟩

theorem exists_of_getElem? (h : Respelled ds es) {k : Nat} {d : Directive} (hk : ds[k]? = some d) :
    ∃ e, es[k]? = some e ∧ Respells ds es k d e := by
  have hlt : k < es.length := by
    have := (List.getElem?_eq_some_iff.mp hk).1
    rwa [h.length] at this
  have he := List.getElem?_eq_getElem hlt
  exact ⟨_, he, h.each hk he⟩

theorem bind (h : Respelled ds es) {p l : Nat} (hp : ds[p]? = some (.bind l)) : es[p]? = some (.bind l) := by
  obtain ⟨e, he, hr⟩ := h.exists_of_getElem? hp
  cases hr
  exact he

theorem branch (h : Respelled ds es) {k : Nat} {b : Branch} (hk : ds[k]? = some (.branch b)) :
    ∃ b', es[k]? = some (.branch b') ∧ b.instruction = b'.instruction := by
  obtain ⟨e, he, hr⟩ := h.exists_of_getElem? hk
  cases hr with
  | branch hb => exact ⟨_, he, hb⟩

theorem labelOf_eq (h : Respelled ds es) : ∀ k, labelOf ds k = labelOf es k
  | 0 => rfl
  | k + 1 => by
    have ih := h.labelOf_eq k
    unfold labelOf at ih ⊢
    rw [List.take_add_one, List.take_add_one, forwards_append, forwards_append, ih]
    cases hd : ds[k]? with
    | none =>
      have hk := List.getElem?_eq_none_iff.mp hd
      rw [h.length] at hk
      rw [List.getElem?_eq_none_iff.mpr hk]
    | some d =>
      obtain ⟨e, he, hr⟩ := h.exists_of_getElem? hd
      rw [he]
      cases hr <;> rfl

theorem wellBound (h : Respelled ds es) (hw : WellBound ds) : WellBound es where
  made {p l} hp := by
    rw [← h.labelOf_eq]
    exact hw.made (h.symm.bind hp)
  once hp hq := hw.once (h.symm.bind hp) (h.symm.bind hq)

theorem structured (h : Respelled ds es) (hw : WellBound ds) : Structured ds where
  raw bs hm := by
    obtain ⟨k, hk⟩ := List.mem_iff_getElem?.mp hm
    obtain ⟨e, _, hr⟩ := h.exists_of_getElem? hk
    cases hr
  given b o hm := by
    obtain ⟨k, hk⟩ := List.mem_iff_getElem?.mp hm
    obtain ⟨e, _, hr⟩ := h.exists_of_getElem? hk
    cases hr
  bound := hw
  seen k b target hk := by
    obtain ⟨e, _, hr⟩ := h.exists_of_getElem? hk
    cases hr with
    | branchTo _ hp ha ht _ _ => exact ⟨_, hp, _, ha, ht⟩

theorem leads (h : Respelled ds es) {k p : Nat} (hl : Leads ds k p) : ∃ p, Leads ds k p ∧ Leads es k p := by
  cases hl with
  | bound hk hp =>
    obtain ⟨b', hk', _⟩ := h.branch hk
    refine ⟨p, .bound hk hp, .bound hk' ?_⟩
    rw [← h.labelOf_eq]
    exact h.bind hp
  | unbound hk hp =>
    obtain ⟨b', hk', _⟩ := h.branch hk
    refine ⟨k + 1, .unbound hk hp, .unbound hk' fun q hq => ?_⟩
    rw [← h.labelOf_eq] at hq
    exact hp q (h.symm.bind hq)
  | back hk _ _ =>
    -- the target was reached at one moment of both builds, maybe not at the given one
    obtain ⟨e, he, hr⟩ := h.exists_of_getElem? hk
    cases hr with
    | branchTo _ hq ha ht ha' ht' =>
      exact ⟨_, .back hk hq ((offset_take ha).symm.trans ht), .back he hq ((offset_take ha').symm.trans ht')⟩

/-- Corresponding instructions are equal, or are branches of one kind that lead to one moment. -/
theorem exists_instruction (h : Respelled ds es) (hs : Structured ds) {k : Nat} {i : Instruction}
    (hi : instructionAt? ds k = some i) :
    ∃ i', instructionAt? es k = some i' ∧
      (i = i' ∧ i.branchOffset? = none ∨
        ∃ (b : Branch) (p : Nat), i = b.instruction (Int32.ofInt (displacement ds k)) ∧
          i' = b.instruction (Int32.ofInt (displacement es k)) ∧ Leads ds k p ∧ Leads es k p) := by
  obtain ⟨d, hk, hd⟩ := instructionAt?_eq_some hi
  obtain ⟨e, he, hr⟩ := h.exists_of_getElem? hk
  have hi' : instructionAt? es k = e.instruction? (displacement es k) := by
    unfold instructionAt?; rw [he]; rfl
  have hj : ∀ b : Branch, i = b.instruction (Int32.ofInt (displacement ds k)) →
      ∃ p, Leads ds k p ∧ Leads es k p := by
    intro b hb
    have ho : i.branchOffset? = some (Int32.ofInt (displacement ds k)) := by rw [hb]; cases b <;> rfl
    obtain ⟨_, p, hp⟩ := hs.exists_leads hi ho
    exact h.leads hp
  cases hr with
  | bind l => cases hd
  | @emit x x' hx =>
    cases hd
    refine ⟨x'.instruction, hi', .inl ⟨hx, ?_⟩⟩
    cases x <;> rfl
  | @branch b b' hb =>
    cases hd
    obtain ⟨p, hp, hp'⟩ := hj b rfl
    refine ⟨_, hi', .inr ⟨b, p, rfl, ?_, hp, hp'⟩⟩
    rw [hb]
  | @branchTo b b' _ _ _ _ _ hb =>
    cases hd
    obtain ⟨p, hp, hp'⟩ := hj b rfl
    refine ⟨_, hi', .inr ⟨b, p, rfl, ?_, hp, hp'⟩⟩
    rw [hb]

theorem nextAt?_eq (h : Respelled ds es) (hs : Structured ds) (hs' : Structured es) (k : Nat) :
    nextAt? ds k = nextAt? es k := by
  have hsome : ∀ j, (instructionAt? ds j).isSome = (instructionAt? es j).isSome := by
    intro j
    rw [Bool.eq_iff_iff, Option.isSome_iff_exists, Option.isSome_iff_exists]
    constructor
    · rintro ⟨i, hi⟩
      obtain ⟨i', hi', _⟩ := h.exists_instruction hs hi
      exact ⟨i', hi'⟩
    · rintro ⟨i, hi⟩
      obtain ⟨i', hi', _⟩ := h.symm.exists_instruction hs' hi
      exact ⟨i', hi'⟩
  unfold nextAt?
  simp only [hsome, h.length]

end Respelled

/-! ## Machines in step -/

namespace Machine

/-- Equal in all that a program can observe; counters and code may differ. -/
structure Same (m m' : Machine) : Prop where
  image : m.program.image = m'.program.image
  frame : m.frame = m'.frame
  executed : m.executed = m'.executed

/-- What both did in a step: they go on with `R` between them, or end alike. -/
inductive Agree (R : Machine → Machine → Prop) :
    EStateM.Result Fault Machine Signal → EStateM.Result Fault Machine Signal → Prop
  | next {m m' : Machine} : R m m' → Agree R (.ok .next m) (.ok .next m')
  | halt (v : Option Value) {m m' : Machine} : Same m m' → Agree R (.ok (.halt v) m) (.ok (.halt v) m')
  | error (e : Fault) {m m' : Machine} : Same m m' → Agree R (.error e m) (.error e m')

theorem effect_branch (rules : Rules) (image : Image) (b : Branch) (f : Frame) :
    (∃ f', ∀ d, effect rules image (b.instruction d) f = .ok (.jump d) f') ∨
    (∃ f', ∀ d, effect rules image (b.instruction d) f = .ok .stay f') ∨
    ∃ e f', ∀ d, effect rules image (b.instruction d) f = .error e f' := by
  have htest : ∀ op wanted, (∃ f', ∀ d, test op wanted d f = .ok (.jump d) f') ∨
      (∃ f', ∀ d, test op wanted d f = .ok .stay f') ∨ ∃ e f', ∀ d, test op wanted d f = .error e f' := by
    intro op wanted
    unfold test
    cases hc : popCondition op f with
    | error e f' => exact .inr (.inr ⟨e, f', fun d => bind_of_error hc⟩)
    | ok n f' =>
      by_cases hn : n = wanted
      · refine .inl ⟨f', fun d => ?_⟩
        rw [bind_of_ok hc, if_pos hn]; rfl
      · refine .inr (.inl ⟨f', fun d => ?_⟩)
        rw [bind_of_ok hc, if_neg hn]; rfl
  cases b with
  | brS => exact .inl ⟨f, fun d => rfl⟩
  | brfalseS => exact htest .brfalse 0
  | brtrueS | brtrue => exact htest .brtrue 1

theorem settle_of_not_jump {R : Machine → Machine → Prop} {m m' : Machine} (o o' : Nat)
    {r : EStateM.Result Fault Frame Move} (hi : m.program.image = m'.program.image) (hx : m.executed = m'.executed)
    (hj : ∀ d f, r ≠ .ok (.jump d) f) (hr : ∀ f, R ⟨m.program, f, m.executed⟩ ⟨m'.program, f, m'.executed⟩) :
    Agree R (settle m o r) (settle m' o' r) := by
  cases r with
  | error e f => exact .error e ⟨hi, rfl, hx⟩
  | ok v f =>
    cases v with
    | stay => exact .next (hr f)
    | halt v => exact .halt v ⟨hi, rfl, hx⟩
    | jump d => exact absurd rfl (hj d f)

section
variable {ds es : List Directive} {code code' : Code}

structure InStep (ds es : List Directive) (code code' : Code) (m m' : Machine) : Prop where
  at_ : ∃ k, At ds code k m ∧ At es code' k m'
  same : Same m m'

variable (h : Respelled ds es) (hs : Structured ds) (hf : AllFit ds) (hc : Spelled ds (displacement ds) code)
  (hs' : Structured es) (hf' : AllFit es) (hc' : Spelled es (displacement es) code')
include h hs hf hc hs' hf' hc'

theorem InStep.step (rules : Rules) {m m' : Machine} (hm : InStep ds es code code' m m') :
    Agree (InStep ds es code code') (step rules m) (step rules m') := by
  obtain ⟨⟨k, hk, hk'⟩, hsame⟩ := hm
  by_cases hw : m.Within rules
  · have hw' : m'.Within rules := fun limit hl => hsame.executed ▸ hw limit hl
    cases hn : nextAt? ds k with
    | none =>
      have hn' := (h.nextAt?_eq hs hs' k).symm.trans hn
      rw [hk.step_of_none hs.raw hf hc hw hn, hk'.step_of_none hs'.raw hf' hc' hw' hn']
      exact .error _ hsame
    | some j =>
      have hn' := (h.nextAt?_eq hs hs' k).symm.trans hn
      obtain ⟨_, i, hi⟩ := nextAt?_eq_some hs.raw hn
      obtain ⟨i', hi', hcase⟩ := h.exists_instruction hs hi
      rw [hk.step_of_some hs.raw hf hc hw hn hi, hk'.step_of_some hs'.raw hf' hc' hw' hn' hi', ← hsame.image,
        ← hsame.frame]
      have hx : m.executed + 1 = m'.executed + 1 := by rw [hsame.executed]
      have hstay : ∀ f, InStep ds es code code' ⟨(m.past (address ds (j + 1))).program, f, m.executed + 1⟩
          ⟨(m'.past (address es (j + 1))).program, f, m'.executed + 1⟩ := fun f =>
        ⟨⟨j + 1, ⟨hk.code, rfl⟩, ⟨hk'.code, rfl⟩⟩, hsame.image, rfl, hx⟩
      rcases hcase with ⟨rfl, ho⟩ | ⟨b, p, rfl, rfl, hp, hp'⟩
      · -- one instruction on one frame: all but a jump settles alike
        refine settle_of_not_jump _ _ hsame.image hx (fun d f he => ?_) hstay
        have := (effect_eq_jump.mp ⟨f, he⟩).2
        rw [ho] at this; cases this
      · -- the displacements differ, but matter only once the branch is taken
        rcases effect_branch rules m.program.image b m.frame with ⟨f, he⟩ | ⟨f, he⟩ | ⟨e, f, he⟩
        · rw [he, he, settle_jump hs.bound hf hc (at_past hk (j + 1)) hp,
            settle_jump hs'.bound hf' hc' (at_past hk' (j + 1)) hp']
          exact .next ⟨⟨p, ⟨hk.code, rfl⟩, ⟨hk'.code, rfl⟩⟩, hsame.image, rfl, hx⟩
        · rw [he, he]
          exact .next (hstay f)
        · rw [he, he]
          exact .error e ⟨hsame.image, rfl, hx⟩
  · have hw' : ¬ m'.Within rules := fun hn => hw fun limit hl => hsame.executed ▸ hn limit hl
    obtain ⟨limit, hr, hl⟩ := fetch_of_not_within hw
    obtain ⟨limit', hr', hl'⟩ := fetch_of_not_within hw'
    rw [step_of_fetch_error hl, step_of_fetch_error hl']
    cases hr.symm.trans hr'
    exact .error _ hsame

theorem InStep.run (rules : Rules) : ∀ (fuel : Nat) {m m' : Machine}, InStep ds es code code' m m' →
    (run rules fuel m).map (fun x => (x.1, x.2.frame, x.2.executed)) =
      (run rules fuel m').map fun x => (x.1, x.2.frame, x.2.executed)
  | 0, _, _, _ => rfl
  | fuel + 1, m, m', hm => by
    have hstep := hm.step h hs hf hc hs' hf' hc' rules
    unfold Machine.run
    generalize Machine.step rules m = r at hstep
    generalize Machine.step rules m' = r' at hstep
    cases hstep with
    | next hn => exact InStep.run rules fuel hn
    | halt v hsame | error e hsame =>
      simp only [Option.map_some, hsame.frame, hsame.executed]

end

end Machine

def observed (x : Except Fault (Option Value) × Interpreter × Host) :
    Except Fault (Option Value) × Interpreter × Host :=
  (x.1, { x.2.1 with program := none }, x.2.2)

/-- How an instruction is encoded does not show in a run. The interpreters that load the two builds
agree in their limits and interned texts; after `fuel` steps both runs go on, or both have ended with
one result, one count, equal stacks, locals and texts and equal hosts. -/
theorem encoding_unobservable {ds es : List Directive} {code code' : Code} (hw : WellBound ds)
    (h : Respelled ds es) (ha : assemble ds = .ok code) (ha' : assemble es = .ok code')
    (i i' : Interpreter) (hl : i.limit = i'.limit) (ht : i.strings = i'.strings)
    (maxStack localCount : UInt16) (image : Image) (registry : Registry) (host : Host) :
    let run := fun fuel => (i.load (.ofMethod ⟨code, maxStack, localCount⟩ image)).run fuel registry host
    let run' := fun fuel => (i'.load (.ofMethod ⟨code', maxStack, localCount⟩ image)).run fuel registry host
    (∀ fuel, (run fuel).map observed = (run' fuel).map observed) ∧
      ((∀ fuel, run fuel = none) ↔ ∀ fuel, run' fuel = none) := by
  intro run run'
  have hs := h.structured hw
  have hs' := h.symm.structured (h.wellBound hw)
  obtain ⟨hf, hc⟩ := hs.spelled ha
  obtain ⟨hf', hc'⟩ := hs'.spelled ha'
  have hm : Machine.InStep ds es code code' (i.start (.ofMethod ⟨code, maxStack, localCount⟩ image) host)
      (i'.start (.ofMethod ⟨code', maxStack, localCount⟩ image) host) := by
    refine ⟨⟨0, ⟨rfl, (address_zero ds).symm⟩, ⟨rfl, (address_zero es).symm⟩⟩, rfl, ?_, rfl⟩
    show Frame.mk _ _ i.strings host = Frame.mk _ _ i'.strings host
    rw [ht]; rfl
  have heq : ∀ fuel, (run fuel).map observed = (run' fuel).map observed := by
    intro fuel
    have hrun := hm.run h hs hf hc hs' hf' hc' ⟨registry, i.limit⟩ fuel
    show ((i.load _).run fuel registry host).map observed = ((i'.load _).run fuel registry host).map observed
    rw [Interpreter.run_load, Interpreter.run_load, ← hl]
    generalize Machine.run ⟨registry, i.limit⟩ fuel (i.start _ host) = x at hrun
    generalize Machine.run ⟨registry, i.limit⟩ fuel (i'.start _ host) = x' at hrun
    cases x with
    | none =>
      cases x' with
      | none => rfl
      | some y => cases hrun
    | some y =>
      cases x' with
      | none => cases hrun
      | some y' =>
        obtain ⟨hr, hfr, hx⟩ : y.1 = y'.1 ∧ y.2.frame = y'.2.frame ∧ y.2.executed = y'.2.executed := by
          simpa using hrun
        simp only [Option.map_some, observed, Interpreter.finish, Interpreter.load, hr, hfr, hx, hl]
  refine ⟨heq, forall_congr' fun fuel => ?_⟩
  rw [← Option.map_eq_none_iff (f := observed), heq fuel, Option.map_eq_none_iff]

/-- A loop that its first test leaves, in the shortest encodings. -/
def shortLoop : List Directive :=
  [.emit (.ldcI4 1), .emit (.stloc 0), .emit (.ldloc 0), .branch .brtrueS, .branchTo .brS 2, .bind 0, .emit .ret]

def longLoop : List Directive :=
  [.emit (.ldcI4S 1), .emit (.stlocS 0), .emit (.ldlocS 0), .branch .brtrue, .branchTo .brS 4, .bind 0, .emit .ret]

theorem respelled_loop : Respelled shortLoop longLoop where
  length := rfl
  each {k d e} hk hk' := by
    match k with
    | 0 | 1 | 2 | 6 => cases hk; cases hk'; exact .emit rfl
    | 3 => cases hk; cases hk'; exact .branch rfl
    | 4 => cases hk; cases hk'; exact .branchTo (p := 2) rfl (by decide) rfl rfl rfl rfl
    | 5 => cases hk; cases hk'; exact .bind 0
    | k + 7 => cases hk

theorem encoding_unobservable_loop :
    WellBound shortLoop ∧ Respelled shortLoop longLoop ∧
      ∃ code code', assemble shortLoop = .ok code ∧ assemble longLoop = .ok code' ∧ code.size < code'.size ∧
        ∀ fuel, (((Interpreter.ofLimit none).load (.ofMethod ⟨code, 1, 1⟩ .empty)).run fuel .builtins
            ⟨.ofCapacity none, #[]⟩).map observed =
          (((Interpreter.ofLimit none).load (.ofMethod ⟨code', 1, 1⟩ .empty)).run fuel .builtins
            ⟨.ofCapacity none, #[]⟩).map observed := by
  have hw : WellBound shortLoop := by decide
  refine ⟨hw, respelled_loop, _, _, rfl, rfl, by decide, ?_⟩
  exact (encoding_unobservable hw respelled_loop rfl rfl _ _ rfl rfl 1 1 .empty .builtins ⟨.ofCapacity none, #[]⟩).1

end StackVm
