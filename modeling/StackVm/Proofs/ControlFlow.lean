import StackVm.Proofs.RelayedFaults
import StackVm.Proofs.RoundTrip

/-!
# Control flow of assembled code

A moment of a build is the number of directives performed before it. The counter
of a machine that runs assembled code always stands at the address of some
moment (`Machine.At`); the next fetch meets the first instruction emitted from
that moment on, and a branch that is taken leads to the moment at which its
label was bound or its target was taken. A fault of decoding or branching can
then only be one that a handler has returned.
-/

namespace StackVm

/-! ## The next instruction -/

def nextAt? (ds : List Directive) (k : Nat) : Option Nat :=
  (List.range' k (ds.length - k)).find? fun j => (instructionAt? ds j).isSome

theorem nextAt?_of_length_le {ds : List Directive} {k : Nat} (h : ds.length ≤ k) : nextAt? ds k = none := by
  unfold nextAt?
  rw [Nat.sub_eq_zero_of_le h]; rfl

theorem nextAt?_of_lt {ds : List Directive} {k : Nat} (h : k < ds.length) :
    nextAt? ds k = if (instructionAt? ds k).isSome then some k else nextAt? ds (k + 1) := by
  unfold nextAt?
  rw [show ds.length - k = (ds.length - (k + 1)) + 1 by omega, List.range'_succ, List.find?_cons]
  cases (instructionAt? ds k).isSome <;> rfl

theorem nextAt?_self {ds : List Directive} {k : Nat} {i : Instruction} (hi : instructionAt? ds k = some i) :
    nextAt? ds k = some k := by
  obtain ⟨d, hk, _⟩ := instructionAt?_eq_some hi
  rw [nextAt?_of_lt (List.getElem?_eq_some_iff.mp hk).1, hi]; rfl

theorem nextAt?_spec {ds : List Directive} (hraw : ∀ bs, .raw bs ∉ ds) : ∀ (n k : Nat), ds.length - k = n →
    match nextAt? ds k with
    | some j => address ds j = address ds k ∧ ∃ i, instructionAt? ds j = some i
    | none => address ds k = address ds ds.length
  | 0, k, hn => by
    have hk : ds.length ≤ k := by omega
    rw [nextAt?_of_length_le hk]
    exact address_of_length_le hk
  | n + 1, k, hn => by
    have ih := nextAt?_spec hraw n (k + 1) (by omega)
    rw [nextAt?_of_lt (by omega)]
    cases hi : instructionAt? ds k with
    | some i => exact ⟨rfl, i, hi⟩
    | none =>
      -- a directive that emits nothing takes no room
      rw [address_succ_of_none hraw hi] at ih
      exact ih

theorem nextAt?_eq_some {ds : List Directive} (hraw : ∀ bs, .raw bs ∉ ds) {j k : Nat} (h : nextAt? ds k = some j) :
    address ds j = address ds k ∧ ∃ i, instructionAt? ds j = some i := by
  have := nextAt?_spec hraw _ k rfl
  rwa [h] at this

theorem nextAt?_eq_none {ds : List Directive} (hraw : ∀ bs, .raw bs ∉ ds) {k : Nat} (h : nextAt? ds k = none) :
    address ds k = address ds ds.length := by
  have := nextAt?_spec hraw _ k rfl
  rwa [h] at this

theorem mem_emitted {ds : List Directive} {k : Nat} {i : Instruction} (hi : instructionAt? ds k = some i) :
    (address ds k, i) ∈ emitted ds := by
  obtain ⟨d, hk, _⟩ := instructionAt?_eq_some hi
  refine List.mem_filterMap.mpr ⟨k, List.mem_range.mpr (List.getElem?_eq_some_iff.mp hk).1, ?_⟩
  rw [hi]; rfl

/-! ## Where branches lead -/

/-- The branch that directive `k` emits leads to moment `p`. -/
inductive Leads (ds : List Directive) (k : Nat) : Nat → Prop
  | bound {b : Branch} {p : Nat} : ds[k]? = some (.branch b) → ds[p]? = some (.bind (labelOf ds k)) → Leads ds k p
  | unbound {b : Branch} : ds[k]? = some (.branch b) → (∀ p : Nat, ds[p]? ≠ some (.bind (labelOf ds k))) →
      Leads ds k (k + 1)
  | back {b : Branch} {p target : Nat} : ds[k]? = some (.branchTo b target) → p ≤ k → address ds p = target →
      Leads ds k p

/-- No raw bytes and no displacements by hand, labels bound once and targets taken on the way. -/
structure Structured (ds : List Directive) : Prop where
  raw : ∀ bs, .raw bs ∉ ds
  given : ∀ b offset, .branchBy b offset ∉ ds
  bound : WellBound ds
  seen : TargetsSeen ds

theorem Leads.address_eq {ds : List Directive} (hw : WellBound ds) {k p : Nat} (h : Leads ds k p) :
    (address ds p : Int) = address ds (k + 1) + displacement ds k := by
  unfold displacement
  cases h with
  | bound hk hp =>
    rw [displacement?_of_branch hk, (findIdx?_bind_eq_some hw).mpr hp, Option.map_some, Option.getD_some]; omega
  | unbound hk hp =>
    rw [displacement?_of_branch hk, findIdx?_bind_eq_none.mpr hp, Option.map_none, Option.getD_none, Int.add_zero]
  | back hk _ ht =>
    rw [displacement?_of_branchTo hk, Option.getD_some, ht]; omega

theorem Structured.exists_leads {ds : List Directive} (h : Structured ds) {k : Nat} {i : Instruction} {offset : Int32}
    (hi : instructionAt? ds k = some i) (ho : i.branchOffset? = some offset) :
    offset = Int32.ofInt (displacement ds k) ∧ ∃ p, Leads ds k p := by
  obtain ⟨d, hk, hd⟩ := instructionAt?_eq_some hi
  cases d with
  | emit e => cases hd; cases e <;> cases ho
  | raw bs | bind l => cases hd
  | branchBy b o => exact absurd (List.mem_of_getElem? hk) (h.given b o)
  | branch b =>
    cases hd
    refine ⟨by cases b <;> cases ho <;> rfl, ?_⟩
    by_cases hp : ∃ p : Nat, ds[p]? = some (.bind (labelOf ds k))
    · obtain ⟨p, hp⟩ := hp
      exact ⟨p, .bound hk hp⟩
    · exact ⟨k + 1, .unbound hk fun p he => hp ⟨p, he⟩⟩
  | branchTo b target =>
    cases hd
    obtain ⟨p, hp, ht⟩ := h.seen.exists_address hk
    exact ⟨by cases b <;> cases ho <;> rfl, p, .back hk hp ht⟩

theorem Structured.spelled {ds : List Directive} {code : Code} (h : Structured ds) (ha : assemble ds = .ok code) :
    AllFit ds ∧ Spelled ds (displacement ds) code := by
  unfold assemble at ha
  cases hc : assembleFrom .empty ds with
  | error e => rw [hc] at ha; cases ha
  | ok a =>
    rw [hc] at ha; cases ha
    have hspec := assemble_spec h.bound (h.seen.plain hc)
    by_cases hf : AllFit ds
    · obtain ⟨a', ha', hb⟩ := hspec.1 hf
      rw [hc] at ha'; cases ha'
      exact ⟨hf, hb.spelled⟩
    · obtain ⟨e, he⟩ := hspec.2 hf
      rw [hc] at he; cases he

/-! ## Machines at a moment -/

def Fault.Astray : Fault → Prop
  | decode _ | branchOutOfBounds _ _ => True
  | _ => False

theorem Fault.OfFrame.not_astray {e : Fault} (h : e.OfFrame) : ¬ e.Astray := by
  cases e with
  | decode _ | branchOutOfBounds _ _ => exact absurd h id
  | _ => exact id

namespace Machine

/-- The machine runs `code` and its counter stands at the address of moment `k`. -/
structure At (ds : List Directive) (code : Code) (k : Nat) (m : Machine) : Prop where
  code : m.program.method.code = code
  pc : m.program.pc = address ds k

/-- The next fetch meets the first instruction emitted from moment `p` on, or the end. -/
def Meets (rules : Rules) (ds : List Directive) (p : Nat) (m : Machine) : Prop :=
  match nextAt? ds p with
  | some j => ∃ i, instructionAt? ds j = some i ∧ fetch rules m = .ok (address ds j, i) (m.past (address ds (j + 1)))
  | none => fetch rules m = .error .endOfCode m

section
variable {ds : List Directive} {code : Code} (hraw : ∀ bs, .raw bs ∉ ds) (hf : AllFit ds)
  (hc : Spelled ds (displacement ds) code)
include hraw hf hc

theorem At.decodeAt_eq {j k : Nat} {i : Instruction} {m : Machine} (h : At ds code k m) (hn : nextAt? ds k = some j)
    (hi : instructionAt? ds j = some i) :
    decodeAt m.program.method.code m.program.pc = .ok (i, address ds (j + 1)) := by
  rw [h.code, h.pc, ← (nextAt?_eq_some hraw hn).1]
  exact decodeAt_address hc hf hi

theorem At.meets {rules : Rules} {k : Nat} {m : Machine} (h : At ds code k m) (hw : m.Within rules) :
    Meets rules ds k m := by
  unfold Meets
  cases hn : nextAt? ds k with
  | none =>
    have he := nextAt?_eq_none hraw hn
    refine fetch_of_error hw (if_pos (Nat.le_of_eq ?_))
    rw [h.code, h.pc, he, hc.size]
  | some j =>
    obtain ⟨ha, i, hi⟩ := nextAt?_eq_some hraw hn
    have hfetch := programFetch_of_decodeAt (h.decodeAt_eq hraw hf hc hn hi)
    rw [h.pc, ← ha] at hfetch
    exact ⟨i, hi, fetch_of_ok hw hfetch⟩

theorem At.step_of_some {rules : Rules} {j k : Nat} {i : Instruction} {m : Machine} (h : At ds code k m)
    (hw : m.Within rules) (hn : nextAt? ds k = some j) (hi : instructionAt? ds j = some i) :
    step rules m = settle (m.past (address ds (j + 1))) (address ds j) (effect rules m.program.image i m.frame) := by
  have hm := h.meets hraw hf hc hw
  unfold Meets at hm
  rw [hn] at hm
  obtain ⟨i', hi', hfetch⟩ := hm
  rw [hi, Option.some.injEq] at hi'
  subst hi'
  exact step_of_fetch hfetch

theorem At.step_of_none {rules : Rules} {k : Nat} {m : Machine} (h : At ds code k m) (hw : m.Within rules)
    (hn : nextAt? ds k = none) : step rules m = .error .endOfCode m := by
  have hm := h.meets hraw hf hc hw
  unfold Meets at hm
  rw [hn] at hm
  exact step_of_fetch_error hm

end

theorem settle_jump {ds : List Directive} {code : Code} (hw : WellBound ds) (hf : AllFit ds)
    (hc : Spelled ds (displacement ds) code) {m : Machine} {j p : Nat}
    (h : At ds code (j + 1) m) (hl : Leads ds j p) (offset : Nat) (f : Frame) :
    settle m offset (.ok (.jump (Int32.ofInt (displacement ds j))) f) =
      .ok .next ⟨{ m.program with pc := address ds p }, f, m.executed⟩ := by
  have ha := hl.address_eq hw
  have hle := address_le_length ds p
  have hb : Program.branch offset (Int32.ofInt (displacement ds j)) m.program =
      .ok () { m.program with pc := address ds p } := by
    unfold Program.branch
    rw [hf.toInt_displacement, h.pc, ← ha]
    exact if_pos ⟨by omega, by rw [h.code, hc.size]; omega⟩
  simp only [settle, hb]

theorem at_past {ds : List Directive} {code : Code} {k : Nat} {m : Machine} (h : At ds code k m) (j : Nat) :
    At ds code j (m.past (address ds j)) := ⟨h.code, rfl⟩

section
variable {ds : List Directive} {code : Code} (hs : Structured ds) (hf : AllFit ds)
  (hc : Spelled ds (displacement ds) code)
include hs hf hc

theorem At.step (rules : Rules) {k : Nat} {m : Machine} (h : At ds code k m) :
    match step rules m with
    | .ok .next m' => ∃ j k', nextAt? ds k = some j ∧ (k' = j + 1 ∨ Leads ds j k') ∧ At ds code k' m'
    | .ok (.halt _) _ => True
    | .error e _ => e.Astray → Relays rules m e := by
  by_cases hw : m.Within rules
  · cases hn : nextAt? ds k with
    | none =>
      rw [h.step_of_none hs.raw hf hc hw hn]
      exact False.elim
    | some j =>
      obtain ⟨_, i, hi⟩ := nextAt?_eq_some hs.raw hn
      rw [h.step_of_some hs.raw hf hc hw hn hi]
      cases he : effect rules m.program.image i m.frame with
      | error e f =>
        rcases effect_error (h.decodeAt_eq hs.raw hf hc hn hi) he with hframe | hrelays
        · exact fun ha => absurd ha hframe.not_astray
        · exact fun _ => hrelays
      | ok v f =>
        cases v with
        | stay => exact ⟨j, j + 1, rfl, .inl rfl, h.code, rfl⟩
        | halt r => trivial
        | jump d =>
          obtain ⟨hd, p, hp⟩ := hs.exists_leads hi (effect_eq_jump.mp ⟨f, he⟩).2
          rw [hd, settle_jump hs.bound hf hc (at_past h (j + 1)) hp]
          exact ⟨j, p, rfl, .inr hp, h.code, rfl⟩
  · obtain ⟨limit, _, hl⟩ := fetch_of_not_within hw
    rw [step_of_fetch_error hl]
    exact False.elim

theorem At.reaches {rules : Rules} {m₀ m : Machine} (h : At ds code 0 m₀) (hr : Reaches rules m₀ m) :
    ∃ k, At ds code k m := by
  refine hr.invariant (P := fun m => ∃ k, At ds code k m) ⟨0, h⟩ fun {m m'} ⟨k, hk⟩ hm => ?_
  have hstep := hk.step hs hf hc rules
  rw [hm] at hstep
  obtain ⟨_, k', _, _, hk'⟩ := hstep
  exact ⟨k', hk'⟩

end

end Machine

/-- Assembled code never fails in decoding or branching, unless a handler that it calls returns such a fault. Before
every fetch the counter stands at an emitted instruction or at the end, and after a taken branch the next fetch meets
the instruction emitted next after the moment the branch leads to. -/
theorem control_flow_integrity {ds : List Directive} {code : Code} (hs : Structured ds) (ha : assemble ds = .ok code)
    (interpreter : Interpreter) (maxStack localCount : UInt16) (image : Image) (registry : Registry) (host : Host) :
    let program := Program.ofMethod ⟨code, maxStack, localCount⟩ image
    let rules : Rules := ⟨registry, interpreter.limit⟩
    (∀ fuel e after host', (interpreter.load program).run fuel registry host = some (.error e, after, host') →
      e.Astray → ∃ m, Machine.Reaches rules (interpreter.start program host) m ∧ m.Relays rules e) ∧
    (∀ m, Machine.Reaches rules (interpreter.start program host) m →
      (∃ i, (m.program.pc, i) ∈ emitted ds) ∨ m.program.pc = code.size) ∧
    ∀ m, Machine.Reaches rules (interpreter.start program host) m → m.Within rules →
      ∀ k i, instructionAt? ds k = some i → m.program.pc = address ds k → i.Jumps m.frame →
        (∃ p, Leads ds k p) ∧ ∃ m', Machine.step rules m = .ok .next m' ∧
          ∀ p, Leads ds k p → m'.Within rules → Machine.Meets rules ds p m' := by
  intro program rules
  obtain ⟨hf, hc⟩ := hs.spelled ha
  have h₀ : Machine.At ds code 0 (interpreter.start program host) := ⟨rfl, (address_zero ds).symm⟩
  refine ⟨fun fuel e after host' hrun => ?_, fun m hr => ?_, fun m hr hw k i hi hpc hj => ?_⟩
  · rw [Interpreter.run_load] at hrun
    obtain ⟨⟨r, m⟩, hm, he⟩ := Option.map_eq_some_iff.mp hrun
    obtain ⟨m₁, hr, hend⟩ := Machine.exists_of_run hm
    obtain ⟨k, hk⟩ := h₀.reaches hs hf hc hr
    have hstep := hk.step hs hf hc rules
    simp only [Prod.mk.injEq] at he
    rcases hend with ⟨v, _, rfl⟩ | ⟨e', hm₁, rfl⟩
    · cases he.1
    · rw [hm₁] at hstep
      cases he.1
      exact fun ha => ⟨m₁, hr, hstep ha⟩
  · obtain ⟨k, hk⟩ := h₀.reaches hs hf hc hr
    cases hn : nextAt? ds k with
    | none => right; rw [hk.pc, nextAt?_eq_none hs.raw hn, hc.size]
    | some j =>
      left
      obtain ⟨hj, i, hi⟩ := nextAt?_eq_some hs.raw hn
      exact ⟨i, by rw [hk.pc, ← hj]; exact mem_emitted hi⟩
  · obtain ⟨k₀, hk₀⟩ := h₀.reaches hs hf hc hr
    have hk : Machine.At ds code k m := ⟨hk₀.code, hpc⟩
    have hstep := hk.step_of_some hs.raw hf hc hw (nextAt?_self hi) hi
    obtain ⟨d, ho⟩ := hj.exists_offset
    obtain ⟨rfl, p, hp⟩ := hs.exists_leads hi ho
    obtain ⟨f, he⟩ := Machine.effect_eq_jump.mpr ⟨hj, ho⟩
    have hland := Machine.settle_jump hs.bound hf hc (Machine.at_past hk (k + 1)) hp (address ds k) f
    rw [he, hland] at hstep
    refine ⟨⟨p, hp⟩, _, hstep, fun q hq hw' => Machine.At.meets hs.raw hf hc ⟨hk.code, ?_⟩ hw'⟩
    have hpq := (hp.address_eq hs.bound).trans (hq.address_eq hs.bound).symm
    exact Int.ofNat.inj hpq

/-- Counts local 0 down from 3: a loop closed by a known target and left by a label. -/
def countdown : List Directive :=
  [.emit (.ldcI4 3), .emit (.stloc 0), .emit (.ldloc 0), .branch .brfalseS, .emit (.ldloc 0), .emit (.ldcI4 (-1)),
    .emit .add, .emit (.stloc 0), .branchTo .brS 2, .bind 0, .emit .ret]

theorem structured_countdown : Structured countdown where
  raw := by simp [countdown]
  given := by simp [countdown]
  bound := by decide
  seen k b target hk := by
    have hm := List.mem_of_getElem? hk
    simp only [countdown, List.mem_cons, List.not_mem_nil, reduceCtorEq, or_false, false_or,
      Directive.branchTo.injEq] at hm
    obtain ⟨rfl, rfl⟩ := hm
    refine ⟨2, ?_, _, rfl, rfl⟩
    rcases k with _ | _ | k
    · cases hk
    · cases hk
    · omega

/-- No built-in handler returns a fault of decoding or branching, so the loop cannot end with one. -/
theorem control_flow_integrity_countdown :
    Structured countdown ∧ ∃ code, assemble countdown = .ok code ∧
      let program := Program.ofMethod ⟨code, 2, 1⟩ .empty
      (∀ fuel e after host, ((Interpreter.ofLimit none).load program).run fuel .builtins ⟨.ofCapacity none, #[]⟩ =
        some (.error e, after, host) → ¬ e.Astray) ∧
      ∀ m, Machine.Reaches ⟨.builtins, none⟩ ((Interpreter.ofLimit none).start program ⟨.ofCapacity none, #[]⟩) m →
        (∃ i, (m.program.pc, i) ∈ emitted countdown) ∨ m.program.pc = code.size := by
  obtain ⟨code, hc⟩ : ∃ code, assemble countdown = .ok code := ⟨_, rfl⟩
  obtain ⟨hfault, hpc, _⟩ :=
    control_flow_integrity structured_countdown hc (.ofLimit none) 2 1 .empty .builtins ⟨.ofCapacity none, #[]⟩
  refine ⟨structured_countdown, code, hc, ?_, hpc⟩
  intro fuel e after host hrun ha
  obtain ⟨m, _, hm⟩ := hfault fuel e after host hrun ha
  exact (hm.ofFrame Registry.onlyBuiltins_builtins.modest).not_astray ha

def failingCall : List Directive := [.emit (.call 0x0A000001), .emit .ret]

theorem structured_failingCall : Structured failingCall where
  raw := by simp [failingCall]
  given := by simp [failingCall]
  bound := by decide
  seen k b target hk := by
    have hm := List.mem_of_getElem? hk
    simp [failingCall] at hm

/-- A handler that returns a fault of branching ends the run of assembled code with it. -/
theorem astray_of_handler : Structured failingCall ∧ assemble failingCall = .ok Failing.code ∧
    ∃ after host, ((Interpreter.ofLimit none).load (.ofMethod ⟨Failing.code, 0, 0⟩ Failing.image)).run 1
      (Failing.registry (.branchOutOfBounds 0 99)) ⟨.ofCapacity none, #[]⟩ =
        some (.error (.branchOutOfBounds 0 99), after, host) := by
  obtain ⟨after, hrun, _⟩ := Failing.run_program (.branchOutOfBounds 0 99) 0 ⟨.ofCapacity none, #[]⟩
  exact ⟨structured_failingCall, rfl, after, _, hrun⟩

end StackVm
