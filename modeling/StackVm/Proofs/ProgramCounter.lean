import StackVm.Proofs.RelayedFaults
import StackVm.Proofs.Tiling

/-!
# The program counter

A program may be fetched from, branched and rewound in any order. Whatever it
grants moves its counter within the code or to its end, whatever it refuses
leaves it as it was (`Use.run_cases`). A run does nothing else to its program,
so the counter it leaves behind stands where its fault says (`Fault.Locates`),
unless a handler has returned that fault.
-/

namespace StackVm

def DecodeError.offset : DecodeError → Nat
  | unsupported _ offset | truncated offset => offset

section
variable {code : Code} {pos : Nat}

theorem le_size_of_decodeAt {i : Instruction} {next : Nat} (h : decodeAt code pos = .ok (i, next)) :
    next ≤ code.size := by
  unfold decodeAt at h
  split at h
  · next hl =>
    cases h
    exact le_size_of_listingAt hl
  · cases h

theorem offset_of_decodeAt {e : DecodeError} (h : decodeAt code pos = .error e) : e.offset = pos := by
  unfold decodeAt at h
  rcases listingAt_cases code pos with ⟨op, operand, ho⟩ | ⟨op, operand, stop, _, hl⟩ | ⟨value, announcing, _, hl⟩
  · rw [listingAt_of_opens ho] at h
    cases h
  · rw [hl] at h
    cases h
    rfl
  · rw [hl] at h
    cases h
    rfl

end

/-! ## Programs in use -/

namespace Program

inductive Use where
  | fetch
  | branch (origin : Nat) (offset : Int32)
  | reset

def Use.run : Use → EStateM Fault Program Unit
  | fetch => do
    let _ ← Program.fetch
    pure ()
  | branch origin offset => Program.branch origin offset
  | reset => modify Program.reset

/-- The program after all these uses, of which it may have refused some. -/
def after (p : Program) (uses : List Use) : Program := uses.foldl (fun p use => left (use.run p)) p

def Inside (p : Program) : Prop := p.pc ≤ p.method.code.size

def Moves (p q : Program) : Prop := q.Inside ∧ q = { p with pc := q.pc }

def target (p : Program) (d : Int32) : Int := p.pc + d.toInt

variable {p q r : Program}

theorem moves_to {n : Nat} (h : n ≤ p.method.code.size) : p.Moves { p with pc := n } := ⟨h, rfl⟩

theorem Moves.refl (h : p.Inside) : p.Moves p := ⟨h, rfl⟩

theorem Moves.trans (h : p.Moves q) (h' : q.Moves r) : p.Moves r := by
  refine ⟨h'.1, ?_⟩
  rw [h'.2, h.2]

theorem Moves.method (h : p.Moves q) : q.method = p.method := by
  rw [h.2]

theorem Moves.image (h : p.Moves q) : q.image = p.image := by
  rw [h.2]

theorem Moves.le_size (h : p.Moves q) : q.pc ≤ p.method.code.size := by
  rw [← h.method]
  exact h.1

theorem branch_cases (origin : Nat) (d : Int32) (p : Program) :
    ((0 ≤ p.target d ∧ p.target d ≤ p.method.code.size) ∧
      branch origin d p = .ok () { p with pc := (p.target d).toNat }) ∨
    (¬ (0 ≤ p.target d ∧ p.target d ≤ p.method.code.size) ∧
      branch origin d p = .error (.branchOutOfBounds origin (p.target d)) p) := by
  by_cases h : 0 ≤ p.target d ∧ p.target d ≤ p.method.code.size
  · exact .inl ⟨h, if_pos h⟩
  · exact .inr ⟨h, if_neg h⟩

theorem Use.run_cases (use : Use) (p : Program) :
    (∃ q, p.Moves q ∧ use.run p = .ok () q) ∨ ∃ e, use.run p = .error e p := by
  cases use with
  | fetch =>
    rcases Machine.programFetch_cases p with ⟨_, hf⟩ | ⟨e, _, hf⟩ | ⟨i, next, hd, hf⟩
    · exact .inr ⟨_, bind_of_error hf⟩
    · exact .inr ⟨_, bind_of_error hf⟩
    · exact .inl ⟨_, moves_to (le_size_of_decodeAt hd), bind_of_ok hf⟩
  | branch origin d =>
    rcases branch_cases origin d p with ⟨⟨_, hle⟩, hb⟩ | ⟨_, hb⟩
    · exact .inl ⟨_, moves_to (Int.toNat_le.mpr hle), hb⟩
    · exact .inr ⟨_, hb⟩
  | reset => exact .inl ⟨_, moves_to (Nat.zero_le _), rfl⟩

theorem Use.eq_of_error {use : Use} {e : Fault} (h : use.run p = .error e q) : q = p := by
  rcases use.run_cases p with ⟨_, _, hrun⟩ | ⟨_, hrun⟩
  · rw [h] at hrun
    cases hrun
  · rw [h] at hrun
    cases hrun
    rfl

theorem moves_after (h : p.Inside) (uses : List Use) : p.Moves (p.after uses) := by
  induction uses generalizing p with
  | nil => exact .refl h
  | cons use uses ih =>
    show p.Moves (after (left (use.run p)) uses)
    rcases use.run_cases p with ⟨q, hq, hu⟩ | ⟨e, hu⟩
    · rw [hu]
      exact hq.trans (ih hq.1)
    · rw [hu]
      exact ih h

theorem branch_eq_ok_iff {origin : Nat} {d : Int32} : branch origin d p = .ok () q ↔
    (0 ≤ p.target d ∧ p.target d ≤ p.method.code.size) ∧ q = { p with pc := (p.target d).toNat } := by
  rcases branch_cases origin d p with ⟨hin, hb⟩ | ⟨hout, hb⟩
  · simp [hb, hin, eq_comm]
  · simp [hb, hout]

/-- Words of 64 bits are wide enough to move a counter that is not in the last two gigabytes of what they reach. -/
theorem toInt_add_eq_target (h : p.pc ≤ 0x7FFFFFFF80000000) (d : Int32) :
    (Int64.ofNat p.pc + d.toInt64).toInt = p.target d := by
  have hlow := d.le_toInt
  have hhigh := d.toInt_lt
  rw [Int64.toInt_add, Int64.toInt_ofNat_of_lt (by omega), Int32.toInt_toInt64]
  unfold target
  rw [Int.bmod_eq_of_le] <;> omega

end Program

/-! ## Faults -/

/-- The fault of a run is explained by the place in the code where it has left its program. -/
def Fault.Locates (p : Program) : Fault → Prop
  | decode e => e.offset = p.pc ∧ decodeAt p.method.code p.pc = .error e
  | endOfCode => p.pc = p.method.code.size
  | branchOutOfBounds offset target => ¬ (0 ≤ target ∧ target ≤ p.method.code.size) ∧
      ∃ i d, decodeAt p.method.code offset = .ok (i, p.pc) ∧ i.branchOffset? = some d ∧ d.toInt = target - p.pc
  | _ => True

theorem Fault.OfFrame.locates {e : Fault} (h : e.OfFrame) (p : Program) : e.Locates p := by
  cases e with
  | decode _ | branchOutOfBounds _ _ | endOfCode => exact absurd h id
  | _ => trivial

namespace Machine

/-- All that a step does to the program is to move its counter, and its fault is located there or a handler's own. -/
structure Truthful (rules : Rules) (m : Machine) (r : EStateM.Result Fault Machine Signal) : Prop where
  moves : m.program.Moves (left r).program
  explained : ∀ e m', r = .error e m' → e.Locates m'.program ∨ Relays rules m e

variable {rules : Rules} {m₀ m m' : Machine}

theorem truthful_error {e : Fault} (h : m.program.Moves m'.program) (he : e.Locates m'.program ∨ Relays rules m e) :
    Truthful rules m (.error e m') := by
  refine ⟨h, ?_⟩
  intro e' m'' hr
  cases hr
  exact he

theorem truthful_ok {s : Signal} (h : m.program.Moves m'.program) : Truthful rules m (.ok s m') := by
  refine ⟨h, ?_⟩
  intro e m'' hr
  cases hr

theorem truthful_settle {i : Instruction} {next : Nat}
    (hd : decodeAt m.program.method.code m.program.pc = .ok (i, next)) :
    Truthful rules m (settle (m.past next) m.program.pc (effect rules m.program.image i m.frame)) := by
  have hnext : m.program.Moves { m.program with pc := next } := Program.moves_to (le_size_of_decodeAt hd)
  cases he : effect rules m.program.image i m.frame with
  | error e f =>
    rcases effect_error hd he with hframe | hrelays
    · exact truthful_error hnext (.inl (hframe.locates _))
    · exact truthful_error hnext (.inr hrelays)
  | ok v f =>
    cases v with
    | stay | halt r => exact truthful_ok hnext
    | jump d =>
      have hoffset := (effect_eq_jump.mp ⟨f, he⟩).2
      rcases Program.branch_cases m.program.pc d (m.past next).program with ⟨⟨_, hle⟩, hb⟩ | ⟨hout, hb⟩
      · simp only [settle, hb]
        exact truthful_ok (hnext.trans (Program.moves_to (Int.toNat_le.mpr hle)))
      · simp only [settle, hb]
        refine truthful_error hnext (.inl ⟨hout, i, d, hd, hoffset, ?_⟩)
        show d.toInt = next + d.toInt - next
        omega

theorem truthful_step (rules : Rules) (h : m.program.Inside) : Truthful rules m (step rules m) := by
  by_cases hw : m.Within rules
  · rcases programFetch_cases m.program with ⟨hend, hf⟩ | ⟨e, hd, hf⟩ | ⟨i, next, hd, hf⟩
    · rw [step_of_fetch_error (fetch_of_error hw hf)]
      exact truthful_error (.refl h) (.inl (Nat.le_antisymm h hend))
    · rw [step_of_fetch_error (fetch_of_error hw hf)]
      exact truthful_error (.refl h) (.inl ⟨offset_of_decodeAt hd, hd⟩)
    · rw [step_of_fetch (fetch_of_ok hw hf)]
      exact truthful_settle hd
  · obtain ⟨limit, _, hf⟩ := fetch_of_not_within hw
    rw [step_of_fetch_error hf]
    exact truthful_error (.refl h) (.inl trivial)

theorem Reaches.moves (h₀ : m₀.program.Inside) (h : Reaches rules m₀ m) : m₀.program.Moves m.program := by
  refine h.invariant (P := fun m => m₀.program.Moves m.program) (.refl h₀) ?_
  intro m m' hm hs
  have htruth := truthful_step rules hm.1
  rw [hs] at htruth
  exact hm.trans htruth.moves

theorem truthful_run {fuel : Nat} {r : Except Fault (Option Value)} (h₀ : m₀.program.Inside)
    (h : run rules fuel m₀ = some (r, m)) : m₀.program.Moves m.program ∧
      ∀ e, r = .error e → e.Locates m.program ∨ ∃ m₁, Reaches rules m₀ m₁ ∧ Relays rules m₁ e := by
  obtain ⟨m₁, hreach, hend⟩ := exists_of_run h
  have hm₁ := hreach.moves h₀
  have htruth := truthful_step rules hm₁.1
  rcases hend with ⟨v, hs, hr⟩ | ⟨e, hs, hr⟩
  · rw [hs] at htruth
    refine ⟨hm₁.trans htruth.moves, ?_⟩
    intro e he
    rw [hr] at he
    cases he
  · rw [hs] at htruth
    refine ⟨hm₁.trans htruth.moves, ?_⟩
    intro e' he
    rw [hr] at he
    cases he
    exact (htruth.explained e m rfl).imp_right fun hrelays => ⟨m₁, hreach, hrelays⟩

end Machine

theorem Interpreter.truthful_run {interpreter after : Interpreter} {p : Program} {registry : Registry}
    {host host' : Host} {fuel : Nat} {r : Except Fault (Option Value)}
    (h : (interpreter.load p).run fuel registry host = some (r, after, host')) : ∃ q,
    after.program = some q ∧ p.reset.Moves q ∧ ∀ e, r = .error e → e.Locates q ∨ ∃ m,
      Machine.Reaches ⟨registry, interpreter.limit⟩ (interpreter.start p host) m ∧
      m.Relays ⟨registry, interpreter.limit⟩ e := by
  rw [Interpreter.run_load] at h
  obtain ⟨⟨r', m⟩, hm, hx⟩ := Option.map_eq_some_iff.mp h
  cases hx
  exact ⟨m.program, rfl, Machine.truthful_run (Nat.zero_le _) hm⟩

/-- However a program is used, its counter stays inside the code, what it refuses changes nothing, and it branches
to the sum of counter and displacement if that is inside. A run ends where its fault says, unless the handler called
last returned that fault itself. -/
theorem program_counter_truthful (method : Method) (image : Image) (uses : List Program.Use) :
    let p := (Program.ofMethod method image).after uses
    (p.method = method ∧ p.image = image ∧ p.pc ≤ method.code.size) ∧
    (∀ (use : Program.Use) e q, use.run p = .error e q → q = p) ∧
    (∀ origin d q, Program.branch origin d p = .ok () q ↔
      (0 ≤ p.target d ∧ p.target d ≤ method.code.size) ∧ q = { p with pc := (p.target d).toNat }) ∧
    (method.code.size ≤ 0x7FFFFFFF80000000 → ∀ d, (Int64.ofNat p.pc + d.toInt64).toInt = p.target d) ∧
    ∀ (interpreter : Interpreter) (registry : Registry) (host : Host),
      let rules : Rules := ⟨registry, interpreter.limit⟩
      (∀ m, Machine.Reaches rules (interpreter.start p host) m → m.program.pc ≤ method.code.size) ∧
      ∀ fuel r after host', (interpreter.load p).run fuel registry host = some (r, after, host') →
        ∃ q, after.program = some q ∧ q.method = method ∧ q.pc ≤ method.code.size ∧ ∀ e, r = .error e →
          e.Locates q ∨ ∃ m, Machine.Reaches rules (interpreter.start p host) m ∧ m.Relays rules e := by
  intro p
  have hp : (Program.ofMethod method image).Moves p := Program.moves_after (Nat.zero_le _) uses
  have hmethod : p.method = method := hp.method
  refine ⟨⟨hmethod, hp.image, hp.le_size⟩, ?_, ?_, ?_, ?_⟩
  · intro use e q hu
    exact Program.Use.eq_of_error hu
  · intro origin d q
    rw [Program.branch_eq_ok_iff, hmethod]
  · intro hsize d
    exact Program.toInt_add_eq_target (Nat.le_trans hp.le_size hsize) d
  · intro interpreter registry host rules
    rw [← hmethod]
    constructor
    · intro m hr
      exact (hr.moves (Nat.zero_le _)).le_size
    · intro fuel r after host' hrun
      obtain ⟨q, hq, hmoves, hlocated⟩ := Interpreter.truthful_run hrun
      exact ⟨q, hq, hmoves.method, hmoves.le_size, hlocated⟩

def leavingCode : Program := .ofMethod ⟨#[0x00, 0x2B, 0x05], 0, 0⟩ .empty

theorem program_counter_truthful_leaving : ∃ after host,
    ((Interpreter.ofLimit none).load leavingCode).run 2 .builtins ⟨.ofCapacity none, #[]⟩ =
      some (.error (.branchOutOfBounds 1 8), after, host) ∧
    ∃ q, after.program = some q ∧ q.pc ≤ 3 ∧ Fault.Locates q (.branchOutOfBounds 1 8) := by
  have hrun : ∃ after host, ((Interpreter.ofLimit none).load leavingCode).run 2 .builtins ⟨.ofCapacity none, #[]⟩ =
      some (.error (.branchOutOfBounds 1 8), after, host) := ⟨_, _, rfl⟩
  obtain ⟨after, host, hrun⟩ := hrun
  have h := (program_counter_truthful leavingCode.method .empty []).2.2.2.2 (.ofLimit none) .builtins
    ⟨.ofCapacity none, #[]⟩
  obtain ⟨q, hq, _, hpc, hexplained⟩ := h.2 2 _ after host hrun
  refine ⟨after, host, hrun, q, hq, hpc, ?_⟩
  rcases hexplained _ rfl with hlocated | ⟨m, _, hm⟩
  · exact hlocated
  · -- no built-in handler returns such a fault
    exact absurd (hm.ofFrame Registry.onlyBuiltins_builtins.modest) id

/-- A handler may return a fault that names another place: the run ends behind the call, not at offset 77 and not at
the end of the code. -/
theorem misplaced_of_handler : ∃ q, q.pc = 5 ∧ q.method.code.size = 6 ∧
    (∃ after host, ((Interpreter.ofLimit none).load Failing.program).run 1
      (Failing.registry (.decode (.unsupported 0xFF 77))) ⟨.ofCapacity none, #[]⟩ =
        some (.error (.decode (.unsupported 0xFF 77)), after, host) ∧ after.program = some q) ∧
    ∃ after host, ((Interpreter.ofLimit none).load Failing.program).run 1 (Failing.registry .endOfCode)
      ⟨.ofCapacity none, #[]⟩ = some (.error .endOfCode, after, host) ∧ after.program = some q := by
  refine ⟨{ Failing.program with pc := 5 }, rfl, rfl, ?_, ?_⟩
  · obtain ⟨after, hrun, hq⟩ := Failing.run_program (.decode (.unsupported 0xFF 77)) 0 ⟨.ofCapacity none, #[]⟩
    exact ⟨after, _, hrun, hq⟩
  · obtain ⟨after, hrun, hq⟩ := Failing.run_program .endOfCode 0 ⟨.ofCapacity none, #[]⟩
    exact ⟨after, _, hrun, hq⟩

end StackVm
