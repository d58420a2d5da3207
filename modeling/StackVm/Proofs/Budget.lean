import StackVm.Proofs.Effect

/-!
# The instruction budget

`after` gives the machines that a run has between its instructions, and `Ends`
tells where it ends. A limit cuts this sequence and changes nothing else: below
it both runs take the same steps (`after_limited`), and a machine that has
executed as many instructions as it may does not fetch another.
-/

namespace StackVm

namespace Machine

/-- The machine after `n` instructions of the run from `m₀`; none if the run ends before. -/
def after (rules : Rules) (m₀ : Machine) : Nat → Option Machine
  | 0 => some m₀
  | n + 1 =>
    match after rules m₀ n with
    | none => none
    | some m =>
      match step rules m with
      | .ok .next m' => some m'
      | _ => none

def stopped : EStateM.Result Fault Machine Signal → Option (Except Fault (Option Value) × Machine)
  | .ok .next _ => none
  | .ok (.halt v) m => some (.ok v, m)
  | .error e m => some (.error e, m)

end Machine

/-- Where a run ends: in the course of its `k`-th instruction, or over the fetch that comes after `k` of them. -/
inductive Ending where
  | during (k : Nat)
  | fetching (k : Nat)

def Ending.Within (limit : Nat) : Ending → Prop
  | during k => k ≤ limit
  | fetching k => k < limit

theorem Ending.Within.mono {limit n : Nat} {e : Ending} (h : e.Within limit) (hn : limit ≤ n) : e.Within n := by
  cases e with
  | during k => exact Nat.le_trans h hn
  | fetching k => exact Nat.lt_of_lt_of_le h hn

namespace Machine

inductive Ends (rules : Rules) (m₀ : Machine) : Ending → Except Fault (Option Value) → Machine → Prop
  | during {k offset : Nat} {i : Instruction} {m m₁ m' : Machine} {r : Except Fault (Option Value)} :
      after rules m₀ k = some m → fetch rules m = .ok (offset, i) m₁ →
      stopped (execute rules offset i m₁) = some (r, m') → Ends rules m₀ (.during (k + 1)) r m'
  | fetching {k : Nat} {m m' : Machine} {e : Fault} :
      after rules m₀ k = some m → fetch rules m = .error e m' → Ends rules m₀ (.fetching k) (.error e) m'

section
variable {rules : Rules} {m₀ m m' : Machine}

theorem after_succ {n : Nat} (h : after rules m₀ (n + 1) = some m') :
    ∃ m, after rules m₀ n = some m ∧ step rules m = .ok .next m' := by
  simp only [after] at h
  split at h
  · cases h
  · next m hm =>
    split at h
    · next hs =>
      cases h
      exact ⟨m, hm, hs⟩
    · cases h

theorem after_of_step {n : Nat} (h : after rules m₀ n = some m) (hs : step rules m = .ok .next m') :
    after rules m₀ (n + 1) = some m' := by
  simp only [after, h, hs]

theorem stopped_cases (r : EStateM.Result Fault Machine Signal) : (∃ m, r = .ok .next m) ∨ ∃ x, stopped r = some x := by
  cases r with
  | error e m => exact .inr ⟨_, rfl⟩
  | ok s m =>
    cases s with
    | next => exact .inl ⟨m, rfl⟩
    | halt v => exact .inr ⟨_, rfl⟩

theorem left_of_stopped {s : EStateM.Result Fault Machine Signal} {r : Except Fault (Option Value)}
    (h : stopped s = some (r, m)) : left s = m := by
  cases s with
  | error e m' =>
    cases h
    rfl
  | ok a m' =>
    cases a with
    | next => cases h
    | halt v =>
      cases h
      rfl

/-! ## Endings -/

theorem ends_of_stopped {n : Nat} {r : Except Fault (Option Value)} (hm : after rules m₀ n = some m)
    (h : stopped (step rules m) = some (r, m')) : ∃ e, Ends rules m₀ e r m' ∧ ∀ limit, e.Within limit ↔ n < limit := by
  unfold step at h
  cases hf : fetch rules m with
  | error e m₁ =>
    rw [bind_of_error hf] at h
    cases h
    exact ⟨.fetching n, .fetching hm hf, fun _ => Iff.rfl⟩
  | ok x m₁ =>
    rw [bind_of_ok hf] at h
    exact ⟨.during (n + 1), .during hm hf h, fun _ => Nat.succ_le_iff⟩

theorem Ends.exists_stopped {e : Ending} {r : Except Fault (Option Value)} (h : Ends rules m₀ e r m') :
    ∃ n m, after rules m₀ n = some m ∧ stopped (step rules m) = some (r, m') ∧ ∀ limit, e.Within limit ↔ n < limit := by
  unfold step
  cases h with
  | @during k offset i m _ _ _ hm hf hs =>
    refine ⟨k, m, hm, ?_, fun _ => Nat.succ_le_iff⟩
    rw [bind_of_ok hf]
    exact hs
  | @fetching k m _ _ hm hf =>
    refine ⟨k, m, hm, ?_, fun _ => Iff.rfl⟩
    rw [bind_of_error hf]
    rfl

theorem after_or_stopped (rules : Rules) (m₀ : Machine) (n : Nat) : (∃ m, after rules m₀ n = some m) ∨
    ∃ k m x, k < n ∧ after rules m₀ k = some m ∧ stopped (step rules m) = some x := by
  induction n with
  | zero => exact .inl ⟨m₀, rfl⟩
  | succ n ih =>
    rcases ih with ⟨m, hm⟩ | ⟨k, m, x, hk, hm, hs⟩
    · rcases stopped_cases (step rules m) with ⟨m', hs⟩ | ⟨x, hs⟩
      · exact .inl ⟨m', after_of_step hm hs⟩
      · exact .inr ⟨n, m, x, Nat.lt_succ_self n, hm, hs⟩
    · exact .inr ⟨k, m, x, Nat.lt_succ_of_lt hk, hm, hs⟩

/-! ## Runs -/

theorem run_of_next (hs : step rules m = .ok .next m') (fuel : Nat) : run rules (fuel + 1) m = run rules fuel m' := by
  simp only [run, hs]

theorem run_of_stopped {x : Except Fault (Option Value) × Machine} (hs : stopped (step rules m) = some x) (fuel : Nat) :
    run rules (fuel + 1) m = some x := by
  unfold run
  cases h : step rules m with
  | error e m' =>
    rw [h] at hs
    exact hs
  | ok s m' =>
    rw [h] at hs
    cases s with
    | next => cases hs
    | halt v => exact hs

theorem run_of_after {n : Nat} (h : after rules m₀ n = some m) (fuel : Nat) :
    run rules (n + fuel) m₀ = run rules fuel m := by
  induction n generalizing m fuel with
  | zero =>
    cases h
    rw [Nat.zero_add]
  | succ n ih =>
    obtain ⟨m₁, h₁, hs⟩ := after_succ h
    rw [show n + 1 + fuel = n + (fuel + 1) by omega, ih h₁, run_of_next hs]

theorem run_of_after_stopped {n fuel : Nat} {x : Except Fault (Option Value) × Machine} (h : after rules m₀ n = some m)
    (hs : stopped (step rules m) = some x) (hn : n < fuel) : run rules fuel m₀ = some x := by
  obtain ⟨k, rfl⟩ : ∃ k, fuel = n + (k + 1) := ⟨fuel - n - 1, by omega⟩
  rw [run_of_after h, run_of_stopped hs]

theorem exists_after_of_reaches (h : Reaches rules m₀ m) : ∃ n, after rules m₀ n = some m := by
  induction h with
  | refl => exact ⟨0, rfl⟩
  | step _ hs ih =>
    obtain ⟨n, hn⟩ := ih
    exact ⟨n + 1, after_of_step hn hs⟩

theorem reaches_of_after {n : Nat} (h : after rules m₀ n = some m) : Reaches rules m₀ m := by
  induction n generalizing m with
  | zero =>
    cases h
    exact .refl
  | succ n ih =>
    obtain ⟨m₁, h₁, hs⟩ := after_succ h
    exact .step (ih h₁) hs

theorem exists_stopped_of_run {fuel : Nat} {r : Except Fault (Option Value)} (h : run rules fuel m₀ = some (r, m')) :
    ∃ n m, after rules m₀ n = some m ∧ stopped (step rules m) = some (r, m') := by
  obtain ⟨m, hm, hend⟩ := exists_of_run h
  obtain ⟨n, hn⟩ := exists_after_of_reaches hm
  refine ⟨n, m, hn, ?_⟩
  rcases hend with ⟨v, hs, rfl⟩ | ⟨e, hs, rfl⟩
  · rw [hs]; rfl
  · rw [hs]; rfl

theorem exists_run_iff {r : Except Fault (Option Value)} :
    (∃ fuel, run rules fuel m₀ = some (r, m')) ↔ ∃ e, Ends rules m₀ e r m' := by
  constructor
  · rintro ⟨fuel, h⟩
    obtain ⟨n, m, hm, hs⟩ := exists_stopped_of_run h
    obtain ⟨e, he, _⟩ := ends_of_stopped hm hs
    exact ⟨e, he⟩
  · rintro ⟨e, he⟩
    obtain ⟨n, m, hm, hs, _⟩ := he.exists_stopped
    exact ⟨n + 1, run_of_after_stopped hm hs (Nat.lt_succ_self n)⟩

theorem run_unique {fuel fuel' : Nat} {x y : Except Fault (Option Value) × Machine} (hx : run rules fuel m₀ = some x)
    (hy : run rules fuel' m₀ = some y) : x = y := by
  induction fuel generalizing fuel' m₀ with
  | zero => cases hx
  | succ fuel ih =>
    cases fuel' with
    | zero => cases hy
    | succ fuel' =>
      rcases stopped_cases (step rules m₀) with ⟨m₁, hs⟩ | ⟨z, hs⟩
      · rw [run_of_next hs] at hx hy
        exact ih hx hy
      · rw [run_of_stopped hs] at hx hy
        cases hx
        cases hy
        rfl

/-! ## Counting -/

theorem executed_settle (m : Machine) (offset : Nat) (r : EStateM.Result Fault Frame Move) :
    (left (settle m offset r)).executed = m.executed := by
  cases r with
  | error e f => rfl
  | ok v f =>
    cases v with
    | stay | halt v => rfl
    | jump d =>
      simp only [settle]
      cases Program.branch offset d m.program <;> rfl

theorem executed_left_step (rules : Rules) (m : Machine) : (left (step rules m)).executed ≤ m.executed + 1 ∧
    ∀ m', step rules m = .ok .next m' → m'.executed = m.executed + 1 := by
  rcases step_cases rules m with ⟨e, _, hs⟩ | ⟨i, next, _, hs⟩
  · rw [hs]
    exact ⟨Nat.le_succ _, by simp⟩
  · have hx := executed_settle (m.past next) m.program.pc (effect rules m.program.image i m.frame)
    rw [← hs] at hx
    refine ⟨Nat.le_of_eq hx, ?_⟩
    intro m' hn
    rw [hn] at hx
    exact hx

theorem executed_after {n : Nat} (h : after rules m₀ n = some m) : m.executed = m₀.executed + n := by
  induction n generalizing m with
  | zero =>
    cases h
    rfl
  | succ n ih =>
    obtain ⟨m₁, h₁, hs⟩ := after_succ h
    rw [(executed_left_step rules m₁).2 m hs, ih h₁, Nat.add_assoc]

end

/-! ## Limits -/

section
variable {registry : Registry} {limit : Nat} {m₀ m : Machine}

theorem step_of_within (h : m.executed < limit) : step ⟨registry, some limit⟩ m = step ⟨registry, none⟩ m := by
  have hexecute : ∀ offset i, execute ⟨registry, some limit⟩ offset i = execute ⟨registry, none⟩ offset i := by
    intro offset i
    cases i <;> rfl
  have hw : m.Within ⟨registry, some limit⟩ := by
    intro l hl
    cases hl
    exact h
  have hfetch : fetch ⟨registry, some limit⟩ m = fetch ⟨registry, none⟩ m := by
    unfold fetch
    rw [bind_of_ok (checkLimit_of_within hw)]
    rfl
  unfold step
  cases hf : fetch ⟨registry, none⟩ m with
  | error e m' => rw [bind_of_error hf, bind_of_error (hfetch.trans hf)]
  | ok x m' =>
    rw [bind_of_ok hf, bind_of_ok (hfetch.trans hf)]
    exact congrFun (hexecute x.1 x.2) m'

theorem step_of_spent (h : limit ≤ m.executed) : step ⟨registry, some limit⟩ m = .error (.limitExceeded limit) m := by
  have hw : ¬ m.Within ⟨registry, some limit⟩ := fun hw => Nat.not_lt.mpr h (hw limit rfl)
  obtain ⟨l, hl, hf⟩ := fetch_of_not_within hw
  cases hl
  exact step_of_fetch_error hf

section
variable (h₀ : m₀.executed = 0)
include h₀

theorem after_limited {n : Nat} (hn : n ≤ limit) :
    after ⟨registry, some limit⟩ m₀ n = after ⟨registry, none⟩ m₀ n := by
  induction n with
  | zero => rfl
  | succ n ih =>
    simp only [after]
    rw [ih (Nat.le_of_succ_le hn)]
    cases hm : after ⟨registry, none⟩ m₀ n with
    | none => rfl
    | some m =>
      have hx := executed_after hm
      rw [h₀, Nat.zero_add] at hx
      have hs : step ⟨registry, some limit⟩ m = step ⟨registry, none⟩ m := step_of_within (by omega)
      simp only [hs]

theorem run_of_ends_within {e : Ending} {r : Except Fault (Option Value)} (he : Ends ⟨registry, none⟩ m₀ e r m)
    (hw : e.Within limit) {fuel : Nat} (hf : limit < fuel) : run ⟨registry, some limit⟩ fuel m₀ = some (r, m) := by
  obtain ⟨n, m₁, hm₁, hs, hlimit⟩ := he.exists_stopped
  have hn : n < limit := (hlimit limit).mp hw
  have hx := executed_after hm₁
  rw [h₀, Nat.zero_add] at hx
  rw [← after_limited h₀ (Nat.le_of_lt hn)] at hm₁
  rw [← step_of_within (show m₁.executed < limit by omega)] at hs
  exact run_of_after_stopped hm₁ hs (by omega)

theorem run_of_not_ends_within (hne : ∀ e r m, Ends ⟨registry, none⟩ m₀ e r m → ¬ e.Within limit) :
    ∃ m, after ⟨registry, none⟩ m₀ limit = some m ∧ m.executed = limit ∧
      ∀ fuel, limit < fuel → run ⟨registry, some limit⟩ fuel m₀ = some (.error (.limitExceeded limit), m) := by
  rcases after_or_stopped ⟨registry, none⟩ m₀ limit with ⟨m, hm⟩ | ⟨k, m, x, hk, hm, hs⟩
  · have hx := executed_after hm
    rw [h₀, Nat.zero_add] at hx
    refine ⟨m, hm, hx, ?_⟩
    intro fuel hf
    rw [← after_limited h₀ (Nat.le_refl limit)] at hm
    apply run_of_after_stopped hm _ hf
    rw [step_of_spent (Nat.le_of_eq hx.symm)]
    rfl
  · obtain ⟨e, he, hlimit⟩ := ends_of_stopped hm hs
    exact absurd ((hlimit limit).mpr hk) (hne e _ _ he)

/-- A run with a limit ends by itself in time, or because the limit is spent. -/
theorem run_limited_cases {fuel : Nat} {r : Except Fault (Option Value)}
    (h : run ⟨registry, some limit⟩ fuel m₀ = some (r, m)) :
    (∃ e, Ends ⟨registry, none⟩ m₀ e r m ∧ e.Within limit) ∨
      (r = .error (.limitExceeded limit) ∧ m.executed = limit) := by
  by_cases hends : ∃ e r m, Ends ⟨registry, none⟩ m₀ e r m ∧ e.Within limit
  · obtain ⟨e, r', m', he, hw⟩ := hends
    cases run_unique h (run_of_ends_within h₀ he hw (Nat.lt_succ_self limit))
    exact .inl ⟨e, he, hw⟩
  · have hne : ∀ e r m, Ends ⟨registry, none⟩ m₀ e r m → ¬ e.Within limit := by
      intro e r m he hw
      exact hends ⟨e, r, m, he, hw⟩
    obtain ⟨m', _, hx, hrun⟩ := run_of_not_ends_within h₀ hne
    cases run_unique h (hrun _ (Nat.lt_succ_self limit))
    exact .inr ⟨rfl, hx⟩

theorem executed_le_of_run {fuel : Nat} {r : Except Fault (Option Value)}
    (h : run ⟨registry, some limit⟩ fuel m₀ = some (r, m)) : m.executed ≤ limit := by
  rcases run_limited_cases h₀ h with ⟨e, he, hw⟩ | ⟨_, hx⟩
  · obtain ⟨n, m₁, hm₁, hs, hlimit⟩ := he.exists_stopped
    have hn := (hlimit limit).mp hw
    have hx := executed_after hm₁
    have hle := (executed_left_step ⟨registry, none⟩ m₁).1
    rw [left_of_stopped hs] at hle
    omega
  · exact Nat.le_of_eq hx

theorem run_of_larger {fuel : Nat} {r : Except Fault (Option Value)}
    (h : run ⟨registry, some limit⟩ fuel m₀ = some (r, m)) (hr : r ≠ .error (.limitExceeded limit))
    {larger : Option Nat} (hl : ∀ n, larger = some n → limit ≤ n) :
    ∃ fuel', run ⟨registry, larger⟩ fuel' m₀ = some (r, m) := by
  rcases run_limited_cases h₀ h with ⟨e, he, hw⟩ | ⟨hspent, _⟩
  · cases larger with
    | none => exact exists_run_iff.mpr ⟨e, he⟩
    | some n =>
      have hn : e.Within n := hw.mono (hl n rfl)
      exact ⟨n + 1, run_of_ends_within h₀ he hn (Nat.lt_succ_self n)⟩
  · exact absurd hspent hr

end

end

end Machine

/-- A run with a limit is the run without one, cut off before the first fetch beyond the limit. It gives the
same if that run ends by itself in time; else it stops with the machine that run has after `limit` instructions. -/
theorem budget_truncates (i : Interpreter) (p : Program) (registry : Registry) (host : Host) (limit : Nat) :
    let loaded (budget : Option Nat) : Interpreter := Interpreter.load p { i with limit := budget }
    let m₀ := i.start p host
    let free : Rules := ⟨registry, none⟩
    (∀ r after host', (∃ fuel, (loaded none).run fuel registry host = some (r, after, host')) ↔
      ∃ e m, Machine.Ends free m₀ e r m ∧ after = (loaded none).finish r m ∧ host' = m.frame.host) ∧
    (∀ e r m, Machine.Ends free m₀ e r m → e.Within limit → ∀ fuel, limit < fuel →
      (loaded (some limit)).run fuel registry host =
        some (r, { (loaded none).finish r m with limit := some limit }, m.frame.host)) ∧
    ((∀ e r m, Machine.Ends free m₀ e r m → ¬ e.Within limit) →
      ∃ m, Machine.after free m₀ limit = some m ∧ m.executed = limit ∧ ∀ fuel, limit < fuel →
        (loaded (some limit)).run fuel registry host =
          some (.error (.limitExceeded limit), (loaded (some limit)).finish (.error (.limitExceeded limit)) m,
            m.frame.host)) ∧
    ∀ fuel r after host', (loaded (some limit)).run fuel registry host = some (r, after, host') →
      after.executed ≤ limit ∧
      (r ≠ .error (.limitExceeded limit) → ∀ larger, (∀ n, larger = some n → limit ≤ n) →
        ∃ fuel', (loaded larger).run fuel' registry host = some (r, { after with limit := larger }, host')) := by
  intro loaded m₀ free
  have h₀ : m₀.executed = 0 := rfl
  have hrun : ∀ budget fuel, (loaded budget).run fuel registry host =
      (Machine.run ⟨registry, budget⟩ fuel m₀).map fun x => (x.1, (loaded budget).finish x.1 x.2, x.2.frame.host) :=
    fun budget fuel => Interpreter.run_load { i with limit := budget } p fuel registry host
  refine ⟨?_, ?_, ?_, ?_⟩
  · intro r after host'
    constructor
    · rintro ⟨fuel, h⟩
      rw [hrun] at h
      obtain ⟨⟨r', m⟩, hm, hx⟩ := Option.map_eq_some_iff.mp h
      cases hx
      obtain ⟨e, he⟩ := Machine.exists_run_iff.mp ⟨fuel, hm⟩
      exact ⟨e, m, he, rfl, rfl⟩
    · rintro ⟨e, m, he, rfl, rfl⟩
      obtain ⟨fuel, hm⟩ := Machine.exists_run_iff.mpr ⟨e, he⟩
      refine ⟨fuel, ?_⟩
      rw [hrun, hm]
      rfl
  · intro e r m he hw fuel hf
    rw [hrun, Machine.run_of_ends_within h₀ he hw hf]
    rfl
  · intro hne
    obtain ⟨m, hm, hx, h⟩ := Machine.run_of_not_ends_within h₀ hne
    refine ⟨m, hm, hx, ?_⟩
    intro fuel hf
    rw [hrun, h fuel hf]
    rfl
  · intro fuel r after host' h
    rw [hrun] at h
    obtain ⟨⟨r', m⟩, hm, hx⟩ := Option.map_eq_some_iff.mp h
    cases hx
    refine ⟨Machine.executed_le_of_run h₀ hm, ?_⟩
    intro hr larger hl
    obtain ⟨fuel', hm'⟩ := Machine.run_of_larger h₀ hm hr hl
    refine ⟨fuel', ?_⟩
    rw [hrun, hm']
    rfl

theorem budget_truncates_boundary :
    (∃ after host, (Interpreter.load (.ofMethod ⟨#[0x00, 0x2A], 0, 0⟩ .empty) (.ofLimit (some 2))).run 3 .empty
      ⟨.ofCapacity none, #[]⟩ = some (.ok none, after, host)) ∧
    ∃ after host, (Interpreter.load (.ofMethod ⟨#[0x00], 0, 0⟩ .empty) (.ofLimit (some 1))).run 2 .empty
      ⟨.ofCapacity none, #[]⟩ = some (.error (.limitExceeded 1), after, host) := by
  constructor
  · -- `ret` is the second instruction, which the limit still allows
    have h := (budget_truncates (.ofLimit none) (.ofMethod ⟨#[0x00, 0x2A], 0, 0⟩ .empty) .empty
      ⟨.ofCapacity none, #[]⟩ 2).2.1
    exact ⟨_, _, h (.during 2) (.ok none) _ (.during (k := 1) rfl rfl rfl) (Nat.le_refl 2) 3 (Nat.lt_succ_self 2)⟩
  · -- without a limit the second fetch finds the end of the code
    have h := (budget_truncates (.ofLimit none) (.ofMethod ⟨#[0x00], 0, 0⟩ .empty) .empty
      ⟨.ofCapacity none, #[]⟩ 1).2.2.1
    have hne : ∀ e r m, Machine.Ends ⟨.empty, none⟩
        ((Interpreter.ofLimit none).start (.ofMethod ⟨#[0x00], 0, 0⟩ .empty) ⟨.ofCapacity none, #[]⟩) e r m →
        ¬ e.Within 1 := by
      intro e r m he hw
      obtain ⟨n, m₁, hm₁, hs, hlimit⟩ := he.exists_stopped
      obtain rfl : n = 0 := Nat.lt_one_iff.mp ((hlimit 1).mp hw)
      cases hm₁
      cases hs
    obtain ⟨m, _, _, hrun⟩ := h hne
    exact ⟨_, _, hrun 2 (Nat.lt_succ_self 1)⟩

end StackVm
