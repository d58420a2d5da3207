import StackVm.Session
import StackVm.Proofs.SoundRuns

/-!
# Sessions under built-in plugs

An orderly session registers only built-in handlers, all its interpreters are
well formed and what waits to be run is as it was loaded. Every command keeps a
session orderly, and some things for good (`Continues`): a sealed registry, what
the console takes, each interpreter's limit and the texts it has interned.
-/

namespace StackVm

/-! ## Interpreters -/

theorem Program.reset_eq_reset {p q : Program} : p.reset = q.reset ↔ p.method = q.method ∧ p.image = q.image := by
  simp [reset]

namespace Interpreter

def localCount (i : Interpreter) : Nat := i.program.elim 0 fun p => p.method.localCount.toNat

def frame (i : Interpreter) (host : Host) : Frame := ⟨i.stack, i.locals, i.strings, host⟩

def WellFormed (i : Interpreter) : Prop := ∀ host, (i.frame host).WellFormed i.localCount

/-- A program that waits to be run is as it was loaded. -/
def Loaded (i : Interpreter) : Prop := ∀ p, i.runnable? = some p → i = i.load p

def holding (i : Interpreter) (phase : Phase) (m : Machine) : Interpreter :=
  ⟨i.limit, phase, some m.program, m.frame.stack, m.frame.locals, m.frame.strings, m.executed⟩

variable {i : Interpreter}

theorem program_of_runnable? {p : Program} (h : i.runnable? = some p) : i.phase = .ready ∧ i.program = some p := by
  unfold runnable? at h
  by_cases hp : i.phase = .ready
  · rw [if_pos hp] at h
    exact ⟨hp, h⟩
  · rw [if_neg hp] at h
    cases h

theorem localCount_of_method {p q : Program} (h : i.runnable? = some p) (hq : q.method = p.method) :
    q.method.localCount.toNat = i.localCount := by
  unfold localCount
  rw [(program_of_runnable? h).2, hq]
  rfl

theorem wellFormed_load (h : i.strings.Consistent) (p : Program) : (i.load p).WellFormed := by
  intro host
  refine ⟨Array.size_replicate, ?_, ?_, h⟩
  · intro k hk
    exact absurd hk (Nat.not_lt_zero k)
  · intro k v hv
    obtain ⟨_, rfl⟩ : k < p.method.localCount.toNat ∧ Value.zero = v := by
      simpa [frame, load, Locals.ofSize, Array.getElem?_replicate] using hv
    trivial

theorem wellFormed_ofLimit (limit : Option Nat) : (ofLimit limit).WellFormed := by
  intro host
  refine ⟨rfl, ?_, ?_, StringTable.consistent_empty⟩
  · intro k hk
    exact absurd hk (Nat.not_lt_zero k)
  · intro k v hv
    simp [frame, ofLimit, Locals.ofSize] at hv

theorem loaded_load (i : Interpreter) (p : Program) : (i.load p).Loaded := by
  intro q hq
  cases hq
  rfl

theorem loaded_of_phase_ne (h : i.phase ≠ .ready) : i.Loaded := by
  intro p hp
  exact absurd (program_of_runnable? hp).1 h

theorem wellFormed_holding (phase : Phase) {m : Machine} {n : Nat} (hm : m.frame.WellFormed n)
    (hn : m.program.method.localCount.toNat = n) : (i.holding phase m).WellFormed := by
  intro host
  subst hn
  exact hm.withHost host

structure Continues (i i' : Interpreter) : Prop where
  limit : i'.limit = i.limit
  strings : i.strings.Extends i'.strings

theorem Continues.refl (i : Interpreter) : i.Continues i := ⟨rfl, .refl _⟩

theorem Continues.trans {i' i'' : Interpreter} (h : i.Continues i') (h' : i'.Continues i'') : i.Continues i'' :=
  ⟨h'.limit.trans h.limit, h.strings.trans h'.strings⟩

end Interpreter

theorem Registry.OnlyBuiltins.register {r r' : Registry} (hr : r.OnlyBuiltins) {s : Signature} {b : Builtin}
    (h : r.register s (.builtin b) = .ok () r') : r'.OnlyBuiltins := by
  unfold Registry.register at h
  split at h
  · cases h
  · split at h
    · cases h
    · cases h
      exact hr.insert s b

theorem Registry.register_of_isSealed {r : Registry} (h : r.isSealed = true) (s : Signature) (handler : Handler) :
    r.register s handler = .error (.afterSeal s) r := if_pos h

/-- A refused registration leaves the registry as it was. -/
theorem Registry.eq_of_register_error {r r' : Registry} {s : Signature} {handler : Handler} {e : RegistryError}
    (h : r.register s handler = .error e r') : r' = r := by
  unfold Registry.register at h
  split at h
  · cases h
    rfl
  · split at h
    · cases h
      rfl
    · cases h

theorem Registry.toSealed_of_isSealed {r : Registry} (h : r.isSealed = true) : r.toSealed = r := by
  obtain ⟨plugs, isSealed⟩ := r
  cases h
  rfl

/-! ## Sessions -/

def Phase.ending : Except Fault (Option Value) → Phase
  | .ok _ => .halted
  | .error _ => .faulted

namespace Session

def rules (s : Session) : Rules := ⟨s.registry.toSealed, s.interpreter.limit⟩

def holding (s : Session) (phase : Phase) (m : Machine) : Session :=
  { s.update (s.interpreter.holding phase m) with registry := s.registry.toSealed, host := m.frame.host }

structure Orderly (s : Session) : Prop where
  registry : s.registry.OnlyBuiltins
  interpreters : ∀ (k : Nat) (i : Interpreter), s.interpreters[k]? = some i → i.WellFormed ∧ i.Loaded

structure Continues (s s' : Session) : Prop where
  registry : s.registry.isSealed = true → s'.registry = s.registry
  capacity : s'.host.console.capacity = s.host.console.capacity
  interpreters : ∀ (k : Nat) (i : Interpreter), s.interpreters[k]? = some i →
    ∃ i', s'.interpreters[k]? = some i' ∧ i.Continues i'

variable {s : Session}

theorem Continues.refl (s : Session) : s.Continues s := ⟨fun _ => rfl, rfl, fun _ i h => ⟨i, h, .refl i⟩⟩

theorem Continues.trans {s' s'' : Session} (h : s.Continues s') (h' : s'.Continues s'') : s.Continues s'' := by
  refine ⟨?_, h'.capacity.trans h.capacity, ?_⟩
  · intro hs
    have hr := h.registry hs
    rw [← hr] at hs
    exact (h'.registry hs).trans hr
  · intro k i hi
    obtain ⟨i', hi', hc⟩ := h.interpreters k i hi
    obtain ⟨i'', hi'', hc'⟩ := h'.interpreters k i' hi'
    exact ⟨i'', hi'', hc.trans hc'⟩

/-! ### The current interpreter -/

theorem interpreter_of_getElem? {i : Interpreter} (h : s.interpreters[s.current]? = some i) : s.interpreter = i := by
  unfold interpreter
  rw [Array.getD_eq_getD_getElem?, h]
  rfl

/-- Beyond the last interpreter there are empty ones without a limit. -/
theorem interpreter_cases (s : Session) :
    s.interpreters[s.current]? = some s.interpreter ∨ s.interpreter = .ofLimit none := by
  cases h : s.interpreters[s.current]? with
  | some i =>
    rw [interpreter_of_getElem? h]
    exact .inl rfl
  | none =>
    right
    unfold interpreter
    rw [Array.getD_eq_getD_getElem?, h]
    rfl

theorem getElem?_of_runnable? {p : Program} (h : s.interpreter.runnable? = some p) :
    s.interpreters[s.current]? = some s.interpreter := by
  rcases interpreter_cases s with hi | hi
  · exact hi
  · rw [hi] at h
    cases h

theorem getElem?_update_self {i : Interpreter} (h : s.interpreters[s.current]? = some i) (i' : Interpreter) :
    (s.update i').interpreters[s.current]? = some i' :=
  Array.getElem?_setIfInBounds_self_of_lt (Array.getElem?_eq_some_iff.mp h).1

theorem getElem?_update_cases {i j : Interpreter} {k : Nat} (h : (s.update i).interpreters[k]? = some j) :
    (k = s.current ∧ j = i) ∨ s.interpreters[k]? = some j := by
  simp only [update, Array.getElem?_setIfInBounds] at h
  split at h
  · next hk =>
    split at h
    · cases h
      exact .inl ⟨hk.symm, rfl⟩
    · cases h
  · exact .inr h

theorem interpreter_update {i : Interpreter} (h : s.interpreters[s.current]? = some i) (i' : Interpreter) :
    (s.update i').interpreter = i' := interpreter_of_getElem? (getElem?_update_self h i')

theorem update_update (s : Session) (i i' : Interpreter) : (s.update i).update i' = s.update i' := by
  simp [update]

theorem update_interpreter (s : Session) : s.update s.interpreter = s := by
  unfold update
  congr 1
  apply Array.ext_getElem?
  intro k
  by_cases hk : s.current = k
  · subst hk
    cases h : s.interpreters[s.current]? with
    | none => simpa using h
    | some i =>
      rw [interpreter_of_getElem? h]
      exact getElem?_update_self h i
  · rw [Array.getElem?_setIfInBounds_ne hk]

theorem Orderly.interpreter (h : s.Orderly) : s.interpreter.WellFormed ∧ s.interpreter.Loaded := by
  rcases interpreter_cases s with hi | hi
  · exact h.interpreters _ _ hi
  · rw [hi]
    exact ⟨Interpreter.wellFormed_ofLimit none, Interpreter.loaded_of_phase_ne nofun⟩

theorem Orderly.update (h : s.Orderly) {i : Interpreter} (hi : i.WellFormed ∧ i.Loaded) : (s.update i).Orderly := by
  refine ⟨h.registry, ?_⟩
  intro k j hj
  rcases getElem?_update_cases hj with ⟨_, rfl⟩ | hj
  · exact hi
  · exact h.interpreters k j hj

theorem continues_update {i : Interpreter} (h : s.interpreter.Continues i) : s.Continues (s.update i) := by
  refine ⟨fun _ => rfl, rfl, ?_⟩
  intro k j hj
  by_cases hk : k = s.current
  · subst hk
    rw [interpreter_of_getElem? hj] at h
    exact ⟨i, getElem?_update_self hj i, h⟩
  · refine ⟨j, ?_, .refl j⟩
    simp only [update]
    rw [Array.getElem?_setIfInBounds_ne (Ne.symm hk)]
    exact hj

theorem Orderly.load (h : s.Orderly) (p : Program) : (s.load p).Orderly := by
  apply h.update
  exact ⟨Interpreter.wellFormed_load (h.interpreter.1 s.host).strings p, Interpreter.loaded_load _ p⟩

theorem continues_load (s : Session) (p : Program) : s.Continues (s.load p) := by
  apply continues_update
  exact ⟨rfl, .refl _⟩

/-! ### Runs -/

theorem interpreter_holding {p : Program} (hp : s.interpreter.runnable? = some p) (phase : Phase) (m : Machine) :
    (s.holding phase m).interpreter = s.interpreter.holding phase m :=
  interpreter_update (getElem?_of_runnable? hp) _

theorem run_of_none (h : s.interpreter.runnable? = none) (fuel : Nat) : s.run fuel = some (.error .noProgram, s) := by
  unfold run Interpreter.run
  simp [h, update_interpreter]

theorem run_of_some {p : Program} (h : s.interpreter.runnable? = some p) (fuel : Nat) :
    s.run fuel = (Machine.run s.rules fuel (s.interpreter.machine p s.host)).map fun (r, m) =>
      (r, s.holding (.ending r) m) := by
  have hm : s.interpreter.run fuel s.registry.toSealed s.host =
      (Machine.run s.rules fuel (s.interpreter.machine p s.host)).map fun (r, m) =>
        (r, s.interpreter.finish r m, m.frame.host) := Interpreter.run_of_some h fuel _ _
  unfold run
  simp only [h, Option.isSome_some, if_true, hm]
  cases Machine.run s.rules fuel (s.interpreter.machine p s.host) with
  | none => rfl
  | some x =>
    obtain ⟨r, m⟩ := x
    cases r <;> rfl

section
variable {i : Interpreter} (hi : s.interpreters[s.current]? = some i) (q : Program)
include hi

theorem interpreter_load : (s.load q).interpreter = i.load q := by
  rw [← interpreter_of_getElem? hi]
  exact interpreter_update hi _

theorem runnable?_load : (s.load q).interpreter.runnable? = some q.reset := by
  rw [interpreter_load hi]
  rfl

theorem run_load (fuel : Nat) : (s.load q).run fuel =
    (Machine.run s.rules fuel (i.start q s.host)).map fun (r, m) => (r, (s.load q).holding (.ending r) m) := by
  have hrules : (s.load q).rules = s.rules := by
    unfold rules
    rw [interpreter_load hi, interpreter_of_getElem? hi]
    rfl
  rw [run_of_some (runnable?_load hi q), hrules, interpreter_load hi]
  rfl

end

theorem run_cases {fuel : Nat} {r : Except Fault (Option Value)} {s' : Session} (h : s.run fuel = some (r, s')) :
    (s.interpreter.runnable? = none ∧ r = .error .noProgram ∧ s' = s) ∨
    ∃ p m, s.interpreter.runnable? = some p ∧
      Machine.run s.rules fuel (s.interpreter.machine p s.host) = some (r, m) ∧ s' = s.holding (.ending r) m := by
  cases hp : s.interpreter.runnable? with
  | none =>
    rw [run_of_none hp] at h
    cases h
    exact .inl ⟨rfl, rfl, rfl⟩
  | some p =>
    rw [run_of_some hp] at h
    obtain ⟨⟨r', m⟩, hm, he⟩ := Option.map_eq_some_iff.mp h
    cases he
    exact .inr ⟨p, m, rfl, hm, rfl⟩

theorem continues_start (s : Session) (p : Program) :
    s.Continues (s.holding .ready (s.interpreter.machine p s.host)) := by
  refine ⟨Registry.toSealed_of_isSealed, rfl, ?_⟩
  apply (continues_update _).interpreters
  exact ⟨rfl, .refl _⟩

theorem continues_holding {p : Program} (hp : s.interpreter.runnable? = some p) {n : Nat} {m m' : Machine}
    (h : Kept n m.frame m'.frame) (phase phase' : Phase) : (s.holding phase m).Continues (s.holding phase' m') := by
  have hi : (s.holding phase m).interpreter.Continues (s.interpreter.holding phase' m') := by
    rw [interpreter_holding hp]
    exact ⟨rfl, h.strings⟩
  have hu := continues_update (s := s.update _) hi
  rw [update_update] at hu
  exact ⟨fun _ => rfl, h.capacity, hu.interpreters⟩

/-- `m` is a machine on the way of the run that the session is about to make. -/
def Running (s : Session) (m : Machine) : Prop :=
  ∃ p, s.interpreter.runnable? = some p ∧ Machine.Reaches s.rules (s.interpreter.machine p s.host) m

theorem Orderly.kept {m : Machine} (hs : s.Orderly) (hm : s.Running m) :
    Kept s.interpreter.localCount (s.interpreter.frame s.host) m.frame ∧
      m.program.method.localCount.toNat = s.interpreter.localCount := by
  obtain ⟨p, hp, hm⟩ := hm
  have hr : s.rules.registry.OnlyBuiltins := hs.registry
  have hmethod := (Program.reset_eq_reset.mp (Machine.reset_reaches hm)).1
  exact ⟨Machine.kept_reaches hr (hs.interpreter.1 s.host) hm, Interpreter.localCount_of_method hp hmethod⟩

/-- What the end of the run keeps of a machine on its way, and of the values that are given back. -/
theorem Orderly.ended {m m' : Machine} {p : Program} {fuel : Nat} {r : Except Fault (Option Value)} (hs : s.Orderly)
    (hm : s.Running m) (hp : s.interpreter.runnable? = some p)
    (h : Machine.run s.rules fuel (s.interpreter.machine p s.host) = some (r, m')) :
    Kept s.interpreter.localCount m.frame m'.frame ∧ m'.program.method = p.method ∧ m'.program.image = p.image ∧
      (∀ v, r = .ok (some v) → v.WellFormed s.interpreter.localCount m'.frame.strings.size) ∧
      ∀ handle, r ≠ .error (.invalidHandle handle) := by
  have hr : s.rules.registry.OnlyBuiltins := hs.registry
  have hkept := (hs.kept hm).1
  obtain ⟨q, hq, hm⟩ := hm
  cases hp.symm.trans hq
  obtain ⟨fuel', h⟩ := Machine.run_of_reaches hm h
  obtain ⟨hk, hreset, hv, hne⟩ := Machine.of_run hr hkept.wellFormed h
  obtain ⟨hmethod, himage⟩ := Program.reset_eq_reset.mp (hreset.trans (Machine.reset_reaches hm))
  exact ⟨hk, hmethod, himage, hv, hne⟩

theorem Orderly.run {fuel : Nat} {r : Except Fault (Option Value)} {s' : Session} (hs : s.Orderly)
    (h : s.run fuel = some (r, s')) : s'.Orderly := by
  rcases run_cases h with ⟨_, _, rfl⟩ | ⟨p, m, hp, hm, rfl⟩
  · exact hs
  · obtain ⟨hk, hmethod, _⟩ := hs.ended ⟨p, hp, .refl⟩ hp hm
    have hw : (s.interpreter.holding (.ending r) m).WellFormed :=
      Interpreter.wellFormed_holding _ hk.wellFormed (Interpreter.localCount_of_method hp hmethod)
    have hl : (s.interpreter.holding (.ending r) m).Loaded := by
      apply Interpreter.loaded_of_phase_ne
      cases r <;> nofun
    exact ⟨hs.registry, (hs.update ⟨hw, hl⟩).interpreters⟩

/-- A run never fails over a handle, and the value it gives back is well formed. -/
theorem Orderly.result {fuel : Nat} {r : Except Fault (Option Value)} {s' : Session} (hs : s.Orderly)
    (h : s.run fuel = some (r, s')) : (∀ handle, r ≠ .error (.invalidHandle handle)) ∧
      ∀ v, r = .ok (some v) → v.WellFormed s'.interpreter.localCount s'.interpreter.strings.size := by
  rcases run_cases h with ⟨_, rfl, _⟩ | ⟨p, m, hp, hm, rfl⟩
  · exact ⟨nofun, nofun⟩
  · obtain ⟨_, hmethod, _, hv, hne⟩ := hs.ended ⟨p, hp, .refl⟩ hp hm
    refine ⟨hne, fun v hr => ?_⟩
    have hv := hv v hr
    rw [← Interpreter.localCount_of_method hp hmethod] at hv
    rw [interpreter_holding hp]
    exact hv

theorem Orderly.continues_run {fuel : Nat} {m : Machine} {r : Except Fault (Option Value)} {s' : Session}
    (hs : s.Orderly) (hm : s.Running m) (h : s.run fuel = some (r, s')) : (s.holding .ready m).Continues s' := by
  obtain ⟨p, hp, hreach⟩ := hm
  rcases run_cases h with ⟨hnone, _, _⟩ | ⟨q, m', hq, hm', rfl⟩
  · rw [hnone] at hp
    cases hp
  · obtain ⟨hk, _⟩ := hs.ended ⟨p, hp, hreach⟩ hq hm'
    exact continues_holding hp hk _ _

end Session

/-! ## Commands -/

def Command.OnlyBuiltins : Command → Prop
  | .register _ h => ∃ b, h = .builtin b
  | _ => True

namespace Session

variable {s s' : Session}

theorem perform_cases {fuel : Nat} {c : Command} {answer : Answer} (h : s.perform fuel c = some (answer, s')) :
    s' = s ∨ (∃ p, s' = s.load p) ∨ (∃ r, s.run fuel = some (r, s')) ∨
    (∃ sig handler registry, c = .register sig handler ∧ s.registry.register sig handler = .ok () registry ∧
      s' = { s with registry }) ∨
    s' = { s with registry := s.registry.toSealed } ∨ ∃ n, s' = { s with current := n } := by
  cases c with
  | load m image | loadPrimality n image =>
    cases h
    exact .inr (.inl ⟨_, rfl⟩)
  | loadHello text =>
    simp only [perform] at h
    split at h
    · cases h
      exact .inr (.inl ⟨_, rfl⟩)
    · cases h
      exact .inl rfl
  | reload =>
    simp only [perform] at h
    split at h
    · cases h
      exact .inr (.inl ⟨_, rfl⟩)
    · cases h
      exact .inl rfl
  | run =>
    obtain ⟨⟨r, s''⟩, hr, he⟩ := Option.map_eq_some_iff.mp h
    cases he
    exact .inr (.inr (.inl ⟨r, hr⟩))
  | resolveString v | lookup sig =>
    cases h
    exact .inl rfl
  | register sig handler =>
    simp only [perform] at h
    split at h
    · next registry hr =>
      cases h
      exact .inr (.inr (.inr (.inl ⟨sig, handler, registry, rfl, hr, rfl⟩)))
    · next e registry hr =>
      cases h
      rw [Registry.eq_of_register_error hr]
      exact .inl rfl
  | sealPlugs =>
    cases h
    exact .inr (.inr (.inr (.inr (.inl rfl))))
  | use n =>
    cases h
    exact .inr (.inr (.inr (.inr (.inr ⟨n, rfl⟩))))

theorem Orderly.perform {fuel : Nat} {c : Command} {answer : Answer} (hs : s.Orderly) (hc : c.OnlyBuiltins)
    (h : s.perform fuel c = some (answer, s')) : s'.Orderly ∧ s.Continues s' := by
  rcases perform_cases h with rfl | ⟨p, rfl⟩ | ⟨r, hr⟩ | ⟨sig, handler, registry, rfl, hr, rfl⟩ | rfl | ⟨n, rfl⟩
  · exact ⟨hs, .refl _⟩
  · exact ⟨hs.load p, continues_load s p⟩
  · refine ⟨hs.run hr, ?_⟩
    cases hp : s.interpreter.runnable? with
    | none =>
      rw [run_of_none hp] at hr
      cases hr
      exact .refl _
    | some p => exact (continues_start s p).trans (hs.continues_run ⟨p, hp, .refl⟩ hr)
  · obtain ⟨b, rfl⟩ := hc
    refine ⟨⟨hs.registry.register hr, hs.interpreters⟩, ?_, rfl, fun _ i hi => ⟨i, hi, .refl i⟩⟩
    -- a sealed registry would have refused
    intro hsealed
    rw [Registry.register_of_isSealed hsealed] at hr
    cases hr
  · exact ⟨⟨hs.registry, hs.interpreters⟩, Registry.toSealed_of_isSealed, rfl,
      fun _ i hi => ⟨i, hi, .refl i⟩⟩
  · exact ⟨⟨hs.registry, hs.interpreters⟩, fun _ => rfl, rfl, fun _ i hi => ⟨i, hi, .refl i⟩⟩

end Session

end StackVm
