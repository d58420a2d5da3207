import StackVm.Proofs.Budget
import StackVm.Proofs.Composition
import StackVm.Proofs.Greeting
import StackVm.Proofs.LifeCycle

/-!
# Interpreters that share a session do not disturb each other

Interpreters of a session share the registry and the host. A console that takes
every write tells nothing back, so no handler and no instruction depends on the
host (`Oblivious`), and a run uses the handlers of the registry but never whether
it is sealed. The steps of one interpreter therefore show the same in any company.
-/

namespace StackVm

/-! ## Hosts -/

namespace Host

def Open (h : Host) : Prop := h.console.capacity = none

def grown (h : Host) (bytes : Array UInt8) (notes : Array Reply) : Host :=
  ⟨{ h.console with written := h.console.written ++ bytes }, h.notes ++ notes⟩

theorem grown_empty (h : Host) : h.grown #[] #[] = h := by
  simp [grown]

theorem grown_grown (h : Host) (bytes bytes' : Array UInt8) (notes notes' : Array Reply) :
    (h.grown bytes notes).grown bytes' notes' = h.grown (bytes ++ bytes') (notes ++ notes') := by
  simp [grown, Array.append_assoc]

theorem Open.grown {h : Host} (ho : h.Open) (bytes : Array UInt8) (notes : Array Reply) :
    (h.grown bytes notes).Open := ho

end Host

def restated {ε σ τ α : Type} (g : σ → τ) : EStateM.Result ε σ α → EStateM.Result ε τ α
  | .ok a s => .ok a (g s)
  | .error e s => .error e (g s)

/-! ## Frames -/

def Frame.facing (h : Host) (f : Frame) : Frame := { f with host := h }

/-- `x` leaves the host alone and does not look at it. -/
def Quiet (α : Type) (x : FrameM α) : Prop := ∀ f h, x (f.facing h) = restated (Frame.facing h) (x f)

theorem quiet_onStack {α : Type} (x : EStateM Fault OperandStack α) : Quiet α (Frame.onStack x) := by
  intro f h
  cases hx : x f.stack with
  | ok a stack => rw [Frame.onStack_of_ok hx, Frame.onStack_of_ok (f := f.facing h) hx]; rfl
  | error e stack => rw [Frame.onStack_of_error hx, Frame.onStack_of_error (f := f.facing h) hx]; rfl

theorem quiet_onLocals {α : Type} (x : EStateM Fault Locals α) : Quiet α (Frame.onLocals x) := by
  intro f h
  cases hx : x f.locals with
  | ok a locals => rw [Frame.onLocals_of_ok hx, Frame.onLocals_of_ok (f := f.facing h) hx]; rfl
  | error e locals => rw [Frame.onLocals_of_error hx, Frame.onLocals_of_error (f := f.facing h) hx]; rfl

theorem quiet_resolve (handle : Nat) : Quiet String (Frame.resolve handle) := by
  intro f h
  unfold Frame.resolve Frame.facing
  cases f.strings.resolve handle <;> rfl

theorem composes_of_quiet {P : (α : Type) → FrameM α → Prop}
    (quiet : ∀ {α : Type} {x : FrameM α}, Quiet α x → P α x)
    (bind : ∀ {α β : Type} {x : FrameM α} {k : α → FrameM β}, P α x → (∀ a, P β (k a)) → P β (x >>= k)) :
    Composes P where
  pure _ := quiet fun _ _ => rfl
  throw _ := quiet fun _ _ => rfl
  bind := bind
  stack _ := quiet (quiet_onStack _)
  locals _ := quiet (quiet_onLocals _)
  push _ := quiet (quiet_onStack _)
  pop := quiet (quiet_onStack _)
  pop2 := quiet (quiet_onStack _)
  setLocal _ _ := quiet (quiet_onLocals _)
  intern _ := quiet fun _ _ => rfl
  resolve handle := quiet (quiet_resolve handle)

/-- What `x` does to a frame does not depend on the host, which gets what `x` writes and notes. -/
def Oblivious (α : Type) (x : FrameM α) : Prop := ∀ f : Frame, ∃ r bytes notes, ∀ h : Host, h.Open →
  x (f.facing h) = restated (Frame.facing (h.grown bytes notes)) r

theorem oblivious_of_quiet {α : Type} {x : FrameM α} (hx : Quiet α x) : Oblivious α x := by
  intro f
  refine ⟨x f, #[], #[], ?_⟩
  intro h _
  rw [hx, h.grown_empty]

theorem oblivious_bind {α β : Type} {x : FrameM α} {k : α → FrameM β} (hx : Oblivious α x)
    (hk : ∀ a, Oblivious β (k a)) : Oblivious β (x >>= k) := by
  intro f
  obtain ⟨r, bytes, notes, hr⟩ := hx f
  cases r with
  | error e g => exact ⟨.error e g, bytes, notes, fun h ho => bind_of_error (hr h ho)⟩
  | ok a g =>
    obtain ⟨r', bytes', notes', hr'⟩ := hk a g
    refine ⟨r', bytes ++ bytes', notes ++ notes', ?_⟩
    intro h ho
    rw [bind_of_ok (hr h ho), ← h.grown_grown]
    exact hr' _ (ho.grown bytes notes)

theorem oblivious_attempt {α : Type} {x : FrameM α} (hx : Oblivious α x) : Oblivious _ (Frame.attempt x) := by
  intro f
  obtain ⟨r, bytes, notes, hr⟩ := hx f
  cases r with
  | ok a g => exact ⟨.ok (.ok a) g, bytes, notes, fun h ho => Frame.attempt_of_ok (hr h ho)⟩
  | error e g => exact ⟨.ok (.error e) g, bytes, notes, fun h ho => Frame.attempt_of_error (hr h ho)⟩

theorem closed_oblivious : Closed Oblivious where
  toComposes := composes_of_quiet oblivious_of_quiet oblivious_bind
  raise _ := oblivious_of_quiet fun _ _ => rfl
  attempt := oblivious_attempt
  print preface text := by
    intro f
    refine ⟨.ok () f, text.toUTF8.data, #[], ?_⟩
    intro h ho
    have hwrite : h.console.writeText text = _ := Console.write_of_open ho text.toUTF8.data
    have hfits : ((f.facing h).host.console.writeText text).1 = true := congrArg Prod.fst hwrite
    rw [Frame.print_of_fits hfits]
    simp [restated, Frame.printed, Frame.facing, Host.grown, hwrite]
  note r := by
    intro f
    refine ⟨.ok () f, #[], #[r], ?_⟩
    intro h _
    simp [Frame.note, restated, Frame.facing, Host.grown]

/-! ## Machines -/

namespace Machine

def facing (h : Host) (m : Machine) : Machine := { m with frame := m.frame.facing h }

theorem settle_facing (m : Machine) (h h' : Host) (offset : Nat) (r : EStateM.Result Fault Frame Move) :
    settle (m.facing h) offset (restated (Frame.facing h') r) = restated (facing h') (settle m offset r) := by
  cases r with
  | error e f => rfl
  | ok move f =>
    cases move with
    | stay | halt v => rfl
    | jump d =>
      simp only [settle, restated, facing]
      cases Program.branch offset d m.program <;> rfl

theorem fetch_facing (rules : Rules) (m : Machine) (h : Host) :
    fetch rules (m.facing h) = restated (facing h) (fetch rules m) := by
  have hprogram : (m.facing h).program = m.program := rfl
  rcases fetch_congr rules hprogram rfl with ⟨e, hf, hf', _⟩ | ⟨i, next, hf, hf'⟩
  · rw [hf, hf']
    rfl
  · rw [hf, hf']
    rfl

theorem step_oblivious (rules : Rules) (m : Machine) : ∃ r bytes notes, ∀ h : Host, h.Open →
    step rules (m.facing h) = restated (facing (h.grown bytes notes)) r := by
  rcases fetch_cases rules m with ⟨e, he⟩ | ⟨i, next, hi⟩
  · refine ⟨.error e m, #[], #[], ?_⟩
    intro h _
    have hf : fetch rules (m.facing h) = .error e (m.facing h) := by rw [fetch_facing, he]; rfl
    rw [step_of_fetch_error hf, h.grown_empty]
    rfl
  · obtain ⟨r, bytes, notes, hr⟩ := closed_oblivious.effect rules m.program.image i m.frame
    refine ⟨settle (m.past next) m.program.pc r, bytes, notes, ?_⟩
    intro h ho
    have hf : fetch rules (m.facing h) = .ok (m.program.pc, i) ((m.facing h).past next) := by
      rw [fetch_facing, hi]
      rfl
    rw [step_of_fetch hf, ← settle_facing (m.past next) h]
    exact congrArg _ (hr h ho)

theorem run_oblivious (rules : Rules) (fuel : Nat) (m : Machine) :
    ∃ (out : Option (Except Fault (Option Value) × Machine)) (bytes : Array UInt8) (notes : Array Reply),
      ∀ h : Host, h.Open →
        run rules fuel (m.facing h) = out.map fun (r, m') => (r, m'.facing (h.grown bytes notes)) := by
  induction fuel generalizing m with
  | zero => exact ⟨none, #[], #[], fun _ _ => rfl⟩
  | succ fuel ih =>
    obtain ⟨r, bytes, notes, hr⟩ := step_oblivious rules m
    cases r with
    | error e m' =>
      refine ⟨some (.error e, m'), bytes, notes, ?_⟩
      intro h ho
      exact run_of_stopped (congrArg stopped (hr h ho)) fuel
    | ok signal m' =>
      cases signal with
      | halt v =>
        refine ⟨some (.ok v, m'), bytes, notes, ?_⟩
        intro h ho
        exact run_of_stopped (congrArg stopped (hr h ho)) fuel
      | next =>
        obtain ⟨out, bytes', notes', hout⟩ := ih m'
        refine ⟨out, bytes ++ bytes', notes ++ notes', ?_⟩
        intro h ho
        rw [run_of_next (hr h ho), ← h.grown_grown]
        exact hout _ (ho.grown bytes notes)

end Machine

/-! ## Sessions -/

def Command.isStep : Command → Bool
  | .load _ _ | .loadPrimality _ _ | .loadHello _ | .reload | .run | .resolveString _ => true
  | .register _ _ | .lookup _ | .sealPlugs | .use _ => false

structure Change where
  answer : Answer
  interpreter : Interpreter
  sealing : Bool
  bytes : Array UInt8
  notes : Array Reply

namespace Session

def changed (s : Session) (x : Change) : Session :=
  { s.update x.interpreter with
    registry := if x.sealing then s.registry.toSealed else s.registry
    host := s.host.grown x.bytes x.notes }

theorem changed_quietly (s : Session) (answer : Answer) (i : Interpreter) :
    s.changed ⟨answer, i, false, #[], #[]⟩ = s.update i := by
  unfold changed
  rw [s.host.grown_empty]
  rfl

theorem plugs_changed (s : Session) (x : Change) : (s.changed x).registry.plugs = s.registry.plugs := by
  unfold changed
  cases x.sealing <;> rfl

/-- The command does the same in all sessions that have these plugs and in which `i` is current. -/
def Determined (plugs : Std.HashMap Signature Handler) (i : Interpreter) (fuel : Nat) (c : Command) : Prop :=
  ∃ out : Option Change, ∀ s : Session, s.registry.plugs = plugs → s.interpreter = i → s.host.Open →
    s.perform fuel c = out.map fun x => (x.answer, s.changed x)

section
variable {plugs : Std.HashMap Signature Handler} {i : Interpreter} {fuel : Nat} {c : Command}

theorem determined_of_load (answer : Answer) (p : Program)
    (h : ∀ s : Session, s.interpreter = i → s.perform fuel c = some (answer, s.load p)) :
    Determined plugs i fuel c := by
  refine ⟨some ⟨answer, i.load p, false, #[], #[]⟩, ?_⟩
  rintro s - rfl -
  rw [h s rfl, Option.map_some, changed_quietly]
  rfl

theorem determined_of_answer (answer : Answer)
    (h : ∀ s : Session, s.interpreter = i → s.perform fuel c = some (answer, s)) : Determined plugs i fuel c := by
  refine ⟨some ⟨answer, i, false, #[], #[]⟩, ?_⟩
  rintro s - rfl -
  rw [h s rfl, Option.map_some, changed_quietly, update_interpreter]

theorem determined_run : Determined plugs i fuel .run := by
  cases hp : i.runnable? with
  | none =>
    apply determined_of_answer (.ran (.error .noProgram))
    rintro s rfl
    exact perform_run (run_of_none hp fuel)
  | some p =>
    obtain ⟨out, bytes, notes, hrun⟩ :=
      Machine.run_oblivious ⟨⟨plugs, true⟩, i.limit⟩ fuel (i.machine p ⟨.ofCapacity none, #[]⟩)
    refine ⟨out.map fun (r, m) => ⟨.ran r, i.holding (.ending r) m, true, bytes, notes⟩, ?_⟩
    rintro s rfl rfl ho
    have hm : Machine.run s.rules fuel (s.interpreter.machine p s.host) = _ := hrun s.host ho
    unfold perform
    rw [run_of_some hp, hm]
    cases out <;> rfl

theorem determined_of_isStep (hc : c.isStep = true) : Determined plugs i fuel c := by
  cases c with
  | load m image | loadPrimality n image => exact determined_of_load .done _ fun _ _ => rfl
  | loadHello text =>
    cases hello : Sample.hello text with
    | ok p => exact determined_of_load (.loaded (.ok ())) p fun s _ => by simp only [perform, hello]
    | error e => exact determined_of_answer (.loaded (.error e)) fun s _ => by simp only [perform, hello]
  | reload =>
    cases hp : i.program with
    | some p => exact determined_of_load (.flag true) p fun s hi => by simp only [perform, hi, hp]
    | none => exact determined_of_answer (.flag false) fun s hi => by simp only [perform, hi, hp]
  | resolveString v => exact determined_of_answer (.text (i.resolveString v)) fun s hi => by simp only [perform, hi]
  | run => exact determined_run
  | register sig handler | lookup sig | sealPlugs | use n => cases hc

end

end Session

/-! ## Turns -/

structure Shown where
  answer : Answer
  interpreter : Option Interpreter
  written : Array UInt8
  notes : Array Reply

def Change.shown (x : Change) (i : Option Interpreter) : Shown :=
  ⟨x.answer, i.map fun _ => x.interpreter, x.bytes, x.notes⟩

/-- What happens among interpreters that share a registry: a step of interpreter `k`, or the registry is sealed. -/
inductive Turn where
  | step (k fuel : Nat) (c : Command) (h : c.isStep = true)
  | sealPlugs

def Turn.isOf (k : Nat) : Turn → Bool
  | step j _ _ _ => j == k
  | sealPlugs => false

namespace Session

def focus (s : Session) (k : Nat) : Session := { s with current := k }

def turn (s : Session) (k fuel : Nat) (c : Command) : Option (Shown × Session) :=
  ((s.focus k).perform fuel c).map fun (answer, s') =>
    (⟨answer, s'.interpreters[k]?, s'.host.console.written.extract s.host.console.written.size,
      s'.host.notes.extract s.host.notes.size⟩, s')

/-- What the steps show, each with the number of its interpreter; none if a run does not end within its fuel. -/
def play : List Turn → Session → Option (List (Nat × Shown) × Session)
  | [], s => some ([], s)
  | .step k fuel c _ :: turns, s =>
    match s.turn k fuel c with
    | none => none
    | some (shown, s) => (play turns s).map fun (rest, s) => ((k, shown) :: rest, s)
  | .sealPlugs :: turns, s => (s.perform 0 .sealPlugs).bind fun (_, s) => play turns s

variable {s t : Session} {k fuel : Nat} {c : Command}

theorem getElem?_changed (s : Session) (k : Nat) (x : Change) :
    ((s.focus k).changed x).interpreters[k]? = s.interpreters[k]?.map fun _ => x.interpreter := by
  cases hi : s.interpreters[k]? with
  | none =>
    have hk : s.interpreters.size ≤ k := Array.getElem?_eq_none_iff.mp hi
    simp [changed, update, focus, hk]
  | some i => exact getElem?_update_self (s := s.focus k) hi x.interpreter

theorem getElem?_changed_ne (s : Session) {j : Nat} (hj : j ≠ k) (x : Change) :
    ((s.focus j).changed x).interpreters[k]? = s.interpreters[k]? :=
  getElem?_update_ne (s := s.focus j) hj x.interpreter

theorem turn_determined (hc : c.isStep = true) (plugs : Std.HashMap Signature Handler) (i : Option Interpreter)
    (k fuel : Nat) : ∃ out : Option Change, ∀ s : Session, s.registry.plugs = plugs → s.interpreters[k]? = i →
      s.host.Open → s.turn k fuel c = out.map fun x => (x.shown i, (s.focus k).changed x) := by
  have hstep : Determined plugs (i.getD (.ofLimit none)) fuel c := determined_of_isStep hc
  obtain ⟨out, hout⟩ := hstep
  refine ⟨out, ?_⟩
  rintro s rfl rfl ho
  have hhost : ∀ x, ((s.focus k).changed x).host = s.host.grown x.bytes x.notes := fun _ => rfl
  unfold turn
  rw [hout (s.focus k) rfl (Array.getD_eq_getD_getElem? ..) ho, Option.map_map]
  congr 1
  funext x
  simp [getElem?_changed, hhost, Change.shown, Host.grown]

/-! ## Counterparts -/

structure Counterpart (k : Nat) (s t : Session) : Prop where
  interpreter : t.interpreters[k]? = s.interpreters[k]?
  plugs : t.registry.plugs = s.registry.plugs
  opened : s.host.Open
  opened' : t.host.Open

namespace Counterpart

theorem changed (h : Counterpart k s t) (x : Change) :
    Counterpart k ((s.focus k).changed x) ((t.focus k).changed x) where
  interpreter := by rw [getElem?_changed, getElem?_changed, h.interpreter]
  plugs := by rw [plugs_changed, plugs_changed]; exact h.plugs
  opened := h.opened.grown x.bytes x.notes
  opened' := h.opened'.grown x.bytes x.notes

theorem changed_other (h : Counterpart k s t) {j : Nat} (hj : j ≠ k) (x : Change) :
    Counterpart k ((s.focus j).changed x) t where
  interpreter := by rw [getElem?_changed_ne s hj, h.interpreter]
  plugs := by rw [plugs_changed]; exact h.plugs
  opened := h.opened.grown x.bytes x.notes
  opened' := h.opened'

theorem turn (h : Counterpart k s t) (hc : c.isStep = true) (fuel : Nat) : ∃ out : Option (Shown × Change),
    s.turn k fuel c = out.map (fun (shown, x) => (shown, (s.focus k).changed x)) ∧
    t.turn k fuel c = out.map (fun (shown, x) => (shown, (t.focus k).changed x)) := by
  obtain ⟨out, hout⟩ := turn_determined hc s.registry.plugs s.interpreters[k]? k fuel
  refine ⟨out.map fun x => (x.shown s.interpreters[k]?, x), ?_, ?_⟩
  · rw [hout s rfl rfl h.opened, Option.map_map]
    rfl
  · rw [hout t h.plugs h.interpreter h.opened', Option.map_map]
    rfl

theorem turn_other (h : Counterpart k s t) {j : Nat} (hj : j ≠ k) (hc : c.isStep = true) {shown : Shown} {s' : Session}
    (hs : s.turn j fuel c = some (shown, s')) : Counterpart k s' t := by
  obtain ⟨out, hout⟩ := turn_determined hc s.registry.plugs s.interpreters[j]? j fuel
  rw [hout s rfl rfl h.opened] at hs
  obtain ⟨x, _, hx⟩ := Option.map_eq_some_iff.mp hs
  cases hx
  exact h.changed_other hj x

theorem play {turns : List Turn} {shown : List (Nat × Shown)} {s' : Session} (h : Counterpart k s t)
    (hplay : s.play turns = some (shown, s')) :
    ∃ t', t.play (turns.filter (Turn.isOf k)) = some (shown.filter (·.1 == k), t') ∧ Counterpart k s' t' := by
  -- `t` takes part in the turns of interpreter `k` and waits during all others
  induction turns generalizing s t shown with
  | nil =>
    cases hplay
    exact ⟨t, rfl, h⟩
  | cons turn turns ih =>
    cases turn with
    | sealPlugs =>
      have hsealed : Counterpart k { s with registry := s.registry.toSealed } t :=
        ⟨h.interpreter, h.plugs, h.opened, h.opened'⟩
      exact ih hsealed hplay
    | step j fuel c hc =>
      cases hs : s.turn j fuel c with
      | none => simp [Session.play, hs] at hplay
      | some x =>
        obtain ⟨first, s₁⟩ := x
        simp only [Session.play, hs] at hplay
        obtain ⟨⟨rest, s₂⟩, hrest, he⟩ := Option.map_eq_some_iff.mp hplay
        cases he
        by_cases hj : j = k
        · subst hj
          obtain ⟨out, hout, hout'⟩ := h.turn hc fuel
          rw [hs] at hout
          obtain ⟨⟨_, x⟩, rfl, hx⟩ := Option.map_eq_some_iff.mp hout.symm
          cases hx
          obtain ⟨t', ht', hc'⟩ := ih (h.changed x) hrest
          refine ⟨t', ?_, hc'⟩
          simp [Turn.isOf, Session.play, hout', ht']
        · obtain ⟨t', ht', hc'⟩ := ih (h.turn_other hj hc hs) hrest
          refine ⟨t', ?_, hc'⟩
          simp [Turn.isOf, hj, ht']

end Counterpart

end Session

/-- What an interpreter shows while others take their turns and the registry is sealed, it shows as well when it is
alone, and it goes on to show the same. -/
theorem interpreters_isolated {s₀ t₀ s : Session} {k : Nat} {turns : List Turn} {shown : List (Nat × Shown)}
    (hs : s₀.host.Open) (ht : t₀.host.Open) (hi : t₀.interpreters[k]? = s₀.interpreters[k]?)
    (hp : t₀.registry.plugs = s₀.registry.plugs) (h : s₀.play turns = some (shown, s)) :
    ∃ t, t₀.play (turns.filter (Turn.isOf k)) = some (shown.filter (·.1 == k), t) ∧
      t.interpreters[k]? = s.interpreters[k]? ∧
      ∀ (fuel : Nat) (c : Command), c.isStep = true →
        (t.turn k fuel c).map Prod.fst = (s.turn k fuel c).map Prod.fst := by
  have hstart : Session.Counterpart k s₀ t₀ := ⟨hi, hp, hs, ht⟩
  obtain ⟨t, hplay, hend⟩ := hstart.play h
  refine ⟨t, hplay, hend.interpreter, ?_⟩
  intro fuel c hc
  obtain ⟨out, hout, hout'⟩ := hend.turn hc fuel
  rw [hout, hout', Option.map_map, Option.map_map]
  rfl

/-- Interpreter 1 loads its greeting later than interpreter 0 and writes it earlier. -/
def twoGreetings : List Turn :=
  [.step 0 0 (.loadHello "a") rfl, .step 1 0 (.loadHello "b") rfl, .step 1 3 .run rfl, .step 0 3 .run rfl, .sealPlugs]

theorem Session.turn_loadHello (s : Session) {text : String} {p : Program} (hp : Sample.hello text = .ok p)
    (k fuel : Nat) : ∃ shown, s.turn k fuel (.loadHello text) = some (shown, (s.focus k).load p) ∧
      shown.written = #[] := by
  simp only [turn, perform, hp, Option.map_some]
  exact ⟨_, rfl, Array.extract_eq_empty_of_le (Nat.min_le_right _ _)⟩

theorem Session.turn_greeting {s : Session} {k : Nat} {p : Program} {text : String} {token : UInt16} {method : UInt32}
    (hp : Sample.Greets p text token method) (ho : s.host.Open) (hplugs : s.registry.plugs = Registry.builtins.plugs)
    (hi : s.interpreters[k]? = some ((Interpreter.ofLimit none).load p)) :
    ∃ shown s', s.turn k 3 .run = some (shown, s') ∧ shown.written = lineBytes text := by
  have hinterpreter : (s.focus k).interpreter = _ := interpreter_of_getElem? hi
  have hrules : (s.focus k).rules = ⟨s.registry.toSealed, none⟩ := by
    unfold rules
    rw [hinterpreter]
    rfl
  have hlookup : (s.focus k).rules.registry.lookup? Builtin.writeLineString.signature =
      some (.builtin .writeLineString) := by
    rw [hrules, Registry.lookup?, show s.registry.toSealed.plugs = _ from hplugs]
    exact Registry.lookup?_builtins .writeLineString
  have hlimit : ∀ limit, (s.focus k).rules.limit = some limit → 3 ≤ limit := by
    intro limit h
    rw [hrules] at h
    cases h
  obtain ⟨m, hm, _, _, _, hwritten⟩ :=
    Machine.run_greeting (i := .ofLimit none) hp StringTable.consistent_empty (Console.accepts_of_open ho _) hlookup
      hlimit (Nat.le_refl 3)
  have hrunnable : (s.focus k).interpreter.runnable? = some p.reset := by
    rw [hinterpreter]
    rfl
  have hrun : (s.focus k).run 3 = some (.ok none, (s.focus k).holding .halted m) := by
    rw [run_of_some hrunnable, hinterpreter]
    exact congrArg (Option.map _) hm
  refine ⟨_, _, by rw [turn, perform_run hrun, Option.map_some], ?_⟩
  show m.frame.host.console.written.extract s.host.console.written.size = lineBytes text
  simp [hwritten]

/-- Both write to one console, and each writes what it would write alone. -/
theorem interpreters_isolated_two : ∃ shown s t,
    (Session.start .builtins none none 2).play twoGreetings = some (shown, s) ∧
    shown.map (fun x => (x.1, x.2.written)) = [(0, #[]), (1, #[]), (1, lineBytes "b"), (0, lineBytes "a")] ∧
    (Session.start .builtins none none 1).play (twoGreetings.filter (Turn.isOf 0)) = some (shown.filter (·.1 == 0), t) ∧
    t.interpreters[0]? = s.interpreters[0]? := by
  let s₀ := Session.start .builtins none none 2
  have hunits : (units "a").length ≤ 63 ∧ (units "b").length ≤ 63 := by decide
  obtain ⟨p, _, _, hp, hgreets⟩ := Sample.hello_of_le hunits.1
  obtain ⟨q, _, _, hq, hgreets'⟩ := Sample.hello_of_le hunits.2
  let s₁ := (s₀.focus 0).load p
  let s₂ := (s₁.focus 1).load q
  obtain ⟨a, ha, haw⟩ : ∃ a, s₀.turn 0 0 (.loadHello "a") = some (a, s₁) ∧ _ := s₀.turn_loadHello hp 0 0
  obtain ⟨b, hb, hbw⟩ : ∃ b, s₁.turn 1 0 (.loadHello "b") = some (b, s₂) ∧ _ := s₁.turn_loadHello hq 1 0
  obtain ⟨x, s₃, hx, hxw⟩ := Session.turn_greeting (s := s₂) (k := 1) hgreets' rfl rfl rfl
  have hsame : Session.Counterpart 0 s₂ s₂ := ⟨rfl, rfl, rfl, rfl⟩
  have hspared := hsame.turn_other Nat.one_ne_zero rfl hx
  obtain ⟨y, s₄, hy, hyw⟩ :=
    Session.turn_greeting (s := s₃) (k := 0) hgreets hspared.opened hspared.plugs.symm hspared.interpreter.symm
  have hplay : s₀.play twoGreetings =
      some ([(0, a), (1, b), (1, x), (0, y)], { s₄ with registry := s₄.registry.toSealed }) := by
    simp only [twoGreetings, Session.play, ha, hb, hx, hy]
    rfl
  have hopen : ∀ n, (Session.start .builtins none none n).host.Open := fun _ => rfl
  obtain ⟨t, ht, hlast, _⟩ := interpreters_isolated (k := 0) (hopen 2) (hopen 1) rfl rfl hplay
  refine ⟨_, _, t, hplay, ?_, ht, hlast⟩
  simp [haw, hbw, hxw, hyw]

end StackVm
