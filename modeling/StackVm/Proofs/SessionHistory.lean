import StackVm.Proofs.SessionInvariant

/-!
# Histories of a session

A moment of a session lies between two commands, or between two instructions of
a run. As long as only built-in handlers are registered, every value that an
interpreter holds at any moment is well formed, the handle of a text means that
text at all later moments, and a program that was run once does the same
whenever it is loaded again.
-/

namespace StackVm

/-- A session between two commands, or a session in whose run the machine `m` is about to fetch. -/
inductive Moment where
  | idle (s : Session)
  | running (s : Session) (m : Machine)

namespace Moment

/-- The session as it stands; during a run its current interpreter is as the machine has it. -/
def session : Moment → Session
  | idle s => s
  | running s m => s.holding .ready m

inductive Follows : Moment → Moment → Prop
  | command {s s' : Session} {fuel : Nat} {c : Command} {answer : Answer} : c.OnlyBuiltins →
      s.perform fuel c = some (answer, s') → Follows (.idle s) (.idle s')
  | start {s : Session} {p : Program} : s.interpreter.runnable? = some p →
      Follows (.idle s) (.running s (s.interpreter.machine p s.host))
  | step {s : Session} {m m' : Machine} : Machine.step s.rules m = .ok .next m' →
      Follows (.running s m) (.running s m')
  | finish {s s' : Session} {m : Machine} {fuel : Nat} {r : Except Fault (Option Value)} :
      s.run fuel = some (r, s') → Follows (.running s m) (.idle s')

inductive Reaches (a : Moment) : Moment → Prop
  | refl : Reaches a a
  | step {b c : Moment} : Reaches a b → Follows b c → Reaches a c

theorem follows_load (s : Session) (p : Program) : Follows (.idle s) (.idle (s.load p)) :=
  @Follows.command s _ 0 (.load p.method p.image) .done trivial rfl

theorem follows_run {s s' : Session} {fuel : Nat} {r : Except Fault (Option Value)} (h : s.run fuel = some (r, s')) :
    Follows (.idle s) (.idle s') := by
  apply @Follows.command s s' fuel .run (.ran r) trivial
  unfold Session.perform
  rw [h]
  rfl

def Orderly : Moment → Prop
  | idle s => s.Orderly
  | running s m => s.Orderly ∧ s.Running m

variable {a b : Moment}

theorem Orderly.wellFormed (h : a.Orderly) {k : Nat} {i : Interpreter} (hi : a.session.interpreters[k]? = some i) :
    i.WellFormed := by
  cases a with
  | idle s => exact (Session.Orderly.interpreters h k i hi).1
  | running s m =>
    obtain ⟨hs, hm⟩ := h
    rcases Session.getElem?_update_cases hi with ⟨_, rfl⟩ | hi
    · obtain ⟨hk, hn⟩ := hs.kept hm
      exact Interpreter.wellFormed_holding _ hk.wellFormed hn
    · exact (hs.interpreters k i hi).1

theorem Orderly.follows (h : a.Orderly) (hf : Follows a b) : b.Orderly ∧ a.session.Continues b.session := by
  cases hf with
  | command hc hp => exact Session.Orderly.perform h hc hp
  | @start s p hp => exact ⟨⟨h, p, hp, .refl⟩, s.continues_start p⟩
  | @step s m m' hs =>
    obtain ⟨h, p, hp, hm⟩ := h
    have hr : s.rules.registry.OnlyBuiltins := h.registry
    have hk := Machine.kept_step hr (h.kept ⟨p, hp, hm⟩).1.wellFormed
    rw [hs] at hk
    exact ⟨⟨h, p, hp, hm.step hs⟩, Session.continues_holding hp hk _ _⟩
  | finish hr => exact ⟨h.1.run hr, h.1.continues_run h.2 hr⟩

theorem Orderly.reaches (h : a.Orderly) (hr : Reaches a b) : b.Orderly ∧ a.session.Continues b.session := by
  induction hr with
  | refl => exact ⟨h, .refl _⟩
  | step _ hf ih =>
    obtain ⟨ho, hc⟩ := ih.1.follows hf
    exact ⟨ho, ih.2.trans hc⟩

end Moment

/-! ## Fresh sessions -/

structure Session.Fresh (s : Session) : Prop where
  registry : s.registry.OnlyBuiltins
  interpreters : ∀ (k : Nat) (i : Interpreter), s.interpreters[k]? = some i → ∃ limit, i = .ofLimit limit

theorem Session.Fresh.orderly {s : Session} (h : s.Fresh) : s.Orderly := by
  refine ⟨h.registry, ?_⟩
  intro k i hi
  obtain ⟨limit, rfl⟩ := h.interpreters k i hi
  exact ⟨Interpreter.wellFormed_ofLimit limit, Interpreter.loaded_of_phase_ne nofun⟩

theorem Session.fresh_start {registry : Registry} (h : registry.OnlyBuiltins) (capacity limit : Option Nat) (n : Nat) :
    (Session.start registry capacity limit n).Fresh := by
  refine ⟨h, ?_⟩
  intro k i hi
  obtain ⟨_, rfl⟩ : k < n ∧ Interpreter.ofLimit limit = i := by
    simpa [start, Array.getElem?_replicate] using hi
  exact ⟨limit, rfl⟩

/-! ## Values -/

/-- At every moment all values that an interpreter holds are well formed, and each handle means one text
from then on; a run never fails over a handle, and what it gives back is well formed. -/
theorem values_wellFormed {s₀ : Session} (h₀ : s₀.Fresh) {a : Moment} (ha : Moment.Reaches (.idle s₀) a) :
    (∀ (k : Nat) (i : Interpreter), a.session.interpreters[k]? = some i →
      (∀ n, n < i.stack.depth →
        ∃ v, i.stack.slots[n]? = some v ∧ v.WellFormed i.localCount i.strings.size) ∧
      (∀ n, n < i.localCount →
        ∃ v, i.locals.slots[n]? = some v ∧ v.WellFormed i.localCount i.strings.size) ∧
      ∀ handle, handle < i.strings.size → ∃ text, ∀ b, Moment.Reaches a b →
        ∃ i', b.session.interpreters[k]? = some i' ∧ i'.resolveString (.string handle) = some text) ∧
    ∀ s fuel r s', a = .idle s → s.run fuel = some (r, s') →
      (∀ handle, r ≠ .error (.invalidHandle handle)) ∧
      ∀ v, r = .ok (some v) →
        v.WellFormed s'.interpreter.localCount s'.interpreter.strings.size ∧
        (v.kind = .string → (s'.interpreter.resolveString v).isSome) := by
  have horderly : a.Orderly := (Moment.Orderly.reaches (a := .idle s₀) h₀.orderly ha).1
  refine ⟨?_, ?_⟩
  · intro k i hi
    have hw := horderly.wellFormed hi a.session.host
    refine ⟨hw.stack, ?_, ?_⟩
    · intro n hn
      have hn : n < i.locals.slots.size := Nat.lt_of_lt_of_eq hn hw.size.symm
      exact ⟨_, Array.getElem?_eq_getElem hn, hw.locals n _ (Array.getElem?_eq_getElem hn)⟩
    · -- texts are only ever added behind those that are there
      intro handle hlt
      obtain ⟨text, htext⟩ := StringTable.get?_of_lt hlt
      refine ⟨text, fun b hb => ?_⟩
      obtain ⟨i', hi', hc⟩ := (horderly.reaches hb).2.interpreters k i hi
      exact ⟨i', hi', hc.strings.get? htext⟩
  · rintro s fuel r s' rfl hrun
    obtain ⟨hne, hv⟩ := Session.Orderly.result horderly hrun
    refine ⟨hne, fun v hr => ⟨hv v hr, ?_⟩⟩
    intro hkind
    cases v with
    | string handle =>
      obtain ⟨text, htext⟩ := StringTable.get?_of_lt (hv _ hr)
      exact Option.isSome_of_eq_some htext
    | _ => cases hkind

def quotation : Program := .ofMethod ⟨#[0x72, 1, 0, 0, 0x70, 0x2A], 1, 0⟩ ⟨#[0, 3, 0x61, 0, 0], #[1], #[], #[]⟩

theorem loadString_quotation (f : Frame) : Machine.loadString quotation.image 1 f = Frame.pushString "a" f := by
  have htext : quotation.image.userString 1 = .ok "a" := by
    unfold Image.userString
    rw [Image.occursIn]
    rfl
  unfold Machine.loadString
  rw [htext]

theorem run_quotation : ∃ m, ((Session.start .builtins none none 1).load quotation).run 2 =
    some (.ok (some (.string 0)), ((Session.start .builtins none none 1).load quotation).holding .halted m) := by
  have hfirst : (StringTable.empty.intern "a").1 = 0 := by
    rw [StringTable.intern_of_new StringTable.consistent_empty nofun]
    rfl
  have heffect : ∀ rules host, Machine.effect rules quotation.image (.ldstr 1)
      ⟨.ofCapacity 1, .ofSize 0, .empty, host⟩ = .ok .stay _ := fun rules host =>
    bind_of_ok ((loadString_quotation _).trans (Frame.pushString_of_lt "a" Nat.zero_lt_one))
  have hfetch : ∀ registry host, Machine.fetch ⟨registry, none⟩ ((Interpreter.ofLimit none).start quotation host) =
      .ok (0, .ldstr 1) (((Interpreter.ofLimit none).start quotation host).past 5) := fun _ _ => rfl
  have hrun : ∀ registry host, ∃ m, Machine.run ⟨registry, none⟩ 2 ((Interpreter.ofLimit none).start quotation host) =
      some (.ok (some (.string 0)), m) := by
    intro registry host
    have hstep := (Machine.step_of_fetch (hfetch registry host)).trans (congrArg _ (heffect ⟨registry, none⟩ host))
    unfold Machine.run
    rw [hstep, ← hfirst]
    exact ⟨_, rfl⟩
  obtain ⟨m, hm⟩ := hrun Registry.builtins.toSealed ⟨.ofCapacity none, #[]⟩
  refine ⟨m, ?_⟩
  rw [Session.run_load rfl]
  exact Option.map_eq_some_iff.mpr ⟨_, hm, rfl⟩

theorem values_wellFormed_quotation : ∃ s,
    ((Session.start .builtins none none 1).load quotation).run 2 = some (.ok (some (.string 0)), s) ∧
      (Value.string 0).WellFormed s.interpreter.localCount s.interpreter.strings.size ∧
      (s.interpreter.resolveString (.string 0)).isSome := by
  obtain ⟨m, hm⟩ := run_quotation
  have hload := Moment.Reaches.refl.step (Moment.follows_load (.start .builtins none none 1) quotation)
  have h := values_wellFormed (Session.fresh_start Registry.onlyBuiltins_builtins none none 1) hload
  obtain ⟨hwf, hsome⟩ := (h.2 _ 2 _ _ rfl hm).2 _ rfl
  exact ⟨_, hm, hwf, hsome rfl⟩

/-! ## Repetition -/

namespace Interpreter

/-- What waits to be run is run from its start. -/
theorem machine_eq_start {i : Interpreter} {p : Program} (hl : i.Loaded) (hp : i.runnable? = some p) (host : Host) :
    i.machine p host = i.start p host := by
  have hload := hl p hp
  have hreset : p.reset = p := by
    have hprogram := (program_of_runnable? hp).2
    rw [hload] at hprogram
    exact Option.some.inj hprogram
  unfold start
  rw [hreset, ← hload]

theorem echo_start {i i' : Interpreter} {p q : Program} (hq : q.reset = p.reset) (hs : i.strings.Extends i'.strings)
    {host host' : Host} (hc : host.console.capacity = none) (hc' : host'.console.capacity = none) :
    Machine.Echo i'.strings host.console.written host'.console.written (i.start p host) (i'.start q host') := by
  obtain ⟨hmethod, _⟩ := Program.reset_eq_reset.mp hq
  refine ⟨hq, rfl, ?_, ?_, rfl, hs, #[], ?_, ?_⟩
  · simp [start, machine, load, hmethod]
  · simp [start, machine, load, hmethod]
  · exact ⟨hc, Array.append_empty.symm⟩
  · exact ⟨hc', Array.append_empty.symm⟩

theorem holding_of_echo {i i' : Interpreter} {t : StringTable} {w w' : Array UInt8} {m m' : Machine}
    (h : Machine.Echo t w w' m m') (hl : i'.limit = i.limit) (phase : Phase) :
    i'.holding phase m' = { i.holding phase m with strings := t } := by
  simp only [holding, hl, h.program, h.executed, h.frame.stack, h.frame.locals, h.frame.strings]

end Interpreter

/-- A program that was run does the same on the same interpreter at any later time. It is loaded afresh or
as the first run left it, and whatever happened in between, the texts it needs are still interned. -/
theorem run_repeats {s₀ s₁ s₂ s₃ : Session} (h₀ : s₀.Fresh) (hcap : s₀.host.console.capacity = none)
    (h₁ : Moment.Reaches (.idle s₀) (.idle s₁)) {p : Program} (hp : s₁.interpreter.runnable? = some p) {fuel : Nat}
    {r : Except Fault (Option Value)} (hrun : s₁.run fuel = some (r, s₂)) (h₃ : Moment.Reaches (.idle s₂) (.idle s₃))
    (hcur : s₃.current = s₁.current) :
    (∃ q, s₂.interpreter.program = some q ∧ q.method = p.method ∧ q.image = p.image) ∧
    ∀ q : Program, q.method = p.method → q.image = p.image →
      ∃ s₄, (s₃.load q).run fuel = some (r, s₄) ∧
        s₄.interpreter = { s₂.interpreter with strings := s₃.interpreter.strings } ∧
        ∃ out, s₂.host.console.written = s₁.host.console.written ++ out ∧
          s₄.host.console.written = s₃.host.console.written ++ out := by
  obtain ⟨ho₁, hc₁⟩ : s₁.Orderly ∧ s₀.Continues s₁ := Moment.Orderly.reaches (a := .idle s₀) h₀.orderly h₁
  obtain ⟨ho₃, hc₃⟩ : s₃.Orderly ∧ s₂.Continues s₃ := Moment.Orderly.reaches (a := .idle s₂) (ho₁.run hrun) h₃
  have hi₁ := Session.getElem?_of_runnable? hp
  rcases Session.run_cases hrun with ⟨hnone, _⟩ | ⟨p', m, hp', hm, rfl⟩
  · rw [hnone] at hp
    cases hp
  cases hp.symm.trans hp'
  obtain ⟨hk, hmethod, himage, _⟩ := ho₁.ended ⟨p, hp, .refl⟩ hp hm
  have hi₂ := Session.interpreter_holding hp (.ending r) m
  obtain ⟨i₃, hi₃, hc⟩ := hc₃.interpreters _ _ (Session.getElem?_update_self hi₁ _)
  rw [← hcur] at hi₃
  obtain rfl := Session.interpreter_of_getElem? hi₃
  rw [hi₂]
  refine ⟨⟨m.program, rfl, hmethod, himage⟩, fun q hqm hqi => ?_⟩
  have hrules : s₃.rules = s₁.rules := by
    unfold Session.rules
    rw [hc₃.registry rfl, hc.limit]
    rfl
  have hcap₁ : s₁.host.console.capacity = none := hc₁.capacity.trans hcap
  have hcap₃ : s₃.host.console.capacity = none := hc₃.capacity.trans (hk.capacity.trans hcap₁)
  -- the texts of the first run are a beginning of those that are interned by now
  have hwithin : m.frame.strings.Extends s₃.interpreter.strings := hc.strings
  have hecho := Interpreter.echo_start (Program.reset_eq_reset.mpr ⟨hqm, hqi⟩) (hk.strings.trans hwithin) hcap₁ hcap₃
  have hstart : (s₁.interpreter.machine p s₁.host).frame.WellFormed s₁.interpreter.localCount :=
    ho₁.interpreter.1 s₁.host
  rw [Interpreter.machine_eq_start ho₁.interpreter.2 hp] at hm hstart
  have hr : s₁.rules.registry.OnlyBuiltins := ho₁.registry
  obtain ⟨m', hm', he⟩ := Machine.echo_run hr (ho₃.interpreter.1 s₃.host).strings hstart hm hwithin hecho
  refine ⟨(s₃.load q).holding (.ending r) m', ?_, ?_, ?_⟩
  · rw [Session.run_load hi₃, hrules, hm']
    rfl
  · rw [Session.interpreter_holding (Session.runnable?_load hi₃ q), Session.interpreter_load hi₃]
    exact Interpreter.holding_of_echo he hc.limit _
  · obtain ⟨out, hout, hout'⟩ := he.frame.console
    exact ⟨out, hout.2, hout'.2⟩

theorem run_repeats_quotation : ∃ s₂ s₃,
    ((Session.start .builtins none none 1).load quotation).run 2 = some (.ok (some (.string 0)), s₂) ∧
    (s₂.load (.ofMethod ⟨#[], 0, 0⟩ .empty)).run 1 = some (.error .endOfCode, s₃) ∧
    ∃ s₄, (s₃.load quotation).run 2 = some (.ok (some (.string 0)), s₄) ∧
      s₄.interpreter.strings = s₃.interpreter.strings := by
  obtain ⟨m, hm⟩ := run_quotation
  -- another program, which has no code, comes in between
  have hother : ∃ s₃, ((((Session.start .builtins none none 1).load quotation).holding .halted m).load
      (.ofMethod ⟨#[], 0, 0⟩ .empty)).run 1 = some (.error .endOfCode, s₃) ∧ s₃.current = 0 := by
    rw [Session.run_load rfl]
    exact ⟨_, rfl, rfl⟩
  obtain ⟨s₃, hs₃, hcur⟩ := hother
  refine ⟨_, s₃, hm, hs₃, ?_⟩
  have hload := Moment.Reaches.refl.step (Moment.follows_load (.start .builtins none none 1) quotation)
  have hbetween := (Moment.Reaches.refl.step (Moment.follows_load _ _)).step (Moment.follows_run hs₃)
  have h := run_repeats (Session.fresh_start Registry.onlyBuiltins_builtins none none 1) rfl hload rfl hm hbetween hcur
  obtain ⟨s₄, h₄, hi, _⟩ := h.2 quotation rfl rfl
  refine ⟨s₄, h₄, ?_⟩
  rw [hi]

end StackVm
