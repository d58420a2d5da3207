import StackVm.Proofs.RelayedFaults
import StackVm.Proofs.SessionInvariant

/-!
# The life cycle of an interpreter

A history lists what has happened in a session, each event with the session
that it found. Commands happen as a whole. A run may also begin and end apart,
so that other interpreters act while it lasts; how it went is left open then.
After whole commands no interpreter is running, and one is ready if and only if
it has not been run since a program was last loaded.
-/

namespace StackVm

inductive Event where
  | command (c : Command) (answer : Answer)
  | began
  | ended (r : Except Fault (Option Value))

namespace Event

def loads : Event → Bool
  | command (.load _ _) _ | command (.loadPrimality _ _) _ => true
  | command (.loadHello _) (.loaded (.ok _)) => true
  | command .reload (.flag b) => b
  | _ => false

def runs : Event → Bool
  | command .run _ | began => true
  | _ => false

def isCommand : Event → Bool
  | command _ _ => true
  | _ => false

def registered? : Event → Option (Signature × Handler)
  | command (.register sig handler) (.registered (.ok _)) => some (sig, handler)
  | _ => none

end Event

inductive Happens : Session → Event → Session → Prop
  | command {s s' : Session} (fuel : Nat) {c : Command} {answer : Answer} :
      s.perform fuel c = some (answer, s') → Happens s (.command c answer) s'
  | began {s : Session} {p : Program} : s.interpreter.runnable? = some p →
      Happens s .began { s.update s.interpreter.begun with registry := s.registry.toSealed }
  | ended {s : Session} {r : Except Fault (Option Value)} {m : Machine} : s.interpreter.phase = .running →
      Happens s (.ended r) { s.update (s.interpreter.finish r m) with host := m.frame.host }

inductive History (s₀ : Session) : List (Session × Event) → Session → Prop
  | start : History s₀ [] s₀
  | event {past : List (Session × Event)} {s s' : Session} {e : Event} :
      History s₀ past s → Happens s e s' → History s₀ (past ++ [(s, e)]) s'

/-- Interpreter `k` has not been run since a program was last loaded into it. -/
def Awaits (k : Nat) (past : List (Session × Event)) : Prop :=
  ∃ earlier x later, past = earlier ++ x :: later ∧ (x.1.current = k ∧ x.2.loads = true) ∧
    ∀ y ∈ later, ¬ (y.1.current = k ∧ y.2.runs = true)

theorem awaits_snoc {k : Nat} {past : List (Session × Event)} {x : Session × Event} : Awaits k (past ++ [x]) ↔
    (x.1.current = k ∧ x.2.loads = true) ∨ (Awaits k past ∧ ¬ (x.1.current = k ∧ x.2.runs = true)) := by
  constructor
  · rintro ⟨earlier, y, later, heq, hy, hlater⟩
    rcases List.eq_nil_or_concat later with rfl | ⟨later', z, rfl⟩
    · obtain ⟨_, hx⟩ := List.append_inj' heq rfl
      cases hx
      exact .inl hy
    · rw [List.concat_eq_append, ← List.cons_append, ← List.append_assoc] at heq
      obtain ⟨hpast, hx⟩ := List.append_inj' heq rfl
      cases hx
      refine .inr ⟨⟨earlier, y, later', hpast, hy, ?_⟩, hlater x (by simp)⟩
      intro z hz
      exact hlater z (by simp [hz])
  · rintro (hx | ⟨⟨earlier, y, later, rfl, hy, hlater⟩, hx⟩)
    · exact ⟨past, x, [], rfl, hx, by simp⟩
    · refine ⟨earlier, y, later ++ [x], by simp, hy, ?_⟩
      intro z hz
      rcases List.mem_append.mp hz with hz | hz
      · exact hlater z hz
      · rw [List.mem_singleton] at hz
        rwa [hz]

theorem awaits_snoc_of_other {k : Nat} {past : List (Session × Event)} {x : Session × Event}
    (h : x.1.current = k → x.2.loads = false ∧ x.2.runs = false) : Awaits k (past ++ [x]) ↔ Awaits k past := by
  rw [awaits_snoc]
  by_cases hk : x.1.current = k
  · simp [h hk]
  · simp [hk]

theorem not_awaits_snoc {past : List (Session × Event)} {s : Session} {e : Event} (hl : e.loads = false)
    (hr : e.runs = true) : ¬ Awaits s.current (past ++ [(s, e)]) := by
  simp [awaits_snoc, hl, hr]

/-! ## Commands -/

namespace Session

variable {s s' : Session}

theorem getElem?_update_ne {k : Nat} (hk : s.current ≠ k) (i : Interpreter) :
    (s.update i).interpreters[k]? = s.interpreters[k]? := Array.getElem?_setIfInBounds_ne hk

theorem eq_of_getElem?_update {i j : Interpreter} (h : (s.update i).interpreters[s.current]? = some j) : j = i := by
  rcases getElem?_update_cases h with ⟨_, rfl⟩ | h'
  · rfl
  · rw [getElem?_update_self h' i] at h
    cases h
    rfl

theorem perform_run {fuel : Nat} {r : Except Fault (Option Value)} (h : s.run fuel = some (r, s')) :
    s.perform fuel .run = some (.ran r, s') := by
  simp only [perform, h, Option.map_some]

theorem perform_effect {fuel : Nat} {c : Command} {answer : Answer} (h : s.perform fuel c = some (answer, s')) :
    ((Event.command c answer).loads = true ∧ ∃ p, s' = s.load p) ∨
    (c = .run ∧ ∃ r, answer = .ran r ∧ s.run fuel = some (r, s')) ∨
    (∃ sig handler registry, c = .register sig handler ∧ answer = .registered (.ok ()) ∧
      s.registry.register sig handler = .ok () registry ∧ s' = { s with registry }) ∨
    (c = .sealPlugs ∧ s' = { s with registry := s.registry.toSealed }) ∨
    ((Event.command c answer).loads = false ∧ (Event.command c answer).runs = false ∧
      (Event.command c answer).registered? = none ∧ c ≠ .sealPlugs ∧
      s'.interpreters = s.interpreters ∧ s'.registry = s.registry) := by
  cases c with
  | load m image | loadPrimality n image =>
    cases h
    exact .inl ⟨rfl, _, rfl⟩
  | loadHello text | reload =>
    simp only [perform] at h
    split at h
    · cases h
      exact .inl ⟨rfl, _, rfl⟩
    · cases h
      exact .inr (.inr (.inr (.inr ⟨rfl, rfl, rfl, by simp, rfl, rfl⟩)))
  | run =>
    obtain ⟨⟨r, s''⟩, hr, he⟩ := Option.map_eq_some_iff.mp h
    cases he
    exact .inr (.inl ⟨rfl, r, rfl, hr⟩)
  | register sig handler =>
    simp only [perform] at h
    split at h
    · next registry hr =>
      cases h
      exact .inr (.inr (.inl ⟨sig, handler, registry, rfl, rfl, hr, rfl⟩))
    · next e registry hr =>
      cases h
      exact .inr (.inr (.inr (.inr ⟨rfl, rfl, rfl, by simp, rfl, Registry.eq_of_register_error hr⟩)))
  | sealPlugs =>
    cases h
    exact .inr (.inr (.inr (.inl ⟨rfl, rfl⟩)))
  | resolveString v | lookup sig | use n =>
    cases h
    exact .inr (.inr (.inr (.inr ⟨rfl, rfl, rfl, by simp, rfl, rfl⟩)))

theorem interpreters_perform {fuel : Nat} {c : Command} {answer : Answer} (h : s.perform fuel c = some (answer, s')) :
    ((Event.command c answer).loads = true ∧ ∃ p, s' = s.load p) ∨
    (c = .run ∧ ∃ r, answer = .ran r ∧ s.run fuel = some (r, s')) ∨
    ((Event.command c answer).loads = false ∧ (Event.command c answer).runs = false ∧
      s'.interpreters = s.interpreters) := by
  rcases perform_effect h with
    hload | hrun | ⟨sig, handler, registry, rfl, rfl, _, rfl⟩ | ⟨rfl, rfl⟩ | ⟨hl, hr, _, _, hi, _⟩
  · exact .inl hload
  · exact .inr (.inl hrun)
  · exact .inr (.inr ⟨rfl, rfl, rfl⟩)
  · exact .inr (.inr ⟨rfl, rfl, rfl⟩)
  · exact .inr (.inr ⟨hl, hr, hi⟩)

end Session

/-! ## Interpreters -/

namespace Interpreter

/-- There is a program unless none was loaded yet or a run has taken it out. -/
def Coherent (i : Interpreter) : Prop := i.program.isSome = true ↔ i.phase ≠ .empty ∧ i.phase ≠ .running

variable {i : Interpreter}

theorem coherent_ofLimit (limit : Option Nat) : (ofLimit limit).Coherent := by simp [Coherent, ofLimit]

theorem coherent_load (i : Interpreter) (p : Program) : (i.load p).Coherent := by simp [Coherent, load]

theorem coherent_begun (i : Interpreter) : i.begun.Coherent := by simp [Coherent, begun]

theorem coherent_finish (i : Interpreter) (r : Except Fault (Option Value)) (m : Machine) :
    (i.finish r m).Coherent := by
  cases r <;> simp [Coherent, finish]

theorem coherent_holding (i : Interpreter) (r : Except Fault (Option Value)) (m : Machine) :
    (i.holding (.ending r) m).Coherent := by
  cases r <;> simp [Coherent, holding, Phase.ending]

theorem Coherent.isSome_runnable? (h : i.Coherent) : i.runnable?.isSome = true ↔ i.phase = .ready := by
  unfold runnable?
  by_cases hp : i.phase = .ready
  · rw [if_pos hp]
    simp [h.mpr, hp]
  · simp [hp]

theorem Coherent.phase_ne_ready (h : i.Coherent) (hn : i.runnable? = none) : i.phase ≠ .ready := by
  simp [← h.isSome_runnable?, hn]

end Interpreter

namespace Session

variable {s s' : Session}

def Coherent (s : Session) : Prop := ∀ (k : Nat) (i : Interpreter), s.interpreters[k]? = some i → i.Coherent

def Unused (s : Session) : Prop :=
  ∀ (k : Nat) (i : Interpreter), s.interpreters[k]? = some i → ∃ limit, i = .ofLimit limit

theorem unused_start (registry : Registry) (capacity limit : Option Nat) (n : Nat) :
    (start registry capacity limit n).Unused := by
  intro k i hi
  obtain ⟨_, rfl⟩ : k < n ∧ Interpreter.ofLimit limit = i := by
    simpa [start, Array.getElem?_replicate] using hi
  exact ⟨limit, rfl⟩

theorem Unused.coherent (h : s.Unused) : s.Coherent := by
  intro k i hi
  obtain ⟨limit, rfl⟩ := h k i hi
  exact Interpreter.coherent_ofLimit limit

theorem Coherent.interpreter (h : s.Coherent) : s.interpreter.Coherent := by
  rcases interpreter_cases s with hi | hi
  · exact h _ _ hi
  · rw [hi]
    exact Interpreter.coherent_ofLimit none

theorem Coherent.update (h : s.Coherent) {i : Interpreter} (hi : i.Coherent) : (s.update i).Coherent := by
  intro k j hj
  rcases getElem?_update_cases hj with ⟨_, rfl⟩ | hj
  · exact hi
  · exact h k j hj

theorem Coherent.happens (h : s.Coherent) {e : Event} (he : Happens s e s') : s'.Coherent := by
  cases he with
  | command fuel hp =>
    rcases interpreters_perform hp with ⟨_, p, rfl⟩ | ⟨_, r, _, hr⟩ | ⟨_, _, hi⟩
    · exact h.update (Interpreter.coherent_load _ p)
    · rcases run_cases hr with ⟨_, _, rfl⟩ | ⟨p, m, _, _, rfl⟩
      · exact h
      · exact h.update (Interpreter.coherent_holding _ r m)
    · intro k i hk
      rw [hi] at hk
      exact h k i hk
  | began _ => exact h.update (Interpreter.coherent_begun _)
  | @ended r m _ => exact h.update (Interpreter.coherent_finish _ r m)

end Session

theorem History.coherent {s₀ s : Session} {past : List (Session × Event)} (h₀ : s₀.Coherent) (h : History s₀ past s) :
    s.Coherent := by
  induction h with
  | start => exact h₀
  | event _ he ih => exact ih.happens he

/-! ## Phases -/

structure Settled (past : List (Session × Event)) (k : Nat) (i : Interpreter) : Prop where
  idle : i.phase ≠ .running
  ready : i.phase = .ready ↔ Awaits k past

theorem settled_ofLimit (k : Nat) (limit : Option Nat) : Settled [] k (.ofLimit limit) := by
  refine ⟨by simp [Interpreter.ofLimit], by simp [Interpreter.ofLimit], ?_⟩
  rintro ⟨earlier, x, later, h, _⟩
  simp at h

theorem Settled.snoc_of_other {past : List (Session × Event)} {k : Nat} {i : Interpreter} (h : Settled past k i)
    {x : Session × Event} (hx : x.1.current = k → x.2.loads = false ∧ x.2.runs = false) : Settled (past ++ [x]) k i :=
  ⟨h.idle, h.ready.trans (awaits_snoc_of_other hx).symm⟩

section
variable {past : List (Session × Event)} {s s' : Session}
variable (hs : ∀ (k : Nat) (i : Interpreter), s.interpreters[k]? = some i → Settled past k i)
include hs

/-- An event concerns the current interpreter only. -/
theorem settled_update {i : Interpreter} {e : Event} (h : Settled (past ++ [(s, e)]) s.current i) {k : Nat}
    {j : Interpreter} (hj : (s.update i).interpreters[k]? = some j) : Settled (past ++ [(s, e)]) k j := by
  by_cases hk : s.current = k
  · subst hk
    obtain rfl := Session.eq_of_getElem?_update hj
    exact h
  · rw [Session.getElem?_update_ne hk] at hj
    exact (hs k j hj).snoc_of_other fun h => absurd h hk

theorem settled_perform (hc : s.Coherent) {fuel : Nat} {c : Command} {answer : Answer}
    (h : s.perform fuel c = some (answer, s')) {k : Nat} {i : Interpreter} (hi : s'.interpreters[k]? = some i) :
    Settled (past ++ [(s, .command c answer)]) k i := by
  rcases Session.interpreters_perform h with ⟨hl, p, rfl⟩ | ⟨rfl, r, rfl, hr⟩ | ⟨hl, hr, he⟩
  · refine settled_update hs ⟨by simp [Interpreter.load], ?_⟩ hi
    simp [Interpreter.load, awaits_snoc, hl]
  · have hna : ¬ Awaits s.current (past ++ [(s, .command .run (.ran r))]) := not_awaits_snoc rfl rfl
    rcases Session.run_cases hr with ⟨hn, _, rfl⟩ | ⟨p, m, _, _, rfl⟩
    · by_cases hk : s'.current = k
      · subst hk
        obtain rfl := Session.interpreter_of_getElem? hi
        have hready := hc.interpreter.phase_ne_ready hn
        exact ⟨(hs _ _ hi).idle, by simp [hready, hna]⟩
      · exact (hs k i hi).snoc_of_other fun h => absurd h hk
    · refine settled_update hs ?_ hi
      constructor
      · cases r <;> simp [Interpreter.holding, Phase.ending]
      · cases r <;> simp [Interpreter.holding, Phase.ending, hna]
  · rw [he] at hi
    exact (hs k i hi).snoc_of_other fun _ => ⟨hl, hr⟩

end

theorem History.settled {s₀ s : Session} {past : List (Session × Event)} (h₀ : s₀.Unused) (h : History s₀ past s)
    (hw : ∀ x ∈ past, x.2.isCommand = true) {k : Nat} {i : Interpreter} (hi : s.interpreters[k]? = some i) :
    Settled past k i := by
  induction h generalizing k i with
  | start =>
    obtain ⟨limit, rfl⟩ := h₀ k i hi
    exact settled_ofLimit k limit
  | event hpast he ih =>
    have hw' := fun x hx => hw x (List.mem_append_left _ hx)
    cases he with
    | command fuel hp => exact settled_perform (fun k i hi => ih hw' hi) (hpast.coherent h₀.coherent) hp hi
    | began _ | ended _ =>
      have := hw _ (List.mem_append_right _ (List.mem_singleton_self _))
      cases this

/-! ## Runs -/

namespace Machine

theorem step_noProgram {rules : Rules} {m m' : Machine} (h : step rules m = .error .noProgram m') :
    Relays rules m .noProgram := by
  by_cases hw : m.Within rules
  · rcases programFetch_cases m.program with ⟨_, hf⟩ | ⟨e, _, hf⟩ | ⟨i, next, hd, hf⟩
    · rw [step_of_fetch_error (fetch_of_error hw hf)] at h
      cases h
    · rw [step_of_fetch_error (fetch_of_error hw hf)] at h
      cases h
    · rw [step_of_fetch (fetch_of_ok hw hf)] at h
      cases he : effect rules m.program.image i m.frame with
      | error e f =>
        rw [he] at h
        cases h
        exact (effect_error hd he).resolve_left id
      | ok move f =>
        rw [he] at h
        cases move with
        | stay | halt v => cases h
        | jump d =>
          simp only [settle] at h
          rcases branch_cases m.program.pc d (m.past next).program with ⟨target, hb⟩ | ⟨target, hb⟩
          · rw [hb] at h
            cases h
          · rw [hb] at h
            cases h
  · obtain ⟨limit, _, hf⟩ := fetch_of_not_within hw
    rw [step_of_fetch_error hf] at h
    cases h

theorem run_noProgram {rules : Rules} {fuel : Nat} {m m' : Machine}
    (h : run rules fuel m = some (.error .noProgram, m')) : ∃ m₁, Reaches rules m m₁ ∧ Relays rules m₁ .noProgram := by
  obtain ⟨m₁, hm₁, hend⟩ := exists_of_run h
  rcases hend with ⟨v, _, hr⟩ | ⟨e, hs, hr⟩
  · cases hr
  · cases hr
    exact ⟨m₁, hm₁, step_noProgram hs⟩

theorem reset_run {rules : Rules} {fuel : Nat} {m m' : Machine} {r : Except Fault (Option Value)}
    (h : run rules fuel m = some (r, m')) : m'.program.reset = m.program.reset := by
  obtain ⟨m₁, hm₁, hend⟩ := exists_of_run h
  have hp := reset_step rules m₁
  rcases hend with ⟨v, hs, _⟩ | ⟨e, hs, _⟩
  · rw [hs] at hp
    exact hp.trans (reset_reaches hm₁)
  · rw [hs] at hp
    exact hp.trans (reset_reaches hm₁)

end Machine

/-- `i'` is `i` about to run `p` from its start, with nothing of earlier runs but the texts. -/
structure Rewound (p : Program) (i i' : Interpreter) : Prop where
  phase : i'.phase = .ready
  program : i'.program = some { p with pc := 0 }
  depth : i'.stack.depth = 0
  capacity : i'.stack.capacity = p.method.maxStack.toNat
  size : i'.locals.size = p.method.localCount.toNat
  locals : ∀ (n : Nat) (v : Value), i'.locals.slots[n]? = some v → v = .int32 0
  executed : i'.executed = 0
  strings : i'.strings = i.strings

theorem rewound_load (p : Program) (i : Interpreter) : Rewound p i (i.load p) where
  phase := rfl
  program := rfl
  depth := rfl
  capacity := Array.size_replicate
  size := Array.size_replicate
  locals := by
    intro n v hv
    obtain ⟨_, rfl⟩ : n < p.method.localCount.toNat ∧ Value.zero = v := by
      simpa [Interpreter.load, Locals.ofSize, Array.getElem?_replicate] using hv
    rfl
  executed := rfl
  strings := rfl

/-- To run the current interpreter gets to a handler that itself fails with `e`. -/
def Session.Relays (s : Session) (e : Fault) : Prop := ∃ p m, s.interpreter.runnable? = some p ∧
  Machine.Reaches s.rules (s.interpreter.machine p s.host) m ∧ m.Relays s.rules e

structure Concluded (s : Session) (i' : Interpreter) (r : Except Fault (Option Value)) : Prop where
  loaded : r = .error .noProgram → s.Relays .noProgram
  halted : i'.phase = .halted ↔ ∃ v, r = .ok v
  faulted : i'.phase = .faulted ↔ ∃ e, r = .error e
  program : ∃ p q, s.interpreter.program = some p ∧ i'.program = some q ∧ q.method = p.method ∧ q.image = p.image

theorem concluded_holding {s : Session} {p : Program} {fuel : Nat} {m : Machine} {r : Except Fault (Option Value)}
    (hp : s.interpreter.runnable? = some p)
    (h : Machine.run s.rules fuel (s.interpreter.machine p s.host) = some (r, m)) :
    Concluded s (s.interpreter.holding (.ending r) m) r := by
  obtain ⟨hmethod, himage⟩ := Program.reset_eq_reset.mp (Machine.reset_run h)
  have hprogram := (Interpreter.program_of_runnable? hp).2
  refine ⟨?_, ?_, ?_, p, m.program, hprogram, rfl, hmethod, himage⟩
  · rintro rfl
    obtain ⟨m₁, hm₁, hrelays⟩ := Machine.run_noProgram h
    exact ⟨p, m₁, hp, hm₁, hrelays⟩
  · cases r <;> simp [Interpreter.holding, Phase.ending]
  · cases r <;> simp [Interpreter.holding, Phase.ending]

/-- The life of an interpreter, whatever programs were loaded and however their runs ended: what its phase
tells about the past of the session, and what loading, loading again and running do next. A run of what was loaded
says that nothing is loaded only if a handler says so. -/
theorem life_cycle {s₀ s : Session} {past : List (Session × Event)} (h₀ : s₀.Unused) (h : History s₀ past s)
    (hw : ∀ x ∈ past, x.2.isCommand = true) {k : Nat} {i : Interpreter} (hi : s.interpreters[k]? = some i) :
    (i.phase ≠ .running ∧ (i.program.isSome = true ↔ i.phase ≠ .empty) ∧ (i.phase = .ready ↔ Awaits k past)) ∧
    (s.current = k → ∀ fuel,
      (∀ m image, ∃ s' i', s.perform fuel (.load m image) = some (.done, s') ∧
        s'.interpreters[k]? = some i' ∧ Rewound (.ofMethod m image) i i') ∧
      (∀ p, i.program = some p → ∃ s' i', s.perform fuel .reload = some (.flag true, s') ∧
        s'.interpreters[k]? = some i' ∧ Rewound p i i') ∧
      (∀ c answer s', s.perform fuel c = some (answer, s') → (Event.command c answer).loads = true →
        ∃ p i', s'.interpreters[k]? = some i' ∧ Rewound p i i') ∧
      (i.program = none → s.perform fuel .reload = some (.flag false, s)) ∧
      (i.phase = .ready → ∀ answer s', s.perform fuel .run = some (answer, s') →
        ∃ r i', answer = .ran r ∧ s'.interpreters[k]? = some i' ∧ Concluded s i' r) ∧
      (i.phase ≠ .ready → s.perform fuel .run = some (.ran (.error .noProgram), s))) := by
  have hcoherent : i.Coherent := h.coherent h₀.coherent k i hi
  have hsettled := h.settled h₀ hw hi
  refine ⟨⟨hsettled.idle, ?_, hsettled.ready⟩, ?_⟩
  · exact hcoherent.trans ⟨And.left, fun hne => ⟨hne, hsettled.idle⟩⟩
  · rintro rfl fuel
    obtain rfl := Session.interpreter_of_getElem? hi
    have hload : ∀ p, (s.load p).interpreters[s.current]? = some (s.interpreter.load p) := fun p =>
      Session.getElem?_update_self hi _
    refine ⟨?_, ?_, ?_, ?_, ?_, ?_⟩
    · intro m image
      exact ⟨_, _, rfl, hload _, rewound_load _ _⟩
    · intro p hp
      refine ⟨s.load p, _, ?_, hload p, rewound_load p _⟩
      simp only [Session.perform, hp]
    · intro c answer s' hc hl
      rcases Session.interpreters_perform hc with ⟨_, p, rfl⟩ | ⟨rfl, r, rfl, _⟩ | ⟨hl', _, _⟩
      · exact ⟨p, _, hload p, rewound_load p _⟩
      · cases hl
      · rw [hl] at hl'
        cases hl'
    · intro hp
      simp only [Session.perform, hp]
    · intro hready answer s' hrun
      obtain ⟨⟨r, s''⟩, hr, he⟩ := Option.map_eq_some_iff.mp hrun
      cases he
      rcases Session.run_cases hr with ⟨hn, _, _⟩ | ⟨p, m, hp, hm, rfl⟩
      · exact absurd hready (hcoherent.phase_ne_ready hn)
      · exact ⟨r, _, rfl, Session.getElem?_update_self hi _, concluded_holding hp hm⟩
    · intro hready
      have hn : s.interpreter.runnable? = none := if_neg hready
      exact Session.perform_run (Session.run_of_none hn fuel)

/-- Stores 1 in the second of two locals, then lacks the operands of an addition. -/
def storing : Program := .ofMethod ⟨#[0x17, 0x0B, 0x58], 1, 2⟩ .empty

/-- After a run that failed there is nothing to run, and to load the program again forgets what it stored. -/
theorem life_cycle_reload : ∃ s s' : Session,
    ((Session.start .empty none none 1).load storing).run 3 = some (.error (.underflow 2 0), s) ∧
    s.interpreter.locals.slots = #[.int32 0, .int32 1] ∧
    s.perform 1 .run = some (.ran (.error .noProgram), s) ∧ s.perform 1 .reload = some (.flag true, s') ∧
    ∃ i', s'.interpreters[0]? = some i' ∧ i'.phase = .ready ∧ i'.locals.size = 2 ∧
      i'.locals.slots[1]? = some (.int32 0) ∧ i'.stack.capacity = 1 := by
  have hrun : ∃ m, ((Session.start .empty none none 1).load storing).run 3 =
      some (.error (.underflow 2 0), ((Session.start .empty none none 1).load storing).holding .faulted m) ∧
      m.frame.locals.slots = #[.int32 0, .int32 1] ∧ m.program = { storing with pc := 3 } := by
    rw [Session.run_load rfl]
    exact ⟨_, rfl, rfl, rfl⟩
  obtain ⟨m, hm, hlocals, hprogram⟩ := hrun
  have hunused := Session.unused_start .empty none none 1
  have h₀ : History (Session.start .empty none none 1) [] (.start .empty none none 1) := .start
  have h₁ := h₀.event (.command 0 (c := .load storing.method storing.image) rfl)
  have h₂ := h₁.event (.command 3 (Session.perform_run hm))
  obtain ⟨_, hnext⟩ := life_cycle hunused h₂ (by simp [Event.isCommand]) (k := 0) rfl
  obtain ⟨_, hreload, _, _, _, hrefused⟩ := hnext rfl 1
  have hfaulted : Phase.faulted ≠ .ready := by decide
  obtain ⟨s', i', hs', hi', hrewound⟩ := hreload m.program rfl
  refine ⟨_, s', hm, hlocals, hrefused hfaulted, hs', i', hi', hrewound.phase, ?_, ?_, ?_⟩
  · rw [hrewound.size, hprogram]
    rfl
  · have hsize : 1 < i'.locals.slots.size := by
      rw [show i'.locals.slots.size = _ from hrewound.size, hprogram]
      decide
    rw [Array.getElem?_eq_getElem hsize, hrewound.locals 1 _ (Array.getElem?_eq_getElem hsize)]
  · rw [hrewound.capacity, hprogram]
    rfl

/-- An interpreter that never had a program is not ready after an attempt to load it again. One that is ready says
that nothing is loaded if the handler it calls does. -/
theorem noProgram_of_handler :
    (∃ s i, (Session.start .empty none none 1).perform 0 .reload = some (.flag false, s) ∧
      s.interpreters[0]? = some i ∧ i.phase = .empty) ∧
    ∃ s s' i, s = (Session.start (Failing.registry .noProgram) none none 1).load Failing.program ∧
      s.interpreters[0]? = some i ∧ i.phase = .ready ∧ s.perform 1 .run = some (.ran (.error .noProgram), s') := by
  refine ⟨⟨_, _, rfl, rfl, rfl⟩, ?_⟩
  have hrun : ∃ s', ((Session.start (Failing.registry .noProgram) none none 1).load Failing.program).run 1 =
      some (.error .noProgram, s') := by
    rw [Session.run_load rfl]
    exact ⟨_, congrArg (Option.map _) (Failing.run_start .noProgram 0 _)⟩
  obtain ⟨s', hs'⟩ := hrun
  exact ⟨_, s', _, rfl, rfl, rfl, Session.perform_run hs'⟩

end StackVm
