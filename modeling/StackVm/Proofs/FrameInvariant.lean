import StackVm.Proofs.Composition

/-!
# What handlers and instructions keep

A property of frames that survives the elementary changes (`FrameInvariant`)
survives every handler and every instruction, whether it ends well or not
(`closed_keeps`), and so every run. Which faults they raise does not matter.
-/

namespace StackVm

structure FrameInvariant (I : Frame → Prop) : Prop where
  pushed : ∀ {f : Frame} (v : Value), I f → f.stack.depth < f.stack.capacity → I (f.pushed v)
  dropped : ∀ {f : Frame} {n : Nat}, I f → n ≤ f.stack.depth → I (f.dropped n)
  stored : ∀ {f : Frame} {i : Nat} (v : Value), I f → i < f.locals.size → I (f.stored i v)
  strings : ∀ {f : Frame} (text : String), I f → I { f with strings := (f.strings.intern text).2 }
  host : ∀ {f : Frame} (host : Host), I f → I { f with host := host }

/-- `x` keeps `I` in both outcomes. -/
def Keeps (I : Frame → Prop) {α : Type} (x : FrameM α) : Prop := ∀ f, I f → I (left (x f))

section
variable {I : Frame → Prop} {α β : Type}

theorem keeps_bind {x : FrameM α} {k : α → FrameM β} (hx : Keeps I x) (hk : ∀ a, Keeps I (k a)) :
    Keeps I (x >>= k) := by
  intro f hf
  have h := hx f hf
  cases hr : x f with
  | ok a g =>
    rw [hr] at h
    rw [bind_of_ok hr]
    exact hk a g h
  | error e g =>
    rw [hr] at h
    rw [bind_of_error hr]
    exact h

theorem keeps_attempt {x : FrameM α} (hx : Keeps I x) : Keeps I (Frame.attempt x) := by
  intro f hf
  have h := hx f hf
  cases hr : x f with
  | ok a g =>
    rw [hr] at h
    rwa [Frame.attempt_of_ok hr]
  | error e g =>
    rw [hr] at h
    rwa [Frame.attempt_of_error hr]

/-- To look at the stack keeps everything. -/
theorem examines_keeps (I : Frame → Prop) : Examines fun _ x => Keeps I x where
  pure _ := fun _ hf => hf
  throw _ := fun _ hf => hf
  bind := keeps_bind
  stack hx := by
    intro f hf
    rcases hx f.stack with ⟨a, ha⟩ | ⟨e, he, _⟩
    · rwa [Frame.onStack_of_ok ha]
    · rwa [Frame.onStack_of_error he]

/-! ## Elementary operations -/

variable (hI : FrameInvariant I)
include hI

theorem keeps_push (v : Value) : Keeps I (Frame.push v) := by
  intro f hf
  rcases Nat.lt_or_ge f.stack.depth f.stack.capacity with h | h
  · rw [Frame.push_of_lt h]
    exact hI.pushed v hf h
  · rwa [Frame.push_of_le h]

theorem keeps_pop : Keeps I Frame.pop := by
  intro f hf
  rcases Nat.eq_zero_or_pos f.stack.depth with h | h
  · rwa [Frame.pop_of_zero h]
  · rw [Frame.pop_of_pos h]
    exact hI.dropped hf h

theorem keeps_pop2 : Keeps I Frame.pop2 := by
  intro f hf
  rcases Nat.lt_or_ge f.stack.depth 2 with h | h
  · rwa [Frame.pop2_of_lt h]
  · rw [Frame.pop2_of_le h]
    exact hI.dropped hf h

theorem keeps_setLocal (i : Nat) (v : Value) : Keeps I (Frame.setLocal i v) := by
  intro f hf
  rcases Nat.lt_or_ge i f.locals.size with h | h
  · rw [Frame.setLocal_of_lt h]
    exact hI.stored v hf h
  · rwa [Frame.setLocal_of_le h]

theorem keeps_print (preface text : String) : Keeps I (Frame.print preface text) := by
  intro f hf
  have hprinted : I (f.printed text) := hI.host _ hf
  cases h : (f.host.console.writeText text).1 with
  | true => rwa [Frame.print_of_fits h]
  | false => rwa [Frame.print_of_not_fits h]

theorem closed_keeps : Closed fun _ x => Keeps I x where
  toExamines := examines_keeps I
  locals hx := by
    intro f hf
    rcases hx f.locals with ⟨a, ha⟩ | ⟨e, he, _⟩
    · rwa [Frame.onLocals_of_ok ha]
    · rwa [Frame.onLocals_of_error he]
  push := keeps_push hI
  pop := keeps_pop hI
  pop2 := keeps_pop2 hI
  setLocal := keeps_setLocal hI
  intern text := fun _ hf => hI.strings text hf
  resolve handle := by
    intro f hf
    unfold Frame.resolve
    cases f.strings.resolve handle <;> exact hf
  raise _ := fun _ hf => hf
  attempt := keeps_attempt
  print := keeps_print hI
  note r := fun f hf => hI.host ⟨f.host.console, f.host.notes.push r⟩ hf

/-! ## Runs -/

theorem keeps_step (rules : Rules) {m : Machine} (h : I m.frame) : I (left (Machine.step rules m)).frame := by
  rcases Machine.step_cases rules m with ⟨e, _, hs⟩ | ⟨i, next, _, hs⟩
  · rw [hs]
    exact h
  · rw [hs, Machine.left_settle]
    exact (closed_keeps hI).effect rules m.program.image i m.frame h

theorem keeps_reaches {rules : Rules} {m₀ m : Machine} (h₀ : I m₀.frame) (h : Machine.Reaches rules m₀ m) :
    I m.frame := by
  refine h.invariant (P := fun m => I m.frame) h₀ fun {m m'} hm hs => ?_
  have := keeps_step hI rules hm
  rwa [hs] at this

theorem keeps_run {rules : Rules} {fuel : Nat} {m m' : Machine} {r : Except Fault (Option Value)} (h : I m.frame)
    (hr : Machine.run rules fuel m = some (r, m')) : I m'.frame := by
  obtain ⟨m₁, hm₁, hend⟩ := Machine.exists_of_run hr
  have := keeps_step hI rules (keeps_reaches hI h hm₁)
  rcases hend with ⟨v, hs, _⟩ | ⟨e, hs, _⟩ <;> rwa [hs] at this

end

end StackVm
