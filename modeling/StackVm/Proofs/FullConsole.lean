import StackVm.Proofs.Greeting
import StackVm.Proofs.Isolation

/-!
# Consoles that fill up

A console with a capacity is asked for the same writes as one that takes them all,
until one does not fit. It has then stored what there was room for, and the run
ends with this write (`Curtailed`). So it holds as much of the output as it can.
-/

namespace StackVm

/-! ## Writing in two parts -/

namespace Console

theorem failure_write (c : Console) (bytes : Array UInt8) : (c.write bytes).2.failure = c.failure := by
  unfold write
  cases c.capacity <;> rfl

theorem write_empty (c : Console) : c.write #[] = (true, c) := by
  obtain ⟨written, capacity, failure⟩ := c
  cases capacity <;> simp [write]

theorem write_append_of_fits {c : Console} {a : Array UInt8} (h : (c.write a).1 = true) (b : Array UInt8) :
    c.write (a ++ b) = (c.write a).2.write b := by
  obtain ⟨written, capacity, failure⟩ := c
  cases capacity with
  | none => simp [write, Array.append_assoc]
  | some capacity =>
    have hfits : a.size ≤ capacity - written.size := of_decide_eq_true h
    have hroom : capacity - (written.size + a.size) = capacity - written.size - a.size := by omega
    have hsize : a.size + b.size ≤ capacity - written.size ↔ b.size ≤ capacity - written.size - a.size := by omega
    simp [write, Array.extract_append, Array.extract_eq_self_of_le hfits, hroom, hsize, Array.append_assoc]

theorem write_append_of_not_fits {c : Console} {a : Array UInt8} (h : (c.write a).1 = false) (b : Array UInt8) :
    c.write (a ++ b) = c.write a := by
  obtain ⟨written, capacity, failure⟩ := c
  cases capacity with
  | none => cases h
  | some capacity =>
    have hfits : ¬ a.size ≤ capacity - written.size := of_decide_eq_false h
    have hsize : ¬ a.size + b.size ≤ capacity - written.size := by omega
    have hroom : capacity - written.size - a.size = 0 := by omega
    simp [write, Array.extract_append, hfits, hsize, hroom]

end Console

namespace Host

def Fits (h : Host) (bytes : Array UInt8) : Prop := (h.console.write bytes).1 = true

/-- The host after `bytes` were written to its console, which has stored what it could. -/
def wrote (h : Host) (bytes : Array UInt8) : Host := { h with console := (h.console.write bytes).2 }

def refusal (h : Host) : Fault := .plug ("console write failed: " ++ h.console.failure)

theorem refusal_wrote (h : Host) (bytes : Array UInt8) : (h.wrote bytes).refusal = h.refusal := by
  unfold refusal wrote
  rw [Console.failure_write]

theorem fits_empty (h : Host) : h.Fits #[] := congrArg Prod.fst h.console.write_empty

theorem wrote_empty (h : Host) : h.wrote #[] = h := by
  simp [wrote, Console.write_empty]

section
variable {h : Host} {a : Array UInt8}

theorem Fits.append_iff (hf : h.Fits a) (b : Array UInt8) : h.Fits (a ++ b) ↔ (h.wrote a).Fits b := by
  unfold Fits
  rw [Console.write_append_of_fits hf]
  rfl

theorem Fits.wrote_append (hf : h.Fits a) (b : Array UInt8) : h.wrote (a ++ b) = (h.wrote a).wrote b := by
  unfold wrote
  rw [Console.write_append_of_fits hf]

theorem not_fits_append (hf : ¬ h.Fits a) (b : Array UInt8) : ¬ h.Fits (a ++ b) := by
  unfold Fits
  rwa [Console.write_append_of_not_fits (eq_false_of_ne_true hf)]

theorem wrote_append_of_not_fits (hf : ¬ h.Fits a) (b : Array UInt8) : h.wrote (a ++ b) = h.wrote a := by
  unfold wrote
  rw [Console.write_append_of_not_fits (eq_false_of_ne_true hf)]

end

theorem Open.fits {h : Host} (ho : h.Open) (bytes : Array UInt8) : h.Fits bytes := by
  unfold Fits
  rw [Console.write_of_open ho]

theorem Open.wrote_eq {h : Host} (ho : h.Open) (bytes : Array UInt8) : h.wrote bytes = h.grown bytes #[] := by
  simp [wrote, Console.write_of_open ho, Host.grown]

def Room (h : Host) (n : Nat) : Prop := h.console.capacity = some (h.console.written.size + n)

theorem Room.fits_iff {h : Host} {n : Nat} (hn : h.Room n) (bytes : Array UInt8) : h.Fits bytes ↔ bytes.size ≤ n := by
  obtain ⟨⟨written, capacity, failure⟩, notes⟩ := h
  obtain rfl : capacity = some (written.size + n) := hn
  simp [Fits, Console.write]

theorem Room.wrote_eq {h : Host} {n : Nat} (hn : h.Room n) (bytes : Array UInt8) :
    h.wrote bytes = h.grown (bytes.extract 0 n) #[] := by
  obtain ⟨⟨written, capacity, failure⟩, notes⟩ := h
  obtain rfl : capacity = some (written.size + n) := hn
  simp [wrote, Console.write, grown]

end Host

/-! ## Frames -/

/-- What `x` does to a frame depends on the host only in whether the bytes that it writes fit; if they do not, `x`
fails with what the console says. -/
def Curtailed (α : Type) (x : FrameM α) : Prop := ∀ f : Frame, ∃ r bytes, ∀ h : Host,
  (h.Fits bytes → x (f.facing h) = restated (Frame.facing (h.wrote bytes)) r) ∧
  (¬ h.Fits bytes → ∃ g : Frame, x (f.facing h) = .error h.refusal (g.facing (h.wrote bytes)))

theorem curtailed_of_quiet {α : Type} {x : FrameM α} (hx : Quiet α x) : Curtailed α x := by
  intro f
  refine ⟨x f, #[], fun h => ⟨?_, fun hn => absurd h.fits_empty hn⟩⟩
  intro _
  rw [hx, h.wrote_empty]

theorem curtailed_bind {α β : Type} {x : FrameM α} {k : α → FrameM β} (hx : Curtailed α x)
    (hk : ∀ a, Curtailed β (k a)) : Curtailed β (x >>= k) := by
  intro f
  obtain ⟨r, bytes, hr⟩ := hx f
  cases r with
  | error e g =>
    refine ⟨.error e g, bytes, fun h => ⟨fun hfits => bind_of_error ((hr h).1 hfits), fun hn => ?_⟩⟩
    obtain ⟨g', hg'⟩ := (hr h).2 hn
    exact ⟨g', bind_of_error hg'⟩
  | ok a g =>
    obtain ⟨r', bytes', hr'⟩ := hk a g
    refine ⟨r', bytes ++ bytes', ?_⟩
    intro h
    by_cases hfits : h.Fits bytes
    · rw [bind_of_ok ((hr h).1 hfits), hfits.append_iff, hfits.wrote_append, ← h.refusal_wrote bytes]
      exact hr' (h.wrote bytes)
    · -- the first part already fails
      refine ⟨fun hall => absurd hall (Host.not_fits_append hfits bytes'), fun _ => ?_⟩
      obtain ⟨g', hg'⟩ := (hr h).2 hfits
      rw [Host.wrote_append_of_not_fits hfits]
      exact ⟨g', bind_of_error hg'⟩

theorem composes_curtailed : Composes Curtailed := composes_of_quiet curtailed_of_quiet curtailed_bind

theorem curtailed_write (text : String) : Curtailed Unit (Builtin.write text) := by
  intro f
  refine ⟨.ok () f, text.toUTF8.data, fun h => ⟨fun hfits => ?_, fun hn => ⟨f, ?_⟩⟩⟩
  · exact Frame.print_of_fits (f := f.facing h) hfits
  · exact Frame.print_of_not_fits (f := f.facing h) (eq_false_of_ne_true hn)

theorem curtailed_effect {rules : Rules} (hr : rules.registry.OnlyBuiltins) (image : Image) (i : Instruction) :
    Curtailed Move (Machine.effect rules image i) := by
  apply composes_curtailed.effect
  intro token _
  apply composes_curtailed.dispatch
  intro s x hx
  obtain ⟨b, rfl⟩ := hr s x hx
  exact composes_curtailed.builtin curtailed_write b

/-! ## Machines -/

namespace Machine

theorem stopped_facing (h : Host) (r : EStateM.Result Fault Machine Signal) :
    stopped (restated (facing h) r) = (stopped r).map fun (v, m) => (v, m.facing h) := by
  cases r with
  | error e m => rfl
  | ok signal m => cases signal <;> rfl

section
variable {rules : Rules} (hr : rules.registry.OnlyBuiltins)
include hr

theorem step_curtailed (m : Machine) : ∃ r bytes, ∀ h : Host,
    (h.Fits bytes → step rules (m.facing h) = restated (facing (h.wrote bytes)) r) ∧
    (¬ h.Fits bytes → ∃ m', step rules (m.facing h) = .error h.refusal (facing (h.wrote bytes) m')) := by
  rcases fetch_cases rules m with ⟨e, he⟩ | ⟨i, next, hi⟩
  · refine ⟨.error e m, #[], fun h => ⟨fun _ => ?_, fun hn => absurd h.fits_empty hn⟩⟩
    have hf : fetch rules (m.facing h) = .error e (m.facing h) := by rw [fetch_facing, he]; rfl
    rw [step_of_fetch_error hf, h.wrote_empty]
    rfl
  · obtain ⟨r, bytes, hout⟩ := curtailed_effect hr m.program.image i m.frame
    refine ⟨settle (m.past next) m.program.pc r, bytes, ?_⟩
    intro h
    have hf : fetch rules (m.facing h) = .ok (m.program.pc, i) ((m.facing h).past next) := by
      rw [fetch_facing, hi]
      rfl
    rw [step_of_fetch hf]
    refine ⟨fun hfits => ?_, fun hn => ?_⟩
    · rw [← settle_facing (m.past next) h]
      exact congrArg _ ((hout h).1 hfits)
    · obtain ⟨g, hg⟩ := (hout h).2 hn
      exact ⟨{ m.past next with frame := g }, congrArg (settle _ _) hg⟩

theorem run_curtailed (fuel : Nat) (m : Machine) :
    ∃ (out : Option (Except Fault (Option Value) × Machine)) (bytes : Array UInt8), ∀ h : Host,
      (h.Fits bytes → run rules fuel (m.facing h) = out.map fun (r, m') => (r, m'.facing (h.wrote bytes))) ∧
      (¬ h.Fits bytes →
        ∃ m' : Machine, run rules fuel (m.facing h) = some (.error h.refusal, m'.facing (h.wrote bytes))) := by
  induction fuel generalizing m with
  | zero => exact ⟨none, #[], fun h => ⟨fun _ => rfl, fun hn => absurd h.fits_empty hn⟩⟩
  | succ fuel ih =>
    obtain ⟨r, bytes, hstep⟩ := step_curtailed hr m
    have hcut : ∀ h : Host, ¬ h.Fits bytes → ∃ m' : Machine,
        run rules (fuel + 1) (m.facing h) = some (.error h.refusal, m'.facing (h.wrote bytes)) := by
      intro h hn
      obtain ⟨m', hm'⟩ := (hstep h).2 hn
      exact ⟨m', run_of_stopped (congrArg stopped hm') fuel⟩
    rcases stopped_cases r with ⟨m', rfl⟩ | ⟨⟨v, m'⟩, hstop⟩
    · obtain ⟨out, bytes', hout⟩ := ih m'
      refine ⟨out, bytes ++ bytes', ?_⟩
      intro h
      by_cases hfits : h.Fits bytes
      · rw [run_of_next ((hstep h).1 hfits), hfits.append_iff, hfits.wrote_append, ← h.refusal_wrote bytes]
        exact hout (h.wrote bytes)
      · rw [Host.wrote_append_of_not_fits hfits]
        exact ⟨fun hall => absurd hall (Host.not_fits_append hfits bytes'), fun _ => hcut h hfits⟩
    · refine ⟨some (v, m'), bytes, fun h => ⟨fun hfits => ?_, hcut h⟩⟩
      apply run_of_stopped
      rw [(hstep h).1 hfits, stopped_facing, hstop]
      rfl

end

end Machine

/-- A run of built-ins that ends on an open console goes the same way on a console with room for its output. With
room for less, it ends in the write that does not fit, and the console holds the part of the output that does. -/
theorem full_console_cuts {registry : Registry} (hr : registry.OnlyBuiltins) (i : Interpreter) (p : Program)
    {fuel : Nat} {host host' : Host} (ho : host.Open) {r : Except Fault (Option Value)} {after : Interpreter}
    (h : (i.load p).run fuel registry host = some (r, after, host')) :
    ∃ out, host' = host.grown out #[] ∧ ∀ (sink : Host) (n : Nat), sink.Room n →
      (out.size ≤ n → (i.load p).run fuel registry sink = some (r, after, sink.grown out #[])) ∧
      (n < out.size → ∃ after', (i.load p).run fuel registry sink =
        some (.error (.plug ("console write failed: " ++ sink.console.failure)), after',
          sink.grown (out.extract 0 n) #[])) := by
  have hr : (Rules.mk registry i.limit).registry.OnlyBuiltins := hr
  obtain ⟨ended, out, hrun⟩ := Machine.run_curtailed hr fuel (i.start p host)
  have hfree : Machine.run ⟨registry, i.limit⟩ fuel (i.start p host) = _ := (hrun host).1 (ho.fits out)
  rw [Interpreter.run_load, hfree] at h
  cases ended with
  | none => cases h
  | some x =>
    obtain ⟨r, m⟩ := x
    cases h
    refine ⟨out, ho.wrote_eq out, ?_⟩
    intro sink n hn
    rw [Interpreter.run_load]
    refine ⟨fun hle => ?_, fun hlt => ?_⟩
    · have hm : Machine.run ⟨registry, i.limit⟩ fuel (i.start p sink) = _ := (hrun sink).1 ((hn.fits_iff out).mpr hle)
      rw [hm, hn.wrote_eq, Array.extract_eq_self_of_le hle]
      rfl
    · have hcut : ¬ sink.Fits out := fun hf => Nat.not_le.mpr hlt ((hn.fits_iff out).mp hf)
      obtain ⟨m', hm'⟩ : ∃ m' : Machine, Machine.run ⟨registry, i.limit⟩ fuel (i.start p sink) = _ :=
        (hrun sink).2 hcut
      rw [hm', hn.wrote_eq]
      exact ⟨_, rfl⟩

theorem full_console_cuts_newline : ∃ p after host, Sample.hello "hi" = .ok p ∧
    ((Interpreter.ofLimit none).load p).run 3 .builtins ⟨.ofCapacity (some 2), #[]⟩ =
      some (.error (.plug "console write failed: sink full"), after, host) ∧
    host.console.written = #[0x68, 0x69] := by
  have hunits : (units "hi").length ≤ 63 := by decide
  obtain ⟨p, token, method, hp, hgreets⟩ := Sample.hello_of_le hunits
  have hlookup : (Rules.mk .builtins none).registry.lookup? _ = _ := Registry.lookup?_builtins .writeLineString
  have haccepts : (Host.mk (.ofCapacity none) #[]).console.Accepts (lineBytes "hi") := Console.accepts_of_open rfl _
  have hlimit : ∀ limit, (Rules.mk .builtins none).limit = some limit → 3 ≤ limit := by
    intro limit h
    cases h
  obtain ⟨m, hm, _, _, _, hwritten⟩ := Machine.run_greeting (i := .ofLimit none) hgreets StringTable.consistent_empty
    haccepts hlookup hlimit (Nat.le_refl 3)
  have hrun := (Interpreter.run_load (.ofLimit none) p 3 .builtins ⟨.ofCapacity none, #[]⟩).trans
    (congrArg (Option.map _) hm)
  have hopen : Host.Open ⟨.ofCapacity none, #[]⟩ := rfl
  obtain ⟨out, hout, hcut⟩ := full_console_cuts Registry.onlyBuiltins_builtins (.ofLimit none) p hopen hrun
  obtain rfl : out = lineBytes "hi" := by
    rw [hout] at hwritten
    simpa [Host.grown, Console.ofCapacity] using hwritten
  -- the text fits, the newline does not
  obtain ⟨after, hafter⟩ := (hcut ⟨.ofCapacity (some 2), #[]⟩ 2 rfl).2 (by decide)
  exact ⟨p, after, _, hp, hafter, by decide⟩

end StackVm
