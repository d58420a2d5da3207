import StackVm.Proofs.Composition

/-!
# Faults that handlers return

A handler may fail with any fault, and its call passes the fault on as it is. All
else that an instruction does to a frame fails with the faults of frames alone. So
a fault of fetching, branching or starting a run that arises in an instruction's
effect is one that the handler called there has returned (`Machine.Relays`).
-/

namespace StackVm

/-- `x` fails with faults of frames alone. -/
def Modest {α : Type} (x : FrameM α) : Prop := ∀ f e g, x f = .error e g → e.OfFrame

section
variable {α β : Type}

theorem modest_of_cases {x : FrameM α}
    (h : ∀ f, (∃ a g, x f = .ok a g) ∨ ∃ e g, x f = .error e g ∧ e.OfFrame) : Modest x := by
  intro f e g hx
  rcases h f with ⟨a, g', ha⟩ | ⟨e', g', he, hframe⟩
  · rw [ha] at hx
    cases hx
  · rw [he] at hx
    cases hx
    exact hframe

theorem modest_bind {x : FrameM α} {k : α → FrameM β} (hx : Modest x) (hk : ∀ a, Modest (k a)) : Modest (x >>= k) := by
  intro f e g h
  cases hr : x f with
  | ok a f' =>
    rw [bind_of_ok hr] at h
    exact hk a f' e g h
  | error e' f' =>
    rw [bind_of_error hr] at h
    cases h
    exact hx f e g hr

end

theorem composes_modest : Composes fun _ x => Modest x where
  pure a := modest_of_cases fun f => .inl ⟨a, f, rfl⟩
  throw he := modest_of_cases fun f => .inr ⟨_, f, rfl, he⟩
  bind := modest_bind
  stack hx := modest_of_cases fun f => by
    rcases hx f.stack with ⟨a, ha⟩ | ⟨e, he, hframe⟩
    · exact .inl ⟨_, _, Frame.onStack_of_ok ha⟩
    · exact .inr ⟨_, _, Frame.onStack_of_error he, hframe⟩
  locals hx := modest_of_cases fun f => by
    rcases hx f.locals with ⟨a, ha⟩ | ⟨e, he, hframe⟩
    · exact .inl ⟨_, _, Frame.onLocals_of_ok ha⟩
    · exact .inr ⟨_, _, Frame.onLocals_of_error he, hframe⟩
  push v := modest_of_cases fun f => by
    rcases Nat.lt_or_ge f.stack.depth f.stack.capacity with h | h
    · exact .inl ⟨_, _, Frame.push_of_lt h⟩
    · exact .inr ⟨_, _, Frame.push_of_le h, trivial⟩
  pop := modest_of_cases fun f => by
    rcases Nat.eq_zero_or_pos f.stack.depth with h | h
    · exact .inr ⟨_, _, Frame.pop_of_zero h, trivial⟩
    · exact .inl ⟨_, _, Frame.pop_of_pos h⟩
  pop2 := modest_of_cases fun f => by
    rcases Nat.lt_or_ge f.stack.depth 2 with h | h
    · exact .inr ⟨_, _, Frame.pop2_of_lt h, trivial⟩
    · exact .inl ⟨_, _, Frame.pop2_of_le h⟩
  setLocal i v := modest_of_cases fun f => by
    rcases Nat.lt_or_ge i f.locals.size with h | h
    · exact .inl ⟨_, _, Frame.setLocal_of_lt h⟩
    · exact .inr ⟨_, _, Frame.setLocal_of_le h, trivial⟩
  intern text := modest_of_cases fun f => .inl ⟨_, _, Frame.intern_eq f text⟩
  resolve handle := modest_of_cases fun f => by
    unfold Frame.resolve StringTable.resolve
    cases f.strings.get? handle with
    | some text => exact .inl ⟨_, _, rfl⟩
    | none => exact .inr ⟨_, _, rfl, trivial⟩

/-! ## Handlers -/

theorem modest_print (preface text : String) : Modest (Frame.print preface text) := modest_of_cases fun f => by
  cases h : (f.host.console.writeText text).1 with
  | true => exact .inl ⟨_, _, Frame.print_of_fits h⟩
  | false => exact .inr ⟨_, _, Frame.print_of_not_fits h, trivial⟩

theorem modest_builtin (b : Builtin) : Modest b.run := composes_modest.builtin (modest_print _) b

namespace Registry

/-- No handler fails with one of the machine's own faults. -/
def Modest (r : Registry) : Prop := ∀ s h, r.lookup? s = some h → StackVm.Modest h.run

def OnlyBuiltins (r : Registry) : Prop := ∀ s h, r.lookup? s = some h → ∃ b, h = .builtin b

theorem OnlyBuiltins.insert {plugs : Std.HashMap Signature Handler} {isSealed : Bool}
    (h : (Registry.mk plugs isSealed).OnlyBuiltins) (s : Signature) (b : Builtin) :
    (Registry.mk (plugs.insert s (.builtin b)) isSealed).OnlyBuiltins := by
  intro s' handler hl
  simp only [Registry.lookup?, Std.HashMap.getElem?_insert] at hl
  split at hl
  · cases hl
    exact ⟨b, rfl⟩
  · exact h s' handler hl

theorem onlyBuiltins_builtins : Registry.builtins.OnlyBuiltins := by
  have hfold : ∀ (bs : List Builtin) (plugs : Std.HashMap Signature Handler), (Registry.mk plugs false).OnlyBuiltins →
      (Registry.mk (bs.foldl (fun plugs b => plugs.insert b.signature (.builtin b)) plugs) false).OnlyBuiltins := by
    intro bs
    induction bs with
    | nil => exact fun _ h => h
    | cons b bs ih =>
      intro plugs h
      apply ih
      exact h.insert b.signature b
  apply hfold
  intro s handler hl
  simp [Registry.lookup?] at hl

theorem OnlyBuiltins.modest {r : Registry} (h : r.OnlyBuiltins) : r.Modest := by
  intro s x hx
  obtain ⟨b, rfl⟩ := h s x hx
  exact modest_builtin b

end Registry

section
variable {f g : Frame} {e : Fault}

theorem invoke_error {s : Signature} {h : Handler} (hx : s.invoke h f = .error e g) :
    e.OfFrame ∨ s.checkArguments f = .ok () f ∧ h.run f = .error e g := by
  have hargs : s.checkArguments f = _ := congrFun s.checkArguments_eq f
  unfold Signature.invoke at hx
  rcases s.looks_examine f.stack with ⟨_, ha⟩ | ⟨e', ha, hframe⟩
  · rw [Frame.onStack_of_ok ha] at hargs
    have hdepth : Frame.depth f = .ok f.stack.depth f := rfl
    rw [bind_of_ok hargs, bind_of_ok hdepth] at hx
    cases hr : h.run f with
    | error e' g' =>
      rw [bind_of_error hr] at hx
      cases hx
      exact .inr ⟨hargs, rfl⟩
    | ok _ g' =>
      rw [bind_of_ok hr] at hx
      exact .inl (composes_modest.checkResult s _ _ _ _ hx)
  · rw [Frame.onStack_of_error ha] at hargs
    rw [bind_of_error hargs] at hx
    cases hx
    exact .inl hframe

theorem dispatch_error {rules : Rules} {image : Image} {token : UInt32}
    (hx : Machine.dispatch rules image token f = .error e g) :
    e.OfFrame ∨ ∃ s h, image.resolve? token = some (.external s) ∧ rules.registry.lookup? s = some h ∧
      s.checkArguments f = .ok () f ∧ h.run f = .error e g := by
  unfold Machine.dispatch at hx
  cases ht : image.resolve? token with
  | none =>
    simp only [ht] at hx
    cases hx
    exact .inl trivial
  | some t =>
    simp only [ht] at hx
    cases t with
    | body m =>
      cases hx
      exact .inl trivial
    | external s =>
      cases hh : rules.registry.lookup? s with
      | none =>
        simp only [hh] at hx
        cases hx
        exact .inl trivial
      | some h =>
        simp only [hh] at hx
        rcases invoke_error hx with hframe | hrun
        · exact .inl hframe
        · exact .inr ⟨s, h, rfl, hh, hrun⟩

end

/-! ## Machines -/

namespace Machine

/-- The next instruction calls a handler, which gets its arguments and itself fails with `e`. -/
def Relays (rules : Rules) (m : Machine) (e : Fault) : Prop := ∃ token next s h g,
  decodeAt m.program.method.code m.program.pc = .ok (.call token, next) ∧
  m.program.image.resolve? token = some (.external s) ∧ rules.registry.lookup? s = some h ∧
  s.checkArguments m.frame = .ok () m.frame ∧ h.run m.frame = .error e g

variable {rules : Rules} {m : Machine} {e : Fault}

theorem Relays.ofFrame (h : Relays rules m e) (hr : rules.registry.Modest) : e.OfFrame := by
  obtain ⟨_, _, s, x, g, _, _, hx, _, hrun⟩ := h
  exact hr s x hx _ _ _ hrun

theorem effect_error {i : Instruction} {next : Nat} {g : Frame}
    (hd : decodeAt m.program.method.code m.program.pc = .ok (i, next))
    (h : effect rules m.program.image i m.frame = .error e g) : e.OfFrame ∨ Relays rules m e := by
  by_cases hcall : ∃ token, i = .call token
  · obtain ⟨token, rfl⟩ := hcall
    cases hx : dispatch rules m.program.image token m.frame with
    | ok _ f =>
      have hstay : effect rules m.program.image (.call token) m.frame = _ := bind_of_ok hx
      rw [hstay] at h
      cases h
    | error e' f =>
      have hfail : effect rules m.program.image (.call token) m.frame = _ := bind_of_error hx
      rw [hfail] at h
      cases h
      rcases dispatch_error hx with hframe | ⟨s, x, ht, hl, hargs, hrun⟩
      · exact .inl hframe
      · exact .inr ⟨token, next, s, x, g, hd, ht, hl, hargs, hrun⟩
  · left
    apply composes_modest.effect _ _ _ _ h
    intro token ht
    exact absurd ⟨token, ht⟩ hcall

end Machine

/-! ## A call that fails -/

namespace Failing

def signature : Signature := ⟨"Host", "Fail", none, [], false⟩

def registry (e : Fault) : Registry := ⟨(∅ : Std.HashMap Signature Handler).insert signature (.raise e), true⟩

def image : Image := (Image.empty.addRef signature).2

def code : Code := #[0x28, 0x01, 0x00, 0x00, 0x0A, 0x2A]

def program : Program := .ofMethod ⟨code, 0, 0⟩ image

theorem lookup?_registry (e : Fault) : (registry e).lookup? signature = some (.raise e) :=
  Std.HashMap.getElem?_insert_self

/-- Whatever fault the handler returns, the run ends with it, behind the call. -/
theorem run_start (e : Fault) (fuel : Nat) (host : Host) :
    Machine.run ⟨registry e, none⟩ (fuel + 1) ((Interpreter.ofLimit none).start program host) =
      some (.error e, ((Interpreter.ofLimit none).start program host).past 5) := by
  let m := (Interpreter.ofLimit none).start program host
  let rules : Rules := ⟨registry e, none⟩
  have hw : m.Within rules := by
    intro limit h
    cases h
  have hd : decodeAt code 0 = .ok (.call 0x0A000001, 5) := rfl
  have hcall : Machine.dispatch rules image 0x0A000001 m.frame = .error e m.frame := by
    have ht : image.resolve? 0x0A000001 = some (.external signature) := rfl
    have hl : rules.registry.lookup? signature = some (.raise e) := lookup?_registry e
    simp only [Machine.dispatch, ht, hl]
    rfl
  have heffect : Machine.effect rules image (.call 0x0A000001) m.frame = .error e m.frame := bind_of_error hcall
  have hstep : Machine.step rules m = .error e (m.past 5) := by
    rw [Machine.step_of_fetch (Machine.fetch_of_ok hw (Machine.programFetch_of_decodeAt hd))]
    exact congrArg _ heffect
  show Machine.run rules (fuel + 1) m = _
  simp only [Machine.run, hstep]
  rfl

theorem run_program (e : Fault) (fuel : Nat) (host : Host) : ∃ after,
    ((Interpreter.ofLimit none).load program).run (fuel + 1) (registry e) host = some (.error e, after, host) ∧
    after.program = some { program with pc := 5 } := by
  have hload := Interpreter.run_load (.ofLimit none) program (fuel + 1) (registry e) host
  exact ⟨_, hload.trans (congrArg _ (run_start e fuel host)), rfl⟩

end Failing

end StackVm
