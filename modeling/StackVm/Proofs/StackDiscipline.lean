import StackVm.Proofs.FrameInvariant

/-!
# The stack discipline of a run

The stack keeps its capacity and the bank of locals its size (`Sized`). An
instruction that succeeds takes and gives as many values as its kind says
(`Balance`), and one that is no call leaves all below its operands alone
(`Spares`), also when it fails.
-/

namespace StackVm

namespace Instruction

def pops (image : Image) : Instruction → Nat
  | stloc _ | brfalse _ | brtrue _ | convR8 => 1
  | add | div | rem | ceq | cgt | clt => 2
  | call token =>
    match image.resolve? token with
    | some (.external s) => s.arity
    | _ => 0
  | _ => 0

def pushes (image : Image) : Instruction → Nat
  | ldloc _ | ldloca _ | ldcI4 _ | ldcR8 _ | ldstr _ | convR8 => 1
  | add | div | rem | ceq | cgt | clt => 1
  | call token =>
    match image.resolve? token with
    | some (.external s) => s.results
    | _ => 0
  | _ => 0

section
variable {image : Image} {token : UInt32} {s : Signature} (h : image.resolve? token = some (.external s))
include h

theorem pops_call : (call token).pops image = s.arity := by
  show (match image.resolve? token with | some (.external s) => s.arity | _ => 0) = s.arity
  rw [h]

theorem pushes_call : (call token).pushes image = s.results := by
  show (match image.resolve? token with | some (.external s) => s.results | _ => 0) = s.results
  rw [h]

end

def Writes : Instruction → Nat → Prop
  | stloc i, j => j = i.toNat
  | _, _ => False

/-- If the instruction is a call, then of an external method that has a handler. -/
def Registered (rules : Rules) (image : Image) : Instruction → Prop
  | call token => ∃ s h, image.resolve? token = some (.external s) ∧ rules.registry.lookup? s = some h
  | _ => True

end Instruction

/-! ## Outcomes -/

def Balance (pops pushes depth : Nat) {α : Type} : EStateM.Result Fault Frame α → Prop
  | .ok _ f => pops ≤ depth ∧ f.stack.depth + pops = depth + pushes
  | .error e _ => depth < pops → e = .underflow pops depth

/-- `f'` has the values of `f` but for the topmost `n`, and the locals of `f` but for those in `W`. -/
structure Spares (n : Nat) (W : Nat → Prop) (f f' : Frame) : Prop where
  depth : f.stack.depth - n ≤ f'.stack.depth
  below : ∀ k < f.stack.depth - n, f'.stack.slots[k]? = f.stack.slots[k]?
  locals : ∀ j, ¬ W j → f'.locals.slots[j]? = f.locals.slots[j]?

theorem Spares.refl (n : Nat) (W : Nat → Prop) (f : Frame) : Spares n W f f :=
  ⟨Nat.sub_le _ _, fun _ _ => rfl, fun _ _ => rfl⟩

theorem Spares.trans {n : Nat} {W : Nat → Prop} {f g h : Frame} (h₁ : Spares n W f g) (h₂ : Spares 0 W g h) :
    Spares n W f h where
  depth := Nat.le_trans h₁.depth h₂.depth
  below k hk := by
    rw [h₂.below k (Nat.lt_of_lt_of_le hk h₁.depth), h₁.below k hk]
  locals j hj := by
    rw [h₂.locals j hj, h₁.locals j hj]

def Obeys (pops pushes : Nat) (W : Nat → Prop) {α : Type} (x : FrameM α) : Prop :=
  ∀ f, Balance pops pushes f.stack.depth (x f) ∧ Spares pops W f (left (x f))

section
variable {W : Nat → Prop} {α β : Type}

theorem obeys_pure (a : α) : Obeys 0 0 W (pure a : FrameM α) := fun f => ⟨⟨Nat.zero_le _, rfl⟩, .refl 0 W f⟩

theorem obeys_throw (e : Fault) (p : Nat) : Obeys 0 p W (throw e : FrameM α) := fun f =>
  ⟨fun h => absurd h (Nat.not_lt_zero _), .refl 0 W f⟩

theorem obeys_bind {n p q : Nat} {x : FrameM α} {k : α → FrameM β} (hx : Obeys n p W x)
    (hk : ∀ a, Obeys 0 q W (k a)) : Obeys n (p + q) W (x >>= k) := by
  intro f
  obtain ⟨hb, hs⟩ := hx f
  cases hr : x f with
  | error e g =>
    rw [hr] at hb hs
    rw [bind_of_error hr]
    exact ⟨hb, hs⟩
  | ok a g =>
    rw [hr] at hb hs
    obtain ⟨hn, hd⟩ := hb
    obtain ⟨hb', hs'⟩ := hk a g
    rw [bind_of_ok hr]
    refine ⟨?_, hs.trans hs'⟩
    cases hr' : k a g with
    | error e h => exact fun hlt => absurd hn (Nat.not_le.mpr hlt)
    | ok b h =>
      rw [hr'] at hb'
      have hd' := hb'.2
      exact ⟨hn, by omega⟩

theorem obeys_look {x : EStateM Fault Locals α} (h : Looks x) : Obeys 0 0 W (Frame.onLocals x) := by
  intro f
  rcases h f.locals with ⟨a, hx⟩ | ⟨e, hx, _⟩
  · rw [Frame.onLocals_of_ok hx]
    exact obeys_pure a f
  · rw [Frame.onLocals_of_error hx]
    exact obeys_throw (α := α) e 0 f

theorem obeys_push (v : Value) : Obeys 0 1 W (Frame.push v) := by
  intro f
  by_cases h : f.stack.depth < f.stack.capacity
  · rw [Frame.push_of_lt h]
    refine ⟨⟨Nat.zero_le _, rfl⟩, Nat.le_succ _, fun k hk => ?_, fun _ _ => rfl⟩
    exact Array.getElem?_setIfInBounds_ne (Nat.ne_of_gt hk)
  · rw [Frame.push_of_le (Nat.not_lt.mp h)]
    exact obeys_throw (α := Unit) _ 1 f

theorem obeys_pop : Obeys 1 0 W Frame.pop := by
  intro f
  by_cases h : f.stack.depth = 0
  · rw [Frame.pop_of_zero h]
    refine ⟨fun _ => ?_, .refl 1 W f⟩
    rw [h]
  · have hp := Nat.pos_of_ne_zero h
    rw [Frame.pop_of_pos hp]
    exact ⟨⟨hp, Nat.sub_add_cancel hp⟩, Nat.le_refl _, fun _ _ => rfl, fun _ _ => rfl⟩

theorem obeys_pop2 : Obeys 2 0 W Frame.pop2 := by
  intro f
  by_cases h : f.stack.depth < 2
  · rw [Frame.pop2_of_lt h]
    exact ⟨fun _ => rfl, .refl 2 W f⟩
  · have hp := Nat.not_lt.mp h
    rw [Frame.pop2_of_le hp]
    exact ⟨⟨hp, Nat.sub_add_cancel hp⟩, Nat.le_refl _, fun _ _ => rfl, fun _ _ => rfl⟩

theorem obeys_setLocal {i : Nat} (hW : W i) (v : Value) : Obeys 0 0 W (Frame.setLocal i v) := by
  intro f
  by_cases h : i < f.locals.size
  · rw [Frame.setLocal_of_lt h]
    refine ⟨⟨Nat.zero_le _, rfl⟩, Nat.le_refl _, fun _ _ => rfl, fun j hj => ?_⟩
    refine Array.getElem?_setIfInBounds_ne ?_
    rintro rfl
    exact hj hW
  · rw [Frame.setLocal_of_le (Nat.not_lt.mp h)]
    exact obeys_throw (α := Unit) _ 0 f

theorem obeys_intern (text : String) : Obeys 0 0 W (Frame.intern text) := fun _ =>
  ⟨⟨Nat.zero_le _, rfl⟩, Nat.le_refl _, fun _ _ => rfl, fun _ _ => rfl⟩

end

/-! ## Instructions -/

section
variable {W : Nat → Prop}

theorem obeys_andStay {n p : Nat} {x : FrameM Unit} (h : Obeys n p W x) : Obeys n p W (Machine.andStay x) :=
  obeys_bind h fun _ => obeys_pure _

theorem obeys_binary (op : Value → Value → Except Fault Value) : Obeys 2 1 W (Machine.binary op) := by
  refine obeys_bind (p := 0) (q := 1) obeys_pop2 fun v => ?_
  cases hr : op v.1 v.2 with
  | ok r => simp only [hr]; exact obeys_push r
  | error e => simp only [hr]; exact obeys_throw e 1

theorem obeys_test (op : Operation) (wanted : Int) (d : Int32) : Obeys 1 0 W (Machine.test op wanted d) := by
  refine obeys_bind (p := 0) (q := 0) (obeys_bind (p := 0) (q := 0) obeys_pop fun v => ?_) fun n => ?_
  · cases v.integer? with
    | none => exact obeys_throw _ 0
    | some n => exact obeys_pure n
  · split <;> exact obeys_pure _

theorem obeys_loadString (image : Image) (token : UInt16) : Obeys 0 1 W (Machine.loadString image token) := by
  intro f
  unfold Machine.loadString
  cases image.userString token with
  | ok text => exact obeys_bind (p := 0) (obeys_intern text) (fun h => obeys_push (.string h)) f
  | error e => exact obeys_throw (α := Unit) e 1 f

theorem obeys_effect (rules : Rules) (image : Image) {i : Instruction} (hi : ∀ token, i ≠ .call token) :
    Obeys (i.pops image) (i.pushes image) i.Writes (Machine.effect rules image i) := by
  cases i with
  | call token => exact absurd rfl (hi token)
  | nop | br d => exact obeys_pure _
  | ret => exact fun f => ⟨⟨Nat.zero_le _, rfl⟩, .refl 0 _ f⟩
  | ldloc i =>
    exact obeys_andStay (obeys_bind (p := 0) (obeys_look (looks_get _)) fun v => obeys_push v)
  | ldloca i =>
    exact obeys_andStay (obeys_bind (p := 0) (obeys_look (looks_addressOf _)) fun v => obeys_push v)
  | stloc i =>
    have hW : (Instruction.stloc i).Writes i.toNat := rfl
    exact obeys_andStay (obeys_bind (p := 0) (q := 0) obeys_pop fun v => obeys_setLocal hW v)
  | ldcI4 v | ldcR8 bits => exact obeys_andStay (obeys_push _)
  | brfalse d | brtrue d => exact obeys_test _ _ d
  | add | div | rem | ceq | cgt | clt => exact obeys_andStay (obeys_binary _)
  | convR8 => exact obeys_andStay (obeys_bind (p := 0) obeys_pop fun v => obeys_push v.toFloat)
  | ldstr token => exact obeys_andStay (obeys_loadString image token)

end

/-! ## Calls -/

theorem checkArguments_of_lt {s : Signature} {f : Frame} (h : f.stack.depth < s.arity) :
    s.checkArguments f = .error (.underflow s.arity f.stack.depth) f := if_pos h

theorem depth_of_checkResult {s : Signature} {before : Nat} {f f' : Frame} (h : s.checkResult before f = .ok () f') :
    f'.stack.depth = before - s.arity + s.results := by
  have hk := (examines_keeps fun g => g = f).checkResult s before f rfl
  rw [h] at hk
  obtain rfl : f' = f := hk
  unfold Signature.checkResult at h
  rw [bind_of_ok (show Frame.depth f' = .ok f'.stack.depth f' from rfl)] at h
  by_cases hd : f'.stack.depth = before - s.arity + s.results
  · exact hd
  · simp only [ne_eq, hd, not_false_eq_true, if_true] at h
    cases h

theorem balance_invoke (s : Signature) (h : Handler) (f : Frame) :
    Balance s.arity s.results f.stack.depth (s.invoke h f) := by
  unfold Signature.invoke
  by_cases hlt : f.stack.depth < s.arity
  · rw [bind_of_error (checkArguments_of_lt hlt)]
    exact fun _ => rfl
  · have hle := Nat.not_lt.mp hlt
    have hfail : ∀ {e : Fault} {g : Frame}, Balance s.arity s.results f.stack.depth
        (EStateM.Result.error e g : EStateM.Result Fault Frame Unit) := fun h => absurd h hlt
    have hk := (examines_keeps fun g => g = f).checkArguments s f rfl
    cases hc : s.checkArguments f with
    | error e g => rw [bind_of_error hc]; exact hfail
    | ok u g =>
      rw [hc] at hk
      obtain rfl : g = f := hk
      rw [bind_of_ok hc, bind_of_ok (show Frame.depth g = .ok g.stack.depth g from rfl)]
      cases hh : h.run g with
      | error e g' => rw [bind_of_error hh]; exact hfail
      | ok u g' =>
        rw [bind_of_ok hh]
        cases hr : s.checkResult g.stack.depth g' with
        | error e g'' => exact hfail
        | ok u g'' =>
          have hd := depth_of_checkResult hr
          exact ⟨hle, by omega⟩

theorem dispatch_cases (rules : Rules) (image : Image) (token : UInt32) (f : Frame) :
    (¬ (Instruction.call token).Registered rules image ∧ ∃ e, Machine.dispatch rules image token f = .error e f) ∨
    ∃ s h, image.resolve? token = some (.external s) ∧ rules.registry.lookup? s = some h ∧
      Machine.dispatch rules image token f = s.invoke h f := by
  unfold Machine.dispatch Instruction.Registered
  cases hr : image.resolve? token with
  | none => exact Or.inl ⟨by simp [hr], _, rfl⟩
  | some t =>
    cases t with
    | body m => exact Or.inl ⟨by simp [hr], _, rfl⟩
    | external s =>
      simp only []
      cases hl : rules.registry.lookup? s with
      | none => exact Or.inl ⟨by simp [hr, hl], _, rfl⟩
      | some h => exact Or.inr ⟨s, h, rfl, hl, rfl⟩

theorem balance_effect (rules : Rules) (image : Image) (i : Instruction) (f : Frame) :
    (¬ i.Registered rules image ∧ ∃ e, Machine.effect rules image i f = .error e f) ∨
      Balance (i.pops image) (i.pushes image) f.stack.depth (Machine.effect rules image i f) := by
  cases i with
  | call token =>
    rcases dispatch_cases rules image token f with ⟨hn, e, he⟩ | ⟨s, h, hr, _, he⟩
    · exact Or.inl ⟨hn, e, bind_of_error he⟩
    · refine Or.inr ?_
      have hb := balance_invoke s h f
      rw [Instruction.pops_call hr, Instruction.pushes_call hr]
      show Balance _ _ _ (Machine.andStay _ f)
      unfold Machine.andStay
      cases hx : s.invoke h f with
      | error e g => rw [bind_of_error (he.trans hx)]; rw [hx] at hb; exact hb
      | ok u g => rw [bind_of_ok (he.trans hx)]; rw [hx] at hb; exact hb
  | _ => exact Or.inr (obeys_effect rules image (fun token h => by cases h) f).1

/-! ## Runs -/

/-- A stack of capacity `n` that is not deeper, and `l` locals. -/
structure Sized (n l : Nat) (f : Frame) : Prop where
  capacity : f.stack.capacity = n
  depth : f.stack.depth ≤ n
  locals : f.locals.size = l

theorem frameInvariant_sized (n l : Nat) : FrameInvariant (Sized n l) where
  pushed {f} v h hlt := by
    refine ⟨?_, ?_, h.locals⟩
    · exact Array.size_setIfInBounds.trans h.capacity
    · rw [h.capacity] at hlt; exact hlt
  dropped h _ := ⟨h.capacity, Nat.le_trans (Nat.sub_le _ _) h.depth, h.locals⟩
  stored v h _ := ⟨h.capacity, h.depth, Array.size_setIfInBounds.trans h.locals⟩
  strings _ h := ⟨h.capacity, h.depth, h.locals⟩
  host _ h := ⟨h.capacity, h.depth, h.locals⟩

theorem sized_start (i : Interpreter) (p : Program) (host : Host) :
    Sized p.method.maxStack.toNat p.method.localCount.toNat (i.start p host).frame where
  capacity := Array.size_replicate
  depth := Nat.zero_le _
  locals := Array.size_replicate

structure Disciplined (rules : Rules) (image : Image) (i : Instruction) (f : Frame)
    (r : EStateM.Result Fault Machine Signal) : Prop where
  balance : ∀ s m, r = .ok s m →
    i.pops image ≤ f.stack.depth ∧ m.frame.stack.depth + i.pops image = f.stack.depth + i.pushes image
  spares : (∀ token, i ≠ .call token) → Spares (i.pops image) i.Writes f (left r).frame
  underflow : i.Registered rules image → f.stack.depth < i.pops image →
    ∃ m, r = .error (.underflow (i.pops image) f.stack.depth) m
  overflow : f.stack.capacity + i.pops image < f.stack.depth + i.pushes image → ∀ s m, r ≠ .ok s m

theorem disciplined_step {rules : Rules} {m : Machine} {n l : Nat} (hm : Sized n l m.frame) {i : Instruction}
    {offset : Nat} {m₁ : Machine} (h : Machine.fetch rules m = .ok (offset, i) m₁) :
    Disciplined rules m.program.image i m.frame (Machine.step rules m) := by
  rcases Machine.step_cases rules m with ⟨e, he, _⟩ | ⟨i', next, hi, hs⟩
  · rw [he] at h; cases h
  rw [h] at hi; cases hi
  have hb := balance_effect rules m.program.image i m.frame
  have hbal : ∀ s m', Machine.step rules m = .ok s m' → i.pops m.program.image ≤ m.frame.stack.depth ∧
      m'.frame.stack.depth + i.pops m.program.image = m.frame.stack.depth + i.pushes m.program.image := by
    intro s m' hok
    rw [hs] at hok
    obtain ⟨v, hv⟩ := Machine.settle_eq_ok hok
    rw [hv] at hb
    rcases hb with ⟨_, e, he⟩ | hb
    · cases he
    · exact hb
  refine ⟨hbal, fun hc => ?_, fun hr hlt => ?_, fun hlt s m' hok => ?_⟩
  · rw [hs, Machine.left_settle]
    exact (obeys_effect rules m.program.image hc m.frame).2
  · rcases hb with ⟨hn, _⟩ | hb
    · exact absurd hr hn
    · cases he : Machine.effect rules m.program.image i m.frame with
      | ok v f => rw [he] at hb; exact absurd hlt (Nat.not_lt.mpr hb.1)
      | error e f =>
        rw [he] at hb
        rw [hs, he, ← hb hlt]
        exact ⟨_, rfl⟩
  · -- a success would leave the stack deeper than its capacity, which no step does
    have hd := (hbal s m' hok).2
    have hsz := keeps_step (frameInvariant_sized n l) rules hm
    rw [hok] at hsz
    have hle : m'.frame.stack.depth ≤ n := hsz.depth
    rw [hm.capacity] at hlt
    omega

/-- At every point of a run the stack is within its capacity and the locals are all there, also in the
midst of a call, whatever the handler has done so far; every instruction that is met is disciplined. -/
theorem stack_discipline (interpreter : Interpreter) (program : Program) (registry : Registry) (host : Host) :
    let rules : Rules := ⟨registry, interpreter.limit⟩
    let maxStack := program.method.maxStack.toNat
    let localCount := program.method.localCount.toNat
    (∀ m, Machine.Reaches rules (interpreter.start program host) m →
      Sized maxStack localCount m.frame ∧
      (∀ h : Handler, Sized maxStack localCount (left (h.run m.frame))) ∧
      ∀ offset i m', Machine.fetch rules m = .ok (offset, i) m' →
        Disciplined rules m.program.image i m.frame (Machine.step rules m)) ∧
    ∀ fuel r after host', (interpreter.load program).run fuel registry host = some (r, after, host') →
      after.stack.capacity = maxStack ∧ after.stack.depth ≤ maxStack ∧ after.locals.size = localCount := by
  intro rules maxStack localCount
  have h₀ := sized_start interpreter program host
  have hI := frameInvariant_sized maxStack localCount
  refine ⟨fun m hr => ?_, fun fuel r after host' hrun => ?_⟩
  · have hm := keeps_reaches hI h₀ hr
    exact ⟨hm, fun h => (closed_keeps hI).handler h m.frame hm, fun offset i m' hi => disciplined_step hm hi⟩
  · rw [Interpreter.run_load] at hrun
    obtain ⟨⟨r', m⟩, hm, he⟩ := Option.map_eq_some_iff.mp hrun
    cases he
    have h := keeps_run hI h₀ hm
    exact ⟨h.capacity, h.depth, h.locals⟩

def shortOfOperands : Program := .ofMethod ⟨#[0x17, 0x58], 2, 0⟩ .empty

theorem stack_discipline_short : ∃ m,
    Machine.Reaches ⟨.empty, none⟩ ((Interpreter.ofLimit none).start shortOfOperands ⟨.ofCapacity none, #[]⟩) m ∧
      Sized 2 0 m.frame ∧ ∃ m', Machine.step ⟨.empty, none⟩ m = .error (.underflow 2 1) m' := by
  refine ⟨_, .step .refl rfl, ?_⟩
  have h := stack_discipline (.ofLimit none) shortOfOperands .empty ⟨.ofCapacity none, #[]⟩
  obtain ⟨hs, _, hd⟩ := h.1 _ (.step .refl rfl)
  exact ⟨hs, (hd 1 .add _ rfl).underflow trivial (by decide)⟩

end StackVm
