import StackVm.Proofs.RelayedFaults
import StackVm.Proofs.WellFormed

/-!
# Runs under built-in plugs

Every instruction is sound on a well-formed frame when all handlers are built in
(`sound_effect`), so every step and every run is. A run that is repeated over a
table which holds all its texts goes the same way (`echo_run`).
-/

namespace StackVm

/-! ## Calls -/

theorem mismatch?_eq_some {ks : List Kind} {vs : List Value} {e : Fault} (h : Signature.mismatch? ks vs = some e) :
    ∃ k k', e = .typeMismatch .call k k' := by
  induction ks generalizing vs with
  | nil => cases h
  | cons k ks ih =>
    cases vs with
    | nil => cases h
    | cons v vs =>
      unfold Signature.mismatch? at h
      split at h
      · exact ih h
      · cases h
        exact ⟨k, v.kind, rfl⟩

section
variable {n : Nat} {f : Frame} (hf : f.WellFormed n)
include hf

theorem sound_builtin (b : Builtin) : Sound n f b.run fun _ _ => True := by
  cases b with
  | writeLineString | writeString => exact sound_bind (sound_popString hf) fun _ _ hg _ => sound_print hg _ _
  | writeLineInt32 | writeInt32 => exact sound_bind (sound_popAs hf _) fun _ _ hg _ => sound_print hg _ _
  | writeLine => exact sound_print hf _ _
  | sqrt => exact sound_bind (sound_popAs hf _) fun _ _ hg _ => sound_push hg trivial
  | length =>
    refine sound_bind (sound_popString hf) fun text g hg _ => ?_
    by_cases h : (units text).length < 0x80000000
    · simp only [h, if_true]
      exact sound_push hg trivial
    · simp only [h, if_false]
      exact sound_throw hg fun _ => by simp
  | concat =>
    exact sound_bind (sound_popString hf) fun _ _ hg _ => sound_bind (sound_popString hg) fun _ _ hg' _ =>
      sound_pushString hg' _

theorem sound_checkArguments (s : Signature) : Sound n f s.checkArguments fun _ _ => True := by
  by_cases h : f.stack.depth < s.arity
  · refine sound_of_error hf (if_pos h) (fun _ => by simp) fun he => ?_
    rw [← he.stack] at h ⊢
    exact if_pos h
  · cases hm : Signature.mismatch? s.params (f.stack.topmost s.params.length).toList with
    | none =>
      have hok : ∀ {g : Frame}, g.stack = f.stack → s.checkArguments g = .ok () g := by
        intro g hg
        unfold Signature.checkArguments
        rw [hg, if_neg h, hm]
      exact sound_of_ok (hok rfl) (.refl hf) trivial fun _ _ he => ⟨_, hok he.stack, he⟩
    | some e =>
      have herr : ∀ {g : Frame}, g.stack = f.stack → s.checkArguments g = .error e g := by
        intro g hg
        unfold Signature.checkArguments
        rw [hg, if_neg h, hm]
      obtain ⟨k, k', rfl⟩ := mismatch?_eq_some hm
      exact sound_of_error hf (herr rfl) (fun _ => by simp) fun he => herr he.stack

theorem sound_peek : Sound n f Frame.peek fun _ _ => True := by
  rcases Nat.eq_zero_or_pos f.stack.depth with h | h
  · refine sound_of_error hf (Frame.peek_of_zero h) (fun _ => by simp) fun he => ?_
    rw [← he.stack] at h
    exact Frame.peek_of_zero h
  · refine sound_of_ok (Frame.peek_of_pos h) (.refl hf) trivial fun {t w w' f'} _ _ he => ⟨f', ?_, he⟩
    rw [← he.stack] at h ⊢
    exact Frame.peek_of_pos h

theorem sound_checkResult (s : Signature) (before : Nat) : Sound n f (s.checkResult before) fun _ _ => True := by
  refine sound_bind (sound_depth hf) fun actual g hg _ => ?_
  show Sound n g (if _ ≠ _ then _ else _) _
  split
  · refine sound_bind (Q := fun _ _ => False) (sound_throw hg fun _ => by simp) ?_
    intro _ _ _ h
    exact h.elim
  · cases s.returns with
    | none => exact sound_pure hg trivial
    | some k =>
      refine sound_bind (sound_peek hg) fun v g' hg' _ => ?_
      split
      · exact sound_throw hg' fun _ => by simp
      · exact sound_pure hg' trivial

theorem sound_invoke (s : Signature) (b : Builtin) : Sound n f (s.invoke (.builtin b)) fun _ _ => True :=
  sound_bind (sound_checkArguments hf s) fun _ _ hg _ => sound_bind (sound_depth hg) fun before _ hg' _ =>
    sound_bind (sound_builtin hg' b) fun _ _ hg'' _ => sound_checkResult hg'' s before

end

/-! ## Instructions -/

/-- The result of an operator: a well-formed value, or a fault that is not about a handle. -/
def Proper (n t : Nat) : Except Fault Value → Prop
  | .ok v => v.WellFormed n t
  | .error e => ∀ h, e ≠ .invalidHandle h

def Tame (op : Value → Value → Except Fault Value) : Prop :=
  ∀ {n t : Nat} {a b : Value}, a.WellFormed n t → b.WellFormed n t → Proper n t (op a b)

theorem proper_refuse {n t : Nat} (op : Operation) (a b : Value) : Proper n t (.error (Value.refuse op a b)) := by
  unfold Value.refuse
  split <;> simp [Proper]

theorem proper_guard {n t : Nat} {c : Prop} [Decidable c] {v : Value} (hv : v.WellFormed n t) :
    Proper n t (if c then .error .divideByZero else .ok v) := by
  split
  · simp [Proper]
  · exact hv

theorem tame_add : Tame Value.add := by
  intro n t a b ha hb
  unfold Value.add
  split
  case h_3 | h_5 => trivial
  case h_7 => exact proper_refuse .add _ _
  all_goals exact absurd ha id

theorem tame_div : Tame Value.div := by
  intro n t a b ha hb
  unfold Value.div
  split
  case h_3 => exact proper_guard trivial
  case h_5 => trivial
  case h_7 => exact proper_refuse .div _ _
  all_goals exact absurd ha id

theorem tame_rem : Tame Value.rem := by
  intro n t a b ha hb
  unfold Value.rem
  split
  case h_3 => exact proper_guard trivial
  case h_5 => trivial
  case h_7 => exact proper_refuse .rem _ _
  all_goals exact absurd ha id

theorem tame_compare (op : Operation) (wanted : Ordering) :
    Tame fun a b => (a.compare op b).map fun order => .ofBool (order = some wanted) := by
  intro n t a b ha hb
  unfold Value.compare
  by_cases h : a.kind ≠ b.kind
  · simp [h, Except.map, Proper]
  · simp only [h, if_false]
    split <;> trivial

theorem userString_ne {image : Image} {token : UInt16} {e : Fault} (h : image.userString token = .error e) :
    ∀ handle, e ≠ .invalidHandle handle := by
  unfold Image.userString at h
  split at h
  · unfold UserString.decode at h
    split at h
    · cases h
      simp
    · split at h
      · cases h
        simp
      · split at h
        · cases h
          simp
        · split at h <;> cases h
          simp
  · cases h
    simp

def Move.Safe (n : Nat) (move : Move) (g : Frame) : Prop := ∀ v, move = .halt (some v) → v.WellFormed n g.strings.size

section
variable {n : Nat} {f : Frame} (hf : f.WellFormed n)
include hf

theorem sound_binary {op : Value → Value → Except Fault Value} (hop : Tame op) :
    Sound n f (Machine.binary op) fun _ _ => True := by
  refine sound_bind (sound_pop2 hf) fun p g hg hp => ?_
  have hv := hop hp.1 hp.2
  cases h : op p.1 p.2 with
  | ok v =>
    rw [h] at hv
    simp only [h]
    exact sound_push hg hv
  | error e =>
    rw [h] at hv
    simp only [h]
    exact sound_throw hg hv

theorem sound_test (op : Operation) (wanted : Int) (d : Int32) :
    Sound n f (Machine.test op wanted d) (Move.Safe n) := by
  have hc : Sound n f (Machine.popCondition op) fun _ _ => True := by
    refine sound_bind (sound_pop hf) fun v g hg _ => ?_
    cases v.integer? with
    | none => exact sound_throw hg fun _ => by simp
    | some k => exact sound_pure hg trivial
  refine sound_bind hc fun k g hg _ => ?_
  split
  · exact sound_pure hg fun _ h => by cases h
  · exact sound_pure hg fun _ h => by cases h

theorem sound_loadString (image : Image) (token : UInt16) :
    Sound n f (Machine.loadString image token) fun _ _ => True := by
  cases h : image.userString token with
  | ok text =>
    have heq : Machine.loadString image token = Frame.pushString text := by
      funext g
      simp only [Machine.loadString, h]
    rw [heq]
    exact sound_pushString hf text
  | error e =>
    have heq : Machine.loadString image token = throw e := by
      funext g
      simp only [Machine.loadString, h]
      rfl
    rw [heq]
    exact sound_throw hf (userString_ne h)

theorem sound_dispatch {rules : Rules} (hr : rules.registry.OnlyBuiltins) (image : Image) (token : UInt32) :
    Sound n f (Machine.dispatch rules image token) fun _ _ => True := by
  unfold Machine.dispatch
  cases image.resolve? token with
  | none => exact sound_throw hf fun _ => by simp
  | some target =>
    cases target with
    | body m => exact sound_throw hf fun _ => by simp
    | external s =>
      simp only []
      cases h : rules.registry.lookup? s with
      | none => exact sound_throw hf fun _ => by simp
      | some handler =>
        obtain ⟨b, rfl⟩ := hr s handler h
        exact sound_invoke hf s b

theorem sound_effect {rules : Rules} (hr : rules.registry.OnlyBuiltins) (image : Image) (i : Instruction) :
    Sound n f (Machine.effect rules image i) (Move.Safe n) := by
  have stay : ∀ {x : FrameM Unit}, Sound n f x (fun _ _ => True) → Sound n f (Machine.andStay x) (Move.Safe n) :=
    fun hx => sound_bind hx fun _ _ hg _ => sound_pure hg fun _ h => by cases h
  cases i with
  | nop | br d => exact sound_pure hf fun _ h => by cases h
  | ret =>
    refine sound_of_ok rfl (.refl hf) ?_ fun {t w w' f'} _ _ he => ?_
    · intro v h
      by_cases hd : f.stack.depth = 0
      · simp [hd] at h
      · simp only [hd, if_false, Move.halt.injEq, Option.some.injEq] at h
        rw [← h]
        exact hf.nth 0 (Nat.pos_of_ne_zero hd)
    · refine ⟨f', ?_, he⟩
      simp only [Machine.effect, he.stack]
  | ldloc i => exact stay (sound_bind (sound_getLocal hf _) fun _ _ hg hv => sound_push hg hv)
  | stloc i => exact stay (sound_bind (sound_pop hf) fun _ _ hg hv => sound_setLocal hg _ hv)
  | ldloca i => exact stay (sound_bind (sound_addressOf hf _) fun _ _ hg hv => sound_push hg hv)
  | ldcI4 v | ldcR8 bits => exact stay (sound_push hf trivial)
  | call token => exact stay (sound_dispatch hf hr image token)
  | brfalse d | brtrue d => exact sound_test hf _ _ d
  | add => exact stay (sound_binary hf tame_add)
  | div => exact stay (sound_binary hf tame_div)
  | rem => exact stay (sound_binary hf tame_rem)
  | convR8 =>
    refine stay (sound_bind (sound_pop hf) fun v _ hg hv => sound_push hg ?_)
    unfold Value.toFloat
    split
    · trivial
    · exact hv
  | ldstr token => exact stay (sound_loadString hf image token)
  | ceq | cgt | clt => exact stay (sound_binary hf (tame_compare _ _))

end

/-! ## Steps -/

namespace Machine

/-- Fetching looks at the program and the count alone. -/
theorem fetch_congr (rules : Rules) {m m' : Machine} (hp : m'.program = m.program) (hx : m'.executed = m.executed) :
    (∃ e, fetch rules m = .error e m ∧ fetch rules m' = .error e m' ∧ ∀ h, e ≠ .invalidHandle h) ∨
    ∃ i next, fetch rules m = .ok (m.program.pc, i) (m.past next) ∧
      fetch rules m' = .ok (m.program.pc, i) (m'.past next) := by
  by_cases hw : m.Within rules
  · have hw' : m'.Within rules := fun limit hl => hx ▸ hw limit hl
    rcases programFetch_cases m.program with ⟨_, hf⟩ | ⟨e, _, hf⟩ | ⟨i, next, _, hf⟩
    · exact .inl ⟨_, fetch_of_error hw hf, fetch_of_error hw' (hp ▸ hf), fun _ => by simp⟩
    · exact .inl ⟨_, fetch_of_error hw hf, fetch_of_error hw' (hp ▸ hf), fun _ => by simp⟩
    · exact .inr ⟨i, next, fetch_of_ok hw hf, fetch_of_ok hw' (by rw [hp]; exact hf)⟩
  · have hw' : ¬ m'.Within rules := fun h => hw fun limit hl => hx ▸ h limit hl
    obtain ⟨limit, hl, hf⟩ := fetch_of_not_within hw
    obtain ⟨limit', hl', hf'⟩ := fetch_of_not_within hw'
    cases hl.symm.trans hl'
    exact .inl ⟨_, hf, hf', fun _ => by simp⟩

theorem branch_cases (origin : Nat) (d : Int32) (p : Program) :
    (∃ target, Program.branch origin d p = .ok () { p with pc := target }) ∨
      ∃ target, Program.branch origin d p = .error (.branchOutOfBounds origin target) p := by
  unfold Program.branch
  by_cases h : 0 ≤ (p.pc : Int) + d.toInt ∧ (p.pc : Int) + d.toInt ≤ p.method.code.size
  · exact .inl ⟨_, if_pos h⟩
  · exact .inr ⟨_, if_neg h⟩

theorem reset_settle (m : Machine) (offset : Nat) (r : EStateM.Result Fault Frame Move) :
    (left (settle m offset r)).program.reset = m.program.reset := by
  cases r with
  | error e f => rfl
  | ok v f =>
    cases v with
    | stay | halt v => rfl
    | jump d =>
      simp only [settle]
      rcases branch_cases offset d m.program with ⟨target, hb⟩ | ⟨target, hb⟩
      · rw [hb]
        rfl
      · rw [hb]
        rfl

/-- A step moves the counter and leaves the rest of the program alone. -/
theorem reset_step (rules : Rules) (m : Machine) : (left (step rules m)).program.reset = m.program.reset := by
  rcases step_cases rules m with ⟨e, _, hs⟩ | ⟨i, next, _, hs⟩
  · rw [hs]
    rfl
  · rw [hs, reset_settle]
    rfl

section
variable {n : Nat} {rules : Rules} (hr : rules.registry.OnlyBuiltins)
include hr

theorem kept_step {m : Machine} (hm : m.frame.WellFormed n) : Kept n m.frame (left (step rules m)).frame := by
  rcases step_cases rules m with ⟨e, _, hs⟩ | ⟨i, next, _, hs⟩
  · rw [hs]
    exact .refl hm
  · rw [hs, left_settle]
    exact (sound_effect hm hr m.program.image i).outcome.kept

theorem halt_step {m m' : Machine} (hm : m.frame.WellFormed n) {v : Value}
    (h : step rules m = .ok (.halt (some v)) m') : v.WellFormed n m'.frame.strings.size := by
  rcases step_cases rules m with ⟨e, _, hs⟩ | ⟨i, next, _, hs⟩
  · rw [hs] at h
    cases h
  · have hout := (sound_effect hm hr m.program.image i).outcome
    rw [hs] at h
    cases he : effect rules m.program.image i m.frame with
    | error e f =>
      rw [he] at h
      cases h
    | ok move f =>
      rw [he] at h hout
      cases move with
      | stay => cases h
      | jump d =>
        simp only [settle] at h
        split at h <;> cases h
      | halt u =>
        cases h
        exact hout.2 v rfl

theorem error_step {m m' : Machine} (hm : m.frame.WellFormed n) {e : Fault} (h : step rules m = .error e m') :
    ∀ handle, e ≠ .invalidHandle handle := by
  rcases fetch_congr rules (m := m) rfl rfl with ⟨e', hf, _, hne⟩ | ⟨i, next, hf, _⟩
  · rw [step_of_fetch_error hf] at h
    cases h
    exact hne
  · have hout := (sound_effect hm hr m.program.image i).outcome
    rw [step_of_fetch hf] at h
    cases he : effect rules m.program.image i m.frame with
    | error e' f =>
      rw [he] at h hout
      cases h
      exact hout.2
    | ok move f =>
      rw [he] at h
      cases move with
      | stay | halt v => cases h
      | jump d =>
        simp only [settle] at h
        rcases branch_cases m.program.pc d (m.past next).program with ⟨target, hb⟩ | ⟨target, hb⟩
        · rw [hb] at h
          cases h
        · rw [hb] at h
          cases h
          simp

structure Echo (t : StringTable) (w w' : Array UInt8) (m m' : Machine) : Prop where
  program : m'.program = m.program
  executed : m'.executed = m.executed
  frame : StackVm.Echo t w w' m.frame m'.frame

omit hr in
theorem settle_alike {t : StringTable} {w w' : Array UInt8} {m m' : Machine} (offset : Nat)
    {r r' : EStateM.Result Fault Frame Move} (hp : m'.program = m.program) (hx : m'.executed = m.executed)
    (h : Alike (StackVm.Echo t w w') r r') : Alike (Echo t w w') (settle m offset r) (settle m' offset r') := by
  cases h with
  | error e hf => exact .error e ⟨hp, hx, hf⟩
  | ok v hf =>
    cases v with
    | stay => exact .ok Signal.next ⟨hp, hx, hf⟩
    | halt v => exact .ok (Signal.halt v) ⟨hp, hx, hf⟩
    | jump d =>
      simp only [settle, hp]
      cases Program.branch offset d m.program with
      | ok a p => exact .ok Signal.next ⟨rfl, hx, hf⟩
      | error e p => exact .error e ⟨rfl, hx, hf⟩

theorem echo_step {t : StringTable} {w w' : Array UInt8} {m m' : Machine} (hm : m.frame.WellFormed n)
    (ht : t.Consistent) (hw : (left (step rules m)).frame.strings.Extends t) (he : Echo t w w' m m') :
    Alike (Echo t w w') (step rules m) (step rules m') := by
  rcases fetch_congr rules he.program he.executed with ⟨e, hf, hf', _⟩ | ⟨i, next, hf, hf'⟩
  · rw [step_of_fetch_error hf, step_of_fetch_error hf']
    exact .error e he
  · rw [← he.program] at hf'
    rw [step_of_fetch hf, left_settle] at hw
    rw [step_of_fetch hf, step_of_fetch hf', he.program]
    refine settle_alike _ ?_ ?_ ((sound_effect hm hr m.program.image i).echo ht hw he.frame)
    · simp only [past, he.program]
    · simp only [past, he.executed]

/-! ## Runs -/

theorem kept_reaches {m₀ m : Machine} (h₀ : m₀.frame.WellFormed n) (h : Reaches rules m₀ m) :
    Kept n m₀.frame m.frame := by
  induction h with
  | refl => exact .refl h₀
  | step _ hs ih =>
    have hk := kept_step hr ih.wellFormed
    rw [hs] at hk
    exact ih.trans hk

omit hr in
theorem reset_reaches {m₀ m : Machine} (h : Reaches rules m₀ m) : m.program.reset = m₀.program.reset := by
  induction h with
  | refl => rfl
  | @step m₁ m₂ _ hs ih =>
    have hp := reset_step rules m₁
    rw [hs] at hp
    exact hp.trans ih

omit hr in
/-- A run that ends goes on to the same end from every machine on its way. -/
theorem run_of_reaches {m₀ m : Machine} {fuel : Nat} {x : Except Fault (Option Value) × Machine}
    (h : Reaches rules m₀ m) (hx : run rules fuel m₀ = some x) : ∃ fuel', run rules fuel' m = some x := by
  induction h with
  | refl => exact ⟨fuel, hx⟩
  | step _ hs ih =>
    obtain ⟨fuel', hf⟩ := ih
    cases fuel' with
    | zero => cases hf
    | succ k =>
      unfold run at hf
      rw [hs] at hf
      exact ⟨k, hf⟩

/-- What a run that has ended leaves behind. -/
theorem of_run {fuel : Nat} {m m' : Machine} {r : Except Fault (Option Value)} (hm : m.frame.WellFormed n)
    (h : run rules fuel m = some (r, m')) :
    Kept n m.frame m'.frame ∧ m'.program.reset = m.program.reset ∧
      (∀ v, r = .ok (some v) → v.WellFormed n m'.frame.strings.size) ∧
      ∀ handle, r ≠ .error (.invalidHandle handle) := by
  obtain ⟨m₁, hm₁, hend⟩ := exists_of_run h
  have hk := kept_reaches hr hm hm₁
  have hk' := kept_step hr hk.wellFormed
  have hp := reset_step rules m₁
  rcases hend with ⟨v, hs, rfl⟩ | ⟨e, hs, rfl⟩
  · rw [hs] at hk' hp
    refine ⟨hk.trans hk', hp.trans (reset_reaches hm₁), ?_, fun _ => by simp⟩
    rintro u hu
    cases hu
    exact halt_step hr hk.wellFormed hs
  · rw [hs] at hk' hp
    refine ⟨hk.trans hk', hp.trans (reset_reaches hm₁), fun _ hu => (by cases hu), ?_⟩
    rintro handle hu
    cases hu
    exact error_step hr hk.wellFormed hs handle rfl

theorem echo_run {t : StringTable} {w w' : Array UInt8} (ht : t.Consistent) {fuel : Nat} {m m' m₁ : Machine}
    {r : Except Fault (Option Value)} (hm : m.frame.WellFormed n) (h : run rules fuel m = some (r, m₁))
    (hw : m₁.frame.strings.Extends t) (he : Echo t w w' m m') :
    ∃ m₁', run rules fuel m' = some (r, m₁') ∧ Echo t w w' m₁ m₁' := by
  induction fuel generalizing m m' with
  | zero => cases h
  | succ fuel ih =>
    have hk := kept_step hr hm
    have halike := fun hw' => echo_step hr hm ht hw' he
    unfold run at h ⊢
    generalize step rules m = s at h hk halike
    generalize step rules m' = s' at halike
    cases s with
    | error e m₂ =>
      cases h
      cases halike hw with
      | error _ he' => exact ⟨_, rfl, he'⟩
    | ok signal m₂ =>
      cases signal with
      | halt v =>
        cases h
        cases halike hw with
        | ok _ he' => exact ⟨_, rfl, he'⟩
      | next =>
        -- the rest of the run only adds texts, so those of this step are in `t` as well
        have hm₂ : m₂.frame.WellFormed n := hk.wellFormed
        have hgrown := (of_run hr hm₂ h).1.strings
        cases halike (hgrown.trans hw) with
        | ok _ he' => exact ih hm₂ h he'

end

end Machine

end StackVm
