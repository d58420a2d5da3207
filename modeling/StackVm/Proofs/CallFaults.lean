import StackVm.Proofs.Arithmetic
import StackVm.Proofs.BlobFormat
import StackVm.Proofs.Comparison
import StackVm.Proofs.SoundRuns

/-!
# Faults of calls

Some faults are raised by calls alone (`Fault.OfCall`). Every other instruction is
put together from operations that raise none of them (`Callless`), and neither
fetching nor branching does.
-/

namespace StackVm

def Fault.OfCall : Fault → Prop
  | plugEffect _ _ | unresolvedCall _ _ | managedCall _ | plug _ => True
  | _ => False

def Callless {α : Type} (x : FrameM α) : Prop := ∀ f e g, x f = .error e g → ¬ e.OfCall

section
variable {α β : Type}

theorem callless_pure (a : α) : Callless (pure a : FrameM α) := by
  intro f e g h
  cases h

theorem callless_throw {e : Fault} (he : ¬ e.OfCall) : Callless (throw e : FrameM α) := by
  intro f e' g h
  cases h
  exact he

theorem callless_bind {x : FrameM α} {k : α → FrameM β} (hx : Callless x) (hk : ∀ a, Callless (k a)) :
    Callless (x >>= k) := by
  intro f e g h
  cases hr : x f with
  | ok a f' =>
    rw [bind_of_ok hr] at h
    exact hk a f' e g h
  | error e' f' =>
    rw [bind_of_error hr] at h
    cases h
    exact hx f _ _ hr

theorem callless_of_cases {x : FrameM α} (h : ∀ f, (∃ a g, x f = .ok a g) ∨ ∃ e g, x f = .error e g ∧ ¬ e.OfCall) :
    Callless x := by
  intro f e g hx
  rcases h f with ⟨a, g', hok⟩ | ⟨e', g', herr, he⟩
  · cases hx.symm.trans hok
  · cases hx.symm.trans herr
    exact he

theorem callless_push (v : Value) : Callless (Frame.push v) := by
  apply callless_of_cases
  intro f
  rcases Nat.lt_or_ge f.stack.depth f.stack.capacity with h | h
  · exact .inl ⟨_, _, Frame.push_of_lt h⟩
  · exact .inr ⟨_, _, Frame.push_of_le h, id⟩

theorem callless_pop : Callless Frame.pop := by
  apply callless_of_cases
  intro f
  rcases Nat.eq_zero_or_pos f.stack.depth with h | h
  · exact .inr ⟨_, _, Frame.pop_of_zero h, id⟩
  · exact .inl ⟨_, _, Frame.pop_of_pos h⟩

theorem callless_pop2 : Callless Frame.pop2 := by
  apply callless_of_cases
  intro f
  rcases Nat.lt_or_ge f.stack.depth 2 with h | h
  · exact .inr ⟨_, _, Frame.pop2_of_lt h, id⟩
  · exact .inl ⟨_, _, Frame.pop2_of_le h⟩

theorem callless_getLocal (i : Nat) : Callless (Frame.getLocal i) := by
  apply callless_of_cases
  intro f
  rcases Nat.lt_or_ge i f.locals.size with h | h
  · exact .inl ⟨_, _, Frame.getLocal_of_lt h⟩
  · exact .inr ⟨_, _, Frame.getLocal_of_le h, id⟩

theorem callless_addressOf (i : Nat) : Callless (Frame.addressOf i) := by
  apply callless_of_cases
  intro f
  rcases Nat.lt_or_ge i f.locals.size with h | h
  · exact .inl ⟨_, _, Frame.addressOf_of_lt h⟩
  · exact .inr ⟨_, _, Frame.addressOf_of_le h, id⟩

theorem callless_setLocal (i : Nat) (v : Value) : Callless (Frame.setLocal i v) := by
  apply callless_of_cases
  intro f
  rcases Nat.lt_or_ge i f.locals.size with h | h
  · exact .inl ⟨_, _, Frame.setLocal_of_lt h⟩
  · exact .inr ⟨_, _, Frame.setLocal_of_le h, id⟩

end

/-! ## Instructions -/

theorem callless_binary {op : Value → Value → Except Fault Value}
    (h : ∀ a b e, op a b = .error e → ¬ e.OfCall) : Callless (Machine.binary op) := by
  apply callless_bind callless_pop2
  rintro ⟨a, b⟩
  cases hr : op a b with
  | ok v =>
    simp only [hr]
    exact callless_push v
  | error e =>
    simp only [hr]
    exact callless_throw (h a b e hr)

theorem callless_arithmetic (op : Arithmetic) : Callless (Machine.binary op.apply) := by
  apply callless_binary
  intro a b e h
  rcases op.apply_cases a b with he | ⟨_, _, he⟩
  · rw [he] at h
    cases h
    unfold Value.refuse
    split <;> exact id
  · rw [he e h]
    exact id

theorem callless_comparison (op : Operation) (wanted : Ordering) : Callless (Machine.comparison op wanted) := by
  apply callless_binary
  intro a b e h
  cases hc : a.compare op b with
  | ok o =>
    rw [hc] at h
    cases h
  | error e' =>
    rw [hc] at h
    cases h
    rw [((Value.compare_eq_error_iff op).mp hc).2]
    exact id

theorem callless_test (op : Operation) (wanted : Int) (d : Int32) : Callless (Machine.test op wanted d) := by
  apply callless_bind
  · apply callless_bind callless_pop
    intro v
    cases v.integer? with
    | none => exact callless_throw id
    | some n => exact callless_pure n
  · intro n
    split
    · exact callless_pure _
    · exact callless_pure _

theorem not_ofCall_of_userString {image : Image} {token : UInt16} {e : Fault} (h : image.userString token = .error e) :
    ¬ e.OfCall := by
  unfold Image.userString at h
  split at h
  · generalize Array.toList _ = bytes at h
    rcases decode_cases token bytes with ⟨_, _, _, _, _, hd⟩ | ⟨_, _, _, _, hd⟩ | ⟨_, hd⟩
    · cases h.symm.trans hd
    · cases h.symm.trans hd
      exact id
    · cases h.symm.trans hd
      exact id
  · cases h
    exact id

theorem callless_loadString (image : Image) (token : UInt16) : Callless (Machine.loadString image token) := by
  intro f e g h
  unfold Machine.loadString at h
  cases hu : image.userString token with
  | ok text =>
    simp only [hu] at h
    have hpush : Callless (Frame.pushString text) := by
      apply callless_bind
      · intro f e g h
        cases h
      · intro handle
        exact callless_push _
    exact hpush f e g h
  | error e' =>
    simp only [hu] at h
    cases h
    exact not_ofCall_of_userString hu

theorem callless_effect (rules : Rules) (image : Image) {i : Instruction} (hi : ∀ token, i ≠ .call token) :
    Callless (Machine.effect rules image i) := by
  have stay : ∀ {x : FrameM Unit}, Callless x → Callless (Machine.andStay x) := fun hx =>
    callless_bind hx fun _ => callless_pure _
  cases i with
  | call token => exact absurd rfl (hi token)
  | nop | br d => exact callless_pure _
  | ret =>
    intro f e g h
    cases h
  | ldloc i => exact stay (callless_bind (callless_getLocal _) fun v => callless_push v)
  | stloc i => exact stay (callless_bind callless_pop fun v => callless_setLocal _ v)
  | ldloca i => exact stay (callless_bind (callless_addressOf _) fun v => callless_push v)
  | ldcI4 v | ldcR8 bits => exact stay (callless_push _)
  | brfalse d | brtrue d => exact callless_test _ _ d
  | add => exact stay (callless_arithmetic .add)
  | div => exact stay (callless_arithmetic .div)
  | rem => exact stay (callless_arithmetic .rem)
  | convR8 => exact stay (callless_bind callless_pop fun v => callless_push v.toFloat)
  | ldstr token => exact stay (callless_loadString image token)
  | ceq | cgt | clt => exact stay (callless_comparison _ _)

/-! ## Steps -/

theorem Machine.not_ofCall_of_fetch {rules : Rules} {m m' : Machine} {e : Fault} (h : fetch rules m = .error e m') :
    ¬ e.OfCall := by
  by_cases hw : m.Within rules
  · rcases programFetch_cases m.program with ⟨_, hf⟩ | ⟨e', _, hf⟩ | ⟨i, next, _, hf⟩
    · cases h.symm.trans (fetch_of_error hw hf)
      exact id
    · cases h.symm.trans (fetch_of_error hw hf)
      exact id
    · cases h.symm.trans (fetch_of_ok hw hf)
  · obtain ⟨limit, _, hl⟩ := fetch_of_not_within hw
    cases h.symm.trans hl
    exact id

theorem Machine.exists_call_of_step {rules : Rules} {m m' : Machine} {e : Fault} (h : step rules m = .error e m')
    (he : e.OfCall) : ∃ offset token m₁, fetch rules m = .ok (offset, .call token) m₁ := by
  rcases step_cases rules m with ⟨e', hf, hs⟩ | ⟨i, next, hf, hs⟩
  · cases h.symm.trans hs
    exact absurd he (not_ofCall_of_fetch hf)
  · by_cases hi : ∃ token, i = .call token
    · obtain ⟨token, rfl⟩ := hi
      exact ⟨_, token, _, hf⟩
    · have hcallless := callless_effect rules m.program.image (fun token ht => hi ⟨token, ht⟩) m.frame
      rw [hs] at h
      cases heffect : effect rules m.program.image i m.frame with
      | error e' f =>
        rw [heffect] at h
        cases h
        exact absurd he (hcallless _ _ heffect)
      | ok move f =>
        rw [heffect] at h
        cases move with
        | stay | halt v => cases h
        | jump d =>
          simp only [settle] at h
          rcases branch_cases m.program.pc d (m.past next).program with ⟨target, hb⟩ | ⟨target, hb⟩
          · rw [hb] at h
            cases h
          · rw [hb] at h
            cases h
            exact absurd he id

end StackVm
