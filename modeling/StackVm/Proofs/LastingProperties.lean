import StackVm.Proofs.FrameInvariant
import StackVm.Proofs.LifeCycle

/-!
# What interpreters keep through a session

A property of frames that a fresh interpreter has and that handlers, instructions
and loads keep (`Lasting`) holds of every interpreter after every history of whole
commands. A program that waits to be run is as it was loaded after every history.
-/

namespace StackVm

structure Lasting (I : Frame → Prop) : Prop extends FrameInvariant I where
  fresh : ∀ (limit : Option Nat) (host : Host), I ((Interpreter.ofLimit limit).frame host)
  load : ∀ {i : Interpreter} {host : Host} (p : Program), I (i.frame host) → I ((i.load p).frame host)

namespace Session

def Has (I : Frame → Prop) (s : Session) : Prop :=
  ∀ (k : Nat) (i : Interpreter), s.interpreters[k]? = some i → ∀ host, I (i.frame host)

variable {I : Frame → Prop} {s s' : Session}

theorem Unused.has (h : s.Unused) (hI : Lasting I) : s.Has I := by
  intro k i hi host
  obtain ⟨limit, rfl⟩ := h k i hi
  exact hI.fresh limit host

theorem Has.interpreter (h : s.Has I) (hI : Lasting I) (host : Host) : I (s.interpreter.frame host) := by
  rcases interpreter_cases s with hi | hi
  · exact h _ _ hi host
  · rw [hi]
    exact hI.fresh none host

theorem Has.update (h : s.Has I) {i : Interpreter} (hi : ∀ host, I (i.frame host)) : (s.update i).Has I := by
  intro k j hj
  rcases getElem?_update_cases hj with ⟨_, rfl⟩ | hj
  · exact hi
  · exact h k j hj

theorem Has.perform (h : s.Has I) (hI : Lasting I) {fuel : Nat} {c : Command} {answer : Answer}
    (hp : s.perform fuel c = some (answer, s')) : s'.Has I := by
  rcases interpreters_perform hp with ⟨_, p, rfl⟩ | ⟨_, r, _, hr⟩ | ⟨_, _, hi⟩
  · exact h.update fun host => hI.load p (h.interpreter hI host)
  · rcases run_cases hr with ⟨_, _, rfl⟩ | ⟨p, m, _, hm, rfl⟩
    · exact h
    · have hkept := keeps_run hI.toFrameInvariant (h.interpreter hI s.host) hm
      exact h.update fun host => hI.host host hkept
  · intro k i hk
    rw [hi] at hk
    exact h k i hk

end Session

theorem History.has {I : Frame → Prop} (hI : Lasting I) {s₀ s : Session} {past : List (Session × Event)}
    (h₀ : s₀.Unused) (h : History s₀ past s) (hw : ∀ x ∈ past, x.2.isCommand = true) : s.Has I := by
  induction h with
  | start => exact h₀.has hI
  | event _ he ih =>
    have ih := ih fun x hx => hw x (List.mem_append_left _ hx)
    cases he with
    | command fuel hp => exact ih.perform hI hp
    | began _ | ended _ =>
      have := hw _ (List.mem_append_right _ (List.mem_singleton_self _))
      cases this

theorem lasting_consistent : Lasting fun f => f.strings.Consistent where
  pushed _ h _ := h
  dropped h _ := h
  stored _ h _ := h
  strings text h := h.intern text
  host _ h := h
  fresh _ _ := StringTable.consistent_empty
  load _ h := h

theorem History.loaded {s₀ s : Session} {past : List (Session × Event)} (h₀ : s₀.Unused) (h : History s₀ past s)
    {k : Nat} {i : Interpreter} (hi : s.interpreters[k]? = some i) : i.Loaded := by
  induction h generalizing k i with
  | start =>
    obtain ⟨limit, rfl⟩ := h₀ k i hi
    exact Interpreter.loaded_of_phase_ne (by simp [Interpreter.ofLimit])
  | @event past s s' e _ he ih =>
    have hupdate : ∀ {j : Interpreter}, j.Loaded → (s.update j).interpreters[k]? = some i → i.Loaded := by
      intro j hj hi
      rcases Session.getElem?_update_cases hi with ⟨_, rfl⟩ | hi
      · exact hj
      · exact ih hi
    cases he with
    | began _ => exact hupdate (Interpreter.loaded_of_phase_ne (by simp [Interpreter.begun])) hi
    | @ended r m _ => exact hupdate (Interpreter.loaded_of_phase_ne (by cases r <;> simp [Interpreter.finish])) hi
    | command fuel hp =>
      rcases Session.interpreters_perform hp with ⟨_, p, rfl⟩ | ⟨_, r, _, hr⟩ | ⟨_, _, hsame⟩
      · exact hupdate (Interpreter.loaded_load _ p) hi
      · rcases Session.run_cases hr with ⟨_, _, rfl⟩ | ⟨p, m, _, _, rfl⟩
        · exact ih hi
        · exact hupdate (Interpreter.loaded_of_phase_ne (by cases r <;> simp [Interpreter.holding, Phase.ending])) hi
      · rw [hsame] at hi
        exact ih hi

end StackVm
