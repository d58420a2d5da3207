import StackVm.Proofs.Budget
import StackVm.Proofs.SoundRuns
import StackVm.Proofs.StackDiscipline

/-!
# Calls of external methods

A call looks for a handler (`admission`) and then runs it between two readings of
the depth (`conduct`). Which handler it runs is decided by the image, the
registry and the kinds of the topmost values (`Admissible`); a call that runs
none leaves the frame as it was, and one that runs a handler succeeds only if
the handler kept to the signature (`Judged`).
-/

namespace StackVm

/-! ## Arguments -/

namespace OperandStack

variable {s : OperandStack} {n : Nat}

theorem length_topmost (hn : n ≤ s.depth) (hd : s.depth ≤ s.capacity) : (s.topmost n).toList.length = n := by
  have hsize : s.depth ≤ s.slots.size := hd
  simp only [topmost, Array.length_toList, Array.size_extract]
  omega

theorem getElem?_topmost (hn : n ≤ s.depth) (k : Nat) : (s.topmost n).toList[k]? = s.values[s.depth - n + k]? := by
  simp only [topmost, values, Array.getElem?_toList, Array.getElem?_extract]
  by_cases hk : k < min s.depth s.slots.size - (s.depth - n)
  · rw [if_pos hk, if_pos (by omega)]
    congr 1
    omega
  · rw [if_neg hk, if_neg (by omega)]

end OperandStack

theorem Frame.depth_eq (f : Frame) : Frame.depth f = .ok f.stack.depth f := rfl

namespace Signature

/-- The arguments are on the stack, and those that are declared have the declared kinds. -/
def Fits (s : Signature) (stack : OperandStack) : Prop :=
  s.arity ≤ stack.depth ∧ ∀ (k : Nat) (kind : Kind), s.params[k]? = some kind →
    ∃ v, stack.values[stack.depth - s.params.length + k]? = some v ∧ v.kind = kind

theorem mismatch?_eq_none_iff {ks : List Kind} {vs : List Value} (hl : ks.length = vs.length) :
    mismatch? ks vs = none ↔
      ∀ (k : Nat) (kind : Kind), ks[k]? = some kind → ∃ v, vs[k]? = some v ∧ v.kind = kind := by
  induction ks generalizing vs with
  | nil => simp [mismatch?]
  | cons kind ks ih =>
    cases vs with
    | nil => simp at hl
    | cons v vs =>
      have ih := ih (Nat.succ.inj hl)
      simp only [mismatch?]
      by_cases hk : v.kind = kind
      · rw [if_pos hk, ih]
        constructor
        · intro h k
          cases k with
          | zero => simp [hk]
          | succ k => simpa using h k
        · intro h k
          simpa using h (k + 1)
      · rw [if_neg hk]
        constructor
        · intro h
          cases h
        · intro h
          exact absurd (by simpa using h 0 kind rfl) hk

theorem exists_of_mismatch? {ks : List Kind} {vs : List Value} {e : Fault} (h : mismatch? ks vs = some e) :
    ∃ (k : Nat) (kind : Kind) (v : Value), ks[k]? = some kind ∧ vs[k]? = some v ∧ v.kind ≠ kind ∧
      e = .typeMismatch .call kind v.kind := by
  induction ks generalizing vs with
  | nil => cases h
  | cons kind ks ih =>
    cases vs with
    | nil => cases h
    | cons v vs =>
      simp only [mismatch?] at h
      by_cases hk : v.kind = kind
      · rw [if_pos hk] at h
        obtain ⟨k, kind', v', hks, hvs, hne, he⟩ := ih h
        exact ⟨k + 1, kind', v', hks, hvs, hne, he⟩
      · rw [if_neg hk] at h
        cases h
        exact ⟨0, kind, v, rfl, rfl, hk, rfl⟩

theorem params_le_arity (s : Signature) : s.params.length ≤ s.arity := Nat.le_add_right _ _

section
variable {s : Signature} {f : Frame} (hd : f.stack.depth ≤ f.stack.capacity)
include hd

theorem mismatch?_topmost_iff (hle : s.arity ≤ f.stack.depth) :
    mismatch? s.params (f.stack.topmost s.params.length).toList = none ↔ s.Fits f.stack := by
  have hp := Nat.le_trans s.params_le_arity hle
  rw [mismatch?_eq_none_iff (OperandStack.length_topmost hp hd).symm]
  simp only [OperandStack.getElem?_topmost hp, Fits, hle, true_and]

theorem checkArguments_of_fits (h : s.Fits f.stack) : s.checkArguments f = .ok () f := by
  unfold checkArguments
  rw [if_neg (Nat.not_lt.mpr h.1), (mismatch?_topmost_iff hd h.1).mpr h]

theorem checkArguments_of_not_fits (h : ¬ s.Fits f.stack) (hle : s.arity ≤ f.stack.depth) :
    ∃ (k : Nat) (kind : Kind) (v : Value), s.params[k]? = some kind ∧
      f.stack.values[f.stack.depth - s.params.length + k]? = some v ∧ v.kind ≠ kind ∧
      s.checkArguments f = .error (.typeMismatch .call kind v.kind) f := by
  unfold checkArguments
  rw [if_neg (Nat.not_lt.mpr hle)]
  cases hm : mismatch? s.params (f.stack.topmost s.params.length).toList with
  | none => exact absurd ((mismatch?_topmost_iff hd hle).mp hm) h
  | some e =>
    obtain ⟨k, kind, v, hks, hvs, hne, rfl⟩ := exists_of_mismatch? hm
    rw [OperandStack.getElem?_topmost (Nat.le_trans s.params_le_arity hle)] at hvs
    exact ⟨k, kind, v, hks, hvs, hne, rfl⟩

end

/-! ## Results -/

structure Judged (s : Signature) (before : Nat) (f : Frame) (r : EStateM.Result Fault Frame Unit) : Prop where
  effect : f.stack.depth ≠ before - s.arity + s.results →
    r = .error (.plugEffect (before - s.arity + s.results) f.stack.depth) f
  kind : f.stack.depth = before - s.arity + s.results → ∀ k, s.returns = some k → (f.stack.nth 0).kind ≠ k →
    r = .error (.typeMismatch .call k (f.stack.nth 0).kind) f
  good : f.stack.depth = before - s.arity + s.results → (∀ k, s.returns = some k → (f.stack.nth 0).kind = k) →
    r = .ok () f

section
variable {s : Signature} {before : Nat} {f : Frame}

theorem checkResult_of_depth_ne (hd : f.stack.depth ≠ before - s.arity + s.results) :
    s.checkResult before f = .error (.plugEffect (before - s.arity + s.results) f.stack.depth) f := by
  unfold checkResult
  rw [bind_of_ok (Frame.depth_eq f)]
  simp only [ne_eq, hd, not_false_eq_true, if_true]
  rfl

theorem checkResult_of_void (hd : f.stack.depth = before - s.arity + s.results) (hr : s.returns = none) :
    s.checkResult before f = .ok () f := by
  unfold checkResult
  rw [bind_of_ok (Frame.depth_eq f)]
  simp only [ne_eq, hd, not_true_eq_false, if_false, hr]
  rfl

theorem checkResult_of_some {k : Kind} (hd : f.stack.depth = before - s.arity + s.results) (hr : s.returns = some k) :
    s.checkResult before f =
      if (f.stack.nth 0).kind = k then .ok () f else .error (.typeMismatch .call k (f.stack.nth 0).kind) f := by
  -- there is a result, so the stack is not empty
  have hpos : 0 < f.stack.depth := by simp [hd, results, hr]
  unfold checkResult
  rw [bind_of_ok (Frame.depth_eq f)]
  simp only [ne_eq, hd, not_true_eq_false, if_false, hr]
  show (Frame.peek >>= _) f = _
  rw [bind_of_ok (Frame.peek_of_pos hpos)]
  by_cases hk : (f.stack.nth 0).kind = k
  · simp only [hk, not_true_eq_false, if_false, if_true]
    rfl
  · simp only [hk, not_false_eq_true, if_true, if_false]
    rfl

end

theorem judged_checkResult (s : Signature) (before : Nat) (f : Frame) : s.Judged before f (s.checkResult before f) where
  effect := checkResult_of_depth_ne
  kind hd k hr hk := by rw [checkResult_of_some hd hr, if_neg hk]
  good hd hk := by
    cases hr : s.returns with
    | none => exact checkResult_of_void hd hr
    | some k => rw [checkResult_of_some hd hr, if_pos (hk k hr)]

theorem Judged.of_ok {s : Signature} {before : Nat} {f g : Frame} {r : EStateM.Result Fault Frame Unit}
    (h : s.Judged before f r) (hr : r = .ok () g) :
    g = f ∧ f.stack.depth = before - s.arity + s.results ∧ ∀ k, s.returns = some k → (f.stack.nth 0).kind = k := by
  by_cases hd : f.stack.depth = before - s.arity + s.results
  · have hk : ∀ k, s.returns = some k → (f.stack.nth 0).kind = k := by
      intro k hk
      by_cases hne : (f.stack.nth 0).kind = k
      · exact hne
      · rw [h.kind hd k hk hne] at hr
        cases hr
    rw [h.good hd hk] at hr
    cases hr
    exact ⟨rfl, hd, hk⟩
  · rw [h.effect hd] at hr
    cases hr

/-- The part of a call that begins with the run of its handler. -/
def conduct (s : Signature) (h : Handler) : FrameM Unit := do
  let before ← Frame.depth
  h.run
  s.checkResult before

theorem conduct_of_error {s : Signature} {h : Handler} {f g : Frame} {e : Fault} (hr : h.run f = .error e g) :
    s.conduct h f = .error e g := by
  unfold conduct
  rw [bind_of_ok (Frame.depth_eq f), bind_of_error hr]

theorem conduct_of_ok {s : Signature} {h : Handler} {f g : Frame} (hr : h.run f = .ok () g) :
    s.conduct h f = s.checkResult f.stack.depth g := by
  unfold conduct
  rw [bind_of_ok (Frame.depth_eq f), bind_of_ok hr]

end Signature

/-! ## Handlers -/

section
variable (registry : Registry) (image : Image) (token : UInt32) (f : Frame)

structure Admissible (s : Signature) (h : Handler) : Prop where
  resolved : image.resolve? token = some (.external s)
  registered : registry.lookup? s = some h
  fits : s.Fits f.stack

inductive Refusal : Fault → Prop
  | unresolved : image.resolve? token = none → Refusal (.unresolvedCall token none)
  | managed {m : Method} : image.resolve? token = some (.body m) → Refusal (.managedCall token)
  | unregistered {s : Signature} : image.resolve? token = some (.external s) → registry.lookup? s = none →
      Refusal (.unresolvedCall token (some s))
  | underflow {s : Signature} {h : Handler} : image.resolve? token = some (.external s) →
      registry.lookup? s = some h → f.stack.depth < s.arity → Refusal (.underflow s.arity f.stack.depth)
  | mismatch {s : Signature} {h : Handler} {k : Nat} {kind : Kind} {v : Value} :
      image.resolve? token = some (.external s) → registry.lookup? s = some h → s.arity ≤ f.stack.depth →
      s.params[k]? = some kind → f.stack.values[f.stack.depth - s.params.length + k]? = some v → v.kind ≠ kind →
      Refusal (.typeMismatch .call kind v.kind)

end

namespace Machine

def admission (rules : Rules) (image : Image) (token : UInt32) : FrameM (Signature × Handler) := fun f =>
  match image.resolve? token with
  | none => .error (.unresolvedCall token none) f
  | some (.body _) => .error (.managedCall token) f
  | some (.external s) =>
    match rules.registry.lookup? s with
    | none => .error (.unresolvedCall token (some s)) f
    | some h =>
      match s.checkArguments f with
      | .ok _ f => .ok (s, h) f
      | .error e f => .error e f

theorem dispatch_eq (rules : Rules) (image : Image) (token : UInt32) (f : Frame) :
    dispatch rules image token f = (admission rules image token >>= fun x => x.1.conduct x.2) f := by
  unfold dispatch
  show _ = EStateM.bind _ _ f
  unfold EStateM.bind admission
  cases image.resolve? token with
  | none => rfl
  | some t =>
    cases t with
    | body m => rfl
    | external s =>
      simp only []
      cases rules.registry.lookup? s with
      | none => rfl
      | some h =>
        simp only [Signature.invoke]
        cases hc : s.checkArguments f with
        | error e g => rw [bind_of_error hc]
        | ok u g => rw [bind_of_ok hc]; rfl

section
variable {registry : Registry} {limit : Option Nat} {image : Image} {token : UInt32} {f : Frame}
variable (hd : f.stack.depth ≤ f.stack.capacity)
include hd

theorem admission_of_admissible {s : Signature} {h : Handler} (ha : Admissible registry image token f s h) :
    admission ⟨registry, limit⟩ image token f = .ok (s, h) f := by
  simp only [admission, ha.resolved, ha.registered, Signature.checkArguments_of_fits hd ha.fits]

theorem admission_of_not_admissible (limit : Option Nat) (hn : ¬ ∃ s h, Admissible registry image token f s h) :
    ∃ e, Refusal registry image token f e ∧ admission ⟨registry, limit⟩ image token f = .error e f := by
  unfold admission
  cases hr : image.resolve? token with
  | none => exact ⟨_, .unresolved hr, rfl⟩
  | some t =>
    cases t with
    | body m => exact ⟨_, .managed hr, rfl⟩
    | external s =>
      simp only []
      cases hl : registry.lookup? s with
      | none => exact ⟨_, .unregistered hr hl, rfl⟩
      | some h =>
        simp only []
        by_cases hlt : f.stack.depth < s.arity
        · rw [checkArguments_of_lt hlt]
          exact ⟨_, .underflow hr hl hlt, rfl⟩
        · have hfits : ¬ s.Fits f.stack := fun hfits => hn ⟨s, h, hr, hl, hfits⟩
          have hle := Nat.not_lt.mp hlt
          obtain ⟨k, kind, v, hks, hvs, hne, hc⟩ := Signature.checkArguments_of_not_fits hd hfits hle
          rw [hc]
          exact ⟨_, .mismatch hr hl hle hks hvs hne, rfl⟩

theorem admission_eq_ok_iff {s : Signature} {h : Handler} :
    (∃ g, admission ⟨registry, limit⟩ image token f = .ok (s, h) g) ↔ Admissible registry image token f s h := by
  constructor
  · rintro ⟨g, hg⟩
    by_cases ha : ∃ s h, Admissible registry image token f s h
    · obtain ⟨s', h', ha⟩ := ha
      rw [admission_of_admissible hd ha] at hg
      cases hg
      exact ha
    · obtain ⟨e, _, he⟩ := admission_of_not_admissible hd limit ha
      rw [he] at hg
      cases hg
  · intro ha
    exact ⟨f, admission_of_admissible hd ha⟩

end

def answer (m : Machine) : EStateM.Result Fault Frame Unit → EStateM.Result Fault Machine Signal
  | .ok _ f => .ok .next { m with frame := f }
  | .error e f => .error e { m with frame := f }

theorem step_call {rules : Rules} {m m₁ : Machine} {offset : Nat} {token : UInt32}
    (h : fetch rules m = .ok (offset, .call token) m₁) :
    step rules m = answer m₁ (dispatch rules m.program.image token m.frame) := by
  rcases fetch_cases rules m with ⟨e, he⟩ | ⟨i, next, hi⟩
  · rw [he] at h
    cases h
  · rw [h] at hi
    cases hi
    rw [step_of_fetch h]
    show settle _ _ (andStay _ _) = _
    unfold andStay
    cases hx : dispatch rules m.program.image token m.frame with
    | ok u f => rw [bind_of_ok hx]; rfl
    | error e f => rw [bind_of_error hx]; rfl

end Machine

/-- At every point of a run, a call runs the handler that its token names, if there is one and the arguments
fit, and otherwise fails with the frame untouched. A handler's fault is the fault of the run, and a handler
that ends well has to leave the depth and the kind of result that the signature declares. -/
theorem call_protocol (i : Interpreter) (p : Program) (registry : Registry) (host : Host) {m m₁ : Machine}
    {offset : Nat} {token : UInt32} (hm : Machine.Reaches ⟨registry, i.limit⟩ (i.start p host) m)
    (hf : Machine.fetch ⟨registry, i.limit⟩ m = .ok (offset, .call token) m₁) :
    let rules : Rules := ⟨registry, i.limit⟩
    let outcome := (do
      let (s, h) ← Machine.admission rules p.image token
      s.conduct h : FrameM Unit) m.frame
    Machine.step rules m = Machine.answer m₁ outcome ∧
    (∀ s h, (∃ f, Machine.admission rules p.image token m.frame = .ok (s, h) f) ↔
      Admissible registry p.image token m.frame s h) ∧
    ((¬ ∃ s h, Admissible registry p.image token m.frame s h) →
      ∃ e, Refusal registry p.image token m.frame e ∧ outcome = .error e m.frame) ∧
    (∀ s h, Admissible registry p.image token m.frame s h →
      (∀ e f, h.run m.frame = .error e f → outcome = .error e f) ∧
      ∀ f, h.run m.frame = .ok () f → s.Judged m.frame.stack.depth f outcome) ∧
    (∀ f, outcome = .ok () f → ∃ s h, Admissible registry p.image token m.frame s h ∧
      f.stack.depth = m.frame.stack.depth - s.arity + s.results ∧
      ∀ k, s.returns = some k → (f.stack.nth 0).kind = k) ∧
    ∀ e f, outcome = .error e f → ∃ fuel, (i.load p).run fuel registry host =
      some (.error e, (i.load p).finish (.error e) { m₁ with frame := f }, f.host) := by
  intro rules outcome
  have hd : m.frame.stack.depth ≤ m.frame.stack.capacity := by
    have hs := keeps_reaches (frameInvariant_sized _ _) (sized_start i p host) hm
    rw [hs.capacity]
    exact hs.depth
  have himage : m.program.reset.image = p.reset.image := congrArg Program.image (Machine.reset_reaches hm)
  have hstep : Machine.step rules m = Machine.answer m₁ outcome := by
    have hd : Machine.dispatch rules m.program.image token m.frame = outcome :=
      (congrArg (fun image => Machine.dispatch rules image token m.frame) himage).trans
        (Machine.dispatch_eq rules p.image token m.frame)
    rw [Machine.step_call hf, hd]
  have hrun : ∀ {s h}, Admissible registry p.image token m.frame s h → outcome = s.conduct h m.frame :=
    fun ha => bind_of_ok (Machine.admission_of_admissible hd ha)
  have hrefused : (¬ ∃ s h, Admissible registry p.image token m.frame s h) →
      ∃ e, Refusal registry p.image token m.frame e ∧ outcome = .error e m.frame := by
    intro hn
    obtain ⟨e, hr, he⟩ := Machine.admission_of_not_admissible hd i.limit hn
    exact ⟨e, hr, bind_of_error he⟩
  refine ⟨hstep, fun s h => Machine.admission_eq_ok_iff hd, hrefused, ?_, ?_, ?_⟩
  · intro s h ha
    rw [hrun ha]
    constructor
    · intro e f he
      exact Signature.conduct_of_error he
    · intro f hok
      rw [Signature.conduct_of_ok hok]
      exact Signature.judged_checkResult s _ f
  · intro g hg
    by_cases ha : ∃ s h, Admissible registry p.image token m.frame s h
    · obtain ⟨s, h, ha⟩ := ha
      rw [hrun ha] at hg
      cases hh : h.run m.frame with
      | error e f =>
        rw [Signature.conduct_of_error hh] at hg
        cases hg
      | ok u f =>
        rw [Signature.conduct_of_ok hh] at hg
        obtain ⟨rfl, hdepth, hkind⟩ := (Signature.judged_checkResult s _ f).of_ok hg
        exact ⟨s, h, ha, hdepth, hkind⟩
    · obtain ⟨e, _, he⟩ := hrefused ha
      rw [he] at hg
      cases hg
  · intro e f he
    rw [he] at hstep
    obtain ⟨n, hn⟩ := Machine.exists_after_of_reaches hm
    have hstop : Machine.stopped (Machine.step rules m) = some (.error e, { m₁ with frame := f }) := by
      rw [hstep]
      rfl
    refine ⟨n + 1, ?_⟩
    rw [Interpreter.run_load, Machine.run_of_after_stopped hn hstop (Nat.lt_succ_self n)]
    rfl

/-- An instance method that is to give an integer, and a handler that gives a text instead. -/
def lyingSignature : Signature := ⟨"Test", "Lying", some .int32, [], true⟩

def lyingRegistry : Registry := ⟨(∅ : Std.HashMap Signature Handler).insert lyingSignature
  (.script [.pop, .push (.string 0)]), true⟩

def lyingCall : Program :=
  .ofMethod ⟨#[0x17, 0x28, 0x01, 0x00, 0x00, 0x0A, 0x2A], 1, 0⟩ ⟨#[0], #[], #[lyingSignature], #[]⟩

theorem call_protocol_lying : ∃ fuel after host, (Interpreter.load lyingCall (.ofLimit none)).run fuel lyingRegistry
    ⟨.ofCapacity none, #[]⟩ = some (.error (.typeMismatch .call .int32 .string), after, host) := by
  have h := call_protocol (.ofLimit none) lyingCall lyingRegistry ⟨.ofCapacity none, #[]⟩ (.step .refl rfl)
    (show Machine.fetch _ _ = .ok (1, .call 0x0A000001) _ from rfl)
  obtain ⟨_, _, _, hrun, _, hfail⟩ := h
  have hlookup : lyingRegistry.lookup? lyingSignature = some (.script [.pop, .push (.string 0)]) := by
    simp [lyingRegistry, Registry.lookup?]
  have hfits : lyingSignature.Fits ⟨#[.int32 1], 1⟩ := ⟨Nat.le_refl 1, fun k kind hk => by simp [lyingSignature] at hk⟩
  have hjudged := (hrun lyingSignature _ ⟨rfl, hlookup, hfits⟩).2 _ rfl
  obtain ⟨fuel, hfuel⟩ := hfail _ _ (hjudged.kind rfl .int32 rfl (by decide))
  exact ⟨fuel, _, _, hfuel⟩

end StackVm
