import StackVm.Proofs.CallFaults
import StackVm.Proofs.CallProtocol
import StackVm.Proofs.LastingProperties
import StackVm.Proofs.RegistrySafety

/-!
# Built-in handlers keep to their signatures

A built-in handler whose arguments have passed the check takes them and leaves
its result (`Honours`), or fails for one of three reasons (`Fails`). A call that
runs one is never at odds with the signature, so that under a registry of
built-in handlers alone a call fails only because it is refused or because its
handler fails.
-/

namespace StackVm

/-! ## Arguments -/

theorem Value.exists_int32 {v : Value} (h : v.kind = .int32) : ∃ n, v = .int32 n := by
  cases v with
  | int32 n => exact ⟨n, rfl⟩
  | _ => cases h

theorem Value.exists_float {v : Value} (h : v.kind = .float) : ∃ x, v = .float x := by
  cases v with
  | float x => exact ⟨x, rfl⟩
  | _ => cases h

theorem Value.handle?_of_kind_ne {v : Value} (h : v.kind ≠ .string) : v.handle? = none := by
  cases v with
  | string handle => exact absurd rfl h
  | _ => rfl

namespace Signature

variable {s : Signature} {f : Frame} (hd : f.stack.depth ≤ f.stack.capacity)
include hd

theorem fits_of_checkArguments {g : Frame} (h : s.checkArguments f = .ok () g) : s.Fits f.stack := by
  by_cases hlt : f.stack.depth < s.arity
  · rw [checkArguments_of_lt hlt] at h
    cases h
  · by_cases hfits : s.Fits f.stack
    · exact hfits
    · obtain ⟨_, _, _, _, _, _, hc⟩ := checkArguments_of_not_fits hd hfits (Nat.not_lt.mp hlt)
      rw [hc] at h
      cases h

theorem Fits.kind_nth (h : s.Fits f.stack) {k : Nat} {kind : Kind} (hk : s.params[k]? = some kind) :
    (f.stack.nth (s.params.length - 1 - k)).kind = kind := by
  have hlt : k < s.params.length := (List.getElem?_eq_some_iff.mp hk).1
  have hle := Nat.le_trans s.params_le_arity h.1
  obtain ⟨v, hv, hkind⟩ := h.2 k kind hk
  have hnth := OperandStack.getElem?_values (s := f.stack) (k := s.params.length - 1 - k) (by omega) hd
  rw [show f.stack.depth - 1 - (s.params.length - 1 - k) = f.stack.depth - s.params.length + k by omega, hv] at hnth
  cases hnth
  exact hkind

end Signature

theorem Frame.nth_dropped (f : Frame) (n k : Nat) : (f.dropped n).stack.nth k = f.stack.nth (n + k) := by
  unfold OperandStack.nth
  rw [show (f.dropped n).stack.depth - 1 - k = f.stack.depth - 1 - (n + k) by simp only [dropped]; omega]
  rfl

theorem Frame.dropped_dropped (f : Frame) (n k : Nat) : (f.dropped n).dropped k = f.dropped (n + k) := by
  simp [dropped, Nat.sub_sub]

theorem Frame.dropped_lt {f : Frame} {n : Nat} (hn : 0 < n) (hle : n ≤ f.stack.depth)
    (hd : f.stack.depth ≤ f.stack.capacity) : (f.dropped n).stack.depth < (f.dropped n).stack.capacity := by
  show f.stack.depth - n < f.stack.capacity
  omega

/-! ## Handlers -/

def Frame.text? (f : Frame) : Option String := (f.stack.nth 0).handle?.bind f.strings.get?

theorem Frame.text?_of_get? {f : Frame} {handle : Nat} {text : String} (hv : f.stack.nth 0 = .string handle)
    (ht : f.strings.get? handle = some text) : f.text? = some text := by
  unfold text?
  rw [hv]
  exact ht

theorem StringTable.intern_eq_or_push (t : StringTable) (text : String) :
    (t.intern text).2 = t ∨ (t.intern text).2.texts = t.texts.push text := by
  unfold intern
  split
  · exact .inl rfl
  · exact .inr rfl

namespace Builtin

def printed? (f : Frame) : Builtin → Option String
  | writeLineString => f.text?.map (· ++ "\n")
  | writeLineInt32 => (f.stack.nth 0).int32?.map fun n => decimal n.toInt ++ "\n"
  | writeLine => some "\n"
  | writeString => f.text?
  | writeInt32 => (f.stack.nth 0).int32?.map fun n => decimal n.toInt
  | sqrt | length | concat => none

structure Honours (b : Builtin) (f g : Frame) : Prop where
  depth : g.stack.depth + b.signature.arity = f.stack.depth + b.signature.results
  below : ∀ k < f.stack.depth - b.signature.arity, g.stack.slots[k]? = f.stack.slots[k]?
  locals : g.locals = f.locals
  result : ∀ kind, b.signature.returns = some kind → (g.stack.nth 0).kind = kind
  strings : g.strings = f.strings ∨ b = concat ∧ ∃ text, g.strings.texts = f.strings.texts.push text
  silent : b.signature.owner ≠ "System.Console" → g.host = f.host
  console : b.signature.owner = "System.Console" → ∃ text, b.printed? f = some text ∧
    g.host = { f.host with console := { f.host.console with written := f.host.console.written ++ text.toUTF8.data } }

inductive Fails (f : Frame) : Builtin → Fault → Prop
  | receiver : (f.stack.nth 0).kind ≠ .string → Fails f length (.invalidOperand .plugArgument (f.stack.nth 0).kind)
  | tooLong {text : String} : f.text? = some text → 0x80000000 ≤ (units text).length →
      Fails f length (.plug "string length overflows int32")
  | console {b : Builtin} {text : String} : b.printed? f = some text → (f.host.console.writeText text).1 = false →
      Fails f b (.plug ("console write failed: " ++ f.host.console.failure))

section
variable {b : Builtin} {f : Frame} (hle : b.signature.arity ≤ f.stack.depth)
include hle

theorem writes_or_fails {text : String} (hvoid : b.signature.returns = none)
    (hconsole : b.signature.owner = "System.Console") (hp : b.printed? f = some text)
    (hrun : b.run f = write text (f.dropped b.signature.arity)) :
    (∃ g, b.run f = .ok () g ∧ b.Honours f g) ∨ ∃ e g, b.run f = .error e g ∧ b.Fails f e := by
  cases hw : (f.host.console.writeText text).1 with
  | false => exact .inr ⟨_, _, hrun.trans (Frame.print_of_not_fits (f := f.dropped _) hw), .console hp hw⟩
  | true =>
    refine .inl ⟨_, hrun.trans (Frame.print_of_fits (f := f.dropped _) hw), ?_⟩
    constructor
    · have hresults : b.signature.results = 0 := by simp [Signature.results, hvoid]
      simp only [Frame.printed, Frame.dropped, hresults]
      omega
    · intro k _
      rfl
    · rfl
    · intro kind hk
      rw [hvoid] at hk
      cases hk
    · exact .inl rfl
    · intro ho
      exact absurd hconsole ho
    · intro _
      refine ⟨text, hp, ?_⟩
      simp only [Frame.printed, Frame.dropped, Console.writeText_of_fits hw]

theorem honours_pushed (hd : f.stack.depth ≤ f.stack.capacity) (hpos : 0 < b.signature.arity) {v : Value}
    (hreturns : b.signature.returns = some v.kind) (howner : b.signature.owner ≠ "System.Console")
    {strings : StringTable}
    (hs : strings = f.strings ∨ b = concat ∧ ∃ text, strings.texts = f.strings.texts.push text) :
    b.Honours f (Frame.pushed { f.dropped b.signature.arity with strings } v) := by
  have hlt : f.stack.depth - b.signature.arity < f.stack.capacity := by omega
  constructor
  · have hresults : b.signature.results = 1 := by simp [Signature.results, hreturns]
    simp only [Frame.pushed, Frame.dropped, hresults]
    omega
  · intro k hk
    exact Array.getElem?_setIfInBounds_ne (Nat.ne_of_gt hk)
  · rfl
  · intro kind hk
    rw [hreturns] at hk
    cases hk
    rw [Frame.nth_pushed hlt]
  · exact hs
  · intro _
    rfl
  · intro ho
    exact absurd ho howner

end

section
variable {f : Frame} (hd : f.stack.depth ≤ f.stack.capacity)
include hd

theorem run_length (hle : 1 ≤ f.stack.depth) {handle : Nat} {text : String} (hv : f.stack.nth 0 = .string handle)
    (ht : f.strings.get? handle = some text) : length.run f =
      if (units text).length < 0x80000000 then .ok () ((f.dropped 1).pushed (.int32 (Int32.ofNat (units text).length)))
      else .error (.plug "string length overflows int32") (f.dropped 1) := by
  have hpop : length.run f = _ := bind_of_ok (Frame.popString_of_get? hle hv ht)
  by_cases hlt : (units text).length < 0x80000000
  · simp only [hlt, if_true] at hpop ⊢
    exact hpop.trans (Frame.push_of_lt (Frame.dropped_lt Nat.zero_lt_one hle hd))
  · simp only [hlt, if_false] at hpop ⊢
    exact hpop

theorem run_concat (hle : 2 ≤ f.stack.depth) {x y : Nat} {first second : String}
    (hx : f.stack.nth 1 = .string x) (hfirst : f.strings.get? x = some first)
    (hy : f.stack.nth 0 = .string y) (hsecond : f.strings.get? y = some second) :
    concat.run f = .ok () ((f.dropped 2).loaded (first ++ second)) := by
  -- the operand that was pushed last is popped first
  have hpop : Frame.popString (f.dropped 1) = .ok first (f.dropped 2) :=
    (Frame.popString_of_get? (Nat.sub_pos_of_lt hle) ((f.nth_dropped 1 0).trans hx) hfirst).trans
      (congrArg _ (f.dropped_dropped 1 1))
  have hrun : concat.run f = Frame.pushString (first ++ second) (f.dropped 2) :=
    (bind_of_ok (Frame.popString_of_get? (Nat.zero_lt_of_lt hle) hy hsecond)).trans (bind_of_ok hpop)
  exact hrun.trans (Frame.pushString_of_lt _ (Frame.dropped_lt Nat.two_pos hle hd))

end

theorem honours_or_fails (b : Builtin) {f : Frame} (hf : f.Valid) (h : b.signature.Fits f.stack) :
    (∃ g, b.run f = .ok () g ∧ b.Honours f g) ∨ ∃ e g, b.run f = .error e g ∧ b.Fails f e := by
  have hle := h.1
  have hd := hf.depth_le
  cases b with
  | writeLineString | writeString =>
    have hk : (f.stack.nth 0).kind = .string := h.kind_nth hd (k := 0) rfl
    obtain ⟨handle, text, hv, ht⟩ := hf.exists_text hle hk
    refine writes_or_fails hle rfl rfl ?_ (bind_of_ok (Frame.popString_of_get? hle hv ht))
    simp [printed?, Frame.text?_of_get? hv ht]
  | writeLineInt32 | writeInt32 =>
    have hk : (f.stack.nth 0).kind = .int32 := h.kind_nth hd (k := 0) rfl
    obtain ⟨n, hn⟩ := Value.exists_int32 hk
    have hread : (f.stack.nth 0).int32? = some n := by rw [hn]; rfl
    refine writes_or_fails hle rfl rfl ?_ (bind_of_ok (Frame.popAs_of_some hle hread))
    simp [printed?, hread]
  | writeLine => exact writes_or_fails hle rfl rfl rfl rfl
  | sqrt =>
    have hk : (f.stack.nth 0).kind = .float := h.kind_nth hd (k := 0) rfl
    obtain ⟨x, hx⟩ := Value.exists_float hk
    have hread : (f.stack.nth 0).float? = some x := by rw [hx]; rfl
    refine .inl ⟨_, ?_, honours_pushed hle hd Nat.zero_lt_one (v := .float x.sqrt) rfl (by decide) (.inl rfl)⟩
    have hpop : sqrt.run f = Frame.push (.float x.sqrt) (f.dropped 1) := bind_of_ok (Frame.popAs_of_some hle hread)
    exact hpop.trans (Frame.push_of_lt (Frame.dropped_lt Nat.zero_lt_one hle hd))
  | length =>
    -- the receiver is no declared parameter, so the check lets every kind pass
    by_cases hk : (f.stack.nth 0).kind = .string
    · obtain ⟨handle, text, hv, ht⟩ := hf.exists_text hle hk
      have hrun := run_length hd hle hv ht
      by_cases hlt : (units text).length < 0x80000000
      · rw [if_pos hlt] at hrun
        exact .inl ⟨_, hrun, honours_pushed hle hd Nat.zero_lt_one rfl (by decide) (.inl rfl)⟩
      · rw [if_neg hlt] at hrun
        exact .inr ⟨_, _, hrun, .tooLong (Frame.text?_of_get? hv ht) (Nat.not_lt.mp hlt)⟩
    · have hpop : Frame.popString f = _ := bind_of_error (Frame.popAs_of_none hle (Value.handle?_of_kind_ne hk))
      exact .inr ⟨_, _, bind_of_error hpop, .receiver hk⟩
  | concat =>
    have hk : (f.stack.nth 0).kind = .string := h.kind_nth hd (k := 1) rfl
    have hk' : (f.stack.nth 1).kind = .string := h.kind_nth hd (k := 0) rfl
    have hpos : 0 < f.stack.depth := Nat.zero_lt_of_lt hle
    obtain ⟨handle, second, hv, ht⟩ := hf.exists_text hpos hk
    obtain ⟨handle', first, hv', ht'⟩ := hf.exists_text hpos hk'
    refine .inl ⟨_, run_concat hd hle hv' ht' hv ht, ?_⟩
    refine honours_pushed hle hd Nat.two_pos rfl (by decide) ?_
    exact (f.strings.intern_eq_or_push (first ++ second)).imp_right fun h => ⟨rfl, _, h⟩

end Builtin

/-! ## Calls -/

/-- All handlers are built in and registered under their own signatures. -/
def Registry.Genuine (r : Registry) : Prop :=
  ∀ s h, r.lookup? s = some h → ∃ b : Builtin, s = b.signature ∧ h = .builtin b

theorem Registry.Genuine.onlyBuiltins {r : Registry} (h : r.Genuine) : r.OnlyBuiltins := by
  intro s handler hl
  obtain ⟨b, _, hb⟩ := h s handler hl
  exact ⟨b, hb⟩

theorem Builtin.conduct_of_honours {b : Builtin} {f g : Frame} (hle : b.signature.arity ≤ f.stack.depth)
    (hrun : b.run f = .ok () g) (h : b.Honours f g) : b.signature.conduct (.builtin b) f = .ok () g := by
  have hd := h.depth
  have hrun : (Handler.builtin b).run f = .ok () g := hrun
  rw [Signature.conduct_of_ok hrun]
  exact (Signature.judged_checkResult _ _ g).good (by omega) h.result

/-- How a call ends when all handlers are built in. -/
theorem Machine.dispatch_of_genuine {rules : Rules} (hr : rules.registry.Genuine) (image : Image) (token : UInt32)
    {f : Frame} (hf : f.Valid) :
    (∃ g, dispatch rules image token f = .ok () g) ∨
    (∃ e, dispatch rules image token f = .error e f ∧ Refusal rules.registry image token f e) ∨
    ∃ b e g, dispatch rules image token f = .error e g ∧ Builtin.Fails f b e := by
  rw [dispatch_eq]
  by_cases ha : ∃ s h, Admissible rules.registry image token f s h
  · obtain ⟨s, h, ha⟩ := ha
    obtain ⟨b, rfl, rfl⟩ := hr s h ha.registered
    rw [bind_of_ok (admission_of_admissible hf.depth_le ha)]
    rcases b.honours_or_fails hf ha.fits with ⟨g, hg, hh⟩ | ⟨e, g, hg, he⟩
    · exact .inl ⟨g, Builtin.conduct_of_honours ha.fits.1 hg hh⟩
    · exact .inr (.inr ⟨b, e, g, Signature.conduct_of_error hg, he⟩)
  · obtain ⟨e, he, hadmission⟩ := admission_of_not_admissible hf.depth_le rules.limit ha
    exact .inr (.inl ⟨e, bind_of_error hadmission, he⟩)

/-! ## Runs -/

/-- Why a call fails when all handlers are built in. -/
theorem Machine.step_call_of_genuine {rules : Rules} (hr : rules.registry.Genuine) {m m₁ m' : Machine}
    (hf : m.frame.Valid) {offset : Nat} {token : UInt32} (hfetch : fetch rules m = .ok (offset, .call token) m₁)
    {e : Fault} (h : step rules m = .error e m') :
    (Refusal rules.registry m.program.image token m.frame e ∧ m'.frame = m.frame) ∨
      ∃ b, Builtin.Fails m.frame b e := by
  rw [step_call hfetch] at h
  rcases dispatch_of_genuine hr m.program.image token hf with ⟨g, hd⟩ | ⟨e', hd, he⟩ | ⟨b, e', g, hd, he⟩
  · rw [hd] at h
    cases h
  · rw [hd] at h
    cases h
    exact .inl ⟨he, rfl⟩
  · rw [hd] at h
    cases h
    exact .inr ⟨b, he⟩

theorem Machine.step_ne_plugEffect {rules : Rules} (hr : rules.registry.Genuine) {m m' : Machine} (hf : m.frame.Valid)
    {e : Fault} (h : step rules m = .error e m') (expected actual : Nat) : e ≠ .plugEffect expected actual := by
  rintro rfl
  obtain ⟨offset, token, m₁, hfetch⟩ := exists_call_of_step h trivial
  rcases step_call_of_genuine hr hf hfetch h with ⟨he, _⟩ | ⟨b, he⟩
  · cases he
  · cases he

/-- A run starts with an empty stack, and built-in handlers never leave an invalid handle on it. -/
theorem Session.valid_of_running {s : Session} (hr : s.registry.OnlyBuiltins) (hl : s.interpreter.Loaded)
    (hs : s.interpreter.strings.Consistent) {m : Machine} (hm : s.Running m) : m.frame.Valid := by
  obtain ⟨p, hp, hm⟩ := hm
  have hr : s.rules.registry.OnlyBuiltins := hr
  -- whatever an earlier run has left there, loading has emptied the stack and cleared the locals
  have hw := Interpreter.wellFormed_load hs p
  rw [← hl p hp] at hw
  have hstart : (s.interpreter.machine p s.host).frame.WellFormed s.interpreter.localCount := hw s.host
  exact (Machine.kept_reaches hr hstart hm).wellFormed.valid

/-- A built-in handler whose arguments have passed the check keeps to its signature, or fails for a reason of its
own. So no run under a registry of such handlers ends with the effect of a handler or the kind of its result at
fault, or with a stack that overflows in a call: a kind is only ever refused before the handler runs. -/
theorem builtins_honour_signatures :
    (∀ (b : Builtin) (f : Frame), f.Valid → b.signature.checkArguments f = .ok () f →
      (∃ g, b.run f = .ok () g ∧ b.Honours f g) ∨ ∃ e g, b.run f = .error e g ∧ b.Fails f e) ∧
    ∀ (s₀ s : Session) (past : List (Session × Event)), s₀.Unused → History s₀ past s →
      (∀ x ∈ past, x.2.isCommand = true) → s.registry.Genuine →
      (∀ fuel expected actual s', s.run fuel ≠ some (.error (.plugEffect expected actual), s')) ∧
      ∀ m m₁ m' offset token e, s.Running m → Machine.fetch s.rules m = .ok (offset, .call token) m₁ →
        Machine.step s.rules m = .error e m' →
        (∀ capacity, e ≠ .overflow capacity) ∧
        ∀ kind kind', e = .typeMismatch .call kind kind' →
          Refusal s.rules.registry m.program.image token m.frame e ∧ m'.frame = m.frame := by
  refine ⟨fun b f hf h => b.honours_or_fails hf (Signature.fits_of_checkArguments hf.depth_le h), ?_⟩
  intro s₀ s past h₀ hpast hw hr
  have hvalid : ∀ m, s.Running m → m.frame.Valid := by
    intro m hm
    have hrunning := hm
    obtain ⟨p, hp, _⟩ := hrunning
    have hi := Session.getElem?_of_runnable? hp
    exact Session.valid_of_running hr.onlyBuiltins (hpast.loaded h₀ hi)
      (hpast.has lasting_consistent h₀ hw _ _ hi s.host) hm
  constructor
  · intro fuel expected actual s' hrun
    rcases Session.run_cases hrun with ⟨_, hr', _⟩ | ⟨p, m, hp, hm, _⟩
    · cases hr'
    · obtain ⟨m₁, hm₁, hend⟩ := Machine.exists_of_run hm
      rcases hend with ⟨v, _, hv⟩ | ⟨e, he, hv⟩
      · cases hv
      · cases hv
        exact Machine.step_ne_plugEffect hr (hvalid m₁ ⟨p, hp, hm₁⟩) he _ _ rfl
  · intro m m₁ m' offset token e hm hfetch hstep
    have hcause := Machine.step_call_of_genuine hr (hvalid m hm) hfetch hstep
    constructor
    · rintro capacity rfl
      rcases hcause with ⟨he, _⟩ | ⟨b, he⟩
      · cases he
      · cases he
    · rintro kind kind' rfl
      rcases hcause with he | ⟨b, he⟩
      · exact he
      · cases he

theorem Registry.genuine_builtins : Registry.builtins.Genuine := by
  intro s h hl
  obtain ⟨b, _, hb⟩ := List.mem_map.mp ((Registry.Seeded.builtins.lists.1.lookup s h).mp hl)
  cases hb
  exact ⟨b, rfl, rfl⟩

def twice : Frame :=
  ⟨⟨#[.string 0, .string 0], 2⟩, .ofSize 0, (StringTable.empty.intern "a").2, ⟨.ofCapacity none, #[]⟩⟩

def measuring : Program :=
  .ofMethod ⟨#[0x17, 0x28, 0x01, 0x00, 0x00, 0x0A, 0x2A], 1, 0⟩ ⟨#[0], #[], #[Builtin.length.signature], #[]⟩

theorem valid_twice : twice.Valid := by
  refine ⟨Nat.le_refl 2, ?_⟩
  intro k handle hk hslot
  have hsize : twice.strings.size = 1 := by
    unfold twice
    rw [StringTable.intern_of_new StringTable.consistent_empty nofun]
    rfl
  have hhandle : handle = 0 := by
    match k, hk with
    | 0, _ => exact (Value.string.inj (Option.some.inj hslot)).symm
    | 1, _ => exact (Value.string.inj (Option.some.inj hslot)).symm
  rw [hsize, hhandle]
  exact Nat.zero_lt_one

def measuringSession : Session := (Session.start .builtins none none 1).load measuring

def measuringMachine : Machine :=
  ⟨{ measuring with pc := 1 }, ⟨⟨#[.int32 1], 1⟩, .ofSize 0, .empty, measuringSession.host⟩, 1⟩

theorem step_measuring : ∃ m, Machine.step measuringSession.rules measuringMachine =
    .error (.invalidOperand .plugArgument .int32) m := by
  have hfetch : Machine.fetch measuringSession.rules measuringMachine =
      .ok (1, .call 0x0A000001) (measuringMachine.past 6) := rfl
  have hfits : Builtin.length.signature.Fits measuringMachine.frame.stack :=
    ⟨Nat.le_refl 1, fun k kind hk => by simp [Builtin.signature] at hk⟩
  have hadmissible : Admissible measuringSession.rules.registry measuring.image 0x0A000001 measuringMachine.frame
      Builtin.length.signature (.builtin .length) := ⟨rfl, Registry.lookup?_builtins .length, hfits⟩
  have hadmission : Machine.admission measuringSession.rules measuring.image 0x0A000001 measuringMachine.frame =
      .ok (Builtin.length.signature, .builtin .length) measuringMachine.frame :=
    Machine.admission_of_admissible (Nat.le_refl 1) hadmissible
  have hrun : (Handler.builtin .length).run measuringMachine.frame =
      .error (.invalidOperand .plugArgument .int32) (measuringMachine.frame.dropped 1) := rfl
  have hconduct := Signature.conduct_of_error (s := Builtin.length.signature) hrun
  have hdispatch := (Machine.dispatch_eq _ _ _ _).trans ((bind_of_ok hadmission).trans hconduct)
  exact ⟨_, (Machine.step_call hfetch).trans (congrArg (Machine.answer _) hdispatch)⟩

/-- Two texts are joined on a full stack, and a number has no length. -/
theorem builtins_honour_signatures_measuring :
    (∃ g, Builtin.concat.run twice = .ok () g ∧ g.stack.depth = 1 ∧ (g.stack.nth 0).kind = .string) ∧
    (measuringSession.run 2).map Prod.fst ≠ some (.error (.plugEffect 1 0)) ∧
    ∃ m m' e, measuringSession.Running m ∧ Machine.step measuringSession.rules m = .error e m' ∧ e ≠ .overflow 1 := by
  obtain ⟨hhandler, hruns⟩ := builtins_honour_signatures
  have hpast : History (Session.start .builtins none none 1)
      [(_, .command (.load measuring.method measuring.image) .done)] measuringSession := .event .start (.command 0 rfl)
  obtain ⟨hnever, hcall⟩ := hruns _ _ _ (Session.unused_start .builtins none none 1) hpast (by simp [Event.isCommand])
    Registry.genuine_builtins
  refine ⟨?_, ?_, ?_⟩
  · rcases hhandler .concat twice valid_twice rfl with ⟨g, hg, hh⟩ | ⟨e, g, hg, he⟩
    · exact ⟨g, hg, Nat.add_right_cancel hh.depth, hh.result .string rfl⟩
    · cases he with
      | console hp _ => cases hp
  · intro h
    obtain ⟨⟨r, s'⟩, hs', hr⟩ := Option.map_eq_some_iff.mp h
    cases hr
    exact hnever 2 1 0 s' hs'
  · obtain ⟨m', hstep⟩ := step_measuring
    have hrunning : measuringSession.Running measuringMachine := ⟨measuring, rfl, .step .refl rfl⟩
    exact ⟨_, m', _, hrunning, hstep, (hcall _ (measuringMachine.past 6) m' 1 0x0A000001 _ hrunning rfl hstep).1 1⟩

end StackVm
