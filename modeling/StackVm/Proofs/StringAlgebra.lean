import StackVm.Proofs.BlobFormat
import StackVm.Proofs.BuiltinEffects
import StackVm.Proofs.TextEquality

/-!
# The algebra of string handles

A handle means the same text for the rest of a session, and no other handle of the
interpreter means that text. So what `Concat` and `get_Length` do with handles is
known from what they do with texts: equations between texts are equations between
handles, whenever and in whatever order the calls were made.
-/

namespace StackVm

theorem units_append (s t : String) : units (s ++ t) = units s ++ units t := by
  simp [units]

theorem OperandStack.nth_of_topmost {s : OperandStack} {n : Nat} {args : List Value} (hd : s.depth ≤ s.capacity)
    (h : (s.topmost n).toList = args) (hn : args.length = n) :
    n ≤ s.depth ∧ ∀ k < n, args[n - 1 - k]? = some (s.nth k) := by
  have hle : n ≤ s.depth := by
    rw [← h] at hn
    simp only [topmost, Array.length_toList, Array.size_extract] at hn
    omega
  refine ⟨hle, ?_⟩
  intro k hk
  rw [← h, getElem?_topmost hle, ← getElem?_values (Nat.lt_of_lt_of_le hk hle) hd]
  congr 1
  omega

theorem Image.length_of_userString {image : Image} {token : UInt16} {text : String} {length : UInt8}
    (h : image.userString token = .ok text) (hl : image.heap[token.toNat]? = some length) :
    length.toNat = (units text).length * 2 + 1 := by
  unfold userString at h
  split at h
  · obtain ⟨b, tail, hbytes, hspells⟩ := decode_eq_ok_iff.mp h
    have hfirst : (image.heap.extract token.toNat (token.toNat + UserString.maxLength + 1)).toList[0]? =
        some b.length := by
      rw [hbytes]
      rfl
    have hlt := (Array.getElem?_eq_some_iff.mp hl).1
    rw [Array.getElem?_toList, Array.getElem?_extract, if_pos (by omega), Nat.add_zero, hl] at hfirst
    cases hfirst
    exact hspells.length
  · cases h

/-! ## Calls of built-in handlers -/

namespace Machine

/-- The machine is about to call the handler `b`, with `args` on top of its stack. -/
structure Calling (rules : Rules) (b : Builtin) (args : List Value) (m : Machine) : Prop where
  fetched : ∃ offset token m₁, fetch rules m = .ok (offset, .call token) m₁ ∧
    m.program.image.resolve? token = some (.external b.signature)
  registered : rules.registry.lookup? b.signature = some (.builtin b)
  arguments : (m.frame.stack.topmost b.signature.arity).toList = args

structure Calls (rules : Rules) (b : Builtin) (args : List Value) (v : Value) (m m' : Machine) : Prop
    extends Calling rules b args m where
  step : Machine.step rules m = .ok .next m'
  result : m'.frame.stack.nth 0 = v

section
variable {rules : Rules} {b : Builtin} {args : List Value} {m : Machine}

theorem Calling.step_eq (h : Calling rules b args m) (hd : m.frame.stack.depth ≤ m.frame.stack.capacity)
    (hfits : b.signature.Fits m.frame.stack) :
    ∃ m₁, Machine.step rules m = answer m₁ (b.signature.conduct (.builtin b) m.frame) := by
  obtain ⟨offset, token, m₁, hfetch, hresolve⟩ := h.fetched
  have hadmissible : Admissible rules.registry m.program.image token m.frame _ _ := ⟨hresolve, h.registered, hfits⟩
  refine ⟨m₁, ?_⟩
  rw [step_call hfetch, dispatch_eq, bind_of_ok (admission_of_admissible hd hadmissible)]

theorem Calls.run {v : Value} {m' : Machine} (h : Calls rules b args v m m')
    (hd : m.frame.stack.depth ≤ m.frame.stack.capacity) (hfits : b.signature.Fits m.frame.stack) :
    b.run m.frame = .ok () m'.frame := by
  obtain ⟨m₁, hstep⟩ := h.toCalling.step_eq hd hfits
  rw [h.step] at hstep
  cases hrun : (Handler.builtin b).run m.frame with
  | error e g =>
    rw [Signature.conduct_of_error hrun] at hstep
    cases hstep
  | ok u g =>
    rw [Signature.conduct_of_ok hrun] at hstep
    cases hcheck : b.signature.checkResult m.frame.stack.depth g with
    | error e g' =>
      rw [hcheck] at hstep
      cases hstep
    | ok u' g' =>
      obtain ⟨rfl, _⟩ := (Signature.judged_checkResult _ _ g).of_ok hcheck
      rw [hcheck] at hstep
      cases hstep
      exact hrun

theorem Calling.calls_of_run (h : Calling rules b args m) (hf : m.frame.Valid) (hfits : b.signature.Fits m.frame.stack)
    {g : Frame} (hrun : b.run m.frame = .ok () g) : ∃ m', Calls rules b args (g.stack.nth 0) m m' ∧ m'.frame = g := by
  obtain ⟨m₁, hstep⟩ := h.step_eq hf.depth_le hfits
  have hhonours : b.Honours m.frame g := by
    rcases b.honours_or_fails hf hfits with ⟨g', hg', hh⟩ | ⟨e, g', hg', _⟩
    · rw [hrun] at hg'
      cases hg'
      exact hh
    · rw [hrun] at hg'
      cases hg'
  rw [Builtin.conduct_of_honours hfits.1 hrun hhonours] at hstep
  exact ⟨_, ⟨h, hstep, rfl⟩, rfl⟩

section
variable (hd : m.frame.stack.depth ≤ m.frame.stack.capacity)
include hd

theorem Calling.concat_operands {x y : Nat} (h : Calling rules .concat [.string x, .string y] m) :
    Builtin.concat.signature.Fits m.frame.stack ∧ 2 ≤ m.frame.stack.depth ∧
      m.frame.stack.nth 1 = .string x ∧ m.frame.stack.nth 0 = .string y := by
  have harity : Builtin.concat.signature.arity = 2 := rfl
  have hargs := h.arguments
  rw [harity] at hargs
  obtain ⟨hle, hnth⟩ := OperandStack.nth_of_topmost hd hargs rfl
  refine ⟨?_, hle, (Option.some.inj (hnth 1 (by decide))).symm, (Option.some.inj (hnth 0 (by decide))).symm⟩
  apply (Signature.mismatch?_topmost_iff hd (s := Builtin.concat.signature) hle).mp
  show Signature.mismatch? [.string, .string] (m.frame.stack.topmost 2).toList = none
  rw [hargs]
  rfl

theorem Calling.length_operand {v : Value} (h : Calling rules .length [v] m) :
    Builtin.length.signature.Fits m.frame.stack ∧ 1 ≤ m.frame.stack.depth ∧ m.frame.stack.nth 0 = v := by
  have harity : Builtin.length.signature.arity = 1 := rfl
  have hargs := h.arguments
  rw [harity] at hargs
  obtain ⟨hle, hnth⟩ := OperandStack.nth_of_topmost hd hargs rfl
  exact ⟨(Signature.mismatch?_topmost_iff hd (s := Builtin.length.signature) hle).mp rfl, hle,
    (Option.some.inj (hnth 0 (by decide))).symm⟩

end

theorem step_ldstr {offset : Nat} {token : UInt16} {m₁ : Machine} {text : String}
    (hfetch : fetch rules m = .ok (offset, .ldstr token) m₁) (htext : m.program.image.userString token = .ok text)
    (hroom : m.frame.stack.depth < m.frame.stack.capacity) :
    ∃ m', step rules m = .ok .next m' ∧ m'.frame = m.frame.loaded text := by
  rcases step_cases rules m with ⟨e, he, _⟩ | ⟨i, next, hi, hm⟩
  · rw [hfetch] at he
    cases he
  · rw [hfetch] at hi
    cases hi
    rw [hm, effect_ldstr htext hroom]
    exact ⟨_, rfl, rfl⟩

section
variable {n : Nat} (hf : m.frame.WellFormed n) {x y : Nat} {s t : String} (hs : m.frame.strings.get? x = some s)
include hf hs

theorem Calls.concat (ht : m.frame.strings.get? y = some t) {v : Value} {m' : Machine}
    (h : Calls rules .concat [.string x, .string y] v m m') :
    ∃ z, v = .string z ∧ m'.frame.strings.get? z = some (s ++ t) := by
  obtain ⟨hfits, hle, hx, hy⟩ := h.toCalling.concat_operands hf.depth_le
  have hrun := h.run hf.depth_le hfits
  rw [Builtin.run_concat hf.depth_le hle hx hs hy ht] at hrun
  have hframe := EStateM.Result.ok.inj hrun
  rw [← h.result, ← hframe.2]
  exact ⟨_, Frame.nth_loaded (s ++ t) (Frame.dropped_lt Nat.two_pos hle hf.depth_le),
    StringTable.get?_intern hf.strings (s ++ t)⟩

theorem Calls.length {v : Value} {m' : Machine} (h : Calls rules .length [.string x] v m m') :
    (units s).length < 0x80000000 ∧ v = .int32 (Int32.ofNat (units s).length) := by
  obtain ⟨hfits, hle, hx⟩ := h.toCalling.length_operand hf.depth_le
  have hrun := h.run hf.depth_le hfits
  rw [Builtin.run_length hf.depth_le hle hx hs] at hrun
  by_cases hlt : (units s).length < 0x80000000
  · rw [if_pos hlt] at hrun
    have hframe := EStateM.Result.ok.inj hrun
    refine ⟨hlt, ?_⟩
    rw [← h.result, ← hframe.2]
    exact Frame.nth_pushed (Frame.dropped_lt Nat.one_pos hle hf.depth_le)
  · rw [if_neg hlt] at hrun
    cases hrun

theorem Calling.concat_succeeds (ht : m.frame.strings.get? y = some t)
    (h : Calling rules .concat [.string x, .string y] m) :
    ∃ v m', Calls rules .concat [.string x, .string y] v m m' := by
  obtain ⟨hfits, hle, hx, hy⟩ := h.concat_operands hf.depth_le
  obtain ⟨m', hm', _⟩ := h.calls_of_run hf.valid hfits (Builtin.run_concat hf.depth_le hle hx hs hy ht)
  exact ⟨_, m', hm'⟩

theorem Calling.length_succeeds (hlt : (units s).length < 0x80000000) (h : Calling rules .length [.string x] m) :
    ∃ m', Calls rules .length [.string x] (.int32 (Int32.ofNat (units s).length)) m m' := by
  obtain ⟨hfits, hle, hx⟩ := h.length_operand hf.depth_le
  have hrun := Builtin.run_length hf.depth_le hle hx hs
  rw [if_pos hlt] at hrun
  obtain ⟨m', hm', _⟩ := h.calls_of_run hf.valid hfits hrun
  rw [Frame.nth_pushed (Frame.dropped_lt Nat.one_pos hle hf.depth_le)] at hm'
  exact ⟨m', hm'⟩

end

end

end Machine

/-! ## Texts in the course of a session -/

namespace Moment

theorem Reaches.head {a b c : Moment} (hf : Follows a b) (h : Reaches b c) : Reaches a c := by
  induction h with
  | refl => exact .step .refl hf
  | step _ hf ih => exact .step ih hf

def HasText (a : Moment) (k : Nat) (v : Value) (text : String) : Prop :=
  ∃ i, a.session.interpreters[k]? = some i ∧ i.resolveString v = some text

/-- By moment `c` of a session that began as `s₀`, interpreter `k` has called the handler and got `v`. -/
def Called (s₀ : Session) (c : Moment) (k : Nat) (b : Builtin) (args : List Value) (v : Value) : Prop :=
  ∃ s m m', s.current = k ∧ Reaches (.idle s₀) (.running s m) ∧ Machine.Calls s.rules b args v m m' ∧
    Reaches (.running s m') c

section
variable {a b : Moment} {k : Nat} {v w : Value} {text : String}

theorem HasText.exists_handle (h : a.HasText k v text) : ∃ x, v = .string x := by
  obtain ⟨i, _, hv⟩ := h
  cases v with
  | string x => exact ⟨x, rfl⟩
  | _ => cases hv

theorem HasText.reaches (ho : a.Orderly) (h : a.HasText k v text) (hr : Reaches a b) : b.HasText k v text := by
  obtain ⟨x, rfl⟩ := h.exists_handle
  obtain ⟨i, hi, hv⟩ := h
  obtain ⟨i', hi', hc⟩ := (ho.reaches hr).2.interpreters k i hi
  exact ⟨i', hi', hc.strings.get? hv⟩

theorem HasText.unique (h : a.HasText k v text) {text' : String} (h' : a.HasText k v text') : text = text' := by
  obtain ⟨i, hi, hv⟩ := h
  obtain ⟨i', hi', hv'⟩ := h'
  cases hi.symm.trans hi'
  exact Option.some.inj (hv.symm.trans hv')

theorem HasText.inj (ho : a.Orderly) (hv : a.HasText k v text) (hw : a.HasText k w text) : v = w := by
  obtain ⟨x, rfl⟩ := hv.exists_handle
  obtain ⟨y, rfl⟩ := hw.exists_handle
  obtain ⟨i, hi, hv⟩ := hv
  obtain ⟨i', hi', hw⟩ := hw
  cases hi.symm.trans hi'
  -- interning has given each text one handle only
  have hs := (ho.wellFormed hi a.session.host).strings
  rw [(hs.get?_eq_iff hv hw).mpr rfl]

end

section
variable {s : Session} {m : Machine} {x : Nat} {text : String}

theorem Orderly.hasText_iff (ho : (running s m).Orderly) :
    (running s m).HasText s.current (.string x) text ↔ m.frame.strings.get? x = some text := by
  obtain ⟨_, p, hp, _⟩ := ho
  have hself := Session.getElem?_update_self (Session.getElem?_of_runnable? hp) (s.interpreter.holding .ready m)
  constructor
  · rintro ⟨i, hi, hv⟩
    cases hi.symm.trans hself
    exact hv
  · intro h
    exact ⟨_, hself, h⟩

theorem Orderly.machine (ho : (running s m).Orderly) : ∃ n, m.frame.WellFormed n :=
  ⟨_, (ho.1.kept ho.2).1.wellFormed⟩

theorem Orderly.text_of_nth (ho : (running s m).Orderly) {c : Moment} (hr : Reaches (.running s m) c) {j : Nat}
    (hpos : 0 < m.frame.stack.depth) (hj : m.frame.stack.nth j = .string x)
    (h : c.HasText s.current (.string x) text) : m.frame.strings.get? x = some text := by
  obtain ⟨n, hf⟩ := ho.machine
  have hk : (m.frame.stack.nth j).kind = .string := by
    rw [hj]
    rfl
  -- the value has a text by then, and it is still that text at the later moment
  obtain ⟨y, text', hy, ht⟩ := hf.valid.exists_text hpos hk
  cases hj.symm.trans hy
  have hlater := (ho.hasText_iff.mpr ht).reaches ho hr
  rw [h.unique hlater]
  exact ht

end

/-! ## What calls have given -/

section
variable {s₀ : Session} (h₀ : s₀.Fresh) {c : Moment} {k : Nat} {v w r : Value} {s t : String}
include h₀

theorem Called.concat (hv : c.HasText k v s) (hw : c.HasText k w t) (h : Called s₀ c k .concat [v, w] r) :
    c.HasText k r (s ++ t) := by
  obtain ⟨x, rfl⟩ := hv.exists_handle
  obtain ⟨y, rfl⟩ := hw.exists_handle
  obtain ⟨session, m, m', rfl, hm, hcalls, hlater⟩ := h
  have ho := (Orderly.reaches (a := .idle s₀) h₀.orderly hm).1
  have ho' := (ho.follows (.step hcalls.step)).1
  have hc := hlater.head (.step hcalls.step)
  obtain ⟨n, hf⟩ := ho.machine
  obtain ⟨_, hle, hx, hy⟩ := hcalls.toCalling.concat_operands hf.depth_le
  have hpos : 0 < m.frame.stack.depth := Nat.zero_lt_of_lt hle
  obtain ⟨z, rfl, hz⟩ := hcalls.concat hf (ho.text_of_nth hc hpos hx hv) (ho.text_of_nth hc hpos hy hw)
  exact (ho'.hasText_iff.mpr hz).reaches ho' hlater

theorem Called.length (hv : c.HasText k v s) (h : Called s₀ c k .length [v] r) :
    (units s).length < 0x80000000 ∧ r = .int32 (Int32.ofNat (units s).length) := by
  obtain ⟨x, rfl⟩ := hv.exists_handle
  obtain ⟨session, m, m', rfl, hm, hcalls, hlater⟩ := h
  have ho := (Orderly.reaches (a := .idle s₀) h₀.orderly hm).1
  obtain ⟨n, hf⟩ := ho.machine
  obtain ⟨_, hle, hx⟩ := hcalls.toCalling.length_operand hf.depth_le
  exact hcalls.length hf (ho.text_of_nth (hlater.head (.step hcalls.step)) hle hx hv)

end

section
variable {session : Session} {m : Machine} (ho : (running session m).Orderly) {v w : Value} {s t : String}
variable (hv : (running session m).HasText session.current v s)
include ho hv

theorem Orderly.concat_succeeds (hw : (running session m).HasText session.current w t)
    (h : m.Calling session.rules .concat [v, w]) :
    ∃ r m', m.Calls session.rules .concat [v, w] r m' ∧ (running session m').HasText session.current r (s ++ t) := by
  obtain ⟨x, rfl⟩ := hv.exists_handle
  obtain ⟨y, rfl⟩ := hw.exists_handle
  obtain ⟨n, hf⟩ := ho.machine
  have hs := ho.hasText_iff.mp hv
  have ht := ho.hasText_iff.mp hw
  obtain ⟨r, m', hcalls⟩ := h.concat_succeeds hf hs ht
  obtain ⟨z, rfl, hz⟩ := hcalls.concat hf hs ht
  exact ⟨_, m', hcalls, (ho.follows (.step hcalls.step)).1.hasText_iff.mpr hz⟩

theorem Orderly.length_succeeds (hlt : (units s).length < 0x80000000) (h : m.Calling session.rules .length [v]) :
    ∃ m', m.Calls session.rules .length [v] (.int32 (Int32.ofNat (units s).length)) m' := by
  obtain ⟨x, rfl⟩ := hv.exists_handle
  obtain ⟨n, hf⟩ := ho.machine
  exact h.length_succeeds hf (ho.hasText_iff.mp hv) hlt

end

theorem Orderly.length_of_ldstr {session : Session} {m m₁ : Machine} (ho : (running session m).Orderly) {offset : Nat}
    {token : UInt16} {length : UInt8} {text : String}
    (hfetch : Machine.fetch session.rules m = .ok (offset, .ldstr token) m₁)
    (htext : m.program.image.userString token = .ok text) (hl : m.program.image.heap[token.toNat]? = some length)
    (hroom : m.frame.stack.depth < m.frame.stack.capacity) :
    ∃ m', Machine.step session.rules m = .ok .next m' ∧
      ∀ v, m'.Calling session.rules .length [v] →
        ∃ m'', m'.Calls session.rules .length [v] (.int32 (Int32.ofNat ((length.toNat - 1) / 2))) m'' := by
  obtain ⟨n, hf⟩ := ho.machine
  obtain ⟨m', hm', hframe⟩ := Machine.step_ldstr hfetch htext hroom
  have ho' := (ho.follows (.step hm')).1
  obtain ⟨n', hf'⟩ := ho'.machine
  refine ⟨m', hm', ?_⟩
  intro v hcalling
  have hunits : (length.toNat - 1) / 2 = (units text).length := by
    have := Image.length_of_userString htext hl
    omega
  have hlt : (units text).length < 0x80000000 := by
    have := length.toNat_lt
    omega
  obtain ⟨_, _, hv⟩ := hcalling.length_operand hf'.depth_le
  rw [hframe, Frame.nth_loaded text hroom] at hv
  have hvt : m'.frame.strings.get? (m.frame.strings.intern text).1 = some text := by
    rw [hframe]
    exact StringTable.get?_intern hf.strings text
  rw [← hv] at hcalling ⊢
  rw [hunits]
  exact hcalling.length_succeeds hf' hvt hlt

end Moment

theorem toInt_ofNat_add {p q : Nat} (h : p + q < 0x80000000) :
    (Int32.ofNat (p + q)).toInt = (Int32.ofNat p).toInt + (Int32.ofNat q).toInt := by
  rw [Int32.toInt_ofNat_of_lt h, Int32.toInt_ofNat_of_lt (by omega), Int32.toInt_ofNat_of_lt (by omega)]
  rfl

/-- Strings form a monoid under `Concat`, with handles for elements, and `get_Length` adds up. Each law holds of all
calls that were made by a moment, in whatever order, and a call that is next on strings succeeds. -/
theorem handles_form_monoid {s₀ : Session} (h₀ : s₀.Fresh) {c : Moment} (hc : Moment.Reaches (.idle s₀) c) (k : Nat) :
    let Called := Moment.Called s₀ c k
    let Text := c.HasText k
    (∀ {v w r s t}, Text v s → Text w t → Called .concat [v, w] r →
      Text r (s ++ t) ∧ ∀ r', Text r' (s ++ t) → r' = r) ∧
    (∀ {v w x vw wx l r s t u}, Text v s → Text w t → Text x u → Called .concat [v, w] vw → Called .concat [vw, x] l →
      Called .concat [w, x] wx → Called .concat [v, wx] r → l = r) ∧
    (∀ {e v r s}, Text e "" → Text v s → Called .concat [e, v] r ∨ Called .concat [v, e] r → r = v) ∧
    (∀ {v r s}, Text v s → Called .length [v] r →
      (units s).length < 0x80000000 ∧ r = .int32 (Int32.ofNat (units s).length)) ∧
    (∀ {v w vw n n' n'' s t}, Text v s → Text w t → Called .concat [v, w] vw → Called .length [v] (.int32 n) →
      Called .length [w] (.int32 n') → Called .length [vw] (.int32 n'') → n''.toInt = n.toInt + n'.toInt) ∧
    ∀ session m, c = .running session m → session.current = k →
      (∀ {v w s t}, Text v s → Text w t → m.Calling session.rules .concat [v, w] → ∃ r m',
        m.Calls session.rules .concat [v, w] r m' ∧ (Moment.running session m').HasText k r (s ++ t)) ∧
      (∀ {v s}, Text v s → (units s).length < 0x80000000 → m.Calling session.rules .length [v] →
        ∃ m', m.Calls session.rules .length [v] (.int32 (Int32.ofNat (units s).length)) m') ∧
      ∀ {offset token m₁ text length}, Machine.fetch session.rules m = .ok (offset, .ldstr token) m₁ →
        m.program.image.userString token = .ok text → m.program.image.heap[token.toNat]? = some length →
        m.frame.stack.depth < m.frame.stack.capacity → ∃ m', Machine.step session.rules m = .ok .next m' ∧
          ∀ v, m'.Calling session.rules .length [v] →
            ∃ m'', m'.Calls session.rules .length [v] (.int32 (Int32.ofNat ((length.toNat - 1) / 2))) m'' := by
  intro Called Text
  have ho : c.Orderly := (Moment.Orderly.reaches (a := .idle s₀) h₀.orderly hc).1
  refine ⟨?_, ?_, ?_, ?_, ?_, ?_⟩
  · intro v w r s t hv hw h
    have hr := Moment.Called.concat h₀ hv hw h
    exact ⟨hr, fun r' hr' => hr'.inj ho hr⟩
  · intro v w x vw wx l r s t u hv hw hx hvw hl hwx hr
    have hleft := Moment.Called.concat h₀ (Moment.Called.concat h₀ hv hw hvw) hx hl
    have hright := Moment.Called.concat h₀ hv (Moment.Called.concat h₀ hw hx hwx) hr
    rw [String.append_assoc] at hleft
    exact hleft.inj ho hright
  · rintro e v r s he hv (h | h)
    · have hr := Moment.Called.concat h₀ he hv h
      rw [String.empty_append] at hr
      exact hr.inj ho hv
    · have hr := Moment.Called.concat h₀ hv he h
      rw [String.append_empty] at hr
      exact hr.inj ho hv
  · intro v r s hv h
    exact Moment.Called.length h₀ hv h
  · intro v w vw n n' n'' s t hv hw hvw hn hn' hn''
    obtain ⟨_, hn⟩ := Moment.Called.length h₀ hv hn
    obtain ⟨_, hn'⟩ := Moment.Called.length h₀ hw hn'
    obtain ⟨hlt, hn''⟩ := Moment.Called.length h₀ (Moment.Called.concat h₀ hv hw hvw) hn''
    cases hn
    cases hn'
    cases hn''
    rw [units_append, List.length_append] at hlt ⊢
    exact toInt_ofNat_add hlt
  · rintro session m rfl rfl
    refine ⟨?_, ?_, ?_⟩
    · intro v w s t hv hw h
      exact ho.concat_succeeds hv hw h
    · intro v s hv hlt h
      exact ho.length_succeeds hv hlt h
    · intro offset token m₁ text length hfetch htext hl hroom
      exact ho.length_of_ldstr hfetch htext hl hroom

def doubling : Program :=
  .ofMethod ⟨#[0x72, 1, 0, 0, 0x70, 0x72, 1, 0, 0, 0x70, 0x28, 1, 0, 0, 0x0A, 0x2A], 2, 0⟩
    ⟨#[0, 3, 0x61, 0, 0], #[1], #[Builtin.concat.signature], #[]⟩

def doublingSession : Session := (Session.start .builtins none none 1).load doubling

def doublingFrame : Nat → Frame
  | 0 => ⟨.ofCapacity 2, .ofSize 0, .empty, doublingSession.host⟩
  | n + 1 => (doublingFrame n).loaded "a"

def doublingMachine : Machine := ⟨{ doubling with pc := 10 }, doublingFrame 2, 2⟩

theorem reaches_doubling :
    Moment.Reaches (.idle (.start .builtins none none 1)) (.running doublingSession doublingMachine) := by
  have hw : ∀ m : Machine, m.Within doublingSession.rules := fun m limit hl => by cases hl
  have htext : doubling.image.userString 1 = .ok "a" := by cbv
  have hfirst : Machine.step doublingSession.rules ⟨doubling, doublingFrame 0, 0⟩ =
      .ok .next ⟨{ doubling with pc := 5 }, doublingFrame 1, 1⟩ :=
    Machine.step_of_stay (hw _) rfl (Machine.effect_ldstr htext (by decide) _)
  have hsecond : Machine.step doublingSession.rules ⟨{ doubling with pc := 5 }, doublingFrame 1, 1⟩ =
      .ok .next doublingMachine := Machine.step_of_stay (hw _) rfl (Machine.effect_ldstr htext (by decide) _)
  have hload := Moment.Reaches.refl.step (Moment.follows_load (.start .builtins none none 1) doubling)
  exact ((hload.step (.start rfl)).step (.step hfirst)).step (.step hsecond)

theorem handles_form_monoid_doubling : ∃ v w r m',
    doublingMachine.Calls doublingSession.rules .concat [v, w] r m' ∧
    (Moment.running doublingSession m').HasText 0 r "aa" := by
  have hfresh := Session.fresh_start Registry.onlyBuiltins_builtins none none 1
  have ho : (Moment.running doublingSession doublingMachine).Orderly :=
    (Moment.Orderly.reaches (a := .idle _) hfresh.orderly reaches_doubling).1
  have hc := StringTable.consistent_empty.intern "a"
  have hv : (doublingFrame 2).strings.get? ((doublingFrame 0).strings.intern "a").1 = some "a" :=
    (StringTable.extends_intern hc "a").get? (StringTable.get?_intern StringTable.consistent_empty "a")
  have hw : (doublingFrame 2).strings.get? ((doublingFrame 1).strings.intern "a").1 = some "a" :=
    StringTable.get?_intern hc "a"
  have hcalling : doublingMachine.Calling doublingSession.rules .concat
      [.string ((doublingFrame 0).strings.intern "a").1, .string ((doublingFrame 1).strings.intern "a").1] :=
    ⟨⟨10, 0x0A000001, _, rfl, rfl⟩, Registry.lookup?_builtins .concat, rfl⟩
  obtain ⟨hconcat, _⟩ :=
    (handles_form_monoid hfresh reaches_doubling 0).2.2.2.2.2 doublingSession doublingMachine rfl rfl
  obtain ⟨r, m', hcalls, hr⟩ := hconcat (ho.hasText_iff.mpr hv) (ho.hasText_iff.mpr hw) hcalling
  exact ⟨_, _, r, m', hcalls, hr⟩

end StackVm
