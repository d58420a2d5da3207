import StackVm.Proofs.Effect

/-!
# Handlers and instructions as compositions

Handlers and instructions are put together from elementary operations on a frame.
A property of such programs that sequencing keeps and that these operations have
(`Composes`) holds of every instruction's effect if the handlers have it. If raising
a fault, going on after one, writing and noting have it as well (`Closed`), then
every handler does.
-/

namespace StackVm

/-! ## Faults of operations -/

/-- Faults that an operation on a frame can raise; the others are those of fetching, branching and starting a run. -/
def Fault.OfFrame : Fault → Prop
  | decode _ | branchOutOfBounds _ _ | endOfCode | limitExceeded _ | noProgram => False
  | _ => True

section
variable {a b : Value} {e : Fault}

theorem refuse_ofFrame (op : Operation) (a b : Value) : (Value.refuse op a b).OfFrame := by
  unfold Value.refuse; split <;> trivial

theorem guard_ofFrame {c : Prop} [Decidable c] {v : Value}
    (h : (if c then .error .divideByZero else .ok v) = Except.error e) : e.OfFrame := by
  split at h
  · cases h; trivial
  · cases h

theorem add_ofFrame (h : a.add b = .error e) : e.OfFrame := by
  unfold Value.add at h
  split at h
  case h_7 => cases h; exact refuse_ofFrame _ _ _
  all_goals cases h

theorem div_ofFrame (h : a.div b = .error e) : e.OfFrame := by
  unfold Value.div at h
  split at h
  case h_5 => cases h
  case h_7 => cases h; exact refuse_ofFrame _ _ _
  all_goals exact guard_ofFrame h

theorem rem_ofFrame (h : a.rem b = .error e) : e.OfFrame := by
  unfold Value.rem at h
  split at h
  case h_5 => cases h
  case h_7 => cases h; exact refuse_ofFrame _ _ _
  all_goals exact guard_ofFrame h

theorem compare_ofFrame {op : Operation} (h : a.compare op b = .error e) : e.OfFrame := by
  unfold Value.compare at h
  split at h
  · cases h; trivial
  · split at h <;> cases h

theorem userString_ofFrame {image : Image} {token : UInt16} (h : image.userString token = .error e) : e.OfFrame := by
  unfold Image.userString at h
  split at h
  · unfold UserString.decode at h
    split at h
    · cases h; trivial
    · split at h
      · cases h; trivial
      · split at h
        · cases h; trivial
        · split at h <;> cases h
          trivial
  · cases h; trivial

end

theorem mismatch?_ofFrame : ∀ {ks : List Kind} {vs : List Value} {e : Fault},
    Signature.mismatch? ks vs = some e → e.OfFrame
  | [], _, _, h => by cases h
  | k :: ks, [], _, h => by cases h
  | k :: ks, v :: vs, e, h => by
    unfold Signature.mismatch? at h
    split at h
    · exact mismatch?_ofFrame h
    · cases h; trivial

/-! ## Looking -/

def Looks {σ α : Type} (x : EStateM Fault σ α) : Prop :=
  ∀ s, (∃ a, x s = .ok a s) ∨ ∃ e, x s = .error e s ∧ e.OfFrame

theorem looks_peekNth (n : Nat) : Looks (OperandStack.peekNth n) := by
  intro s
  by_cases h : s.depth ≤ n
  · exact .inr ⟨_, if_pos h, trivial⟩
  · exact .inl ⟨_, if_neg h⟩

theorem looks_get (i : Nat) : Looks (Locals.get i) := by
  intro b
  unfold Locals.get
  cases b.slots[i]? with
  | none => exact .inr ⟨_, rfl, trivial⟩
  | some v => exact .inl ⟨v, rfl⟩

theorem looks_addressOf (i : Nat) : Looks (Locals.addressOf i) := by
  intro b
  by_cases h : i < b.size
  · exact .inl ⟨_, if_pos h⟩
  · exact .inr ⟨_, if_neg h, trivial⟩

namespace Signature

def examine (s : Signature) : EStateM Fault OperandStack Unit := fun stack =>
  if stack.depth < s.arity then .error (.underflow s.arity stack.depth) stack
  else match mismatch? s.params (stack.topmost s.params.length).toList with
    | some e => .error e stack
    | none => .ok () stack

theorem checkArguments_eq (s : Signature) : s.checkArguments = Frame.onStack s.examine := by
  funext f
  unfold checkArguments Frame.onStack examine
  by_cases h : f.stack.depth < s.arity
  · simp only [h, if_true]
  · simp only [h, if_false]
    cases mismatch? s.params (f.stack.topmost s.params.length).toList <;> rfl

theorem looks_examine (s : Signature) : Looks s.examine := by
  intro stack
  unfold examine
  by_cases h : stack.depth < s.arity
  · rw [if_pos h]
    exact .inr ⟨_, rfl, trivial⟩
  · rw [if_neg h]
    cases hm : mismatch? s.params (stack.topmost s.params.length).toList with
    | none => exact .inl ⟨_, rfl⟩
    | some e => exact .inr ⟨e, rfl, mismatch?_ofFrame hm⟩

end Signature

/-! ## Properties of programs -/

structure Examines (P : (α : Type) → FrameM α → Prop) : Prop where
  pure : ∀ {α : Type} (a : α), P α (pure a)
  throw : ∀ {α : Type} {e : Fault}, e.OfFrame → P α (throw e)
  bind : ∀ {α β : Type} {x : FrameM α} {k : α → FrameM β}, P α x → (∀ a, P β (k a)) → P β (x >>= k)
  stack : ∀ {α : Type} {x : EStateM Fault OperandStack α}, Looks x → P α (Frame.onStack x)

structure Composes (P : (α : Type) → FrameM α → Prop) : Prop extends Examines P where
  locals : ∀ {α : Type} {x : EStateM Fault Locals α}, Looks x → P α (Frame.onLocals x)
  push : ∀ v : Value, P Unit (Frame.push v)
  pop : P Value Frame.pop
  pop2 : P (Value × Value) Frame.pop2
  setLocal : ∀ (i : Nat) (v : Value), P Unit (Frame.setLocal i v)
  intern : ∀ text : String, P Nat (Frame.intern text)
  resolve : ∀ handle : Nat, P String (Frame.resolve handle)

structure Closed (P : (α : Type) → FrameM α → Prop) : Prop extends Composes P where
  raise : ∀ {α : Type} (e : Fault), P α (MonadExcept.throw e)
  attempt : ∀ {α : Type} {x : FrameM α}, P α x → P (Except Fault α) (Frame.attempt x)
  print : ∀ preface text : String, P Unit (Frame.print preface text)
  note : ∀ r : Reply, P Unit (Frame.note r)

namespace Examines

variable {P : (α : Type) → FrameM α → Prop} (h : Examines P)
include h

theorem map {α β : Type} {x : FrameM α} (g : α → β) (hx : P α x) : P β (g <$> x) := by
  rw [map_eq_pure_bind]
  exact h.bind hx fun _ => h.pure _

omit h in
theorem ite {α : Type} {c : Prop} [Decidable c] {x y : FrameM α} (hx : P α x) (hy : P α y) :
    P α (if c then x else y) := by
  by_cases hc : c
  · rwa [if_pos hc]
  · rwa [if_neg hc]

theorem depth : P Nat Frame.depth := h.stack (x := fun s => .ok s.depth s) fun _ => .inl ⟨_, rfl⟩

theorem peekNth (n : Nat) : P Value (Frame.peekNth n) := h.stack (looks_peekNth n)

theorem checkArguments (s : Signature) : P Unit s.checkArguments := by
  rw [Signature.checkArguments_eq]
  exact h.stack s.looks_examine

theorem checkResult (s : Signature) (before : Nat) : P Unit (s.checkResult before) := by
  unfold Signature.checkResult
  cases s.returns with
  | none => exact h.bind h.depth fun _ => ite (h.bind (h.throw trivial) fun _ => h.pure _) (h.pure _)
  | some k =>
    have hkind : P Unit (Frame.peek >>= fun v => if v.kind ≠ k then MonadExcept.throw (.typeMismatch .call k v.kind)
        else Pure.pure ()) := h.bind (h.peekNth 0) fun _ => ite (h.throw trivial) (h.pure _)
    apply h.bind h.depth
    intro actual
    exact ite (h.bind (h.throw trivial) fun _ => hkind) hkind

theorem invoke (s : Signature) {x : Handler} (hx : P Unit x.run) : P Unit (s.invoke x) :=
  h.bind (h.checkArguments s) fun _ => h.bind h.depth fun before => h.bind hx fun _ => h.checkResult s before

end Examines

namespace Composes

variable {P : (α : Type) → FrameM α → Prop} (h : Composes P)
include h

theorem getLocal (i : Nat) : P Value (Frame.getLocal i) := h.locals (looks_get i)

theorem addressOf (i : Nat) : P Value (Frame.addressOf i) := h.locals (looks_addressOf i)

theorem popAs {α : Type} (read : Value → Option α) : P α (Frame.popAs read) := by
  apply h.bind h.pop
  intro v
  cases read v with
  | none => exact h.throw trivial
  | some a => exact h.pure a

theorem popString : P String Frame.popString := h.bind (h.popAs _) h.resolve

theorem pushString (text : String) : P Unit (Frame.pushString text) := h.bind (h.intern text) fun _ => h.push _

theorem builtin (write : ∀ text, P Unit (Builtin.write text)) (b : Builtin) : P Unit b.run := by
  cases b with
  | writeLine => exact write _
  | writeLineString | writeString => exact h.bind h.popString fun _ => write _
  | writeLineInt32 | writeInt32 => exact h.bind (h.popAs _) fun _ => write _
  | sqrt => exact h.bind (h.popAs _) fun _ => h.push _
  | length => exact h.bind h.popString fun _ => Examines.ite (h.push _) (h.throw trivial)
  | concat => exact h.bind h.popString fun _ => h.bind h.popString fun _ => h.pushString _

/-! ## Instructions -/

theorem binary {op : Value → Value → Except Fault Value}
    (hop : ∀ {a b : Value} {e : Fault}, op a b = .error e → e.OfFrame) : P Unit (Machine.binary op) := by
  apply h.bind h.pop2
  intro operands
  obtain ⟨a, b⟩ := operands
  cases hr : op a b with
  | ok v =>
    simp only [hr]
    exact h.push v
  | error e =>
    simp only [hr]
    exact h.throw (hop hr)

theorem comparison (op : Operation) (wanted : Ordering) : P Unit (Machine.comparison op wanted) := by
  apply h.binary
  intro a b e he
  cases hc : a.compare op b with
  | ok o =>
    rw [hc] at he
    cases he
  | error e' =>
    rw [hc] at he
    cases he
    exact compare_ofFrame hc

theorem popCondition (op : Operation) : P Int (Machine.popCondition op) := by
  apply h.bind h.pop
  intro v
  cases v.integer? with
  | none => exact h.throw trivial
  | some n => exact h.pure n

theorem test (op : Operation) (wanted : Int) (offset : Int32) : P Move (Machine.test op wanted offset) :=
  h.bind (h.popCondition op) fun _ => Examines.ite (h.pure _) (h.pure _)

theorem loadString (image : Image) (token : UInt16) : P Unit (Machine.loadString image token) := by
  unfold Machine.loadString
  cases hs : image.userString token with
  | ok text => exact h.pushString text
  | error e => exact h.throw (userString_ofFrame hs)

theorem dispatch {rules : Rules} (handlers : ∀ s x, rules.registry.lookup? s = some x → P Unit x.run) (image : Image)
    (token : UInt32) : P Unit (Machine.dispatch rules image token) := by
  unfold Machine.dispatch
  cases image.resolve? token with
  | none => exact h.throw trivial
  | some t =>
    cases t with
    | body m => exact h.throw trivial
    | external s =>
      simp only []
      cases hx : rules.registry.lookup? s with
      | none => exact h.throw trivial
      | some x => exact h.invoke s (handlers s x hx)

/-- Calls apart, no instruction gets to a handler. -/
theorem effect {rules : Rules} {image : Image} {i : Instruction}
    (calls : ∀ token, i = .call token → P Unit (Machine.dispatch rules image token)) :
    P Move (Machine.effect rules image i) := by
  have stay : ∀ {x : FrameM Unit}, P Unit x → P Move (Machine.andStay x) := fun hx => h.bind hx fun _ => h.pure _
  cases i with
  | nop | br offset => exact h.pure _
  | ret =>
    let x : EStateM Fault OperandStack Move := fun s => .ok (.halt (if s.depth = 0 then none else some (s.nth 0))) s
    exact h.stack (x := x) fun _ => .inl ⟨_, rfl⟩
  | ldloc i => exact stay (h.bind (h.getLocal _) fun _ => h.push _)
  | ldloca i => exact stay (h.bind (h.addressOf _) fun _ => h.push _)
  | stloc i => exact stay (h.bind h.pop fun _ => h.setLocal _ _)
  | ldcI4 v | ldcR8 bits => exact stay (h.push _)
  | call token => exact stay (calls token rfl)
  | brfalse offset | brtrue offset => exact h.test _ _ offset
  | add => exact stay (h.binary add_ofFrame)
  | div => exact stay (h.binary div_ofFrame)
  | rem => exact stay (h.binary rem_ofFrame)
  | ceq | cgt | clt => exact stay (h.comparison _ _)
  | convR8 => exact stay (h.bind h.pop fun _ => h.push _)
  | ldstr token => exact stay (h.loadString image token)

end Composes

namespace Closed

variable {P : (α : Type) → FrameM α → Prop} (h : Closed P)
include h

theorem action (a : Action) : P Reply a.run := by
  cases a with
  | push v => exact h.bind (h.push v) fun _ => h.pure _
  | pushString text => exact h.bind (h.pushString text) fun _ => h.pure _
  | pop => exact h.map _ h.pop
  | peek => exact h.map _ (h.peekNth 0)
  | peekNth n => exact h.map _ (h.peekNth n)
  | pop2 => exact h.bind h.pop2 fun _ => h.pure _
  | popInt32 | popFloat | popHandle => exact h.map _ (h.popAs _)
  | popString => exact h.map _ h.popString
  | getLocal i => exact h.map _ (h.getLocal i)
  | addressOf i => exact h.map _ (h.addressOf i)
  | setLocal i v => exact h.bind (h.setLocal i v) fun _ => h.pure _
  | intern text => exact h.map _ (h.intern text)
  | resolve handle => exact h.map _ (h.resolve handle)
  | print text => exact h.bind (h.print _ text) fun _ => h.pure _
  | note r => exact h.bind (h.note r) fun _ => h.pure _
  | raise e => exact h.raise e
  | call b => exact h.bind (h.builtin (h.print _) b) fun _ => h.pure _

/-- Whatever an operation gives, the rest of the tree has the property. -/
theorem handler (x : Handler) : P Unit x.run := by
  induction x with
  | builtin b => exact h.builtin (h.print _) b
  | done => exact h.pure ()
  | raise e => exact h.raise e
  | perform a next ih => exact h.bind (h.attempt (h.action a)) ih

theorem effect (rules : Rules) (image : Image) (i : Instruction) : P Move (Machine.effect rules image i) :=
  h.toComposes.effect fun token _ => h.dispatch (fun _ x _ => h.handler x) image token

end Closed

end StackVm
