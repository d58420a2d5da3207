import StackVm.Frame

/-!
# Operations on a frame

One equation for each outcome of an operation: what it needs, what it gives and
the frame it leaves. `bind_of_ok` and `bind_of_error` put them together.
-/

namespace StackVm

section
variable {ε σ α β : Type} {x : EStateM ε σ α} {k : α → EStateM ε σ β} {s t : σ}

theorem bind_of_ok {a : α} (h : x s = .ok a t) : (x >>= k) s = k a t := by
  show EStateM.bind x k s = _
  unfold EStateM.bind; rw [h]

theorem bind_of_error {e : ε} (h : x s = .error e t) : (x >>= k) s = .error e t := by
  show EStateM.bind x k s = _
  unfold EStateM.bind; rw [h]

end

/-- The state that a computation leaves behind, whether it fails or not. -/
def left {ε σ α : Type} : EStateM.Result ε σ α → σ
  | .ok _ s | .error _ s => s

theorem OperandStack.getElem?_values {s : OperandStack} {k : Nat} (hk : k < s.depth) (hd : s.depth ≤ s.capacity) :
    s.values[s.depth - 1 - k]? = some (s.nth k) := by
  have hsize : s.depth ≤ s.slots.size := hd
  have hlt : s.depth - 1 - k < s.slots.size := by omega
  unfold values nth
  rw [Array.getElem?_extract, if_pos (by omega), Nat.zero_add, Array.getD_eq_getD_getElem?,
    Array.getElem?_eq_getElem hlt]
  rfl

namespace Frame

def dropped (f : Frame) (n : Nat) : Frame := { f with stack := { f.stack with depth := f.stack.depth - n } }

def pushed (f : Frame) (v : Value) : Frame :=
  { f with stack := ⟨f.stack.slots.setIfInBounds f.stack.depth v, f.stack.depth + 1⟩ }

def stored (f : Frame) (i : Nat) (v : Value) : Frame := { f with locals := ⟨f.locals.slots.setIfInBounds i v⟩ }

variable {f : Frame}

theorem onStack_of_ok {α : Type} {x : EStateM Fault OperandStack α} {a : α} {s : OperandStack}
    (h : x f.stack = .ok a s) : onStack x f = .ok a { f with stack := s } := by
  obtain ⟨stack, locals, strings, host⟩ := f
  unfold onStack; simp only [h]

theorem onStack_of_error {α : Type} {x : EStateM Fault OperandStack α} {e : Fault} {s : OperandStack}
    (h : x f.stack = .error e s) : onStack x f = .error e { f with stack := s } := by
  obtain ⟨stack, locals, strings, host⟩ := f
  unfold onStack; simp only [h]

theorem onLocals_of_ok {α : Type} {x : EStateM Fault Locals α} {a : α} {b : Locals}
    (h : x f.locals = .ok a b) : onLocals x f = .ok a { f with locals := b } := by
  obtain ⟨stack, locals, strings, host⟩ := f
  unfold onLocals; simp only [h]

theorem onLocals_of_error {α : Type} {x : EStateM Fault Locals α} {e : Fault} {b : Locals}
    (h : x f.locals = .error e b) : onLocals x f = .error e { f with locals := b } := by
  obtain ⟨stack, locals, strings, host⟩ := f
  unfold onLocals; simp only [h]

/-! ## The stack -/

theorem push_of_lt {v : Value} (h : f.stack.depth < f.stack.capacity) : push v f = .ok () (f.pushed v) := by
  have hlt : f.stack.depth < f.stack.slots.size := h
  refine onStack_of_ok ((dif_pos hlt).trans ?_)
  rw [Array.setIfInBounds, dif_pos hlt]

theorem push_of_le {v : Value} (h : f.stack.capacity ≤ f.stack.depth) :
    push v f = .error (.overflow f.stack.capacity) f :=
  onStack_of_error (dif_neg (Nat.not_lt.mpr h))

theorem pop_of_pos (h : 0 < f.stack.depth) : pop f = .ok (f.stack.nth 0) (f.dropped 1) :=
  onStack_of_ok (if_neg (Nat.ne_of_gt h))

theorem pop_of_zero (h : f.stack.depth = 0) : pop f = .error (.underflow 1 0) f := onStack_of_error (if_pos h)

theorem pop2_of_le (h : 2 ≤ f.stack.depth) : pop2 f = .ok (f.stack.nth 1, f.stack.nth 0) (f.dropped 2) :=
  onStack_of_ok (if_neg (Nat.not_lt.mpr h))

theorem pop2_of_lt (h : f.stack.depth < 2) : pop2 f = .error (.underflow 2 f.stack.depth) f :=
  onStack_of_error (if_pos h)

theorem nth_pushed {v : Value} (h : f.stack.depth < f.stack.capacity) : (f.pushed v).stack.nth 0 = v := by
  have hlt : f.stack.depth < f.stack.slots.size := h
  simp [OperandStack.nth, pushed, hlt]

theorem nth_succ_pushed {v : Value} {k : Nat} (h : k < f.stack.depth) :
    (f.pushed v).stack.nth (k + 1) = f.stack.nth k := by
  have hne : f.stack.depth ≠ f.stack.depth - 1 - k := by omega
  have hslot : f.stack.depth + 1 - 1 - (k + 1) = f.stack.depth - 1 - k := by omega
  unfold OperandStack.nth pushed
  rw [Array.getD_eq_getD_getElem?, Array.getD_eq_getD_getElem?, hslot, Array.getElem?_setIfInBounds_ne hne]

theorem peek_of_pos (h : 0 < f.stack.depth) : peek f = .ok (f.stack.nth 0) f :=
  onStack_of_ok (if_neg (Nat.not_le.mpr h))

theorem peek_of_zero (h : f.stack.depth = 0) : peek f = .error (.underflow 1 0) f := by
  refine onStack_of_error ((if_pos (Nat.le_zero.mpr h)).trans ?_)
  rw [h]

/-! ## The locals -/

theorem getLocal_of_lt {i : Nat} (h : i < f.locals.size) : getLocal i f = .ok (f.locals.slots[i]) f := by
  refine onLocals_of_ok ?_
  unfold Locals.get
  rw [Array.getElem?_eq_getElem h]

theorem getLocal_of_le {i : Nat} (h : f.locals.size ≤ i) :
    getLocal i f = .error (.indexOutOfRange i f.locals.size) f := by
  refine onLocals_of_error ?_
  unfold Locals.get
  rw [Array.getElem?_eq_none h]

theorem setLocal_of_lt {i : Nat} {v : Value} (h : i < f.locals.size) : setLocal i v f = .ok () (f.stored i v) := by
  have hlt : i < f.locals.slots.size := h
  refine onLocals_of_ok ((dif_pos hlt).trans ?_)
  rw [Array.setIfInBounds, dif_pos hlt]

theorem setLocal_of_le {i : Nat} {v : Value} (h : f.locals.size ≤ i) :
    setLocal i v f = .error (.indexOutOfRange i f.locals.size) f :=
  onLocals_of_error (dif_neg (Nat.not_lt.mpr h))

theorem addressOf_of_lt {i : Nat} (h : i < f.locals.size) : addressOf i f = .ok (.address i) f :=
  onLocals_of_ok (if_pos h)

theorem addressOf_of_le {i : Nat} (h : f.locals.size ≤ i) :
    addressOf i f = .error (.indexOutOfRange i f.locals.size) f :=
  onLocals_of_error (if_neg (Nat.not_lt.mpr h))

/-! ## The texts and the console -/

theorem intern_eq (f : Frame) (text : String) :
    intern text f = .ok (f.strings.intern text).1 { f with strings := (f.strings.intern text).2 } := rfl

def loaded (f : Frame) (text : String) : Frame :=
  pushed { f with strings := (f.strings.intern text).2 } (.string (f.strings.intern text).1)

theorem pushString_of_lt (text : String) (h : f.stack.depth < f.stack.capacity) :
    pushString text f = .ok () (f.loaded text) := by
  unfold pushString
  rw [bind_of_ok (intern_eq f text)]
  exact push_of_lt h

theorem nth_loaded (text : String) (h : f.stack.depth < f.stack.capacity) :
    (f.loaded text).stack.nth 0 = .string (f.strings.intern text).1 :=
  nth_pushed (f := { f with strings := (f.strings.intern text).2 }) h

theorem resolve_of_get? {handle : Nat} {text : String} (h : f.strings.get? handle = some text) :
    resolve handle f = .ok text f := by
  simp only [resolve, StringTable.resolve, h]

theorem popAs_of_some {α : Type} {read : Value → Option α} {a : α} (hd : 0 < f.stack.depth)
    (h : read (f.stack.nth 0) = some a) : popAs read f = .ok a (f.dropped 1) := by
  unfold popAs
  rw [bind_of_ok (pop_of_pos hd)]
  simp only [h]
  rfl

theorem popAs_of_none {α : Type} {read : Value → Option α} (hd : 0 < f.stack.depth)
    (h : read (f.stack.nth 0) = none) :
    popAs read f = .error (.invalidOperand .plugArgument (f.stack.nth 0).kind) (f.dropped 1) := by
  unfold popAs
  rw [bind_of_ok (pop_of_pos hd)]
  simp only [h]
  rfl

theorem popString_of_get? {handle : Nat} {text : String} (hd : 0 < f.stack.depth)
    (hv : f.stack.nth 0 = .string handle) (ht : f.strings.get? handle = some text) :
    popString f = .ok text (f.dropped 1) := by
  have hread : (f.stack.nth 0).handle? = some handle := by rw [hv]; rfl
  have hpop : popHandle f = .ok handle (f.dropped 1) := popAs_of_some hd hread
  unfold popString
  rw [bind_of_ok hpop]
  exact resolve_of_get? (f := f.dropped 1) ht

def printed (f : Frame) (text : String) : Frame :=
  { f with host := { f.host with console := (f.host.console.writeText text).2 } }

theorem print_of_fits {preface text : String} (h : (f.host.console.writeText text).1 = true) :
    print preface text f = .ok () (f.printed text) := by
  obtain ⟨stack, locals, strings, console, notes⟩ := f
  unfold print printed
  cases hw : console.writeText text with
  | mk fits after =>
    rw [hw] at h
    cases h
    simp only [hw]

theorem print_of_not_fits {preface text : String} (h : (f.host.console.writeText text).1 = false) :
    print preface text f = .error (.plug (preface ++ f.host.console.failure)) (f.printed text) := by
  obtain ⟨stack, locals, strings, console, notes⟩ := f
  unfold print printed
  cases hw : console.writeText text with
  | mk fits after =>
    rw [hw] at h
    cases h
    simp only [hw]

/-! ## Attempts -/

theorem attempt_of_ok {α : Type} {x : FrameM α} {a : α} {g : Frame} (h : x f = .ok a g) :
    attempt x f = .ok (.ok a) g := by
  unfold attempt
  rw [h]

theorem attempt_of_error {α : Type} {x : FrameM α} {e : Fault} {g : Frame} (h : x f = .error e g) :
    attempt x f = .ok (.error e) g := by
  unfold attempt
  rw [h]

end Frame

theorem Console.write_of_open {c : Console} (h : c.capacity = none) (bytes : Array UInt8) :
    c.write bytes = (true, { c with written := c.written ++ bytes }) := by
  unfold write
  rw [h]

theorem Console.writeText_of_fits {c : Console} {text : String} (h : (c.writeText text).1 = true) :
    (c.writeText text).2 = { c with written := c.written ++ text.toUTF8.data } := by
  obtain ⟨written, capacity, failure⟩ := c
  cases capacity with
  | none => rfl
  | some capacity =>
    have hroom : text.toUTF8.data.size ≤ capacity - written.size := of_decide_eq_true h
    simp only [writeText, write, Array.extract_eq_self_of_le hroom]

end StackVm
