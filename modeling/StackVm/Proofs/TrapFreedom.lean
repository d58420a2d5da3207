import StackVm.Proofs.CallProtocol
import StackVm.Proofs.LastingProperties
import StackVm.Proofs.StrictMachine

/-!
# No trap is reached

While the depth of the stack is at most its capacity, the strict machine does what
the machine does (`Untrapped`). Handlers and instructions keep that bound whatever they
do, so it holds before every operation of every run, and no operation traps.
-/

namespace StackVm

def Frame.Bounded (f : Frame) : Prop := f.stack.depth ≤ f.stack.capacity

theorem lasting_bounded : Lasting Frame.Bounded where
  pushed {f} v _ h := by
    have hsize : (f.pushed v).stack.capacity = f.stack.capacity := Array.size_setIfInBounds
    unfold Frame.Bounded
    rw [hsize]
    exact h
  dropped h _ := Nat.le_trans (Nat.sub_le _ _) h
  stored _ h _ := h
  strings _ h := h
  host _ h := h
  fresh _ _ := Nat.zero_le _
  load _ _ := Nat.zero_le _

theorem closed_bounded : Closed fun _ x => Keeps Frame.Bounded x := closed_keeps lasting_bounded.toFrameInvariant

/-- In bounded frames `x` does not trap and does what `y` does. -/
def Untrapped {α : Type} (x : StrictM α) (y : FrameM α) : Prop := ∀ f, f.Bounded → x f = .ok (y f)

section
variable {α β : Type}

theorem untrapped_lift (y : FrameM α) : Untrapped (.lift y) y := fun _ _ => rfl

theorem bind_eq {x : StrictM α} {y : FrameM α} {k : α → StrictM β} {l : α → FrameM β} {f : Frame}
    (hx : x f = .ok (y f)) (hk : ∀ a g, y f = .ok a g → k a g = .ok (l a g)) : (x >>= k) f = .ok ((y >>= l) f) := by
  show StrictM.bind x k f = _
  unfold StrictM.bind
  rw [hx]
  cases hr : y f with
  | ok a g =>
    rw [bind_of_ok hr]
    exact hk a g hr
  | error e g => rw [bind_of_error hr]

theorem untrapped_bind {x : StrictM α} {y : FrameM α} {k : α → StrictM β} {l : α → FrameM β} (hx : Untrapped x y)
    (hy : Keeps Frame.Bounded y) (hk : ∀ a, Untrapped (k a) (l a)) : Untrapped (x >>= k) (y >>= l) := by
  intro f hf
  apply bind_eq (hx f hf)
  intro a g hr
  have hkept := hy f hf
  rw [hr] at hkept
  exact hk a g hkept

theorem untrapped_map {x : StrictM α} {y : FrameM α} (g : α → β) (hx : Untrapped x y) (hy : Keeps Frame.Bounded y) :
    Untrapped (x >>= fun a => pure (g a)) (g <$> y) := by
  rw [map_eq_pure_bind]
  exact untrapped_bind hx hy fun _ => untrapped_lift _

theorem untrapped_ite (c : Prop) [Decidable c] {x x' : StrictM α} {y y' : FrameM α} (hx : Untrapped x y)
    (hx' : Untrapped x' y') : Untrapped (if c then x else x') (if c then y else y') := by
  by_cases h : c
  · rwa [if_pos h, if_pos h]
  · rwa [if_neg h, if_neg h]

end

namespace Strict

@[simp] theorem expect_some_bind {α β : Type} (t : Trap) (a : α) (k : α → Except Trap β) :
    (expect t (some a) >>= k) = k a := rfl

theorem difference?_of_le {a b : Nat} (h : b ≤ a) : difference? a b = some (a - b) := if_pos h

theorem slice?_of_le {α : Type} {xs : List α} {lo hi : Nat} (h : lo ≤ hi) (hs : hi ≤ xs.length) :
    slice? xs lo hi = some ((xs.take hi).drop lo) := if_pos ⟨h, hs⟩

theorem slice?_to_end {α : Type} {xs : List α} {lo : Nat} (h : lo ≤ xs.length) :
    slice? xs lo xs.length = some (xs.drop lo) := by
  rw [slice?_of_le h (Nat.le_refl _), List.take_length]

/-! ## The stack -/

theorem slot_of_lt {f : Frame} (hf : f.Bounded) {n : Nat} (h : n < f.stack.depth) :
    f.stack.slots[f.stack.depth - 1 - n]? = some (f.stack.nth n) := by
  have hsize : f.stack.depth ≤ f.stack.slots.size := hf
  have hlt : f.stack.depth - 1 - n < f.stack.slots.size := by omega
  unfold OperandStack.nth
  rw [Array.getD_eq_getD_getElem?, Array.getElem?_eq_getElem hlt]
  rfl

theorem untrapped_pop : Untrapped pop Frame.pop := by
  intro f hf
  unfold pop
  by_cases h : f.stack.depth = 0
  · rw [if_pos h, Frame.pop_of_zero h]
  · have hpos : 0 < f.stack.depth := Nat.pos_of_ne_zero h
    have hslot : f.stack.slots[f.stack.depth - 1]? = some (f.stack.nth 0) := slot_of_lt hf hpos
    rw [if_neg h, Frame.pop_of_pos hpos, difference?_of_le (show 1 ≤ f.stack.depth from hpos)]
    simp only [expect_some_bind, hslot]
    rfl

example (f : Frame) : pop { f with stack := ⟨#[], 1⟩ } = .error .slot := rfl

theorem untrapped_pop2 : Untrapped pop2 Frame.pop2 := by
  intro f hf
  unfold pop2
  by_cases h : f.stack.depth < 2
  · rw [if_pos h, Frame.pop2_of_lt h]
  · have hle : 2 ≤ f.stack.depth := Nat.le_of_not_lt h
    have hsecond : f.stack.slots[f.stack.depth - 2]? = some (f.stack.nth 1) := slot_of_lt hf hle
    have htop : f.stack.slots[f.stack.depth - 2 + 1]? = some (f.stack.nth 0) := by
      rw [show f.stack.depth - 2 + 1 = f.stack.depth - 1 - 0 by omega]
      exact slot_of_lt hf (by omega)
    rw [if_neg h, Frame.pop2_of_le hle, difference?_of_le hle]
    simp only [expect_some_bind, hsecond, htop]
    rfl

theorem untrapped_peekNth (n : Nat) : Untrapped (peekNth n) (Frame.peekNth n) := by
  intro f hf
  unfold peekNth
  by_cases h : f.stack.depth ≤ n
  · rw [if_pos h, show Frame.peekNth n f = _ from Frame.onStack_of_error (if_pos h)]
  · have hslot := slot_of_lt hf (Nat.lt_of_not_le h)
    rw [if_neg h, show Frame.peekNth n f = _ from Frame.onStack_of_ok (if_neg h), difference?_of_le (by omega)]
    simp only [expect_some_bind, difference?_of_le (show n ≤ f.stack.depth - 1 by omega), hslot]
    rfl

theorem untrapped_popAs {α : Type} (read : Value → Option α) : Untrapped (popAs read) (Frame.popAs read) := by
  apply untrapped_bind untrapped_pop closed_bounded.pop
  intro v
  cases read v <;> exact untrapped_lift _

theorem untrapped_popString : Untrapped popString Frame.popString :=
  untrapped_bind (untrapped_popAs _) (closed_bounded.popAs _) fun _ => untrapped_lift _

/-! ## Handlers -/

theorem untrapped_builtin (b : Builtin) : Untrapped (builtin b) b.run := by
  cases b with
  | writeLine => exact untrapped_lift _
  | writeLineString | writeString =>
    exact untrapped_bind untrapped_popString closed_bounded.popString fun _ => untrapped_lift _
  | writeLineInt32 | writeInt32 | sqrt =>
    exact untrapped_bind (untrapped_popAs _) (closed_bounded.popAs _) fun _ => untrapped_lift _
  | length =>
    apply untrapped_bind untrapped_popString closed_bounded.popString
    intro text
    exact untrapped_ite _ (untrapped_lift _) (untrapped_lift _)
  | concat =>
    apply untrapped_bind untrapped_popString closed_bounded.popString
    intro second
    exact untrapped_bind untrapped_popString closed_bounded.popString fun _ => untrapped_lift _

theorem untrapped_action (a : Action) : Untrapped (action a) a.run := by
  cases a with
  | pop => exact untrapped_map _ untrapped_pop closed_bounded.pop
  | popInt32 | popFloat | popHandle => exact untrapped_map _ (untrapped_popAs _) (closed_bounded.popAs _)
  | popString => exact untrapped_map _ untrapped_popString closed_bounded.popString
  | peek => exact untrapped_map _ (untrapped_peekNth 0) (closed_bounded.peekNth 0)
  | peekNth n => exact untrapped_map _ (untrapped_peekNth n) (closed_bounded.peekNth n)
  | pop2 => exact untrapped_bind untrapped_pop2 closed_bounded.pop2 fun _ => untrapped_lift _
  | call b =>
    exact untrapped_bind (untrapped_builtin b) (closed_bounded.handler (.builtin b)) fun _ => untrapped_lift _
  | _ => exact untrapped_lift _

theorem untrapped_attempt {α : Type} {x : StrictM α} {y : FrameM α} (h : Untrapped x y) :
    Untrapped (attempt x) (Frame.attempt y) := by
  intro f hf
  unfold attempt
  rw [h f hf]
  cases hr : y f with
  | ok a g =>
    rw [Frame.attempt_of_ok hr]
    rfl
  | error e g =>
    rw [Frame.attempt_of_error hr]
    rfl

theorem untrapped_handler (h : Handler) : Untrapped (handler h) h.run := by
  induction h with
  | builtin b => exact untrapped_builtin b
  | done | raise e => exact untrapped_lift _
  | perform a next ih =>
    exact untrapped_bind (untrapped_attempt (untrapped_action a)) (keeps_attempt (closed_bounded.action a)) ih

/-! ## Calls -/

theorem activeSlots_of_le {s : OperandStack} (h : s.depth ≤ s.capacity) : activeSlots s = .ok s.values.toList := by
  have hsize : s.depth ≤ s.slots.toList.length := h
  unfold activeSlots
  rw [slice?_of_le (Nat.zero_le _) hsize]
  simp [expect, OperandStack.values]

/-- The declared parameters are the topmost values; a receiver lies below them. -/
theorem drop_values (s : OperandStack) {n k : Nat} (h : n + k ≤ s.depth) :
    (s.values.toList.drop (s.depth - (n + k))).drop k = (s.topmost n).toList := by
  rw [List.drop_drop, show s.depth - (n + k) + k = s.depth - n by omega]
  simp [OperandStack.values, OperandStack.topmost, List.drop_take]

theorem untrapped_checkArguments (s : Signature) : Untrapped (checkArguments s) s.checkArguments := by
  intro f hf
  unfold checkArguments Signature.checkArguments
  by_cases h : f.stack.depth < s.arity
  · rw [if_pos h, if_pos h]
  · have hle : s.arity ≤ f.stack.depth := Nat.le_of_not_lt h
    have hlength : f.stack.values.toList.length = f.stack.depth := by
      have hsize : f.stack.depth ≤ f.stack.slots.size := hf
      simp [OperandStack.values, Nat.min_eq_left hsize]
    have hargs : f.stack.depth - s.arity ≤ f.stack.values.toList.length := by omega
    have hreceiver : s.isInstance.toNat ≤ (f.stack.values.toList.drop (f.stack.depth - s.arity)).length := by
      have harity : s.isInstance.toNat ≤ s.arity := Nat.le_add_left _ _
      rw [List.length_drop]
      omega
    have hdeclared : (f.stack.values.toList.drop (f.stack.depth - s.arity)).drop s.isInstance.toNat = _ :=
      drop_values f.stack hle
    rw [if_neg h, if_neg h, activeSlots_of_le hf, difference?_of_le hle]
    show (expect _ (slice? _ _ _) >>= _) = _
    rw [slice?_to_end hargs, expect_some_bind, slice?_to_end hreceiver, expect_some_bind, hdeclared]
    cases Signature.mismatch? s.params _ <;> rfl

theorem checkKind_of_pos {f : Frame} (hf : f.Bounded) (hd : 0 < f.stack.depth) (k : Kind) : checkKind k f =
    .ok (if (f.stack.nth 0).kind = k then .ok () f else .error (.typeMismatch .call k (f.stack.nth 0).kind) f) := by
  have hpeek : peek f = .ok (.ok (f.stack.nth 0) f) := by
    rw [← Frame.peek_of_pos hd]
    exact untrapped_peekNth 0 f hf
  show StrictM.bind peek _ f = _
  simp only [StrictM.bind, hpeek]
  by_cases h : (f.stack.nth 0).kind = k
  · simp [h]
    rfl
  · simp [h]
    rfl

/-- The difference is defined because the arguments were on the stack before. -/
theorem untrapped_checkResult {s : Signature} {before : Nat} (h : s.arity ≤ before) :
    Untrapped (checkResult s before) (s.checkResult before) := by
  intro f hf
  unfold checkResult
  rw [difference?_of_le h, expect_some_bind]
  by_cases hd : f.stack.depth = before - s.arity + s.results
  · rw [if_neg (not_not_intro hd)]
    cases hr : s.returns with
    | none =>
      rw [Signature.checkResult_of_void hd hr]
      rfl
    | some k =>
      have hpos : 0 < f.stack.depth := by simp [hd, Signature.results, hr]
      rw [Signature.checkResult_of_some hd hr]
      exact checkKind_of_pos hf hpos k
  · rw [if_pos hd, Signature.checkResult_of_depth_ne hd]
    rfl

theorem checkArguments_ok {s : Signature} {f g : Frame} (h : s.checkArguments f = .ok () g) :
    g = f ∧ s.arity ≤ f.stack.depth := by
  have hk := (examines_keeps fun g => g = f).checkArguments s f rfl
  rw [h] at hk
  refine ⟨hk, Nat.le_of_not_lt fun hlt => ?_⟩
  rw [checkArguments_of_lt hlt] at h
  cases h

theorem untrapped_invoke (s : Signature) (h : Handler) : Untrapped (invoke s h) (s.invoke h) := by
  intro f hf
  apply bind_eq (untrapped_checkArguments s f hf)
  intro _ g hc
  obtain ⟨rfl, hle⟩ := checkArguments_ok hc
  apply bind_eq rfl
  intro before g' hb
  cases hb
  have hhandler := closed_bounded.handler h
  exact untrapped_bind (untrapped_handler h) hhandler (fun _ => untrapped_checkResult hle) g hf

/-! ## Values -/

theorem map_divide {α : Type} [DecidableEq α] [OfNat α 0] (q : α → α → α) (a b : α) (v : α → Value) :
    (divide q a b).map (·.map v) = .ok (if b = 0 then .error .divideByZero else .ok (v (q a b))) := by
  unfold divide quotient
  by_cases h : b = 0
  · rw [if_pos h, if_pos h]
    rfl
  · rw [if_neg h, if_neg h, if_neg h]
    rfl

theorem add_eq (a b : Value) : add a b = .ok (a.add b) := by
  cases a <;> cases b <;> rfl

theorem div_eq (a b : Value) : div a b = .ok (a.div b) := by
  cases a <;> cases b
  case byte.byte | int16.int16 | int32.int32 | int64.int64 | nativeInt.nativeInt => exact map_divide _ _ _ _
  all_goals rfl

theorem rem_eq (a b : Value) : rem a b = .ok (a.rem b) := by
  cases a <;> cases b
  case byte.byte | int16.int16 | int32.int32 | int64.int64 | nativeInt.nativeInt => exact map_divide _ _ _ _
  all_goals rfl

/-! ## Texts -/

theorem pairs_cons (low high : UInt8) (bytes : List UInt8) :
    pairs (low :: high :: bytes) = [low, high] :: pairs bytes := by
  unfold pairs
  rw [show (low :: high :: bytes).length / 2 = bytes.length / 2 + 1 by simp; omega, List.range_succ_eq_map]
  simp [Function.comp_def, Nat.mul_add]

theorem mapM_pairs : ∀ bytes : List UInt8, bytes.length % 2 = 0 →
    ∃ us, UserString.unitsOfBytes? bytes = some us ∧ (pairs bytes).mapM unit = .ok us
  | [], _ => ⟨[], rfl, rfl⟩
  | [_], h => by cases h
  | low :: high :: bytes, h => by
    rw [List.length_cons, List.length_cons] at h
    obtain ⟨us, hus, hmap⟩ := mapM_pairs bytes (by omega)
    refine ⟨(low.toUInt16 ||| high.toUInt16 <<< 8) :: us, by simp [UserString.unitsOfBytes?, hus], ?_⟩
    rw [pairs_cons, List.mapM_cons, hmap]
    rfl

theorem unitsOfBytes?_of_odd : ∀ bytes : List UInt8, bytes.length % 2 ≠ 0 → UserString.unitsOfBytes? bytes = none
  | [], h => absurd rfl h
  | [_], _ => rfl
  | low :: high :: bytes, h => by
    rw [List.length_cons, List.length_cons] at h
    simp [UserString.unitsOfBytes?, unitsOfBytes?_of_odd bytes (by omega)]

theorem text_eq (token : UInt16) (payload : List UInt8) : text token payload =
    .ok (match (UserString.unitsOfBytes? payload).bind ofUnits? with
      | some text => .ok text
      | none => .error (.malformedString token)) := by
  unfold text
  by_cases h : payload.length % 2 = 0
  · obtain ⟨us, hus, hmap⟩ := mapM_pairs payload h
    rw [if_neg (not_not_intro h), hus, hmap]
    show (match ofUnits? us with | some text => _ | none => _) = _
    rw [Option.bind_some]
    cases ofUnits? us <;> rfl
  · rw [if_pos h, unitsOfBytes?_of_odd payload h]
    rfl

/-- A length byte announces at most 127 bytes, so only those are looked at. -/
theorem decode_eq (token : UInt16) (bytes : List UInt8) :
    decode token bytes = .ok (UserString.decode token (bytes.take (UserString.maxLength + 1))) := by
  cases bytes with
  | nil => rfl
  | cons length rest =>
    rw [List.take_succ_cons]
    simp only [decode, UserString.decode]
    by_cases hl : (decide (length ≥ 128) || length == 0) = true
    · rw [if_pos hl, if_pos hl]
    · have hpos : 1 ≤ length.toNat ∧ length.toNat ≤ UserString.maxLength := by
        simp only [Bool.or_eq_true, decide_eq_true_eq, beq_iff_eq, not_or, ge_iff_le, UInt8.not_le, ← UInt8.toNat_inj,
          UInt8.lt_iff_toNat_lt] at hl
        have h0 : length.toNat ≠ 0 := hl.2
        have h128 : length.toNat < 128 := hl.1
        exact ⟨Nat.pos_of_ne_zero h0, Nat.le_of_lt_succ h128⟩
      rw [if_neg hl, if_neg hl]
      by_cases hr : length.toNat ≤ rest.length
      · have hlong : ¬ (rest.take UserString.maxLength).length < length.toNat := by
          rw [List.length_take]
          omega
        have hpayload : slice? (rest.take length.toNat) 0 (length.toNat - 1) = some (rest.take (length.toNat - 1)) := by
          rw [slice?_of_le (Nat.zero_le _) (by rw [List.length_take]; omega), List.take_take, List.drop_zero,
            Nat.min_eq_left (Nat.sub_le _ _)]
        rw [slice?_of_le (Nat.zero_le _) hr, difference?_of_le hpos.1, if_neg hlong, List.take_take,
          Nat.min_eq_left (by omega), List.drop_zero]
        simp only [expect_some_bind, hpayload]
        exact text_eq token _
      · have hslice : slice? rest 0 length.toNat = none := if_neg fun h => hr h.2
        have hshort : (rest.take UserString.maxLength).length < length.toNat := by
          rw [List.length_take]
          omega
        rw [hslice, if_pos hshort]

theorem userString_eq (image : Image) (token : UInt16) : userString image token = .ok (image.userString token) := by
  unfold userString Image.userString Image.blobAt?
  by_cases h : Image.occursIn image.offsets token 0 image.offsets.size = true
  · have hwindow : (image.heap.extract token.toNat image.heap.size).toList.take (UserString.maxLength + 1) =
        (image.heap.extract token.toNat (token.toNat + UserString.maxLength + 1)).toList := by
      have hwidth : token.toNat + UserString.maxLength + 1 - token.toNat = UserString.maxLength + 1 := by omega
      simp [hwidth, List.take_of_length_le]
    rw [if_pos h, if_pos h, ← hwindow]
    exact decode_eq token _
  · rw [if_neg h, if_neg h]

/-! ## Instructions -/

theorem untrapped_binary {op : Value → Value → Except Trap (Except Fault Value)}
    {op' : Value → Value → Except Fault Value} (h : ∀ a b, op a b = .ok (op' a b)) :
    Untrapped (binary op) (Machine.binary op') := by
  apply untrapped_bind untrapped_pop2 closed_bounded.pop2
  intro operands f _
  obtain ⟨a, b⟩ := operands
  show (op a b >>= _) = _
  rw [h]
  cases hr : op' a b <;> simp only [hr] <;> rfl

theorem untrapped_test (op : Operation) (wanted : Int) (offset : Int32) :
    Untrapped (test op wanted offset) (Machine.test op wanted offset) := by
  have hpop : Untrapped (popCondition op) (Machine.popCondition op) := by
    apply untrapped_bind untrapped_pop closed_bounded.pop
    intro v
    cases v.integer? <;> exact untrapped_lift _
  apply untrapped_bind hpop (closed_bounded.popCondition op)
  intro n
  exact untrapped_ite _ (untrapped_lift _) (untrapped_lift _)

section
variable (rules : Rules) (image : Image)

theorem untrapped_loadString (token : UInt16) :
    Untrapped (loadString image token) (Machine.loadString image token) := by
  intro f _
  unfold loadString Machine.loadString
  rw [userString_eq]
  cases image.userString token <;> rfl

theorem untrapped_dispatch (token : UInt32) :
    Untrapped (dispatch rules image token) (Machine.dispatch rules image token) := by
  intro f hf
  unfold dispatch Machine.dispatch
  cases image.resolve? token with
  | none => rfl
  | some t =>
    cases t with
    | body m => rfl
    | external s =>
      simp only []
      cases rules.registry.lookup? s with
      | none => rfl
      | some h => exact untrapped_invoke s h f hf

theorem result_eq {f : Frame} (hf : f.Bounded) :
    result f = .ok (.ok (if f.stack.depth = 0 then none else some (f.stack.nth 0)) f) := by
  unfold result
  rw [show peek f = _ from untrapped_peekNth 0 f hf]
  by_cases h : f.stack.depth = 0
  · rw [if_pos h, show Frame.peekNth 0 f = _ from Frame.peek_of_zero h]
    rfl
  · rw [if_neg h, show Frame.peekNth 0 f = _ from Frame.peek_of_pos (Nat.pos_of_ne_zero h)]
    rfl

theorem untrapped_effect (i : Instruction) : Untrapped (effect rules image i) (Machine.effect rules image i) := by
  have stay : ∀ {x : StrictM Unit} {y : FrameM Unit}, Untrapped x y → Keeps Frame.Bounded y →
      Untrapped (andStay x) (Machine.andStay y) := fun hx hy => untrapped_bind hx hy fun _ => untrapped_lift _
  cases i with
  | stloc i =>
    exact stay (untrapped_bind untrapped_pop closed_bounded.pop fun _ => untrapped_lift _)
      (keeps_bind closed_bounded.pop fun _ => closed_bounded.setLocal _ _)
  | call token =>
    exact stay (untrapped_dispatch rules image token)
      (closed_bounded.dispatch (fun _ h _ => closed_bounded.handler h) image token)
  | ret =>
    intro f hf
    show StrictM.bind result _ f = _
    rw [StrictM.bind, result_eq hf]
    rfl
  | brfalse offset | brtrue offset => exact untrapped_test _ _ offset
  | add => exact stay (untrapped_binary add_eq) (closed_bounded.binary add_ofFrame)
  | div => exact stay (untrapped_binary div_eq) (closed_bounded.binary div_ofFrame)
  | rem => exact stay (untrapped_binary rem_eq) (closed_bounded.binary rem_ofFrame)
  | convR8 =>
    exact stay (untrapped_bind untrapped_pop closed_bounded.pop fun _ => untrapped_lift _)
      (keeps_bind closed_bounded.pop fun _ => closed_bounded.push _)
  | ldstr token => exact stay (untrapped_loadString image token) (closed_bounded.loadString image token)
  | ceq | cgt | clt => exact stay (untrapped_binary fun _ _ => rfl) (closed_bounded.comparison _ _)
  | _ => exact untrapped_lift _

/-! ## Runs -/

theorem step_eq {m : Machine} (hm : m.frame.Bounded) : step rules m = .ok (Machine.step rules m) := by
  unfold step
  rcases Machine.step_cases rules m with ⟨e, hf, hs⟩ | ⟨i, next, hf, hs⟩
  · rw [hf, hs]
  · rw [hf, hs]
    show Except.map _ (effect rules _ i m.frame) = _
    rw [untrapped_effect rules _ i m.frame hm]
    rfl

theorem run_eq (fuel : Nat) {m : Machine} (hm : m.frame.Bounded) :
    run rules fuel m = .ok (Machine.run rules fuel m) := by
  induction fuel generalizing m with
  | zero => rfl
  | succ fuel ih =>
    have hkept := keeps_step lasting_bounded.toFrameInvariant rules hm
    unfold run Machine.run
    rw [step_eq rules hm]
    cases hs : Machine.step rules m with
    | error e m' => rfl
    | ok signal m' =>
      rw [hs] at hkept
      cases signal with
      | next => exact ih hkept
      | halt v => rfl

end

/-! ## Sessions -/

theorem perform_eq {s : Session} (h : s.Has Frame.Bounded) (fuel : Nat) (c : Command) :
    perform fuel c s = .ok (s.perform fuel c) := by
  cases c with
  | run =>
    have hrun : runCurrent fuel s = .ok (s.run fuel) := by
      unfold runCurrent
      cases hp : s.interpreter.runnable? with
      | none => rw [Session.run_of_none hp]
      | some p =>
        rw [Session.run_of_some hp]
        show Except.map _ (run s.rules fuel _) = _
        rw [run_eq s.rules fuel (h.interpreter lasting_bounded s.host)]
        rfl
    show Except.map _ (runCurrent fuel s) = _
    rw [hrun]
    rfl
  | _ => rfl

end Strict

/-- Whatever has been loaded, registered and run, no operation is asked for outside of its range: the active slots can
be sliced, and the strict session does what the session does, in each command and for as long as a run goes on. -/
theorem session_never_traps {s₀ s : Session} {past : List (Session × Event)} (h₀ : s₀.Unused) (h : History s₀ past s)
    (hw : ∀ x ∈ past, x.2.isCommand = true) :
    (∀ (k : Nat) (i : Interpreter), s.interpreters[k]? = some i →
      Strict.activeSlots i.stack = .ok i.stack.values.toList) ∧
    ∀ fuel c, Strict.perform fuel c s = .ok (s.perform fuel c) := by
  have hs := h.has lasting_bounded h₀ hw
  constructor
  · intro k i hi
    exact Strict.activeSlots_of_le (hs k i hi s.host)
  · intro fuel c
    exact Strict.perform_eq hs fuel c

def zeroDivision : Program := .ofMethod ⟨#[0x17, 0x16, 0x5B], 2, 0⟩ .empty

theorem session_never_traps_dividing : ∃ s s' : Session,
    (Session.start .empty none none 1).perform 0 (.load zeroDivision.method zeroDivision.image) = some (.done, s) ∧
    Strict.perform 3 .run s = .ok (some (.ran (.error .divideByZero), s')) ∧
    ∀ i, s.interpreters[0]? = some i → Strict.activeSlots i.stack = .ok [] := by
  let s := (Session.start .empty none none 1).load zeroDivision
  have hunused := Session.unused_start .empty none none 1
  have hpast : History (Session.start .empty none none 1) _ s :=
    .event .start (.command 0 (c := .load zeroDivision.method zeroDivision.image) rfl)
  have hrun : ∃ m, s.run 3 = some (.error .divideByZero, s.holding .faulted m) := by
    rw [Session.run_load rfl]
    exact ⟨_, rfl⟩
  obtain ⟨m, hm⟩ := hrun
  obtain ⟨hslots, hperform⟩ := session_never_traps hunused hpast (by simp [Event.isCommand])
  refine ⟨s, s.holding .faulted m, rfl, ?_, ?_⟩
  · rw [hperform, Session.perform_run hm]
  · intro i hi
    rw [hslots 0 i hi]
    cases hi
    rfl

end StackVm
