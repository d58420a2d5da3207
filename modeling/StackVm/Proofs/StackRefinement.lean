import StackVm.Proofs.FrameOps

/-!
# The operand stack as a bounded list

The buffer of an operand stack keeps what was popped until something is pushed
over it. A pile has no such remains: it is a list of at most as many values as
the buffer has slots, the last one put in first. A stack that holds a pile
below its cursor (`Holds`) answers every request as the pile does and holds
what the pile becomes, so nothing above the cursor can be told from outside.
-/

namespace StackVm

def outcome {ε σ α : Type} : EStateM.Result ε σ α → Except ε α
  | .ok a _ => .ok a
  | .error e _ => .error e

/-! ## Requests -/

structure StackOps (σ : Type) where
  push : Value → EStateM Fault σ Unit
  pop : EStateM Fault σ Value
  pop2 : EStateM Fault σ (Value × Value)
  peek : EStateM Fault σ Value
  peekNth : Nat → EStateM Fault σ Value

namespace StackOps

inductive Request where
  | push (v : Value)
  | pop
  | pop2
  | peek
  | peekNth (n : Nat)

variable {σ : Type} (ops : StackOps σ)

def serve : Request → EStateM Fault σ Reply
  | .push v => (fun _ => .unit) <$> ops.push v
  | .pop => .value <$> ops.pop
  | .pop2 => (fun pair => .pair pair.1 pair.2) <$> ops.pop2
  | .peek => .value <$> ops.peek
  | .peekNth n => .value <$> ops.peekNth n

/-- What is answered to requests that come one after another, granted or not, and the state in the end. -/
def serveAll (s : σ) : List Request → List (Except Fault Reply) × σ
  | [] => ([], s)
  | r :: rs =>
    let (answers, last) := serveAll (left (ops.serve r s)) rs
    (outcome (ops.serve r s) :: answers, last)

end StackOps

def OperandStack.ops : StackOps OperandStack := ⟨push, pop, pop2, peek, peekNth⟩

/-! ## Piles -/

/-- At most `capacity` values, the last one put in first. -/
structure Pile (capacity : Nat) where
  values : List Value
  length_le : values.length ≤ capacity

namespace Pile

variable {capacity : Nat}

def empty (capacity : Nat) : Pile capacity := ⟨[], Nat.zero_le _⟩

def drop (p : Pile capacity) (n : Nat) : Pile capacity where
  values := p.values.drop n
  length_le := Nat.le_trans (List.length_drop ▸ Nat.sub_le _ _) p.length_le

def push (v : Value) : EStateM Fault (Pile capacity) Unit := fun p =>
  if h : p.values.length < capacity then .ok () ⟨v :: p.values, h⟩ else .error (.overflow capacity) p

def pop : EStateM Fault (Pile capacity) Value := fun p =>
  match p.values with
  | top :: _ => .ok top (p.drop 1)
  | [] => .error (.underflow 1 0) p

def pop2 : EStateM Fault (Pile capacity) (Value × Value) := fun p =>
  match p.values with
  | top :: second :: _ => .ok (second, top) (p.drop 2)
  | short => .error (.underflow 2 short.length) p

def peekNth (n : Nat) : EStateM Fault (Pile capacity) Value := fun p =>
  match p.values[n]? with
  | some v => .ok v p
  | none => .error (.underflow (n + 1) p.values.length) p

def peek : EStateM Fault (Pile capacity) Value := fun p =>
  match p.values with
  | top :: _ => .ok top p
  | [] => .error (.underflow 1 0) p

def ops : StackOps (Pile capacity) := ⟨push, pop, pop2, peek, peekNth⟩

end Pile

/-! ## The pile in a buffer -/

/-- The slots below the cursor hold the pile, its bottom first; the others may hold anything. -/
structure OperandStack.Holds {capacity : Nat} (s : OperandStack) (p : Pile capacity) : Prop where
  capacity : s.capacity = capacity
  depth : s.depth = p.values.length
  values : s.values.toList = p.values.reverse

namespace OperandStack

variable {capacity : Nat} {s t : OperandStack} {p : Pile capacity}

theorem holds_empty (capacity : Nat) : (ofCapacity capacity).Holds (Pile.empty capacity) where
  capacity := Array.size_replicate
  depth := rfl
  values := by simp [values, ofCapacity, Pile.empty]

theorem Holds.depth_le (h : s.Holds p) : s.depth ≤ s.capacity := by
  rw [h.depth, h.capacity]
  exact p.length_le

theorem Holds.nth (h : s.Holds p) {k : Nat} {v : Value} (hv : p.values[k]? = some v) : s.nth k = v := by
  have hk : k < p.values.length := (List.getElem?_eq_some_iff.mp hv).1
  have hslot := getElem?_values (h.depth.symm ▸ hk) h.depth_le
  rw [← Array.getElem?_toList, h.values, h.depth, List.getElem?_reverse (by omega)] at hslot
  rw [show p.values.length - 1 - (p.values.length - 1 - k) = k by omega, hv] at hslot
  exact (Option.some.inj hslot).symm

theorem values_drop (s : OperandStack) (n : Nat) :
    (values { s with depth := s.depth - n }).toList = s.values.toList.take (s.depth - n) := by
  simp [values, List.take_take]

theorem values_set (v : Value) (h : s.depth < s.slots.size) :
    (values ⟨s.slots.set s.depth v h, s.depth + 1⟩).toList = s.values.toList ++ [v] := by
  have hbelow : (s.slots.toList.set s.depth v).take s.depth = s.slots.toList.take s.depth :=
    List.take_set_of_le (Nat.le_refl _)
  simp [values, List.take_add_one, hbelow, h]

theorem Holds.drop (h : s.Holds p) (n : Nat) : Holds { s with depth := s.depth - n } (p.drop n) where
  capacity := h.capacity
  depth := by simp [h.depth, Pile.drop]
  values := by
    rw [values_drop, h.values, h.depth]
    exact List.reverse_drop.symm

theorem Holds.push (h : s.Holds p) (v : Value) (hs : s.depth < s.slots.size) (hp : p.values.length < capacity) :
    Holds ⟨s.slots.set s.depth v hs, s.depth + 1⟩ ⟨v :: p.values, hp⟩ where
  capacity := by
    rw [← h.capacity]
    exact Array.size_set hs
  depth := by simp [h.depth]
  values := by
    rw [values_set, h.values]
    simp

/-- Slots from the cursor on do not count. -/
theorem Holds.of_values (h : s.Holds p) (hc : t.capacity = s.capacity) (hd : t.depth = s.depth)
    (hv : t.values = s.values) : t.Holds p :=
  ⟨hc.trans h.capacity, hd.trans h.depth, hv ▸ h.values⟩

theorem Holds.values_eq (h : s.Holds p) (h' : t.Holds p) : t.depth = s.depth ∧ t.values = s.values := by
  refine ⟨h'.depth.trans h.depth.symm, ?_⟩
  apply Array.ext'
  rw [h.values, h'.values]

/-! ## One request after another -/

/-- A computation on the stack and one on the pile in it both succeed with the same result and leave a pile in a
stack, or both fail with the same fault and change nothing. -/
inductive Agree {α : Type} (s : OperandStack) (p : Pile capacity) :
    EStateM.Result Fault OperandStack α → EStateM.Result Fault (Pile capacity) α → Prop
  | ok {a : α} {s' : OperandStack} {p' : Pile capacity} : s'.Holds p' → Agree s p (.ok a s') (.ok a p')
  | error {e : Fault} : Agree s p (.error e s) (.error e p)

theorem Agree.map {α β : Type} {x : EStateM Fault OperandStack α} {y : EStateM Fault (Pile capacity) α} (f : α → β)
    (h : Agree s p (x s) (y p)) : Agree s p ((f <$> x) s) ((f <$> y) p) := by
  show Agree s p (EStateM.map f x s) (EStateM.map f y p)
  unfold EStateM.map
  generalize x s = a at h ⊢
  generalize y p = b at h ⊢
  cases h with
  | ok h => exact .ok h
  | error => exact .error

theorem Agree.holds {α : Type} {a : EStateM.Result Fault OperandStack α} {b : EStateM.Result Fault (Pile capacity) α}
    (h : Agree s p a b) (hs : s.Holds p) : outcome a = outcome b ∧ (left a).Holds (left b) := by
  cases h with
  | ok h => exact ⟨rfl, h⟩
  | error => exact ⟨rfl, hs⟩

theorem Agree.eq_of_error {α : Type} {e : Fault} {b : EStateM.Result Fault (Pile capacity) α}
    (h : Agree s p (.error e t) b) : t = s := by
  cases h
  rfl

theorem agree_push (h : s.Holds p) (v : Value) : Agree s p (push v s) (Pile.push v p) := by
  have hsize : s.slots.size = capacity := h.capacity
  have hdepth := h.depth
  by_cases hp : p.values.length < capacity
  · have hs : s.depth < s.slots.size := by omega
    have hpush : push v s = .ok () ⟨s.slots.set s.depth v hs, s.depth + 1⟩ := dif_pos hs
    have hpile : Pile.push v p = .ok () ⟨v :: p.values, hp⟩ := dif_pos hp
    rw [hpush, hpile]
    exact .ok (h.push v hs hp)
  · have hs : ¬ s.depth < s.slots.size := by omega
    have hpush : push v s = .error (.overflow s.slots.size) s := dif_neg hs
    have hpile : Pile.push v p = .error (.overflow capacity) p := dif_neg hp
    rw [hpush, hpile, hsize]
    exact .error

theorem agree_pop (h : s.Holds p) : Agree s p (pop s) (Pile.pop p) := by
  have hdepth := h.depth
  unfold pop Pile.pop
  cases hp : p.values with
  | nil =>
    simp [hp] at hdepth
    rw [if_pos hdepth]
    exact .error
  | cons top vs =>
    have htop : s.nth 0 = top := h.nth (by simp [hp])
    rw [if_neg (by simp [hdepth, hp]), htop]
    exact .ok (h.drop 1)

theorem agree_pop2 (h : s.Holds p) : Agree s p (pop2 s) (Pile.pop2 p) := by
  have hdepth := h.depth
  unfold pop2 Pile.pop2
  match hp : p.values with
  | [] | [_] =>
    rw [hp] at hdepth
    rw [if_pos (by simp [hdepth]), hdepth]
    exact .error
  | top :: second :: vs =>
    have htop : s.nth 0 = top := h.nth (by simp [hp])
    have hsecond : s.nth 1 = second := h.nth (by simp [hp])
    rw [if_neg (by simp [hdepth, hp]), htop, hsecond]
    exact .ok (h.drop 2)

theorem agree_peekNth (h : s.Holds p) (n : Nat) : Agree s p (peekNth n s) (Pile.peekNth n p) := by
  unfold peekNth Pile.peekNth
  cases hn : p.values[n]? with
  | none =>
    rw [if_pos (h.depth ▸ List.getElem?_eq_none_iff.mp hn), h.depth]
    exact .error
  | some v =>
    have hlt : ¬ s.depth ≤ n := by
      rw [h.depth, Nat.not_le]
      exact (List.getElem?_eq_some_iff.mp hn).1
    rw [if_neg hlt, h.nth hn]
    exact .ok h

theorem agree_peek (h : s.Holds p) : Agree s p (peek s) (Pile.peek p) := by
  have hnth := agree_peekNth h 0
  unfold Pile.peekNth at hnth
  unfold peek Pile.peek
  cases hp : p.values with
  | nil => simpa [hp] using hnth
  | cons top vs => simpa [hp] using hnth

theorem agree_serve (h : s.Holds p) (r : StackOps.Request) : Agree s p (ops.serve r s) (Pile.ops.serve r p) := by
  cases r with
  | push v => exact (agree_push h v).map _
  | pop => exact (agree_pop h).map _
  | pop2 => exact (agree_pop2 h).map _
  | peek => exact (agree_peek h).map _
  | peekNth n => exact (agree_peekNth h n).map _

theorem Holds.serveAll (h : s.Holds p) (rs : List StackOps.Request) :
    (ops.serveAll s rs).1 = (Pile.ops.serveAll p rs).1 ∧ (ops.serveAll s rs).2.Holds (Pile.ops.serveAll p rs).2 := by
  induction rs generalizing s p with
  | nil => exact ⟨rfl, h⟩
  | cons r rs ih =>
    obtain ⟨hanswer, hleft⟩ := (agree_serve h r).holds h
    obtain ⟨hanswers, hlast⟩ := ih hleft
    simp only [StackOps.serveAll, hanswer, hanswers]
    exact ⟨trivial, hlast⟩

end OperandStack

/-- Whatever is asked of a new stack, it answers as an empty pile of its capacity does and holds what the pile has
become. A request that is refused changes nothing. Another stack with the same values below the same cursor, whatever
it has above, answers all later requests alike. -/
theorem stack_refines_pile {capacity : Nat} {rs : List StackOps.Request} {answers : List (Except Fault Reply)}
    {s : OperandStack} (hs : OperandStack.ops.serveAll (.ofCapacity capacity) rs = (answers, s)) :
    (∃ p, Pile.ops.serveAll (.empty capacity) rs = (answers, p) ∧ s.Holds p) ∧
    (∀ r e t, OperandStack.ops.serve r s = .error e t → t = s) ∧
    ∀ t : OperandStack, t.capacity = s.capacity → t.depth = s.depth → t.values = s.values → ∀ more,
      (OperandStack.ops.serveAll t more).1 = (OperandStack.ops.serveAll s more).1 ∧
      (OperandStack.ops.serveAll t more).2.depth = (OperandStack.ops.serveAll s more).2.depth ∧
      (OperandStack.ops.serveAll t more).2.values = (OperandStack.ops.serveAll s more).2.values := by
  obtain ⟨hanswers, hholds⟩ := (OperandStack.holds_empty capacity).serveAll rs
  rw [hs] at hanswers hholds
  refine ⟨⟨_, Prod.ext hanswers.symm rfl, hholds⟩, ?_, ?_⟩
  · intro r e t hfail
    have hagree := OperandStack.agree_serve hholds r
    rw [hfail] at hagree
    exact hagree.eq_of_error
  · intro t hc hd hv more
    obtain ⟨hsame, hlast⟩ := hholds.serveAll more
    obtain ⟨hsame', hlast'⟩ := (hholds.of_values hc hd hv).serveAll more
    exact ⟨hsame'.trans hsame.symm, hlast.values_eq hlast'⟩

/-- The two values that were popped are still in the buffer, and no one can tell it from a new one. -/
theorem stack_refines_pile_stale :
    let s : OperandStack := ⟨#[.int32 7, .int32 8], 0⟩
    let more : List StackOps.Request := [.peek, .push (.int32 9), .peekNth 1, .peek, .pop2]
    OperandStack.ops.serveAll (.ofCapacity 2) [.push (.int32 7), .push (.int32 8), .pop2] =
        ([.ok .unit, .ok .unit, .ok (.pair (.int32 7) (.int32 8))], s) ∧
      (OperandStack.ops.serveAll (.ofCapacity 2) more).1 = (OperandStack.ops.serveAll s more).1 := by
  intro s more
  have hs : OperandStack.ops.serveAll (.ofCapacity 2) [.push (.int32 7), .push (.int32 8), .pop2] =
      ([.ok .unit, .ok .unit, .ok (.pair (.int32 7) (.int32 8))], s) := rfl
  exact ⟨hs, ((stack_refines_pile hs).2.2 (.ofCapacity 2) rfl rfl rfl more).1⟩

end StackVm
