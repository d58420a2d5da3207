import StackVm.Proofs.Effect
import StackVm.Proofs.Interning

/-!
# Well-formed frames under built-in plugs

A value is well formed if it is a number, the address of a local that exists or
the handle of a text that was interned. `Sound` is what every instruction does
to a well-formed frame as long as all handlers are built in: it leaves such a
frame behind, also when it fails, the texts only become more, no handle is ever
refused, and it would do the same on a frame whose table already holds the texts
that it interns (`Echo`).
-/

namespace StackVm

def Value.WellFormed (locals texts : Nat) : Value → Prop
  | int32 _ | float _ => True
  | address i => i < locals
  | string h => h < texts
  | _ => False

theorem Value.WellFormed.mono {locals texts more : Nat} (h : texts ≤ more) {v : Value}
    (hv : v.WellFormed locals texts) : v.WellFormed locals more := by
  cases v with
  | string handle => exact Nat.lt_of_lt_of_le hv h
  | _ => exact hv

/-- Slots of the stack count only below its depth. -/
structure Frame.WellFormed (localCount : Nat) (f : Frame) : Prop where
  size : f.locals.size = localCount
  stack : ∀ k, k < f.stack.depth → ∃ v, f.stack.slots[k]? = some v ∧ v.WellFormed localCount f.strings.size
  locals : ∀ (k : Nat) (v : Value), f.locals.slots[k]? = some v → v.WellFormed localCount f.strings.size
  strings : f.strings.Consistent

namespace Frame.WellFormed

variable {n : Nat} {f : Frame} (hf : f.WellFormed n)
include hf

theorem nth (k : Nat) (hd : 0 < f.stack.depth) : (f.stack.nth k).WellFormed n f.strings.size := by
  obtain ⟨v, hslot, hv⟩ := hf.stack (f.stack.depth - 1 - k) (by omega)
  unfold OperandStack.nth
  rw [Array.getD_eq_getD_getElem?, hslot]
  exact hv

theorem depth_le : f.stack.depth ≤ f.stack.capacity := by
  apply Nat.le_of_not_lt
  intro hlt
  obtain ⟨v, hslot, _⟩ := hf.stack f.stack.capacity hlt
  have hnone : f.stack.slots[f.stack.capacity]? = none := Array.getElem?_eq_none (Nat.le_refl _)
  rw [hnone] at hslot
  cases hslot

theorem pushed {v : Value} (hlt : f.stack.depth < f.stack.capacity) (hv : v.WellFormed n f.strings.size) :
    (f.pushed v).WellFormed n where
  size := hf.size
  stack k hk := by
    have hle : k < f.stack.depth + 1 := hk
    by_cases hd : k = f.stack.depth
    · subst hd
      exact ⟨v, Array.getElem?_setIfInBounds_self_of_lt hlt, hv⟩
    · obtain ⟨u, hslot, hu⟩ := hf.stack k (by omega)
      refine ⟨u, ?_, hu⟩
      simp only [Frame.pushed, Array.getElem?_setIfInBounds_ne (Ne.symm hd)]
      exact hslot
  locals := hf.locals
  strings := hf.strings

theorem dropped (k : Nat) : (f.dropped k).WellFormed n :=
  ⟨hf.size, fun j hj => hf.stack j (Nat.lt_of_lt_of_le hj (Nat.sub_le _ _)), hf.locals, hf.strings⟩

theorem stored {v : Value} (hv : v.WellFormed n f.strings.size) (i : Nat) : (f.stored i v).WellFormed n where
  size := Array.size_setIfInBounds.trans hf.size
  stack := hf.stack
  locals k u hu := by
    by_cases hk : k = i
    · subst hk
      simp only [Frame.stored, Array.getElem?_setIfInBounds_self] at hu
      split at hu
      · cases hu
        exact hv
      · cases hu
    · simp only [Frame.stored, Array.getElem?_setIfInBounds_ne (Ne.symm hk)] at hu
      exact hf.locals k u hu
  strings := hf.strings

theorem interned (text : String) : Frame.WellFormed n { f with strings := (f.strings.intern text).2 } := by
  have hle := (StringTable.extends_intern hf.strings text).size_le
  refine ⟨hf.size, ?_, fun k v hv => (hf.locals k v hv).mono hle, hf.strings.intern text⟩
  intro k hk
  obtain ⟨v, hslot, hv⟩ := hf.stack k hk
  exact ⟨v, hslot, hv.mono hle⟩

theorem withHost (host : Host) : Frame.WellFormed n { f with host := host } :=
  ⟨hf.size, hf.stack, hf.locals, hf.strings⟩

end Frame.WellFormed

structure Frame.Valid (f : Frame) : Prop where
  depth_le : f.stack.depth ≤ f.stack.capacity
  texts : ∀ k handle, k < f.stack.depth → f.stack.slots[k]? = some (.string handle) → handle < f.strings.size

theorem Frame.Valid.exists_text {f : Frame} (hf : f.Valid) {k : Nat} (hd : 0 < f.stack.depth)
    (hk : (f.stack.nth k).kind = .string) :
    ∃ handle text, f.stack.nth k = .string handle ∧ f.strings.get? handle = some text := by
  have hsize : f.stack.depth ≤ f.stack.slots.size := hf.depth_le
  have hlt : f.stack.depth - 1 - k < f.stack.slots.size := by omega
  have hslot : f.stack.slots[f.stack.depth - 1 - k]? = some (f.stack.nth k) := by
    unfold OperandStack.nth
    rw [Array.getD_eq_getD_getElem?, Array.getElem?_eq_getElem hlt]
    rfl
  cases hv : f.stack.nth k with
  | string handle =>
    rw [hv] at hslot
    obtain ⟨text, htext⟩ := StringTable.get?_of_lt (hf.texts _ handle (by omega) hslot)
    exact ⟨handle, text, rfl, htext⟩
  | _ =>
    rw [hv] at hk
    cases hk

theorem Frame.WellFormed.valid {n : Nat} {f : Frame} (hf : f.WellFormed n) : f.Valid := by
  refine ⟨hf.depth_le, ?_⟩
  intro k handle hk hslot
  obtain ⟨v, hslot', hv⟩ := hf.stack k hk
  cases hslot.symm.trans hslot'
  exact hv

/-! ## Repeating -/

/-- The console takes everything and has got these bytes so far. -/
def Console.Holds (c : Console) (bytes : Array UInt8) : Prop := c.capacity = none ∧ c.written = bytes

theorem Console.Holds.writeText {c : Console} {bytes : Array UInt8} (h : c.Holds bytes) (text : String) :
    (c.writeText text).1 = true ∧ (c.writeText text).2.Holds (bytes ++ text.toUTF8.data) := by
  unfold Console.writeText
  rw [write_of_open h.1]
  exact ⟨rfl, h.1, congrArg (· ++ _) h.2⟩

/-- `f'` is `f` over the table `t`, which holds all texts of `f`; the consoles take everything and got
the same bytes since they held `w` and `w'`. -/
structure Echo (t : StringTable) (w w' : Array UInt8) (f f' : Frame) : Prop where
  stack : f'.stack = f.stack
  locals : f'.locals = f.locals
  strings : f'.strings = t
  within : f.strings.Extends t
  console : ∃ out, f.host.console.Holds (w ++ out) ∧ f'.host.console.Holds (w' ++ out)

inductive Alike {ε σ α : Type} (R : σ → σ → Prop) : EStateM.Result ε σ α → EStateM.Result ε σ α → Prop
  | ok (a : α) {s s' : σ} : R s s' → Alike R (.ok a s) (.ok a s')
  | error (e : ε) {s s' : σ} : R s s' → Alike R (.error e s) (.error e s')

theorem Alike.bind {ε σ α β : Type} {R : σ → σ → Prop} {x : EStateM ε σ α} {k : α → EStateM ε σ β} {s s' : σ}
    (h : Alike R (x s) (x s')) (hk : ∀ a t t', x s = .ok a t → R t t' → Alike R (k a t) (k a t')) :
    Alike R ((x >>= k) s) ((x >>= k) s') := by
  cases hx : x s with
  | error e t =>
    rw [hx] at h
    cases hx' : x s' with
    | ok a t' =>
      rw [hx'] at h
      cases h
    | error e' t' =>
      rw [hx'] at h
      rw [bind_of_error hx, bind_of_error hx']
      cases h with
      | error _ hr => exact .error e hr
  | ok a t =>
    rw [hx] at h
    cases hx' : x s' with
    | error e' t' =>
      rw [hx'] at h
      cases h
    | ok a' t' =>
      rw [hx'] at h
      rw [bind_of_ok hx, bind_of_ok hx']
      cases h with
      | ok _ hr => exact hk a t t' hx hr

theorem Console.capacity_write (bytes : Array UInt8) (c : Console) : (c.write bytes).2.capacity = c.capacity := by
  obtain ⟨written, capacity, failure⟩ := c
  cases capacity <;> rfl

/-! ## Soundness -/

structure Kept (n : Nat) (f g : Frame) : Prop where
  wellFormed : g.WellFormed n
  strings : f.strings.Extends g.strings
  capacity : g.host.console.capacity = f.host.console.capacity

theorem Kept.refl {n : Nat} {f : Frame} (hf : f.WellFormed n) : Kept n f f := ⟨hf, .refl _, rfl⟩

theorem Kept.trans {n : Nat} {f g h : Frame} (hfg : Kept n f g) (hgh : Kept n g h) : Kept n f h :=
  ⟨hgh.wellFormed, hfg.strings.trans hgh.strings, hgh.capacity.trans hfg.capacity⟩

/-- An outcome of a computation that began in `f`: an answer meets `Q`, a fault is not about a handle. -/
def Decent (n : Nat) (f : Frame) {α : Type} (Q : α → Frame → Prop) : EStateM.Result Fault Frame α → Prop
  | .ok a g => Kept n f g ∧ Q a g
  | .error e g => Kept n f g ∧ ∀ h, e ≠ .invalidHandle h

theorem Decent.kept {n : Nat} {f : Frame} {α : Type} {Q : α → Frame → Prop} {r : EStateM.Result Fault Frame α}
    (h : Decent n f Q r) : Kept n f (left r) := by
  cases r with
  | ok a g => exact h.1
  | error e g => exact h.1

structure Sound (n : Nat) (f : Frame) {α : Type} (x : FrameM α) (Q : α → Frame → Prop) : Prop where
  outcome : Decent n f Q (x f)
  echo : ∀ {t w w' f'}, t.Consistent → (left (x f)).strings.Extends t → Echo t w w' f f' →
    Alike (Echo t w w') (x f) (x f')

section
variable {n : Nat} {f : Frame} {α β : Type} {Q : α → Frame → Prop}

theorem sound_of_ok {x : FrameM α} {a : α} {g : Frame} (h : x f = .ok a g) (hg : Kept n f g) (hQ : Q a g)
    (he : ∀ {t w w' f'}, t.Consistent → g.strings.Extends t → Echo t w w' f f' →
      ∃ g', x f' = .ok a g' ∧ Echo t w w' g g') : Sound n f x Q where
  outcome := by
    rw [h]
    exact ⟨hg, hQ⟩
  echo ht hw hf' := by
    rw [h] at hw ⊢
    obtain ⟨g', hg', hecho⟩ := he ht hw hf'
    rw [hg']
    exact .ok a hecho

theorem sound_of_error {x : FrameM α} {e : Fault} (hf : f.WellFormed n) (h : x f = .error e f)
    (he : ∀ h, e ≠ .invalidHandle h) (hx : ∀ {t w w' f'}, Echo t w w' f f' → x f' = .error e f') :
    Sound n f x Q where
  outcome := by
    rw [h]
    exact ⟨.refl hf, he⟩
  echo _ _ hf' := by
    rw [h, hx hf']
    exact .error e hf'

theorem sound_pure (hf : f.WellFormed n) {a : α} (hQ : Q a f) : Sound n f (pure a : FrameM α) Q :=
  sound_of_ok rfl (.refl hf) hQ fun _ _ he => ⟨_, rfl, he⟩

theorem sound_throw (hf : f.WellFormed n) {e : Fault} (he : ∀ h, e ≠ .invalidHandle h) :
    Sound n f (throw e : FrameM α) Q :=
  sound_of_error hf rfl he fun _ => rfl

theorem sound_bind {x : FrameM α} {k : α → FrameM β} {R : β → Frame → Prop} (hx : Sound n f x Q)
    (hk : ∀ a g, g.WellFormed n → Q a g → Sound n g (k a) R) : Sound n f (x >>= k) R := by
  have hout := hx.outcome
  have hnext : ∀ a g, x f = .ok a g → Sound n g (k a) R := by
    intro a g h
    rw [h] at hout
    exact hk a g hout.1.wellFormed hout.2
  constructor
  · cases h : x f with
    | error e g =>
      rw [h] at hout
      rw [bind_of_error h]
      exact hout
    | ok a g =>
      have hka := (hnext a g h).outcome
      rw [h] at hout
      rw [bind_of_ok h]
      cases hr : k a g with
      | ok b g' =>
        rw [hr] at hka
        exact ⟨hout.1.trans hka.1, hka.2⟩
      | error e g' =>
        rw [hr] at hka
        exact ⟨hout.1.trans hka.1, hka.2⟩
  · intro t w w' f' ht hw hf'
    -- the texts interned by `x` are among those of the whole computation
    have hx' : (left (x f)).strings.Extends t := by
      cases h : x f with
      | error e g =>
        rw [bind_of_error h] at hw
        exact hw
      | ok a g =>
        rw [bind_of_ok h] at hw
        exact (hnext a g h).outcome.kept.strings.trans hw
    refine (hx.echo ht hx' hf').bind fun a g g' h hg => ?_
    rw [bind_of_ok h] at hw
    exact (hnext a g h).echo ht hw hg

end

/-! ## Elementary operations -/

section
variable {n : Nat} {f : Frame} (hf : f.WellFormed n)
include hf

theorem sound_push {v : Value} (hv : v.WellFormed n f.strings.size) : Sound n f (Frame.push v) fun _ _ => True := by
  rcases Nat.lt_or_ge f.stack.depth f.stack.capacity with h | h
  · refine sound_of_ok (Frame.push_of_lt h) ⟨hf.pushed h hv, .refl _, rfl⟩ trivial fun _ hw he => ?_
    rw [← he.stack] at h
    refine ⟨_, Frame.push_of_lt h, ?_⟩
    exact ⟨by simp [Frame.pushed, he.stack], he.locals, he.strings, hw, he.console⟩
  · refine sound_of_error hf (Frame.push_of_le h) (fun _ => by simp) fun he => ?_
    rw [← he.stack] at h ⊢
    exact Frame.push_of_le h

theorem sound_pop : Sound n f Frame.pop fun v g => v.WellFormed n g.strings.size := by
  rcases Nat.eq_zero_or_pos f.stack.depth with h | h
  · refine sound_of_error hf (Frame.pop_of_zero h) (fun _ => by simp) fun he => ?_
    rw [← he.stack] at h
    exact Frame.pop_of_zero h
  · refine sound_of_ok (Frame.pop_of_pos h) ⟨hf.dropped 1, .refl _, rfl⟩ (hf.nth 0 h) fun _ hw he => ?_
    rw [← he.stack] at h ⊢
    refine ⟨_, Frame.pop_of_pos h, ?_⟩
    exact ⟨by simp [Frame.dropped, he.stack], he.locals, he.strings, hw, he.console⟩

theorem sound_pop2 : Sound n f Frame.pop2 fun p g =>
    p.1.WellFormed n g.strings.size ∧ p.2.WellFormed n g.strings.size := by
  rcases Nat.lt_or_ge f.stack.depth 2 with h | h
  · refine sound_of_error hf (Frame.pop2_of_lt h) (fun _ => by simp) fun he => ?_
    rw [← he.stack] at h ⊢
    exact Frame.pop2_of_lt h
  · refine sound_of_ok (Frame.pop2_of_le h) ⟨hf.dropped 2, .refl _, rfl⟩ ⟨hf.nth 1 (by omega), hf.nth 0 (by omega)⟩
      fun _ hw he => ?_
    rw [← he.stack] at h ⊢
    refine ⟨_, Frame.pop2_of_le h, ?_⟩
    exact ⟨by simp [Frame.dropped, he.stack], he.locals, he.strings, hw, he.console⟩

theorem sound_getLocal (i : Nat) : Sound n f (Frame.getLocal i) fun v g => v.WellFormed n g.strings.size := by
  rcases Nat.lt_or_ge i f.locals.size with h | h
  · have hv := hf.locals i _ (Array.getElem?_eq_getElem h)
    refine sound_of_ok (Frame.getLocal_of_lt h) (.refl hf) hv fun {t w w' f'} _ _ he => ?_
    refine ⟨f', ?_, he⟩
    obtain ⟨stack, locals, strings, host⟩ := f'
    cases he.locals
    exact Frame.getLocal_of_lt (f := ⟨stack, f.locals, strings, host⟩) h
  · refine sound_of_error hf (Frame.getLocal_of_le h) (fun _ => by simp) fun he => ?_
    rw [← he.locals] at h ⊢
    exact Frame.getLocal_of_le h

theorem sound_addressOf (i : Nat) : Sound n f (Frame.addressOf i) fun v g => v.WellFormed n g.strings.size := by
  rcases Nat.lt_or_ge i f.locals.size with h | h
  · have hv : (Value.address i).WellFormed n f.strings.size := hf.size ▸ h
    refine sound_of_ok (Frame.addressOf_of_lt h) (.refl hf) hv fun _ _ he => ?_
    rw [← he.locals] at h
    exact ⟨_, Frame.addressOf_of_lt h, he⟩
  · refine sound_of_error hf (Frame.addressOf_of_le h) (fun _ => by simp) fun he => ?_
    rw [← he.locals] at h ⊢
    exact Frame.addressOf_of_le h

theorem sound_setLocal (i : Nat) {v : Value} (hv : v.WellFormed n f.strings.size) :
    Sound n f (Frame.setLocal i v) fun _ _ => True := by
  rcases Nat.lt_or_ge i f.locals.size with h | h
  · refine sound_of_ok (Frame.setLocal_of_lt h) ⟨hf.stored hv i, .refl _, rfl⟩ trivial fun _ hw he => ?_
    rw [← he.locals] at h
    refine ⟨_, Frame.setLocal_of_lt h, ?_⟩
    exact ⟨he.stack, by simp [Frame.stored, he.locals], he.strings, hw, he.console⟩
  · refine sound_of_error hf (Frame.setLocal_of_le h) (fun _ => by simp) fun he => ?_
    rw [← he.locals] at h ⊢
    exact Frame.setLocal_of_le h

theorem sound_intern (text : String) : Sound n f (Frame.intern text) fun h g => h < g.strings.size := by
  have hget := StringTable.get?_intern hf.strings text
  have hkept : Kept n f { f with strings := (f.strings.intern text).2 } :=
    ⟨hf.interned text, StringTable.extends_intern hf.strings text, rfl⟩
  refine sound_of_ok (Frame.intern_eq f text) hkept (StringTable.lt_size_of_get? hget) fun {t w w' f'} ht hw he => ?_
  -- the fuller table has the text already, at the same handle
  have hsame : f'.strings.intern text = ((f.strings.intern text).1, f'.strings) := by
    rw [he.strings]
    exact StringTable.intern_of_extends hf.strings ht hw
  refine ⟨f', ?_, he.stack, he.locals, he.strings, hw, he.console⟩
  rw [Frame.intern_eq, hsame]

theorem sound_resolve {handle : Nat} (h : handle < f.strings.size) :
    Sound n f (Frame.resolve handle) fun _ _ => True := by
  obtain ⟨text, htext⟩ := StringTable.get?_of_lt h
  refine sound_of_ok (Frame.resolve_of_get? htext) (.refl hf) trivial fun {t w w' f'} _ hw he => ?_
  refine ⟨f', Frame.resolve_of_get? ?_, he⟩
  rw [he.strings]
  exact hw.get? htext

theorem sound_print (preface text : String) : Sound n f (Frame.print preface text) fun _ _ => True := by
  have hkept : Kept n f (f.printed text) := ⟨hf.withHost _, .refl _, Console.capacity_write ..⟩
  cases h : (f.host.console.writeText text).1 with
  | true =>
    refine sound_of_ok (Frame.print_of_fits h) hkept trivial fun {t w w' f'} _ hw he => ?_
    obtain ⟨out, hout, hout'⟩ := he.console
    have hfits := (hout'.writeText text).1
    refine ⟨_, Frame.print_of_fits hfits, he.stack, he.locals, he.strings, hw, out ++ text.toUTF8.data, ?_, ?_⟩
    · rw [← Array.append_assoc]
      exact (hout.writeText text).2
    · rw [← Array.append_assoc]
      exact (hout'.writeText text).2
  | false =>
    constructor
    · rw [Frame.print_of_not_fits h]
      exact ⟨hkept, fun _ => by simp⟩
    · -- a console without a limit takes everything
      intro t w w' f' _ _ he
      obtain ⟨out, hout, _⟩ := he.console
      rw [(hout.writeText text).1] at h
      cases h

theorem sound_depth : Sound n f Frame.depth fun _ _ => True :=
  sound_of_ok rfl (.refl hf) trivial fun {t w w' f'} _ _ he => ⟨f', by rw [Frame.depth, he.stack], he⟩

theorem sound_popAs {α : Type} (read : Value → Option α) : Sound n f (Frame.popAs read) fun a g =>
    ∃ v, read v = some a ∧ v.WellFormed n g.strings.size := by
  refine sound_bind (sound_pop hf) fun v g hg hv => ?_
  cases h : read v with
  | none => exact sound_throw hg fun _ => by simp
  | some a => exact sound_pure hg ⟨v, h, hv⟩

theorem sound_popString : Sound n f Frame.popString fun _ _ => True := by
  refine sound_bind (sound_popAs hf Value.handle?) fun handle g hg hv => ?_
  obtain ⟨v, hread, hv⟩ := hv
  cases v with
  | string h =>
    cases hread
    exact sound_resolve hg hv
  | _ => cases hread

theorem sound_pushString (text : String) : Sound n f (Frame.pushString text) fun _ _ => True :=
  sound_bind (sound_intern hf text) fun _ _ hg hlt => sound_push hg hlt

end

end StackVm
