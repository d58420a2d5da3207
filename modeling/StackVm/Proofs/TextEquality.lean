import Mathlib
import StackVm.Proofs.Comparison
import StackVm.Proofs.SessionHistory

/-!
# Equal texts have equal handles

`ceq` compares two strings by their handles alone. That decides whether the texts
are equal, because a consistent table has each text once and every handle that an
interpreter holds is one of its table.
-/

namespace StackVm

theorem StringTable.Consistent.get?_eq_iff {t : StringTable} (hc : t.Consistent) {x y : Nat} {text text' : String}
    (hx : t.get? x = some text) (hy : t.get? y = some text') : x = y ↔ text = text' := by
  constructor
  · rintro rfl
    exact Option.some.inj (hx.symm.trans hy)
  · -- the index has one handle for each text
    rintro rfl
    rw [← hc] at hx hy
    exact Option.some.inj (hx.symm.trans hy)

theorem Value.compare_string (op : Operation) (x y : Nat) :
    ((string x).compare op (string y)).map (fun order => Value.ofBool (order = some .eq)) =
      .ok (.int32 (if x = y then 1 else 0)) := by
  have heq : Ord.compare (signed64 x) (signed64 y) = .eq ↔ x = y := by
    rw [Std.compare_eq_iff_eq]
    exact ⟨signed64_inj, congrArg signed64⟩
  simp [compare, kind, integer?, Except.map, ofBool, heq]

theorem Machine.effect_ceq {n : Nat} {f : Frame} (hf : f.WellFormed n) (hd : 2 ≤ f.stack.depth) {x y : Nat}
    {text text' : String} (hx : f.stack.nth 1 = .string x) (hy : f.stack.nth 0 = .string y)
    (hxt : f.strings.get? x = some text) (hyt : f.strings.get? y = some text') (rules : Rules) (image : Image) :
    effect rules image .ceq f = .ok .stay ((f.dropped 2).pushed (.int32 (if text = text' then 1 else 0))) := by
  have hv := Value.compare_string .ceq x y
  simp only [hf.strings.get?_eq_iff hxt hyt] at hv
  rw [← hx, ← hy] at hv
  exact andStay_of_ok (binary_of_ok hd hf.depth_le hv)

theorem Moment.Orderly.current {s : Session} {m : Machine} (h : (Moment.running s m).Orderly) {i : Interpreter}
    (hi : (Moment.running s m).session.interpreters[s.current]? = some i) : i.frame m.frame.host = m.frame := by
  obtain ⟨_, p, hp, _⟩ := h
  have hself := Session.getElem?_update_self (Session.getElem?_of_runnable? hp) (s.interpreter.holding .ready m)
  cases hi.symm.trans hself
  rfl

/-- At every moment at which the two topmost values of an interpreter are strings, both have a text, and `ceq`
replaces them by 1 if the texts are equal and by 0 if not; in particular the next step of a run does if it is
a `ceq`. -/
theorem ceq_compares_texts {s₀ : Session} (h₀ : s₀.Fresh) {a : Moment} (ha : Moment.Reaches (.idle s₀) a) {k : Nat}
    {i : Interpreter} (hi : a.session.interpreters[k]? = some i) (hd : 2 ≤ i.stack.depth)
    (hx : (i.stack.nth 1).kind = .string) (hy : (i.stack.nth 0).kind = .string) :
    ∃ text text', i.resolveString (i.stack.nth 1) = some text ∧ i.resolveString (i.stack.nth 0) = some text' ∧
      (∀ rules offset p host, Machine.execute rules offset .ceq (i.machine p host) = .ok .next
        ⟨p, ((i.frame host).dropped 2).pushed (.int32 (if text = text' then 1 else 0)), i.executed⟩) ∧
      ∀ s m next, a = .running s m → k = s.current → Machine.fetch s.rules m = .ok (m.program.pc, .ceq) (m.past next) →
        Machine.step s.rules m = .ok .next ⟨{ m.program with pc := next },
          (m.frame.dropped 2).pushed (.int32 (if text = text' then 1 else 0)), m.executed + 1⟩ := by
  have horderly : a.Orderly := (Moment.Orderly.reaches (a := .idle s₀) h₀.orderly ha).1
  have hw := horderly.wellFormed hi
  have hpos : 0 < i.stack.depth := by omega
  obtain ⟨x, text, hx, hxt⟩ := (hw a.session.host).valid.exists_text hpos hx
  obtain ⟨y, text', hy, hyt⟩ := (hw a.session.host).valid.exists_text hpos hy
  have heffect := fun rules image host => Machine.effect_ceq (hw host) hd hx hy hxt hyt rules image
  have hx : i.stack.nth 1 = .string x := hx
  have hy : i.stack.nth 0 = .string y := hy
  refine ⟨text, text', by rw [hx]; exact hxt, by rw [hy]; exact hyt, ?_, ?_⟩
  · intro rules offset p host
    rw [Machine.execute_eq]
    exact congrArg (Machine.settle _ offset) (heffect rules p.image host)
  · rintro s m next rfl rfl hf
    have hframe := horderly.current hi
    rw [Machine.step_of_fetch hf, ← hframe, heffect s.rules m.program.image m.frame.host]
    rfl

/-- Compares two strings that have different tokens and the same text. -/
def twins : Program := .ofMethod ⟨#[0x72, 1, 0, 0, 0x70, 0x72, 5, 0, 0, 0x70, 0xFE, 0x01, 0x2A], 2, 0⟩
  ⟨#[0, 3, 0x61, 0, 0, 3, 0x61, 0, 0], #[1, 5], #[], #[]⟩

theorem userString_twins : twins.image.userString 1 = .ok "a" ∧ twins.image.userString 5 = .ok "a" := by
  constructor
  · cbv
  · cbv

def twinsSession : Session := (Session.start .builtins none none 1).load twins

def twinsFrame : Nat → Frame
  | 0 => ⟨.ofCapacity 2, .ofSize 0, .empty, twinsSession.host⟩
  | n + 1 => (twinsFrame n).loaded "a"

theorem reaches_twins : Moment.Reaches (.idle (.start .builtins none none 1))
    (.running twinsSession ⟨{ twins with pc := 10 }, twinsFrame 2, 2⟩) := by
  have hw : ∀ m : Machine, m.Within twinsSession.rules := fun m limit hl => by cases hl
  have hfirst : Machine.step twinsSession.rules ⟨twins, twinsFrame 0, 0⟩ =
      .ok .next ⟨{ twins with pc := 5 }, twinsFrame 1, 1⟩ :=
    Machine.step_of_stay (hw _) rfl (Machine.effect_ldstr userString_twins.1 (by decide) _)
  have hsecond : Machine.step twinsSession.rules ⟨{ twins with pc := 5 }, twinsFrame 1, 1⟩ =
      .ok .next ⟨{ twins with pc := 10 }, twinsFrame 2, 2⟩ :=
    Machine.step_of_stay (hw _) rfl (Machine.effect_ldstr userString_twins.2 (by decide) _)
  have hstart := (Moment.Reaches.refl.step (Moment.follows_load (.start .builtins none none 1) twins)).step (.start rfl)
  exact (hstart.step (.step hfirst)).step (.step hsecond)

theorem ceq_compares_texts_twins : ∃ m m',
    Moment.Reaches (.idle (.start .builtins none none 1)) (.running twinsSession m) ∧
    Machine.fetch twinsSession.rules m = .ok (10, .ceq) (m.past 12) ∧
    Machine.step twinsSession.rules m = .ok .next m' ∧ m'.frame.stack.nth 0 = .int32 1 := by
  have hx : (twinsFrame 2).stack.nth 1 = .string ((twinsFrame 0).strings.intern "a").1 :=
    (Frame.nth_succ_pushed (by decide)).trans (Frame.nth_loaded "a" (by decide))
  have hy : (twinsFrame 2).stack.nth 0 = .string ((twinsFrame 1).strings.intern "a").1 :=
    Frame.nth_loaded "a" (by decide)
  have hc := StringTable.consistent_empty.intern "a"
  have hxt : (twinsFrame 2).strings.get? ((twinsFrame 0).strings.intern "a").1 = some "a" :=
    (StringTable.extends_intern hc "a").get? (StringTable.get?_intern StringTable.consistent_empty "a")
  have hyt : (twinsFrame 2).strings.get? ((twinsFrame 1).strings.intern "a").1 = some "a" :=
    StringTable.get?_intern hc "a"
  have hfetch : Machine.fetch twinsSession.rules ⟨{ twins with pc := 10 }, twinsFrame 2, 2⟩ =
      .ok (10, .ceq) (Machine.past ⟨{ twins with pc := 10 }, twinsFrame 2, 2⟩ 12) := rfl
  obtain ⟨text, text', ht, ht', _, hstep⟩ := ceq_compares_texts
    (Session.fresh_start Registry.onlyBuiltins_builtins none none 1) reaches_twins (k := 0) rfl (Nat.le_refl 2)
    (congrArg Value.kind hx) (congrArg Value.kind hy)
  have hstep := hstep twinsSession _ 12 rfl rfl hfetch
  have hsame : text = text' := by
    have hx' := (congrArg (Option.bind · (twinsFrame 2).strings.get?) (congrArg Value.handle? hx)).trans hxt
    have hy' := (congrArg (Option.bind · (twinsFrame 2).strings.get?) (congrArg Value.handle? hy)).trans hyt
    exact Option.some.inj ((ht.symm.trans hx').trans (hy'.symm.trans ht'))
  rw [if_pos hsame] at hstep
  exact ⟨_, _, reaches_twins, hfetch, hstep, Frame.nth_pushed (by decide)⟩

end StackVm
