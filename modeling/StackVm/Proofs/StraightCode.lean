import StackVm.Proofs.Budget
import StackVm.Proofs.Encoding

/-!
# Straight code

Instructions that each go on to the one after them. `Straight` says what they do
to the frame and `Breaks` which of them fails; neither knows where the code
stands. `Straight.after`, `Straight.run_ret` and `Breaks.run` put it at an offset:
what it does to the frame is what a run does from there.
-/

namespace StackVm

theorem hasAt_toArray (bs : List UInt8) : HasAt bs.toArray 0 bs := by
  intro j _
  simp

theorem assembleFrom_emissions (es : List Emission) (a : Assembler) :
    assembleFrom a (es.map .emit) = .ok { a with bytes := a.bytes.appendList (es.flatMap Emission.bytes) } := by
  induction es generalizing a with
  | nil => simp [assembleFrom]
  | cons e es ih => simp [assembleFrom, Directive.run, Assembler.emit, Assembler.append, ih, ← Array.toList_inj]

theorem assemble_emissions (es : List Emission) :
    assemble (es.map .emit) = .ok (es.flatMap Emission.bytes).toArray := by
  simp [assemble, assembleFrom_emissions, Except.map, Assembler.empty]

def Program.stage (p : Program) (es : List Emission) : Program :=
  { p with pc := p.pc + (es.flatMap Emission.bytes).length }

theorem Program.stage_snoc (p : Program) (es : List Emission) (e : Emission) :
    p.stage (es ++ [e]) = { p.stage es with pc := (p.stage es).pc + e.bytes.length } := by
  simp [stage, Nat.add_assoc]

/-- The emissions lead from one frame to another, and each goes on to the one after it. -/
inductive Straight (rules : Rules) (image : Image) (f : Frame) : List Emission → Frame → Prop
  | nil : Straight rules image f [] f
  | snoc {es : List Emission} {e : Emission} {g h : Frame} : Straight rules image f es g →
      Machine.effect rules image e.instruction g = .ok .stay h → Straight rules image f (es ++ [e]) h

inductive Breaks (rules : Rules) (image : Image) (f : Frame) : List Emission → Fault → Prop
  | intro {es : List Emission} {e : Emission} {g h : Frame} {fault : Fault} (rest : List Emission) :
      Straight rules image f es g → Machine.effect rules image e.instruction g = .error fault h →
      Breaks rules image f (es ++ e :: rest) fault

section
variable {rules : Rules} {image : Image} {f g h : Frame} {es es' : List Emission} {fault : Fault}

theorem Straight.append (h₁ : Straight rules image f es g) (h₂ : Straight rules image g es' h) :
    Straight rules image f (es ++ es') h := by
  induction h₂ with
  | nil => simpa using h₁
  | snoc _ he ih =>
    rw [← List.append_assoc]
    exact ih.snoc he

theorem Straight.cons {e : Emission} (he : Machine.effect rules image e.instruction f = .ok .stay g)
    (hs : Straight rules image g es h) : Straight rules image f (e :: es) h := Straight.append (.snoc .nil he) hs

theorem Straight.breaks (h₁ : Straight rules image f es g) (h₂ : Breaks rules image g es' fault) :
    Breaks rules image f (es ++ es') fault := by
  cases h₂ with
  | intro rest hs he =>
    rw [← List.append_assoc]
    exact .intro rest (h₁.append hs) he

theorem Breaks.append (h : Breaks rules image f es fault) (es' : List Emission) :
    Breaks rules image f (es ++ es') fault := by
  cases h with
  | intro rest hs he =>
    rw [List.append_assoc, List.cons_append]
    exact .intro (rest ++ es') hs he

end

/-! ## Runs -/

theorem Machine.after_add {rules : Rules} {m₀ m : Machine} {n : Nat} (h : after rules m₀ n = some m) (k : Nat) :
    after rules m₀ (n + k) = after rules m k := by
  induction k with
  | zero => exact h
  | succ k ih =>
    rw [← Nat.add_assoc]
    simp only [after, ih]

theorem Interpreter.run_unlimited {i : Interpreter} {p : Program} {fuel : Nat} {registry : Registry} {host : Host}
    {r : Except Fault (Option Value)} {m : Machine}
    (h : Machine.run ⟨registry, none⟩ fuel (i.start p host) = some (r, m)) :
    Interpreter.run fuel registry (.load p { i with limit := none }) host =
      some (r, (Interpreter.load p { i with limit := none }).finish r m, m.frame.host) :=
  (run_load { i with limit := none } p fuel registry host).trans (congrArg (Option.map _) h)

section
variable {rules : Rules} {p : Program} {f g : Frame} {es : List Emission} {n : Nat}

theorem Straight.after (h : Straight rules p.image f es g)
    (hcode : HasAt p.method.code p.pc (es.flatMap Emission.bytes))
    (hlimit : ∀ limit, rules.limit = some limit → n + es.length ≤ limit) :
    Machine.after rules ⟨p, f, n⟩ es.length = some ⟨p.stage es, g, n + es.length⟩ := by
  induction h with
  | nil => rfl
  | @snoc es e g h _ he ih =>
    rw [List.flatMap_append, List.flatMap_singleton, hasAt_append] at hcode
    rw [List.length_append, List.length_singleton] at hlimit ⊢
    have hbefore := ih hcode.1 fun limit hl => Nat.le_of_succ_le (hlimit limit hl)
    rw [Program.stage_snoc]
    exact Machine.after_of_step hbefore (Machine.step_of_stay hlimit (decodeAt_of_emission hcode.2) he)

/-- Straight code that ends in `ret` returns the top of the stack. -/
theorem Straight.run_ret (h : Straight rules p.image f es g)
    (hcode : HasAt p.method.code p.pc ((es ++ [Emission.ret]).flatMap Emission.bytes))
    (hlimit : ∀ limit, rules.limit = some limit → n + es.length < limit) {fuel : Nat} (hf : es.length < fuel) :
    Machine.run rules fuel ⟨p, f, n⟩ = some (.ok (if g.stack.depth = 0 then none else some (g.stack.nth 0)),
      ⟨p.stage (es ++ [.ret]), g, n + es.length + 1⟩) := by
  rw [List.flatMap_append, List.flatMap_singleton, hasAt_append] at hcode
  have hafter := h.after hcode.1 fun limit hl => Nat.le_of_lt (hlimit limit hl)
  have hreturn := Machine.step_of_halt (m := ⟨p.stage es, g, n + es.length⟩) hlimit (decodeAt_of_emission hcode.2) rfl
  rw [Program.stage_snoc]
  exact Machine.run_of_after_stopped hafter (congrArg Machine.stopped hreturn) hf

theorem Breaks.run {fault : Fault} (h : Breaks rules p.image f es fault)
    (hcode : HasAt p.method.code p.pc (es.flatMap Emission.bytes))
    (hlimit : ∀ limit, rules.limit = some limit → n + es.length ≤ limit) :
    ∃ m, ∀ fuel, es.length ≤ fuel → Machine.run rules fuel ⟨p, f, n⟩ = some (.error fault, m) := by
  cases h with
  | @intro es e g h _ rest hs he =>
    rw [List.flatMap_append, List.flatMap_cons, hasAt_append, hasAt_append] at hcode
    rw [List.length_append, List.length_cons] at hlimit ⊢
    have hwithin : ∀ limit, rules.limit = some limit → n + es.length < limit := by
      intro limit hl
      have := hlimit limit hl
      omega
    have hafter := hs.after hcode.1 fun limit hl => Nat.le_of_lt (hwithin limit hl)
    have hfetch := Machine.programFetch_of_decodeAt (p := p.stage es) (decodeAt_of_emission hcode.2.1)
    have hstep := Machine.step_of_fetch (m := ⟨p.stage es, g, n + es.length⟩) (Machine.fetch_of_ok hwithin hfetch)
    have hfails : Machine.effect rules (p.stage es).image e.instruction g = _ := he
    rw [hfails] at hstep
    refine ⟨_, fun fuel hf => Machine.run_of_after_stopped hafter (congrArg Machine.stopped hstep) ?_⟩
    omega

end

end StackVm
