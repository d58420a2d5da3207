import StackVm.Proofs.Layout

/-!
# Patching operands in place

Binding a label rewrites bytes in the middle of the buffer. `Spelled ds f a`
says that the buffer of `a` holds the bytes of `ds` one after another, with
`f k` in the branch of directive `k`; a patch changes `f` at one place and
nothing else. `assembleFrom_spec` follows this through a whole build: it ends
exactly if every displacement fits, and then every branch carries its own.
-/

namespace StackVm

/-! ## Overwriting -/

theorem size_overwrite : ∀ (bs : List UInt8) (code : Array UInt8) (pos : Nat),
    (Assembler.overwrite code pos bs).size = code.size
  | [], _, _ => rfl
  | b :: bs, code, pos => by
    rw [Assembler.overwrite, size_overwrite bs, Array.size_setIfInBounds]

theorem getElem?_overwrite_of_out : ∀ (bs : List UInt8) (code : Array UInt8) {pos i : Nat},
    i < pos ∨ pos + bs.length ≤ i → (Assembler.overwrite code pos bs)[i]? = code[i]?
  | [], _, _, _, _ => rfl
  | b :: bs, code, pos, i, h => by
    rw [List.length_cons] at h
    rw [Assembler.overwrite, getElem?_overwrite_of_out bs _ (by omega),
      Array.getElem?_setIfInBounds_ne (by omega)]

theorem hasAt_overwrite_of_out {code : Array UInt8} {pos at_ : Nat} {bs new : List UInt8}
    (h : HasAt code pos bs) (ho : pos + bs.length ≤ at_ ∨ at_ + new.length ≤ pos) :
    HasAt (Assembler.overwrite code at_ new) pos bs := by
  intro j hj
  rw [getElem?_overwrite_of_out new code (by omega)]
  exact h j hj

theorem hasAt_overwrite_self : ∀ (new : List UInt8) {code : Array UInt8} {pos : Nat},
    pos + new.length ≤ code.size → HasAt (Assembler.overwrite code pos new) pos new
  | [], code, pos, _ => hasAt_nil _ _
  | b :: new, code, pos, h => by
    rw [List.length_cons] at h
    rw [Assembler.overwrite, hasAt_cons]
    constructor
    · rw [getElem?_overwrite_of_out new _ (Or.inl (Nat.lt_succ_self pos)),
        Array.getElem?_setIfInBounds_self_of_lt (by omega)]
    · exact hasAt_overwrite_self new (by rw [Array.size_setIfInBounds]; omega)

/-! ## Appending -/

theorem getElem?_appendList (code : Array UInt8) (new : List UInt8) (i : Nat) :
    (code.appendList new)[i]? = (code.toList ++ new)[i]? := by
  rw [← Array.getElem?_toList, Array.appendList_eq_append, Array.toList_appendList]

theorem size_appendList (code : Array UInt8) (new : List UInt8) :
    (code.appendList new).size = code.size + new.length := by
  rw [← Array.length_toList, Array.appendList_eq_append, Array.toList_appendList, List.length_append,
    Array.length_toList]

theorem hasAt_append_left {code : Array UInt8} {pos : Nat} {bs : List UInt8} (new : List UInt8)
    (h : HasAt code pos bs) : HasAt (code.appendList new) pos bs := by
  intro j hj
  have hb := h j hj
  rw [List.getElem?_eq_getElem hj] at hb
  have hlt := (Array.getElem?_eq_some_iff.mp hb).1
  rw [getElem?_appendList, List.getElem?_append_left hlt, Array.getElem?_toList]
  exact h j hj

theorem hasAt_append_self (code : Array UInt8) (new : List UInt8) : HasAt (code.appendList new) code.size new := by
  intro j _
  rw [getElem?_appendList, ← Array.length_toList, List.getElem?_append_right (Nat.le_add_right _ _),
    Nat.add_sub_cancel_left]

/-! ## The bytes of a list of directives -/

structure Spelled (ds : List Directive) (f : Nat → Int) (code : Code) : Prop where
  size : code.size = address ds ds.length
  code : ∀ {k : Nat} {d : Directive}, ds[k]? = some d → HasAt code (address ds k) (d.bytesWith (f k))

theorem Spelled.congr {ds : List Directive} {f g : Nat → Int} {code : Code} (h : Spelled ds f code)
    (hfg : ∀ k < ds.length, f k = g k) : Spelled ds g code where
  size := h.size
  code {k d} hk := by
    rw [← hfg k (List.getElem?_eq_some_iff.mp hk).1]
    exact h.code hk

theorem Spelled.snoc {ds : List Directive} {f : Nat → Int} {code : Code} (h : Spelled ds f code) (d : Directive) :
    Spelled (ds ++ [d]) f (code.appendList (d.bytesWith (f ds.length))) := by
  have hlast : (ds ++ [d])[ds.length]? = some d := by simp
  have hend : address (ds ++ [d]) ds.length = code.size := by
    rw [address_append [d] (Nat.le_refl _), h.size]
  refine ⟨?_, fun {k e} hk => ?_⟩
  · rw [size_appendList, Directive.length_bytesWith, List.length_append, List.length_singleton,
      address_succ hlast, hend]
  · rcases getElem?_snoc hk with ⟨hlt, hk⟩ | ⟨rfl, rfl⟩
    · rw [address_append [d] (Nat.le_of_lt hlt)]
      exact hasAt_append_left _ (h.code hk)
    · rw [hend]
      exact hasAt_append_self _ _

def labelAt (ds : List Directive) (k : Nat) (b : Branch) : Label :=
  ⟨address ds k + b.opcode.encode.length, b.opcode.operandSize, address ds k + b.size⟩

theorem labelAt_stop (ds : List Directive) (k : Nat) (b : Branch) :
    (labelAt ds k b).operand + b.opcode.operandSize = address ds k + b.size := Nat.add_assoc _ _ _

theorem Spelled.overwrite {ds : List Directive} {f g : Nat → Int} {code : Code} {k : Nat} {d : Directive}
    {b : Branch} (h : Spelled ds f code) (hk : ds[k]? = some d) (hb : d.branch? = some b)
    (hg : ∀ j < ds.length, j ≠ k → g j = f j) :
    Spelled ds g (Assembler.overwrite code (labelAt ds k b).operand
      (bytesLE b.opcode.operandSize (b.operand (g k)))) := by
  have hbytes : ∀ offset, d.bytesWith offset = b.bytes offset := by
    intro offset; cases d <;> cases hb <;> rfl
  have hstop : address ds (k + 1) = address ds k + b.size := by
    rw [address_succ hk, ← d.length_bytesWith 0, hbytes, b.length_bytes]
  refine ⟨by rw [size_overwrite, h.size], fun {j e} hj => ?_⟩
  by_cases hjk : j = k
  · subst hjk
    rw [hk, Option.some.injEq] at hj
    subst hj
    have hold := h.code hk
    rw [hbytes, b.bytes_eq, hasAt_append] at hold
    rw [hbytes, b.bytes_eq, hasAt_append]
    refine ⟨hasAt_overwrite_of_out hold.1 (Or.inl (Nat.le_refl _)), hasAt_overwrite_self _ ?_⟩
    have := address_le_length ds (j + 1)
    rw [hstop, ← h.size] at this
    rw [length_bytesLE, labelAt_stop]
    exact this
  · -- the segments of two directives do not overlap
    rw [hg j (List.getElem?_eq_some_iff.mp hj).1 hjk]
    refine hasAt_overwrite_of_out (h.code hj) ?_
    rw [e.length_bytesWith, ← address_succ hj, length_bytesLE, labelAt_stop, ← hstop]
    rcases Nat.lt_or_gt_of_ne hjk with hlt | hgt
    · have hm := @address_mono ds _ _ hlt
      exact Or.inl (Nat.le_trans hm (Nat.le_add_right _ _))
    · have hm := @address_mono ds _ _ hgt
      exact Or.inr hm

/-! ## One directive -/

structure Built (ds : List Directive) (a : Assembler) : Prop where
  spelled : Spelled ds (displacement ds) a.bytes
  count : a.labels.size = forwards ds
  label : ∀ {k : Nat} {b : Branch}, ds[k]? = some (.branch b) → a.labels[labelOf ds k]? = some (labelAt ds k b)

/-- Targets below 2^63 are read as they are. -/
def Plain (ds : List Directive) : Prop :=
  ∀ (k : Nat) (b : Branch) (target : Nat), ds[k]? = some (.branchTo b target) → signed64 target = target

theorem built_empty : Built [] .empty where
  spelled := ⟨rfl, fun h => by simp at h⟩
  count := rfl
  label h := by simp at h

theorem patch_of_fits (a : Assembler) {l : Label} {b : Branch} {offset : Int} (hl : l.width = b.opcode.operandSize)
    (h : b.Fits offset) :
    a.patch l offset = .ok { a with
      bytes := Assembler.overwrite a.bytes l.operand (bytesLE b.opcode.operandSize (b.operand offset)) } := by
  unfold Assembler.patch; rw [hl, Branch.displacement_of_fits h]

theorem patch_of_not_fits (a : Assembler) {l : Label} {b : Branch} {offset : Int}
    (hl : l.width = b.opcode.operandSize) (h : ¬ b.Fits offset) : ∃ e, a.patch l offset = .error e := by
  unfold Assembler.patch
  obtain ⟨e, he⟩ := Branch.displacement_of_not_fits h
  rw [hl, he]; exact ⟨e, rfl⟩

theorem placeholder_eq {ds : List Directive} {a : Assembler} (h : Built ds a) (b : Branch) :
    a.placeholder b = (labelAt ds ds.length b, a.append (b.bytes 0)) := by
  unfold Assembler.placeholder labelAt Assembler.offset
  rw [h.spelled.size, b.bytes_zero, Branch.size, ← Nat.add_assoc]

theorem AllFit.of_append {ds es : List Directive} (hw : WellBound (ds ++ es)) (h : AllFit (ds ++ es)) : AllFit ds := by
  intro k d b offset hk hb ho
  have hlt := (List.getElem?_eq_some_iff.mp hk).1
  refine h k d b offset (by rwa [List.getElem?_append_left hlt]) hb ?_
  have ha := address_append es hlt
  unfold displacement? at ho ⊢
  rw [List.getElem?_append_left hlt, hk, labelOf_append es (Nat.le_of_lt hlt), ha]
  rw [hk] at ho
  cases d with
  | branch c =>
    obtain ⟨p, hp, rfl⟩ := Option.map_eq_some_iff.mp ho
    have hp' := (findIdx?_bind_eq_some hw.of_append).mp hp
    have hplt := (List.getElem?_eq_some_iff.mp hp').1
    refine Option.map_eq_some_iff.mpr ⟨p, (findIdx?_bind_eq_some hw).mpr ?_, ?_⟩
    · rwa [List.getElem?_append_left hplt]
    · rw [address_append es (Nat.le_of_lt hplt)]
  | _ => exact ho

theorem displacement_snoc_of_not_bind {ds : List Directive} {d : Directive} (hd : ∀ l, d ≠ .bind l) :
    ∀ k < ds.length, displacement ds k = displacement (ds ++ [d]) k := by
  intro k hk
  unfold displacement
  rw [displacement?_snoc hk fun _ _ => hd _]

theorem AllFit.snoc_of_not_bind {ds : List Directive} {d : Directive} (h : AllFit ds) (hd : ∀ l, d ≠ .bind l)
    (hn : ∀ b offset, d.branch? = some b → displacement? (ds ++ [d]) ds.length = some offset → b.Fits offset) :
    AllFit (ds ++ [d]) := by
  intro k c b offset hk hb ho
  rcases getElem?_snoc hk with ⟨hlt, hk⟩ | ⟨rfl, rfl⟩
  · rw [displacement?_snoc hlt fun _ _ => hd _] at ho
    exact h k c b offset hk hb ho
  · exact hn b offset hb ho

theorem label_snoc {ds : List Directive} {a : Assembler} {d : Directive} {labels : Array Label} (h : Built ds a)
    (hl : ∀ l, l < a.labels.size → labels[l]? = a.labels[l]?)
    (hd : ∀ b, d = .branch b → labels[forwards ds]? = some (labelAt ds ds.length b)) {k : Nat} {b : Branch}
    (hk : (ds ++ [d])[k]? = some (.branch b)) :
    labels[labelOf (ds ++ [d]) k]? = some (labelAt (ds ++ [d]) k b) := by
  have ha : k ≤ ds.length → labelAt (ds ++ [d]) k b = labelAt ds k b := by
    intro hle
    unfold labelAt; rw [address_append [d] hle]
  rcases getElem?_snoc hk with ⟨hlt, hk⟩ | ⟨rfl, rfl⟩
  · have hs := labelOf_mono ds hlt
    rw [labelOf_succ hk, labelOf_length] at hs
    rw [labelOf_append [d] (Nat.le_of_lt hlt), ha (Nat.le_of_lt hlt), hl _ (by rw [h.count]; exact hs)]
    exact h.label hk
  · rw [labelOf_append _ (Nat.le_refl _), ha (Nat.le_refl _), labelOf_length]
    exact hd b rfl

theorem displacement_length (ds : List Directive) : displacement ds ds.length = 0 := by
  unfold displacement displacement?
  rw [List.getElem?_eq_none_iff.mpr (Nat.le_refl _)]; rfl

/-- What a single directive does: it fails exactly if it writes a displacement that does not fit. -/
def StepSpec (ds : List Directive) (d : Directive) (a : Assembler) : Prop :=
  (AllFit (ds ++ [d]) → ∃ a', d.run a = .ok a' ∧ Built (ds ++ [d]) a') ∧
    (¬ AllFit (ds ++ [d]) → ∃ e, d.run a = .error e)

theorem Spelled.snoc_displacement {ds : List Directive} {code : Code} {d : Directive}
    (h : Spelled ds (displacement ds) code) (hd : ∀ l, d ≠ .bind l) (h0 : displacement (ds ++ [d]) ds.length = 0) :
    Spelled (ds ++ [d]) (displacement (ds ++ [d])) (code.appendList (d.bytesWith 0)) := by
  have hs := h.snoc d
  rw [displacement_length] at hs
  refine hs.congr fun k hk => ?_
  rcases Nat.lt_or_ge k ds.length with hlt | hge
  · exact displacement_snoc_of_not_bind hd k hlt
  · rw [List.length_append, List.length_singleton] at hk
    obtain rfl : k = ds.length := by omega
    rw [displacement_length, h0]

section
variable {ds : List Directive} {a : Assembler} (h : Built ds a) (hf : AllFit ds)
include h hf

theorem step_append {d : Directive} {bs : List UInt8} (hd : ∀ l, d ≠ .bind l) (hb : ∀ b, d ≠ .branch b)
    (h0 : displacement? (ds ++ [d]) ds.length = none) (hbs : d.bytesWith 0 = bs) (hrun : d.run a = .ok (a.append bs)) :
    StepSpec ds d a := by
  refine ⟨fun _ => ⟨_, hrun, ?_, ?_, ?_⟩, fun hn => absurd (hf.snoc_of_not_bind hd fun b o _ ho => ?_) hn⟩
  · rw [← hbs]
    exact h.spelled.snoc_displacement hd (by unfold displacement; rw [h0]; rfl)
  · rw [forwards_append, forwards, forwards, List.countP_singleton, Directive.isForward_eq_false hb]
    exact h.count
  · exact label_snoc h (fun _ _ => rfl) fun b he => absurd he (hb b)
  · rw [h0] at ho; cases ho

theorem step_branch (b : Branch) (hw : WellBound (ds ++ [.branch b])) : StepSpec ds (.branch b) a := by
  have hd : ∀ l, Directive.branch b ≠ .bind l := fun l hl => by cases hl
  have h0 := displacement?_snoc_branch hw
  have hrun : (Directive.branch b).run a =
      .ok ⟨a.bytes.appendList (b.bytes 0), a.labels.push (labelAt ds ds.length b)⟩ := by
    simp only [Directive.run, Assembler.branch, placeholder_eq h]; rfl
  refine ⟨fun _ => ⟨_, hrun, ?_, ?_, ?_⟩, fun hn => absurd (hf.snoc_of_not_bind hd fun c o _ ho => ?_) hn⟩
  · exact h.spelled.snoc_displacement hd (by unfold displacement; rw [h0]; rfl)
  · rw [Array.size_push, forwards_append, h.count]; rfl
  · refine label_snoc h (fun l hl => ?_) fun c hc => ?_
    · rw [Array.getElem?_push_lt hl, Array.getElem?_eq_getElem hl]
    · cases hc
      rw [← h.count, Array.getElem?_push_size]
  · rw [h0] at ho; cases ho

theorem step_patched {d : Directive} {b : Branch} {offset : Int} (hd : ∀ l, d ≠ .bind l) (hn : ∀ c, d ≠ .branch c)
    (hb : d.branch? = some b) (ho : displacement? (ds ++ [d]) ds.length = some offset)
    (hrun : d.run a = (a.append (b.bytes 0)).patch (labelAt ds ds.length b) offset) : StepSpec ds d a := by
  have hlast : (ds ++ [d])[ds.length]? = some d := by simp
  have hl : labelAt ds ds.length b = labelAt (ds ++ [d]) ds.length b := by
    unfold labelAt; rw [address_append [d] (Nat.le_refl _)]
  constructor
  · intro hfit
    have hbf := hfit _ _ _ _ hlast hb ho
    rw [patch_of_fits _ rfl hbf] at hrun
    refine ⟨_, hrun, ?_, ?_, ?_⟩
    · have hs := h.spelled.snoc d
      rw [displacement_length, show d.bytesWith 0 = b.bytes 0 by cases d <;> cases hb <;> rfl] at hs
      have hg : displacement (ds ++ [d]) ds.length = offset := by unfold displacement; rw [ho]; rfl
      have := hs.overwrite (g := displacement (ds ++ [d])) hlast hb fun j hj hne => ?_
      · rwa [hg, ← hl] at this
      · rw [List.length_append, List.length_singleton] at hj
        exact (displacement_snoc_of_not_bind hd j (by omega)).symm
    · rw [forwards_append, forwards, forwards, List.countP_singleton, Directive.isForward_eq_false hn]
      exact h.count
    · exact label_snoc h (fun _ _ => rfl) fun c hc => absurd hc (hn c)
  · intro hnf
    rw [hrun]
    refine patch_of_not_fits _ rfl fun hbf => hnf (hf.snoc_of_not_bind hd fun c o hc hco => ?_)
    rw [hb] at hc; rw [ho] at hco
    cases hc; cases hco; exact hbf

theorem step_bind (l : Nat) (hw : WellBound (ds ++ [.bind l])) : StepSpec ds (.bind l) a := by
  have hlast : (ds ++ [.bind l])[ds.length]? = some (Directive.bind l) := by simp
  have hlt : l < forwards ds := by
    have := hw.made hlast
    rwa [labelOf_append _ (Nat.le_refl _), labelOf_length] at this
  obtain ⟨k, b, hk, rfl⟩ := exists_of_lt_forwards hlt
  have hkl := (List.getElem?_eq_some_iff.mp hk).1
  have hk' : (ds ++ [.bind (labelOf ds k)])[k]? = some (.branch b) := by rwa [List.getElem?_append_left hkl]
  have ho := displacement?_snoc_bind hk hw
  have hother : ∀ j < ds.length, j ≠ k →
      displacement? (ds ++ [.bind (labelOf ds k)]) j = displacement? ds j := fun j hj hne =>
    displacement?_snoc hj fun c hc he => hne (by
      rw [Directive.bind.injEq] at he
      exact (labelOf_inj hk hc he).symm)
  have hrun : (Directive.bind (labelOf ds k)).run a =
      a.patch (labelAt ds k b) ((address ds ds.length : Int) - address ds (k + 1)) := by
    simp only [Directive.run, Assembler.bind, h.label hk, Assembler.offset, h.spelled.size, labelAt,
      address_succ hk, Directive.size]
  constructor
  · intro hfit
    have hbf := hfit _ _ _ _ hk' rfl ho
    rw [patch_of_fits _ rfl hbf] at hrun
    refine ⟨_, hrun, ?_, ?_, ?_⟩
    · have hg : displacement (ds ++ [.bind (labelOf ds k)]) k = (address ds ds.length : Int) - address ds (k + 1) := by
        unfold displacement; rw [ho]; rfl
      -- only the branch that made the label changes its displacement
      have hs := h.spelled.overwrite (g := displacement (ds ++ [.bind (labelOf ds k)])) hk rfl fun j hj hne => ?_
      · rw [hg] at hs
        exact hs.snoc (.bind (labelOf ds k))
      · unfold displacement; rw [hother j hj hne]
    · rw [forwards_append]; exact h.count
    · exact label_snoc h (fun _ _ => rfl) fun c hc => by cases hc
  · intro hnf
    rw [hrun]
    refine patch_of_not_fits _ rfl fun hbf => hnf fun j c e o hj he hjo => ?_
    rcases getElem?_snoc hj with ⟨hjl, hjd⟩ | ⟨rfl, rfl⟩
    · by_cases hjk : j = k
      · subst hjk
        rw [hk, Option.some.injEq] at hjd
        subst hjd
        rw [ho, Option.some.injEq] at hjo
        cases he; rw [← hjo]; exact hbf
      · rw [hother j hjl hjk] at hjo
        exact hf j c e o hjd he hjo
    · cases he

end

theorem run_spec {ds : List Directive} {a : Assembler} (d : Directive) (h : Built ds a) (hf : AllFit ds)
    (hw : WellBound (ds ++ [d])) (hp : Plain (ds ++ [d])) : StepSpec ds d a := by
  have hlast : (ds ++ [d])[ds.length]? = some d := by simp
  have hend : address (ds ++ [d]) (ds.length + 1) = address ds ds.length + d.size := by
    rw [address_succ hlast, address_append [d] (Nat.le_refl _)]
  cases d with
  | emit e =>
    refine step_append h hf (fun l hl => by cases hl) (fun b hb => by cases hb) ?_ rfl rfl
    unfold displacement?; rw [hlast]
  | raw bs =>
    refine step_append h hf (fun l hl => by cases hl) (fun b hb => by cases hb) ?_ rfl rfl
    unfold displacement?; rw [hlast]
  | branch b => exact step_branch h hf b hw
  | bind l => exact step_bind h hf l hw
  | branchTo b target =>
    refine step_patched h hf (fun l hl => by cases hl) (fun c hc => by cases hc) rfl
      (displacement?_of_branchTo hlast) ?_
    simp only [Directive.run, Assembler.branchTo, placeholder_eq h, hp _ _ _ hlast, hend, Directive.size, labelAt]
  | branchBy b offset =>
    refine step_patched h hf (fun l hl => by cases hl) (fun c hc => by cases hc) rfl
      (displacement?_of_branchBy hlast) ?_
    simp only [Directive.run, Assembler.branchBy, placeholder_eq h]

/-! ## A whole build -/

theorem Plain.of_append {ds es : List Directive} (h : Plain (ds ++ es)) : Plain ds := fun k b target hk =>
  h k b target (by rwa [List.getElem?_append_left (List.getElem?_eq_some_iff.mp hk).1])

theorem assembleFrom_spec : ∀ (es : List Directive) {ds : List Directive} {a : Assembler}, Built ds a → AllFit ds →
    WellBound (ds ++ es) → Plain (ds ++ es) →
    (AllFit (ds ++ es) → ∃ a', assembleFrom a es = .ok a' ∧ Built (ds ++ es) a') ∧
      (¬ AllFit (ds ++ es) → ∃ e, assembleFrom a es = .error e)
  | [], ds, a, h, hf, _, _ => by
    rw [List.append_nil]
    exact ⟨fun _ => ⟨a, rfl, h⟩, fun hn => absurd hf hn⟩
  | d :: es, ds, a, h, hf, hw, hp => by
    rw [List.append_cons] at hw hp ⊢
    have hs := run_spec d h hf hw.of_append hp.of_append
    by_cases hd : AllFit (ds ++ [d])
    · obtain ⟨a', hr, hb⟩ := hs.1 hd
      simp only [assembleFrom, hr]
      exact assembleFrom_spec es hb hd hw hp
    · refine ⟨fun hall => absurd (hall.of_append hw) hd, fun _ => ?_⟩
      obtain ⟨e, he⟩ := hs.2 hd
      simp only [assembleFrom, he]
      exact ⟨e, rfl⟩

theorem assemble_spec {ds : List Directive} (hw : WellBound ds) (hp : Plain ds) :
    (AllFit ds → ∃ a, assembleFrom .empty ds = .ok a ∧ Built ds a) ∧
      (¬ AllFit ds → ∃ e, assembleFrom .empty ds = .error e) :=
  assembleFrom_spec ds built_empty (fun k d b o hk => by simp at hk) hw hp

/-! ## Offsets along a build -/

theorem offset_append (a : Assembler) (bs : List UInt8) : (a.append bs).offset = a.offset + bs.length :=
  size_appendList _ _

theorem offset_patch {a a' : Assembler} {l : Label} {offset : Int} (h : a.patch l offset = .ok a') :
    a'.offset = a.offset := by
  unfold Assembler.patch at h
  split at h
  · cases h; exact size_overwrite _ _ _
  · cases h

theorem offset_placeholder (a : Assembler) (b : Branch) : (a.placeholder b).2.offset = a.offset + b.size := by
  have hl : (b.opcode.encodeWith [0]).length = b.size := by rw [← b.bytes_zero, b.length_bytes]
  rw [← hl]; exact offset_append a _

theorem offset_run {d : Directive} {a a' : Assembler} (h : d.run a = .ok a') : a'.offset = a.offset + d.size := by
  cases d with
  | emit e => cases h; exact offset_append a _
  | raw bs => cases h; exact offset_append a _
  | branch b => cases h; exact offset_placeholder a b
  | bind l =>
    simp only [Directive.run, Assembler.bind] at h
    split at h
    · exact offset_patch h
    · cases h; rfl
  | branchTo b target =>
    rw [Directive.size, ← offset_placeholder]
    exact offset_patch h
  | branchBy b offset =>
    rw [Directive.size, ← offset_placeholder]
    exact offset_patch h

theorem assembleFrom_append : ∀ {ds es : List Directive} {a c : Assembler}, assembleFrom a (ds ++ es) = .ok c →
    ∃ b, assembleFrom a ds = .ok b ∧ assembleFrom b es = .ok c
  | [], _, a, _, h => ⟨a, rfl, h⟩
  | d :: ds, es, a, c, h => by
    simp only [List.cons_append, assembleFrom] at h ⊢
    split at h
    · next hr => exact assembleFrom_append h
    · cases h

theorem assembleFrom_take {ds : List Directive} {a : Assembler} (h : assembleFrom .empty ds = .ok a) (k : Nat) :
    ∃ b, assembleFrom .empty (ds.take k) = .ok b := by
  rw [← List.take_append_drop k ds] at h
  obtain ⟨b, hb, _⟩ := assembleFrom_append h
  exact ⟨b, hb⟩

theorem offset_assembleFrom : ∀ {ds : List Directive} {a a' : Assembler}, assembleFrom a ds = .ok a' →
    a'.offset = a.offset + address ds ds.length
  | [], a, _, h => by cases h; rfl
  | d :: ds, a, a', h => by
    simp only [assembleFrom] at h
    split at h
    · next hr =>
      rw [offset_assembleFrom h, offset_run hr, Nat.add_assoc]; simp [address]
    · cases h

theorem offset_take {ds : List Directive} {k : Nat} {a : Assembler} (h : assembleFrom .empty (ds.take k) = .ok a) :
    a.offset = address ds k := by
  rw [offset_assembleFrom h]
  unfold address
  rw [List.take_length]
  exact Nat.zero_add _

def TargetsSeen (ds : List Directive) : Prop :=
  ∀ (k : Nat) (b : Branch) (target : Nat), ds[k]? = some (.branchTo b target) →
    ∃ j ≤ k, ∃ a, assembleFrom .empty (ds.take j) = .ok a ∧ a.offset = target

theorem TargetsSeen.exists_address {ds : List Directive} (h : TargetsSeen ds) {k : Nat} {b : Branch} {target : Nat}
    (hk : ds[k]? = some (.branchTo b target)) : ∃ j ≤ k, address ds j = target := by
  obtain ⟨j, hj, a, ha, rfl⟩ := h k b target hk
  exact ⟨j, hj, (offset_take ha).symm⟩

theorem TargetsSeen.plain {ds : List Directive} {a : Assembler} (h : TargetsSeen ds)
    (ha : assembleFrom .empty ds = .ok a) : Plain ds := by
  intro k b target hk
  obtain ⟨j, hj, ht⟩ := h.exists_address hk
  obtain ⟨hlt, he⟩ := List.getElem?_eq_some_iff.mp hk
  rw [← List.take_append_drop k ds, List.drop_eq_getElem_cons hlt, he] at ha
  obtain ⟨c, hc, hrest⟩ := assembleFrom_append ha
  have hle : target ≤ c.offset := by
    rw [← ht, offset_take hc]; exact address_mono hj
  simp only [assembleFrom] at hrest
  have hfits : b.Fits (signed64 target - (c.placeholder b).1.base) := by
    refine Classical.byContradiction fun hn => ?_
    obtain ⟨e, hr⟩ := patch_of_not_fits (c.placeholder b).2 (l := (c.placeholder b).1) rfl hn
    simp only [Directive.run, Assembler.branchTo, hr] at hrest
    cases hrest
  have hbase : c.offset ≤ (c.placeholder b).1.base := by
    show c.offset ≤ c.offset + _ + _; omega
  have hlow : -0x80000000 ≤ signed64 target - (c.placeholder b).1.base := by
    cases b <;> have := hfits.1 <;> omega
  unfold signed64 at hlow ⊢
  split at hlow
  · -- read as negative, the target would be out of reach of the branch
    omega
  · next hn => rw [if_neg hn]

end StackVm
