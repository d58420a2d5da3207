import StackVm.Proofs.LifeCycle

/-!
# A registry that interpreters share

The registry at any point of a history is known from the events alone: its
entries are those it began with and the successful registrations (`Lists`), and
it is sealed once a `sealPlugs` command or the run of a ready interpreter has
happened. From then on it stays as it is.
-/

namespace StackVm

def Signature.Agrees (s t : Signature) : Prop :=
  s.owner = t.owner ∧ s.name = t.name ∧ s.returns = t.returns ∧ s.params = t.params ∧ s.isInstance = t.isInstance

theorem Signature.agrees_iff {s t : Signature} : s.Agrees t ↔ s = t := by
  cases s
  cases t
  simp [Agrees]

/-! ## Entries -/

namespace Registry

structure Lists (r : Registry) (entries : List (Signature × Handler)) : Prop where
  nodup : (entries.map Prod.fst).Nodup
  lookup : ∀ sig handler, r.lookup? sig = some handler ↔ (sig, handler) ∈ entries
  size : r.size = entries.length

inductive Seeded : Registry → List (Signature × Handler) → Prop
  | empty : Seeded .empty []
  | builtins : Seeded .builtins (Builtin.all.map fun b => (b.signature, .builtin b))

variable {r r' : Registry} {entries : List (Signature × Handler)} {sig : Signature} {handler : Handler}

theorem Lists.contains_iff (h : r.Lists entries) : r.plugs.contains sig = true ↔ ∃ x ∈ entries, x.1.Agrees sig := by
  rw [Std.HashMap.contains_eq_isSome_getElem?, Option.isSome_iff_exists]
  constructor
  · rintro ⟨handler, hl⟩
    exact ⟨(sig, handler), (h.lookup sig handler).mp hl, Signature.agrees_iff.mpr rfl⟩
  · rintro ⟨⟨sig', handler⟩, hx, ha⟩
    obtain rfl := Signature.agrees_iff.mp ha
    exact ⟨handler, (h.lookup _ handler).mpr hx⟩

theorem Lists.insert (h : r.Lists entries) (hnew : r.plugs.contains sig = false) (handler : Handler) (isSealed : Bool) :
    (Registry.mk (r.plugs.insert sig handler) isSealed).Lists (entries ++ [(sig, handler)]) := by
  have hfresh : ∀ x ∈ entries, x.1 ≠ sig := by
    intro x hx heq
    have hc := h.contains_iff.mpr ⟨x, hx, Signature.agrees_iff.mpr heq⟩
    rw [hnew] at hc
    cases hc
  refine ⟨?_, ?_, ?_⟩
  · rw [List.map_append, List.nodup_append]
    refine ⟨h.nodup, by simp, ?_⟩
    intro t ht t' ht'
    obtain ⟨x, hx, rfl⟩ := List.mem_map.mp ht
    simp only [List.map_cons, List.map_nil, List.mem_singleton] at ht'
    rw [ht']
    exact hfresh x hx
  · intro sig' handler'
    have hl := h.lookup sig' handler'
    simp only [lookup?] at hl
    simp only [lookup?, Std.HashMap.getElem?_insert, List.mem_append, List.mem_singleton, Prod.mk.injEq]
    by_cases hs : sig = sig'
    · subst hs
      have hno : (sig, handler') ∉ entries := fun hx => hfresh _ hx rfl
      simp [hno, eq_comm]
    · simp [hs, Ne.symm hs, hl]
  · have hs : r.plugs.size = entries.length := h.size
    have hnot : sig ∉ r.plugs := by simp [Std.HashMap.mem_iff_contains, hnew]
    simp [Registry.size, Std.HashMap.size_insert, hnot, hs]

theorem lists_empty (isSealed : Bool) : (Registry.mk ∅ isSealed).Lists [] := by
  refine ⟨by simp, ?_, ?_⟩
  · intro sig handler
    simp [lookup?]
  · simp [size]

/-- The built-in handlers are inserted one after the other, under signatures that all differ. -/
theorem Lists.foldl_insert {plugs : Std.HashMap Signature Handler} (bs : List Builtin)
    (h : (Registry.mk plugs false).Lists entries) (hbs : (bs.map Builtin.signature).Nodup)
    (hnew : ∀ b ∈ bs, plugs.contains b.signature = false) :
    (Registry.mk (bs.foldl (fun plugs b => plugs.insert b.signature (.builtin b)) plugs) false).Lists
      (entries ++ bs.map fun b => (b.signature, .builtin b)) := by
  induction bs generalizing plugs entries with
  | nil => simpa using h
  | cons b bs ih =>
    rw [List.map_cons, List.nodup_cons] at hbs
    have hnext := h.insert (hnew b (by simp)) (.builtin b) false
    have hrest : ∀ b' ∈ bs, (plugs.insert b.signature (.builtin b)).contains b'.signature = false := by
      intro b' hb'
      have hne : b.signature ≠ b'.signature := by
        intro heq
        exact hbs.1 (heq ▸ List.mem_map.mpr ⟨b', hb', rfl⟩)
      simp [Std.HashMap.contains_insert, hne, hnew b' (by simp [hb'])]
    simpa [List.append_assoc] using ih hnext hbs.2 hrest

theorem Seeded.lists (h : r.Seeded entries) : r.Lists entries ∧ r.isSealed = false := by
  cases h with
  | empty => exact ⟨lists_empty false, rfl⟩
  | builtins =>
    have hdistinct : (Builtin.all.map Builtin.signature).Nodup := by simp [Builtin.all, Builtin.signature]
    have hall := (lists_empty false).foldl_insert Builtin.all hdistinct (by simp)
    rw [List.nil_append] at hall
    exact ⟨hall, rfl⟩

theorem lookup?_builtins (b : Builtin) : Registry.builtins.lookup? b.signature = some (.builtin b) := by
  rw [Seeded.builtins.lists.1.lookup]
  cases b <;> simp [Builtin.all]

theorem Lists.register_of_new (h : r.Lists entries) (ho : r.isSealed = false) (hnew : ¬ ∃ x ∈ entries, x.1.Agrees sig)
    (handler : Handler) :
    r.register sig handler = .ok () { r with plugs := r.plugs.insert sig handler } := by
  rw [← h.contains_iff] at hnew
  simp [register, ho, hnew]

theorem Lists.register_of_taken (h : r.Lists entries) (ho : r.isSealed = false) (ht : ∃ x ∈ entries, x.1.Agrees sig)
    (handler : Handler) :
    r.register sig handler = .error (.duplicate sig) r := by
  rw [← h.contains_iff] at ht
  simp [register, ho, ht]

theorem Lists.register (h : r.Lists entries) (hr : r.register sig handler = .ok () r') :
    r.isSealed = false ∧ r'.isSealed = false ∧ r'.Lists (entries ++ [(sig, handler)]) := by
  unfold Registry.register at hr
  split at hr
  · cases hr
  · next ho =>
    split at hr
    · cases hr
    · next hnew =>
      cases hr
      have ho : r.isSealed = false := by simpa using ho
      exact ⟨ho, ho, h.insert (by simpa using hnew) handler _⟩

end Registry

/-! ## Events -/

namespace Event

def Seals (s : Session) : Event → Prop
  | command .sealPlugs _ => True
  | command .run _ | began => s.interpreter.phase = .ready
  | _ => False

variable {s : Session} {c : Command} {answer : Answer}

theorem registered?_of_loads (h : (command c answer).loads = true) :
    (command c answer).registered? = none ∧ ¬ (command c answer).Seals s := by
  cases c with
  | load m image | loadPrimality n image | loadHello text | reload => exact ⟨rfl, id⟩
  | run | register sig handler | sealPlugs | resolveString v | lookup sig | use n => cases h

theorem not_seals (hr : (command c answer).runs = false) (hs : c ≠ .sealPlugs) : ¬ (command c answer).Seals s := by
  cases c with
  | run => cases hr
  | sealPlugs => exact absurd rfl hs
  | load _ _ | loadPrimality _ _ | loadHello _ | reload | resolveString _ | register _ _ | lookup _ | use _ => exact id

end Event

def registrations (past : List (Session × Event)) : List (Signature × Handler) :=
  past.filterMap fun x => x.2.registered?

theorem registrations_snoc (past : List (Session × Event)) (s : Session) (e : Event) :
    registrations (past ++ [(s, e)]) = registrations past ++ e.registered?.toList := by
  cases he : e.registered? <;> simp [registrations, he]

theorem registry_happens {s s' : Session} {e : Event} (hc : s.Coherent) (h : Happens s e s') :
    (∃ sig handler, e.registered? = some (sig, handler) ∧ ¬ e.Seals s ∧
      s.registry.register sig handler = .ok () s'.registry) ∨
    (e.registered? = none ∧ e.Seals s ∧ s'.registry = s.registry.toSealed) ∨
    (e.registered? = none ∧ ¬ e.Seals s ∧ s'.registry = s.registry) := by
  cases h with
  | @began p hp =>
    exact .inr (.inl ⟨rfl, (Interpreter.program_of_runnable? hp).1, rfl⟩)
  | ended _ => exact .inr (.inr ⟨rfl, id, rfl⟩)
  | command fuel hp =>
    rcases Session.perform_effect hp with
      ⟨hl, p, rfl⟩ | ⟨rfl, r, rfl, hr⟩ | ⟨sig, handler, registry, rfl, rfl, hr, rfl⟩ | ⟨rfl, rfl⟩ |
      ⟨_, hr, hreg, hs, _, hsame⟩
    · obtain ⟨hreg, hns⟩ := Event.registered?_of_loads hl
      exact .inr (.inr ⟨hreg, hns, rfl⟩)
    · rcases Session.run_cases hr with ⟨hn, _, rfl⟩ | ⟨p, m, hrun, _, rfl⟩
      · exact .inr (.inr ⟨rfl, hc.interpreter.phase_ne_ready hn, rfl⟩)
      · exact .inr (.inl ⟨rfl, (Interpreter.program_of_runnable? hrun).1, rfl⟩)
    · exact .inl ⟨sig, handler, rfl, id, hr⟩
    · exact .inr (.inl ⟨rfl, trivial, rfl⟩)
    · exact .inr (.inr ⟨hreg, Event.not_seals hr hs, hsame⟩)

/-! ## Histories -/

section
variable {s₀ s s' : Session} {seed : List (Signature × Handler)} {past : List (Session × Event)}

theorem History.registry (h₀ : s₀.Coherent) (hseed : s₀.registry.Seeded seed) (h : History s₀ past s) :
    s.registry.Lists (seed ++ registrations past) ∧ (s.registry.isSealed = true ↔ ∃ x ∈ past, x.2.Seals x.1) := by
  induction h with
  | start =>
    obtain ⟨hl, ho⟩ := hseed.lists
    simpa [registrations, ho] using hl
  | @event past s s' e hpast he ih =>
    obtain ⟨hl, hsealed⟩ := ih
    simp only [registrations_snoc, List.mem_append, List.mem_singleton, or_and_right, exists_or, exists_eq_left]
    rcases registry_happens (hpast.coherent h₀) he with ⟨sig, handler, hreg, hns, hr⟩ | ⟨hreg, hs, hr⟩ | ⟨hreg, hns, hr⟩
    · obtain ⟨ho, ho', hl'⟩ := hl.register hr
      rw [List.append_assoc] at hl'
      refine ⟨by simpa [hreg] using hl', ?_⟩
      rw [ho, Bool.false_eq_true, false_iff] at hsealed
      simp only [ho', hns, or_false, Bool.false_eq_true, false_iff]
      exact hsealed
    · rw [hr]
      simp only [hreg, Option.toList_none, List.append_nil, hs, or_true, iff_true]
      exact ⟨⟨hl.nodup, hl.lookup, hl.size⟩, rfl⟩
    · rw [hr]
      simp only [hreg, Option.toList_none, List.append_nil, hns, or_false]
      exact ⟨hl, hsealed⟩

theorem History.registry_of_isSealed (hc : s.Coherent) (hs : s.registry.isSealed = true) (h : History s past s') :
    s'.registry = s.registry := by
  induction h with
  | start => rfl
  | event hpast he ih =>
    rcases registry_happens (hpast.coherent hc) he with ⟨sig, handler, _, _, hr⟩ | ⟨_, _, hr⟩ | ⟨_, _, hr⟩
    · -- a sealed registry would have refused
      rw [ih, Registry.register_of_isSealed hs] at hr
      cases hr
    · rw [hr, ih, Registry.toSealed_of_isSealed hs]
    · rw [hr, ih]

end

/-- At every point of every history the registry is sealed if and only if something has sealed it, has the
handlers of the successful registrations under their signatures and no others, and takes a new one only while
it is open and the signature is free; once sealed it never changes. -/
theorem registry_safety {s₀ s : Session} {seed : List (Signature × Handler)} {past : List (Session × Event)}
    (h₀ : s₀.Unused) (hseed : s₀.registry.Seeded seed) (h : History s₀ past s) :
    let entries := seed ++ registrations past
    (s.registry.isSealed = true ↔ ∃ x ∈ past, x.2.Seals x.1) ∧
    (s.registry.isSealed = true → ∀ later s', History s later s' → s'.registry = s.registry) ∧
    (∀ sig handler, s.registry.lookup? sig = some handler ↔ (sig, handler) ∈ entries) ∧
    (entries.map Prod.fst).Nodup ∧
    s.registry.size = seed.length + (registrations past).length ∧
    ∀ fuel sig handler, ∃ answer s', s.perform fuel (.register sig handler) = some (.registered answer, s') ∧
      (answer = .ok () ↔ s.registry.isSealed = false ∧ ¬ ∃ x ∈ entries, x.1.Agrees sig) ∧
      (answer = .error (.afterSeal sig) ↔ s.registry.isSealed = true) ∧
      (answer = .error (.duplicate sig) ↔ s.registry.isSealed = false ∧ ∃ x ∈ entries, x.1.Agrees sig) ∧
      (answer ≠ .ok () → s' = s) := by
  intro entries
  have hc := h.coherent h₀.coherent
  obtain ⟨hl, hsealed⟩ := h.registry h₀.coherent hseed
  refine ⟨hsealed, fun hs later s' hlater => hlater.registry_of_isSealed hc hs, hl.lookup, hl.nodup, ?_, ?_⟩
  · rw [hl.size, List.length_append]
  · intro fuel sig handler
    cases ho : s.registry.isSealed with
    | true =>
      refine ⟨.error (.afterSeal sig), s, ?_, by simp, by simp, by simp, fun _ => rfl⟩
      simp only [Session.perform, Registry.register_of_isSealed ho]
    | false =>
      by_cases ht : ∃ x ∈ entries, x.1.Agrees sig
      · refine ⟨.error (.duplicate sig), s, ?_, by simp [ht], by simp, by simp [ht], fun _ => rfl⟩
        simp only [Session.perform, hl.register_of_taken ho ht]
      · refine ⟨.ok (), { s with registry := { s.registry with plugs := s.registry.plugs.insert sig handler } },
          ?_, by simp [ht], by simp, by simp [ht], fun hne => absurd rfl hne⟩
        simp only [Session.perform, hl.register_of_new ho ht]

def tick : Signature := ⟨"Clock", "Tick", none, [], false⟩

def ticking : Session :=
  { Session.start .builtins none none 2 with
    registry := { Registry.builtins with plugs := Registry.builtins.plugs.insert tick .done } }

theorem perform_register_tick :
    (Session.start .builtins none none 2).perform 0 (.register tick .done) =
      some (.registered (.ok ()), ticking) := by
  obtain ⟨hl, ho⟩ := Registry.Seeded.builtins.lists
  have hnew : ¬ ∃ x ∈ Builtin.all.map fun b => (b.signature, Handler.builtin b), x.1.Agrees tick := by
    simp [Builtin.all, Builtin.signature, Signature.Agrees, tick]
  simp only [Session.perform, Session.start, hl.register_of_new ho hnew]
  rfl

/-- The run of an interpreter with nothing loaded leaves the registry open, that of another closes it. -/
theorem registry_safety_late : ∃ past s, History (Session.start .builtins none none 2) past s ∧
    s.registry.isSealed = true ∧ s.registry.lookup? tick = some .done ∧ s.registry.size = 9 ∧
    s.perform 0 (.register tick .done) = some (.registered (.error (.afterSeal tick)), s) := by
  have h := History.start.event (.command 0 perform_register_tick)
  have h := h.event (.command 0 (Session.perform_run (Session.run_of_none rfl 0)))
  have h := h.event (.command 0 (c := .use 1) rfl)
  have h := h.event (.command 0 (c := .load storing.method storing.image) rfl)
  have h := h.event (.began rfl)
  refine ⟨_, _, h, ?_⟩
  obtain ⟨hsealed, _, hlookup, _, hsize, hregister⟩ :=
    registry_safety (Session.unused_start .builtins none none 2) .builtins h
  have hs := hsealed.mpr ⟨_, List.mem_append_right _ (List.mem_singleton_self _), rfl⟩
  obtain ⟨answer, s', hp, _, hafter, _, hkeep⟩ := hregister 0 tick .done
  obtain rfl := hafter.mpr hs
  obtain rfl := hkeep (by simp)
  exact ⟨hs, (hlookup _ _).mpr (List.mem_append_right _ (List.mem_singleton_self _)), hsize, hp⟩

end StackVm
