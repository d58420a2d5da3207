import StackVm.StringTable

/-!
# The table of interned texts

The index of a consistent table finds each text where it stands. Interning keeps
a table consistent and only adds at its end, and a table that holds a text
already answers with the text's handle and does not change. So texts that are
interned one after another (`internAll`) end up in the table without their
later duplicates, and the handle of a text is its position there.
-/

namespace StackVm

namespace StringTable

def Consistent (t : StringTable) : Prop := ∀ text handle, t.index[text]? = some handle ↔ t.get? handle = some text

def Extends (t later : StringTable) : Prop := t.texts.toList <+: later.texts.toList

variable {t : StringTable}

theorem Extends.refl (t : StringTable) : t.Extends t := List.prefix_rfl

theorem Extends.trans {u v : StringTable} (h : t.Extends u) (h' : u.Extends v) : t.Extends v := List.IsPrefix.trans h h'

theorem Extends.size_le {u : StringTable} (h : t.Extends u) : t.size ≤ u.size := by
  simpa [size] using List.IsPrefix.length_le h

theorem lt_size_of_get? {handle : Nat} {text : String} (h : t.get? handle = some text) : handle < t.size :=
  (Array.getElem?_eq_some_iff.mp h).1

theorem get?_of_lt {handle : Nat} (h : handle < t.size) : ∃ text, t.get? handle = some text :=
  ⟨_, Array.getElem?_eq_getElem h⟩

theorem Extends.get? {u : StringTable} (h : t.Extends u) {handle : Nat} {text : String}
    (ht : t.get? handle = some text) : u.get? handle = some text := by
  obtain ⟨more, hmore⟩ := h
  have hlt : handle < t.texts.toList.length := by
    simpa [size] using lt_size_of_get? ht
  unfold StringTable.get? at ht ⊢
  rw [← Array.getElem?_toList, ← hmore, List.getElem?_append_left hlt, Array.getElem?_toList]
  exact ht

theorem consistent_empty : Consistent .empty := by
  intro text handle
  simp [empty, StringTable.get?]

theorem intern_of_get? (hc : t.Consistent) {handle : Nat} {text : String} (h : t.get? handle = some text) :
    t.intern text = (handle, t) := by
  unfold intern
  rw [(hc text handle).mpr h]

theorem intern_of_new (hc : t.Consistent) {text : String} (h : ∀ handle, t.get? handle ≠ some text) :
    t.intern text = (t.size, ⟨t.texts.push text, t.index.insert text t.size⟩) := by
  unfold intern
  cases hi : t.index[text]? with
  | none => rfl
  | some handle => exact absurd ((hc text handle).mp hi) (h handle)

/-- What interning a text does. -/
theorem intern_cases (hc : t.Consistent) (text : String) :
    (∃ handle, t.get? handle = some text ∧ t.intern text = (handle, t)) ∨
    (∀ handle, t.get? handle ≠ some text) ∧
      t.intern text = (t.size, ⟨t.texts.push text, t.index.insert text t.size⟩) := by
  by_cases h : ∃ handle, t.get? handle = some text
  · obtain ⟨handle, h⟩ := h
    exact .inl ⟨handle, h, intern_of_get? hc h⟩
  · have hnew : ∀ handle, t.get? handle ≠ some text := fun handle hh => h ⟨handle, hh⟩
    exact .inr ⟨hnew, intern_of_new hc hnew⟩

theorem Consistent.intern (hc : t.Consistent) (text : String) : (t.intern text).2.Consistent := by
  rcases intern_cases hc text with ⟨handle, _, h⟩ | ⟨hnew, h⟩
  · rw [h]
    exact hc
  · rw [h]
    intro text' handle
    have hget : StringTable.get? ⟨t.texts.push text, t.index.insert text t.size⟩ handle =
        if handle = t.size then some text else t.get? handle := Array.getElem?_push
    rw [hget, Std.HashMap.getElem?_insert]
    by_cases ht : text = text'
    · subst ht
      by_cases hs : handle = t.size
      · simp [hs]
      · simp [hs, hnew handle, Ne.symm hs]
    · by_cases hs : handle = t.size
      · have hno : t.index[text']? ≠ some t.size := by
          intro hi
          exact Nat.lt_irrefl _ (lt_size_of_get? ((hc text' t.size).mp hi))
        simp [ht, hs, hno]
      · simp [ht, hs, hc text' handle]

theorem extends_intern (hc : t.Consistent) (text : String) : t.Extends (t.intern text).2 := by
  rcases intern_cases hc text with ⟨handle, _, h⟩ | ⟨_, h⟩
  · rw [h]
    exact .refl t
  · rw [h]
    exact ⟨[text], by simp⟩

theorem get?_intern (hc : t.Consistent) (text : String) : (t.intern text).2.get? (t.intern text).1 = some text := by
  rcases intern_cases hc text with ⟨handle, hget, h⟩ | ⟨_, h⟩
  · rw [h]
    exact hget
  · rw [h]
    simp [StringTable.get?, size]

/-- A consistent table that already holds what another table is about to intern answers as that one does. -/
theorem intern_of_extends {u : StringTable} (hc : t.Consistent) (hu : u.Consistent) {text : String}
    (h : (t.intern text).2.Extends u) : u.intern text = ((t.intern text).1, u) :=
  intern_of_get? hu (h.get? (get?_intern hc text))

/-! ## One text after another -/

def internAll (t : StringTable) : List String → List Nat × StringTable
  | [] => ([], t)
  | text :: texts =>
    let (handle, t) := t.intern text
    let (handles, t) := t.internAll texts
    (handle :: handles, t)

theorem internAll_cons (t : StringTable) (text : String) (texts : List String) : t.internAll (text :: texts) =
    ((t.intern text).1 :: ((t.intern text).2.internAll texts).1, ((t.intern text).2.internAll texts).2) := rfl

theorem Consistent.internAll (hc : t.Consistent) (texts : List String) : (t.internAll texts).2.Consistent := by
  induction texts generalizing t with
  | nil => exact hc
  | cons text texts ih => exact ih (hc.intern text)

theorem extends_internAll (hc : t.Consistent) (texts : List String) : t.Extends (t.internAll texts).2 := by
  induction texts generalizing t with
  | nil => exact .refl t
  | cons text texts ih => exact (extends_intern hc text).trans (ih (hc.intern text))

/-- A consistent table has each of its texts at one position only. -/
theorem Consistent.eq_idxOf (hc : t.Consistent) {handle : Nat} {text : String} (h : t.get? handle = some text) :
    handle = t.texts.toList.idxOf text := by
  have hmem : text ∈ t.texts.toList := Array.mem_toList_iff.mpr (Array.mem_of_getElem? h)
  have hfirst : t.get? (t.texts.toList.idxOf text) = some text := by
    have hlt := List.idxOf_lt_length_of_mem hmem
    unfold StringTable.get?
    rw [← Array.getElem?_toList, List.getElem?_eq_getElem hlt, List.getElem_idxOf hlt]
  have hi := (hc text handle).mpr h
  rw [(hc text _).mpr hfirst] at hi
  exact (Option.some.inj hi).symm

theorem texts_intern_eraseDups (hc : t.Consistent) {past : List String} (ht : t.texts.toList = past.eraseDups)
    (text : String) : (t.intern text).2.texts.toList = (past ++ [text]).eraseDups := by
  rw [List.eraseDups_append, ← ht]
  rcases intern_cases hc text with ⟨handle, hget, h⟩ | ⟨hnew, h⟩
  · have hmem : text ∈ past := by
      rw [← List.mem_eraseDups, ← ht]
      exact Array.mem_toList_iff.mpr (Array.mem_of_getElem? hget)
    simp [h, List.removeAll, hmem]
  · have hmem : text ∉ past := by
      rw [← List.mem_eraseDups, ← ht]
      intro hm
      obtain ⟨handle, hget⟩ := Array.mem_iff_getElem?.mp (Array.mem_toList_iff.mp hm)
      exact hnew handle hget
    simp [h, List.removeAll, hmem, List.eraseDups_cons]

theorem texts_internAll (hc : t.Consistent) {past : List String} (ht : t.texts.toList = past.eraseDups)
    (texts : List String) : (t.internAll texts).2.texts.toList = (past ++ texts).eraseDups := by
  induction texts generalizing t past with
  | nil => simpa [internAll] using ht
  | cons text texts ih =>
    have h := ih (hc.intern text) (texts_intern_eraseDups hc ht text)
    simpa [internAll_cons] using h

/-- A handle that was given back still names its text in the end. -/
theorem get?_internAll (hc : t.Consistent) {texts : List String} {handle : Nat} {text : String}
    (h : (handle, text) ∈ (t.internAll texts).1.zip texts) : (t.internAll texts).2.get? handle = some text := by
  induction texts generalizing t with
  | nil => cases h
  | cons next texts ih =>
    rw [internAll_cons, List.zip_cons_cons, List.mem_cons, Prod.mk.injEq] at h
    rcases h with ⟨hhandle, htext⟩ | h
    · rw [hhandle, htext]
      exact (extends_internAll (hc.intern next) texts).get? (get?_intern hc next)
    · exact ih (hc.intern next) h

theorem length_internAll (t : StringTable) (texts : List String) : (t.internAll texts).1.length = texts.length := by
  induction texts generalizing t with
  | nil => rfl
  | cons text texts ih => simp [internAll_cons, ih]

theorem resolve_of_get? {handle : Nat} {text : String} (h : t.get? handle = some text) :
    t.resolve handle = .ok text := by
  simp only [resolve, h]

/-! ### From an empty table -/

section
variable (texts : List String)

theorem texts_internAll_empty : (empty.internAll texts).2.texts.toList = texts.eraseDups := by
  have htexts := texts_internAll consistent_empty (@rfl _ [].eraseDups) texts
  rwa [List.nil_append] at htexts

theorem eq_idxOf_of_get? {handle : Nat} {text : String} (h : (empty.internAll texts).2.get? handle = some text) :
    handle = texts.eraseDups.idxOf text := by
  rw [← texts_internAll_empty]
  exact (consistent_empty.internAll texts).eq_idxOf h

theorem handles_internAll_empty : (empty.internAll texts).1 = texts.map (texts.eraseDups.idxOf ·) := by
  have hlength := length_internAll empty texts
  have hposition : ∀ a ∈ (empty.internAll texts).1.zip texts, a.1 = texts.eraseDups.idxOf a.2 := by
    intro a ha
    exact eq_idxOf_of_get? texts (get?_internAll consistent_empty ha)
  generalize (empty.internAll texts).1 = handles at hlength hposition ⊢
  calc handles = (handles.zip texts).map Prod.fst := (List.map_fst_zip (Nat.le_of_eq hlength)).symm
    _ = (handles.zip texts).map (fun a => texts.eraseDups.idxOf a.2) := List.map_congr_left hposition
    _ = ((handles.zip texts).map Prod.snd).map (texts.eraseDups.idxOf ·) := by rw [List.map_map]; rfl
    _ = texts.map (texts.eraseDups.idxOf ·) := by rw [List.map_snd_zip (Nat.le_of_eq hlength.symm)]

/-- An index in use is the position of a text that was interned, so it was given back for that. -/
theorem mem_handles_of_get? {handle : Nat} {text : String} (h : (empty.internAll texts).2.get? handle = some text) :
    handle ∈ (empty.internAll texts).1 := by
  have hmem : text ∈ texts := by
    rw [← List.mem_eraseDups, ← texts_internAll_empty]
    exact Array.mem_toList_iff.mpr (Array.mem_of_getElem? h)
  rw [handles_internAll_empty, eq_idxOf_of_get? texts h]
  exact List.mem_map_of_mem hmem

end

end StringTable

/-- Texts interned one after another in a new table are numbered by their first occurrences: the table holds them
without later duplicates, a handle is a position there, and an index that was never given back is refused. -/
theorem interning_deduplicates {texts : List String} {handles : List Nat} {table : StringTable}
    (h : StringTable.empty.internAll texts = (handles, table)) :
    table.texts.toList = texts.eraseDups ∧
    handles = texts.map (texts.eraseDups.idxOf ·) ∧
    (∀ (text : String) (handle : Nat), table.index[text]? = some handle ↔ table.get? handle = some text) ∧
    (∀ a ∈ handles.zip texts, ∀ b ∈ handles.zip texts, a.1 = b.1 ↔ a.2 = b.2) ∧
    (∀ a ∈ handles.zip texts, ∀ more, (table.internAll more).2.resolve a.1 = .ok a.2) ∧
    ∀ handle, handle ∉ handles → table.resolve handle = .error (.invalidHandle handle) := by
  obtain ⟨rfl, rfl⟩ := Prod.mk.inj ((Prod.eta _).trans h)
  have hc := StringTable.consistent_empty.internAll texts
  refine ⟨StringTable.texts_internAll_empty texts, StringTable.handles_internAll_empty texts, hc, ?_, ?_, ?_⟩
  · intro a ha b hb
    have hget := StringTable.get?_internAll StringTable.consistent_empty ha
    have hget' := StringTable.get?_internAll StringTable.consistent_empty hb
    constructor
    · intro hab
      rw [hab, hget'] at hget
      exact (Option.some.inj hget).symm
    · intro hab
      rw [StringTable.eq_idxOf_of_get? texts hget, StringTable.eq_idxOf_of_get? texts hget', hab]
  · intro a ha more
    have hget := StringTable.get?_internAll StringTable.consistent_empty ha
    exact StringTable.resolve_of_get? ((StringTable.extends_internAll hc more).get? hget)
  · intro handle hnew
    cases hget : (StringTable.empty.internAll texts).2.get? handle with
    | none => simp only [StringTable.resolve, hget]
    | some text => exact absurd (StringTable.mem_handles_of_get? texts hget) hnew

theorem interning_deduplicates_repeated :
    (StringTable.empty.internAll ["b", "a", "b", "", "a"]).1 = [0, 1, 0, 2, 1] ∧
    (StringTable.empty.internAll ["b", "a", "b", "", "a"]).2.texts.toList = ["b", "a", ""] ∧
    ((StringTable.empty.internAll ["b", "a", "b", "", "a"]).2.internAll ["c"]).2.resolve 2 = .ok "" ∧
    (StringTable.empty.internAll ["b", "a", "b", "", "a"]).2.resolve 3 = .error (.invalidHandle 3) := by
  have hpair := Prod.eta (StringTable.empty.internAll ["b", "a", "b", "", "a"])
  obtain ⟨htexts, hhandles, _, _, hkept, hother⟩ := interning_deduplicates hpair.symm
  have hh : (StringTable.empty.internAll ["b", "a", "b", "", "a"]).1 = [0, 1, 0, 2, 1] := by
    rw [hhandles]
    decide
  rw [hh] at hkept hother
  refine ⟨hh, ?_, hkept (2, "") (by decide) ["c"], hother 3 (by decide)⟩
  rw [htexts]
  decide

end StackVm
