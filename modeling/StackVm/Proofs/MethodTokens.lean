import StackVm.Proofs.ImageGrowth

/-!
# Method tokens of an image

A token packs the number of a table over 24 bits for a row. Additions fill the
rows of both tables one after another, so a token names what it was returned for
as long as the row fits its bits; nothing stops a table from growing further,
and from then on tokens are lost and repeated.
-/

namespace StackVm

namespace Image

/-! ## Packing -/

theorem toNat_tokenOf {table : UInt32} (h : table.toNat < 256) (row : Nat) :
    (tokenOf table row).toNat = table.toNat * 0x1000000 + row % 0x1000000 := by
  have hrow : row % 0x100000000 &&& 0xFFFFFF = row % 0x1000000 := by
    rw [show (0xFFFFFF : Nat) = 2 ^ 24 - 1 from rfl, Nat.and_two_pow_sub_one_eq_mod]
    omega
  have hlt : row % 0x1000000 < 2 ^ 24 := Nat.mod_lt _ (by decide)
  have htable : table.toNat <<< 24 % 0x100000000 = table.toNat <<< 24 := by
    rw [Nat.shiftLeft_eq]
    omega
  unfold tokenOf rowMask
  simp only [UInt32.toNat_or, UInt32.toNat_and, UInt32.toNat_shiftLeft]
  simp
  rw [hrow, htable, ← Nat.shiftLeft_add_eq_or_of_lt hlt, Nat.shiftLeft_eq]

theorem toNat_shiftRight (token : UInt32) : (token >>> 24).toNat = token.toNat / 0x1000000 := by
  simp [Nat.shiftRight_eq_div_pow]

theorem toNat_and_rowMask (token : UInt32) : (token &&& rowMask).toNat = token.toNat % 0x1000000 := by
  unfold rowMask
  rw [UInt32.toNat_and, show (0xFFFFFF : UInt32).toNat = 2 ^ 24 - 1 from rfl, Nat.and_two_pow_sub_one_eq_mod]

theorem tokenOf_shiftRight {table : UInt32} (h : table.toNat < 256) (row : Nat) : tokenOf table row >>> 24 = table := by
  apply UInt32.toNat_inj.mp
  rw [toNat_shiftRight, toNat_tokenOf h]
  omega

theorem tokenOf_and_rowMask {table : UInt32} (h : table.toNat < 256) (row : Nat) :
    (tokenOf table row &&& rowMask).toNat = row % 0x1000000 := by
  rw [toNat_and_rowMask, toNat_tokenOf h]
  omega

theorem tokenOf_parts (token : UInt32) : tokenOf (token >>> 24) (token &&& rowMask).toNat = token := by
  have hlt : token.toNat < 0x100000000 := token.toNat_lt
  apply UInt32.toNat_inj.mp
  rw [toNat_tokenOf, toNat_shiftRight, toNat_and_rowMask]
  · omega
  · rw [toNat_shiftRight]
    omega

/-! ## The rows of a table -/

/-- What the rows of a table hold, from row 1 on. -/
def rows (image : Image) (table : UInt32) : List Target :=
  if table = defTable then image.defs.toList.map .body
  else if table = refTable then image.refs.toList.map .external
  else []

theorem resolve?_eq (image : Image) (token : UInt32) :
    image.resolve? token =
      if (token &&& rowMask).toNat = 0 then none else (image.rows (token >>> 24))[(token &&& rowMask).toNat - 1]? := by
  unfold resolve? rows
  by_cases hrow : (token &&& rowMask).toNat = 0
  · simp only [hrow, if_true]
  · simp only [hrow, if_false]
    by_cases hd : token >>> 24 = defTable
    · simp [hd]
    · simp only [hd, if_false]
      by_cases hr : token >>> 24 = refTable
      · simp [hr]
      · simp [hr]

theorem Extends.rows {image later : Image} (h : Extends image later) (table : UInt32) :
    image.rows table <+: later.rows table := by
  unfold Image.rows
  split
  · exact h.defs.map _
  · split
    · exact h.refs.map _
    · exact List.prefix_rfl

end Image

namespace Addition

def record? : Addition → Option (UInt32 × Target)
  | ref s => some (Image.refTable, .external s)
  | method m => some (Image.defTable, .body m)
  | _ => none

theorem table_lt {a : Addition} {table : UInt32} {target : Target} (h : a.record? = some (table, target)) :
    table.toNat < 256 := by
  cases a with
  | text t | blob bytes => cases h
  | ref s | method m =>
    cases h
    decide

end Addition

namespace Image

def token? (image : Image) : Addition → Option UInt32
  | .ref s => some (image.addRef s).1
  | .method m => some (image.addDef m).1
  | _ => none

theorem token?_eq (image : Image) (a : Addition) :
    image.token? a = a.record?.map fun e => tokenOf e.1 ((image.rows e.1).length + 1) := by
  cases a <;> simp [token?, Addition.record?, rows, addRef, addDef, refTable, defTable]

theorem rows_add_self {image : Image} {a : Addition} {table : UInt32} {target : Target}
    (h : a.record? = some (table, target)) : (image.add a).rows table = image.rows table ++ [target] := by
  cases a with
  | text t | blob bytes => cases h
  | ref s =>
    cases h
    simp [add, addRef, rows, refTable, defTable]
  | method m =>
    cases h
    simp [add, addDef, rows]

theorem rows_add_of_ne {image : Image} {a : Addition} {table : UInt32}
    (h : ∀ target, a.record? ≠ some (table, target)) : (image.add a).rows table = image.rows table := by
  have hblob : ∀ blob, (image.add (.blob blob)).rows table = image.rows table := by
    intro blob
    rcases addBlob_cases image blob with ⟨_, h⟩ | ⟨token, after, h, _, _, _, hrefs, hdefs⟩
    · simp only [add, h, left]
    · simp only [add, h, left, rows, hrefs, hdefs]
  cases a with
  | blob bytes => exact hblob bytes
  | text t =>
    rcases add_text_cases image t with h | h
    · rw [h]
    · rw [h, hblob]
  | ref s =>
    have hne : table ≠ refTable := by
      rintro rfl
      exact h _ rfl
    simp [add, addRef, rows, hne]
  | method m =>
    have hne : table ≠ defTable := by
      rintro rfl
      exact h _ rfl
    simp [add, addDef, rows, hne]

end Image

/-! ## Tokens of a history -/

section
variable (history : List Addition)

def imageAt (k : Nat) : Image := Image.empty.build (history.take k)

def issued? (k : Nat) : Option UInt32 := history[k]?.bind (imageAt history k).token?

def target? (k : Nat) : Option Target := (history[k]?.bind Addition.record?).map (·.2)

def row (k : Nat) : Nat :=
  match history[k]?.bind Addition.record? with
  | some (table, _) => ((imageAt history k).rows table).length + 1
  | none => 0

end

section
variable {history : List Addition} {k : Nat}

theorem exists_of_issued? {token : UInt32} (h : issued? history k = some token) :
    ∃ a table target, history[k]? = some a ∧ a.record? = some (table, target) ∧ target? history k = some target ∧
      row history k = ((imageAt history k).rows table).length + 1 ∧ token = Image.tokenOf table (row history k) := by
  obtain ⟨a, ha, htoken⟩ := Option.bind_eq_some_iff.mp h
  rw [Image.token?_eq] at htoken
  obtain ⟨⟨table, target⟩, he, rfl⟩ := Option.map_eq_some_iff.mp htoken
  have hbind : history[k]?.bind Addition.record? = some (table, target) := by
    rw [ha, Option.bind_some, he]
  have hrow : row history k = ((imageAt history k).rows table).length + 1 := by
    simp only [row, hbind]
  refine ⟨a, table, target, ha, he, ?_, hrow, ?_⟩
  · simp only [target?, hbind, Option.map_some]
  · rw [hrow]

theorem imageAt_succ {a : Addition} (h : history[k]? = some a) : imageAt history (k + 1) = (imageAt history k).add a :=
  Image.build_take_succ .empty h

theorem extends_imageAt (history : List Addition) {j k : Nat} (h : j ≤ k) :
    Image.Extends (imageAt history j) (imageAt history k) := by
  have hsplit : history.take k = history.take j ++ (history.drop j).take (k - j) := by
    rw [← List.take_add, Nat.add_sub_cancel' h]
  unfold imageAt
  rw [hsplit, Image.build_append]
  exact Image.extends_build _ _

theorem imageAt_length : imageAt history history.length = Image.empty.build history := by
  unfold imageAt
  rw [List.take_length]

/-- The entry that addition number `k` made is still at its row after any number of further ones. -/
theorem rows_of_record {a : Addition} {table : UInt32} {target : Target} (hk : history[k]? = some a)
    (he : a.record? = some (table, target)) {n : Nat} (hn : k < n) :
    ((imageAt history n).rows table)[((imageAt history k).rows table).length]? = some target := by
  have hpre := (extends_imageAt history hn).rows table
  rw [imageAt_succ hk, Image.rows_add_self he] at hpre
  obtain ⟨more, hmore⟩ := hpre
  rw [← hmore]
  simp

/-- Every row was filled by some addition. -/
theorem exists_of_rows {table : UInt32} {i n : Nat} (hn : n ≤ history.length)
    (hi : i < ((imageAt history n).rows table).length) :
    ∃ k a target, history[k]? = some a ∧ a.record? = some (table, target) ∧
      ((imageAt history k).rows table).length = i := by
  induction n with
  | zero =>
    simp [imageAt, Image.build, Image.rows, Image.empty] at hi
  | succ n ih =>
    have ha := List.getElem?_eq_getElem (show n < history.length from hn)
    by_cases he : ∃ target, history[n].record? = some (table, target)
    · obtain ⟨target, he⟩ := he
      rw [imageAt_succ ha, Image.rows_add_self he, List.length_append, List.length_singleton] at hi
      rcases Nat.lt_or_ge i ((imageAt history n).rows table).length with hlt | hge
      · exact ih (by omega) hlt
      · exact ⟨n, _, target, ha, he, by omega⟩
    · rw [imageAt_succ ha, Image.rows_add_of_ne (fun target h => he ⟨target, h⟩)] at hi
      exact ih (by omega) hi

theorem resolve?_of_issued? {token : UInt32} {target : Target} (h : issued? history k = some token)
    (ht : target? history k = some target) (hrow : row history k < 0x1000000) {n : Nat} (hn : k < n) :
    (imageAt history n).resolve? token = some target := by
  obtain ⟨a, table, target', hk, he, ht', hr, rfl⟩ := exists_of_issued? h
  cases ht.symm.trans ht'
  have htable := Addition.table_lt he
  rw [Image.resolve?_eq, Image.tokenOf_shiftRight htable, Image.tokenOf_and_rowMask htable, Nat.mod_eq_of_lt hrow,
    if_neg (by omega), hr, Nat.add_sub_cancel]
  exact rows_of_record hk he hn

theorem row_lt_row {j : Nat} {token : UInt32} (hjk : j < k) (hj : issued? history j = some token)
    (hk : issued? history k = some token) : row history j < row history k := by
  obtain ⟨a, table, target, ha, he, _, hr, htok⟩ := exists_of_issued? hj
  obtain ⟨b, table', target', hb, he', _, hr', htok'⟩ := exists_of_issued? hk
  have htable : table = table' := by
    rw [← Image.tokenOf_shiftRight (Addition.table_lt he) (row history j), ← htok, htok',
      Image.tokenOf_shiftRight (Addition.table_lt he')]
  subst htable
  have hlen := ((extends_imageAt history hjk).rows table).length_le
  rw [imageAt_succ ha, Image.rows_add_self he, List.length_append, List.length_singleton] at hlen
  omega

theorem row_mod_eq {j : Nat} {token : UInt32} (hj : issued? history j = some token)
    (hk : issued? history k = some token) : row history j % 0x1000000 = row history k % 0x1000000 := by
  obtain ⟨a, table, target, ha, he, _, hr, htok⟩ := exists_of_issued? hj
  obtain ⟨b, table', target', hb, he', _, hr', htok'⟩ := exists_of_issued? hk
  rw [← Image.tokenOf_and_rowMask (Addition.table_lt he) (row history j), ← htok, htok',
      Image.tokenOf_and_rowMask (Addition.table_lt he')]

theorem exists_issued?_of_resolve? {token : UInt32} {target : Target}
    (h : (Image.empty.build history).resolve? token = some target) : ∃ k, issued? history k = some token := by
  rw [← imageAt_length, Image.resolve?_eq] at h
  split at h
  · cases h
  · next hrow =>
    have hlt := (List.getElem?_eq_some_iff.mp h).1
    obtain ⟨k, a, target', hk, he, hlen⟩ := exists_of_rows (Nat.le_refl _) hlt
    refine ⟨k, ?_⟩
    unfold issued?
    rw [hk, Option.bind_some, Image.token?_eq, he, Option.map_some, hlen, Nat.sub_add_cancel (Nat.pos_of_ne_zero hrow),
      Image.tokenOf_parts]

end

/-- While its table has fewer than 2 ^ 24 rows, a method gets a token of its own that names it for good.
A token that was never returned names nothing, however full the tables are. -/
theorem methodTokens_name_targets (history : List Addition) :
    (∀ k token target, issued? history k = some token → target? history k = some target →
      row history k < 0x1000000 → (Image.empty.build history).resolve? token = some target) ∧
    (∀ j k token, issued? history j = some token → issued? history k = some token →
      row history j < 0x1000000 → row history k < 0x1000000 → j = k) ∧
    ∀ token, (∀ k, issued? history k ≠ some token) → (Image.empty.build history).resolve? token = none := by
  refine ⟨fun k token target hk ht hrow => ?_, fun j k token hj hk hrow hrow' => ?_, fun token hnone => ?_⟩
  · obtain ⟨a, _, _, ha, _⟩ := exists_of_issued? hk
    rw [← imageAt_length]
    exact resolve?_of_issued? hk ht hrow (List.getElem?_eq_some_iff.mp ha).1
  · have hmod := row_mod_eq hj hk
    rcases Nat.lt_trichotomy j k with hlt | heq | hgt
    · have := row_lt_row hlt hj hk
      omega
    · exact heq
    · have := row_lt_row hgt hk hj
      omega
  · cases h : (Image.empty.build history).resolve? token with
    | none => rfl
    | some target =>
      obtain ⟨k, hk⟩ := exists_issued?_of_resolve? h
      exact absurd hk (hnone k)

def mixedHistory : List Addition :=
  [.ref ⟨"A", "f", none, [], false⟩, .blob [], .method ⟨#[0x2A], 1, 0⟩, .ref ⟨"A", "g", none, [.int32], true⟩]

theorem methodTokens_name_targets_mixed :
    issued? mixedHistory 3 = some 0x0A000002 ∧
      (Image.empty.build mixedHistory).resolve? 0x0A000002 = some (.external ⟨"A", "g", none, [.int32], true⟩) ∧
      (Image.empty.build mixedHistory).resolve? 0x06000001 = some (.body ⟨#[0x2A], 1, 0⟩) := by
  have h := methodTokens_name_targets mixedHistory
  have h2 : issued? mixedHistory 2 = some 0x06000001 := by decide
  have h3 : issued? mixedHistory 3 = some 0x0A000002 := by decide
  exact ⟨h3, h.1 3 _ _ h3 rfl (by decide), h.1 2 _ _ h2 rfl (by decide)⟩

/-! ## A full table -/

def manyRefs (n : Nat) : List Addition := List.replicate n (.ref ⟨"", "", none, [], false⟩)

theorem length_rows_manyRefs {n k : Nat} (h : k ≤ n) : ((imageAt (manyRefs n) k).rows Image.refTable).length = k := by
  induction k with
  | zero => rfl
  | succ k ih =>
    have hk : (manyRefs n)[k]? = some (.ref ⟨"", "", none, [], false⟩) := List.getElem?_replicate_of_lt h
    rw [imageAt_succ hk, Image.rows_add_self rfl, List.length_append, ih (by omega)]
    rfl

theorem issued?_manyRefs {n k : Nat} (h : k < n) :
    issued? (manyRefs n) k = some (Image.tokenOf Image.refTable (k + 1)) := by
  have hk : (manyRefs n)[k]? = some (.ref ⟨"", "", none, [], false⟩) := List.getElem?_replicate_of_lt h
  unfold issued?
  rw [hk, Option.bind_some, Image.token?_eq]
  show some (Image.tokenOf Image.refTable _) = _
  rw [length_rows_manyRefs (by omega)]

/-- The last of 2 ^ 24 references gets a token without a row, and one more gets the token of the first. -/
theorem methodToken_of_full_table :
    target? (manyRefs 0x1000000) 0xFFFFFF = some (.external ⟨"", "", none, [], false⟩) ∧
    issued? (manyRefs 0x1000000) 0xFFFFFF = some 0x0A000000 ∧
    (Image.empty.build (manyRefs 0x1000000)).resolve? 0x0A000000 = none ∧
    issued? (manyRefs 0x1000001) 0 = issued? (manyRefs 0x1000001) 0x1000000 := by
  refine ⟨?_, ?_, rfl, ?_⟩
  · unfold target? manyRefs
    rw [List.getElem?_replicate_of_lt (by decide)]
    rfl
  · rw [issued?_manyRefs (by decide)]
    rfl
  · rw [issued?_manyRefs (by decide), issued?_manyRefs (by decide)]
    rfl

end StackVm
