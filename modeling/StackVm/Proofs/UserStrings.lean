import StackVm.Proofs.ImageGrowth

/-!
# User strings of an image

A text goes to the heap as UTF-16 units in a blob and is read back from there
through its token. Reading finds it for good: the units spell the text, the
offsets stay sorted, so that halving finds the token among them, and later
additions leave the blob where it is.
-/

namespace StackVm

/-! ## UTF-16 -/

theorem charsOfUnits?_of_basic {u : UInt16} (h : u.toNat < 0xD800 ∨ 0xE000 ≤ u.toNat) (us : List UInt16) :
    charsOfUnits? (u :: us) = (charsOfUnits? us).map (Char.ofNat u.toNat :: ·) := by
  have hu : (u < 0xD800 || 0xE000 ≤ u) = true := by
    simpa [UInt16.lt_iff_toNat_lt, UInt16.le_iff_toNat_le] using h
  rw [charsOfUnits?.eq_def]
  simp only [hu, if_true]

theorem charsOfUnits?_of_pair {u v : UInt16} (hu : 0xD800 ≤ u.toNat) (hu' : u.toNat < 0xDC00)
    (hv : 0xDC00 ≤ v.toNat) (hv' : v.toNat < 0xE000) (us : List UInt16) :
    charsOfUnits? (u :: v :: us) = (charsOfUnits? us).map
      (Char.ofNat (0x10000 + (u.toNat - 0xD800) * 0x400 + (v.toNat - 0xDC00)) :: ·) := by
  have hb : ¬ (u < 0xD800 || 0xE000 ≤ u) = true := by
    simp [UInt16.lt_iff_toNat_lt, UInt16.le_iff_toNat_le]
    omega
  have hp : (u < 0xDC00 && 0xDC00 ≤ v && v < 0xE000) = true := by
    simp [UInt16.lt_iff_toNat_lt, UInt16.le_iff_toNat_le]
    omega
  rw [charsOfUnits?]
  simp only [hb, hp, if_true]
  rfl

theorem charsOfUnits?_charUnits (c : Char) (us : List UInt16) :
    charsOfUnits? (charUnits c ++ us) = (charsOfUnits? us).map (c :: ·) := by
  have hc : c.toNat < 0xD800 ∨ 0xDFFF < c.toNat ∧ c.toNat < 0x110000 := c.valid
  unfold charUnits
  by_cases h : c.toNat < 0x10000
  · have hn : c.toNat.toUInt16.toNat = c.toNat := by
      simp; omega
    simp only [h, if_true]
    rw [List.singleton_append, charsOfUnits?_of_basic (by omega), hn, Char.ofNat_toNat]
  · have hu : (0xD800 + (c.toNat - 0x10000) / 0x400).toUInt16.toNat = 0xD800 + (c.toNat - 0x10000) / 0x400 := by
      simp; omega
    have hv : (0xDC00 + (c.toNat - 0x10000) % 0x400).toUInt16.toNat = 0xDC00 + (c.toNat - 0x10000) % 0x400 := by
      simp; omega
    simp only [h, if_false]
    rw [List.cons_append, List.singleton_append]
    rw [charsOfUnits?_of_pair (by omega) (by omega) (by omega) (by omega), hu, hv]
    have hn : 0x10000 + (0xD800 + (c.toNat - 0x10000) / 0x400 - 0xD800) * 0x400 +
        (0xDC00 + (c.toNat - 0x10000) % 0x400 - 0xDC00) = c.toNat := by omega
    rw [hn, Char.ofNat_toNat]

theorem ofUnits?_units (text : String) : ofUnits? (units text) = some text := by
  have h : ∀ cs : List Char, charsOfUnits? (cs.flatMap charUnits) = some cs := by
    intro cs
    induction cs with
    | nil => rfl
    | cons c cs ih => rw [List.flatMap_cons, charsOfUnits?_charUnits, ih]; rfl
  unfold ofUnits? units
  rw [h, Option.map_some, String.ofList_toList]

/-! ## Blobs -/

namespace UserString

theorem unit_of_bytes (u : UInt16) : u.toUInt8.toUInt16 ||| (u >>> 8).toUInt8.toUInt16 <<< 8 = u := by
  have hu : u.toNat < 65536 := u.toNat_lt
  have hlow : u.toNat % 256 < 2 ^ 8 := Nat.mod_lt _ (by decide)
  apply UInt16.toNat_inj.mp
  rw [UInt16.or_comm]
  simp [Nat.shiftRight_eq_div_pow]
  rw [Nat.mod_eq_of_lt (by simp [Nat.shiftLeft_eq]; omega), ← Nat.shiftLeft_add_eq_or_of_lt hlow, Nat.shiftLeft_eq]
  omega

theorem unitsOfBytes?_unitBytes (us : List UInt16) : unitsOfBytes? (unitBytes us) = some us := by
  induction us with
  | nil => rfl
  | cons u us ih =>
    show (unitsOfBytes? (unitBytes us)).map _ = _
    rw [ih, Option.map_some, unit_of_bytes]

theorem length_unitBytes (us : List UInt16) : (unitBytes us).length = us.length * 2 := by
  induction us with
  | nil => rfl
  | cons u us ih =>
    show (unitBytes us).length + 2 = _
    rw [ih, List.length_cons]
    omega

theorem length_encode (us : List UInt16) : (encode us).length = us.length * 2 + 2 := by
  unfold encode
  simp [length_unitBytes]

theorem decode_of_units {text : String} {length : UInt8} (hn : length.toNat = (units text).length * 2 + 1)
    (hle : length.toNat ≤ 127) (token : UInt16) (flag : UInt8) (tail : List UInt8) :
    decode token (length :: (unitBytes (units text) ++ flag :: tail)) = .ok text := by
  have hl := length_unitBytes (units text)
  have hsmall : ¬ (length ≥ 128 || length == 0) = true := by
    simp [UInt8.le_iff_toNat_le, ← UInt8.toNat_inj, hn]
    omega
  unfold decode
  simp only [hsmall, hn]
  rw [if_neg (by simp), if_neg (by simp; omega), Nat.add_sub_cancel, ← hl, List.take_left, unitsOfBytes?_unitBytes]
  simp only [Option.bind_some, ofUnits?_units]

theorem decode_encode {text : String} (h : (units text).length ≤ 63) (token : UInt16) (tail : List UInt8) :
    decode token (encode (units text) ++ tail) = .ok text := by
  have hn : ((units text).length * 2 + 1).toUInt8.toNat = (units text).length * 2 + 1 := by
    simp
    omega
  have hdecode := decode_of_units hn (by omega) token (flag (units text)) tail
  simpa [encode] using hdecode

end UserString

namespace Image

/-! ## The recorded offsets -/

/-- Blobs begin at ascending offsets, none beyond the end of the heap. -/
structure Laid (image : Image) : Prop where
  sorted : image.offsets.toList.Pairwise (· ≤ ·)
  inside : ∀ o ∈ image.offsets.toList, o.toNat ≤ image.heap.size

theorem laid_empty : Laid .empty := ⟨.nil, fun _ h => nomatch h⟩

theorem Laid.add {image : Image} (h : Laid image) (a : Addition) : Laid (image.add a) := by
  have hblob : ∀ blob, Laid (image.add (.blob blob)) := by
    intro blob
    rcases addBlob_cases image blob with ⟨_, hadd⟩ | ⟨token, after, hadd, htoken, hheap, hoffs, _, _⟩
    · simp only [Image.add, hadd, left]
      exact h
    · simp only [Image.add, hadd, left]
      have hsize : after.heap.size = image.heap.size + blob.length := by
        rw [← Array.length_toList, hheap, List.length_append, Array.length_toList]
      constructor
      · rw [hoffs, List.pairwise_append]
        refine ⟨h.sorted, List.pairwise_singleton .., ?_⟩
        intro o ho o' ho'
        rw [List.mem_singleton.mp ho', UInt16.le_iff_toNat_le, htoken]
        exact h.inside o ho
      · intro o ho
        rw [hoffs, List.mem_append, List.mem_singleton] at ho
        rcases ho with ho | rfl
        · have := h.inside o ho
          omega
        · omega
  cases a with
  | blob bytes => exact hblob bytes
  | text t =>
    rcases add_text_cases image t with ht | ht
    · rw [ht]
      exact h
    · rw [ht]
      exact hblob _
  | ref s | method m => exact ⟨h.sorted, h.inside⟩

theorem Laid.build {image : Image} (h : Laid image) (history : List Addition) : Laid (image.build history) := by
  induction history generalizing image with
  | nil => exact h
  | cons a history ih => exact ih (h.add a)

theorem le_of_getElem? {xs : Array UInt16} (h : xs.toList.Pairwise (· ≤ ·)) {i j : Nat} (hij : i ≤ j)
    {x y : UInt16} (hx : xs[i]? = some x) (hy : xs[j]? = some y) : x ≤ y := by
  rcases Nat.eq_or_lt_of_le hij with rfl | hlt
  · rw [hx, Option.some.injEq] at hy
    exact hy ▸ UInt16.le_refl x
  · obtain ⟨hi, rfl⟩ := Array.getElem?_eq_some_iff.mp hx
    obtain ⟨hj, rfl⟩ := Array.getElem?_eq_some_iff.mp hy
    exact List.pairwise_iff_getElem.mp h i j hi hj hlt

theorem occursIn_iff {xs : Array UInt16} (hs : xs.toList.Pairwise (· ≤ ·)) (x : UInt16) {lo hi : Nat}
    (hhi : hi ≤ xs.size) : occursIn xs x lo hi = true ↔ ∃ i, lo ≤ i ∧ i < hi ∧ xs[i]? = some x := by
  fun_induction occursIn xs x lo hi with
  | case1 lo hi hlt mid hmid =>
    have : mid < xs.size := by omega
    simp [this] at hmid
  | case2 lo hi hlt mid hmid =>
    simp only [true_iff]
    exact ⟨mid, by omega, by omega, hmid⟩
  | case3 lo hi hlt mid y hmid _ hyx ih =>
    rw [ih hhi]
    constructor
    · rintro ⟨i, hlo, hi', hx⟩
      exact ⟨i, by omega, hi', hx⟩
    · rintro ⟨i, hlo, hi', hx⟩
      refine ⟨i, ?_, hi', hx⟩
      -- an `x` at or before `mid` would not exceed what stands there
      apply Nat.lt_of_not_le
      intro hle
      exact UInt16.not_le.mpr hyx (le_of_getElem? hs hle hx hmid)
  | case4 lo hi hlt mid y hmid hne hyx ih =>
    rw [ih (by omega)]
    constructor
    · rintro ⟨i, hlo, hi', hx⟩
      exact ⟨i, hlo, by omega, hx⟩
    · rintro ⟨i, hlo, hi', hx⟩
      refine ⟨i, hlo, ?_, hx⟩
      apply Nat.lt_of_not_le
      intro hle
      have hyx' : y ≤ x := le_of_getElem? hs hle hmid hx
      exact hyx (UInt16.lt_of_le_of_ne hyx' hne)
  | case5 lo hi hlt =>
    simp only [Bool.false_eq_true, false_iff]
    rintro ⟨i, hlo, hi', _⟩
    omega

theorem occursIn_offsets {image : Image} (h : Laid image) (token : UInt16) :
    occursIn image.offsets token 0 image.offsets.size = true ↔ token ∈ image.offsets.toList := by
  rw [occursIn_iff h.sorted token (Nat.le_refl _), List.mem_iff_getElem?]
  constructor
  · rintro ⟨i, _, _, hi⟩
    exact ⟨i, by simpa using hi⟩
  · rintro ⟨i, hi⟩
    have hlt := (List.getElem?_eq_some_iff.mp hi).1
    exact ⟨i, Nat.zero_le i, by simpa using hlt, by simpa using hi⟩

/-! ## Texts on the heap -/

structure Spells (image : Image) (token : UInt16) (text : String) : Prop where
  short : (units text).length ≤ 63
  recorded : token ∈ image.offsets.toList
  heap : ∃ before after, before.length = token.toNat ∧
    image.heap.toList = before ++ (UserString.encode (units text) ++ after)

theorem Spells.extends {image later : Image} {token : UInt16} {text : String} (h : Spells image token text)
    (he : Extends image later) : Spells later token text := by
  obtain ⟨before, after, hlen, hheap⟩ := h.heap
  obtain ⟨more, hmore⟩ := he.heap
  refine ⟨h.short, he.offsets.subset h.recorded, before, after ++ more, hlen, ?_⟩
  rw [← hmore, hheap]
  simp

theorem Spells.userString {image : Image} {token : UInt16} {text : String} (h : Spells image token text)
    (hl : Laid image) : image.userString token = .ok text := by
  obtain ⟨before, after, hlen, hheap⟩ := h.heap
  have hshort := h.short
  have henc := UserString.length_encode (units text)
  unfold Image.userString
  rw [if_pos ((occursIn_offsets hl token).mpr h.recorded)]
  -- 128 bytes are enough for the blob, whatever else the heap holds
  have hslice : (image.heap.extract token.toNat (token.toNat + UserString.maxLength + 1)).toList =
      UserString.encode (units text) ++ after.take (128 - (UserString.encode (units text)).length) := by
    rw [Array.toList_extract, List.extract_eq_take_drop, hheap, ← hlen, List.drop_left, UserString.maxLength,
      show before.length + 0x7F + 1 - before.length = 128 by omega, List.take_append,
      List.take_of_length_le (by omega)]
  rw [hslice]
  exact UserString.decode_encode hshort token _

theorem length_of_addString {image after : Image} {text : String} {token : UInt16}
    (h : addString text image = .ok token after) : (units text).length ≤ 63 := by
  apply Nat.le_of_not_lt
  intro hlt
  rw [addString_of_lt hlt] at h
  cases h

theorem spells_of_addString {image after : Image} {text : String} {token : UInt16}
    (h : addString text image = .ok token after) :
    after = image.add (.text text) ∧ token.toNat = image.heap.size ∧ token.toNat < after.heap.size ∧
      Spells after token text := by
  have hshort := length_of_addString h
  have hafter : after = image.add (.text text) := by
    rw [add, h]
    rfl
  rw [addString_of_le hshort] at h
  rcases addBlob_cases image (UserString.encode (units text)) with ⟨_, hb⟩ | ⟨t, a, hb, ht, hheap, hoffs, _, _⟩
  · rw [h] at hb
    cases hb
  · rw [h] at hb
    cases hb
    refine ⟨hafter, ht, ?_, hshort, ?_, image.heap.toList, [], ?_, ?_⟩
    · rw [ht, ← Array.length_toList, ← Array.length_toList, hheap, List.length_append, UserString.length_encode]
      omega
    · rw [hoffs]
      exact List.mem_append_right _ (List.mem_singleton_self token)
    · rw [ht, Array.length_toList]
    · rw [hheap, List.append_nil]

theorem addString_eq_tooLong {image after : Image} {text : String} {k : Nat} :
    addString text image = .error (.stringTooLong k) after ↔
      63 < (units text).length ∧ k = (units text).length ∧ after = image := by
  rcases Nat.lt_or_ge 63 (units text).length with h | h
  · rw [addString_of_lt h]
    simp [h, eq_comm]
  · rw [addString_of_le h]
    rcases addBlob_cases image (UserString.encode (units text)) with ⟨_, hb⟩ | ⟨_, _, hb, _⟩
    · simp [hb, Nat.not_lt.mpr h]
    · simp [hb, Nat.not_lt.mpr h]

theorem addString_eq_heapFull {image after : Image} {text : String} :
    addString text image = .error .heapFull after ↔
      (units text).length ≤ 63 ∧ 65535 < image.heap.size ∧ after = image := by
  rcases Nat.lt_or_ge 63 (units text).length with h | h
  · rw [addString_of_lt h]
    simp [Nat.not_le.mpr h]
  · rw [addString_of_le h]
    rcases Nat.lt_or_ge image.heap.size 0x10000 with hs | hs
    · simp [addBlob_of_lt hs, h]
      omega
    · have hfull : 65535 < image.heap.size := hs
      simp [addBlob_of_le hs, h, hfull, eq_comm]

theorem exists_addString {image : Image} {text : String} (hn : (units text).length ≤ 63)
    (hs : image.heap.size ≤ 65535) : ∃ token after, addString text image = .ok token after := by
  rw [addString_of_le hn]
  exact ⟨_, _, addBlob_of_lt (by omega) _⟩

end Image

/-- A text that fits its length byte and the heap gets a token that names it for good. -/
theorem userString_roundTrip (history : List Addition) (text : String) :
    let image := Image.empty.build history
    (∀ k after, image.addString text = .error (.stringTooLong k) after ↔
      63 < (units text).length ∧ k = (units text).length ∧ after = image) ∧
    (∀ after, image.addString text = .error .heapFull after ↔
      (units text).length ≤ 63 ∧ 65535 < image.heap.size ∧ after = image) ∧
    (∀ e after, image.addString text = .error e after → after = image ∧ image.add (.text text) = image) ∧
    ((units text).length ≤ 63 → image.heap.size ≤ 65535 → ∃ token,
      image.addString text = .ok token (image.add (.text text)) ∧
      ∀ later, let image' := Image.empty.build (history ++ .text text :: later)
        image'.userString token = .ok text ∧
        ∀ text' token' after, image'.addString text' = .ok token' after → token' ≠ token) := by
  intro image
  refine ⟨fun k after => Image.addString_eq_tooLong, fun after => Image.addString_eq_heapFull, fun e after he => ?_,
    fun hn hs => ?_⟩
  · obtain rfl := Image.eq_of_addString_error he
    refine ⟨rfl, ?_⟩
    rw [Image.add, he]
    rfl
  · obtain ⟨token, after, hadd⟩ := Image.exists_addString hn hs
    obtain ⟨rfl, _, hlt, hsp⟩ := Image.spells_of_addString hadd
    refine ⟨token, hadd, fun later => ?_⟩
    have hext : Image.Extends (image.add (.text text)) (Image.empty.build (history ++ .text text :: later)) := by
      rw [Image.build_append]
      exact Image.extends_build (image.add (.text text)) later
    refine ⟨(hsp.extends hext).userString (Image.laid_empty.build _), fun text' token' after' hadd' => ?_⟩
    -- the blob has taken room, so a later one begins further up
    have htok := (Image.spells_of_addString hadd').2.1
    have hle := hext.heap.length_le
    rintro rfl
    simp only [Array.length_toList] at hle
    omega

/-- A text outside the basic plane, behind an empty blob that has the same token. -/
theorem userString_roundTrip_clef :
    Image.empty.addBlob [] = .ok 1 (Image.empty.build [.blob []]) ∧
    ∃ image, (Image.empty.build [.blob []]).addString "𝄞" = .ok 1 image ∧
      image.heap.toList = [0, 5, 0x34, 0xD8, 0x1E, 0xDD, 1] ∧
      ∀ later, (Image.empty.build (.blob [] :: .text "𝄞" :: later)).userString 1 = .ok "𝄞" := by
  have hu : units "𝄞" = [0xD834, 0xDD1E] := by decide
  have hadd : (Image.empty.build [.blob []]).addString "𝄞" =
      .ok 1 ⟨#[0, 5, 0x34, 0xD8, 0x1E, 0xDD, 1], #[1, 1], #[], #[]⟩ := by
    unfold Image.addString
    rw [hu]
    rfl
  obtain ⟨token, h, hlater⟩ := (userString_roundTrip [.blob []] "𝄞").2.2.2 (by rw [hu]; decide) (by decide)
  rw [hadd] at h
  cases h
  exact ⟨rfl, _, hadd, rfl, fun later => (hlater later).1⟩

end StackVm
