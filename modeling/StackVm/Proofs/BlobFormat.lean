import StackVm.Proofs.UserStrings

/-!
# The format of user-string blobs

Every list of UTF-16 units either spells one text or has a surrogate without its
partner (`spells_or_unpaired`), and every list of bytes is a blob, has a length
byte that is not supported, or is malformed (`blob_cases`). Reading tells the
three apart, and a text that was read is written with the same length byte and
the same units.
-/

namespace StackVm

/-! ## Surrogates -/

def IsHigh (u : UInt16) : Prop := 0xD800 ≤ u.toNat ∧ u.toNat < 0xDC00

def IsLow (u : UInt16) : Prop := 0xDC00 ≤ u.toNat ∧ u.toNat < 0xE000

/-- A high surrogate that no low one follows, or a low surrogate that no high one precedes. -/
def Unpaired (us : List UInt16) : Prop :=
  ∃ before u after, us = before ++ u :: after ∧
    (IsHigh u ∧ (∀ v ∈ after.head?, ¬ IsLow v) ∨ IsLow u ∧ ∀ v ∈ before.getLast?, ¬ IsHigh v)

theorem exists_char {n : Nat} (h : n < 0xD800 ∨ 0xDFFF < n ∧ n < 0x110000) : ∃ c : Char, c.toNat = n :=
  ⟨Char.ofNatAux n h, rfl⟩

theorem exists_char_of_basic {u : UInt16} (hh : ¬ IsHigh u) (hl : ¬ IsLow u) : ∃ c, charUnits c = [u] := by
  have hu := u.toNat_lt
  unfold IsHigh at hh
  unfold IsLow at hl
  obtain ⟨c, hc⟩ := exists_char (n := u.toNat) (by omega)
  have hbasic : u.toNat < 0x10000 := by omega
  refine ⟨c, ?_⟩
  simp [charUnits, hbasic, hc]

theorem exists_char_of_pair {u v : UInt16} (hu : IsHigh u) (hv : IsLow v) : ∃ c, charUnits c = [u, v] := by
  obtain ⟨hu, hu'⟩ := hu
  obtain ⟨hv, hv'⟩ := hv
  obtain ⟨c, hc⟩ := exists_char (n := 0x10000 + (u.toNat - 0xD800) * 0x400 + (v.toNat - 0xDC00)) (by omega)
  have hhigh : 0xD800 + (c.toNat - 0x10000) / 0x400 = u.toNat := by omega
  have hlow : 0xDC00 + (c.toNat - 0x10000) % 0x400 = v.toNat := by omega
  have hbasic : ¬ c.toNat < 0x10000 := by omega
  refine ⟨c, ?_⟩
  simp [charUnits, hbasic, hhigh, hlow]

theorem charUnits_cases (c : Char) :
    (∃ u, charUnits c = [u] ∧ ¬ IsHigh u ∧ ¬ IsLow u) ∨ ∃ u v, charUnits c = [u, v] ∧ IsHigh u ∧ IsLow v := by
  have hc : c.toNat < 0xD800 ∨ 0xDFFF < c.toNat ∧ c.toNat < 0x110000 := c.valid
  unfold charUnits IsHigh IsLow
  by_cases h : c.toNat < 0x10000
  · left
    refine ⟨c.toNat.toUInt16, by simp [h], ?_⟩
    simp
    omega
  · right
    refine ⟨(0xD800 + (c.toNat - 0x10000) / 0x400).toUInt16, (0xDC00 + (c.toNat - 0x10000) % 0x400).toUInt16, ?_⟩
    simp [h]
    omega

/-- What stands at the front of a list of units. -/
theorem units_cases (us : List UInt16) :
    us = [] ∨ (∃ c rest, us = charUnits c ++ rest) ∨
      ∃ u rest, us = u :: rest ∧ (IsLow u ∨ IsHigh u ∧ ∀ v ∈ rest.head?, ¬ IsLow v) := by
  cases us with
  | nil => exact .inl rfl
  | cons u rest =>
    right
    by_cases hl : IsLow u
    · exact .inr ⟨u, rest, rfl, .inl hl⟩
    by_cases hh : IsHigh u
    · cases rest with
      | nil => exact .inr ⟨u, [], rfl, .inr ⟨hh, by simp⟩⟩
      | cons v rest =>
        by_cases hv : IsLow v
        · obtain ⟨c, hc⟩ := exists_char_of_pair hh hv
          exact .inl ⟨c, rest, by simp [hc]⟩
        · exact .inr ⟨u, v :: rest, rfl, .inr ⟨hh, by simpa using hv⟩⟩
    · obtain ⟨c, hc⟩ := exists_char_of_basic hh hl
      exact .inl ⟨c, rest, by simp [hc]⟩

theorem charsOfUnits?_of_lone {u : UInt16} {rest : List UInt16}
    (h : IsLow u ∨ IsHigh u ∧ ∀ v ∈ rest.head?, ¬ IsLow v) : charsOfUnits? (u :: rest) = none := by
  unfold IsLow IsHigh at h
  have hu : ¬ (u < 0xD800 || 0xE000 ≤ u) = true := by
    simp [UInt16.lt_iff_toNat_lt, UInt16.le_iff_toNat_le]
    omega
  cases rest with
  | nil => simp [charsOfUnits?, hu]
  | cons v rest =>
    have hv : ¬ (u < 0xDC00 && 0xDC00 ≤ v && v < 0xE000) = true := by
      simp [UInt16.lt_iff_toNat_lt, UInt16.le_iff_toNat_le] at h ⊢
      omega
    simp only [charsOfUnits?, hu, hv]
    rfl

theorem Unpaired.lone {u : UInt16} {rest : List UInt16} (h : IsLow u ∨ IsHigh u ∧ ∀ v ∈ rest.head?, ¬ IsLow v) :
    Unpaired (u :: rest) := by
  refine ⟨[], u, rest, rfl, ?_⟩
  rcases h with h | h
  · exact .inr ⟨h, by simp⟩
  · exact .inl h

theorem not_isHigh_of_mem_getLast? {c : Char} {v : UInt16} (h : v ∈ (charUnits c).getLast?) : ¬ IsHigh v := by
  rcases charUnits_cases c with ⟨u, hc, hu, _⟩ | ⟨u, w, hc, _, hw⟩
  · simp only [hc, List.getLast?_singleton, Option.mem_some] at h
    rwa [← h]
  · simp only [hc, List.getLast?_cons_cons, List.getLast?_singleton, Option.mem_some] at h
    rw [← h]
    exact fun hh => Nat.not_lt.mpr hw.1 hh.2

theorem Unpaired.append {us : List UInt16} (h : Unpaired us) (c : Char) : Unpaired (charUnits c ++ us) := by
  obtain ⟨before, u, after, rfl, h⟩ := h
  refine ⟨charUnits c ++ before, u, after, by simp, h.imp_right fun h => ⟨h.1, ?_⟩⟩
  intro v hv
  rw [List.getLast?_append, Option.mem_def, Option.or_eq_some_iff] at hv
  rcases hv with hv | ⟨_, hv⟩
  · exact h.2 v hv
  · exact not_isHigh_of_mem_getLast? hv

/-- A unit that is no surrogate, or a pair, does not help what follows it. -/
theorem Unpaired.of_append {us : List UInt16} {c : Char} (h : Unpaired (charUnits c ++ us)) : Unpaired us := by
  obtain ⟨before, u, after, he, h⟩ := h
  have hrest : ∀ {p before : List UInt16}, us = before ++ u :: after →
      (IsHigh u ∧ (∀ v ∈ after.head?, ¬ IsLow v) ∨ IsLow u ∧ ∀ v ∈ (p ++ before).getLast?, ¬ IsHigh v) →
      Unpaired us := by
    intro p before hus h
    refine ⟨before, u, after, hus, h.imp_right fun h => ⟨h.1, fun v hv => h.2 v ?_⟩⟩
    rw [List.getLast?_append, Option.mem_def.mp hv]
    rfl
  rcases charUnits_cases c with ⟨w, hc, hh, hl⟩ | ⟨w, x, hc, hw, hx⟩
  · rw [hc] at he
    cases before with
    | nil =>
      cases he
      exact absurd h (by simp [hh, hl])
    | cons b before =>
      cases he
      exact hrest (p := [w]) rfl h
  · have hwl : ¬ IsLow w := fun hwl => Nat.not_lt.mpr hwl.1 hw.2
    have hxh : ¬ IsHigh x := fun hxh => Nat.not_lt.mpr hx.1 hxh.2
    rw [hc] at he
    cases before with
    | nil =>
      cases he
      exact absurd h (by simp [hwl, hx])
    | cons b before =>
      cases before with
      | nil =>
        cases he
        exact absurd h (by simp [hxh, hw])
      | cons b' before =>
        cases he
        exact hrest (p := [w, x]) rfl h

theorem not_unpaired_units (text : String) : ¬ Unpaired (units text) := by
  unfold units
  induction text.toList with
  | nil =>
    rintro ⟨before, u, after, he, _⟩
    simp at he
  | cons c cs ih =>
    intro h
    exact ih h.of_append

theorem length_charUnits_pos (c : Char) : 0 < (charUnits c).length := by
  rcases charUnits_cases c with ⟨u, hc, _⟩ | ⟨u, v, hc, _⟩ <;> simp [hc]

theorem spells_or_unpaired (us : List UInt16) : (∃ text, us = units text) ∨ Unpaired us ∧ ofUnits? us = none := by
  induction h : us.length using Nat.strongRecOn generalizing us with
  | ind n ih =>
    rcases units_cases us with rfl | ⟨c, rest, rfl⟩ | ⟨u, rest, rfl, hu⟩
    · exact .inl ⟨"", rfl⟩
    · have hpos := length_charUnits_pos c
      rw [List.length_append] at h
      rcases ih rest.length (by omega) rest rfl with ⟨text, rfl⟩ | ⟨hn, hnone⟩
      · exact .inl ⟨String.ofList (c :: text.toList), by simp [units]⟩
      · refine .inr ⟨hn.append c, ?_⟩
        rw [ofUnits?, Option.map_eq_none_iff] at hnone ⊢
        rw [charsOfUnits?_charUnits, hnone, Option.map_none]
    · exact .inr ⟨.lone hu, by rw [ofUnits?, charsOfUnits?_of_lone hu, Option.map_none]⟩

theorem ofUnits?_of_unpaired {us : List UInt16} (h : Unpaired us) : ofUnits? us = none := by
  rcases spells_or_unpaired us with ⟨text, rfl⟩ | ⟨_, hnone⟩
  · exact absurd h (not_unpaired_units text)
  · exact hnone

/-! ## Blobs -/

namespace UserString

theorem bytes_of_unit (low high : UInt8) : (low.toUInt16 ||| high.toUInt16 <<< 8).toUInt8 = low ∧
    ((low.toUInt16 ||| high.toUInt16 <<< 8) >>> 8).toUInt8 = high := by
  have hlow : low.toNat < 2 ^ 8 := low.toNat_lt
  have hhigh : high.toNat < 2 ^ 8 := high.toNat_lt
  have hunit : (low.toUInt16 ||| high.toUInt16 <<< 8).toNat = high.toNat * 256 + low.toNat := by
    rw [UInt16.or_comm]
    simp
    rw [Nat.mod_eq_of_lt (by simp [Nat.shiftLeft_eq]; omega), ← Nat.shiftLeft_add_eq_or_of_lt hlow, Nat.shiftLeft_eq]
  constructor
  · apply UInt8.toNat_inj.mp
    rw [UInt16.toNat_toUInt8, hunit]
    omega
  · apply UInt8.toNat_inj.mp
    rw [UInt16.toNat_toUInt8, UInt16.toNat_shiftRight, hunit]
    simp [Nat.shiftRight_eq_div_pow]
    omega

theorem unitBytes_or_odd : ∀ bytes : List UInt8,
    (∃ us, bytes = unitBytes us) ∨ bytes.length % 2 = 1 ∧ unitsOfBytes? bytes = none
  | [] => .inl ⟨[], rfl⟩
  | [_] => .inr ⟨rfl, rfl⟩
  | low :: high :: rest => by
    rcases unitBytes_or_odd rest with ⟨us, rfl⟩ | ⟨hodd, hnone⟩
    · obtain ⟨hlow, hhigh⟩ := bytes_of_unit low high
      refine .inl ⟨(low.toUInt16 ||| high.toUInt16 <<< 8) :: us, ?_⟩
      simp only [unitBytes, List.flatMap_cons, hlow, hhigh]
      rfl
    · refine .inr ⟨?_, ?_⟩
      · simp only [List.length_cons]
        omega
      · simp only [unitsOfBytes?, hnone, Option.map_none]

end UserString

/-- A length byte, as many bytes of units as it says, and a flag. -/
structure Blob where
  length : UInt8
  payload : List UInt8
  flag : UInt8
  supported : 1 ≤ length.toNat ∧ length.toNat ≤ 127
  odd : length.toNat % 2 = 1
  length_payload : payload.length = length.toNat - 1

namespace Blob

def bytes (b : Blob) : List UInt8 := b.length :: b.payload ++ [b.flag]

def Spells (b : Blob) (text : String) : Prop := b.payload = UserString.unitBytes (units text)

theorem Spells.length {b : Blob} {text : String} (h : b.Spells text) :
    b.length.toNat = (units text).length * 2 + 1 := by
  have hl := b.length_payload
  have hs := b.supported
  rw [h, UserString.length_unitBytes] at hl
  omega

theorem Spells.decode {b : Blob} {text : String} (h : b.Spells text) (token : UInt16) (tail : List UInt8) :
    UserString.decode token (b.bytes ++ tail) = .ok text := by
  have hd := UserString.decode_of_units h.length b.supported.2 token b.flag tail
  rw [← h] at hd
  simpa [bytes] using hd

end Blob

namespace UserString

inductive Malformed : List UInt8 → Prop
  | empty : Malformed []
  | short {length : UInt8} {rest : List UInt8} : 1 ≤ length.toNat → length.toNat ≤ 127 →
      rest.length < length.toNat → Malformed (length :: rest)
  | even {length : UInt8} {rest : List UInt8} : 1 ≤ length.toNat → length.toNat ≤ 127 →
      length.toNat % 2 = 0 → Malformed (length :: rest)
  | unpaired {length : UInt8} {rest : List UInt8} {us : List UInt16} : 1 ≤ length.toNat → length.toNat ≤ 127 →
      rest.take (length.toNat - 1) = unitBytes us → Unpaired us → Malformed (length :: rest)

theorem decode_of_unsupported {length : UInt8} (h : length.toNat = 0 ∨ 128 ≤ length.toNat) (token : UInt16)
    (rest : List UInt8) : decode token (length :: rest) = .error (.unsupportedBlob token length) := by
  have hlength : (length ≥ 128 || length == 0) = true := by
    simp [UInt8.le_iff_toNat_le, ← UInt8.toNat_inj]
    omega
  unfold decode
  simp only [hlength, if_true]

theorem decode_of_no_text {length : UInt8} (hpos : 1 ≤ length.toNat) (hle : length.toNat ≤ 127) {rest : List UInt8}
    (h : rest.length < length.toNat ∨ (unitsOfBytes? (rest.take (length.toNat - 1))).bind ofUnits? = none)
    (token : UInt16) : decode token (length :: rest) = .error (.malformedString token) := by
  have hlength : ¬ (length ≥ 128 || length == 0) = true := by
    simp [UInt8.le_iff_toNat_le, ← UInt8.toNat_inj]
    omega
  unfold decode
  simp only [hlength]
  by_cases hs : rest.length < length.toNat
  · simp [hs]
  · have hnone := h.resolve_left hs
    simp [hs, hnone]

theorem Malformed.decode {bytes : List UInt8} (h : Malformed bytes) (token : UInt16) :
    decode token bytes = .error (.malformedString token) := by
  cases h with
  | empty => rfl
  | short hpos hle hs => exact decode_of_no_text hpos hle (.inl hs) token
  | @even length rest hpos hle heven =>
    apply decode_of_no_text hpos hle
    by_cases hs : rest.length < length.toNat
    · exact .inl hs
    · -- an odd number of bytes is no list of units
      right
      have htake : (rest.take (length.toNat - 1)).length = length.toNat - 1 := by
        rw [List.length_take]
        omega
      rcases unitBytes_or_odd (rest.take (length.toNat - 1)) with ⟨us, hus⟩ | ⟨_, hnone⟩
      · rw [hus, length_unitBytes] at htake
        omega
      · rw [hnone, Option.bind_none]
  | unpaired hpos hle htake hus =>
    apply decode_of_no_text hpos hle (.inr _)
    rw [htake, unitsOfBytes?_unitBytes, Option.bind_some, ofUnits?_of_unpaired hus]

end UserString

theorem blob_cases (bytes : List UInt8) :
    (∃ (b : Blob) (tail : List UInt8) (text : String), bytes = b.bytes ++ tail ∧ b.Spells text) ∨
    (∃ length rest, bytes = length :: rest ∧ (length.toNat = 0 ∨ 128 ≤ length.toNat)) ∨ UserString.Malformed bytes := by
  cases bytes with
  | nil => exact .inr (.inr .empty)
  | cons length rest =>
    by_cases hu : length.toNat = 0 ∨ 128 ≤ length.toNat
    · exact .inr (.inl ⟨length, rest, rfl, hu⟩)
    have hpos : 1 ≤ length.toNat := by omega
    have hle : length.toNat ≤ 127 := by omega
    by_cases hs : rest.length < length.toNat
    · exact .inr (.inr (.short hpos hle hs))
    by_cases he : length.toNat % 2 = 0
    · exact .inr (.inr (.even hpos hle he))
    have htake : (rest.take (length.toNat - 1)).length = length.toNat - 1 := by
      rw [List.length_take]
      omega
    rcases UserString.unitBytes_or_odd (rest.take (length.toNat - 1)) with ⟨us, hus⟩ | ⟨hodd, _⟩
    · rcases spells_or_unpaired us with ⟨text, rfl⟩ | ⟨hun, _⟩
      · left
        cases hdrop : rest.drop (length.toNat - 1) with
        | nil =>
          have := congrArg List.length hdrop
          simp at this
          omega
        | cons flag tail =>
          refine ⟨⟨length, _, flag, ⟨hpos, hle⟩, by omega, htake⟩, tail, text, ?_, hus⟩
          have hrest := List.take_append_drop (length.toNat - 1) rest
          rw [hdrop] at hrest
          simp [Blob.bytes, hrest]
      · exact .inr (.inr (.unpaired hpos hle hus hun))
    · omega

/-- What reading finds, and what it answers. -/
theorem decode_cases (token : UInt16) (bytes : List UInt8) :
    (∃ (b : Blob) (tail : List UInt8) (text : String), bytes = b.bytes ++ tail ∧ b.Spells text ∧
      UserString.decode token bytes = .ok text) ∨
    (∃ length rest, bytes = length :: rest ∧ (length.toNat = 0 ∨ 128 ≤ length.toNat) ∧
      UserString.decode token bytes = .error (.unsupportedBlob token length)) ∨
    UserString.Malformed bytes ∧ UserString.decode token bytes = .error (.malformedString token) := by
  rcases blob_cases bytes with ⟨b, tail, text, rfl, hb⟩ | ⟨length, rest, rfl, hl⟩ | hm
  · exact .inl ⟨b, tail, text, rfl, hb, hb.decode token tail⟩
  · exact .inr (.inl ⟨length, rest, rfl, hl, UserString.decode_of_unsupported hl token rest⟩)
  · exact .inr (.inr ⟨hm, hm.decode token⟩)

theorem decode_eq_ok_iff {token : UInt16} {bytes : List UInt8} {text : String} :
    UserString.decode token bytes = .ok text ↔
      ∃ (b : Blob) (tail : List UInt8), bytes = b.bytes ++ tail ∧ b.Spells text := by
  constructor
  · intro h
    rcases decode_cases token bytes with ⟨b, tail, text', he, hb, hd⟩ | ⟨_, _, _, _, hd⟩ | ⟨_, hd⟩
    · cases h.symm.trans hd
      exact ⟨b, tail, he, hb⟩
    · cases h.symm.trans hd
    · cases h.symm.trans hd
  · rintro ⟨b, tail, rfl, hb⟩
    exact hb.decode token tail

theorem decode_eq_unsupported_iff {token : UInt16} {bytes : List UInt8} {length : UInt8} :
    UserString.decode token bytes = .error (.unsupportedBlob token length) ↔
      ∃ rest, bytes = length :: rest ∧ (length.toNat = 0 ∨ 128 ≤ length.toNat) := by
  constructor
  · intro h
    rcases decode_cases token bytes with ⟨_, _, _, _, _, hd⟩ | ⟨length', rest, he, hl, hd⟩ | ⟨_, hd⟩
    · cases h.symm.trans hd
    · cases h.symm.trans hd
      exact ⟨rest, he, hl⟩
    · cases h.symm.trans hd
  · rintro ⟨rest, rfl, hl⟩
    exact UserString.decode_of_unsupported hl token rest

theorem decode_eq_malformed_iff {token : UInt16} {bytes : List UInt8} :
    UserString.decode token bytes = .error (.malformedString token) ↔ UserString.Malformed bytes := by
  constructor
  · intro h
    rcases decode_cases token bytes with ⟨_, _, _, _, _, hd⟩ | ⟨_, _, _, _, hd⟩ | ⟨hm, _⟩
    · cases h.symm.trans hd
    · cases h.symm.trans hd
    · exact hm
  · intro h
    exact h.decode token

/-- A text that has a blob goes to the heap with the same length byte and the same units. -/
theorem Blob.Spells.addString {b : Blob} {text : String} (h : b.Spells text) {image : Image}
    (hroom : image.heap.size ≤ 65535) : ∃ token after, image.addString text = .ok token after ∧
      after.heap.toList = image.heap.toList ++ { b with flag := UserString.flag (units text) }.bytes := by
  have hn := h.length
  have hs := b.supported
  have hshort : (units text).length ≤ 63 := by omega
  have hlength : ((units text).length * 2 + 1).toUInt8 = b.length := by
    apply UInt8.toNat_inj.mp
    simp
    omega
  have hencode : UserString.encode (units text) = { b with flag := UserString.flag (units text) }.bytes := by
    simp [UserString.encode, bytes, hlength, show b.payload = _ from h]
  rw [Image.addString_of_le hshort, hencode]
  rcases Image.addBlob_cases image { b with flag := UserString.flag (units text) }.bytes with
    ⟨hfull, _⟩ | ⟨token, after, hadd, _, hheap, _⟩
  · omega
  · exact ⟨token, after, hadd, hheap⟩

/-- Reading succeeds exactly on the bytes that begin with a blob, and gives its text. It tells a length byte that is
not supported from every other defect. What was read can be written again, with no more than the flag changed. -/
theorem decode_recognizes_blobs (token : UInt16) (bytes : List UInt8) :
    (∀ text, UserString.decode token bytes = .ok text ↔
      ∃ (b : Blob) (tail : List UInt8), bytes = b.bytes ++ tail ∧ b.Spells text) ∧
    (∀ length, UserString.decode token bytes = .error (.unsupportedBlob token length) ↔
      ∃ rest, bytes = length :: rest ∧ (length.toNat = 0 ∨ 128 ≤ length.toNat)) ∧
    (UserString.decode token bytes = .error (.malformedString token) ↔ UserString.Malformed bytes) ∧
    (∀ e, UserString.decode token bytes = .error e →
      e = .malformedString token ∨ ∃ length, e = .unsupportedBlob token length) ∧
    ∀ text, UserString.decode token bytes = .ok text →
      ∃ (b : Blob) (tail : List UInt8), bytes = b.bytes ++ tail ∧
        ∀ image : Image, image.heap.size ≤ 65535 → ∃ token' after flag, image.addString text = .ok token' after ∧
          after.heap.toList = image.heap.toList ++ { b with flag := flag }.bytes := by
  refine ⟨fun text => decode_eq_ok_iff, fun length => decode_eq_unsupported_iff, decode_eq_malformed_iff, ?_, ?_⟩
  · intro e h
    rcases decode_cases token bytes with ⟨_, _, _, _, _, hd⟩ | ⟨length, _, _, _, hd⟩ | ⟨_, hd⟩
    · cases h.symm.trans hd
    · cases h.symm.trans hd
      exact .inr ⟨length, rfl⟩
    · cases h.symm.trans hd
      exact .inl rfl
  · intro text h
    obtain ⟨b, tail, he, hb⟩ := decode_eq_ok_iff.mp h
    refine ⟨b, tail, he, fun image hroom => ?_⟩
    obtain ⟨token', after, hadd, hheap⟩ := hb.addString hroom
    exact ⟨token', after, _, hadd, hheap⟩

/-- A pair of surrogates, with a flag that no text gets. -/
def clefBlob : Blob := ⟨5, [0x34, 0xD8, 0x1E, 0xDD], 7, by decide, by decide, by decide⟩

/-- The pair is read and written again; its first half alone is not. -/
theorem decode_recognizes_blobs_clef :
    UserString.decode 1 [5, 0x34, 0xD8, 0x1E, 0xDD, 7, 9] = .ok "𝄞" ∧
    (∃ token' after flag, Image.empty.addString "𝄞" = .ok token' after ∧
      after.heap.toList = [0, 5, 0x34, 0xD8, 0x1E, 0xDD, flag]) ∧
    UserString.decode 1 [3, 0x34, 0xD8, 7, 9] = .error (.malformedString 1) := by
  have hunits : units "𝄞" = [0xD834, 0xDD1E] := by decide
  have hspells : clefBlob.Spells "𝄞" := by
    unfold Blob.Spells
    rw [hunits]
    decide
  have hdecode := ((decode_recognizes_blobs 1 [5, 0x34, 0xD8, 0x1E, 0xDD, 7, 9]).1 "𝄞").mpr
    ⟨clefBlob, [9], rfl, hspells⟩
  have hmalformed : UserString.Malformed [3, 0x34, 0xD8, 7, 9] := by
    have hlone : Unpaired [0xD834] := .lone (.inr ⟨⟨by decide, by decide⟩, by simp⟩)
    exact .unpaired (by decide) (by decide) (by decide) hlone
  obtain ⟨⟨length, payload, flag', _, _, hpayload⟩, tail, hb, hwrite⟩ :=
    (decode_recognizes_blobs 1 _).2.2.2.2 "𝄞" hdecode
  obtain ⟨token', after, flag, hadd, hheap⟩ := hwrite .empty (by decide)
  simp only [Blob.bytes, List.cons_append, List.append_assoc, List.cons.injEq] at hb
  obtain ⟨rfl, hb⟩ := hb
  have hb : [0x34, 0xD8, 0x1E, 0xDD] ++ [7, 9] = payload ++ ([flag'] ++ tail) := hb
  obtain rfl := List.append_inj_left hb hpayload.symm
  exact ⟨hdecode, ⟨token', after, flag, hadd, hheap⟩, (decode_recognizes_blobs 1 _).2.2.1.mpr hmalformed⟩

end StackVm
