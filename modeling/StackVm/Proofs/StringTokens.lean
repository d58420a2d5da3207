import StackVm.Proofs.MethodTokens
import StackVm.Proofs.UserStrings

/-!
# String tokens of an image

The offset of a blob is its token and is recorded when the blob is appended, so
the recorded offsets are the tokens that were issued (`mem_offsets_iff`), and the
heap keeps each blob where its token says. Empty blobs share their token with
the blob that comes after them.
-/

namespace StackVm

namespace Image

/-- The image grants an addition to its heap and answers with the token of these bytes. -/
inductive Issues (image : Image) : Addition → UInt16 → List UInt8 → Prop
  | text {t : String} {token : UInt16} {after : Image} : image.addString t = .ok token after →
      Issues image (.text t) token (UserString.encode (units t))
  | blob {bytes : List UInt8} {token : UInt16} {after : Image} : image.addBlob bytes = .ok token after →
      Issues image (.blob bytes) token bytes

structure Appends (image : Image) (token : UInt16) (blob : List UInt8) (after : Image) : Prop where
  place : token.toNat = image.heap.size
  heap : after.heap.toList = image.heap.toList ++ blob
  offsets : after.offsets.toList = image.offsets.toList ++ [token]

section
variable {image : Image} {token : UInt16} {blob : List UInt8}

theorem appends_of_addBlob {after : Image} (h : image.addBlob blob = .ok token after) :
    image.Appends token blob after := by
  rcases addBlob_cases image blob with ⟨_, hb⟩ | ⟨t, a, hb, ht, hheap, hoffs, _, _⟩
  · rw [h] at hb
    cases hb
  · rw [h] at hb
    cases hb
    exact ⟨ht, hheap, hoffs⟩

theorem Issues.appends {a : Addition} (h : image.Issues a token blob) : image.Appends token blob (image.add a) := by
  cases h with
  | blob h =>
    simp only [add, h, left]
    exact appends_of_addBlob h
  | text h =>
    have hb := h
    rw [addString_of_le (length_of_addString h)] at hb
    simp only [add, h, left]
    exact appends_of_addBlob hb

/-- An addition that issues no token leaves the offsets alone. -/
theorem issues_or_offsets (image : Image) (a : Addition) :
    (∃ token blob, image.Issues a token blob) ∨ (image.add a).offsets = image.offsets := by
  cases a with
  | ref s | method m => exact .inr rfl
  | blob bytes =>
    cases h : image.addBlob bytes with
    | ok token after => exact .inl ⟨_, _, .blob h⟩
    | error e after =>
      obtain rfl := eq_of_addBlob_error h
      exact .inr (by simp only [add, h, left])
  | text t =>
    cases h : image.addString t with
    | ok token after => exact .inl ⟨_, _, .text h⟩
    | error e after =>
      obtain rfl := eq_of_addString_error h
      exact .inr (by simp only [add, h, left])

theorem heap_pos (history : List Addition) : 0 < (empty.build history).heap.size := by
  have hle := (extends_build empty history).heap.length_le
  exact Nat.lt_of_lt_of_le Nat.one_pos hle

theorem blobAt?_of_mem (hl : image.Laid) (h : token ∈ image.offsets.toList) : ∃ bytes,
    image.blobAt? token = some bytes ∧ bytes.toList = image.heap.toList.drop token.toNat := by
  refine ⟨_, if_pos ((occursIn_offsets hl token).mpr h), ?_⟩
  rw [Array.toList_extract, List.extract_eq_take_drop, List.take_of_length_le]
  simp

theorem isSome_blobAt? (hl : image.Laid) (token : UInt16) :
    (image.blobAt? token).isSome ↔ token ∈ image.offsets.toList := by
  rw [← occursIn_offsets hl token]
  unfold blobAt?
  split
  · next h => simp [h]
  · next h => simp [h]

end

end Image

/-! ## Tokens of a history -/

def Issued (history : List Addition) (token : UInt16) (blob : List UInt8) : Prop :=
  ∃ k a, history[k]? = some a ∧ (imageAt history k).Issues a token blob

section
variable {history : List Addition} {token : UInt16} {blob : List UInt8}

/-- The blob stands where its token says, whatever was added after it. -/
theorem Issued.appended (h : Issued history token blob) :
    token ∈ (Image.empty.build history).offsets.toList ∧ ∃ before after, before.length = token.toNat ∧
      0 < token.toNat ∧ (Image.empty.build history).heap.toList = before ++ (blob ++ after) := by
  obtain ⟨k, a, ha, hissues⟩ := h
  have happ := hissues.appends
  rw [← imageAt_succ ha] at happ
  have hlt := (List.getElem?_eq_some_iff.mp ha).1
  have hext := extends_imageAt history (show k + 1 ≤ history.length from hlt)
  rw [imageAt_length] at hext
  obtain ⟨more, hmore⟩ := hext.heap
  refine ⟨?_, (imageAt history k).heap.toList, more, ?_, ?_, ?_⟩
  · apply hext.offsets.subset
    simp [happ.offsets]
  · simp [happ.place]
  · rw [happ.place]
    exact Image.heap_pos _
  · rw [← hmore, happ.heap, List.append_assoc]

theorem exists_issued {n : Nat} (hn : n ≤ history.length) (h : token ∈ (imageAt history n).offsets.toList) :
    ∃ blob, Issued history token blob := by
  induction n with
  | zero => simp [imageAt, Image.build, Image.empty] at h
  | succ n ih =>
    have ha := List.getElem?_eq_getElem (show n < history.length from hn)
    rw [imageAt_succ ha] at h
    rcases (imageAt history n).issues_or_offsets history[n] with ⟨t, blob, hissues⟩ | hsame
    · rw [hissues.appends.offsets, List.mem_append, List.mem_singleton] at h
      rcases h with h | rfl
      · exact ih (by omega) h
      · exact ⟨blob, n, _, ha, hissues⟩
    · rw [hsame] at h
      exact ih (by omega) h

theorem mem_offsets_iff :
    token ∈ (Image.empty.build history).offsets.toList ↔ ∃ blob, Issued history token blob := by
  constructor
  · intro h
    rw [← imageAt_length] at h
    exact exists_issued (Nat.le_refl _) h
  · intro ⟨blob, h⟩
    exact h.appended.1

end

/-- After any history a token has a blob exactly if some addition was answered with it, and the blob is found at
the front of what the heap holds from there on. -/
theorem stringTokens_resolve (history : List Addition) (token : UInt16) :
    let image := Image.empty.build history
    ((image.blobAt? token).isSome ↔ ∃ blob, Issued history token blob) ∧
    (∀ blob, Issued history token blob → token ≠ 0 ∧ ∃ bytes, image.blobAt? token = some bytes ∧
      bytes.toList = image.heap.toList.drop token.toNat ∧ blob <+: bytes.toList) ∧
    image.offsets.toList.Pairwise (· ≤ ·) ∧
    (Image.occursIn image.offsets token 0 image.offsets.size = true ↔ token ∈ image.offsets.toList) := by
  intro image
  have hl : image.Laid := Image.laid_empty.build history
  refine ⟨?_, ?_, hl.sorted, Image.occursIn_offsets hl token⟩
  · rw [Image.isSome_blobAt? hl token, mem_offsets_iff]
  · intro blob h
    obtain ⟨hmem, before, after, hlen, hpos, hheap⟩ := h.appended
    obtain ⟨bytes, hbytes, hdrop⟩ := Image.blobAt?_of_mem hl hmem
    refine ⟨?_, bytes, hbytes, hdrop, ?_⟩
    · intro h0
      rw [h0] at hpos
      exact absurd hpos (by decide)
    · rw [hdrop, show image.heap.toList = _ from hheap, ← hlen, List.drop_left]
      exact List.prefix_append _ _

/-- An empty blob and the text after it share a token; an offset within the text is no token. -/
theorem stringTokens_resolve_shared :
    let history : List Addition := [.blob [], .text "𝄞"]
    Issued history 1 [] ∧ Issued history 1 [5, 0x34, 0xD8, 0x1E, 0xDD, 1] ∧ (¬ ∃ blob, Issued history 2 blob) ∧
    ∃ bytes, (Image.empty.build history).blobAt? 1 = some bytes ∧ [5, 0x34, 0xD8, 0x1E, 0xDD, 1] <+: bytes.toList := by
  intro history
  have hu : units "𝄞" = [0xD834, 0xDD1E] := by decide
  have hadd : (imageAt history 1).addString "𝄞" =
      .ok 1 ⟨#[0, 5, 0x34, 0xD8, 0x1E, 0xDD, 1], #[1, 1], #[], #[]⟩ := by
    unfold Image.addString
    rw [hu]
    rfl
  have hempty : Issued history 1 [] := ⟨0, _, rfl, .blob rfl⟩
  have htext : Issued history 1 [5, 0x34, 0xD8, 0x1E, 0xDD, 1] := by
    have h : Issued history 1 (UserString.encode (units "𝄞")) := ⟨1, _, rfl, .text hadd⟩
    rwa [hu] at h
  obtain ⟨_, bytes, hbytes, _, hstart⟩ := (stringTokens_resolve history 1).2.1 _ htext
  refine ⟨hempty, htext, ?_, bytes, hbytes, hstart⟩
  have himage : Image.empty.build history = ⟨#[0, 5, 0x34, 0xD8, 0x1E, 0xDD, 1], #[1, 1], #[], #[]⟩ := by
    show (imageAt history 1).add (.text "𝄞") = _
    simp only [Image.add, hadd, left]
  rw [← mem_offsets_iff, himage]
  decide

end StackVm
