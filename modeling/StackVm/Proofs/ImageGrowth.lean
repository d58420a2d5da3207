import StackVm.Image
import StackVm.Proofs.FrameOps

/-!
# Histories of an image

An image is built by additions, some of which it may refuse. Whatever is added,
the heap, the offsets and both tables of methods only grow at their ends
(`extends_build`).
-/

namespace StackVm

inductive Addition where
  | text (t : String)
  | blob (bytes : List UInt8)
  | ref (s : Signature)
  | method (m : Method)

namespace Image

/-- The image after an addition, which it may have refused. -/
def add (image : Image) : Addition → Image
  | .text t => left (addString t image)
  | .blob bytes => left (addBlob bytes image)
  | .ref s => (image.addRef s).2
  | .method m => (image.addDef m).2

def build (image : Image) (history : List Addition) : Image := history.foldl add image

theorem build_append (image : Image) (history later : List Addition) :
    image.build (history ++ later) = (image.build history).build later := List.foldl_append ..

theorem build_take_succ (image : Image) {history : List Addition} {k : Nat} {a : Addition} (hk : history[k]? = some a) :
    image.build (history.take (k + 1)) = (image.build (history.take k)).add a := by
  rw [List.take_add_one, hk, build_append]
  rfl

/-! ## Images only grow -/

structure Extends (image later : Image) : Prop where
  heap : image.heap.toList <+: later.heap.toList
  offsets : image.offsets.toList <+: later.offsets.toList
  refs : image.refs.toList <+: later.refs.toList
  defs : image.defs.toList <+: later.defs.toList

theorem Extends.refl (image : Image) : Extends image image :=
  ⟨List.prefix_rfl, List.prefix_rfl, List.prefix_rfl, List.prefix_rfl⟩

theorem Extends.trans {a b c : Image} (h : Extends a b) (h' : Extends b c) : Extends a c :=
  ⟨h.heap.trans h'.heap, h.offsets.trans h'.offsets, h.refs.trans h'.refs, h.defs.trans h'.defs⟩

theorem addBlob_of_lt {image : Image} (h : image.heap.size < 0x10000) (blob : List UInt8) :
    addBlob blob image = .ok image.heap.size.toUInt16 { image with
      heap := image.heap.appendList blob, offsets := image.offsets.push image.heap.size.toUInt16 } := if_pos h

theorem addBlob_of_le {image : Image} (h : 0x10000 ≤ image.heap.size) (blob : List UInt8) :
    addBlob blob image = .error .heapFull image := if_neg (Nat.not_lt.mpr h)

/-- What adding a blob to the heap does, whether the heap has room or not. -/
theorem addBlob_cases (image : Image) (blob : List UInt8) :
    (0x10000 ≤ image.heap.size ∧ addBlob blob image = .error .heapFull image) ∨
    ∃ (token : UInt16) (after : Image), addBlob blob image = .ok token after ∧ token.toNat = image.heap.size ∧
      after.heap.toList = image.heap.toList ++ blob ∧ after.offsets.toList = image.offsets.toList ++ [token] ∧
      after.refs = image.refs ∧ after.defs = image.defs := by
  rcases Nat.lt_or_ge image.heap.size 0x10000 with h | h
  · refine .inr ⟨_, _, addBlob_of_lt h blob, ?_, ?_, ?_, rfl, rfl⟩
    · simp
      omega
    · simp
    · simp
  · exact .inl ⟨h, addBlob_of_le h blob⟩

theorem addString_of_le {text : String} (h : (units text).length ≤ 63) :
    addString text = addBlob (UserString.encode (units text)) := by
  refine if_neg ?_
  unfold UserString.maxLength
  omega

theorem addString_of_lt {text : String} (h : 63 < (units text).length) (image : Image) :
    addString text image = .error (.stringTooLong (units text).length) image := by
  have hlong : (units text).length * 2 + 1 > UserString.maxLength := by
    unfold UserString.maxLength
    omega
  unfold addString
  rw [if_pos hlong]
  rfl

/-- What is refused leaves the image as it was. -/
theorem eq_of_addBlob_error {image after : Image} {blob : List UInt8} {e : ImageError}
    (h : addBlob blob image = .error e after) : after = image := by
  rcases addBlob_cases image blob with ⟨_, hb⟩ | ⟨_, _, hb, _⟩
  · rw [hb] at h
    cases h
    rfl
  · rw [hb] at h
    cases h

theorem eq_of_addString_error {image after : Image} {text : String} {e : ImageError}
    (h : addString text image = .error e after) : after = image := by
  rcases Nat.lt_or_ge 63 (units text).length with hlong | hshort
  · rw [addString_of_lt hlong] at h
    cases h
    rfl
  · rw [addString_of_le hshort] at h
    exact eq_of_addBlob_error h

/-- An addition to the heap is refused or appends some blob. -/
theorem add_text_cases (image : Image) (text : String) :
    image.add (.text text) = image ∨ image.add (.text text) = image.add (.blob (UserString.encode (units text))) := by
  rcases Nat.lt_or_ge 63 (units text).length with h | h
  · left
    rw [add, addString_of_lt h]
    rfl
  · right
    rw [add, addString_of_le h]
    rfl

theorem extends_add (image : Image) (a : Addition) : Extends image (image.add a) := by
  have hblob : ∀ blob, Extends image (image.add (.blob blob)) := by
    intro blob
    rcases addBlob_cases image blob with ⟨_, h⟩ | ⟨token, after, h, _, hheap, hoffs, hrefs, hdefs⟩
    · rw [add, h]
      exact .refl image
    · rw [add, h]
      exact ⟨⟨_, hheap.symm⟩, ⟨_, hoffs.symm⟩, hrefs ▸ List.prefix_rfl, hdefs ▸ List.prefix_rfl⟩
  cases a with
  | blob bytes => exact hblob bytes
  | text t =>
    rcases add_text_cases image t with h | h
    · rw [h]
      exact .refl image
    · rw [h]
      exact hblob _
  | ref s => exact ⟨List.prefix_rfl, List.prefix_rfl, ⟨[s], by simp [add, addRef]⟩, List.prefix_rfl⟩
  | method m => exact ⟨List.prefix_rfl, List.prefix_rfl, List.prefix_rfl, ⟨[m], by simp [add, addDef]⟩⟩

theorem extends_build (image : Image) (history : List Addition) : Extends image (image.build history) := by
  induction history generalizing image with
  | nil => exact .refl image
  | cons a history ih => exact (extends_add image a).trans (ih (image.add a))

end Image

end StackVm
