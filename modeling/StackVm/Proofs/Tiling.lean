import StackVm.Disassembly
import StackVm.Proofs.Effect
import StackVm.Proofs.Grammar

/-!
# Disassembled code is the code that runs

One decoder that reads listing after listing until it fails or has no more code
(`Decoder.Lists`) cuts the code into tiles. A program that comes to a tile
fetches the instruction listed there, and a branch leads it to the place that
the line shows.
-/

namespace StackVm

/-- The listings that a decoder reads one after another, where it reads for the last time, and the error there
unless that is the end. -/
inductive Decoder.Lists : Decoder → List Span → Nat → Option DecodeError → Prop
  | done {d : Decoder} : d.atEnd = true → Lists d [] d.pos none
  | failed {d d' : Decoder} {e : DecodeError} : d.atEnd = false → d.listing = (.error e, d') → Lists d [] d.pos (some e)
  | next {d d' : Decoder} {l : Listing} {ss : List Span} {stop : Nat} {e : Option DecodeError} : d.atEnd = false →
      d.listing = (.ok l, d') → Lists d' ss stop e → Lists d (⟨d.pos, l, d'.pos⟩ :: ss) stop e

/-- The spans follow one another without gap or overlap from `lo` to `hi`, and none is empty. -/
def Tiles (lo : Nat) : List Span → Nat → Prop
  | [], hi => hi = lo
  | s :: ss, hi => s.start = lo ∧ lo < s.stop ∧ Tiles s.stop ss hi

theorem Tiles.length_le : ∀ {ss : List Span} {lo hi : Nat}, Tiles lo ss hi → lo + ss.length ≤ hi
  | [], _, _, h => Nat.le_of_eq h.symm
  | s :: ss, lo, hi, ⟨_, hlt, h⟩ => by
    have hle := h.length_le
    simp only [List.length_cons]
    omega

section
variable {code : Code} {pos : Nat}

theorem le_size_of_listingAt {l : Listing} {next : Nat} (h : listingAt code pos = .ok (l, next)) :
    next ≤ code.size := by
  rcases listingAt_cases code pos with ⟨op, operand, ho⟩ | ⟨op, operand, stop, _, he⟩ | ⟨value, announcing, _, hu⟩
  · have hle := ho.bytes.length_le
    have hlt := (lt_of_listingAt h).2
    rw [listingAt_of_opens ho] at h
    rw [List.length_append, ho.length, length_rest] at hle
    cases h
    omega
  · rw [h] at he
    cases he
  · rw [h] at hu
    cases hu

theorem Decoder.listing_ofCode_ok {l : Listing} {next : Nat} (h : listingAt code pos = .ok (l, next)) :
    (ofCode code pos).listing = (.ok l, ofCode code next) := by
  simp only [listing, ofCode, h]

theorem Decoder.listing_ofCode_error {f : DecodeFailure} (h : listingAt code pos = .error f) :
    (ofCode code pos).listing = (.error f.error, ofCode code f.stop) := by
  simp only [listing, ofCode, h]

theorem spansFrom_lists (code : Code) (pos : Nat) (acc : Array Span) : ∃ ss stop e,
    spansFrom code pos acc = (acc ++ ss.toArray, e) ∧ (Decoder.ofCode code pos).Lists ss stop e := by
  fun_induction spansFrom code pos acc with
  | case1 pos acc hend => exact ⟨[], pos, none, by simp, .done (decide_eq_true hend)⟩
  | case2 pos acc hmore f hl =>
    exact ⟨[], pos, some f.error, by simp, .failed (decide_eq_false hmore) (Decoder.listing_ofCode_error hl)⟩
  | case3 pos acc hmore l next hl _ ih =>
    obtain ⟨ss, stop, e, hs, h⟩ := ih
    refine ⟨⟨pos, l, next⟩ :: ss, stop, e, ?_, .next (decide_eq_false hmore) (Decoder.listing_ofCode_ok hl) h⟩
    rw [hs]
    simp

end

namespace Decoder

variable {d : Decoder} {ss : List Span} {stop : Nat} {e : Option DecodeError}

theorem listing_ok_inv {d' : Decoder} {l : Listing} (h : d.listing = (.ok l, d')) :
    listingAt d.code d.pos = .ok (l, d'.pos) ∧ d'.code = d.code := by
  unfold listing at h
  split at h
  · next hl =>
    cases h
    exact ⟨hl, rfl⟩
  · cases h

theorem Lists.tiles (h : d.Lists ss stop e) : Tiles d.pos ss stop := by
  induction h with
  | done _ | failed _ _ => exact rfl
  | next _ hl _ ih => exact ⟨rfl, (lt_of_listingAt (listing_ok_inv hl).1).1, ih⟩

theorem Lists.listingAt (h : d.Lists ss stop e) :
    ∀ s ∈ ss, StackVm.listingAt d.code s.start = .ok (s.listing, s.stop) := by
  induction h with
  | done _ | failed _ _ => simp
  | next _ hl _ ih =>
    obtain ⟨hat, hcode⟩ := listing_ok_inv hl
    intro s hs
    rcases List.mem_cons.mp hs with rfl | hs
    · exact hat
    · rw [← hcode]
      exact ih s hs

theorem Lists.ending (h : d.Lists ss stop e) (hd : d.pos ≤ d.code.size) :
    (e = none ∧ stop = d.code.size) ∨
    ∃ err, e = some err ∧ stop < d.code.size ∧ decodeAt d.code stop = .error err := by
  induction h with
  | @done d hend =>
    have hle := of_decide_eq_true hend
    exact .inl ⟨rfl, by omega⟩
  | @failed d d' err hmore hl =>
    have hlt := of_decide_eq_false hmore
    refine .inr ⟨err, rfl, by omega, ?_⟩
    unfold decodeAt
    unfold listing at hl
    split at hl
    · cases hl
    · cases hl
      rfl
  | next _ hl _ ih =>
    obtain ⟨hat, hcode⟩ := listing_ok_inv hl
    -- an instruction ends within the code, so the next decoder begins within it as well
    rw [← hcode]
    apply ih
    rw [hcode]
    exact le_size_of_listingAt hat

end Decoder

/-! ## Programs -/

namespace Span

def target (s : Span) (d : Int32) : Int := s.stop + d.toInt

def lineTo (s : Span) (target : Nat) : String :=
  hex 4 s.start ++ ": " ++ (Disassembly.padded 16 s.listing.text ++ " ; -> " ++ hex 4 target)

/-- A program does what the line of the span shows. A line has room for 64 bits. -/
structure Describes (s : Span) (p : Program) : Prop where
  fetches : Program.fetch { p with pc := s.start } = .ok (s.start, s.listing.instruction) { p with pc := s.stop }
  leads : ∀ d, s.listing.instruction.branchOffset? = some d → ∀ n : Nat, s.target d = n → n ≤ p.method.code.size →
    Program.branch s.start d { p with pc := s.stop } = .ok () { p with pc := n } ∧
      (p.method.code.size < 0x8000000000000000 → Disassembly.line s = s.lineTo n)
  refuses : ∀ d, s.listing.instruction.branchOffset? = some d → (s.target d < 0 ∨ p.method.code.size < s.target d) →
    Program.branch s.start d { p with pc := s.stop } =
        .error (.branchOutOfBounds s.start (s.target d)) { p with pc := s.stop } ∧
      Disassembly.line s = s.lineTo (word64 (s.target d))

theorem line_of_branch {s : Span} {d : Int32} (h : s.listing.instruction.branchOffset? = some d) :
    Disassembly.line s = s.lineTo (word64 (s.target d)) := by
  simp only [Disassembly.line, h, lineTo, target]

theorem describes_of_listingAt {s : Span} {p : Program}
    (h : listingAt p.method.code s.start = .ok (s.listing, s.stop)) : s.Describes p := by
  have hat : decodeAt p.method.code s.start = .ok (s.listing.instruction, s.stop) := by
    simp only [decodeAt, h]
  refine ⟨Machine.programFetch_of_decodeAt (p := { p with pc := s.start }) hat, ?_, ?_⟩
  · intro d hd n hn hle
    constructor
    · have hn' : (s.stop : Int) + d.toInt = n := hn
      simp only [Program.branch, hn']
      rw [if_pos (by omega), Int.toNat_natCast]
    · intro hsize
      rw [line_of_branch hd, hn, word64, Int.emod_eq_of_lt (by omega) (by omega), Int.toNat_natCast]
  · intro d hd hout
    refine ⟨if_neg ?_, line_of_branch hd⟩
    intro hin
    have hin : 0 ≤ s.target d ∧ s.target d ≤ p.method.code.size := hin
    omega

end Span

/-- The disassembler's loop ends. Its spans tile the code up to where it ends, a program over the code behaves as
their lines show, and if the loop does not end with the code, then a fetch fails there with the same error. -/
theorem disassembly_is_execution (code : Code) : ∃ ss stop e,
    spans code = (ss.toArray, e) ∧ disassemble code = (ss.map Disassembly.line, e) ∧
    (Decoder.ofCode code 0).Lists ss stop e ∧ Tiles 0 ss stop ∧ ss.length ≤ code.size ∧
    (∀ s ∈ ss, ∀ p : Program, p.method.code = code → s.Describes p) ∧
    ((e = none ∧ stop = code.size) ∨
      ∃ err, e = some err ∧ stop < code.size ∧ ∀ p : Program, p.method.code = code →
        Program.fetch { p with pc := stop } = .error (.decode err) { p with pc := stop }) := by
  obtain ⟨ss, stop, e, hall, h⟩ := spansFrom_lists code 0 #[]
  have hspans : spans code = (ss.toArray, e) := by simp [spans, hall]
  have hend := h.ending (Nat.zero_le _)
  refine ⟨ss, stop, e, hspans, by simp [disassemble, hspans], h, h.tiles, ?_, ?_, ?_⟩
  · have hle := h.tiles.length_le
    rcases hend with ⟨_, hstop⟩ | ⟨_, _, hstop, _⟩
    · have hstop : stop = code.size := hstop
      omega
    · have hstop : stop < code.size := hstop
      omega
  · rintro s hs p rfl
    exact Span.describes_of_listingAt (h.listingAt s hs)
  · rcases hend with hdone | ⟨err, he, hstop, hat⟩
    · exact .inl hdone
    · refine .inr ⟨err, he, hstop, ?_⟩
      rintro p rfl
      exact Machine.programFetch_of_decodeAt_error (p := { p with pc := stop }) hstop hat

/-- Two branches, one to the code's broken last instruction and one to a place before the code. -/
theorem disassembly_is_execution_astray :
    let p : Program := .ofMethod ⟨#[0x2B, 0x02, 0x2B, 0xFB, 0x72], 0, 0⟩ .empty
    disassemble p.method.code = (["0000: br.s +2          ; -> 0004", "0002: br.s -5          ; -> ffffffffffffffff"],
      some (.truncated 4)) ∧
    Program.branch 0 2 { p with pc := 2 } = .ok () { p with pc := 4 } ∧
    Program.fetch { p with pc := 4 } = .error (.decode (.truncated 4)) { p with pc := 4 } ∧
    Program.branch 2 (-5) { p with pc := 4 } = .error (.branchOutOfBounds 2 (-1)) { p with pc := 4 } := by
  intro p
  have hp : spans p.method.code = (#[⟨0, ⟨.brS, .br 2⟩, 2⟩, ⟨2, ⟨.brS, .br (-5)⟩, 4⟩], some (.truncated 4)) := by
    decide +kernel
  obtain ⟨ss, stop, e, hs, hd, _, ht, _, hdesc, hend⟩ := disassembly_is_execution p.method.code
  rw [hp, Prod.mk.injEq] at hs
  obtain ⟨hss, rfl⟩ := hs
  cases hss
  obtain ⟨_, _, _, _, hstop⟩ := ht
  obtain rfl : stop = 4 := hstop
  refine ⟨hd.trans ?_, ?_, ?_, ?_⟩
  · decide +kernel
  · have hfirst := hdesc ⟨0, ⟨.brS, .br 2⟩, 2⟩ (by decide) p rfl
    exact (hfirst.leads 2 rfl 4 (by decide) (by decide)).1
  · rcases hend with ⟨h, _⟩ | ⟨err, h, _, hf⟩
    · cases h
    · cases h
      exact hf p rfl
  · have hsecond := hdesc ⟨2, ⟨.brS, .br (-5)⟩, 4⟩ (by decide) p rfl
    exact (hsecond.refuses (-5) rfl (.inl (by decide))).1

end StackVm
