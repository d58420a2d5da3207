import StackVm.Proofs.Tiling

/-!
# Decoders in use

A decoder may be asked for the next instruction, for an instruction or for a
listing, in any order. Every answer takes some bytes from the code (`Takes`),
never more than are left. Only `next` looks at the mark of a failure and only
`next` sets it, so whether it has an answer is known from its own past.
-/

namespace StackVm

/-! ## Where reading stops -/

/-- The opcode bytes at the front of `rest`: one, or two that begin with the escape byte, or what there is of them. -/
def opcodeBytes : List UInt8 → List UInt8
  | first :: second :: _ => if first = Opcode.escape then [first, second] else [first]
  | short => short

/-- How much of the operand is taken from an instruction that is cut short: the token of a string whose tag is not
there in full. -/
def tokenBytes (rest : List UInt8) : Nat :=
  if Opcode.ldstr.encode <+: rest ∧ 3 ≤ rest.length ∧ rest.length < 5 then 2 else 0

theorem opcodeBytes_start (rest : List UInt8) : opcodeBytes rest <+: rest := by
  match rest with
  | [] | [_] => exact List.prefix_rfl
  | first :: second :: more =>
    by_cases he : first = Opcode.escape
    · exact ⟨more, by simp [opcodeBytes, he]⟩
    · exact ⟨second :: more, by simp [opcodeBytes, he]⟩

theorem length_opcodeBytes_pos {rest : List UInt8} (h : rest ≠ []) : 0 < (opcodeBytes rest).length := by
  match rest with
  | [] => exact absurd rfl h
  | [_] => exact Nat.one_pos
  | first :: second :: more =>
    simp only [opcodeBytes]
    split <;> simp

theorem opcodeBytes_of_ldstr {rest : List UInt8} (h : Opcode.ldstr.encode <+: rest) :
    opcodeBytes rest = Opcode.ldstr.encode := by
  obtain ⟨more, rfl⟩ := h
  cases more with
  | nil => rfl
  | cons second more => rfl

theorem length_opcodeBytes_add_tokenBytes (rest : List UInt8) :
    (opcodeBytes rest).length + tokenBytes rest ≤ rest.length := by
  by_cases h : Opcode.ldstr.encode <+: rest ∧ 3 ≤ rest.length ∧ rest.length < 5
  · rw [tokenBytes, if_pos h, opcodeBytes_of_ldstr h.1]
    exact h.2.1
  · rw [tokenBytes, if_neg h]
    exact (opcodeBytes_start rest).length_le

section
variable {code : Code} {pos : Nat}

theorem readOpcode_stop (code : Code) (pos : Nat) :
    (∃ value, readOpcode code pos = .ok (value, pos + (opcodeBytes (code.toList.drop pos)).length)) ∨
    (code.toList.drop pos).length < 3 ∧
      readOpcode code pos = .error (pos + (opcodeBytes (code.toList.drop pos)).length) := by
  have h0 := getElem?_add code pos 0
  have h1 := getElem?_add code pos 1
  unfold readOpcode
  match hr : code.toList.drop pos with
  | [] =>
    simp [hr] at h0
    simp [h0, opcodeBytes]
  | [first] =>
    simp [hr] at h0 h1
    by_cases he : first = Opcode.escape
    · simp [h0, h1, he, opcodeBytes]
    · simp [h0, he, opcodeBytes]
  | first :: second :: more =>
    simp [hr] at h0 h1
    by_cases he : first = Opcode.escape
    · simp [h0, h1, he, opcodeBytes]
    · simp [h0, he, opcodeBytes]

theorem exists_readLE? : ∀ {width pos : Nat}, pos + width ≤ code.size → ∃ n, readLE? code pos width = some n
  | 0, _, _ => ⟨0, rfl⟩
  | width + 1, pos, h => by
    obtain ⟨high, hhigh⟩ := @exists_readLE? width (pos + 1) (by omega)
    have hlow : code[pos]? = some code[pos] := Array.getElem?_eq_getElem (by omega)
    refine ⟨code[pos].toNat + 256 * high, ?_⟩
    simp only [readLE?, hlow, hhigh, Option.bind_eq_bind, Option.bind_some]

theorem fields_of_ne_ldstr {op : Opcode} (h : op ≠ .ldstr) : op.fields = [] ∨ ∃ width, op.fields = [width] := by
  cases op with
  | ldstr => exact absurd rfl h
  | _ => simp [Opcode.fields]

theorem stop_of_readFields {op : Opcode} {stop : Nat} (h : readFields code pos op.fields = .error stop) :
    stop = pos + if op = .ldstr ∧ pos + 2 ≤ code.size then 2 else 0 := by
  by_cases hop : op = .ldstr
  · subst hop
    simp only [Opcode.fields, readFields] at h
    by_cases hroom : pos + 2 ≤ code.size
    · obtain ⟨n, hn⟩ := exists_readLE? hroom
      simp only [hn] at h
      split at h
      · cases h
      · next hs =>
        split at hs
        · cases hs
          cases h
          simp [hroom]
        · cases hs
    · have hn : readLE? code pos 2 = none := by
        cases hn : readLE? code pos 2 with
        | none => rfl
        | some n =>
          have hle := le_of_readLE? hn
          omega
      simp only [hn] at h
      cases h
      simp [hroom]
  · rcases fields_of_ne_ldstr hop with hf | ⟨width, hf⟩
    · rw [hf] at h
      cases h
    · rw [hf] at h
      simp only [readFields] at h
      split at h <;> cases h
      simp [hop]

theorem eq_ldstr_iff {value : UInt16} {next : Nat} {op : Opcode} (hv : readOpcode code pos = .ok (value, next))
    (hop : Opcode.ofCode? value = some op) : op = .ldstr ↔ Opcode.ldstr.encode <+: code.toList.drop pos := by
  constructor
  · rintro rfl
    rcases readOpcode_cases code pos with ⟨_, stop, hs⟩ | ⟨value', bytes, hb, _, hencode, hv'⟩
    · rw [hv] at hs
      cases hs
    · rw [hv] at hv'
      cases hv'
      rw [hencode .ldstr (Opcode.code_of_ofCode? hop)]
      exact hb
  · intro hp
    rw [readOpcode_of_hasAt (hasAt_iff.mpr hp), Except.ok.injEq, Prod.mk.injEq] at hv
    rw [← hv.1, ofCode?_code] at hop
    exact (Option.some.inj hop).symm

theorem length_lt_of_ldstr {f : DecodeFailure} (h : listingAt code pos = .error f)
    (hp : Opcode.ldstr.encode <+: code.toList.drop pos) : (code.toList.drop pos).length < 5 := by
  rcases listingAt_of_encode hp with ⟨operand, ho⟩ | ⟨operand, stop, he, _⟩
  · rw [listingAt_of_opens ho] at h
    cases h
  · exact he.length_lt

theorem stop_of_listingAt {f : DecodeFailure} (h : listingAt code pos = .error f) :
    f.stop = pos + (opcodeBytes (code.toList.drop pos)).length + tokenBytes (code.toList.drop pos) := by
  have hlen := length_rest code pos
  have hshort := length_lt_of_ldstr h
  unfold listingAt at h
  rcases readOpcode_stop code pos with ⟨value, hv⟩ | ⟨hlt, hs⟩
  · simp only [hv] at h
    split at h
    · next hmissing =>
      have hno : ¬ Opcode.ldstr.encode <+: code.toList.drop pos := by
        intro hp
        rw [readOpcode_of_hasAt (hasAt_iff.mpr hp), Except.ok.injEq, Prod.mk.injEq] at hv
        rw [← hv.1, ofCode?_code] at hmissing
        cases hmissing
      cases h
      -- an opcode that is not known is not that of a string load
      simp [tokenBytes, hno]
    · next op hop =>
      split at h
      · next stop hfields =>
        cases h
        have hiff := eq_ldstr_iff hv hop
        rw [stop_of_readFields hfields]
        by_cases hp : Opcode.ldstr.encode <+: code.toList.drop pos
        · have hlt : code.size - pos < 5 := hlen ▸ hshort hp
          have hroom : pos + 1 + 2 ≤ code.size ↔ 3 ≤ code.size - pos := by omega
          rw [opcodeBytes_of_ldstr hp, show Opcode.ldstr.encode.length = 1 from rfl, tokenBytes]
          simp only [hp, hiff, hlen, hroom, hlt, true_and, and_true]
        · simp [tokenBytes, hp, hiff]
      · cases h
  · simp only [hs] at h
    cases h
    rw [tokenBytes, if_neg (by omega)]
    rfl

end

namespace Decoder

/-! ## Requests -/

inductive Request where
  | next | decode | listing

inductive Response where
  | nothing
  | instruction (i : Instruction)
  | listing (l : Listing)
  | failure (e : DecodeError)

namespace Response

def ofInstruction : Except DecodeError Instruction → Response
  | .ok i => instruction i
  | .error e => failure e

def ofListing : Except DecodeError Listing → Response
  | .ok l => listing l
  | .error e => failure e

def Shows (l : Listing) : Response → Prop
  | instruction i => i = l.instruction
  | listing l' => l' = l
  | nothing | failure _ => False

end Response

def ask (d : Decoder) : Request → Response × Decoder
  | .next =>
    match d.next? with
    | (none, d) => (.nothing, d)
    | (some r, d) => (.ofInstruction r, d)
  | .decode => (.ofInstruction d.decode.1, d.decode.2)
  | .listing => (.ofListing d.listing.1, d.listing.2)

/-- How many bytes of `rest` a response takes: the instruction that it shows, or what a failure has read of the
opcode and of a string token. -/
inductive Takes (rest : List UInt8) : Response → Nat → Prop
  | nothing : Takes rest .nothing 0
  | success {op : Opcode} {operand : List UInt8} {response : Response} : op.Opens operand rest →
      response.Shows ⟨op, op.decoded operand⟩ → Takes rest response (op.encode.length + op.operandSize)
  | failure {e : DecodeError} : (∀ (op : Opcode) (operand : List UInt8), ¬ op.Opens operand rest) →
      Takes rest (.failure e) ((opcodeBytes rest).length + tokenBytes rest)

theorem Takes.le {rest : List UInt8} {response : Response} {n : Nat} (h : Takes rest response n) :
    n ≤ rest.length := by
  cases h with
  | nothing => exact Nat.zero_le _
  | success ho _ =>
    have hle := ho.bytes.length_le
    rwa [List.length_append, ho.length] at hle
  | failure _ => exact length_opcodeBytes_add_tokenBytes rest

theorem Takes.pos {rest : List UInt8} {response : Response} {n : Nat} (h : Takes rest response n)
    (hr : response ≠ .nothing) (hrest : rest ≠ []) : 0 < n := by
  cases h with
  | nothing => exact absurd rfl hr
  | @success op _ _ _ _ => exact Nat.add_pos_left (length_encode_pos op) _
  | failure _ => exact Nat.add_pos_left (length_opcodeBytes_pos hrest) _

variable {d : Decoder}

theorem listing_takes (d : Decoder) :
    ∃ n, d.listing.2 = { d with pos := d.pos + n } ∧ Takes d.rest (.ofListing d.listing.1) n := by
  cases hl : listingAt d.code d.pos with
  | ok x =>
    obtain ⟨⟨op, i⟩, next⟩ := x
    have h : d.listing = (.ok ⟨op, i⟩, { d with pos := next }) := by simp only [listing, hl]
    obtain ⟨operand, ho, rfl, rfl⟩ := listing_eq_ok_iff.mp h
    rw [h, Nat.add_assoc]
    exact ⟨_, rfl, .success ho rfl⟩
  | error f =>
    have h : d.listing = (.error f.error, { d with pos := f.stop }) := by simp only [listing, hl]
    have hno : ∀ (op : Opcode) (operand : List UInt8), ¬ op.Opens operand d.rest := by
      intro op operand ho
      rw [listingAt_of_opens ho] at hl
      cases hl
    rw [h, stop_of_listingAt hl, Nat.add_assoc]
    exact ⟨_, rfl, .failure hno⟩

theorem decode_takes (d : Decoder) :
    ∃ n, d.decode.2 = { d with pos := d.pos + n } ∧ Takes d.rest (.ofInstruction d.decode.1) n := by
  obtain ⟨n, hd, hn⟩ := d.listing_takes
  refine ⟨n, hd, ?_⟩
  have hdecode : d.decode.1 = d.listing.1.map (·.instruction) := rfl
  rw [hdecode]
  cases hl : d.listing.1 with
  | error e =>
    rw [hl] at hn
    cases hn with
    | success _ hs => exact absurd hs id
    | failure hno => exact .failure hno
  | ok l =>
    rw [hl] at hn
    cases hn with
    | success ho hs => exact .success ho (congrArg Listing.instruction hs)

theorem ask_next_cases (d : Decoder) :
    ((d.code.size ≤ d.pos ∨ d.failed = true) ∧ d.ask .next = (.nothing, d)) ∨
    (d.pos < d.code.size ∧ d.failed = false) ∧ ∃ n,
      ((∃ i, d.ask .next = (.instruction i, ⟨d.code, d.pos + n, false⟩) ∧ Takes d.rest (.instruction i) n) ∨
        ∃ e, d.ask .next = (.failure e, ⟨d.code, d.pos + n, true⟩) ∧ Takes d.rest (.failure e) n) := by
  by_cases h : d.code.size ≤ d.pos ∨ d.failed = true
  · have hstop : (d.atEnd || d.failed) = true := by simpa [atEnd] using h
    exact .inl ⟨h, by simp only [ask, next?, hstop, if_true]⟩
  · obtain ⟨hlt, hf⟩ : d.pos < d.code.size ∧ d.failed = false := by simpa using h
    have hend : d.atEnd = false := decide_eq_false (Nat.not_le.mpr hlt)
    obtain ⟨n, hd, hn⟩ := d.decode_takes
    refine .inr ⟨⟨hlt, hf⟩, n, ?_⟩
    cases hr : d.decode with
    | mk r d' =>
      rw [hr] at hd hn
      cases hd
      cases r with
      | ok i => exact .inl ⟨i, by simp [ask, next?, hend, hr, hf, Response.ofInstruction], hn⟩
      | error e => exact .inr ⟨e, by simp [ask, next?, hend, hr, hf, Response.ofInstruction], hn⟩

theorem ask_takes (d : Decoder) (r : Request) : ∃ n failed, (d.ask r).2 = ⟨d.code, d.pos + n, failed⟩ ∧
    Takes d.rest (d.ask r).1 n ∧ (failed = true ↔ d.failed = true ∨ r = .next ∧ ∃ e, (d.ask r).1 = .failure e) := by
  cases r with
  | decode =>
    obtain ⟨n, hd, hn⟩ := d.decode_takes
    exact ⟨n, d.failed, hd, hn, by simp⟩
  | listing =>
    obtain ⟨n, hd, hn⟩ := d.listing_takes
    exact ⟨n, d.failed, hd, hn, by simp⟩
  | next =>
    rcases d.ask_next_cases with ⟨_, h⟩ | ⟨⟨_, hf⟩, n, ⟨i, h, hn⟩ | ⟨e, h, hn⟩⟩
    · rw [h]
      exact ⟨0, d.failed, rfl, .nothing, by simp⟩
    · rw [h]
      exact ⟨n, false, rfl, hn, by simp [hf]⟩
    · rw [h]
      exact ⟨n, true, rfl, hn, by simp⟩

theorem Response.ofInstruction_ne_nothing (r : Except DecodeError Instruction) : ofInstruction r ≠ .nothing := by
  cases r <;> simp [ofInstruction]

theorem Response.ofListing_ne_nothing (r : Except DecodeError Listing) : ofListing r ≠ .nothing := by
  cases r <;> simp [ofListing]

theorem ask_next_eq_nothing_iff : (d.ask .next).1 = .nothing ↔ d.code.size ≤ d.pos ∨ d.failed = true := by
  rcases d.ask_next_cases with ⟨hstop, h⟩ | ⟨⟨hlt, hf⟩, n, ⟨i, h, _⟩ | ⟨e, h, _⟩⟩
  · simp [h, hstop]
  · simp [h, hf, Nat.not_le.mpr hlt]
  · simp [h, hf, Nat.not_le.mpr hlt]

/-! ## Histories -/

inductive History (d₀ : Decoder) : List (Request × Response) → Decoder → Prop
  | start : History d₀ [] d₀
  | ask {past : List (Request × Response)} {d : Decoder} (r : Request) : History d₀ past d →
      History d₀ (past ++ [(r, (d.ask r).1)]) (d.ask r).2

variable {d₀ : Decoder} {past : List (Request × Response)}

theorem History.bounds (h : History d₀ past d) (h₀ : d₀.pos ≤ d₀.code.size) :
    d.code = d₀.code ∧ d₀.pos ≤ d.pos ∧ d.pos ≤ d.code.size := by
  induction h with
  | start => exact ⟨rfl, Nat.le_refl _, h₀⟩
  | @ask past d r _ ih =>
    obtain ⟨hcode, hle, hsize⟩ := ih
    obtain ⟨n, failed, hd, hn, _⟩ := d.ask_takes r
    have hroom : n ≤ d.code.size - d.pos := length_rest d.code d.pos ▸ hn.le
    rw [hd]
    refine ⟨hcode, ?_, ?_⟩
    · show d₀.pos ≤ d.pos + n
      omega
    · show d.pos + n ≤ d.code.size
      omega

theorem History.failed_iff (h : History d₀ past d) (h₀ : d₀.failed = false) :
    d.failed = true ↔ ∃ e, (.next, .failure e) ∈ past := by
  induction h with
  | start => simp [h₀]
  | @ask past d r _ ih =>
    obtain ⟨n, failed, hd, _, hf⟩ := d.ask_takes r
    rw [hd]
    show failed = true ↔ _
    rw [hf, ih]
    simp [exists_or, eq_comm]

/-- All that `next` has answered: instructions, then at most one failure, then nothing any more. -/
theorem History.items (h : History d₀ past d) (hnext : ∀ x ∈ past, x.1 = .next) :
    ∃ (is : List Instruction) (e : Option DecodeError) (n : Nat),
      past.map Prod.snd = is.map .instruction ++ e.toList.map .failure ++ List.replicate n .nothing ∧
      d₀.pos + (is.length + e.toList.length) ≤ d.pos ∧ (e = none ∨ d.failed = true) ∧
      (n = 0 ∨ d.code.size ≤ d.pos ∨ d.failed = true) := by
  induction h with
  | start => exact ⟨[], none, 0, rfl, Nat.le_refl _, .inl rfl, .inl rfl⟩
  | @ask past d r _ ih =>
    obtain rfl : r = .next := hnext (r, (d.ask r).1) (List.mem_append_right _ (List.mem_singleton_self _))
    obtain ⟨is, e, n, hpast, hle, he, hn⟩ := ih fun x hx => hnext x (List.mem_append_left _ hx)
    rw [List.map_append, hpast]
    rcases d.ask_next_cases with ⟨hstop, hask⟩ | ⟨⟨hlt, hf⟩, k, hask⟩
    · rw [hask]
      exact ⟨is, e, n + 1, by simp [List.replicate_succ'], hle, he, .inr hstop⟩
    · -- it has not failed before and has not said nothing
      obtain rfl : e = none := he.resolve_right (by simp [hf])
      obtain rfl : n = 0 := hn.resolve_right (by simp [hf, hlt])
      have hrest : d.rest ≠ [] := by
        apply List.ne_nil_of_length_pos
        rw [rest, length_rest]
        omega
      rcases hask with ⟨i, hask, hk⟩ | ⟨e', hask, hk⟩
      · have hpos := hk.pos (by simp) hrest
        rw [hask]
        exact ⟨is ++ [i], none, 0, by simp, by simp at hle ⊢; omega, .inl rfl, .inl rfl⟩
      · have hpos := hk.pos (by simp) hrest
        rw [hask]
        exact ⟨is, some e', 0, by simp, by simp at hle ⊢; omega, .inr rfl, .inl rfl⟩

end Decoder

/-- However a decoder is asked, its cursor only moves forward and stays within the code. A success takes the bytes
of its instruction; a failure takes the opcode bytes, and the token of a string load that lacks its tag. `next` says
nothing at the end and after a failure of its own, and at no other time. -/
theorem decoder_sessions {code : Code} {pos : Nat} (hpos : pos ≤ code.size)
    {past : List (Decoder.Request × Decoder.Response)} {d : Decoder}
    (h : Decoder.History (.ofCode code pos) past d) :
    (d.code = code ∧ pos ≤ d.pos ∧ d.pos ≤ code.size) ∧
    (∀ r, ∃ n, (d.ask r).2.pos = d.pos + n ∧ d.pos + n ≤ code.size ∧ Decoder.Takes d.rest (d.ask r).1 n) ∧
    (∀ r, (d.ask r).1 = .nothing ↔ r = .next ∧ (d.pos = code.size ∨ ∃ e, (.next, .failure e) ∈ past)) ∧
    ((∀ x ∈ past, x.1 = .next) → ∃ (is : List Instruction) (e : Option DecodeError) (n : Nat),
      past.map Prod.snd = is.map .instruction ++ e.toList.map .failure ++ List.replicate n .nothing ∧
      is.length + e.toList.length ≤ code.size - pos) := by
  obtain ⟨hcode, hle, hsize⟩ : d.code = code ∧ pos ≤ d.pos ∧ d.pos ≤ d.code.size := h.bounds hpos
  rw [hcode] at hsize
  refine ⟨⟨hcode, hle, hsize⟩, ?_, ?_, ?_⟩
  · intro r
    obtain ⟨n, failed, hd, hn, _⟩ := d.ask_takes r
    have hroom : n ≤ code.size - d.pos := by
      rw [← hcode, ← length_rest]
      exact hn.le
    exact ⟨n, by rw [hd], by omega, hn⟩
  · intro r
    cases r with
    | next =>
      have hend : d.code.size ≤ d.pos ↔ d.pos = code.size := by
        rw [hcode]
        omega
      rw [Decoder.ask_next_eq_nothing_iff, h.failed_iff rfl, hend]
      simp
    | decode => simp [Decoder.ask, Decoder.Response.ofInstruction_ne_nothing]
    | listing => simp [Decoder.ask, Decoder.Response.ofListing_ne_nothing]
  · intro hnext
    obtain ⟨is, e, n, hitems, hmoved, _⟩ := h.items hnext
    refine ⟨is, e, n, hitems, ?_⟩
    simp only [Decoder.ofCode] at hmoved
    omega

theorem decoder_sessions_cut :
    let d := ((Decoder.ofCode #[0xFF, 0x72, 1, 0, 0x70] 0).ask .decode).2
    d.pos = 1 ∧ (d.ask .next).2.pos = 4 ∧ ((d.ask .next).2.ask .next).1 = .nothing := by
  refine ⟨by decide, by decide, ?_⟩
  -- the failure of `decode` left no mark, that of `next` on the string load behind it does
  refine ((decoder_sessions (Nat.zero_le _) (.ask .next (.ask .decode .start))).2.2.1 .next).mpr ⟨rfl, .inr ?_⟩
  exact ⟨_, List.mem_append_right _ (List.mem_singleton.mpr rfl)⟩

end StackVm
