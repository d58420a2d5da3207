import StackVm.Proofs.CallProtocol
import StackVm.Proofs.LastingProperties
import StackVm.Proofs.MethodTokens
import StackVm.Proofs.RegistrySafety
import StackVm.Proofs.StraightCode
import StackVm.Proofs.UserStrings

/-!
# A program that writes a line

`Sample.hello` puts a text into an image and writes code that prints it. The text
comes back from the image, is interned and reaches the console as it was, in three
steps, whatever the interpreter has interned before.
-/

namespace StackVm

/-! ## Tables of interned texts -/

theorem StringTable.texts_intern {t : StringTable} (hc : t.Consistent) (text : String) :
    (t.intern text).2.texts = if text ∈ t.texts then t.texts else t.texts.push text := by
  rcases intern_cases hc text with ⟨handle, hget, h⟩ | ⟨hnew, h⟩
  · rw [h, if_pos (Array.mem_of_getElem? hget)]
  · rw [h, if_neg]
    intro hmem
    obtain ⟨handle, hget⟩ := Array.getElem?_of_mem hmem
    exact hnew handle hget

/-! ## The console -/

def lineBytes (text : String) : Array UInt8 := text.toUTF8.data.push 10

theorem toUTF8_line (text : String) : (text ++ "\n").toUTF8.data = lineBytes text := by
  have hnewline : "\n".toByteArray.data = #[10] := by decide
  unfold lineBytes
  simp [hnewline]

def Console.Accepts (c : Console) (bytes : Array UInt8) : Prop :=
  ∀ capacity, c.capacity = some capacity → c.written.size + bytes.size ≤ capacity

theorem Console.accepts_of_open {c : Console} (h : c.capacity = none) (bytes : Array UInt8) : c.Accepts bytes := by
  intro capacity hc
  rw [h] at hc
  cases hc

theorem Console.write_of_accepts {c : Console} {bytes : Array UInt8} (h : c.Accepts bytes) :
    c.write bytes = (true, { c with written := c.written ++ bytes }) := by
  obtain ⟨written, capacity, failure⟩ := c
  cases capacity with
  | none => rfl
  | some capacity =>
    have hle : written.size + bytes.size ≤ capacity := h capacity rfl
    have hroom : bytes.size ≤ capacity - written.size := by omega
    simp [write, hroom, Array.extract_eq_self_of_le]

theorem Console.writeText_line {c : Console} {text : String} (h : c.Accepts (lineBytes text)) :
    c.writeText (text ++ "\n") = (true, { c with written := c.written ++ lineBytes text }) := by
  rw [writeText, toUTF8_line, write_of_accepts h]

/-! ## The program -/

theorem Image.resolve?_addRef {image : Image} (h : (image.rows refTable).length + 1 < 0x1000000) (s : Signature) :
    (image.addRef s).2.resolve? (image.addRef s).1 = some (.external s) := by
  have htable : refTable.toNat < 256 := by decide
  have hrows : (image.addRef s).2.rows refTable = image.rows refTable ++ [.external s] :=
    rows_add_self (a := .ref s) rfl
  have hlength : (image.rows refTable).length = image.refs.size := by
    simp [rows, refTable, defTable]
  rw [resolve?_eq, addRef, ← hlength, tokenOf_shiftRight htable, tokenOf_and_rowMask htable, Nat.mod_eq_of_lt h,
    if_neg (Nat.succ_ne_zero _), Nat.add_sub_cancel]
  show ((image.addRef s).2.rows refTable)[(image.rows refTable).length]? = _
  rw [hrows]
  simp

namespace Sample

structure Greets (p : Program) (text : String) (token : UInt16) (method : UInt32) : Prop where
  body : p.method = ⟨([.ldstr token, .call method, .ret].flatMap Emission.bytes).toArray, 1, 0⟩
  text : p.image.userString token = .ok text
  external : p.image.resolve? method = some (.external Builtin.writeLineString.signature)

theorem hello_of_lt {text : String} (h : 63 < (units text).length) :
    hello text = .error (.stringTooLong (units text).length) := by
  simp only [hello, Image.addString_of_lt h]

theorem hello_of_le {text : String} (h : (units text).length ≤ 63) :
    ∃ p token method, hello text = .ok p ∧ Greets p text token method := by
  have hroom : Image.empty.heap.size ≤ 65535 := by decide
  obtain ⟨token, image, hadd⟩ := Image.exists_addString h hroom
  obtain ⟨himage, _, _, hspells⟩ := Image.spells_of_addString hadd
  have hhello : hello text = .ok (.ofMethod
      ⟨([.ldstr token, .call (image.addRef Builtin.writeLineString.signature).1, .ret].flatMap Emission.bytes).toArray,
        1, 0⟩ (image.addRef Builtin.writeLineString.signature).2) := by
    simp only [hello, hadd]
    rfl
  have hlaid : (image.add (.ref Builtin.writeLineString.signature)).Laid := by
    rw [himage]
    exact (Image.laid_empty.add _).add _
  have hrows : (image.rows Image.refTable).length + 1 < 0x1000000 := by
    rw [himage, Image.rows_add_of_ne (a := .text text) nofun]
    decide
  refine ⟨_, token, _, hhello, rfl, ?_, Image.resolve?_addRef hrows Builtin.writeLineString.signature⟩
  exact (hspells.extends (Image.extends_add image (.ref Builtin.writeLineString.signature))).userString hlaid

end Sample

/-! ## The call -/

section
variable {f : Frame} {handle : Nat} {text : String}
variable (hd : 0 < f.stack.depth) (hv : f.stack.nth 0 = .string handle) (ht : f.strings.get? handle = some text)
include hd hv

theorem Builtin.fits_writeLineString (hc : f.stack.depth ≤ f.stack.capacity) :
    Builtin.writeLineString.signature.Fits f.stack := by
  refine ⟨hd, ?_⟩
  intro k kind hk
  cases k with
  | zero =>
    cases hk
    exact ⟨_, OperandStack.getElem?_values hd hc, by rw [hv]; rfl⟩
  | succ k => cases hk

include ht

theorem Builtin.run_writeLineString (ha : f.host.console.Accepts (lineBytes text)) :
    Builtin.writeLineString.run f = .ok () ((f.dropped 1).printed (text ++ "\n")) := by
  have hfits : (f.host.console.writeText (text ++ "\n")).1 = true := by
    rw [Console.writeText_line ha]
  refine (bind_of_ok (Frame.popString_of_get? hd hv ht)).trans ?_
  exact Frame.print_of_fits (f := f.dropped 1) hfits

theorem Machine.dispatch_writeLine (hc : f.stack.depth ≤ f.stack.capacity) {rules : Rules} {image : Image}
    {token : UInt32} (hr : image.resolve? token = some (.external Builtin.writeLineString.signature))
    (hl : rules.registry.lookup? Builtin.writeLineString.signature = some (.builtin .writeLineString))
    (ha : f.host.console.Accepts (lineBytes text)) :
    dispatch rules image token f = .ok () ((f.dropped 1).printed (text ++ "\n")) := by
  have hadmissible : Admissible rules.registry image token f _ _ := ⟨hr, hl, Builtin.fits_writeLineString hd hv hc⟩
  rw [dispatch_eq, bind_of_ok (admission_of_admissible hc hadmissible)]
  rw [Signature.conduct_of_ok (h := .builtin .writeLineString) (Builtin.run_writeLineString hd hv ht ha)]
  exact Signature.checkResult_of_void rfl rfl

end

/-! ## The run -/

section
variable {p : Program} {text : String} {token : UInt16} {method : UInt32} (hp : Sample.Greets p text token method)
variable {i : Interpreter} (hs : i.strings.Consistent) {host : Host} (ha : host.console.Accepts (lineBytes text))
variable {rules : Rules}
variable (hl : rules.registry.lookup? Builtin.writeLineString.signature = some (.builtin .writeLineString))
include hp hs ha hl

theorem Sample.Greets.straight : ∃ f, Straight rules p.image (i.start p host).frame [.ldstr token, .call method] f ∧
    f.stack.depth = 0 ∧ f.strings = (i.strings.intern text).2 ∧
    f.host.console.written = host.console.written ++ lineBytes text := by
  have hcapacity : (i.start p host).frame.stack.capacity = 1 := by
    show (OperandStack.ofCapacity p.method.maxStack.toNat).capacity = 1
    rw [hp.body]
    rfl
  have hroom : (i.start p host).frame.stack.depth < (i.start p host).frame.stack.capacity := by
    rw [hcapacity]
    exact Nat.zero_lt_one
  have hfull : ((i.start p host).frame.loaded text).stack.capacity = 1 :=
    Array.size_setIfInBounds.trans hcapacity
  have hload := Machine.effect_ldstr hp.text hroom rules
  have hwrite : Machine.dispatch rules p.image method _ = _ :=
    Machine.dispatch_writeLine Nat.zero_lt_one (Frame.nth_loaded text hroom) (StringTable.get?_intern hs text)
      (Nat.le_of_eq hfull.symm) hp.external hl ha
  refine ⟨_, .snoc (.snoc .nil hload) (Machine.andStay_of_ok hwrite), rfl, rfl, ?_⟩
  exact congrArg (fun x => x.2.written) (Console.writeText_line ha)

theorem Machine.run_greeting (hlimit : ∀ limit, rules.limit = some limit → 3 ≤ limit) {fuel : Nat} (hf : 3 ≤ fuel) :
    ∃ m, run rules fuel (i.start p host) = some (.ok none, m) ∧
      m.executed = 3 ∧ m.frame.stack.depth = 0 ∧ m.frame.strings = (i.strings.intern text).2 ∧
      m.frame.host.console.written = host.console.written ++ lineBytes text := by
  obtain ⟨f, hstraight, hdepth, hstrings, hwritten⟩ := hp.straight hs ha hl
  have hcode : HasAt p.reset.method.code 0 ([.ldstr token, .call method, .ret].flatMap Emission.bytes) := by
    rw [show p.reset.method = p.method from rfl, hp.body]
    exact hasAt_toArray _
  have hrun := hstraight.run_ret (p := p.reset) (n := 0) hcode hlimit hf
  rw [if_pos hdepth] at hrun
  exact ⟨_, hrun, rfl, hdepth, hstrings, hwritten⟩

end

/-- A text makes a program if and only if it has at most 63 units. The program writes the text and a newline, and
nothing else, in three steps, and leaves no value behind. It adds the text to those that earlier runs of the
interpreter have interned, unless it is one of them. -/
theorem hello_writes_line (text : String) :
    (∀ e, Sample.hello text = .error e ↔ 63 < (units text).length ∧ e = .stringTooLong (units text).length) ∧
    ((units text).length ≤ 63 → ∃ p, Sample.hello text = .ok p ∧
      ∀ (s₀ s : Session) (past : List (Session × Event)) (i : Interpreter), s₀.Unused → History s₀ past s →
        (∀ x ∈ past, x.2.isCommand = true) → s.interpreters[s.current]? = some i →
        (∀ b : Builtin, s.registry.lookup? b.signature = some (.builtin b)) →
        s.host.console.Accepts (lineBytes text) → (∀ limit, i.limit = some limit → 3 ≤ limit) → ∀ fuel, 3 ≤ fuel →
        ∃ s', (s.load p).run fuel = some (.ok none, s') ∧ s'.interpreter.executed = 3 ∧
          s'.interpreter.stack.depth = 0 ∧
          s'.host.console.written = s.host.console.written ++ lineBytes text ∧
          s'.interpreter.strings.texts =
            if text ∈ i.strings.texts then i.strings.texts else i.strings.texts.push text) := by
  constructor
  · intro e
    by_cases h : 63 < (units text).length
    · rw [Sample.hello_of_lt h]
      simp [h, eq_comm]
    · obtain ⟨p, _, _, hp, _⟩ := Sample.hello_of_le (Nat.le_of_not_lt h)
      rw [hp]
      simp [h]
  · intro h
    obtain ⟨p, token, method, hp, hgreets⟩ := Sample.hello_of_le h
    refine ⟨p, hp, ?_⟩
    intro s₀ s past i h₀ hpast hw hi hplugs hconsole hlimit fuel hfuel
    have hs : i.strings.Consistent := hpast.has lasting_consistent h₀ hw _ i hi s.host
    rw [← Session.interpreter_of_getElem? hi] at hlimit
    have hlookup : s.rules.registry.lookup? Builtin.writeLineString.signature = _ := hplugs .writeLineString
    obtain ⟨m, hrun, hexecuted, hdepth, hstrings, hwritten⟩ :=
      Machine.run_greeting hgreets hs hconsole hlookup hlimit hfuel
    refine ⟨(s.load p).holding .halted m, ?_, ?_⟩
    · rw [Session.run_load hi, hrun]
      rfl
    · rw [Session.interpreter_holding (Session.runnable?_load hi p), ← StringTable.texts_intern hs, ← hstrings]
      exact ⟨hexecuted, hdepth, hwritten, rfl⟩

/-- Three instructions and three bytes are allowed, and no more. -/
theorem hello_writes_line_tight : ∃ p s', Sample.hello "hi" = .ok p ∧
    ((Session.start .builtins (some 3) (some 3) 1).load p).run 3 = some (.ok none, s') ∧
    s'.host.console.written = #[0x68, 0x69, 10] ∧ s'.interpreter.strings.texts = #["hi"] := by
  have hunits : (units "hi").length ≤ 63 := by decide
  have hconsole : (Console.ofCapacity (some 3)).Accepts (lineBytes "hi") := by
    intro capacity h
    cases h
    decide
  have hlimit : ∀ limit, (Interpreter.ofLimit (some 3)).limit = some limit → 3 ≤ limit := by
    intro limit h
    cases h
    decide
  obtain ⟨p, hp, hall⟩ := (hello_writes_line "hi").2 hunits
  have hunused := Session.unused_start .builtins (some 3) (some 3) 1
  obtain ⟨s', hrun, _, _, hwritten, htexts⟩ := hall _ _ [] (.ofLimit (some 3)) hunused .start (List.forall_mem_nil _)
    rfl Registry.lookup?_builtins hconsole hlimit 3 (Nat.le_refl 3)
  refine ⟨p, s', hp, hrun, hwritten.trans ?_, htexts.trans ?_⟩
  · decide
  · exact if_neg (Array.not_mem_empty "hi")

end StackVm
