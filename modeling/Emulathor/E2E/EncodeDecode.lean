import Emulathor.Assembler.Proof.Line
import Emulathor.Cpu.Emulator
import Emulathor.Cpu.Proof.Fetch
import Emulathor.Disassembler.LibVasmdis

/-!
# The encoder and the two decoders

`decoders_agree`: the CPU, which fetches a dword and takes it apart again, and the disassembler,
which reads the raw bytes, cut any four bytes into the same fields; and the fields of an instruction
emitted in any format are those it was emitted with. Every field is a nibble, a byte or two bytes of
the word (`Lib.pack_hi`, `Lib.pack_lo`).
-/

namespace E2E

open Common Lib Cpu Disassembler Assembler

/-- The fields of an instruction word. -/
structure Fields where
  opcode : Byte
  /-- `prefix` -/
  pfx : Byte
  condition : Byte
  dst : Byte
  opa : Byte
  opb : Byte
  imm12 : Word
  imm16 : Word
  deriving DecidableEq, Repr

/-- What the CPU decodes. -/
def ofContext (ins : InstructionContext) : Fields :=
  { opcode := ins.opcode
    pfx := ins.pfx
    condition := ins.condition
    dst := BitVec.ofNat 8 ins.dst.val
    opa := BitVec.ofNat 8 ins.opa.val
    opb := BitVec.ofNat 8 ins.opb.val
    imm12 := ins.imm12
    imm16 := ins.imm16 }

/-- What the disassembler decodes. -/
def ofInstruction (i : Instruction) : Fields :=
  { opcode := i.opcode
    pfx := i.pfx
    condition := i.condition
    dst := i.destination
    opa := i.operandA
    opb := i.operandB
    imm12 := i.imm12
    imm16 := i.imm16 }

/-- The fields a format encodes are `f`'s. -/
def Encodes (f : Fields) : EmitCall → Prop
  | .fmtI pfx condition opcode => f.pfx = pfx ∧ f.condition = condition ∧ f.opcode = opcode
  | .fmtII pfx condition opcode dst a b =>
    (f.pfx = pfx ∧ f.condition = condition ∧ f.opcode = opcode) ∧ f.dst = dst ∧ f.opa = a ∧ f.opb = b
  | .fmtIII pfx condition opcode dst a imm12 =>
    (f.pfx = pfx ∧ f.condition = condition ∧ f.opcode = opcode) ∧ f.dst = dst ∧ f.opa = a ∧
      f.imm12 = imm12
  | .fmtIV pfx condition opcode dst imm16 =>
    (f.pfx = pfx ∧ f.condition = condition ∧ f.opcode = opcode) ∧ f.dst = dst ∧ f.imm16 = imm16
  | .fmtV pfx condition opcode dst =>
    (f.pfx = pfx ∧ f.condition = condition ∧ f.opcode = opcode) ∧ f.dst = dst
  | .fmtVI pfx condition opcode a b =>
    (f.pfx = pfx ∧ f.condition = condition ∧ f.opcode = opcode) ∧ f.opa = a ∧ f.opb = b
  | .fmtVII pfx condition opcode a imm12 =>
    (f.pfx = pfx ∧ f.condition = condition ∧ f.opcode = opcode) ∧ f.opa = a ∧ f.imm12 = imm12
  | .fmtVIII pfx condition opcode imm16 =>
    (f.pfx = pfx ∧ f.condition = condition ∧ f.opcode = opcode) ∧ f.imm16 = imm16
  | .byte _ | .labelRef _ _ _ => False

/-- The prefix, opcode and condition fit their fields. -/
def HeadInRange (pfx condition opcode : Byte) : Prop :=
  pfx.toNat < 4 ∧ condition.toNat < 16 ∧ opcode.toNat < 64

/-- An instruction whose fields are in range. -/
def InRange : EmitCall → Prop
  | .fmtI pfx condition opcode | .fmtVIII pfx condition opcode _ =>
    HeadInRange pfx condition opcode
  | .fmtII pfx condition opcode dst a b =>
    HeadInRange pfx condition opcode ∧ dst.toNat < 16 ∧ a.toNat < 16 ∧ b.toNat < 16
  | .fmtIII pfx condition opcode dst a imm12 =>
    HeadInRange pfx condition opcode ∧ dst.toNat < 16 ∧ a.toNat < 16 ∧ imm12.toNat < 4096
  | .fmtIV pfx condition opcode dst _ | .fmtV pfx condition opcode dst =>
    HeadInRange pfx condition opcode ∧ dst.toNat < 16
  | .fmtVI pfx condition opcode a b =>
    HeadInRange pfx condition opcode ∧ a.toNat < 16 ∧ b.toNat < 16
  | .fmtVII pfx condition opcode a imm12 =>
    HeadInRange pfx condition opcode ∧ a.toNat < 16 ∧ imm12.toNat < 4096
  | .byte _ | .labelRef _ _ _ => False

theorem InRange.bytes {c : EmitCall} (h : InRange c) : ∃ b1 b2 b3 b4, c.bytes = [b1, b2, b3, b4] := by
  cases c with
  | byte b => exact h.elim
  | labelRef name reg cond => exact h.elim
  | _ => exact ⟨_, _, _, _, rfl⟩

/-! ## The decoders agree -/

theorem ofNat_hiNibble (b : Byte) : BitVec.ofNat 8 (hiNibble b).val = b >>> 4 := by
  show BitVec.ofNat 8 (b >>> 4).toNat = _
  rw [BitVec.ofNat_toNat, BitVec.setWidth_eq]

theorem ofNat_loNibble (b : Byte) : BitVec.ofNat 8 (loNibble b).val = b &&& 0x0F#8 := by
  show BitVec.ofNat 8 (b &&& 0x0F#8).toNat = _
  rw [BitVec.ofNat_toNat, BitVec.setWidth_eq]

/-- **Both decoders** cut four bytes into the same fields. -/
theorem ofContext_decodeBytes (b1 b2 b3 b4 : Byte) :
    ofContext (decodeBytes b1 b2 b3 b4) = ofInstruction (vasmdisBytesToInstruction b1 b2 b3 b4) := by
  have himm12 : BitVec.ofNat 16 (loNibble b3).val = (b3 &&& 0x0F#8).setWidth 16 := by
    show BitVec.ofNat 16 (b3 &&& 0x0F#8).toNat = _
    rw [BitVec.ofNat_toNat]
  simp only [ofContext, ofInstruction, decodeBytes, vasmdisBytesToInstruction, ofNat_hiNibble,
    ofNat_loNibble, himm12, wordFromBytes]

/-! ## The fields of an emitted instruction -/

section
variable {pfx condition opcode dst a b : Byte}

/-- The first byte: prefix and opcode. -/
theorem head_fields (hp : pfx.toNat < 4) (ho : opcode.toNat < 64) :
    ((pfx <<< 6) ||| opcode) &&& 0x3F#8 = opcode ∧ ((pfx <<< 6) ||| opcode) >>> 6 = pfx :=
  ⟨pack_lo ho (by decide), pack_hi (by decide) hp ho⟩

/-- A byte of two nibbles. -/
theorem nibble_fields (ha : a.toNat < 16) (hb : b.toNat < 16) :
    ((a <<< 4) ||| b) >>> 4 = a ∧ ((a <<< 4) ||| b) &&& 0x0F#8 = b :=
  ⟨pack_hi (by decide) ha hb, pack_lo hb (by decide)⟩

/-- The upper four bits of an `imm12`. -/
theorem imm12_hi_lt {imm12 : Word} (h : imm12.toNat < 4096) :
    ((imm12 >>> 8).setWidth 8 : Byte).toNat < 16 := by
  rw [BitVec.toNat_setWidth, BitVec.toNat_ushiftRight, Nat.shiftRight_eq_div_pow]
  omega

/-- An `imm12` put together from its parts. -/
theorem imm12_join (imm12 : Word) :
    ((imm12 >>> 8).setWidth 8 : Byte).setWidth 16 <<< 8 |||
      ((imm12 &&& 0x00FF#16).setWidth 8 : Byte).setWidth 16 = imm12 := by
  rw [setWidth_and_mask _ _ (by decide)]
  exact join2_split imm12

/-- An `imm16` put together from its bytes. -/
theorem imm16_join (imm16 : Word) :
    ((imm16 >>> 8).setWidth 8 : Byte).setWidth 16 <<< 8 |||
      ((imm16 &&& 0x00FF#16).setWidth 8 : Byte).setWidth 16 = imm16 := imm12_join imm16

end

/-- **The fields of four bytes that encode a call** are the call's. -/
theorem encodes_of_bytes {c : EmitCall} (hr : InRange c) {b1 b2 b3 b4 : Byte}
    (hb : c.bytes = [b1, b2, b3, b4]) :
    Encodes (ofInstruction (vasmdisBytesToInstruction b1 b2 b3 b4)) c := by
  cases c with
  | byte b => exact hr.elim
  | labelRef name reg cond => exact hr.elim
  | fmtI pfx condition opcode =>
    obtain ⟨hp, hc, ho⟩ := hr
    cases hb
    exact ⟨(head_fields hp ho).2, (nibble_fields hc (b := 0) (by decide)).1, (head_fields hp ho).1⟩
  | fmtII pfx condition opcode dst a b =>
    obtain ⟨⟨hp, hc, ho⟩, hd, ha, hb'⟩ := hr
    cases hb
    exact ⟨⟨(head_fields hp ho).2, (nibble_fields hc hd).1, (head_fields hp ho).1⟩,
      (nibble_fields hc hd).2, (nibble_fields ha hb').1, (nibble_fields ha hb').2⟩
  | fmtIII pfx condition opcode dst a imm12 =>
    obtain ⟨⟨hp, hc, ho⟩, hd, ha, hi⟩ := hr
    cases hb
    have hn := nibble_fields ha (imm12_hi_lt hi)
    refine ⟨⟨(head_fields hp ho).2, (nibble_fields hc hd).1, (head_fields hp ho).1⟩,
      (nibble_fields hc hd).2, hn.1, ?_⟩
    simp only [ofInstruction, vasmdisBytesToInstruction, hn.2]
    exact imm12_join imm12
  | fmtIV pfx condition opcode dst imm16 =>
    obtain ⟨⟨hp, hc, ho⟩, hd⟩ := hr
    cases hb
    exact ⟨⟨(head_fields hp ho).2, (nibble_fields hc hd).1, (head_fields hp ho).1⟩,
      (nibble_fields hc hd).2, imm16_join imm16⟩
  | fmtV pfx condition opcode dst =>
    obtain ⟨⟨hp, hc, ho⟩, hd⟩ := hr
    cases hb
    exact ⟨⟨(head_fields hp ho).2, (nibble_fields hc hd).1, (head_fields hp ho).1⟩,
      (nibble_fields hc hd).2⟩
  | fmtVI pfx condition opcode a b =>
    obtain ⟨⟨hp, hc, ho⟩, ha, hb'⟩ := hr
    cases hb
    exact ⟨⟨(head_fields hp ho).2, (nibble_fields hc (b := 0) (by decide)).1,
      (head_fields hp ho).1⟩, (nibble_fields ha hb').1, (nibble_fields ha hb').2⟩
  | fmtVII pfx condition opcode a imm12 =>
    obtain ⟨⟨hp, hc, ho⟩, ha, hi⟩ := hr
    cases hb
    have hn := nibble_fields ha (imm12_hi_lt hi)
    refine ⟨⟨(head_fields hp ho).2, (nibble_fields hc (b := 0) (by decide)).1,
      (head_fields hp ho).1⟩, hn.1, ?_⟩
    simp only [ofInstruction, vasmdisBytesToInstruction, hn.2]
    exact imm12_join imm12
  | fmtVIII pfx condition opcode imm16 =>
    obtain ⟨hp, hc, ho⟩ := hr
    cases hb
    exact ⟨⟨(head_fields hp ho).2, (nibble_fields hc (b := 0) (by decide)).1,
      (head_fields hp ho).1⟩, imm16_join imm16⟩

/-- Whatever bytes lie at the position, the CPU and the disassembler read the same fields from them;
and where they are those an emitter wrote, the fields are those it was called with. -/
theorem decoders_agree {e : EmulatorContext} (h : e.InBlock e.pos 4) :
    ∃ ins, decFetchIns e = .ok (some ins, { e with pos := e.pos + 4 }) ∧
      ofContext ins = ofInstruction (vasmdisBytesToInstruction (e.memory e.pos)
        (e.memory (e.pos + 1)) (e.memory (e.pos + 2)) (e.memory (e.pos + 3))) ∧
      ∀ (c : EmitCall) (ctx ctx' : EmitContext), InRange c → c.exec ctx = .ok ctx' →
        (∀ i < 4, e.memory (e.pos + BitVec.ofNat 32 i)
          = ctx'.buf (ctx.pos + BitVec.ofNat 32 i).toNat) →
        Encodes (ofContext ins) c := by
  refine ⟨insAt e.memory e.pos, decFetchIns_ok h, ofContext_decodeBytes .., ?_⟩
  intro c ctx ctx' hr hexec hmem
  obtain ⟨b1, b2, b3, b4, hb⟩ := hr.bytes
  have hbyte (i : Nat) (hi : i < 4) : e.memory (e.pos + BitVec.ofNat 32 i) = [b1, b2, b3, b4][i] := by
    rw [hmem i hi]
    have := exec_buf hexec i (by rw [hb]; exact hi)
    simp only [hb] at this
    exact this
  have h0 : e.memory e.pos = b1 := by
    rw [← show e.pos + BitVec.ofNat 32 0 = e.pos from BitVec.add_zero _]
    exact hbyte 0 (by decide)
  rw [insAt, ofContext_decodeBytes, h0, show e.memory (e.pos + 1) = b2 from hbyte 1 (by decide),
    show e.memory (e.pos + 2) = b3 from hbyte 2 (by decide),
    show e.memory (e.pos + 3) = b4 from hbyte 3 (by decide)]
  exact encodes_of_bytes hr hb

theorem decoders_agree_add :
    let c := EmitCall.fmtIII pfxImm Cond.iz.code Opcode.add.code 2 1 0xABC
    let ctx := emitCreateContext 512 true fun _ => 0
    let e := { emuInit (fun _ => 0) (fun _ => 0) with
      memory := fun a => (ctx.after c).buf a.toNat }
    ∃ ins, decFetchIns e = .ok (some ins, { e with pos := e.pos + 4 }) ∧
      Encodes (ofContext ins) c := by
  intro c ctx e
  obtain ⟨ins, hfetch, -, hins⟩ := decoders_agree (e := e) (by decide)
  have hr : InRange c := ⟨⟨by decide, by decide, by decide⟩, by decide, by decide, by decide⟩
  have hexec : c.exec ctx = .ok (ctx.after c) :=
    (sized_create 512 true fun _ => 0).exec_fits (by unfold Fits; decide)
  exact ⟨ins, hfetch, hins c ctx _ hr hexec fun i _ => rfl⟩

/-! ## Lines of one instruction -/

/-- The instruction a line without labels is assembled to. -/
def decodeLine (toks : List Token) : Option InstructionContext := do
  let acts ← exp toks
  match lineBytes (fun _ => none) acts with
  | .ok [b1, b2, b3, b4] => some (decodeBytes b1 b2 b3 b4)
  | _ => none

def nameR0 : Name reg32Names := ⟨"R0", by decide⟩
def nameR1 : Name reg32Names := ⟨"R1", by decide⟩

/-- The tokens of a condition, if there is one. -/
def condToks : Option (Name conditionNames) → List Token
  | none => []
  | some c => [.condition c]

def condCode : Option (Name conditionNames) → Byte
  | none => cAlways
  | some c => getCondForName c

/-- The register a name stands for. -/
def regOf (n : Name reg32Names) : Fin 16 := ⟨(getRegForName n).toNat, getRegForName_lt n⟩

/-- A field that holds a register number. -/
theorem eq_reg {x : Fin 16} {b : Byte} (hb : b.toNat < 16) (h : BitVec.ofNat 8 x.val = b) :
    x = ⟨b.toNat, hb⟩ := by
  apply Fin.ext
  show x.val = b.toNat
  rw [← h, BitVec.toNat_ofNat]
  omega

theorem condCode_lt (c : Option (Name conditionNames)) : (condCode c).toNat < 16 := by
  cases c with
  | none => decide
  | some c => exact getCondForName_lt _

/-- A field that holds a register's code. -/
theorem eq_regOf {x : Fin 16} {n : Name reg32Names} (h : BitVec.ofNat 8 x.val = getRegForName n) :
    x = regOf n := eq_reg (getRegForName_lt n) h

theorem checkIfValid12Bit_ok {k : Word} (h : k.toNat < 4096) : checkIfValid12Bit k = [] := by
  have hzero : k &&& 0xF000#16 = 0 := by
    have hmask : ∀ i < 16, (0xF000#16).getLsbD i = decide (12 ≤ i) := by decide
    apply BitVec.eq_of_getLsbD_eq
    intro i hi
    rw [BitVec.getLsbD_and, hmask i hi]
    by_cases h12 : 12 ≤ i
    · simp [getLsbD_of_lt (k := 12) h h12]
    · simp [h12]
  exact if_neg (not_not_intro hzero)

/-- The check in front of a call with a valid immediate. -/
theorem checked {k : Word} (h : k.toNat < 4096) {acts : Action} :
    checkIfValid12Bit k ++ acts = acts := by
  rw [checkIfValid12Bit_ok h, List.nil_append]

/-- The operand `b` of a decoded instruction is the upper part of its `imm12`. -/
theorem decodeBytes_opb (b1 b2 b3 b4 : Byte) :
    (decodeBytes b1 b2 b3 b4).imm12 >>> 8 = BitVec.ofNat 16 (decodeBytes b1 b2 b3 b4).opb.val := by
  refine pack_hi (by decide) ?_ ?_
  · rw [BitVec.toNat_ofNat]
    have := (loNibble b3).isLt
    omega
  · rw [BitVec.toNat_setWidth]
    omega

/-- A line of one instruction decodes to its fields. -/
theorem decodeLine_call {toks : List Token} {c : EmitCall} (h : exp toks = some [.call c])
    (hr : InRange c) : ∃ ins, decodeLine toks = some ins ∧ Encodes (ofContext ins) c ∧
      ins.imm12 >>> 8 = BitVec.ofNat 16 ins.opb.val := by
  obtain ⟨b1, b2, b3, b4, hb⟩ := hr.bytes
  have hline : lineBytes (fun _ => none) [.call c] = .ok [b1, b2, b3, b4] := by
    rw [← hb]
    exact lineBytes_call (by rw [hb]; exact List.cons_ne_nil _ _)
  refine ⟨decodeBytes b1 b2 b3 b4, ?_, ?_, decodeBytes_opb ..⟩
  · simp [decodeLine, h, hline]
  · rw [ofContext_decodeBytes]
    exact encodes_of_bytes hr hb

end E2E
