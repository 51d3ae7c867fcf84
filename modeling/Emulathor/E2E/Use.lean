import Emulathor.Cpu.Execute
import Emulathor.E2E.EncodeDecode

/-!
# The operands an instruction uses

The format of each instruction names the fields of a word that it reads, which are the only ones the
CPU looks at (`SameUse.dispatch`): two words with the same prefix, opcode, condition and used operands
are the same instruction.
-/

namespace E2E

open Common Lib Cpu Assembler Disassembler

/-! ## The fields of an instruction -/

inductive Format
  | I | II | III | IV | V | VI | VII | VIII

/-- The format of an instruction. -/
def formatOf (o : Opcode) (pfx : Byte) : Format :=
  match o with
  | .stop | .iret => .I
  | .fail | .int => .VIII
  | .storeas | .loadas => .V
  | .loadi | .loadma | .storema => .IV
  | .loadid | .storeid => .III
  | .cmpxchg | .loadrd | .storerd => .II
  | .in_ | .not | .out | .sex | .xchg | .movtc | .movfc | .xchgc => .VI
  | .call | .jmp | .test => if pfx = pfxImm then .VIII else .V
  | .cmp | .mov => if pfx = pfxImm then .VII else .VI
  | .add | .and | .div | .or | .mod | .mul | .sar | .sdiv | .shl | .shr | .smul | .sub | .xor =>
    if pfx = pfxImm then .III else .II

/-- The operand fields of a format. -/
def Format.operands (f : Fields) : Format → List Word
  | I => []
  | II => [f.dst.setWidth 16, f.opa.setWidth 16, f.opb.setWidth 16]
  | III => [f.dst.setWidth 16, f.opa.setWidth 16, f.imm12]
  | IV => [f.dst.setWidth 16, f.imm16]
  | V => [f.dst.setWidth 16]
  | VI => [f.opa.setWidth 16, f.opb.setWidth 16]
  | VII => [f.opa.setWidth 16, f.imm12]
  | VIII => [f.imm16]

/-- The operand fields an instruction uses. -/
def Fields.operands (f : Fields) : List Word :=
  match Opcode.ofByte f.opcode with
  | some o => (formatOf o f.pfx).operands f
  | none => []

/-- The same instruction with the same operands. -/
structure SameUse (f f' : Fields) : Prop where
  opcode : f.opcode = f'.opcode
  pfx : f.pfx = f'.pfx
  condition : f.condition = f'.condition
  operands : f.operands = f'.operands

instance (f f' : Fields) : Decidable (SameUse f f') :=
  decidable_of_iff (f.opcode = f'.opcode ∧ f.pfx = f'.pfx ∧ f.condition = f'.condition ∧
    f.operands = f'.operands)
    ⟨fun ⟨ho, hp, hc, hops⟩ => ⟨ho, hp, hc, hops⟩, fun ⟨ho, hp, hc, hops⟩ => ⟨ho, hp, hc, hops⟩⟩

section
variable {ins ins' : InstructionContext}

theorem reg_eq {x y : Fin 16}
    (h : (BitVec.ofNat 8 x.val).setWidth 16 = ((BitVec.ofNat 8 y.val).setWidth 16 : Word)) : x = y := by
  have := congrArg BitVec.toNat h
  rw [BitVec.toNat_setWidth, BitVec.toNat_setWidth, BitVec.toNat_ofNat, BitVec.toNat_ofNat] at this
  apply Fin.ext
  omega

theorem operandB_congr {e : EmulatorContext} (hp : ins.pfx = ins'.pfx)
    (h : if ins.pfx = pfxImm then ins.imm12 = ins'.imm12 else ins.opb = ins'.opb) :
    operandB ins e = operandB ins' e := by
  unfold operandB
  rw [← hp]
  by_cases himm : ins.pfx = pfxImm
  · rw [if_pos himm] at h
    rw [if_pos himm, if_pos himm, h]
  · rw [if_neg himm] at h
    rw [if_neg himm, if_neg himm, h]

theorem opb_eq (hopb : ins.imm12 >>> 8 = BitVec.ofNat 16 ins.opb.val)
    (hopb' : ins'.imm12 >>> 8 = BitVec.ofNat 16 ins'.opb.val) (h : ins.imm12 = ins'.imm12) :
    ins.opb = ins'.opb := by
  have := congrArg BitVec.toNat (hopb.symm.trans (h ▸ hopb'))
  rw [BitVec.toNat_ofNat, BitVec.toNat_ofNat] at this
  apply Fin.ext
  omega

/-- **The CPU** uses no other field. -/
theorem SameUse.dispatch (h : SameUse (ofContext ins) (ofContext ins'))
    (hopb : ins.imm12 >>> 8 = BitVec.ofNat 16 ins.opb.val)
    (hopb' : ins'.imm12 >>> 8 = BitVec.ofNat 16 ins'.opb.val) (e : EmulatorContext) :
    dispatchIns ins e = dispatchIns ins' e := by
  obtain ⟨hop, hp, hc, hops⟩ := h
  have hop : ins.opcode = ins'.opcode := hop
  have hp : ins.pfx = ins'.pfx := hp
  have hc : ins.condition = ins'.condition := hc
  have himm := opb_eq hopb hopb'
  have hB := @operandB_congr ins ins' e hp
  unfold dispatchIns
  rw [hc]
  suffices executeIns ins e = executeIns ins' e by rw [this]
  obtain ⟨opcode, dst, opa, opb, imm12, imm16, pfx, condition⟩ := ins
  obtain ⟨opcode', dst', opa', opb', imm12', imm16', pfx', condition'⟩ := ins'
  obtain rfl : opcode = opcode' := hop
  obtain rfl : pfx = pfx' := hp
  unfold Fields.operands at hops
  unfold executeIns
  simp only [ofContext] at hops himm hB ⊢
  cases ho : Opcode.ofByte opcode with
  | none => rfl
  | some o =>
    simp only [ho] at hops
    unfold formatOf at hops
    cases o with
    | stop | iret | storeas | loadas | int => rfl
    | fail =>
      simp only [Format.operands, List.cons.injEq, and_true] at hops
      obtain rfl := hops
      rfl
    | loadi | loadma | storema =>
      simp only [Format.operands, List.cons.injEq, and_true] at hops
      obtain ⟨hd, rfl⟩ := hops
      obtain rfl := reg_eq hd
      rfl
    | loadid | storeid =>
      simp only [Format.operands, List.cons.injEq, and_true] at hops
      obtain ⟨hd, ha, rfl⟩ := hops
      obtain rfl := reg_eq hd
      obtain rfl := reg_eq ha
      rfl
    | cmpxchg | loadrd | storerd =>
      simp only [Format.operands, List.cons.injEq, and_true] at hops
      obtain ⟨hd, ha, hb⟩ := hops
      obtain rfl := reg_eq hd
      obtain rfl := reg_eq ha
      obtain rfl := reg_eq hb
      rfl
    | in_ | not | out | sex | xchg | movtc | movfc | xchgc =>
      simp only [Format.operands, List.cons.injEq, and_true] at hops
      obtain ⟨ha, hb⟩ := hops
      obtain rfl := reg_eq ha
      obtain rfl := reg_eq hb
      rfl
    | call | jmp | test =>
      by_cases hpfx : pfx = pfxImm
      · simp only [hpfx, ↓reduceIte, Format.operands, List.cons.injEq, and_true] at hops
        obtain rfl := hops
        simp only [insCall, insJmp, insTest, if_pos hpfx]
      · simp only [hpfx, ↓reduceIte, Format.operands, List.cons.injEq, and_true] at hops
        obtain rfl := reg_eq hops
        simp only [insCall, insJmp, insTest, if_neg hpfx]
    | cmp =>
      by_cases hpfx : pfx = pfxImm
      · simp only [hpfx, ↓reduceIte, Format.operands, List.cons.injEq, and_true] at hops
        obtain ⟨ha, rfl⟩ := hops
        obtain rfl := reg_eq ha
        simp only [insCmp, hB (by rw [if_pos hpfx])]
      · simp only [hpfx, ↓reduceIte, Format.operands, List.cons.injEq, and_true] at hops
        obtain ⟨ha, hb⟩ := hops
        obtain rfl := reg_eq ha
        obtain rfl := reg_eq hb
        simp only [insCmp, hB (by rw [if_neg hpfx])]
    | mov =>
      by_cases hpfx : pfx = pfxImm
      · simp only [hpfx, ↓reduceIte, Format.operands, List.cons.injEq, and_true] at hops
        obtain ⟨ha, rfl⟩ := hops
        obtain rfl := reg_eq ha
        simp only [insMov, if_pos hpfx]
      · simp only [hpfx, ↓reduceIte, Format.operands, List.cons.injEq, and_true] at hops
        obtain ⟨ha, hb⟩ := hops
        obtain rfl := reg_eq ha
        obtain rfl := reg_eq hb
        simp only [insMov, if_neg hpfx]
    | add | and | div | or | mod | mul | sar | sdiv | shl | shr | smul | sub | xor =>
      by_cases hpfx : pfx = pfxImm
      · simp only [hpfx, ↓reduceIte, Format.operands, List.cons.injEq, and_true] at hops
        obtain ⟨hd, ha, rfl⟩ := hops
        obtain rfl := reg_eq hd
        obtain rfl := reg_eq ha
        -- `MOD` divides by the register in the immediate's upper bits
        obtain rfl := himm rfl
        rfl
      · simp only [hpfx, ↓reduceIte, Format.operands, List.cons.injEq, and_true] at hops
        obtain ⟨hd, ha, hb⟩ := hops
        obtain rfl := reg_eq hd
        obtain rfl := reg_eq ha
        obtain rfl := reg_eq hb
        have hB := hB (by rw [if_neg hpfx])
        simp only [insAdd, insAnd, insDiv, insOr, insMod, insMul, insSar, insSdiv, insShl, insShr,
          insSmul, insSub, insXor, hB]

end

end E2E
