import Emulathor.E2E.Emitted
import Emulathor.E2E.Load32
import Emulathor.Lib.Simulation

/-!
# Programs as statements

What a program means before it is assembled. The machine of `sourceStep` has the state of the
emulator, but it takes its instructions from the program's calls, at the places they will be loaded
to: the operands are those the call is made with, `LOADADR` loads its label's address at once, and no
byte of memory is decoded. It goes wrong where the program leaves this level: it jumps to a place that is
not the start of an instruction, executes data, or overwrites an instruction.
-/

namespace E2E

open Common Lib Cpu Assembler

/-! ## The instruction a call asks for -/

/-- A register operand. -/
def regOperand (b : Byte) : Fin 16 := Fin.ofNat 16 b.toNat

/-- An instruction without operands. -/
def bareIns (pfx condition opcode : Byte) : InstructionContext :=
  { opcode, dst := 0, opa := 0, opb := 0, imm12 := 0, imm16 := 0, pfx, condition }

/-- The instruction with the operands of the call, zero where its format has none. Operand `b` is the
upper part of the immediate, which `MOD` reads it from. -/
def insOf : EmitCall → InstructionContext
  | .fmtI pfx condition opcode => bareIns pfx condition opcode
  | .fmtII pfx condition opcode dst a b =>
    { bareIns pfx condition opcode with
      dst := regOperand dst, opa := regOperand a, opb := regOperand b
      imm12 := BitVec.ofNat 16 (regOperand b).val <<< 8 }
  | .fmtIII pfx condition opcode dst a imm12 =>
    { bareIns pfx condition opcode with
      dst := regOperand dst, opa := regOperand a, opb := Fin.ofNat 16 (imm12 >>> 8).toNat, imm12 }
  | .fmtIV pfx condition opcode dst imm16 =>
    { bareIns pfx condition opcode with dst := regOperand dst, imm16 }
  | .fmtV pfx condition opcode dst => { bareIns pfx condition opcode with dst := regOperand dst }
  | .fmtVI pfx condition opcode a b =>
    { bareIns pfx condition opcode with
      opa := regOperand a, opb := regOperand b
      imm12 := BitVec.ofNat 16 (regOperand b).val <<< 8 }
  | .fmtVII pfx condition opcode a imm12 =>
    { bareIns pfx condition opcode with
      opa := regOperand a, opb := Fin.ofNat 16 (imm12 >>> 8).toNat, imm12 }
  | .fmtVIII pfx condition opcode imm16 => { bareIns pfx condition opcode with imm16 }
  | .byte _ | .labelRef _ _ _ => bareIns 0 0 0

/-! ## The program -/

/-- The calls of a program placed from `p` up, with their places. -/
def placed : Nat → List Statement → List (Nat × EmitCall)
  | _, [] => []
  | p, .call c :: ss => (p, c) :: placed (p + c.width) ss
  | p, _ :: ss => placed p ss

/-- The call placed at the address. -/
def callAt (ss : List Statement) (pos : Dword) : Option EmitCall :=
  ((placed instructionsStartOffset ss).find? fun pc => pc.1 == pos.toNat).map Prod.snd

/-- The call is executed, it is not data. -/
def IsCode : EmitCall → Prop
  | .byte _ => False
  | _ => True

instance : DecidablePred IsCode
  | .byte _ => .isFalse id
  | .fmtI .. | .fmtII .. | .fmtIII .. | .fmtIV .. | .fmtV .. | .fmtVI .. | .fmtVII .. | .fmtVIII ..
  | .labelRef .. => .isTrue trivial

/-- The bytes of the program's instructions are the same in both memories. -/
def CodeKept (ss : List Statement) (m m' : Dword → Byte) : Prop :=
  ∀ pc ∈ placed instructionsStartOffset ss, IsCode pc.2 → ∀ i < pc.2.width,
    m' (BitVec.ofNat 32 (pc.1 + i)) = m (BitVec.ofNat 32 (pc.1 + i))

instance (ss : List Statement) (m m' : Dword → Byte) : Decidable (CodeKept ss m m') :=
  List.decidableBAll (fun pc : Nat × EmitCall => IsCode pc.2 → ∀ i < pc.2.width,
    m' (BitVec.ofNat 32 (pc.1 + i)) = m (BitVec.ofNat 32 (pc.1 + i))) _

/-! ## The machine -/

/-- `LOADADR`: the label's address in the register, if the condition passes. -/
def loadLabel (val : Dword) (reg cond : Byte) (e : EmulatorContext) : EmulatorContext :=
  { e with
    regs := stepRegs cond (Function.update · (regOperand reg) val) e.regs
    pos := e.pos + 8
    instructionCount := e.instructionCount + 2 }

/-- The instruction of a call, which must not overwrite the program's. -/
def callStep (ss : List Statement) (c : EmitCall) (e : EmulatorContext) :
    Except (Option Cpu.Fault) Cpu.Flow :=
  match dispatchIns (insOf c) e.fetched with
  | .error fault => .error (some fault)
  | .ok f => if CodeKept ss e.memory f.state.memory then .ok f else .error none

/-- A step of the program, under the label table `t`. -/
def sourceStep (t : String → Option Dword) (ss : List Statement) (e : EmulatorContext) :
    Except (Option Cpu.Fault) Cpu.Flow :=
  match callAt ss e.pos with
  | none | some (.byte _) => .error none
  | some (.labelRef name reg cond) => .ok (.next (loadLabel ((t name).getD 0) reg cond e))
  | some c => callStep ss c e

/-! ## The instruction decoded -/

section
variable {f f' : Fields} {c : EmitCall} {ins : InstructionContext}

theorem operands_of_formatIn {fmt : Format} (h : formatIn f.pfx f.opcode = some fmt) :
    f.operands = fmt.operands f := by
  obtain ⟨o, ho, h⟩ := Option.bind_eq_some_iff.1 h
  split at h
  · cases h
    rw [Fields.operands, ho]
  · cases h

/-- The operands a call names are those its instruction uses. -/
theorem sameUse_of_encodes (hc : Formatted c) (h : Encodes f c) (h' : Encodes f' c) :
    SameUse f f' := by
  cases c with
  | byte b => exact hc.elim
  | labelRef name reg cond => exact hc.elim
  | fmtI pfx cond op =>
    obtain ⟨rfl, rfl, rfl⟩ := h
    obtain ⟨hp, hco, ho⟩ := h'
    refine ⟨ho.symm, hp.symm, hco.symm, ?_⟩
    rw [operands_of_formatIn hc, operands_of_formatIn (f := f') (by rw [hp, ho]; exact hc)]
    rfl
  | fmtV pfx cond op dst =>
    obtain ⟨⟨rfl, rfl, rfl⟩, rfl⟩ := h
    obtain ⟨⟨hp, hco, ho⟩, hx⟩ := h'
    refine ⟨ho.symm, hp.symm, hco.symm, ?_⟩
    rw [operands_of_formatIn hc, operands_of_formatIn (f := f') (by rw [hp, ho]; exact hc)]
    simp only [Format.operands, hx]
  | fmtVIII pfx cond op imm16 =>
    obtain ⟨⟨rfl, rfl, rfl⟩, rfl⟩ := h
    obtain ⟨⟨hp, hco, ho⟩, hx⟩ := h'
    refine ⟨ho.symm, hp.symm, hco.symm, ?_⟩
    rw [operands_of_formatIn hc, operands_of_formatIn (f := f') (by rw [hp, ho]; exact hc)]
    simp only [Format.operands, hx]
  | fmtIV pfx cond op x y | fmtVI pfx cond op x y | fmtVII pfx cond op x y =>
    obtain ⟨⟨rfl, rfl, rfl⟩, rfl, rfl⟩ := h
    obtain ⟨⟨hp, hco, ho⟩, hx, hy⟩ := h'
    refine ⟨ho.symm, hp.symm, hco.symm, ?_⟩
    rw [operands_of_formatIn hc, operands_of_formatIn (f := f') (by rw [hp, ho]; exact hc)]
    simp only [Format.operands, hx, hy]
  | fmtII pfx cond op x y z | fmtIII pfx cond op x y z =>
    obtain ⟨⟨rfl, rfl, rfl⟩, rfl, rfl, rfl⟩ := h
    obtain ⟨⟨hp, hco, ho⟩, hx, hy, hz⟩ := h'
    refine ⟨ho.symm, hp.symm, hco.symm, ?_⟩
    rw [operands_of_formatIn hc, operands_of_formatIn (f := f') (by rw [hp, ho]; exact hc)]
    simp only [Format.operands, hx, hy, hz]

theorem ofNat_regOperand {b : Byte} (h : b.toNat < 16) : BitVec.ofNat 8 (regOperand b).val = b := by
  show BitVec.ofNat 8 (b.toNat % 16) = b
  rw [Nat.mod_eq_of_lt h, BitVec.ofNat_toNat, BitVec.setWidth_eq]

/-- The instruction has the call's operands. -/
theorem encodes_insOf (hr : InRange c) : Encodes (ofContext (insOf c)) c := by
  cases c with
  | byte b => exact hr.elim
  | labelRef name reg cond => exact hr.elim
  | fmtI pfx cond op => exact ⟨rfl, rfl, rfl⟩
  | fmtII pfx cond op dst a b =>
    obtain ⟨-, hd, ha, hb⟩ := hr
    exact ⟨⟨rfl, rfl, rfl⟩, ofNat_regOperand hd, ofNat_regOperand ha, ofNat_regOperand hb⟩
  | fmtIII pfx cond op dst a imm12 =>
    obtain ⟨-, hd, ha, -⟩ := hr
    exact ⟨⟨rfl, rfl, rfl⟩, ofNat_regOperand hd, ofNat_regOperand ha, rfl⟩
  | fmtIV pfx cond op dst imm16 => exact ⟨⟨rfl, rfl, rfl⟩, ofNat_regOperand hr.2, rfl⟩
  | fmtV pfx cond op dst => exact ⟨⟨rfl, rfl, rfl⟩, ofNat_regOperand hr.2⟩
  | fmtVI pfx cond op a b =>
    obtain ⟨-, ha, hb⟩ := hr
    exact ⟨⟨rfl, rfl, rfl⟩, ofNat_regOperand ha, ofNat_regOperand hb⟩
  | fmtVII pfx cond op a imm12 => exact ⟨⟨rfl, rfl, rfl⟩, ofNat_regOperand hr.2.1, rfl⟩
  | fmtVIII pfx cond op imm16 => exact ⟨⟨rfl, rfl, rfl⟩, rfl⟩

/-- An operand in an immediate's upper part. -/
theorem opb_of_shift (r : Fin 16) :
    (BitVec.ofNat 16 r.val <<< 8) >>> 8 = BitVec.ofNat 16 r.val := by
  revert r
  decide

theorem opb_of_imm12 {imm12 : Word} (h : imm12.toNat < 4096) :
    imm12 >>> 8 = BitVec.ofNat 16 (Fin.ofNat 16 (imm12 >>> 8).toNat).val := by
  apply BitVec.eq_of_toNat_eq
  show _ = ((imm12 >>> 8).toNat % 16) % 2 ^ 16
  rw [BitVec.toNat_ushiftRight, Nat.shiftRight_eq_div_pow]
  omega

theorem insOf_opb (hr : InRange c) : (insOf c).imm12 >>> 8 = BitVec.ofNat 16 (insOf c).opb.val := by
  have hbare : (0 : Word) >>> 8 = BitVec.ofNat 16 (0 : Fin 16).val := by decide
  cases c with
  | byte b => exact hr.elim
  | labelRef name reg cond => exact hr.elim
  | fmtII pfx cond op dst a b => exact opb_of_shift _
  | fmtVI pfx cond op a b => exact opb_of_shift _
  | fmtIII pfx cond op dst a imm12 => exact opb_of_imm12 hr.2.2.2
  | fmtVII pfx cond op a imm12 => exact opb_of_imm12 hr.2.2
  | _ => exact hbare

/-- **What the CPU decodes** from the bytes of a call it executes as the call asks. -/
theorem dispatch_insOf (hr : InRange c) (hc : Formatted c) (h : Encodes (ofContext ins) c)
    (hopb : ins.imm12 >>> 8 = BitVec.ofNat 16 ins.opb.val) (e : EmulatorContext) :
    dispatchIns ins e = dispatchIns (insOf c) e :=
  (sameUse_of_encodes hc h (encodes_insOf hr)).dispatch hopb (insOf_opb hr) e

end

end E2E
