import Emulathor.Cpu.Proof.StackDiscipline
import Emulathor.E2E.EncodeDecode

/-!
# `PUSH`, `POP` and the stack

`stack_discipline`: in a well-nested run of `STOREMA` and `LOADMA` rounds over one base register each
`LOADMA` restores its range and the base register, and no byte above the first slot is ever written.
`PUSH r` and `POP r` are `STOREMA SP,r:r` and `LOADMA SP,r:r` (`expPush_decodes`, `expPop_decodes`).
-/

namespace E2E

open Common Lib Cpu Assembler

/-! ## The pseudo-instructions -/

/-- The instruction has opcode `o`, base register `SP` and the range `r` alone. -/
structure Stacks (o : Opcode) (r : Fin 16) (ins : InstructionContext) : Prop where
  opcode : ins.opcode = o.code
  dst : ins.dst = cpuRegSp
  regstart : regstartOf ins = r
  regend : regendOf ins = r

/-- The range of one register, as `LOADMA` and `STOREMA` take it from the immediate. -/
theorem selfRange_nibbles {reg : Byte} (h : reg.toNat < 16) :
    hiNibble ((selfRange reg &&& 0x00FF#16).setWidth 8) = ⟨reg.toNat, h⟩ ∧
      loNibble ((selfRange reg &&& 0x00FF#16).setWidth 8) = ⟨reg.toNat, h⟩ := by
  have hbyte : (selfRange reg &&& 0x00FF#16).setWidth 8 = (reg <<< 4) ||| reg := by
    rw [setWidth_and_mask _ _ (by decide), selfRange, BitVec.setWidth_setWidth_of_le _ (by decide),
      BitVec.setWidth_eq]
  obtain ⟨hhi, hlo⟩ := nibble_fields h h
  rw [hbyte]
  constructor
  · exact Fin.ext (show (((reg <<< 4) ||| reg) >>> 4).toNat = reg.toNat by rw [hhi])
  · exact Fin.ext (show (((reg <<< 4) ||| reg) &&& 0x0F#8).toNat = reg.toNat by rw [hlo])

/-- A call with `PUSH`'s and `POP`'s fields. -/
theorem stacks_of_encodes {o : Opcode} {cond : Byte} {r : Name reg32Names}
    {ins : InstructionContext}
    (h : Encodes (ofContext ins) (.fmtIV pfxImm cond o.code (getRegForName "SP")
      (selfRange (getRegForName r)))) : Stacks o (regOf r) ins := by
  obtain ⟨⟨-, -, ho⟩, hd, hi⟩ := h
  obtain ⟨hhi, hlo⟩ := selfRange_nibbles (getRegForName_lt r)
  have hi' : ins.imm16 = selfRange (getRegForName r) := hi
  exact ⟨ho, eq_regOf (n := ⟨"SP", by decide⟩) hd, by rw [regstartOf, hi']; exact hhi,
    by rw [regendOf, hi']; exact hlo⟩

section
variable (c : Option (Name conditionNames)) (r : Name reg32Names)

theorem expPush_decodes : ∃ ins,
    decodeLine (.opPseudoPush :: condToks c ++ [.space, .reg32 r]) = some ins ∧
      Stacks .storema (regOf r) ins := by
  have hexp : exp (.opPseudoPush :: condToks c ++ [.space, .reg32 r])
      = some [.call (.fmtIV pfxImm (condCode c) Opcode.storema.code (getRegForName "SP")
        (selfRange (getRegForName r)))] := by cases c <;> rfl
  obtain ⟨ins, hins, henc, -⟩ :=
    decodeLine_call hexp ⟨⟨by decide, condCode_lt c, by decide⟩, by decide⟩
  exact ⟨ins, hins, stacks_of_encodes henc⟩

theorem expPop_decodes : ∃ ins,
    decodeLine (.opPseudoPop :: condToks c ++ [.space, .reg32 r]) = some ins ∧
      Stacks .loadma (regOf r) ins := by
  have hexp : exp (.opPseudoPop :: condToks c ++ [.space, .reg32 r])
      = some [.call (.fmtIV pfxImm (condCode c) Opcode.loadma.code (getRegForName "SP")
        (selfRange (getRegForName r)))] := by cases c <;> rfl
  obtain ⟨ins, hins, henc, -⟩ :=
    decodeLine_call hexp ⟨⟨by decide, condCode_lt c, by decide⟩, by decide⟩
  exact ⟨ins, hins, stacks_of_encodes henc⟩

end

/-! ## The discipline -/

/-- **Stack discipline**, over any base register. -/
theorem stack_discipline (d : Fin 16) :
    -- each `LOADMA` restores what its `STOREMA` stored
    (∀ (s t : Fin 16) (e e1 e2 e3 : EmulatorContext), Executes .storema d s t e e1 →
      WellNested d e1 e2 → Executes .loadma d s t e2 e3 →
      (∀ r : Fin 16, s ≤ r → r ≤ t → e3.regs r = e.regs r) ∧ e3.regs d = e.regs d) ∧
    -- at no moment has a byte above the first slot changed
    (∀ e m : EmulatorContext, Within d e m → ∀ i : Dword, (e.regs d).toNat + 4 ≤ i.toNat →
      m.memory i = e.memory i) ∧
    -- `PUSH` and `POP`
    ∀ (c : Option (Name conditionNames)) (r : Name reg32Names),
      (∃ ins, decodeLine (.opPseudoPush :: condToks c ++ [.space, .reg32 r]) = some ins ∧
        Stacks .storema (regOf r) ins) ∧
      ∃ ins, decodeLine (.opPseudoPop :: condToks c ++ [.space, .reg32 r]) = some ins ∧
        Stacks .loadma (regOf r) ins := by
  refine ⟨fun s t e e1 e2 e3 store body load => ?_, fun e m h i hi => h.memory i fun _ => hi,
    fun c r => ⟨expPush_decodes c r, expPop_decodes c r⟩⟩
  obtain ⟨hrange, hbase, -⟩ := bracket_restores store body.frame load
  exact ⟨fun r hs ht => hrange r hs ht, hbase⟩

/-- `PUSH R1` and `POP R1` at the start of memory, 7 in `R1`. -/
def pushPop : EmulatorContext :=
  { emuInit (fun r => if r = 1 then 7 else 0) fun _ => 0 with
    memory := fun i => [0xC8#8, 0x0E, 0x11, 0x00, 0xC9, 0x0E, 0x11, 0x00].getD i.toNat 0 }

/-- `R1` is overwritten between `PUSH` and `POP`. -/
theorem stack_discipline_pushPop :
    ∃ e1 e3, Executes .storema cpuRegSp 1 1 pushPop e1 ∧
      Executes .loadma cpuRegSp 1 1 (e1.setReg 1 0) e3 ∧ e3.regs 1 = 7 := by
  have store : Executes .storema cpuRegSp 1 1 pushPop _ :=
    NextIs.storema ⟨by decide, by decide, by decide, by decide, by decide⟩ (by decide) (by decide)
  have load : Executes .loadma cpuRegSp 1 1 ((pushPop.pushed cpuRegSp 1 1).setReg 1 0) _ :=
    NextIs.loadma ⟨by decide, by decide, by decide, by decide, by decide⟩ (by decide) (by decide)
  have overwrite : Quiet cpuRegSp (pushPop.pushed cpuRegSp 1 1)
      ((pushPop.pushed cpuRegSp 1 1).setReg 1 0) := ⟨rfl, rfl, rfl⟩
  obtain ⟨hrange, -⟩ :=
    (stack_discipline cpuRegSp).1 1 1 _ _ _ _ store (.quiet overwrite (.nil _)) load
  exact ⟨_, _, store, load, hrange 1 (by decide) (by decide)⟩

end E2E
