import Emulathor.Lib.Run
import Emulathor.Cpu.Ins

/-!
# The execution loop

`cpu_execute` of `cpu/cpu.c`. One round of its `do … while(!step)` loop is `cpuIteration`; its
result is a `Flow`, on to the loop's condition or out of the function with a return value. The
first `n` rounds of `cpu_execute(ectx, 0)` are `iterate cpuIteration n`. The loop's local `fu` is
zero throughout, so `OP_STOP` returns.
-/

namespace Cpu

open Common Lib

/-- What a round of the loop leads to. -/
abbrev Flow := Lib.Flow EmulatorContext Int

/-- Whether an instruction with this condition code is executed under the flags `flgs`. -/
def condPasses (condition : Byte) (flgs : Dword) : Bool :=
  let z := flgs &&& flgsZ ≠ 0
  let c := flgs &&& flgsC ≠ 0
  let o := flgs &&& flgsO ≠ 0
  let p := flgs &&& flgsP ≠ 0
  let s := flgs &&& flgsS ≠ 0
  let e := flgs &&& flgsE ≠ 0
  match Cond.ofByte condition with
  | some .iz => z
  | some .nz => ¬z
  | some .is => s
  | some .ns => ¬s
  | some .io => o
  | some .no => ¬o
  | some .ip => p
  | some .np => ¬p
  | some .izis => z ∨ s
  | some .nzns => ¬z ∧ ¬s
  | some .izic => z ∨ c
  | some .nznc => ¬z ∧ ¬c
  | some .ic => c
  | some .nc => ¬c
  | some .nf => ¬z ∧ ¬c ∧ ¬s ∧ ¬o ∧ ¬p ∧ ¬e
  | some .always | none => true

/-- The `switch` on the opcode. -/
def executeIns (ins : InstructionContext) (ectx : EmulatorContext) : Except Fault Flow :=
  match Opcode.ofByte ins.opcode with
  | some .add => .ok (.next (insAdd ins ectx))
  | some .and => .ok (.next (insAnd ins ectx))
  | some .call => .ok (.next (insCall ins ectx))
  | some .cmp => .ok (.next (insCmp ins ectx))
  | some .cmpxchg => .next <$> insCmpxchg ins ectx
  | some .div => .ok (.next (insDiv ins ectx))
  | some .fail => .ok (.ret ins.imm16.toNat ectx)
  | some .in_ => .next <$> insIn ins ectx
  | some .jmp => .ok (.next (insJmp ins ectx))
  | some .loadi => .ok (.next (insLoadi ins ectx))
  | some .loadid => .next <$> insLoadid ins ectx
  | some .loadma => .next <$> insLoadma ins ectx
  | some .loadrd => .next <$> insLoadrd ins ectx
  | some .mul => .ok (.next (insMul ins ectx))
  | some .mod => .ok (.next (insMod ins ectx))
  | some .mov => .ok (.next (insMov ins ectx))
  | some .movfc => .ok (.next (insMovfc ins ectx))
  | some .movtc => .ok (.next (insMovtc ins ectx))
  | some .not => .ok (.next (insNot ins ectx))
  | some .or => .ok (.next (insOr ins ectx))
  | some .out => .next <$> insOut ins ectx
  | some .sar => .ok (.next (insSar ins ectx))
  | some .sex => .ok (.next (insSex ins ectx))
  | some .sdiv => .ok (.next (insSdiv ins ectx))
  | some .shl => .ok (.next (insShl ins ectx))
  | some .shr => .ok (.next (insShr ins ectx))
  | some .smul => .ok (.next (insSmul ins ectx))
  | some .stop => .ok (.ret 0 ectx)
  | some .sub => .ok (.next (insSub ins ectx))
  | some .storeid => .next <$> insStoreid ins ectx
  | some .storema => .next <$> insStorema ins ectx
  | some .storerd => .next <$> insStorerd ins ectx
  | some .test => .ok (.next (insTest ins ectx))
  | some .xchg => .ok (.next (insXchg ins ectx))
  | some .xchgc => .ok (.next (insXchgc ins ectx))
  | some .xor => .ok (.next (insXor ins ectx))
  -- no case of the switch
  | some .iret | some .int | some .storeas | some .loadas | none => .ok (.next ectx)

/-- The condition check and the `switch`. -/
def dispatchIns (ins : InstructionContext) (ectx : EmulatorContext) : Except Fault Flow :=
  if condPasses ins.condition (ectx.regs cpuRegFlgs) then executeIns ins ectx
  else .ok (.next ectx)

/-- One round of the loop. -/
def cpuIteration (ectx : EmulatorContext) : Except Fault Flow := do
  let (ins, ectx) ← decFetchIns ectx
  let ectx := { ectx with instructionCount := ectx.instructionCount + 1 }
  match ins with
  | none => return .next ectx -- DECODE FAILED
  | some ins => dispatchIns ins ectx

/-- `cpu_execute`, `none` if it has not returned within `fuel` rounds. -/
def cpuExecute (fuel : Nat) (ectx : EmulatorContext) (step : Bool) :
    Except Fault (Option (Int × EmulatorContext)) := do
  match fuel with
  | 0 => return none
  | fuel + 1 =>
    match ← cpuIteration ectx with
    | .ret code ectx => return some (code, ectx)
    | .next ectx => if step then return some (-1, ectx) else cpuExecute fuel ectx step

end Cpu
