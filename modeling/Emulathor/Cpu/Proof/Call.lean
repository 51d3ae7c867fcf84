import Emulathor.Cpu.Emulator
import Emulathor.Cpu.Proof.Fetch

/-!
# Calls and returns

`call_iff`: `ins_call` writes `RC` before it reads the register with the target, so a call goes
where its operand says unless that operand is `RC`; `CALL RC` goes on behind itself. The position
behind the call is in `RC` in any case, and a `JMP RC` goes there.
-/

namespace Cpu

open Common Lib

/-- Where a call is to go: the position the operand held, or the one `imm16` off the next. -/
def callTarget (ins : InstructionContext) (e : EmulatorContext) : Dword :=
  if ins.pfx = pfxImm then e.pos + 4 + ins.imm16.signExtend 32 else e.regs ins.dst

/-- The state after a call to `target`. -/
def EmulatorContext.called (e : EmulatorContext) (target : Dword) : EmulatorContext :=
  { e.fetched.setReg cpuRegRc (e.pos + 4) with pos := target }

section
variable {e : EmulatorContext}

/-- What a call does. -/
theorem NextOp.call (h : NextOp .call e) : cpuIteration e = .ok (.next (e.called
    (if (insAt e.memory e.pos).pfx = pfxImm then callTarget (insAt e.memory e.pos) e
      else (e.fetched.setReg cpuRegRc (e.pos + 4)).regs (insAt e.memory e.pos).dst))) := by
  rw [h.round, executeIns, h.opcode, Opcode.ofByte_code]
  simp only [insCall, callTarget, EmulatorContext.called]
  split <;> rfl

/-- What a jump to a register does. -/
theorem NextOp.jmp (h : NextOp .jmp e) (hp : (insAt e.memory e.pos).pfx ≠ pfxImm) :
    cpuIteration e = .ok (.next { e.fetched with pos := e.regs (insAt e.memory e.pos).dst }) := by
  rw [h.round, executeIns, h.opcode, Opcode.ofByte_code]
  simp only [insJmp, if_neg hp, EmulatorContext.fetched_regs]

/-- **Call and return.** -/
theorem call_iff (h : NextOp .call e) :
    (cpuIteration e = .ok (.next (e.called (callTarget (insAt e.memory e.pos) e))) ↔
      (insAt e.memory e.pos).pfx = pfxImm ∨ (insAt e.memory e.pos).dst ≠ cpuRegRc ∨
        e.regs cpuRegRc = e.pos + 4) ∧
    ∀ e1 e2, cpuIteration e = .ok (.next e1) → e2.regs cpuRegRc = e1.regs cpuRegRc →
      NextOp .jmp e2 → (insAt e2.memory e2.pos).pfx ≠ pfxImm →
      (insAt e2.memory e2.pos).dst = cpuRegRc →
      cpuIteration e2 = .ok (.next { e2.fetched with pos := e.pos + 4 }) := by
  have hround := h.call
  constructor
  · rw [hround]
    have hcalled {a b : Dword} : (Except.ok (Flow.next (e.called a)) : Except Fault Flow)
        = .ok (.next (e.called b)) ↔ a = b := by
      refine ⟨fun hab => ?_, fun hab => by rw [hab]⟩
      injection hab with hab
      injection hab with hab
      exact congrArg EmulatorContext.pos hab
    rw [hcalled]
    by_cases hp : (insAt e.memory e.pos).pfx = pfxImm
    · simp only [hp, ↓reduceIte, true_or]
    · simp only [callTarget, hp, ↓reduceIte, false_or]
      by_cases hd : (insAt e.memory e.pos).dst = cpuRegRc
      · rw [hd, EmulatorContext.setReg_same]
        simp [eq_comm]
      · rw [EmulatorContext.setReg_other _ _ _ _ hd]
        simp [hd]
  · intro e1 e2 he1 hrc hjmp hp hd
    cases hround.symm.trans he1
    rw [hjmp.jmp hp, hd, hrc]
    simp [EmulatorContext.called]

end

/-- A call at the start of memory, `RC` is 0x2000. -/
def callState (dst : Byte) : EmulatorContext :=
  { emuInit (fun r => if r = cpuRegRc then 0x2000 else 0) fun _ => 0 with
    memory := fun i => [0x0C#8, dst, 0x00, 0x00].getD i.toNat 0 }

/-- `CALL R1` gets to the address in `R1`, `CALL RC` not to the one in `RC`. -/
theorem call_iff_r1 :
    cpuIteration (callState 0x01) = .ok (.next ((callState 0x01).called 0)) ∧
      cpuIteration (callState 0x0C) ≠ .ok (.next ((callState 0x0C).called 0x2000)) := by
  have hr1 := (@call_iff (callState 0x01) ⟨by decide, by decide, by decide⟩).1
  have hrc := (@call_iff (callState 0x0C) ⟨by decide, by decide, by decide⟩).1
  exact ⟨hr1.2 (by decide), mt hrc.1 (by decide)⟩

/-- `CALL RC` does not get to 0x2000. -/
theorem not_call_rc :
    ¬ ∀ e : EmulatorContext, NextOp .call e →
      cpuIteration e = .ok (.next (e.called (callTarget (insAt e.memory e.pos) e))) := by
  intro h
  have hnext : NextOp .call (callState 0x0C) := ⟨by decide, by decide, by decide⟩
  have heq := hnext.call.symm.trans (h _ hnext)
  injection heq with heq
  injection heq with heq
  have hpos : (4 : Dword) = 0x2000 := congrArg EmulatorContext.pos heq
  exact absurd hpos (by decide)

end Cpu
