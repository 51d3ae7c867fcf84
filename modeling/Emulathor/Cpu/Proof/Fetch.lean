import Emulathor.Cpu.Execute
import Emulathor.Cpu.Proof.Memory

/-!
# The fetch

With the position inside memory a round executes the instruction there (`cpuIteration_ok`), and the
instruction is cut from the four bytes as they lie in memory (`insAt`): the detour over the dword
and the host's bytes cancels. With the position outside it faults.
-/

namespace Cpu

open Common Lib

/-- The instruction the four bytes at `a` are. -/
def insAt (m : Dword → Byte) (a : Dword) : InstructionContext :=
  decodeBytes (m a) (m (a + 1)) (m (a + 2)) (m (a + 3))

/-- The state an instruction is executed in: the fetch advances the position and the round counts. -/
def EmulatorContext.fetched (e : EmulatorContext) : EmulatorContext :=
  { e with pos := e.pos + 4, instructionCount := e.instructionCount + 1 }

section
variable (e : EmulatorContext)

@[simp] theorem EmulatorContext.fetched_memory : e.fetched.memory = e.memory := rfl
@[simp] theorem EmulatorContext.fetched_memorySize : e.fetched.memorySize = e.memorySize := rfl
@[simp] theorem EmulatorContext.fetched_regs : e.fetched.regs = e.regs := rfl
@[simp] theorem EmulatorContext.fetched_cregs : e.fetched.cregs = e.cregs := rfl
@[simp] theorem EmulatorContext.fetched_pos : e.fetched.pos = e.pos + 4 := rfl

end

variable {e : EmulatorContext}

theorem decFetchIns_ok (h : e.InBlock e.pos 4) :
    decFetchIns e = .ok (some (insAt e.memory e.pos), { e with pos := e.pos + 4 }) := by
  rw [decFetchIns, memGetInstructionP, memGetDwordP_ok h, ok_bind]
  simp [dwordAt, insAt]

theorem decFetchIns_out (h : ¬ e.InBlock e.pos 4) : OutOfBlock e.memorySize (decFetchIns e) :=
  (memGetDwordP_out h).bind _

theorem cpuIteration_ok (h : e.InBlock e.pos 4) :
    cpuIteration e = dispatchIns (insAt e.memory e.pos) e.fetched := by
  rw [cpuIteration, decFetchIns_ok h]
  rfl

theorem cpuIteration_out (h : ¬ e.InBlock e.pos 4) : OutOfBlock e.memorySize (cpuIteration e) :=
  (decFetchIns_out h).bind _

/-- A round that does not fault fetched inside memory. -/
theorem inBlock_of_cpuIteration {f : Flow} (h : cpuIteration e = .ok f) : e.InBlock e.pos 4 := by
  by_contra hout
  obtain ⟨i, -, hi⟩ := cpuIteration_out hout
  rw [hi] at h
  cases h

/-- The round executes the instruction if its condition passes. -/
theorem cpuIteration_passes (hin : e.InBlock e.pos 4)
    (hc : condPasses (insAt e.memory e.pos).condition (e.regs cpuRegFlgs)) :
    cpuIteration e = executeIns (insAt e.memory e.pos) e.fetched := by
  rw [cpuIteration_ok hin, dispatchIns, EmulatorContext.fetched_regs, if_pos hc]

/-- The next instruction has opcode `o` and is executed. -/
structure NextOp (o : Opcode) (e : EmulatorContext) : Prop where
  inBlock : e.InBlock e.pos 4
  opcode : (insAt e.memory e.pos).opcode = o.code
  passes : condPasses (insAt e.memory e.pos).condition (e.regs cpuRegFlgs) = true

theorem NextOp.round {o : Opcode} (h : NextOp o e) :
    cpuIteration e = executeIns (insAt e.memory e.pos) e.fetched :=
  cpuIteration_passes h.inBlock h.passes

/-! ## Instructions issued one by one -/

/-- An instruction, and what the registers hold when it is executed. -/
structure Issue where
  ins : InstructionContext
  regs : Fin 16 → Dword

namespace Issue

def exec (i : Issue) (e : EmulatorContext) : Except Fault EmulatorContext :=
  Flow.state <$> executeIns i.ins { e with regs := i.regs }

theorem exec_next {i : Issue} {x : Except Fault EmulatorContext}
    (h : executeIns i.ins { e with regs := i.regs } = .next <$> x) : i.exec e = x := by
  rw [exec, h]
  cases x <;> rfl

end Issue

end Cpu
