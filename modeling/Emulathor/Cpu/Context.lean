import Mathlib.Logic.Function.Basic
import Emulathor.Common.RawDefs

/-!
# The emulator's state

`EmulatorContext` gathers the contexts of `common/types.h` the CPU works on (memory, CPU and
statistic context) and the static variables of `cpu/pio.c`. Arrays are functions on their index
type; the memory block is a function on dwords with its size beside it, since its indices are
computed in dwords. An access outside an array has no meaning in C: it is a `Fault`, and nothing
that follows it is modelled.
-/

namespace Cpu

open Common

/-- An access outside an array: of `memory_context.memory`, of the `ports` table. -/
inductive Fault
  | memory (i : Dword)
  | port (no : Byte)
  deriving DecidableEq, Repr

/-- The port handlers there are: `pio_null`. -/
inductive PortHandler
  | pioNull
  deriving DecidableEq, Repr

structure EmulatorContext where
  /-- `memory_context.memory`, meaningful below `memorySize` -/
  memory : Dword → Byte
  memorySize : Dword
  cregs : Fin 16 → Dword
  regs : Fin 16 → Dword
  pos : Dword
  /-- `statistic_context.instruction_count` -/
  instructionCount : Qword
  /-- `pio.c`'s `ports`; `none` is `NULL` -/
  ports : Fin 128 → Option PortHandler
  /-- `pio_null`'s `latch` -/
  latch : Dword

/-- The decoded instruction. An operand is a register number, four bits of a byte. -/
structure InstructionContext where
  opcode : Byte
  dst : Fin 16
  opa : Fin 16
  opb : Fin 16
  imm12 : Word
  imm16 : Word
  /-- `prefix` -/
  pfx : Byte
  condition : Byte
  deriving DecidableEq, Repr

namespace EmulatorContext

variable (e : EmulatorContext)

def setReg (r : Fin 16) (v : Dword) : EmulatorContext :=
  { e with regs := Function.update e.regs r v }

def setCreg (r : Fin 16) (v : Dword) : EmulatorContext :=
  { e with cregs := Function.update e.cregs r v }

/-- `regs[CPU_REG_FLGS] |= f` or `regs[CPU_REG_FLGS] &= ~f`. -/
def setFlag (f : Dword) (b : Bool) : EmulatorContext :=
  e.setReg cpuRegFlgs
    (if b then e.regs cpuRegFlgs ||| f else e.regs cpuRegFlgs &&& ~~~f)

section
variable (r r' : Fin 16) (v f : Dword) (b : Bool)

@[simp] theorem setReg_same : (e.setReg r v).regs r = v := Function.update_self ..

theorem setReg_other (h : r' ≠ r) : (e.setReg r v).regs r' = e.regs r' :=
  Function.update_of_ne h ..

theorem setReg_self : e.setReg r (e.regs r) = e := by
  rw [setReg, Function.update_eq_self]

theorem setReg_setReg (w : Dword) : (e.setReg r v).setReg r w = e.setReg r w := by
  rw [setReg, setReg, setReg, Function.update_idem]

@[simp] theorem setReg_memory : (e.setReg r v).memory = e.memory := rfl
@[simp] theorem setReg_memorySize : (e.setReg r v).memorySize = e.memorySize := rfl
@[simp] theorem setReg_cregs : (e.setReg r v).cregs = e.cregs := rfl
@[simp] theorem setReg_pos : (e.setReg r v).pos = e.pos := rfl
@[simp] theorem setReg_instructionCount :
    (e.setReg r v).instructionCount = e.instructionCount := rfl
@[simp] theorem setReg_ports : (e.setReg r v).ports = e.ports := rfl
@[simp] theorem setReg_latch : (e.setReg r v).latch = e.latch := rfl

@[simp] theorem setCreg_regs : (e.setCreg r v).regs = e.regs := rfl
@[simp] theorem setCreg_memory : (e.setCreg r v).memory = e.memory := rfl
@[simp] theorem setCreg_memorySize : (e.setCreg r v).memorySize = e.memorySize := rfl
@[simp] theorem setCreg_pos : (e.setCreg r v).pos = e.pos := rfl

@[simp] theorem setFlag_memory : (e.setFlag f b).memory = e.memory := rfl
@[simp] theorem setFlag_memorySize : (e.setFlag f b).memorySize = e.memorySize := rfl
@[simp] theorem setFlag_cregs : (e.setFlag f b).cregs = e.cregs := rfl
@[simp] theorem setFlag_pos : (e.setFlag f b).pos = e.pos := rfl

theorem setFlag_other (h : r ≠ cpuRegFlgs) : (e.setFlag f b).regs r = e.regs r :=
  setReg_other _ _ _ _ h

end

end EmulatorContext

end Cpu
