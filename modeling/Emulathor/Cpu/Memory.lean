import Emulathor.Cpu.Context

/-!
# Memory access

`cpu/memory.c`. A `mem_*` function returns 1 on success and 0 otherwise: `some` of what it read or
of the memory it wrote, and `none`. No function looks at `memory_size`; an index that is not below
it leaves the block (`readAt`, `writeAt`).
-/

namespace Cpu

open Common

namespace EmulatorContext

variable (e : EmulatorContext)

/-- `memory[i]` -/
def readAt (i : Dword) : Except Fault Byte :=
  if i < e.memorySize then .ok (e.memory i) else .error (.memory i)

/-- `memory[i] = b` -/
def writeAt (i : Dword) (b : Byte) : Except Fault EmulatorContext :=
  if i < e.memorySize then .ok { e with memory := Function.update e.memory i b }
  else .error (.memory i)

end EmulatorContext

def memWriteByteP (b : Byte) (addr : Dword) (ectx : EmulatorContext) :
    Except Fault (Option EmulatorContext) := do
  let ectx ← ectx.writeAt addr b
  return some ectx

def memWriteWordP (w : Word) (addr : Dword) (ectx : EmulatorContext) :
    Except Fault (Option EmulatorContext) := do
  let ectx ← ectx.writeAt (addr + 0) (lbyteFromWord w)
  let ectx ← ectx.writeAt (addr + 1) (hbyteFromWord w)
  return some ectx

def memWriteDwordP (d : Dword) (addr : Dword) (ectx : EmulatorContext) :
    Except Fault (Option EmulatorContext) := do
  let ectx ← ectx.writeAt (addr + 0) (llbyteFromDword d)
  let ectx ← ectx.writeAt (addr + 1) (lhbyteFromDword d)
  let ectx ← ectx.writeAt (addr + 2) (hlbyteFromDword d)
  let ectx ← ectx.writeAt (addr + 3) (hhbyteFromDword d)
  return some ectx

def memGetByteP (addr : Dword) (ectx : EmulatorContext) : Except Fault (Option Byte) := do
  let b ← ectx.readAt addr
  return some b

def memGetWordP (addr : Dword) (ectx : EmulatorContext) : Except Fault (Option Word) := do
  let lo ← ectx.readAt (addr + 0)
  let hi ← ectx.readAt (addr + 1)
  return some (wordFromBytes hi lo)

def memGetDwordP (addr : Dword) (ectx : EmulatorContext) : Except Fault (Option Dword) := do
  let ll ← ectx.readAt (addr + 0)
  let lh ← ectx.readAt (addr + 1)
  let ul ← ectx.readAt (addr + 2)
  let uh ← ectx.readAt (addr + 3)
  return some (dwordFromBytes uh ul lh ll)

def memGetInstructionP (addr : Dword) (ectx : EmulatorContext) : Except Fault (Option Dword) :=
  memGetDwordP addr ectx

end Cpu
