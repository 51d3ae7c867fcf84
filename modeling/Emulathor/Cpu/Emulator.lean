import Emulathor.Cpu.Execute

/-!
# Setting up and loading

`emu_create_context` and `emu_init` of `mkcontext.c`, `emu_load_img` of `emulator.c`.
-/

namespace Cpu

open Common

def vaDefaultMemorySize : Dword := 4 * 1024 * 1024

def vaInitSspLocation : Dword := 0x800#32
def vaInitSpLocation : Dword := 0x600#32

def instructionsStartOffset : Nat := 4096

/-- The place of a control register in `cregs`. -/
def cregIndex (c : Byte) : Fin 16 := Fin.ofNat 16 c.toNat

/-- The registers are allocated uninitialised: `regs` and `cregs` are what they hold. -/
def emuCreateContext (memsize : Dword) (regs cregs : Fin 16 → Dword) : EmulatorContext :=
  let memsize := if memsize = 0 then vaDefaultMemorySize else memsize
  let cregs := Function.update cregs (cregIndex cpuCregSsp) vaInitSspLocation
  let cregs := Function.update cregs (cregIndex cpuCregCr1) cr1PrivMode
  let cregs := Function.update cregs (cregIndex cpuCregMr2) 0x00#32
  { memory := fun _ => 0
    memorySize := memsize
    cregs
    regs := Function.update regs cpuRegSp vaInitSpLocation
    pos := 0
    instructionCount := 0
    ports := fun _ => none
    latch := 0 }

def emuInit (regs cregs : Fin 16 → Dword) : EmulatorContext :=
  pioInit (emuCreateContext 0 regs cregs)

/-- The image file's contents copied behind `INSTRUCTIONS_START_OFFSET`, where execution starts. -/
def emuLoadImg (filedata : List Byte) (ectx : EmulatorContext) : Except Fault EmulatorContext :=
  if instructionsStartOffset + filedata.length ≤ ectx.memorySize.toNat then
    .ok { ectx with
      memory := fun i =>
        if instructionsStartOffset ≤ i.toNat then
          filedata.getD (i.toNat - instructionsStartOffset) (ectx.memory i)
        else ectx.memory i
      pos := BitVec.ofNat 32 instructionsStartOffset }
  else .error (.memory (BitVec.ofNat 32 (max instructionsStartOffset ectx.memorySize.toNat)))

end Cpu
