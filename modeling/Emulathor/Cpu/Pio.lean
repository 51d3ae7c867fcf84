import Emulathor.Cpu.Context

/-!
# Port I/O

`cpu/pio.c`. Port numbers are bytes, the table has 128 entries.
-/

namespace Cpu

open Common

/-- `ports[no]` -/
def portAt (no : Byte) (ectx : EmulatorContext) : Except Fault (Option PortHandler) :=
  if h : no.toNat < 128 then .ok (ectx.ports ⟨no.toNat, h⟩) else .error (.port no)

/-- The port null is a simple dword latch: the dword read, or the latch written. -/
def pioNull (read : Bool) (data : Dword) (ectx : EmulatorContext) : Dword × EmulatorContext :=
  if read then (ectx.latch, ectx) else (data, { ectx with latch := data })

def PortHandler.call : PortHandler → Bool → Dword → EmulatorContext → Dword × EmulatorContext
  | pioNull => Cpu.pioNull

def pioInit (ectx : EmulatorContext) : EmulatorContext :=
  { ectx with ports := Function.update ectx.ports 0 (some .pioNull) }

def pioRead (no : Byte) (ectx : EmulatorContext) : Except Fault (Dword × EmulatorContext) := do
  match ← portAt no ectx with
  | none => return (no.setWidth 32, ectx)
  | some hndl => return hndl.call true 0 ectx

def pioWrite (no : Byte) (data : Dword) (ectx : EmulatorContext) :
    Except Fault EmulatorContext := do
  match ← portAt no ectx with
  | none => return ectx
  | some hndl => return (hndl.call false data ectx).2

end Cpu
