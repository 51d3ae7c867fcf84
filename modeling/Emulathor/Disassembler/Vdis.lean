import Emulathor.Lib.Run
import Emulathor.Disassembler.LibVasmdis

/-!
# vdis

The loop of `main` in `disassembler/vdis.c`, over the contents of an image file.
`g_file_load_contents` terminates them with a zero byte that it does not count; a read behind that is a
`Fault`. One round of the loop is `vdisIteration`, which returns when the condition fails.
-/

namespace Disassembler

open Common Lib

/-- A read outside the loaded data. -/
inductive Fault
  | read (i : Nat)
  deriving DecidableEq, Repr

structure VdisState where
  pos : Dword
  /-- the values of `pos` that `vasmdis_disasm_instruction` was called with -/
  calls : List Dword
  /-- the lines written -/
  file : List String
  deriving DecidableEq, Repr

def vdisInit : VdisState := { pos := 0, calls := [], file := [] }

/-- `filedata[i]` -/
def filedata (contents : List Byte) (i : Nat) : Except Fault Byte :=
  match (contents ++ [0x00#8])[i]? with
  | some b => .ok b
  | none => .error (.read i)

/-- What `vasmdis_disasm_instruction(&filedata[pos])` returns. -/
def disasmAt (contents : List Byte) (pos : Dword) : Except Fault String := do
  let b0 ← filedata contents pos.toNat
  let b1 ← filedata contents (pos.toNat + 1)
  let b2 ← filedata contents (pos.toNat + 2)
  let b3 ← filedata contents (pos.toNat + 3)
  return vasmdisDisasmInstruction b0 b1 b2 b3

/-- One round of the loop; `pos` has 32 bits, `size` 64. -/
def vdisIteration (contents : List Byte) (s : VdisState) : Except Fault (Flow VdisState Unit) :=
  if s.pos.toNat < contents.length then do
    let line ← disasmAt contents s.pos
    return .next { pos := s.pos + 4, calls := s.calls ++ [s.pos], file := s.file ++ [line] }
  else return .ret () s

/-- The text of the lines written. -/
def fileText (s : VdisState) : List Char := s.file.flatMap fun line => line.toList ++ ['\n']

end Disassembler
