import Emulathor.Cpu.Memory

/-!
# Instruction decoding

`dec_fetch_ins` of `cpu/decode.c`: fetch a dword, advance the position, cut the dword's four bytes
(in the host's little-endian order, `ibytes`) into fields.
-/

namespace Cpu

open Common

/-- `b >> 4`, a register number. -/
def hiNibble (b : Byte) : Fin 16 := ⟨(b >>> 4).toNat, by
  rw [BitVec.toNat_ushiftRight, Nat.shiftRight_eq_div_pow]
  have := b.isLt
  omega⟩

/-- `b & 0xF`, a register number. -/
def loNibble (b : Byte) : Fin 16 := ⟨(b &&& 0xF#8).toNat, by
  rw [BitVec.toNat_and]
  exact Nat.lt_of_le_of_lt Nat.and_le_right (by decide)⟩

/-- The fields of an instruction with bytes `b1` to `b4`. -/
def decodeBytes (b1 b2 b3 b4 : Byte) : InstructionContext :=
  let opb := loNibble b3
  { pfx := b1 >>> 6
    opcode := b1 &&& 0x3F#8 -- throw away prefix bits
    condition := b2 >>> 4
    dst := loNibble b2
    opa := hiNibble b3
    opb := opb
    imm16 := wordFromBytes b4 b3
    imm12 := (BitVec.ofNat 16 opb.val <<< 8) ||| b4.setWidth 16 }

/-- The fetched instruction, `none` for the pointer `NULL`. -/
def decFetchIns (ectx : EmulatorContext) :
    Except Fault (Option InstructionContext × EmulatorContext) := do
  match ← memGetInstructionP ectx.pos ectx with
  | none => return (none, ectx)
  | some idata =>
    let ectx := { ectx with pos := ectx.pos + 4 } -- advance instruction pointer
    -- `(byte*)&idata` on a little-endian host
    let b1 := llbyteFromDword idata
    let b2 := lhbyteFromDword idata
    let b3 := hlbyteFromDword idata
    let b4 := hhbyteFromDword idata
    return (some (decodeBytes b1 b2 b3 b4), ectx)

end Cpu
