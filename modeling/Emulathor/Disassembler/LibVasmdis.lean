import Emulathor.Common.Lookup

/-!
# The disassembler

`disassembler/lib_vasmdis.c`: four bytes cut into the fields of an `instruction`, and the text of an
instruction. `snprintf` keeps what fits a buffer of its size.
-/

namespace Disassembler

open Common

/-- The `instruction` struct. -/
structure Instruction where
  opcode : Byte
  /-- `prefix` -/
  pfx : Byte
  condition : Byte
  destination : Byte
  operandA : Byte
  operandB : Byte
  imm16 : Word
  imm12 : Word
  deriving DecidableEq, Repr

def vasmdisBytesToInstruction (b0 b1 b2 b3 : Byte) : Instruction :=
  let operandB := b2 &&& 0x0F#8
  { opcode := b0 &&& 0x3F#8
    pfx := b0 >>> 6
    condition := b1 >>> 4
    destination := b1 &&& 0x0F#8
    operandA := b2 >>> 4
    operandB
    imm16 := (b3.setWidth 16 <<< 8) ||| b2.setWidth 16
    imm12 := (operandB.setWidth 16 <<< 8) ||| b3.setWidth 16 }

/-! ## Texts -/

/-- The text in a buffer of `n` bytes, the last of them for the terminator. -/
def snprintf (n : Nat) (s : String) : String := String.ofList (s.toList.take (n - 1))

def argumentBufferSize : Nat := 256
def instructionBufferSize : Nat := 256

/-- `0x%04x` -/
def hex4 (w : Word) : String :=
  "0x" ++ String.ofList [Nat.digitChar (w.toNat / 4096), Nat.digitChar (w.toNat / 256 % 16),
    Nat.digitChar (w.toNat / 16 % 16), Nat.digitChar (w.toNat % 16)]

def fmtRegRegReg (a b c : String) : String := a ++ ",\t" ++ b ++ ",\t" ++ c
def fmtRegReg (a b : String) : String := a ++ ",\t" ++ b
def fmtRegRegImm12 (a b : String) (imm : Word) : String := a ++ ",\t" ++ b ++ ",\t" ++ hex4 imm
def fmtReg (a : String) : String := a
def fmtRegImm12 (a : String) (imm : Word) : String := a ++ ",\t" ++ hex4 imm
def fmtRegImm16 (a : String) (imm : Word) : String := a ++ ",\t" ++ hex4 imm
def fmtImm16 (imm : Word) : String := hex4 imm
def fmtNone : String := ""

def msgInvalidArgs : String := "; INVALID"

section
variable (instruction : Instruction)

def decodeDwordPrefixOps : String :=
  match Opcode.ofByte instruction.opcode with
  | some .stop | some .iret => fmtNone -- FORMAT I
  -- FORMAT II
  | some .add | some .and | some .div | some .or | some .mod | some .mul | some .sar | some .sdiv
  | some .shl | some .shr | some .smul | some .sub | some .xor | some .loadrd | some .storerd
  | some .cmpxchg =>
    fmtRegRegReg (getNameOfReg instruction.destination) (getNameOfReg instruction.operandA)
      (getNameOfReg instruction.operandB)
  -- FORMAT V
  | some .call | some .jmp | some .test | some .loadas | some .storeas =>
    fmtReg (getNameOfReg instruction.destination)
  -- FORMAT VI
  | some .cmp | some .in_ | some .not | some .out | some .xchg | some .mov =>
    fmtRegReg (getNameOfReg instruction.operandA) (getNameOfReg instruction.operandB)
  | some .loadid | some .storeid =>
    fmtRegRegImm12 (getNameOfReg instruction.destination) (getNameOfReg instruction.operandA)
      instruction.imm12
  | some .movtc =>
    fmtRegReg (getNameOfCreg instruction.operandA) (getNameOfReg instruction.operandB)
  | some .xchgc | some .movfc =>
    fmtRegReg (getNameOfReg instruction.operandA) (getNameOfCreg instruction.operandB)
  | _ => msgInvalidArgs

def decodeWordPrefixOps : String :=
  match Opcode.ofByte instruction.opcode with
  | some .loadi => fmtRegImm16 (getNameOfReg16 instruction.destination) instruction.imm16
  | some .loadid =>
    fmtRegRegImm12 (getNameOfReg16 instruction.destination) (getNameOfReg instruction.operandA)
      instruction.imm12
  | some .loadrd =>
    fmtRegRegReg (getNameOfReg16 instruction.destination) (getNameOfReg instruction.operandA)
      (getNameOfReg instruction.operandB)
  | some .mov =>
    fmtRegReg (getNameOfReg16 instruction.operandA) (getNameOfReg16 instruction.operandB)
  | some .sex => fmtRegReg (getNameOfReg instruction.operandA) (getNameOfReg16 instruction.operandB)
  | some .storeid =>
    fmtRegRegImm12 (getNameOfReg instruction.destination) (getNameOfReg16 instruction.operandA)
      instruction.imm12
  | some .storerd =>
    fmtRegRegReg (getNameOfReg instruction.destination) (getNameOfReg16 instruction.operandA)
      (getNameOfReg instruction.operandB)
  | _ => msgInvalidArgs

def decodeBytePrefixOps : String :=
  match Opcode.ofByte instruction.opcode with
  | some .loadi => fmtRegImm16 (getNameOfReg8 instruction.destination) instruction.imm16
  | some .loadid =>
    fmtRegRegImm12 (getNameOfReg8 instruction.destination) (getNameOfReg instruction.operandA)
      instruction.imm12
  | some .loadrd =>
    fmtRegRegReg (getNameOfReg8 instruction.destination) (getNameOfReg instruction.operandA)
      (getNameOfReg instruction.operandB)
  | some .mov =>
    fmtRegReg (getNameOfReg8 instruction.operandA) (getNameOfReg8 instruction.operandB)
  | some .sex => fmtRegReg (getNameOfReg instruction.operandA) (getNameOfReg8 instruction.operandB)
  | some .storeid =>
    fmtRegRegImm12 (getNameOfReg instruction.destination) (getNameOfReg8 instruction.operandA)
      instruction.imm12
  | some .storerd =>
    fmtRegRegReg (getNameOfReg instruction.destination) (getNameOfReg8 instruction.operandA)
      (getNameOfReg instruction.operandB)
  | _ => msgInvalidArgs

def decodeImmediatePrefixOps : String :=
  match Opcode.ofByte instruction.opcode with
  -- FORMAT III
  | some .add | some .and | some .div | some .or | some .mod | some .mul | some .sar | some .sdiv
  | some .shl | some .shr | some .smul | some .sub | some .xor =>
    fmtRegRegImm12 (getNameOfReg instruction.destination) (getNameOfReg instruction.operandA)
      instruction.imm12
  -- FORMAT VII
  | some .cmp => fmtRegImm12 (getNameOfReg instruction.operandA) instruction.imm12
  -- FORMAT VIII
  | some .call | some .fail | some .int | some .jmp | some .test => fmtImm16 instruction.imm16
  | some .loadma => fmtRegImm16 (getNameOfReg instruction.destination) instruction.imm16
  | some .storema => fmtRegImm16 (getNameOfReg instruction.destination) instruction.imm16
  | _ => msgInvalidArgs

def decodeInstructionArguments : String :=
  snprintf argumentBufferSize <|
    if instruction.pfx = pfxDword then decodeDwordPrefixOps instruction
    else if instruction.pfx = pfxWord then decodeWordPrefixOps instruction
    else if instruction.pfx = pfxByte then decodeBytePrefixOps instruction
    else if instruction.pfx = pfxImm then decodeImmediatePrefixOps instruction
    else "" -- not reached: two bits have no other value

end

def vasmdisDisasmInstruction (b0 b1 b2 b3 : Byte) : String :=
  let instruction := vasmdisBytesToInstruction b0 b1 b2 b3
  let opcodeStr := getNameOfOp instruction.opcode
  let conditionStr := getNameOfCond instruction.condition
  let bufferReg := decodeInstructionArguments instruction
  snprintf instructionBufferSize (opcodeStr ++ conditionStr ++ "\t\t" ++ bufferReg)

end Disassembler
