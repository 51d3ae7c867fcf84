import Mathlib.Data.List.Basic
import Emulathor.Common.RawDefs

/-!
# Names and codes

`common/lookup.c`: the tables of mnemonics and register names, read in both directions. A table is
the C array's pairs of code and name; `NULL` pairs are code zero without a name. A name that is not
in a table gets the function's default code, a code that is not gets `"N/A"`.
-/

namespace Common

/-- The pairs of a `*lkupbuf` array. -/
abbrev LookupBuf := List (Byte × Option String)

def nullPair : Byte × Option String := (0x00#8, none)

/-- A named pair with an opcode. -/
def opPair (o : Opcode) (name : String) : Byte × Option String := (o.code, some name)

def oplkupbuf : LookupBuf :=
  [opPair .stop "STOP", opPair .fail "FAIL", nullPair, nullPair, opPair .iret "IRET", nullPair,
    opPair .loadi "LOADI", nullPair, opPair .storema "STOREMA", opPair .loadma "LOADMA",
    opPair .int "INT", opPair .jmp "JMP", opPair .call "CALL", opPair .storeas "STOREAS",
    opPair .loadas "LOADAS", nullPair, opPair .smul "SMUL", opPair .sdiv "SDIV", opPair .not "NOT",
    nullPair, opPair .sex "SEX", opPair .mod "MOD", opPair .test "TEST", nullPair,
    opPair .cmp "CMP", opPair .in_ "IN", opPair .mov "MOV", opPair .cmpxchg "CMPXCHG", nullPair,
    opPair .movtc "MOVTC", opPair .movfc "MOVFC", opPair .sar "SAR", opPair .xchg "XCHG",
    opPair .and "AND", opPair .or "OR", opPair .xor "XOR", opPair .shl "SHL", opPair .shr "SHR",
    opPair .loadid "LOADID", opPair .loadrd "LOADRD", opPair .storeid "STOREID",
    opPair .storerd "STORERD", opPair .add "ADD", opPair .sub "SUB", opPair .mul "MUL",
    opPair .div "DIV", opPair .out "OUT", opPair .xchgc "XCHGC"]
  ++ List.replicate 16 nullPair

def creglkupbuf : LookupBuf :=
  [(cpuCregMr1, some "MR1"), (cpuCregMr2, some "MR2"), (cpuCregCr1, some "CR1"),
    (cpuCregCr2, some "CR2"), (cpuCregSsp, some "SSP"), (cpuCregMr3, some "MR3"),
    (cpuCregMr4, some "MR4"), (cpuCregSt1, some "ST1"),
    -- not `CPU_CREG_ST2`, `CPU_CREG_ST3`, `CPU_CREG_ST4`
    (cpuCregSt1, some "ST2"), (cpuCregSt1, some "ST3"), (cpuCregSt1, some "ST4")]
  ++ List.replicate 5 nullPair

def reg32lkupbuf : LookupBuf :=
  [(0x00#8, some "R0"), (0x01#8, some "R1"), (0x02#8, some "R2"), (0x03#8, some "R3"),
    (0x04#8, some "R4"), (0x05#8, some "R5"), (0x06#8, some "R6"), (0x07#8, some "R7"),
    (0x08#8, some "R8"), (0x09#8, some "R9"), (0x0A#8, some "RA"), (0x0B#8, some "RB"),
    (0x0C#8, some "RC"), (0x0D#8, some "BP"), (0x0E#8, some "SP"), (0x0F#8, some "FLGS")]

def reg16lkupbuf : LookupBuf :=
  [(0x00#8, some "R0L"), (0x01#8, some "R0H"), (0x02#8, some "R1L"), (0x03#8, some "R1H"),
    (0x04#8, some "R2L"), (0x05#8, some "R2H"), (0x06#8, some "R3L"), (0x07#8, some "R3H"),
    (0x08#8, some "R4L"), (0x09#8, some "R4H"), (0x0A#8, some "R5L"), (0x0B#8, some "R5H"),
    (0x0C#8, some "R6L"), (0x0D#8, some "R6H"), (0x0E#8, some "R7L"), (0x0F#8, some "R7H")]

def reg8lkupbuf : LookupBuf :=
  [(0x00#8, some "R0LL"), (0x01#8, some "R0LH"), (0x02#8, some "R0HL"), (0x03#8, some "R0HH"),
    (0x04#8, some "R1LL"), (0x05#8, some "R1LH"), (0x06#8, some "R1HL"), (0x07#8, some "R1HH"),
    (0x08#8, some "R2LL"), (0x09#8, some "R2LH"), (0x0A#8, some "R2HL"), (0x0B#8, some "R2HH"),
    (0x0C#8, some "R3LL"), (0x0D#8, some "R3LH"), (0x0E#8, some "R3HL"), (0x0F#8, some "R3HH")]

/-! ## Reading the tables -/

/-- The code of the first pair with this name. -/
def codeFor (buf : LookupBuf) (dflt : Byte) (name : String) : Byte :=
  match buf.find? fun p => p.2 == some name with
  | some p => p.1
  | none => dflt

/-- The name of the first pair with this code. -/
def nameOf (buf : LookupBuf) (code : Byte) : String :=
  match buf.find? fun p => p.1 == code with
  | some (_, some name) => name
  | some (_, none) | none => "N/A"

def getOpForName : String → Byte := codeFor oplkupbuf Opcode.stop.code
def getCregForName : String → Byte := codeFor creglkupbuf cpuCregCr1
def getRegForName : String → Byte := codeFor reg32lkupbuf 0x00#8
def getReg16ForName : String → Byte := codeFor reg16lkupbuf 0x00#8
def getReg8ForName : String → Byte := codeFor reg8lkupbuf 0x00#8

def getCondForName (cond : String) : Byte :=
  if cond = "IS" then Cond.is.code
  else if cond = "NS" then Cond.ns.code
  else if cond = "IZ" then Cond.iz.code
  else if cond = "NZ" then Cond.nz.code
  else if cond = "IP" then Cond.ip.code
  else if cond = "NP" then Cond.np.code
  else if cond = "IO" then Cond.io.code
  else if cond = "NO" then Cond.no.code
  else if cond = "IZIS" then Cond.izis.code
  else if cond = "NZNS" then Cond.nzns.code
  else if cond = "IZIC" then Cond.izic.code
  else if cond = "NZNC" then Cond.nznc.code
  else if cond = "IC" then Cond.ic.code
  else if cond = "NC" then Cond.nc.code
  else if cond = "NF" then Cond.nf.code
  else Cond.always.code

def getNameOfOp : Byte → String := nameOf oplkupbuf
def getNameOfCreg : Byte → String := nameOf creglkupbuf
def getNameOfReg : Byte → String := nameOf reg32lkupbuf
def getNameOfReg16 : Byte → String := nameOf reg16lkupbuf
def getNameOfReg8 : Byte → String := nameOf reg8lkupbuf

def getNameOfCond (cond : Byte) : String :=
  match Cond.ofByte cond with
  | some .always => ""
  | some .is => "IS"
  | some .ns => "NS"
  | some .iz => "IZ"
  | some .nz => "NZ"
  | some .io => "IO"
  | some .no => "NO"
  | some .ip => "IP"
  | some .np => "NP"
  | some .izis => "IZIS"
  | some .izic => "IZIC"
  | some .nzns => "NZNS"
  | some .nznc => "NZNC"
  | some .ic => "IC"
  | some .nc => "NC"
  | some .nf => "NF"
  | none => "N/A"

end Common
