import Emulathor.Assembler.Image
import Emulathor.Common.Lookup

/-!
# The vasm grammar

The tokens of `assembler/vasm.l` and the productions of `exp` in `assembler/vasm.y`. A token with a
name carries one the lexer's rule for it matches, in upper case (`Name`). `exp` is the action of the
production a token list is an instance of, `none` for a syntax error; the productions of a
mnemonic's token are a function of their own, the forms with and without `CONDITION` beside each
other as in the source.
-/

namespace Assembler

open Common

/-! ## Tokens -/

/-- A name of one of the lexer's rules. -/
abbrev Name (names : List String) := { s : String // s ∈ names }

def reg32Names : List String :=
  ["R0", "R1", "R2", "R3", "R4", "R5", "R6", "R7", "R8", "R9", "RA", "RB", "RC", "BP", "SP", "FLGS"]

def reg16Names : List String :=
  ["R0L", "R0H", "R1L", "R1H", "R2L", "R2H", "R3L", "R3H", "R4L", "R4H", "R5L", "R5H", "R6L", "R6H",
    "R7L", "R7H"]

def reg8Names : List String :=
  ["R0LL", "R0LH", "R0HL", "R0HH", "R1LL", "R1LH", "R1HL", "R1HH", "R2LL", "R2LH", "R2HL", "R2HH",
    "R3LL", "R3LH", "R3HL", "R3HH"]

def cregNames : List String :=
  ["MR1", "MR2", "MR3", "MR4", "CR1", "CR2", "SSP", "ST1", "ST2", "ST3", "ST4"]

def opFmtINames : List String := ["IRET", "STOP"]

def opFmtIINames : List String :=
  ["ADD", "AND", "DIV", "OR", "MOD", "MUL", "SAR", "SDIV", "SHL", "SHR", "SMUL", "SUB", "XOR"]

def opFmtIVNames : List String := ["LOADMA", "STOREMA"]
def opFmtVNames : List String := ["CALL", "JMP", "TEST"]
def opFmtVINames : List String := ["CMP", "IN", "NOT", "OUT", "XCHG"]
def opFmtVICNames : List String := ["MOVTC", "MOVFC"]
def opFmtVIIINames : List String := ["FAIL", "INT"]

def conditionNames : List String :=
  ["NZNC", "NZNS", "IZ", "NZ", "IS", "NS", "IO", "NO", "IP", "NP", "IZIS", "IZIC", "IC", "NC", "NF"]

inductive Token
  | int (val : Word)
  | int32 (val : Dword)
  | ident (name : String)
  | reg32 (name : Name reg32Names)
  | reg16 (name : Name reg16Names)
  | reg8 (name : Name reg8Names)
  | creg (name : Name cregNames)
  | opFmtI (name : Name opFmtINames)
  | opFmtII (name : Name opFmtIINames)
  | opFmtIV (name : Name opFmtIVNames)
  | opFmtV (name : Name opFmtVNames)
  | opFmtVI (name : Name opFmtVINames)
  | opFmtVIC (name : Name opFmtVICNames)
  | opFmtVIII (name : Name opFmtVIIINames)
  | opSCmpxchg | opSLoadi | opSLoadid | opSLoadrd | opSMov | opSSex | opSStoreid | opSStorerd
  | opSXchgc | opSLoadas | opSStoreas
  | opPseudoLoadadr | opPseudoLdcall | opPseudoLdjmp | opPseudoPop | opPseudoPush | opPseudoLoad32
  | condition (name : Name conditionNames)
  | comma | endl | space | garbage
  | directiveAlign | directiveLabel | directiveOffset | directiveByte | directiveWord
  | directiveDword | directiveAt | directiveBytes | directiveEnd
  deriving DecidableEq, Repr

/-! ## What the actions share -/

/-- The calls of an action. -/
abbrev Action := List Statement

def checkIfValid12Bit (immidiateData : Word) : Action :=
  if immidiateData &&& 0xF000#16 ≠ 0 then [.yyerror "value not in 12 bit range"] else []

/-- `yyerror(emctx, msg)` if the register is above `R7`. -/
def checkIfR7 (reg : Byte) (msg : String) : Action :=
  if reg > cpuRegR7 then [.yyerror msg] else []

def cAlways : Byte := Cond.always.code

section
open Token Statement EmitCall

/-! ## Productions by format -/

def expFmtI (op : String) : List Token → Option Action
  | [] => some [call (.fmtI pfxDword cAlways (getOpForName op))]
  | [condition c2] => some [call (.fmtI pfxDword (getCondForName c2) (getOpForName op))]
  | _ => none

def expFmtII (op : String) : List Token → Option Action
  | [space, reg32 r3, comma, reg32 r5, comma, reg32 r7] =>
    some [call (.fmtII pfxDword cAlways (getOpForName op) (getRegForName r3) (getRegForName r5)
      (getRegForName r7))]
  | [condition c2, space, reg32 r4, comma, reg32 r6, comma, reg32 r8] =>
    some [call (.fmtII pfxDword (getCondForName c2) (getOpForName op) (getRegForName r4)
      (getRegForName r6) (getRegForName r8))]
  -- becomes format III
  | [space, reg32 r3, comma, reg32 r5, comma, int i7] =>
    some (checkIfValid12Bit i7 ++
      [call (.fmtIII pfxImm cAlways (getOpForName op) (getRegForName r3) (getRegForName r5) i7)])
  | [condition c2, space, reg32 r4, comma, reg32 r6, comma, int i8] =>
    some (checkIfValid12Bit i8 ++
      [call (.fmtIII pfxImm (getCondForName c2) (getOpForName op) (getRegForName r4)
        (getRegForName r6) i8)])
  | _ => none

def expFmtIV (op : String) : List Token → Option Action
  | [space, reg32 r3, comma, int i5] =>
    some [call (.fmtIV pfxImm cAlways (getOpForName op) (getRegForName r3) i5)]
  | [condition c2, space, reg32 r4, comma, int i6] =>
    some [call (.fmtIV pfxImm (getCondForName c2) (getOpForName op) (getRegForName r4) i6)]
  | _ => none

def expFmtV (op : String) : List Token → Option Action
  | [space, reg32 r3] =>
    some [call (.fmtV pfxDword cAlways (getOpForName op) (getRegForName r3))]
  | [condition c2, space, reg32 r4] =>
    some [call (.fmtV pfxDword (getCondForName c2) (getOpForName op) (getRegForName r4))]
  -- becomes format VIII
  | [space, int i3] => some [call (.fmtVIII pfxImm cAlways (getOpForName op) i3)]
  | [condition c2, space, int i4] =>
    some [call (.fmtVIII pfxImm (getCondForName c2) (getOpForName op) i4)]
  | _ => none

def expFmtVI (op : String) : List Token → Option Action
  | [space, reg32 r3, comma, reg32 r5] =>
    some [call (.fmtVI pfxDword cAlways (getOpForName op) (getRegForName r3) (getRegForName r5))]
  | [condition c2, space, reg32 r4, comma, reg32 r6] =>
    some [call (.fmtVI pfxDword (getCondForName c2) (getOpForName op) (getRegForName r4)
      (getRegForName r6))]
  -- in the case of CMP this becomes VII
  | [space, reg32 r3, comma, int i5] =>
    some ((if op ≠ "CMP" then [Statement.yyerror "Failure..."] else []) ++ checkIfValid12Bit i5 ++
      [call (.fmtVII pfxImm cAlways (getOpForName op) (getRegForName r3) i5)])
  | [condition c2, space, reg32 r4, comma, int i6] =>
    some ((if op ≠ "CMP" then [Statement.yyerror "Failure..."] else []) ++ checkIfValid12Bit i6 ++
      [call (.fmtVII pfxImm (getCondForName c2) (getOpForName op) (getRegForName r4) i6)])
  | _ => none

/-- Same as VI but with control registers. -/
def expFmtVIC (op : String) : List Token → Option Action
  | [space, creg r3, comma, reg32 r5] =>
    some [call (.fmtVI pfxDword cAlways (getOpForName op) (getCregForName r3) (getRegForName r5))]
  | [condition c2, space, creg r4, comma, reg32 r6] =>
    some [call (.fmtVI pfxDword (getCondForName c2) (getOpForName op) (getCregForName r4)
      (getRegForName r6))]
  | [space, reg32 r3, comma, creg r5] =>
    some [call (.fmtVI pfxDword cAlways (getOpForName op) (getRegForName r3) (getCregForName r5))]
  | [condition c2, space, reg32 r4, comma, creg r6] =>
    some [call (.fmtVI pfxDword (getCondForName c2) (getOpForName op) (getRegForName r4)
      (getCregForName r6))]
  | _ => none

def expFmtVIII (op : String) : List Token → Option Action
  | [condition c2, space, int i4] =>
    some [call (.fmtVIII pfxImm (getCondForName c2) (getOpForName op) i4)]
  | [space, int i3] => some [call (.fmtVIII pfxImm cAlways (getOpForName op) i3)]
  | _ => none

/-! ## Productions by mnemonic -/

def expCmpxchg : List Token → Option Action
  | [space, reg32 r3, comma, reg32 r5, comma, reg32 r7] =>
    some [call (.fmtII pfxDword cAlways Opcode.cmpxchg.code (getRegForName r3) (getRegForName r5)
      (getRegForName r7))]
  | [condition c2, space, reg32 r4, comma, reg32 r6, comma, reg32 r8] =>
    some [call (.fmtII pfxDword (getCondForName c2) Opcode.cmpxchg.code (getRegForName r4)
      (getRegForName r6) (getRegForName r8))]
  | _ => none

def expLoadi : List Token → Option Action
  | [space, reg8 r3, comma, int i5] =>
    some [call (.fmtIV pfxByte cAlways Opcode.loadi.code (getReg8ForName r3) i5)]
  | [condition c2, space, reg8 r4, comma, int i6] =>
    some [call (.fmtIV pfxByte (getCondForName c2) Opcode.loadi.code (getReg8ForName r4) i6)]
  | [space, reg16 r3, comma, int i5] =>
    some [call (.fmtIV pfxWord cAlways Opcode.loadi.code (getReg16ForName r3) i5)]
  | [condition c2, space, reg16 r4, comma, int i6] =>
    some [call (.fmtIV pfxWord (getCondForName c2) Opcode.loadi.code (getReg16ForName r4) i6)]
  | _ => none

def expLoadid : List Token → Option Action
  | [space, reg32 r3, comma, reg32 r5, comma, int i7] =>
    some (checkIfValid12Bit i7 ++
      [call (.fmtIII pfxDword cAlways Opcode.loadid.code (getRegForName r3) (getRegForName r5) i7)])
  | [condition c2, space, reg32 r4, comma, reg32 r6, comma, int i8] =>
    some (checkIfValid12Bit i8 ++
      [call (.fmtIII pfxDword (getCondForName c2) Opcode.loadid.code (getRegForName r4)
        (getRegForName r6) i8)])
  | [space, reg8 r3, comma, reg32 r5, comma, int i7] =>
    some (checkIfValid12Bit i7 ++
      [call (.fmtIII pfxByte cAlways Opcode.loadid.code (getReg8ForName r3) (getRegForName r5) i7)])
  | [condition c2, space, reg8 r4, comma, reg32 r6, comma, int i8] =>
    some (checkIfValid12Bit i8 ++
      [call (.fmtIII pfxByte (getCondForName c2) Opcode.loadid.code (getReg8ForName r4)
        (getRegForName r6) i8)])
  | [space, reg16 r3, comma, reg32 r5, comma, int i7] =>
    some (checkIfValid12Bit i7 ++
      [call (.fmtIII pfxWord cAlways Opcode.loadid.code (getReg16ForName r3) (getRegForName r5)
        i7)])
  | [condition c2, space, reg16 r4, comma, reg32 r6, comma, int i8] =>
    some (checkIfValid12Bit i8 ++
      [call (.fmtIII pfxWord (getCondForName c2) Opcode.loadid.code (getReg16ForName r4)
        (getRegForName r6) i8)])
  | _ => none

def expLoadrd : List Token → Option Action
  | [space, reg32 r3, comma, reg32 r5, comma, reg32 r7] =>
    some [call (.fmtII pfxDword cAlways Opcode.loadrd.code (getRegForName r3) (getRegForName r5)
      (getRegForName r7))]
  | [condition c2, space, reg32 r4, comma, reg32 r6, comma, reg32 r8] =>
    some [call (.fmtII pfxDword (getCondForName c2) Opcode.loadrd.code (getRegForName r4)
      (getRegForName r6) (getRegForName r8))]
  | [space, reg8 r3, comma, reg32 r5, comma, reg32 r7] =>
    some [call (.fmtII pfxByte cAlways Opcode.loadrd.code (getReg8ForName r3) (getRegForName r5)
      (getRegForName r7))]
  | [condition c2, space, reg8 r4, comma, reg32 r6, comma, reg32 r8] =>
    some [call (.fmtII pfxByte (getCondForName c2) Opcode.loadrd.code (getReg8ForName r4)
      (getRegForName r6) (getRegForName r8))]
  | [space, reg16 r3, comma, reg32 r5, comma, reg32 r7] =>
    some [call (.fmtII pfxWord cAlways Opcode.loadrd.code (getReg16ForName r3) (getRegForName r5)
      (getRegForName r7))]
  | [condition c2, space, reg16 r4, comma, reg32 r6, comma, reg32 r8] =>
    -- looked up in the tables of other register classes
    some [call (.fmtII pfxWord (getCondForName c2) Opcode.loadrd.code (getReg8ForName r4)
      (getRegForName r6) (getReg16ForName r8))]
  | _ => none

def expMov : List Token → Option Action
  | [space, reg32 r3, comma, reg32 r5] =>
    some [call (.fmtVI pfxDword cAlways (getOpForName "MOV") (getRegForName r3)
      (getRegForName r5))]
  | [condition c2, space, reg32 r4, comma, reg32 r6] =>
    some [call (.fmtVI pfxDword (getCondForName c2) (getOpForName "MOV") (getRegForName r4)
      (getRegForName r6))]
  | [space, reg16 r3, comma, reg16 r5] =>
    some [call (.fmtVI pfxWord cAlways (getOpForName "MOV") (getReg16ForName r3)
      (getReg16ForName r5))]
  | [condition c2, space, reg16 r4, comma, reg16 r6] =>
    some [call (.fmtVI pfxWord (getCondForName c2) (getOpForName "MOV") (getReg16ForName r4)
      (getReg16ForName r6))]
  | [space, reg8 r3, comma, reg8 r5] =>
    some [call (.fmtVI pfxByte cAlways (getOpForName "MOV") (getReg8ForName r3)
      (getReg8ForName r5))]
  | [condition c2, space, reg8 r4, comma, reg8 r6] =>
    some [call (.fmtVI pfxByte (getCondForName c2) (getOpForName "MOV") (getReg8ForName r4)
      (getReg8ForName r6))]
  | _ => none

def expSex : List Token → Option Action
  | [condition c2, space, reg32 r4, comma, reg8 r6] =>
    some [call (.fmtVI pfxByte (getCondForName c2) Opcode.sex.code (getRegForName r4)
      (getReg8ForName r6))]
  | [condition c2, space, reg32 r4, comma, reg16 r6] =>
    some [call (.fmtVI pfxWord (getCondForName c2) Opcode.sex.code (getRegForName r4)
      (getReg16ForName r6))]
  | [space, reg32 r3, comma, reg8 r5] =>
    some [call (.fmtVI pfxByte cAlways Opcode.sex.code (getRegForName r3) (getReg8ForName r5))]
  | [space, reg32 r3, comma, reg16 r5] =>
    some [call (.fmtVI pfxWord cAlways Opcode.sex.code (getRegForName r3) (getReg16ForName r5))]
  | _ => none

def expStoreid : List Token → Option Action
  | [space, reg32 r3, comma, reg32 r5, comma, int i7] =>
    some (checkIfValid12Bit i7 ++
      [call (.fmtIII pfxDword cAlways Opcode.storeid.code (getRegForName r3) (getRegForName r5)
        i7)])
  | [condition c2, space, reg32 r4, comma, reg32 r6, comma, int i8] =>
    some (checkIfValid12Bit i8 ++
      [call (.fmtIII pfxDword (getCondForName c2) Opcode.storeid.code (getRegForName r4)
        (getRegForName r6) i8)])
  | [space, reg32 r3, comma, reg8 r5, comma, int i7] =>
    some (checkIfValid12Bit i7 ++
      [call (.fmtIII pfxByte cAlways Opcode.storeid.code (getRegForName r3) (getReg8ForName r5)
        i7)])
  | [condition c2, space, reg32 r4, comma, reg8 r6, comma, int i8] =>
    some (checkIfValid12Bit i8 ++
      [call (.fmtIII pfxByte (getCondForName c2) Opcode.storeid.code (getRegForName r4)
        (getReg8ForName r6) i8)])
  | [space, reg32 r3, comma, reg16 r5, comma, int i7] =>
    some (checkIfValid12Bit i7 ++
      [call (.fmtIII pfxWord cAlways Opcode.storeid.code (getRegForName r3) (getReg16ForName r5)
        i7)])
  | [condition c2, space, reg32 r4, comma, reg16 r6, comma, int i8] =>
    some (checkIfValid12Bit i8 ++
      [call (.fmtIII pfxWord (getCondForName c2) Opcode.storeid.code (getRegForName r4)
        (getReg16ForName r6) i8)])
  | _ => none

def expStorerd : List Token → Option Action
  | [space, reg32 r3, comma, reg32 r5, comma, reg32 r7] =>
    some [call (.fmtII pfxDword cAlways Opcode.storerd.code (getRegForName r3) (getRegForName r5)
      (getRegForName r7))]
  | [space, reg32 r3, comma, reg16 r5, comma, reg32 r7] =>
    some [call (.fmtII pfxWord cAlways Opcode.storerd.code (getRegForName r3) (getReg16ForName r5)
      (getRegForName r7))]
  | [space, reg32 r3, comma, reg8 r5, comma, reg32 r7] =>
    some [call (.fmtII pfxByte cAlways Opcode.storerd.code (getRegForName r3) (getReg8ForName r5)
      (getRegForName r7))]
  | [condition c2, space, reg32 r4, comma, reg32 r6, comma, reg32 r8] =>
    some [call (.fmtII pfxDword (getCondForName c2) Opcode.storerd.code (getRegForName r4)
      (getRegForName r6) (getRegForName r8))]
  | [condition c2, space, reg32 r4, comma, reg16 r6, comma, reg32 r8] =>
    some [call (.fmtII pfxWord (getCondForName c2) Opcode.storerd.code (getRegForName r4)
      (getReg16ForName r6) (getRegForName r8))]
  | [condition c2, space, reg32 r4, comma, reg8 r6, comma, reg32 r8] =>
    some [call (.fmtII pfxByte (getCondForName c2) Opcode.storerd.code (getRegForName r4)
      (getReg8ForName r6) (getRegForName r8))]
  | _ => none

def expXchgc : List Token → Option Action
  | [space, reg32 r3, comma, creg r5] =>
    some [call (.fmtVI pfxDword cAlways Opcode.xchgc.code (getRegForName r3) (getCregForName r5))]
  | [condition c2, space, reg32 r4, comma, creg r6] =>
    -- looked up as a byte register
    some [call (.fmtVI pfxDword (getCondForName c2) Opcode.xchgc.code (getRegForName r4)
      (getReg8ForName r6))]
  | _ => none

def expStoreas : List Token → Option Action
  | [space, reg32 r3] =>
    some [call (.fmtV pfxDword cAlways Opcode.storeas.code (getRegForName r3))]
  | _ => none

def expLoadas : List Token → Option Action
  | [space, reg32 r3] =>
    some [call (.fmtV pfxDword cAlways Opcode.loadas.code (getRegForName r3))]
  | _ => none

/-! ## Pseudo-instructions -/

def expLoadadr : List Token → Option Action
  | [space, reg32 r3, comma, ident l5] =>
    some (checkIfR7 (getRegForName r3)
        "LOADADR is only possible with WORD accessible registers\n" ++
      [call (.labelRef l5 (getRegForName r3) cAlways)])
  | [condition c2, space, reg32 r4, comma, ident l6] =>
    some (checkIfR7 (getRegForName r4)
        "LOADADR is only possible with WORD accessible registers\n" ++
      [call (.labelRef l6 (getRegForName r4) (getCondForName c2))])
  | _ => none

def expLdcall : List Token → Option Action
  | [space, reg32 r3, comma, ident l5] =>
    some (checkIfR7 (getRegForName r3)
        "LDCALL is only possible with WORD accessible registers\n" ++
      [call (.labelRef l5 (getRegForName r3) cAlways),
        call (.fmtV pfxDword cAlways Opcode.call.code (getRegForName r3))])
  | [condition c2, space, reg32 r4, comma, ident l6] =>
    some (checkIfR7 (getRegForName r4)
        "LDCALL is only possible with WORD accessible registers\n" ++
      [call (.labelRef l6 (getRegForName r4) (getCondForName c2)),
        call (.fmtV pfxDword (getCondForName c2) Opcode.call.code (getRegForName r4))])
  | _ => none

def expLdjmp : List Token → Option Action
  | [space, reg32 r3, comma, ident l5] =>
    some (checkIfR7 (getRegForName r3)
        "LDJMP is only possible with WORD accessible registers\n" ++
      [call (.labelRef l5 (getRegForName r3) cAlways),
        call (.fmtV pfxDword cAlways Opcode.jmp.code (getRegForName r3))])
  | [condition c2, space, reg32 r4, comma, ident l6] =>
    some (checkIfR7 (getRegForName r4)
        "LDJMP is only possible with WORD accessible registers\n" ++
      [call (.labelRef l6 (getRegForName r4) (getCondForName c2)),
        call (.fmtV pfxDword (getCondForName c2) Opcode.jmp.code (getRegForName r4))])
  | _ => none

/-- `(get_reg_for_name($3) << 4u) | (get_reg_for_name($3))`, in the word parameter. -/
def selfRange (reg : Byte) : Word := ((reg <<< 4) ||| reg).setWidth 16

def expPush : List Token → Option Action
  | [space, reg32 r3] =>
    some [call (.fmtIV pfxImm cAlways Opcode.storema.code (getRegForName "SP")
      (selfRange (getRegForName r3)))]
  | [condition c2, space, reg32 r4] =>
    some [call (.fmtIV pfxImm (getCondForName c2) Opcode.storema.code (getRegForName "SP")
      (selfRange (getRegForName r4)))]
  | _ => none

def expPop : List Token → Option Action
  | [space, reg32 r3] =>
    some [call (.fmtIV pfxImm cAlways Opcode.loadma.code (getRegForName "SP")
      (selfRange (getRegForName r3)))]
  | [condition c2, space, reg32 r4] =>
    some [call (.fmtIV pfxImm (getCondForName c2) Opcode.loadma.code (getRegForName "SP")
      (selfRange (getRegForName r4)))]
  | _ => none

def expLoad32 : List Token → Option Action
  | [space, reg32 r3, comma, int32 val] =>
    let reg := if getRegForName r3 > cpuRegR7 then cpuRegR7 * 2 else getRegForName r3 * 2
    let xchg : Action :=
      if getRegForName r3 > cpuRegR7 then
        [call (.fmtVI pfxDword cAlways Opcode.xchg.code cpuRegR7 (getRegForName r3))]
      else []
    some (xchg ++
      [call (.fmtIV pfxWord cAlways Opcode.loadi.code reg (lwordFromDword val)),
        call (.fmtIV pfxWord cAlways Opcode.loadi.code (reg + 1) (hwordFromDword val))] ++ xchg)
  | [condition c2, space, reg32 r4, comma, int32 val] =>
    let reg := if getRegForName r4 > cpuRegR7 then cpuRegR7 * 2 else getRegForName r4 * 2
    let xchg : Action :=
      if getRegForName r4 > cpuRegR7 then
        [call (.fmtVI pfxDword (getCondForName c2) Opcode.xchg.code cpuRegR7 (getRegForName r4))]
      else []
    some (xchg ++
      [call (.fmtIV pfxWord (getCondForName c2) Opcode.loadi.code reg (lwordFromDword val)),
        call (.fmtIV pfxWord (getCondForName c2) Opcode.loadi.code (reg + 1)
          (hwordFromDword val))] ++ xchg)
  | _ => none

/-! ## Directives -/

/-- `bytes` and `DIRECTIVE_END`. -/
def expBytes : List Token → Option Action
  | [directiveEnd] => some []
  | endl :: rest => expBytes rest
  | space :: rest => expBytes rest
  | int i1 :: rest => do
    let acts ← expBytes rest
    return (if i1 > 0xFF#16 then [Statement.yyerror "Invalid byte constant for in .bytes!"]
      else []) ++ call (.byte (i1.setWidth 8)) :: acts
  | _ => none

def exp : List Token → Option Action
  | [endl] => some []
  | [space] => some []
  | opFmtI op :: rest => expFmtI op rest
  | opFmtII op :: rest => expFmtII op rest
  | opFmtIV op :: rest => expFmtIV op rest
  | opFmtV op :: rest => expFmtV op rest
  | opFmtVI op :: rest => expFmtVI op rest
  | opFmtVIC op :: rest => expFmtVIC op rest
  | opFmtVIII op :: rest => expFmtVIII op rest
  | opSCmpxchg :: rest => expCmpxchg rest
  | opSLoadi :: rest => expLoadi rest
  | opSLoadid :: rest => expLoadid rest
  | opSLoadrd :: rest => expLoadrd rest
  | opSMov :: rest => expMov rest
  | opSSex :: rest => expSex rest
  | opSStoreid :: rest => expStoreid rest
  | opSStorerd :: rest => expStorerd rest
  | opSXchgc :: rest => expXchgc rest
  | opSStoreas :: rest => expStoreas rest
  | opSLoadas :: rest => expLoadas rest
  | opPseudoLoadadr :: rest => expLoadadr rest
  | opPseudoLdcall :: rest => expLdcall rest
  | opPseudoLdjmp :: rest => expLdjmp rest
  | opPseudoPush :: rest => expPush rest
  | opPseudoPop :: rest => expPop rest
  | opPseudoLoad32 :: rest => expLoad32 rest
  | [directiveAlign, int i2, space, int i4] => some [.align i2 i4]
  | [directiveLabel, ident l2] => some [.label l2]
  | [directiveOffset, int32 i2] => some [.offset i2]
  | [directiveByte, int i2] =>
    some ((if i2 > 0xFF#16 then [Statement.yyerror "Invalid byte constant for .byte!"] else []) ++
      [call (.byte (i2.setWidth 8))])
  | [directiveWord, int i2] =>
    some [call (.byte (lbyteFromWord i2)), call (.byte (hbyteFromWord i2))]
  | [directiveDword, int32 i2] =>
    some [call (.byte (llbyteFromDword i2)), call (.byte (lhbyteFromDword i2)),
      call (.byte (hlbyteFromDword i2)), call (.byte (hhbyteFromDword i2))]
  | [directiveAt, int32 i2] => some [.at_ i2]
  -- at least one `byte`
  | directiveBytes :: b :: rest => if b = directiveEnd then none else expBytes (b :: rest)
  | _ => none

/-- The actions of a program, given as the tokens of each `exp`. -/
def exps : List (List Token) → Option Action
  | [] => none
  | [toks] => exp toks
  | toks :: rest => do
    let acts ← exp toks
    let acts' ← exps rest
    return acts ++ acts'

end

end Assembler
