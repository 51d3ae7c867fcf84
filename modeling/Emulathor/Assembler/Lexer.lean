import Emulathor.Lib.Lexer
import Emulathor.Assembler.Grammar

/-!
# The vasm lexer

The rules of `assembler/vasm.l`, in the source's order, and their actions. flex is run with
`--case-insensitive`: the patterns are written in upper case and see the text in upper case, while an
action gets the lexeme as it stands. A text is a list of characters; `AssemblesTo` is the whole of
vasm, from the text to the image.
-/

namespace Assembler

open Common Lib Regex

/-! ## Conversions -/

/-- `exit(1)` in an action: a hexadecimal or decimal constant that is out of range. -/
inductive LexStop
  | hex (bits : Nat) (s : String)
  | int (bits : Nat) (s : String)
  deriving DecidableEq, Repr

def upper (p : List Char) : String := String.ofList (p.map Char.toUpper)

def hexDigit (c : Char) : Nat :=
  if c.isDigit then c.toNat - '0'.toNat else c.toUpper.toNat - 'A'.toNat + 10

/-- `g_ascii_strtoull(s, NULL, 0)` of `0x` and hexadecimal digits, at most `G_MAXUINT64`. -/
def gAsciiStrtoull (s : List Char) : Nat :=
  min ((s.drop 2).foldl (fun n c => 16 * n + hexDigit c) 0) 0xFFFFFFFFFFFFFFFF

def digits (s : List Char) : Nat :=
  (s.takeWhile Char.isDigit).foldl (fun n c => 10 * n + (c.toNat - '0'.toNat)) 0

/-- `g_ascii_strtoll(s, NULL, 10)`: one sign, then digits; zero if there are none, and between
`G_MININT64` and `G_MAXINT64`. -/
def gAsciiStrtoll : List Char → Int
  | '-' :: s => max (- (digits s : Int)) (-9223372036854775808)
  | s => min (digits s : Int) 9223372036854775807

def hexToDec32 (s : List Char) : Except LexStop Dword :=
  let parsedLong := gAsciiStrtoull s
  if parsedLong > 0xFFFFFFFF then .error (.hex 32 (String.ofList s))
  else .ok (BitVec.ofNat 32 parsedLong)

def hexToDec (s : List Char) : Except LexStop Word :=
  let parsedLong := gAsciiStrtoull s
  if parsedLong > 0xFFFF then .error (.hex 16 (String.ofList s))
  else .ok (BitVec.ofNat 16 parsedLong)

def to32BitInt (s : List Char) : Except LexStop Dword :=
  let parsedLong := gAsciiStrtoll s
  if parsedLong > 2147483647 ∨ parsedLong < -2147483648 then .error (.int 32 (String.ofList s))
  else .ok (BitVec.ofInt 32 parsedLong)

def to16BitInt (s : List Char) : Except LexStop Word :=
  let parsedLong := gAsciiStrtoll s
  if parsedLong > 32767 ∨ parsedLong < -32768 then .error (.int 16 (String.ofList s))
  else .ok (BitVec.ofInt 16 parsedLong)

/-- The names are looked up as they stand, not in upper case. -/
def regRangeTo16bitInt (s : List Char) : Word :=
  let startReg := String.ofList (s.takeWhile (· ≠ ':'))
  let endReg := String.ofList ((s.dropWhile (· ≠ ':')).drop 1)
  ((getRegForName startReg).setWidth 16 <<< 4) ||| (getRegForName endReg).setWidth 16

def remove32BitEscapeSign : List Char → List Char
  | '@' :: s => s
  | s => s

/-! ## Rules -/

inductive LexRule
  | endl | space | hex32bit | hex | int | regRange | int32 | comma | creg | reg8 | reg16 | reg32
  | opFmtI | opFmtII | opFmtIV | opFmtV | opFmtVI | opFmtVIC | opFmtVIII
  | opSCmpxchg | opSLoadi | opSLoadid | opSLoadrd | opSMov | opSSex | opSStoreid | opSStorerd
  | opSXchgc | opSStoreas | opSLoadas
  | opPseudoLoadadr | opPseudoLdcall | opPseudoLdjmp | opPseudoPush | opPseudoPop | opPseudoLoad32
  | dAlign | dLabel | dOffset | dByte | dWord | dDword | dAt | bytes | end_
  | condition | comment | ident | garbage
  deriving DecidableEq, Repr

def isBlank (c : Char) : Bool := c == ' ' || c == '\t'
def isHex (c : Char) : Bool := c.isDigit || ('A' ≤ c && c ≤ 'F')
def isLetter (c : Char) : Bool := ('A' ≤ c && c ≤ 'Z') || c == '_'

def lit (s : String) : Regex Char := word s.toList
def names (ns : List String) : Regex Char := words (ns.map String.toList)

/-- `[\-]*[0-9]+` -/
def decimal : Regex Char := seq (star (cls (· == '-'))) (plus Char.isDigit)

/-- Eight hexadecimal digits. -/
def hex8 : Regex Char := (List.replicate 8 (cls isHex)).foldr seq eps

/-- A directive and the blanks behind it. -/
def directive (s : String) : Regex Char := seq (lit s) (plus isBlank)

namespace LexRule

def all : List LexRule :=
  [endl, space, hex32bit, hex, int, regRange, int32, comma, creg, reg8, reg16, reg32,
    opFmtI, opFmtII, opFmtIV, opFmtV, opFmtVI, opFmtVIC, opFmtVIII,
    opSCmpxchg, opSLoadi, opSLoadid, opSLoadrd, opSMov, opSSex, opSStoreid, opSStorerd,
    opSXchgc, opSStoreas, opSLoadas,
    opPseudoLoadadr, opPseudoLdcall, opPseudoLdjmp, opPseudoPush, opPseudoPop, opPseudoLoad32,
    dAlign, dLabel, dOffset, dByte, dWord, dDword, dAt, bytes, end_,
    condition, comment, ident, garbage]

def pattern : LexRule → Regex Char
  | endl => alt (lit "\n") (lit "\r\n")
  | space => star (cls isBlank)
  | hex32bit => alt (seq (lit "0X") hex8) (seq (lit "@0X") (plus isHex))
  | hex => seq (lit "0X") (plus isHex)
  | int => decimal
  | regRange => seq (names reg32Names) (seq (lit ":") (names reg32Names))
  | int32 => seq (lit "@") decimal
  | comma =>
    seq (star (cls fun c => isBlank c || c == '\n'))
      (seq (lit ",") (star (cls fun c => isBlank c || c == '\n')))
  | creg => names cregNames
  | reg8 => names reg8Names
  | reg16 => names reg16Names
  | reg32 => names reg32Names
  | opFmtI => names opFmtINames
  | opFmtII => names opFmtIINames
  | opFmtIV => names opFmtIVNames
  | opFmtV => names opFmtVNames
  | opFmtVI => names opFmtVINames
  | opFmtVIC => names opFmtVICNames
  | opFmtVIII => names opFmtVIIINames
  | opSCmpxchg => lit "CMPXCHG"
  | opSLoadi => lit "LOADI"
  | opSLoadid => lit "LOADID"
  | opSLoadrd => lit "LOADRD"
  | opSMov => lit "MOV"
  | opSSex => lit "SEX"
  | opSStoreid => lit "STOREID"
  | opSStorerd => lit "STORERD"
  | opSXchgc => lit "XCHGC"
  | opSStoreas => lit "STOREAS"
  | opSLoadas => lit "LOADAS"
  | opPseudoLoadadr => lit "LOADADR"
  | opPseudoLdcall => lit "LDCALL"
  | opPseudoLdjmp => lit "LDJMP"
  | opPseudoPush => lit "PUSH"
  | opPseudoPop => lit "POP"
  | opPseudoLoad32 => lit "LOAD32"
  | dAlign => directive ".ALIGN"
  | dLabel => directive ".LABEL"
  | dOffset => directive ".OFFSET"
  | dByte => directive ".BYTE"
  | dWord => directive ".WORD"
  | dDword => directive ".DWORD"
  | dAt => directive ".AT"
  | bytes => lit ".BYTES"
  | end_ => lit ".END"
  | condition => names conditionNames
  | comment => seq (lit ";") (seq (star (cls (· != '\n'))) (lit "\n"))
  | ident => seq (lit "_") (seq (plus isLetter) (star (cls fun c => isLetter c || c.isDigit)))
  | garbage => cls (· != '\n')

/-- The token with the lexeme's name, which the rule's pattern makes one of the names. -/
def named (ns : List String) (token : Name ns → Token) (s : List Char) :
    Except LexStop (Option Token) :=
  if h : upper s ∈ ns then .ok (some (token ⟨upper s, h⟩)) else .ok (some .garbage)

/-- The token of a rule that has no other. -/
def plain (token : Token) : Except LexStop (Option Token) := .ok (some token)

/-- `none` where the action returns no token. -/
def action : LexRule → List Char → Except LexStop (Option Token)
  | endl, _ => plain .endl
  | space, _ => plain .space
  | hex32bit, s => some <$> Token.int32 <$> hexToDec32 (remove32BitEscapeSign s)
  | hex, s => some <$> Token.int <$> hexToDec s
  | int, s => some <$> Token.int <$> to16BitInt s
  | regRange, s => plain (.int (regRangeTo16bitInt s))
  | int32, s => some <$> Token.int32 <$> to32BitInt (remove32BitEscapeSign s)
  | comma, _ => plain .comma
  | creg, s => named cregNames .creg s
  | reg8, s => named reg8Names .reg8 s
  | reg16, s => named reg16Names .reg16 s
  | reg32, s => named reg32Names .reg32 s
  | opFmtI, s => named opFmtINames .opFmtI s
  | opFmtII, s => named opFmtIINames .opFmtII s
  | opFmtIV, s => named opFmtIVNames .opFmtIV s
  | opFmtV, s => named opFmtVNames .opFmtV s
  | opFmtVI, s => named opFmtVINames .opFmtVI s
  | opFmtVIC, s => named opFmtVICNames .opFmtVIC s
  | opFmtVIII, s => named opFmtVIIINames .opFmtVIII s
  | opSCmpxchg, _ => plain .opSCmpxchg
  | opSLoadi, _ => plain .opSLoadi
  | opSLoadid, _ => plain .opSLoadid
  | opSLoadrd, _ => plain .opSLoadrd
  | opSMov, _ => plain .opSMov
  | opSSex, _ => plain .opSSex
  | opSStoreid, _ => plain .opSStoreid
  | opSStorerd, _ => plain .opSStorerd
  | opSXchgc, _ => plain .opSXchgc
  | opSStoreas, _ => plain .opSStoreas
  | opSLoadas, _ => plain .opSLoadas
  | opPseudoLoadadr, _ => plain .opPseudoLoadadr
  | opPseudoLdcall, _ => plain .opPseudoLdcall
  | opPseudoLdjmp, _ => plain .opPseudoLdjmp
  | opPseudoPush, _ => plain .opPseudoPush
  | opPseudoPop, _ => plain .opPseudoPop
  | opPseudoLoad32, _ => plain .opPseudoLoad32
  | dAlign, _ => plain .directiveAlign
  | dLabel, _ => plain .directiveLabel
  | dOffset, _ => plain .directiveOffset
  | dByte, _ => plain .directiveByte
  | dWord, _ => plain .directiveWord
  | dDword, _ => plain .directiveDword
  | dAt, _ => plain .directiveAt
  | bytes, _ => plain .directiveBytes
  | end_, _ => plain .directiveEnd
  | condition, s => named conditionNames .condition s
  | comment, _ => .ok none
  | ident, s => plain (.ident (upper s))
  | garbage, _ => plain .garbage

end LexRule

/-! ## Texts -/

/-- The rules and lexemes of a text. -/
def lexemes (text : List Char) : List (LexRule × List Char) :=
  scan LexRule.pattern Char.toUpper LexRule.all text

/-- The tokens of the lexemes, up to the first action that exits. -/
def tokensOf : List (LexRule × List Char) → Except LexStop (List Token)
  | [] => .ok []
  | (rule, s) :: rest => do
    let token ← rule.action s
    let tokens ← tokensOf rest
    return token.toList ++ tokens

/-- What `yylex` returns, call after call. -/
def lexText (text : List Char) : Except LexStop (List Token) := tokensOf (lexemes text)

/-- The parser accepts the tokens, with these actions. -/
def Parses (tokens : List Token) (acts : List Statement) : Prop :=
  ∃ lines : List (List Token), lines.flatten = tokens ∧ exps lines = some acts

/-- vasm assembles the text to the image. -/
def AssemblesTo (size : Dword) (fixedSize : Bool) (heap : Nat → Byte) (text : List Char)
    (img : List Byte) : Prop :=
  ∃ tokens acts, lexText text = .ok tokens ∧ Parses tokens acts ∧
    assemble size fixedSize heap acts = .ok img

end Assembler
