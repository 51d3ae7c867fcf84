import Emulathor.Assembler.Lexer

/-!
# The x86 translator

The rules of `assembler/x86tov.l` and the productions of `assembler/x86tov.y`, in the source's order.
A production prints VA lines; `Translates` is the whole of x86tov, from the text of an x86 program to
what is printed.
-/

namespace X86tov

open Common Lib Regex
open Assembler (lit names decimal digits isBlank)

inductive Token
  | int (ival : Dword)
  | opMovl (sval : String)
  | opPushl (sval : String)
  | opImull (sval : String)
  | opRet (sval : String)
  | opLeal (sval : String)
  | reg32 (sval : String)
  | mreg32 (sval : String)
  | space | comma | endl | garbage
  deriving DecidableEq, Repr

/-! ## Lexing -/

/-- `atoi`: one sign, then digits; a `long` is cut to an `int`. -/
def atoi : List Char → Dword
  | '-' :: s => BitVec.ofInt 32 (max (-(digits s : Int)) (-(2 ^ 63)))
  | s => BitVec.ofInt 32 (min (digits s : Int) (2 ^ 63 - 1))

/-- The buffer has no room for a terminator: the string goes on with what lies `behind` it. -/
def removeBrackets (behind c : List Char) : List Char := (c.drop 1).take (c.length - 2) ++ behind

inductive LexRule
  | endl | space | constant | int | mreg32 | comma | reg32
  | opMovl | opPushl | opImull | opRet | opLeal | ignd | garbage
  deriving DecidableEq, Repr

def reg32Names : List String := ["%eax", "%ebx", "%ecx", "%edx", "%ebp", "%esp"]

namespace LexRule

def all : List LexRule :=
  [endl, space, constant, int, mreg32, comma, reg32, opMovl, opPushl, opImull, opRet, opLeal, ignd,
    garbage]

def pattern : LexRule → Regex Char
  | endl => alt (lit "\n") (lit "\r\n")
  | space => star (cls isBlank)
  | constant => seq (lit "$") decimal
  | int => decimal
  | mreg32 => seq (lit "(") (seq (names reg32Names) (lit ")"))
  | comma =>
    seq (star (cls fun c => isBlank c || c == '\n'))
      (seq (lit ",") (star (cls fun c => isBlank c || c == '\n')))
  | reg32 => names reg32Names
  | opMovl => lit "movl"
  | opPushl => lit "pushl"
  | opImull => lit "imull"
  | opRet => lit "ret"
  | opLeal => lit "leal"
  | ignd => lit "IGND" -- not the definition of that name
  | garbage => cls (· != '\n')

/-- `none` where the action returns no token. -/
def action (behind : List Char) : LexRule → List Char → Option Token
  | endl, _ => some .endl
  | space, _ => some .space
  | constant, s => some (.int (atoi (s.drop 1)))
  | int, s => some (.int (atoi s))
  | mreg32, s => some (.mreg32 (String.ofList ((removeBrackets behind s).drop 1)))
  | comma, _ => some .comma
  | reg32, s => some (.reg32 (String.ofList (s.drop 1)))
  | opMovl, s => some (.opMovl (String.ofList s))
  | opPushl, s => some (.opPushl (String.ofList s))
  | opImull, s => some (.opImull (String.ofList s))
  | opRet, s => some (.opRet (String.ofList s))
  | opLeal, s => some (.opLeal (String.ofList s))
  | ignd, _ => none
  | garbage, _ => some .garbage

end LexRule

/-- The rules and lexemes of a text. -/
def lexemes (text : List Char) : List (LexRule × List Char) :=
  scan LexRule.pattern id LexRule.all text

/-- The tokens of the lexemes; `behind n` lies behind the buffer of the one that `n` more follow. -/
def tokensOf (behind : Nat → List Char) : List (LexRule × List Char) → List Token
  | [] => []
  | (rule, s) :: rest => (rule.action (behind rest.length) s).toList ++ tokensOf behind rest

/-! ## Translating -/

def translateReg (reg : String) : String :=
  if reg = "ebp" then "bp"
  else if reg = "esp" then "sp"
  else if reg = "eax" then "r0"
  else if reg = "ebx" then "r1"
  else if reg = "ecx" then "r2"
  else if reg = "edx" then "r3"
  else "n/a"

/-- `%d` -/
def printInt (i : Dword) : String := toString i.toInt

def loadOffset (o : Dword) : String :=
  "xchg\t\tra, r0\n" ++ ("load32\t\tr0, " ++ printInt o ++ "\n") ++ "xchg\t\tra, r0\n"

def loadConstant (c : Dword) : String :=
  "xchg\t\tr9, r0\n" ++ ("load32\t\tr0, " ++ printInt c ++ "\n") ++ "xchg\t\tr9, r0\n"

open Token in
/-- What is printed for one `exp`, if the tokens are one. -/
def exp : List Token → Option String
  | [endl] => some ""
  -- movl reg32, reg32
  | [opMovl s1, space, reg32 s3, comma, reg32 s5] =>
    some (("; " ++ s1 ++ " %" ++ s3 ++ ", %" ++ s5 ++ "\n")
      ++ ("mov\t\t" ++ translateReg s3 ++ ", " ++ translateReg s5 ++ "\n"))
  -- movl int, m-reg32
  | [opMovl s1, space, int i3, comma, int i5, mreg32 s6] =>
    some (("; " ++ s1 ++ " " ++ printInt i3 ++ ", " ++ printInt i5 ++ "(%" ++ s6 ++ ")\n")
      ++ loadOffset i5 ++ loadConstant i3 ++ ("storerd\t\t" ++ translateReg s6 ++ ", ra, r5\n"))
  -- movl m-reg32, reg32
  | [opMovl s1, space, int i3, mreg32 s4, comma, reg32 s6] =>
    some (("; " ++ s1 ++ " " ++ printInt i3 ++ "(%" ++ s4 ++ "), " ++ s6 ++ "\n")
      ++ loadOffset i3
      ++ ("loadrd\t\t" ++ translateReg s6 ++ ", " ++ translateReg s4 ++ ", ra\n"))
  | [opImull s1, space, reg32 s3, comma, reg32 s5] =>
    some (("; " ++ s1 ++ " %" ++ s3 ++ ", %" ++ s5 ++ "\n")
      ++ ("mul\t\t" ++ translateReg s3 ++ ", " ++ translateReg s3 ++ ", " ++ translateReg s5 ++ "\n"))
  | [opPushl s1, space, reg32 s3] =>
    some (("; " ++ s1 ++ " %" ++ s3 ++ "\n") ++ ("push\t\t" ++ translateReg s3 ++ "\n"))
  | [opRet s1] => some (("; " ++ s1 ++ "\n") ++ "jmp\t\trc\n")
  | [space] | [garbage] | [comma] | [reg32 _] | [int _] => some ""
  | _ => none

/-- `exps`: one `exp` or more. -/
def exps : List (List Token) → Option String
  | [] => none
  | [line] => exp line
  | line :: lines => do
    let out ← exp line
    let rest ← exps lines
    return out ++ rest

/-- x86tov reads the text to its end and prints `out`. -/
def Translates (behind : Nat → List Char) (text : List Char) (out : String) : Prop :=
  ∃ lines, lines.flatten = tokensOf behind (lexemes text) ∧ exps lines = some out

end X86tov
