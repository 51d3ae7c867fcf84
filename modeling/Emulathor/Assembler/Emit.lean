import Mathlib.Logic.Function.Basic
import Emulathor.Common.RawDefs

/-!
# The emit context

`assembler/emit.c`: the buffer the assembler writes the image to, and the emitters that fill it. The
buffer is a function on indices with the number of bytes the allocator gave for it beside it; what
it holds behind them is whatever the heap holds. A write there is a `Stop`, as is the exit through
`yyerror`; nothing follows either. Allocations succeed.
-/

namespace Assembler

open Common

/-- How the assembler stops before it has written a file. -/
inductive Stop
  /-- `yyerror` with this message -/
  | yyerror (msg : String)
  /-- a write to an index outside the allocated block -/
  | fault (i : Nat)
  /-- a remainder by zero -/
  | divZero
  deriving DecidableEq, Repr

structure LabelRef where
  pos : Dword
  reg : Byte
  name : String
  cond : Byte
  deriving DecidableEq, Repr

structure EmitContext where
  buf : Nat → Byte
  /-- the bytes allocated for `buf` -/
  allocated : Nat
  bufLenFixed : Bool
  pos : Dword
  highestPos : Dword
  offset : Dword
  size : Dword
  /-- the hash table from names to addresses -/
  labels : String → Option Dword
  labelrefs : List LabelRef

def dynamicBufferSize : Nat := 512

def emitCreateContext (size : Dword) (fixedLength : Bool) (heap : Nat → Byte) : EmitContext :=
  { buf := fun i => if i < size.toNat then 0 else heap i
    allocated := size.toNat
    bufLenFixed := fixedLength
    pos := 0
    highestPos := 0
    offset := 0
    size
    labels := fun _ => none
    labelrefs := [] }

/-! ## The buffer -/

/-- Make room for `required_size` bytes at the position. -/
def handleExceedingBuffer (requiredSize : Dword) (ctx : EmitContext) : Except Stop EmitContext :=
  if ¬ ctx.pos + requiredSize - 1 ≥ ctx.size then .ok ctx
  else if ctx.bufLenFixed then .error (.yyerror "FATAL: Emit buffer too small!\n")
  else
    let allocBlock := ctx.highestPos.toNat / dynamicBufferSize + 1
    let allocated := allocBlock * dynamicBufferSize -- realloc
    -- memset
    if ctx.pos.toNat + dynamicBufferSize ≤ allocated then
      .ok { ctx with
        allocated
        buf := fun i =>
          if ctx.pos.toNat ≤ i ∧ i < ctx.pos.toNat + dynamicBufferSize then 0 else ctx.buf i
        size := ctx.size + BitVec.ofNat 32 dynamicBufferSize }
    else .error (.fault (max ctx.pos.toNat allocated))

def setHighestPosition (ctx : EmitContext) : EmitContext :=
  if ctx.pos > ctx.highestPos then { ctx with highestPos := ctx.pos } else ctx

/-- `ctx->buf[ctx->pos++] = b` -/
def putByte (b : Byte) (ctx : EmitContext) : Except Stop EmitContext :=
  if ctx.pos.toNat < ctx.allocated then
    .ok { ctx with buf := Function.update ctx.buf ctx.pos.toNat b, pos := ctx.pos + 1 }
  else .error (.fault ctx.pos.toNat)

def putBytes : List Byte → EmitContext → Except Stop EmitContext
  | [], ctx => .ok ctx
  | b :: bs, ctx => do
    let ctx ← putByte b ctx
    putBytes bs ctx

/-- What `emit_byte` and the `emit_fmt_*` have in common: one request for room, then the bytes. -/
def emitBytes (bs : List Byte) (ctx : EmitContext) : Except Stop EmitContext := do
  let ctx ← handleExceedingBuffer (BitVec.ofNat 32 bs.length) ctx
  let ctx ← putBytes bs ctx
  return setHighestPosition ctx

/-! ## Labels -/

/-- `snprintf(msg, 50, …)` -/
def msg50 (s : String) : String := String.ofList (s.toList.take 49)

def emitLabel (name : String) (ctx : EmitContext) : Except Stop EmitContext :=
  match ctx.labels name with
  | some _ => .error (.yyerror (msg50 ("Label " ++ name ++ " already used!")))
  | none =>
    .ok { ctx with labels := Function.update ctx.labels name (some (ctx.pos + ctx.offset)) }

def emitLabelRef (name : String) (reg cond : Byte) (ctx : EmitContext) :
    Except Stop EmitContext := do
  let elr : LabelRef := { name, pos := ctx.pos, reg, cond }
  let ctx := { ctx with labelrefs := ctx.labelrefs ++ [elr] }
  let ctx ← handleExceedingBuffer 8 ctx
  let ctx := { ctx with pos := ctx.pos + 8 }
  return setHighestPosition ctx

def emitLabelRes (name : String) (ctx : EmitContext) : Except Stop Dword :=
  match ctx.labels name with
  | some value => .ok value
  | none => .error (.yyerror (msg50 ("Label " ++ name ++ " could not be found!")))

/-! ## Formats -/

def emitByte (b : Byte) : EmitContext → Except Stop EmitContext := emitBytes [b]

section
variable (pfx condition opcode : Byte)

def fmtI : List Byte := [(pfx <<< 6) ||| opcode, (condition <<< 4) ||| 0x00#8, 0x00#8, 0x00#8]

def fmtII (dst a b : Byte) : List Byte :=
  [(pfx <<< 6) ||| opcode, (condition <<< 4) ||| dst, (a <<< 4) ||| b, 0x00#8]

def fmtIII (dst a : Byte) (imm12 : Word) : List Byte :=
  [(pfx <<< 6) ||| opcode, (condition <<< 4) ||| dst, (a <<< 4) ||| (imm12 >>> 8).setWidth 8,
    (imm12 &&& 0x00FF#16).setWidth 8]

def fmtIV (dst : Byte) (imm16 : Word) : List Byte :=
  [(pfx <<< 6) ||| opcode, (condition <<< 4) ||| dst, (imm16 &&& 0x00FF#16).setWidth 8,
    (imm16 >>> 8).setWidth 8]

def fmtV (dst : Byte) : List Byte :=
  [(pfx <<< 6) ||| opcode, (condition <<< 4) ||| dst, 0x00#8, 0x00#8]

def fmtVI (a b : Byte) : List Byte :=
  [(pfx <<< 6) ||| opcode, (condition <<< 4) ||| 0x00#8, (a <<< 4) ||| b, 0x00#8]

def fmtVII (a : Byte) (imm12 : Word) : List Byte :=
  [(pfx <<< 6) ||| opcode, (condition <<< 4) ||| 0x00#8, (a <<< 4) ||| (imm12 >>> 8).setWidth 8,
    (imm12 &&& 0x00FF#16).setWidth 8]

def fmtVIII (imm16 : Word) : List Byte :=
  [(pfx <<< 6) ||| opcode, (condition <<< 4) ||| 0x00#8, (imm16 &&& 0x00FF#16).setWidth 8,
    (imm16 >>> 8).setWidth 8]

def emitFmtI : EmitContext → Except Stop EmitContext := emitBytes (fmtI pfx condition opcode)

def emitFmtII (dst a b : Byte) : EmitContext → Except Stop EmitContext :=
  emitBytes (fmtII pfx condition opcode dst a b)

def emitFmtIII (dst a : Byte) (imm12 : Word) : EmitContext → Except Stop EmitContext :=
  emitBytes (fmtIII pfx condition opcode dst a imm12)

def emitFmtIV (dst : Byte) (imm16 : Word) : EmitContext → Except Stop EmitContext :=
  emitBytes (fmtIV pfx condition opcode dst imm16)

def emitFmtV (dst : Byte) : EmitContext → Except Stop EmitContext :=
  emitBytes (fmtV pfx condition opcode dst)

def emitFmtVI (a b : Byte) : EmitContext → Except Stop EmitContext :=
  emitBytes (fmtVI pfx condition opcode a b)

def emitFmtVII (a : Byte) (imm12 : Word) : EmitContext → Except Stop EmitContext :=
  emitBytes (fmtVII pfx condition opcode a imm12)

def emitFmtVIII (imm16 : Word) : EmitContext → Except Stop EmitContext :=
  emitBytes (fmtVIII pfx condition opcode imm16)

end

end Assembler
