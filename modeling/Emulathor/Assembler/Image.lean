import Emulathor.Lib.Run
import Emulathor.Assembler.Emit

/-!
# From emitting calls to the image

What the actions of the vasm grammar (`assembler/vasm.y`) do to the emit context is a sequence of
`Statement`s: calls of the emitters, label definitions, directives and aborts. `main` runs those of
the source text in order, then `label_resolution`, and writes the buffer up to the highest position.
-/

namespace Assembler

open Common Lib

/-! ## Calls -/

/-- A call that emits or reserves bytes. -/
inductive EmitCall
  | byte (b : Byte)
  | fmtI (pfx condition opcode : Byte)
  | fmtII (pfx condition opcode dst a b : Byte)
  | fmtIII (pfx condition opcode dst a : Byte) (imm12 : Word)
  | fmtIV (pfx condition opcode dst : Byte) (imm16 : Word)
  | fmtV (pfx condition opcode dst : Byte)
  | fmtVI (pfx condition opcode a b : Byte)
  | fmtVII (pfx condition opcode a : Byte) (imm12 : Word)
  | fmtVIII (pfx condition opcode : Byte) (imm16 : Word)
  | labelRef (name : String) (reg cond : Byte)
  deriving DecidableEq, Repr

namespace EmitCall

def exec : EmitCall → EmitContext → Except Stop EmitContext
  | byte b => emitByte b
  | fmtI pfx condition opcode => emitFmtI pfx condition opcode
  | fmtII pfx condition opcode dst a b => emitFmtII pfx condition opcode dst a b
  | fmtIII pfx condition opcode dst a imm12 => emitFmtIII pfx condition opcode dst a imm12
  | fmtIV pfx condition opcode dst imm16 => emitFmtIV pfx condition opcode dst imm16
  | fmtV pfx condition opcode dst => emitFmtV pfx condition opcode dst
  | fmtVI pfx condition opcode a b => emitFmtVI pfx condition opcode a b
  | fmtVII pfx condition opcode a imm12 => emitFmtVII pfx condition opcode a imm12
  | fmtVIII pfx condition opcode imm16 => emitFmtVIII pfx condition opcode imm16
  | labelRef name reg cond => emitLabelRef name reg cond

/-- The bytes a call writes; a label reference only reserves. -/
def bytes : EmitCall → List Byte
  | byte b => [b]
  | fmtI pfx condition opcode => Assembler.fmtI pfx condition opcode
  | fmtII pfx condition opcode dst a b => Assembler.fmtII pfx condition opcode dst a b
  | fmtIII pfx condition opcode dst a imm12 => Assembler.fmtIII pfx condition opcode dst a imm12
  | fmtIV pfx condition opcode dst imm16 => Assembler.fmtIV pfx condition opcode dst imm16
  | fmtV pfx condition opcode dst => Assembler.fmtV pfx condition opcode dst
  | fmtVI pfx condition opcode a b => Assembler.fmtVI pfx condition opcode a b
  | fmtVII pfx condition opcode a imm12 => Assembler.fmtVII pfx condition opcode a imm12
  | fmtVIII pfx condition opcode imm16 => Assembler.fmtVIII pfx condition opcode imm16
  | labelRef _ _ _ => []

/-- The room a call asks for, and how far it advances the position. -/
def width : EmitCall → Nat
  | byte _ => 1
  | labelRef _ _ _ => 8
  | _ => 4

/-- Every emitter is `emitBytes` of its bytes, but `emit_label_ref`. -/
theorem exec_eq {c : EmitCall} (h : c.bytes ≠ []) : c.exec = emitBytes c.bytes := by
  cases c with
  | labelRef name reg cond => exact absurd rfl h
  | _ => rfl

theorem width_eq {c : EmitCall} (h : c.bytes ≠ []) : c.width = c.bytes.length := by
  cases c with
  | labelRef name reg cond => exact absurd rfl h
  | _ => rfl

/-- A call emits bytes or is a label reference. -/
theorem bytes_ne_nil_or (c : EmitCall) :
    c.bytes ≠ [] ∨ ∃ name reg cond, c = labelRef name reg cond := by
  cases c with
  | labelRef name reg cond => exact .inr ⟨name, reg, cond, rfl⟩
  | _ => exact .inl (List.cons_ne_nil _ _)

theorem width_pos (c : EmitCall) : 0 < c.width := by cases c <;> simp [width]

theorem width_le (c : EmitCall) : c.width ≤ 8 := by cases c <;> simp [width]

end EmitCall

/-! ## Statements -/

/-- What a grammar action does to the context. -/
inductive Statement
  | call (c : EmitCall)
  | label (name : String)
  | offset (o : Dword)
  | at_ (pos : Dword)
  | align (n fill : Word)
  | yyerror (msg : String)
  deriving DecidableEq, Repr

theorem putByte_pos {b : Byte} {ctx ctx' : EmitContext} (h : putByte b ctx = .ok ctx') :
    ctx'.pos = ctx.pos + 1 := by
  unfold putByte at h
  split at h <;> cases h
  rfl

theorem handleExceedingBuffer_pos {n : Dword} {ctx ctx' : EmitContext}
    (h : handleExceedingBuffer n ctx = .ok ctx') : ctx'.pos = ctx.pos := by
  unfold handleExceedingBuffer at h
  split at h
  · cases h; rfl
  split at h
  · cases h
  dsimp only at h
  split at h <;> cases h
  rfl

@[simp] theorem setHighestPosition_pos (ctx : EmitContext) :
    (setHighestPosition ctx).pos = ctx.pos := by
  unfold setHighestPosition
  split <;> rfl

theorem emitByte_pos {b : Byte} {ctx ctx' : EmitContext} (h : emitByte b ctx = .ok ctx') :
    ctx'.pos = ctx.pos + 1 := by
  obtain ⟨c1, h1, h⟩ := bind_eq_ok.1 h
  obtain ⟨c2, h2, h⟩ := bind_eq_ok.1 h
  obtain ⟨c3, h3, h2⟩ := bind_eq_ok.1 h2
  cases h2
  cases h
  rw [setHighestPosition_pos, putByte_pos h3, handleExceedingBuffer_pos h1]

/-- `while(emctx->pos % n) emit_byte(fill, emctx)`, for `n` not zero. The distance to the next
multiple shrinks; a position that wraps around is a multiple. -/
def alignLoop (n : Nat) (hn : 0 < n) (fill : Byte) (ctx : EmitContext) :
    Except Stop EmitContext :=
  if _hr : ctx.pos.toNat % n = 0 then .ok ctx
  else
    match _h : emitByte fill ctx with
    | .error e => .error e
    | .ok ctx' => alignLoop n hn fill ctx'
termination_by (n - ctx.pos.toNat % n) % n
decreasing_by
  have hlt := Nat.mod_lt ctx.pos.toNat hn
  rw [emitByte_pos _h, Nat.mod_eq_of_lt (show n - ctx.pos.toNat % n < n by omega)]
  have hpos : (ctx.pos + 1).toNat = 0 ∨ (ctx.pos + 1).toNat = ctx.pos.toNat + 1 := by
    have := ctx.pos.isLt
    rw [BitVec.toNat_add, show (1 : Dword).toNat = 1 from rfl]
    omega
  rcases hpos with h0 | h1
  · rw [h0, Nat.zero_mod, Nat.sub_zero, Nat.mod_self]
    omega
  · by_cases hlast : ctx.pos.toNat % n + 1 = n
    · have : (ctx.pos.toNat + 1) % n = 0 := by
        rw [Nat.add_mod, Nat.mod_eq_of_lt (show 1 < n by omega), hlast, Nat.mod_self]
      rw [h1, this, Nat.sub_zero, Nat.mod_self]
      omega
    · have : (ctx.pos.toNat + 1) % n = ctx.pos.toNat % n + 1 := by
        rw [Nat.add_mod, Nat.mod_eq_of_lt (show 1 < n by omega), Nat.mod_eq_of_lt (by omega)]
      rw [h1, this, Nat.mod_eq_of_lt (by omega)]
      omega

namespace Statement

def exec : Statement → EmitContext → Except Stop EmitContext
  | call c => c.exec
  | label name => emitLabel name
  | offset o => fun ctx => .ok { ctx with offset := o }
  | at_ pos => fun ctx => .ok { ctx with pos }
  | align n fill => fun ctx =>
    if h : 0 < n.toNat then alignLoop n.toNat h (fill.setWidth 8) ctx else .error .divZero
  | yyerror msg => fun _ => .error (.yyerror msg)

end Statement

/-! ## The image -/

/-- One round of `label_resolution`. -/
def resolveRef (lr : LabelRef) (ctx : EmitContext) : Except Stop EmitContext := do
  let val ← emitLabelRes lr.name ctx
  let reg := lr.reg * 2
  let cond := lr.cond
  let ctx := { ctx with pos := lr.pos }
  let ctx ← emitFmtIV pfxWord cond Opcode.loadi.code reg (lwordFromDword val) ctx
  emitFmtIV pfxWord cond Opcode.loadi.code (reg + 1) (hwordFromDword val) ctx

def labelResolution (ctx : EmitContext) : Except Stop EmitContext :=
  run resolveRef ctx.labelrefs ctx

/-- The bytes of the file written. -/
def writeFile (ctx : EmitContext) : List Byte :=
  List.ofFn fun i : Fin ctx.highestPos.toNat => ctx.buf i

/-- Run the statements, resolve the labels, write the file. -/
def imageOf (stmts : List Statement) (ctx : EmitContext) : Except Stop (List Byte) := do
  let ctx ← run Statement.exec stmts ctx
  let ctx ← labelResolution ctx
  return writeFile ctx

/-- `main`, with the context it sets up. -/
def assemble (size : Dword) (fixedSize : Bool) (heap : Nat → Byte) (stmts : List Statement) :
    Except Stop (List Byte) :=
  let size := if fixedSize then size else BitVec.ofNat 32 dynamicBufferSize
  imageOf stmts { emitCreateContext size fixedSize heap with offset := 4096 }

end Assembler
