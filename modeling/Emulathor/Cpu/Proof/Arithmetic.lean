import Emulathor.Cpu.Emulator
import Emulathor.Cpu.Proof.Flags
import Emulathor.Lib.Exact

/-!
# Arithmetic and exact integers

What each arithmetic instruction is meant to compute of its operands as integers, signed or not, is
its `Outcome`: the value, which is stored modulo 2^32, and the carry and overflow flags it sets. The
interpreter, which computes in fixed widths, does just that (`ArithOp.exec`), if the destination is
not `FLGS`, which the flags are written to afterwards or before.
-/

namespace Cpu

open Common Lib

/-! ## Outcomes -/

structure Outcome where
  value : Int
  /-- what `C` becomes, if the instruction sets it -/
  carry : Option Bool
  /-- what `O` becomes -/
  overflow : Option Bool
  deriving DecidableEq

/-- An integer no two's complement dword represents. -/
def Exceeds (x : Int) : Prop := x < -2147483648 ∨ 2147483647 < x

instance instDecidableExceeds (x : Int) : Decidable (Exceeds x) := inferInstanceAs (Decidable (_ ∨ _))

inductive ArithOp
  | add | sub | mul | smul | div | sdiv | mod | shl | shr | sar
  deriving DecidableEq, Repr

namespace ArithOp

def opcode : ArithOp → Opcode
  | add => .add
  | sub => .sub
  | mul => .mul
  | smul => .smul
  | div => .div
  | sdiv => .sdiv
  | mod => .mod
  | shl => .shl
  | shr => .shr
  | sar => .sar

/-- What the operation gives for `a` and `b`, `none` for a division by zero. -/
def outcome (a b : Dword) : ArithOp → Option Outcome
  | add => some
    { value := a.toNat + b.toNat
      carry := some (2 ^ 32 ≤ a.toNat + b.toNat)
      overflow := some (Exceeds (a.toInt + b.toInt)) }
  | sub => some
    { value := a.toNat - b.toNat
      carry := some (a.toNat < b.toNat)
      overflow := some (Exceeds (a.toInt - b.toInt)) }
  | mul => some
    { value := a.toNat * b.toNat
      carry := some (2 ^ 32 ≤ a.toNat * b.toNat)
      overflow := none }
  | smul => some
    { value := a.toInt * b.toInt
      carry := none
      overflow := some (Exceeds (a.toInt * b.toInt)) }
  | div => if b = 0 then none else some
    { value := (a.toNat / b.toNat : Nat)
      carry := none
      overflow := none }
  | sdiv => if b = 0 then none else some
    { value := if Exceeds (a.toInt.tdiv b.toInt) then 0 else a.toInt.tdiv b.toInt
      carry := none
      overflow := some (Exceeds (a.toInt.tdiv b.toInt)) }
  | mod => if b = 0 then none else some
    { value := (a.toNat % b.toNat : Nat)
      carry := none
      overflow := none }
  | shl => some
    { value := a.toNat * 2 ^ (b.toNat % 32)
      carry := some (2 ^ 31 ≤ a.toNat)
      overflow := none }
  | shr => some
    { value := (a.toNat / 2 ^ (b.toNat % 32) : Nat)
      carry := some (a.toNat % 2 = 1)
      overflow := none }
  | sar => some
    { value := a.toInt / 2 ^ (b.toNat % 32)
      carry := some (a.toNat % 2 = 1)
      overflow := none }

end ArithOp

/-! ## Storing an outcome -/

namespace EmulatorContext

variable (e : EmulatorContext)

/-- A flag set, if there is a value for it. -/
def setFlagIf (f : Dword) : Option Bool → EmulatorContext
  | none => e
  | some b => e.setFlag f b

/-- The value stored, and the flags behind it. -/
def write (dst : Fin 16) (v : Dword) (overflow carry : Option Bool) : EmulatorContext :=
  ((e.setReg dst v).setFlagIf flgsO overflow).setFlagIf flgsC carry

/-- The outcome stored; nothing at all if there is none. -/
def store (dst : Fin 16) : Option Outcome → EmulatorContext
  | none => e
  | some o => e.write dst (BitVec.ofInt 32 o.value) o.overflow o.carry

/-- A flag and another register are set in either order. -/
theorem setFlag_setReg {r : Fin 16} (h : r ≠ cpuRegFlgs) (f : Dword) (b : Bool) (v : Dword) :
    (e.setFlag f b).setReg r v = (e.setReg r v).setFlag f b := by
  have hflgs : (e.setReg r v).regs cpuRegFlgs = e.regs cpuRegFlgs := setReg_other _ _ _ _ h.symm
  rw [setFlag, setFlag, hflgs]
  unfold setReg
  rw [Function.update_comm h.symm]

end EmulatorContext

/-- From `e` to `e'` the outcome is in the destination and in the flags it sets, and nothing else
has changed. -/
structure Meets (o : Outcome) (dst : Fin 16) (e e' : EmulatorContext) : Prop where
  value : e'.regs dst = BitVec.ofInt 32 o.value
  carry : e'.flag flgsC = o.carry.getD (e.flag flgsC)
  overflow : e'.flag flgsO = o.overflow.getD (e.flag flgsO)
  flags : ∀ g, flgsC &&& g = 0 → flgsO &&& g = 0 →
    e'.regs cpuRegFlgs &&& g = e.regs cpuRegFlgs &&& g
  regs : ∀ r, r ≠ dst → r ≠ cpuRegFlgs → e'.regs r = e.regs r
  frame : e' = { e with regs := e'.regs }

section
variable {e : EmulatorContext} {dst : Fin 16}

theorem meets_store (hdst : dst ≠ cpuRegFlgs) (o : Outcome) : Meets o dst e (e.store dst (some o)) := by
  have hco : flgsC &&& flgsO = 0 := by decide
  have hoc : flgsO &&& flgsC = 0 := by decide
  obtain ⟨v, c, ov⟩ := o
  have hflag (f : Dword) : (e.setReg dst (BitVec.ofInt 32 v)).flag f = e.flag f :=
    e.flag_setReg hdst _ f
  have hval : (e.setReg dst (BitVec.ofInt 32 v)).regs dst = BitVec.ofInt 32 v :=
    e.setReg_same _ _
  have hflgs : (e.setReg dst (BitVec.ofInt 32 v)).regs cpuRegFlgs = e.regs cpuRegFlgs :=
    e.setReg_other _ _ _ hdst.symm
  constructor
  case value =>
    cases c <;> cases ov <;>
      simp [EmulatorContext.store, EmulatorContext.write, EmulatorContext.setFlagIf,
        EmulatorContext.setFlag_other _ _ _ _ hdst]
  case carry =>
    cases c <;> cases ov <;>
      simp [EmulatorContext.store, EmulatorContext.write, EmulatorContext.setFlagIf, hflag,
        EmulatorContext.flag_setFlag _ (show flgsC ≠ 0 by decide),
        EmulatorContext.flag_setFlag_other _ hoc]
  case overflow =>
    cases c <;> cases ov <;>
      simp [EmulatorContext.store, EmulatorContext.write, EmulatorContext.setFlagIf, hflag,
        EmulatorContext.flag_setFlag _ (show flgsO ≠ 0 by decide),
        EmulatorContext.flag_setFlag_other _ hco]
  case flags =>
    intro g hc ho
    cases c <;> cases ov <;>
      simp [EmulatorContext.store, EmulatorContext.write, EmulatorContext.setFlagIf, hflgs,
        EmulatorContext.setFlag_and _ hc, EmulatorContext.setFlag_and _ ho]
  case regs =>
    intro r hr hr'
    cases c <;> cases ov <;>
      simp [EmulatorContext.store, EmulatorContext.write, EmulatorContext.setFlagIf,
        EmulatorContext.setFlag_other _ _ _ _ hr', EmulatorContext.setReg_other _ _ _ _ hr]
  case frame => cases c <;> cases ov <;> rfl

end

/-! ## The instructions -/

theorem saddOverflow_eq (a b : Dword) :
    BitVec.saddOverflow a b = decide (Exceeds (a.toInt + b.toInt)) := by
  rw [BitVec.saddOverflow, ← Bool.decide_or, decide_eq_decide]
  unfold Exceeds
  omega

theorem ssubOverflow_eq (a b : Dword) :
    BitVec.ssubOverflow a b = decide (Exceeds (a.toInt - b.toInt)) := by
  rw [BitVec.ssubOverflow, ← Bool.decide_or, decide_eq_decide]
  unfold Exceeds
  omega

theorem smulOverflow_eq (a b : Dword) :
    BitVec.smulOverflow a b = decide (Exceeds (a.toInt * b.toInt)) := by
  rw [BitVec.smulOverflow, ← Bool.decide_or, decide_eq_decide]
  unfold Exceeds
  omega

section
variable (ins : InstructionContext) {e : EmulatorContext}

theorem insAdd_eq : insAdd ins e
    = e.store ins.dst (ArithOp.add.outcome (e.regs ins.opa) (operandB ins e)) := by
  simp only [insAdd, ArithOp.outcome, EmulatorContext.store, EmulatorContext.write,
    EmulatorContext.setFlagIf, ofInt_toNat_add, saddOverflow_eq]
  rfl

theorem insSub_eq : insSub ins e
    = e.store ins.dst (ArithOp.sub.outcome (e.regs ins.opa) (operandB ins e)) := by
  simp only [insSub, ArithOp.outcome, EmulatorContext.store, EmulatorContext.write,
    EmulatorContext.setFlagIf, ofInt_toNat_sub, ssubOverflow_eq]
  rfl

theorem insSmul_eq : insSmul ins e
    = e.store ins.dst (ArithOp.smul.outcome (e.regs ins.opa) (operandB ins e)) := by
  simp only [insSmul, ArithOp.outcome, EmulatorContext.store, EmulatorContext.write,
    EmulatorContext.setFlagIf, ofInt_toInt_mul, smulOverflow_eq]

theorem insDiv_eq : insDiv ins e
    = e.store ins.dst (ArithOp.div.outcome (e.regs ins.opa) (operandB ins e)) := by
  simp only [insDiv, ArithOp.outcome]
  split
  · rfl
  · simp only [EmulatorContext.store, EmulatorContext.write, EmulatorContext.setFlagIf,
      ofInt_toNat_div]

theorem insMod_eq (h : ins.pfx ≠ pfxImm) : insMod ins e
    = e.store ins.dst (ArithOp.mod.outcome (e.regs ins.opa) (operandB ins e)) := by
  simp only [insMod, ArithOp.outcome, operandB, h, ↓reduceIte]
  split
  · rfl
  · simp only [EmulatorContext.store, EmulatorContext.write, EmulatorContext.setFlagIf,
      ofInt_toNat_mod]

variable (hdst : ins.dst ≠ cpuRegFlgs)
include hdst

theorem insMul_eq : insMul ins e
    = e.store ins.dst (ArithOp.mul.outcome (e.regs ins.opa) (operandB ins e)) := by
  have hlt : (e.regs ins.opa).toNat * (operandB ins e).toNat < 2 ^ 64 := by
    calc (e.regs ins.opa).toNat * (operandB ins e).toNat
        < 2 ^ 32 * 2 ^ 32 := Nat.mul_lt_mul'' (e.regs ins.opa).isLt (operandB ins e).isLt
      _ = 2 ^ 64 := by decide
  have hres : ((e.regs ins.opa).setWidth 64 * (operandB ins e).setWidth 64 : Qword).toNat
      = (e.regs ins.opa).toNat * (operandB ins e).toNat := by
    rw [BitVec.toNat_mul, BitVec.toNat_setWidth_of_le (by decide),
      BitVec.toNat_setWidth_of_le (by decide), Nat.mod_eq_of_lt hlt]
  have hlow : ((e.regs ins.opa).setWidth 64 * (operandB ins e).setWidth 64 : Qword).setWidth 32
      = e.regs ins.opa * operandB ins e := by
    rw [BitVec.setWidth_mul _ _ (by decide)]
    simp
  simp only [insMul, ArithOp.outcome, EmulatorContext.store, EmulatorContext.write,
    EmulatorContext.setFlagIf, ofInt_toNat_mul, hres, hlow, e.setFlag_setReg hdst]
  rfl

theorem insSdiv_eq : insSdiv ins e
    = e.store ins.dst (ArithOp.sdiv.outcome (e.regs ins.opa) (operandB ins e)) := by
  simp only [insSdiv, ArithOp.outcome]
  by_cases hzero : operandB ins e = 0
  · rw [if_pos hzero, if_pos hzero]
    rfl
  rw [if_neg hzero, if_neg hzero]
  have hor : (e.regs ins.opa).toInt.tdiv (operandB ins e).toInt > 2147483647 ∨
      (e.regs ins.opa).toInt.tdiv (operandB ins e).toInt < -2147483648 ↔
      Exceeds ((e.regs ins.opa).toInt.tdiv (operandB ins e).toInt) := Or.comm
  simp only [hor]
  by_cases hout : Exceeds ((e.regs ins.opa).toInt.tdiv (operandB ins e).toInt)
  · simp only [hout, ↓reduceIte, EmulatorContext.store, EmulatorContext.write,
      EmulatorContext.setFlagIf, e.setFlag_setReg hdst, decide_true]
    rfl
  · simp only [hout, ↓reduceIte, EmulatorContext.store, EmulatorContext.write,
      EmulatorContext.setFlagIf, e.setFlag_setReg hdst, decide_false]

theorem insShl_eq : insShl ins e
    = e.store ins.dst (ArithOp.shl.outcome (e.regs ins.opa) (operandB ins e)) := by
  have htop : (e.regs ins.opa &&& 0x80000000#32 ≠ 0) ↔ 2 ^ 31 ≤ (e.regs ins.opa).toNat :=
    and_twoPow_ne_zero_top _ (by decide)
  simp only [insShl, ArithOp.outcome, EmulatorContext.store, EmulatorContext.write,
    EmulatorContext.setFlagIf, ofInt_toNat_shiftLeft, e.setFlag_setReg hdst, htop]
  rfl

theorem insShr_eq : insShr ins e
    = e.store ins.dst (ArithOp.shr.outcome (e.regs ins.opa) (operandB ins e)) := by
  have hlow : (e.regs ins.opa &&& 1#32 ≠ 0) ↔ (e.regs ins.opa).toNat % 2 = 1 :=
    and_one_ne_zero _ (by decide)
  simp only [insShr, ArithOp.outcome, EmulatorContext.store, EmulatorContext.write,
    EmulatorContext.setFlagIf, ofInt_toNat_shiftRight, e.setFlag_setReg hdst, hlow]
  rfl

theorem insSar_eq : insSar ins e
    = e.store ins.dst (ArithOp.sar.outcome (e.regs ins.opa) (operandB ins e)) := by
  have hlow : (e.regs ins.opa &&& 1#32 ≠ 0) ↔ (e.regs ins.opa).toNat % 2 = 1 :=
    and_one_ne_zero _ (by decide)
  simp only [insSar, ArithOp.outcome, EmulatorContext.store, EmulatorContext.write,
    EmulatorContext.setFlagIf, ofInt_toInt_shiftRight, e.setFlag_setReg hdst, hlow]
  rfl

/-- **One arithmetic instruction** stores the outcome. -/
theorem ArithOp.exec (op : ArithOp) (hop : ins.opcode = op.opcode.code)
    (hmod : op = .mod → ins.pfx ≠ pfxImm) :
    executeIns ins e
      = .ok (.next (e.store ins.dst (op.outcome (e.regs ins.opa) (operandB ins e)))) := by
  rw [executeIns, hop, Opcode.ofByte_code]
  cases op with
  | add => rw [← insAdd_eq]; rfl
  | sub => rw [← insSub_eq]; rfl
  | mul => rw [← insMul_eq ins hdst]; rfl
  | smul => rw [← insSmul_eq]; rfl
  | div => rw [← insDiv_eq]; rfl
  | sdiv => rw [← insSdiv_eq ins hdst]; rfl
  | mod => rw [← insMod_eq ins (hmod rfl)]; rfl
  | shl => rw [← insShl_eq ins hdst]; rfl
  | shr => rw [← insShr_eq ins hdst]; rfl
  | sar => rw [← insSar_eq ins hdst]; rfl

end

theorem ArithOp.outcome_none_iff {op : ArithOp} {a b : Dword} :
    op.outcome a b = none ↔ b = 0 ∧ (op = .div ∨ op = .sdiv ∨ op = .mod) := by
  cases op with
  | div | sdiv | mod => simp [ArithOp.outcome]
  | _ => simp [ArithOp.outcome]

/-- **Arithmetic is exact**: the destination and the flags meet the outcome of the operation on the
operands as integers. Only a division by zero has none, and changes nothing. -/
theorem arithmetic_exact (op : ArithOp) {ins : InstructionContext} {e : EmulatorContext}
    (hop : ins.opcode = op.opcode.code) (hmod : op = .mod → ins.pfx ≠ pfxImm)
    (hdst : ins.dst ≠ cpuRegFlgs) :
    (∀ o, op.outcome (e.regs ins.opa) (operandB ins e) = some o →
      ∃ e', executeIns ins e = .ok (.next e') ∧ Meets o ins.dst e e') ∧
    (op.outcome (e.regs ins.opa) (operandB ins e) = none ↔
      operandB ins e = 0 ∧ (op = .div ∨ op = .sdiv ∨ op = .mod)) ∧
    (op.outcome (e.regs ins.opa) (operandB ins e) = none → executeIns ins e = .ok (.next e)) := by
  have hexec := op.exec (e := e) ins hdst hop hmod
  refine ⟨fun o ho => ?_, ArithOp.outcome_none_iff, fun ho => ?_⟩
  · rw [ho] at hexec
    exact ⟨_, hexec, meets_store hdst o⟩
  · rw [ho] at hexec
    exact hexec

/-- `SDIV R1,R1,R2`, `R1` is -2147483648 and `R2` is -1. -/
def sdivIns : InstructionContext :=
  { opcode := Opcode.sdiv.code, dst := 1, opa := 1, opb := 2, imm12 := 0x200, imm16 := 0x0012
    pfx := pfxDword, condition := 0 }

def sdivState : EmulatorContext :=
  emuInit (fun r => if r = 1 then 0x80000000 else if r = 2 then 0xFFFFFFFF else 0) fun _ => 0

theorem arithmetic_exact_sdiv :
    ∃ e', executeIns sdivIns sdivState = .ok (.next e') ∧
      Meets { value := 0, carry := none, overflow := some true } 1 sdivState e' :=
  (arithmetic_exact .sdiv (show sdivIns.opcode = _ from rfl) nofun (by decide)).1 _ (by decide)

end Cpu
