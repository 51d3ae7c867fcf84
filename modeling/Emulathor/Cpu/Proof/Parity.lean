import Emulathor.Cpu.Emulator
import Emulathor.Cpu.Proof.Fetch
import Emulathor.Cpu.Proof.Flags
import Emulathor.Lib.Exact

/-!
# `TEST` and the parity loop

`TEST x` leaves in `Z`, `S`, `E` and `P` whether `x` is zero, negative, even and whether it has an
odd number of bits set, and nothing else (`insTest_leaves`). For `P` the loop shifts the value out
bit by bit, behind the other flags; what it has counted and the bits left over always make up the
bits of `x` (`countBits_eq`). Since bits set in both of two values come in pairs, `P` of their
exclusive or is the exclusive or of both `P` (`test_parity`).
-/

namespace Cpu

open Common Lib

/-! ## The loop -/

/-- The loop over the low `n` bits counts those that are set. -/
theorem countBits_eq (n : Nat) (val : Dword) : countBits n val = val.cpopNatRec n 0 := by
  induction n generalizing val with
  | zero => rfl
  | succ n ih =>
    -- this round takes the lowest bit, the others take the rest of the value
    have hbit : (if val &&& 1#32 ≠ 0 then 1 else 0) = (val.getLsbD 0).toNat := by
      rw [BitVec.getLsbD, Nat.testBit_zero]
      by_cases h : val.toNat % 2 = 1
      · rw [if_pos ((and_one_ne_zero val (by decide)).2 h), decide_eq_true h]
        rfl
      · rw [if_neg fun hne => h ((and_one_ne_zero val (by decide)).1 hne), decide_eq_false h]
        rfl
    rw [countBits, hbit, ih, ← cpopNatRec_shift]

/-- The loop counts the bits that are set. -/
theorem countBits_dword (val : Dword) : countBits 32 val = val.cpop.toNat := by
  rw [countBits_eq, BitVec.toNat_cpop]

/-! ## The flags -/

/-- What `TEST` looks at. -/
def testOperand (ins : InstructionContext) (e : EmulatorContext) : Dword :=
  if ins.pfx = pfxImm then ins.imm16.setWidth 32 else e.regs ins.dst

/-- The flags `TEST` sets. -/
def testFlgs : Dword := flgsZ ||| flgsS ||| flgsE ||| flgsP

/-- From `e` to `e'` the flags say what `x` is, and nothing else has changed: not the other bits of
`FLGS`, the carry and overflow flags among them, no other register and nothing beside them. -/
structure Leaves (x : Dword) (e e' : EmulatorContext) : Prop where
  zero : e'.flag flgsZ = decide (x = 0)
  sign : e'.flag flgsS = decide (x.toInt < 0)
  even : e'.flag flgsE = decide (x.toNat % 2 = 0)
  parity : e'.flag flgsP = decide (x.cpop.toNat % 2 = 1)
  others : e'.regs cpuRegFlgs &&& ~~~testFlgs = e.regs cpuRegFlgs &&& ~~~testFlgs
  regs : ∀ r, r ≠ cpuRegFlgs → e'.regs r = e.regs r
  frame : e' = { e with regs := e'.regs }

/-- `TEST` in the flags it sets, each the last time it is set. -/
theorem insTest_leaves (ins : InstructionContext) (e : EmulatorContext) :
    Leaves (testOperand ins e) e (insTest ins e) := by
  have hzs : flgsS &&& flgsZ = 0 := by decide
  have hze : flgsE &&& flgsZ = 0 := by decide
  have hzp : flgsP &&& flgsZ = 0 := by decide
  have hse : flgsE &&& flgsS = 0 := by decide
  have hsp : flgsP &&& flgsS = 0 := by decide
  have hep : flgsP &&& flgsE = 0 := by decide
  have htest : insTest ins e = (((e.setFlag flgsZ (testOperand ins e = 0)).setFlag flgsS
      (testOperand ins e &&& 0x80000000#32 ≠ 0)).setFlag flgsE
      (testOperand ins e &&& 0x00000001#32 = 0)).setFlag flgsP
      (countBits 32 (testOperand ins e) % 2 = 1) := rfl
  rw [htest]
  generalize testOperand ins e = x
  constructor
  case zero =>
    rw [EmulatorContext.flag_setFlag_other _ hzp, EmulatorContext.flag_setFlag_other _ hze,
      EmulatorContext.flag_setFlag_other _ hzs, EmulatorContext.flag_setFlag _ (by decide)]
  case sign =>
    have htop : x &&& 0x80000000#32 ≠ 0 ↔ x.toInt < 0 := by
      rw [show (0x80000000#32) = BitVec.twoPow 32 31 from rfl, and_twoPow_ne_zero_top x (by decide),
        BitVec.toInt_neg_iff]
      omega
    rw [EmulatorContext.flag_setFlag_other _ hsp, EmulatorContext.flag_setFlag_other _ hse,
      EmulatorContext.flag_setFlag _ (by decide), decide_eq_decide]
    exact htop
  case even =>
    have hlow : x &&& 0x00000001#32 = 0 ↔ x.toNat % 2 = 0 := by
      have hodd := and_one_ne_zero x (by decide)
      rw [← not_iff_not]
      exact hodd.trans (by omega)
    rw [EmulatorContext.flag_setFlag_other _ hep, EmulatorContext.flag_setFlag _ (by decide),
      decide_eq_decide]
    exact hlow
  case parity => rw [EmulatorContext.flag_setFlag _ (by decide), countBits_dword]
  case others =>
    rw [EmulatorContext.setFlag_and _ (by decide), EmulatorContext.setFlag_and _ (by decide),
      EmulatorContext.setFlag_and _ (by decide), EmulatorContext.setFlag_and _ (by decide)]
  case regs =>
    intro r hr
    rw [EmulatorContext.setFlag_other _ _ _ _ hr, EmulatorContext.setFlag_other _ _ _ _ hr,
      EmulatorContext.setFlag_other _ _ _ _ hr, EmulatorContext.setFlag_other _ _ _ _ hr]
  case frame => rfl

/-- The parity flag of an exclusive or. -/
theorem parity_xor (x y : Dword) : decide ((x ^^^ y).cpop.toNat % 2 = 1)
    = (decide (x.cpop.toNat % 2 = 1) ^^ decide (y.cpop.toNat % 2 = 1)) := by
  have hbits := cpop_xor x y
  have hmod : (x ^^^ y).cpop.toNat % 2 = (x.cpop.toNat % 2 + y.cpop.toNat % 2) % 2 := by omega
  rw [hmod]
  rcases Nat.mod_two_eq_zero_or_one x.cpop.toNat with hx | hx <;>
    rcases Nat.mod_two_eq_zero_or_one y.cpop.toNat with hy | hy <;>
    rw [hx, hy] <;> rfl

/-! ## Rounds -/

/-- The next round executes a `TEST x`. -/
structure Tests (e : EmulatorContext) (x : Dword) : Prop extends NextOp .test e where
  operand : testOperand (insAt e.memory e.pos) e = x

/-- The next round executes an `XOR` of `x` and `y` into the register `r`. -/
structure Xors (e : EmulatorContext) (x y : Dword) (r : Fin 16) : Prop
    extends NextOp .xor e where
  opa : e.regs (insAt e.memory e.pos).opa = x
  opb : operandB (insAt e.memory e.pos) e = y
  dst : (insAt e.memory e.pos).dst = r

section
variable {e : EmulatorContext} {x y : Dword} {r : Fin 16}

/-- A round that executes `TEST`. -/
theorem Tests.round (h : Tests e x) :
    ∃ e', cpuIteration e = .ok (.next e') ∧ Leaves x e.fetched e' := by
  have hround := h.toNextOp.round
  have hleaves := insTest_leaves (insAt e.memory e.pos) e.fetched
  rw [executeIns, h.opcode, Opcode.ofByte_code] at hround
  rw [show testOperand (insAt e.memory e.pos) e.fetched = x from h.operand] at hleaves
  exact ⟨_, hround, hleaves⟩

/-- A round that executes `XOR`. -/
theorem Xors.round (h : Xors e x y r) :
    cpuIteration e = .ok (.next (e.fetched.setReg r (x ^^^ y))) := by
  rw [h.toNextOp.round, executeIns, h.opcode, Opcode.ofByte_code, ← h.opa, ← h.opb, ← h.dst]
  rfl

end

/-- **`TEST`** sets `Z`, `S`, `E` and `P` by the value, whatever the flags were, and nothing else; so
`P` of the exclusive or of two values, as `XOR` leaves it in a register, is the exclusive or of `P`
of either. -/
theorem test_parity :
    (∀ e x, Tests e x → ∃ e', cpuIteration e = .ok (.next e') ∧ Leaves x e.fetched e') ∧
    (∀ e₁ e₂ e₃ x y, Tests e₁ x → Tests e₂ y → Tests e₃ (x ^^^ y) →
      ∃ e₁' e₂' e₃', cpuIteration e₁ = .ok (.next e₁') ∧ cpuIteration e₂ = .ok (.next e₂') ∧
        cpuIteration e₃ = .ok (.next e₃') ∧ e₃'.flag flgsP = (e₁'.flag flgsP ^^ e₂'.flag flgsP)) ∧
    ∀ e x y r, Xors e x y r → cpuIteration e = .ok (.next (e.fetched.setReg r (x ^^^ y))) := by
  refine ⟨fun e x h => h.round, fun e₁ e₂ e₃ x y h₁ h₂ h₃ => ?_, fun e x y r h => h.round⟩
  obtain ⟨e₁', hround₁, hleaves₁⟩ := h₁.round
  obtain ⟨e₂', hround₂, hleaves₂⟩ := h₂.round
  obtain ⟨e₃', hround₃, hleaves₃⟩ := h₃.round
  refine ⟨e₁', e₂', e₃', hround₁, hround₂, hround₃, ?_⟩
  rw [hleaves₁.parity, hleaves₂.parity, hleaves₃.parity, parity_xor]

/-- `TEST R0` in memory, with all flags set. -/
def testState (x : Dword) : EmulatorContext :=
  { emuInit (fun r => if r = 0 then x else if r = cpuRegFlgs then 0xFFFFFFFF else 0) fun _ => 0 with
    memory := fun i => [0x16#8, 0x00, 0x00, 0x00].getD i.toNat 0 }

theorem test_parity_seven : ∃ e₁ e₂ e₃, cpuIteration (testState 1) = .ok (.next e₁) ∧
    cpuIteration (testState 7) = .ok (.next e₂) ∧ cpuIteration (testState 6) = .ok (.next e₃) ∧
    e₃.flag flgsP = (e₁.flag flgsP ^^ e₂.flag flgsP) := by
  obtain ⟨-, h, -⟩ := test_parity
  have h₁ : Tests (testState 1) 1 := ⟨⟨by decide, rfl, rfl⟩, rfl⟩
  have h₂ : Tests (testState 7) 7 := ⟨⟨by decide, rfl, rfl⟩, rfl⟩
  have h₃ : Tests (testState 6) 6 := ⟨⟨by decide, rfl, rfl⟩, rfl⟩
  exact h _ _ _ 1 7 h₁ h₂ h₃

end Cpu
