import Emulathor.Cpu.Proof.Loadi
import Emulathor.E2E.Placed

/-!
# `LOAD32`, from the line to the register

A register up to `R7` is loaded with a `LOADI` pair. One above is loaded through `R7`, between two
exchanges, and every one of the four instructions tests the condition again. `load32_iff`: the
register ends up with the constant, and all others are as they were, unless that register is
`FLGS` and the condition holds of the flags but not of what the first exchange put in their place,
the contents of `R7`.
-/

namespace E2E

open Common Lib Cpu Assembler

/-! ## The instructions -/

/-- What `XCHG a,b` does to the registers. -/
def xchgRegs (a b : Fin 16) (regs : Fin 16 → Dword) : Fin 16 → Dword :=
  Function.update (Function.update regs a (regs b)) b (regs a)

section
variable {cond : Byte} (hcond : cond.toNat < 16)
include hcond

theorem regCall_loadi {reg : Byte} {w : Word} (hreg : reg.toNat < 16) :
    RegCall cond (.fmtIV pfxWord cond Opcode.loadi.code reg w)
      (cpuSetWordReg ⟨reg.toNat, hreg⟩ w) := by
  refine ⟨⟨⟨by decide, hcond, by decide⟩, hreg⟩, fun h => h.1.2.1, fun {ins e} h => ?_⟩
  obtain ⟨⟨hp, -, ho⟩, hd, hi⟩ := h
  have hp' : ins.pfx = pfxWord := hp
  rw [executeIns, show ins.opcode = Opcode.loadi.code from ho, Opcode.ofByte_code]
  simp only [insLoadi, hp', show ¬ pfxWord = pfxByte by decide, ↓reduceIte, eq_reg hreg hd,
    show ins.imm16 = w from hi]

theorem regCall_xchg {a b : Byte} (ha : a.toNat < 16) (hb : b.toNat < 16) :
    RegCall cond (.fmtVI pfxDword cond Opcode.xchg.code a b)
      (xchgRegs ⟨a.toNat, ha⟩ ⟨b.toNat, hb⟩) := by
  refine ⟨⟨⟨by decide, hcond, by decide⟩, ha, hb⟩, fun h => h.1.2.1, fun {ins e} h => ?_⟩
  obtain ⟨⟨-, -, ho⟩, hda, hdb⟩ := h
  rw [executeIns, show ins.opcode = Opcode.xchg.code from ho, Opcode.ofByte_code]
  simp only [insXchg, eq_reg ha hda, eq_reg hb hdb]
  rfl

end

/-! ## What they do together -/

section
variable {cond : Byte} {f g : (Fin 16 → Dword) → Fin 16 → Dword} {regs : Fin 16 → Dword} {v : Dword}

/-- An instruction that leaves the flags alone is followed by one that passes if it did. -/
theorem stepRegs_comp (hf : ∀ regs, f regs cpuRegFlgs = regs cpuRegFlgs) :
    stepRegs cond g (stepRegs cond f regs) = stepRegs cond (g ∘ f) regs := by
  by_cases hc : condPasses cond (regs cpuRegFlgs)
  · simp only [stepRegs, hc, ↓reduceIte, hf, Function.comp]
  · simp only [stepRegs, hc, Bool.false_eq_true, ↓reduceIte]

/-- A `LOADI` pair into a register that has word registers. -/
theorem stepRegs_loadi {n lo hi : Fin 16} (hlo : lo.val = 2 * n.val) (hhi : hi.val = 2 * n.val + 1) :
    stepRegs cond (cpuSetWordReg hi (hwordFromDword v))
        (stepRegs cond (cpuSetWordReg lo (lwordFromDword v)) regs)
      = stepRegs cond (Function.update · n v) regs := by
  have hlon : wordRegOf lo ≠ cpuRegFlgs := by
    have : (wordRegOf lo).val = lo.val / 2 := rfl
    exact fun h => absurd (congrArg Fin.val h) (by rw [this]; show ¬ lo.val / 2 = 15; omega)
  have hf (regs : Fin 16 → Dword) :
      cpuSetWordReg lo (lwordFromDword v) regs cpuRegFlgs = regs cpuRegFlgs :=
    Function.update_of_ne hlon.symm ..
  rw [stepRegs_comp hf]
  congr 1
  funext regs
  exact setWordReg_pair hlo hhi regs v

theorem xchgRegs_left {a b : Fin 16} (h : a ≠ b) : xchgRegs a b regs a = regs b := by
  rw [xchgRegs, Function.update_of_ne h, Function.update_self]

theorem xchgRegs_right {a b : Fin 16} : xchgRegs a b regs b = regs a := Function.update_self ..

theorem xchgRegs_other {a b r : Fin 16} (ha : r ≠ a) (hb : r ≠ b) :
    xchgRegs a b regs r = regs r := by
  rw [xchgRegs, Function.update_of_ne hb, Function.update_of_ne ha]

/-- A register loaded through another between two exchanges. -/
theorem xchgRegs_detour {a b : Fin 16} (h : a ≠ b) :
    xchgRegs a b (Function.update (xchgRegs a b regs) a v) = Function.update regs b v := by
  funext r
  by_cases hb : r = b
  · rw [hb, xchgRegs_right, Function.update_self, Function.update_self]
  by_cases ha : r = a
  · rw [ha, xchgRegs_left h, Function.update_of_ne h.symm, xchgRegs_right, Function.update_of_ne h]
  · rw [xchgRegs_other ha hb, Function.update_of_ne ha, xchgRegs_other ha hb,
      Function.update_of_ne hb]

end

/-! ## The line -/

section
variable (c : Option (Name conditionNames)) (r : Name reg32Names) (val : Dword)

/-- `LOAD32 r, val`. -/
def load32Line : List Token := .opPseudoLoad32 :: condToks c ++ [.space, .reg32 r, .comma, .int32 val]

/-- The `LOADI` pair into the word registers of `reg`. -/
def loadHalves (cond reg : Byte) : List EmitCall :=
  [.fmtIV pfxWord cond Opcode.loadi.code (reg * 2) (lwordFromDword val),
    .fmtIV pfxWord cond Opcode.loadi.code (reg * 2 + 1) (hwordFromDword val)]

/-- The exchange with `R7`. -/
def swapR7 (cond reg : Byte) : EmitCall := .fmtVI pfxDword cond Opcode.xchg.code cpuRegR7 reg

/-- The line's instructions. -/
def load32Calls : List EmitCall :=
  if getRegForName r > cpuRegR7 then
    [swapR7 (condCode c) (getRegForName r)] ++ loadHalves val (condCode c) cpuRegR7 ++
      [swapR7 (condCode c) (getRegForName r)]
  else loadHalves val (condCode c) (getRegForName r)

theorem exp_load32 : exp (load32Line c r val) = some ((load32Calls c r val).map .call) := by
  by_cases h : getRegForName r > cpuRegR7
  · cases c <;> simp [load32Line, load32Calls, condToks, condCode, exp, expLoad32, loadHalves,
      swapR7, h]
  · cases c <;> simp [load32Line, load32Calls, condToks, condCode, exp, expLoad32, loadHalves, h]

end

section
variable {cond reg : Byte} {n : Fin 16} {val : Dword}

theorem loadHalves_run (hcond : cond.toNat < 16) (hreg : reg.toNat = n.val) (hn : n.val < 8) :
    RegRun (loadHalves val cond reg) (stepRegs cond (Function.update · n val)) := by
  have hlo : (reg * 2).toNat = 2 * n.val := by
    rw [BitVec.toNat_mul, show (2 : Byte).toNat = 2 from rfl]
    omega
  have hhi : (reg * 2 + 1).toNat = 2 * n.val + 1 := by
    rw [BitVec.toNat_add, hlo, show (1 : Byte).toNat = 1 from rfl]
    omega
  have hlo16 : (reg * 2).toNat < 16 := by omega
  have hhi16 : (reg * 2 + 1).toNat < 16 := by omega
  have hpair : stepRegs cond (Function.update · n val)
      = stepRegs cond (cpuSetWordReg ⟨_, hhi16⟩ (hwordFromDword val)) ∘
        stepRegs cond (cpuSetWordReg ⟨_, hlo16⟩ (lwordFromDword val)) :=
    funext fun regs => (stepRegs_loadi hlo hhi).symm
  rw [hpair]
  exact (regCall_loadi hcond hlo16).run.append (regCall_loadi hcond hhi16).run

theorem swapR7_run (hcond : cond.toNat < 16) (hreg : reg.toNat = n.val) :
    RegRun [swapR7 cond reg] (stepRegs cond (xchgRegs 7 n)) := by
  have hn : (⟨reg.toNat, by omega⟩ : Fin 16) = n := Fin.ext hreg
  have hrun := (regCall_xchg hcond (a := cpuRegR7) (b := reg) (by decide) (by omega)).run
  rwa [hn] at hrun

end

section
variable (c : Option (Name conditionNames)) (r : Name reg32Names) (val : Dword)

/-- What the line's instructions do to the registers. -/
def load32Regs (regs : Fin 16 → Dword) : Fin 16 → Dword :=
  if 7 < (regOf r).val then
    stepRegs (condCode c) (xchgRegs 7 (regOf r)) (stepRegs (condCode c) (Function.update · 7 val)
      (stepRegs (condCode c) (xchgRegs 7 (regOf r)) regs))
  else stepRegs (condCode c) (Function.update · (regOf r) val) regs

theorem load32_run : RegRun (load32Calls c r val) (load32Regs c r val) := by
  have hcond := condCode_lt c
  have hgt : getRegForName r > cpuRegR7 ↔ 7 < (regOf r).val := Iff.rfl
  unfold load32Calls load32Regs
  simp only [hgt]
  by_cases h : 7 < (regOf r).val
  · simp only [h, ↓reduceIte]
    have hswap : RegRun [swapR7 (condCode c) (getRegForName r)]
      (stepRegs (condCode c) (xchgRegs 7 (regOf r))) := swapR7_run hcond rfl
    have hload : RegRun (loadHalves val (condCode c) cpuRegR7)
      (stepRegs (condCode c) (Function.update · 7 val)) := loadHalves_run hcond rfl (by decide)
    exact (hswap.append hload).append hswap
  · simp only [h, ↓reduceIte]
    exact loadHalves_run hcond rfl (by omega)

/-- The registers after the line. -/
theorem load32Regs_iff (regs : Fin 16 → Dword) :
    load32Regs c r val regs = stepRegs (condCode c) (Function.update · (regOf r) val) regs ↔
      regOf r ≠ cpuRegFlgs ∨ ¬ condPasses (condCode c) (regs cpuRegFlgs) ∨
        condPasses (condCode c) (regs 7) := by
  unfold load32Regs
  by_cases hr7 : 7 < (regOf r).val
  case neg =>
    have hne : regOf r ≠ cpuRegFlgs := fun h => hr7 (by rw [h]; decide)
    simp only [hr7, ↓reduceIte, hne, ne_eq, not_false_eq_true, true_or]
  have hne7 : (7 : Fin 16) ≠ regOf r := fun h => absurd hr7 (by rw [← h]; decide)
  simp only [hr7, ↓reduceIte]
  by_cases hflgs : regOf r = cpuRegFlgs
  case neg =>
    -- neither exchange touches the flags
    have hswap (regs : Fin 16 → Dword) : xchgRegs 7 (regOf r) regs cpuRegFlgs = regs cpuRegFlgs :=
      xchgRegs_other (by decide) (Ne.symm hflgs)
    have hload (regs : Fin 16 → Dword) :
        ((Function.update · 7 val) ∘ xchgRegs 7 (regOf r)) regs cpuRegFlgs = regs cpuRegFlgs := by
      rw [Function.comp, Function.update_of_ne (by decide), hswap]
    rw [stepRegs_comp hswap, stepRegs_comp hload]
    simp only [hflgs, ne_eq, not_false_eq_true, true_or, iff_true]
    congr 1
    funext regs
    exact xchgRegs_detour hne7
  case pos =>
    rw [hflgs] at hne7 ⊢
    simp only [ne_eq, not_true_eq_false, false_or]
    cases hpass : condPasses (condCode c) (regs cpuRegFlgs) with
    | false => simp [stepRegs, hpass]
    | true =>
      -- the flags are now those that `R7` held
      have hswapped : xchgRegs 7 cpuRegFlgs regs cpuRegFlgs = regs 7 := xchgRegs_right
      cases hpass7 : condPasses (condCode c) (regs 7) with
      | true =>
        have hloaded : Function.update (xchgRegs 7 cpuRegFlgs regs) 7 val cpuRegFlgs = regs 7 := by
          rw [Function.update_of_ne hne7.symm, hswapped]
        simp [stepRegs, hpass, hpass7, hswapped, hloaded, xchgRegs_detour hne7]
      | false =>
        have hflags : regs cpuRegFlgs ≠ regs 7 := fun h => by
          rw [h, hpass7] at hpass
          cases hpass
        simp only [stepRegs, hpass, hpass7, hswapped, ↓reduceIte, Bool.false_eq_true, or_self,
          not_true_eq_false, iff_false]
        intro h
        have h7 := congrFun h 7
        rw [xchgRegs_left hne7, Function.update_of_ne hne7] at h7
        exact hflags h7

theorem load32Calls_inRange : ∀ call ∈ load32Calls c r val, InRange call := by
  have hcond := condCode_lt c
  have hr : (getRegForName r).toNat < 16 := getRegForName_lt r
  have hhalves {reg : Byte} (hreg : reg.toNat < 8) :
      ∀ call ∈ loadHalves val (condCode c) reg, InRange call := by
    have hlo : (reg * 2).toNat < 16 := by
      rw [BitVec.toNat_mul, show (2 : Byte).toNat = 2 from rfl]
      omega
    have hhi : (reg * 2 + 1).toNat < 16 := by
      rw [BitVec.toNat_add, BitVec.toNat_mul, show (2 : Byte).toNat = 2 from rfl,
        show (1 : Byte).toNat = 1 from rfl]
      omega
    intro call hcall
    simp only [loadHalves, List.mem_cons, List.not_mem_nil, or_false] at hcall
    rcases hcall with rfl | rfl
    · exact (regCall_loadi hcond hlo).inRange
    · exact (regCall_loadi hcond hhi).inRange
  have hswap : InRange (swapR7 (condCode c) (getRegForName r)) :=
    (regCall_xchg hcond (by decide) hr).inRange
  intro call hcall
  unfold load32Calls at hcall
  split at hcall
  case isTrue h =>
    simp only [List.mem_append, List.mem_singleton] at hcall
    rcases hcall with (rfl | hcall) | rfl
    · exact hswap
    · exact hhalves (by decide) call hcall
    · exact hswap
  case isFalse h =>
    have hle : ¬ 7 < (getRegForName r).toNat := h
    exact hhalves (by omega) call hcall

theorem load32Line_assembled :
    Assembled (load32Line c r val) ((load32Calls c r val).flatMap EmitCall.bytes) := by
  refine assembled_calls (load32Calls_inRange c r val) (exp_load32 c r val) ?_
  unfold load32Calls
  split <;> simp [loadHalves]

/-- **`LOAD32`** is all or nothing exactly when the condition holds of `R7` whenever it holds of the
flags and these are loaded. -/
theorem load32_iff : ∃ bs, Assembled (load32Line c r val) bs ∧ ∀ e, Holds e bs →
    ∃ e', iterate cpuIteration (bs.length / 4) e = .ok (.next e') ∧
      (e'.regs = stepRegs (condCode c) (Function.update · (regOf r) val) e.regs ↔
        regOf r ≠ cpuRegFlgs ∨ ¬ condPasses (condCode c) (e.regs cpuRegFlgs) ∨
          condPasses (condCode c) (e.regs 7)) := by
  refine ⟨_, load32Line_assembled c r val, fun e h => ?_⟩
  rw [← List.append_nil (List.flatMap ..)] at h
  obtain ⟨e', hrun, -, hregs, -, -⟩ := load32_run c r val e [] h
  refine ⟨e', ?_, ?_⟩
  · rwa [length_inRange (load32Calls_inRange c r val), Nat.mul_div_cancel_left _ (by decide)]
  · rw [hregs]
    exact load32Regs_iff c r val e.regs

end

/-- `LOAD32IZ FLGS, @0` in memory, `Z` is set and `R7` is 0. -/
def load32State : EmulatorContext :=
  { emuInit (fun r => if r = cpuRegFlgs then flgsZ else 0) fun _ => 0 with
    memory := fun i => [0x20#8, 0x10, 0x7F, 0x00, 0x46, 0x1E, 0x00, 0x00, 0x46, 0x1F, 0x00, 0x00,
      0x20, 0x10, 0x7F, 0x00].getD i.toNat 0 }

def nameIZ : Name conditionNames := ⟨"IZ", by decide⟩
def nameFLGS : Name reg32Names := ⟨"FLGS", by decide⟩

/-- The flags are not loaded, unless `R7` holds `Z` too. -/
theorem load32_iff_flgs : ∃ bs, Assembled (load32Line (some nameIZ) nameFLGS 0) bs ∧
    (∃ e', iterate cpuIteration (bs.length / 4) load32State = .ok (.next e') ∧
      e'.regs ≠ stepRegs (condCode (some nameIZ)) (Function.update · (regOf nameFLGS) 0)
        load32State.regs) ∧
    ∃ e', iterate cpuIteration (bs.length / 4) (load32State.setReg 7 flgsZ) = .ok (.next e') ∧
      e'.regs = stepRegs (condCode (some nameIZ)) (Function.update · (regOf nameFLGS) 0)
        (load32State.setReg 7 flgsZ).regs := by
  obtain ⟨bs, hline, h⟩ := load32_iff (some nameIZ) nameFLGS 0
  obtain rfl := hline.unique (load32Line_assembled _ _ _)
  obtain ⟨e1, hrun1, hiff1⟩ := h load32State (by decide)
  obtain ⟨e2, hrun2, hiff2⟩ := h (load32State.setReg 7 flgsZ) (by decide)
  exact ⟨_, hline, ⟨e1, hrun1, mt hiff1.1 (by decide)⟩, e2, hrun2, hiff2.2 (by decide)⟩

/-- It leaves the flags in `R7`. -/
theorem not_load32_flgs :
    ¬ ∀ (c : Option (Name conditionNames)) (r : Name reg32Names) (val : Dword),
      ∃ bs, Assembled (load32Line c r val) bs ∧ ∀ e, Holds e bs →
        ∃ e', iterate cpuIteration (bs.length / 4) e = .ok (.next e') ∧
          e'.regs = stepRegs (condCode c) (Function.update · (regOf r) val) e.regs := by
  intro h
  obtain ⟨bs, hline, hexec⟩ := h (some nameIZ) nameFLGS 0
  obtain rfl := hline.unique (load32Line_assembled _ _ _)
  have hholds : Holds load32State
      ((load32Calls (some nameIZ) nameFLGS 0).flatMap EmitCall.bytes) := by decide
  obtain ⟨e', hrun, hregs⟩ := hexec load32State hholds
  rw [← List.append_nil (List.flatMap ..)] at hholds
  obtain ⟨e'', hrun', -, hregs', -, -⟩ := load32_run (some nameIZ) nameFLGS 0 _ _ hholds
  have hlen : ((load32Calls (some nameIZ) nameFLGS 0).flatMap EmitCall.bytes).length / 4
      = (load32Calls (some nameIZ) nameFLGS 0).length := by decide
  rw [hlen] at hrun
  cases hrun.symm.trans hrun'
  have hnot := mt (load32Regs_iff (some nameIZ) nameFLGS 0 load32State.regs).1 (by decide)
  exact hnot (hregs'.symm.trans hregs)

end E2E
