import Emulathor.Cpu.Emulator
import Emulathor.Cpu.Proof.Fetch
import Emulathor.Cpu.Proof.Flags

/-!
# Comparisons and conditions

`CMP a,b` leaves in `Z`, `C` and `S` whether `a = b`, `a < b` unsigned and `a < b` signed, whatever
the flags were (`insCmp_flags`). So an instruction behind it is executed under a condition exactly
if the relation the condition names holds of `a` and `b` (`compare_conditions`), and a condition and
its opposite never agree (`opposites`).
-/

namespace Cpu

open Common Lib

/-- What a condition says of the operands of the `CMP` in front. -/
def relation : Cond → Option (Dword → Dword → Prop)
  | .iz => some fun a b => a = b
  | .nz => some fun a b => a ≠ b
  | .ic => some fun a b => a.toNat < b.toNat
  | .nc => some fun a b => b.toNat ≤ a.toNat
  | .is => some fun a b => a.toInt < b.toInt
  | .ns => some fun a b => b.toInt ≤ a.toInt
  | .izic => some fun a b => a.toNat ≤ b.toNat
  | .nznc => some fun a b => b.toNat < a.toNat
  | .izis => some fun a b => a.toInt ≤ b.toInt
  | .nzns => some fun a b => b.toInt < a.toInt
  | _ => none

/-- The conditions that come in pairs, one the negation of the other. -/
def opposites : List (Cond × Cond) :=
  [(.iz, .nz), (.is, .ns), (.io, .no), (.ip, .np), (.ic, .nc), (.izis, .nzns), (.izic, .nznc)]

/-- All flags there are. -/
def allFlgs : List Dword := [flgsZ, flgsC, flgsO, flgsP, flgsS, flgsE]

/-! ## The conditions -/

section
variable (flgs : Dword)

theorem condPasses_opposite {c c' : Cond} (h : (c, c') ∈ opposites) :
    condPasses c.code flgs = !condPasses c'.code flgs := by
  simp only [opposites, List.mem_cons, Prod.mk.injEq, List.not_mem_nil, or_false] at h
  rcases h with ⟨rfl, rfl⟩ | ⟨rfl, rfl⟩ | ⟨rfl, rfl⟩ | ⟨rfl, rfl⟩ | ⟨rfl, rfl⟩ | ⟨rfl, rfl⟩ |
    ⟨rfl, rfl⟩
  all_goals simp [condPasses]

theorem condPasses_nf : condPasses Cond.nf.code flgs ↔ ∀ f ∈ allFlgs, flgs &&& f = 0 := by
  simp only [condPasses, Cond.ofByte_code, allFlgs, List.forall_mem_cons, ne_eq, not_not,
    decide_eq_true_eq]
  tauto

end

/-! ## The comparison -/

section
variable (ins : InstructionContext) (e : EmulatorContext)

theorem insCmp_flags :
    (insCmp ins e).flag flgsZ = decide (e.regs ins.opa = operandB ins e) ∧
    (insCmp ins e).flag flgsC = decide ((e.regs ins.opa).toNat < (operandB ins e).toNat) ∧
    (insCmp ins e).flag flgsS = decide ((e.regs ins.opa).toInt < (operandB ins e).toInt) := by
  have hzc : flgsC &&& flgsZ = 0 := by decide
  have hzs : flgsS &&& flgsZ = 0 := by decide
  have hcs : flgsS &&& flgsC = 0 := by decide
  refine ⟨?_, ?_, ?_⟩
  · rw [insCmp, EmulatorContext.flag_setFlag_other _ hzs, EmulatorContext.flag_setFlag_other _ hzc,
      EmulatorContext.flag_setFlag _ (by decide)]
  · rw [insCmp, EmulatorContext.flag_setFlag_other _ hcs, EmulatorContext.flag_setFlag _ (by decide)]
    rfl
  · rw [insCmp, EmulatorContext.flag_setFlag _ (by decide)]

/-- What a condition finds behind the comparison. -/
theorem condPasses_insCmp {c : Cond} {rel : Dword → Dword → Prop} (h : relation c = some rel) :
    condPasses c.code ((insCmp ins e).regs cpuRegFlgs) ↔ rel (e.regs ins.opa) (operandB ins e) := by
  obtain ⟨hz, hc, hs⟩ := insCmp_flags ins e
  simp only [EmulatorContext.flag, decide_eq_decide] at hz hc hs
  generalize (insCmp ins e).regs cpuRegFlgs = flgs at hz hc hs
  generalize e.regs ins.opa = a at hz hc hs
  generalize operandB ins e = b at hz hc hs
  have hnat : a = b ↔ a.toNat = b.toNat := BitVec.toNat_inj.symm
  have hint : a = b ↔ a.toInt = b.toInt := BitVec.toInt_inj.symm
  cases c with
  | always | io | no | ip | np | nf => cases h
  | iz | nz | ic | is =>
    cases h
    simp only [condPasses, Cond.ofByte_code, decide_eq_true_eq, hz, hc, hs]
  | nc | ns =>
    cases h
    simp only [condPasses, Cond.ofByte_code, decide_eq_true_eq, hc, hs]
    omega
  | izic | nznc =>
    cases h
    simp only [condPasses, Cond.ofByte_code, decide_eq_true_eq, hz, hc, hnat]
    omega
  | izis | nzns =>
    cases h
    simp only [condPasses, Cond.ofByte_code, decide_eq_true_eq, hz, hs, hint]
    omega

end

/-! ## The instruction behind -/

section
variable {e : EmulatorContext}

/-- The instruction at the position is executed in the next round, not passed over. -/
def Passes (e : EmulatorContext) : Prop :=
  condPasses (insAt e.memory e.pos).condition (e.regs cpuRegFlgs)

/-- A round executes the instruction at the position, or goes on to the next one. -/
theorem round_cases (hin : e.InBlock e.pos 4) :
    (Passes e ∧ cpuIteration e = executeIns (insAt e.memory e.pos) e.fetched) ∨
      (¬ Passes e ∧ cpuIteration e = .ok (.next e.fetched)) := by
  rw [cpuIteration_ok hin, dispatchIns, EmulatorContext.fetched_regs]
  by_cases h : condPasses (insAt e.memory e.pos).condition (e.regs cpuRegFlgs)
  · exact .inl ⟨h, if_pos h⟩
  · exact .inr ⟨h, if_neg h⟩

/-- **Comparisons drive conditions**: an instruction is executed or passed over; behind a `CMP a,b`
it is executed under a condition exactly if the relation holds; and of two opposite conditions one
passes, whatever the flags are. -/
theorem compare_conditions :
    (∀ e : EmulatorContext, e.InBlock e.pos 4 →
      (Passes e ∧ cpuIteration e = executeIns (insAt e.memory e.pos) e.fetched) ∨
        (¬ Passes e ∧ cpuIteration e = .ok (.next e.fetched))) ∧
    (∀ e : EmulatorContext, e.InBlock e.pos 4 → Passes e →
      (insAt e.memory e.pos).opcode = Opcode.cmp.code →
      ∃ e', cpuIteration e = .ok (.next e') ∧ e'.memory = e.memory ∧
        e'.memorySize = e.memorySize ∧ e'.pos = e.pos + 4 ∧
        ∀ c rel, relation c = some rel → (insAt e'.memory e'.pos).condition = c.code →
          (Passes e' ↔ rel (e.regs (insAt e.memory e.pos).opa)
            (operandB (insAt e.memory e.pos) e))) ∧
    (∀ flgs, ∀ p ∈ opposites, condPasses p.1.code flgs = !condPasses p.2.code flgs) ∧
    ∀ flgs, condPasses Cond.nf.code flgs ↔ ∀ f ∈ allFlgs, flgs &&& f = 0 := by
  refine ⟨fun e hin => round_cases hin, fun e hin hexec hop => ?_,
    fun flgs p hp => condPasses_opposite flgs hp, condPasses_nf⟩
  rcases round_cases hin with ⟨-, hround⟩ | ⟨hnot, -⟩
  case inr => exact absurd hexec hnot
  rw [executeIns, hop, Opcode.ofByte_code] at hround
  refine ⟨_, hround, rfl, rfl, rfl, fun c rel hrel hcond => ?_⟩
  rw [Passes, hcond]
  exact condPasses_insCmp (insAt e.memory e.pos) e.fetched hrel

end

/-- `CMP R0,R1` and `STOPIC` in memory, `R0` is 1 and `R1` is 0xFFFFFFFF. -/
def compareState : EmulatorContext :=
  { emuInit (fun r => if r = 0 then 1 else if r = 1 then 0xFFFFFFFF else 0) fun _ => 0 with
    memory := fun i => [0x18#8, 0x00, 0x01, 0x00, 0x00, 0xD0, 0x00, 0x00].getD i.toNat 0 }

theorem compare_conditions_unsigned :
    ∃ e', cpuIteration compareState = .ok (.next e') ∧ (Passes e' ↔ 1 < 0xFFFFFFFF) := by
  obtain ⟨-, h, -⟩ := compare_conditions
  obtain ⟨e', hround, hmem, -, hpos, hrel⟩ := h compareState (by decide) rfl rfl
  refine ⟨e', hround, hrel .ic _ rfl ?_⟩
  rw [hmem, hpos]
  rfl

end Cpu
