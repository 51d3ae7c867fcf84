import Emulathor.E2E.Placed

/-!
# `MOVTC` and `MOVFC`

Both take a control register and a register in either order, and the operands are encoded as
written. But `ins_movtc` takes the first for the control register and `ins_movfc` the second, so in
the other order the two numbers are taken for registers of the wrong kind. `controlMove_iff`: the
line does what it says exactly in the documented order, or if both registers have the same number,
or where it makes no difference.
-/

namespace E2E

open Common Lib Cpu Assembler

/-! ## The lines -/

/-- The control registers whose name is looked up as their own number. -/
inductive Creg
  | mr1 | mr2 | mr3 | mr4 | cr1 | cr2 | ssp | st1
  deriving DecidableEq

namespace Creg

def name : Creg → Name cregNames
  | mr1 => ⟨"MR1", by decide⟩
  | mr2 => ⟨"MR2", by decide⟩
  | mr3 => ⟨"MR3", by decide⟩
  | mr4 => ⟨"MR4", by decide⟩
  | cr1 => ⟨"CR1", by decide⟩
  | cr2 => ⟨"CR2", by decide⟩
  | ssp => ⟨"SSP", by decide⟩
  | st1 => ⟨"ST1", by decide⟩

def code : Creg → Byte
  | mr1 => cpuCregMr1
  | mr2 => cpuCregMr2
  | mr3 => cpuCregMr3
  | mr4 => cpuCregMr4
  | cr1 => cpuCregCr1
  | cr2 => cpuCregCr2
  | ssp => cpuCregSsp
  | st1 => cpuCregSt1

theorem code_lt (cr : Creg) : cr.code.toNat < 16 := by cases cr <;> decide

def number (cr : Creg) : Fin 16 := ⟨cr.code.toNat, cr.code_lt⟩

theorem getCregForName_name (cr : Creg) : getCregForName cr.name = cr.code := by
  cases cr <;> decide

end Creg

inductive ControlMove
  | movtc | movfc
  deriving DecidableEq

namespace ControlMove

def name : ControlMove → Name opFmtVICNames
  | movtc => ⟨"MOVTC", by decide⟩
  | movfc => ⟨"MOVFC", by decide⟩

def opcode : ControlMove → Opcode
  | movtc => .movtc
  | movfc => .movfc

/-- What the line says: `MOVTC` copies the register into the control register, `MOVFC` the control
register into the register. -/
def meant (cr : Creg) (r : Fin 16) (e : EmulatorContext) : ControlMove → EmulatorContext
  | movtc => e.setCreg cr.number (e.regs r)
  | movfc => e.setReg r (e.cregs cr.number)

/-- Whether the documented order has the control register first. -/
def cregFirst : ControlMove → Bool
  | movtc => true
  | movfc => false

end ControlMove

section
variable (m : ControlMove) (c : Option (Name conditionNames)) (first : Bool) (cr : Creg)
  (r : Name reg32Names)

/-- The line with the control register first, or the register. -/
def moveLine : List Token :=
  .opFmtVIC m.name :: condToks c ++
    if first then [.space, .creg cr.name, .comma, .reg32 r]
    else [.space, .reg32 r, .comma, .creg cr.name]

/-- The line's instruction: the numbers of the operands as written. -/
def moveCall : EmitCall :=
  if first then .fmtVI pfxDword (condCode c) m.opcode.code cr.code (getRegForName r)
  else .fmtVI pfxDword (condCode c) m.opcode.code (getRegForName r) cr.code

theorem moveCall_inRange : InRange (moveCall m c first cr r) := by
  have hc := condCode_lt c
  have hop : m.opcode.code.toNat < 64 := m.opcode.code_lt
  have hcr := cr.code_lt
  have hr := getRegForName_lt r
  cases first with
  | true => exact ⟨⟨by decide, hc, hop⟩, hcr, hr⟩
  | false => exact ⟨⟨by decide, hc, hop⟩, hr, hcr⟩

theorem moveLine_assembled :
    Assembled (moveLine m c first cr r) (moveCall m c first cr r).bytes := by
  have hop : getOpForName m.name = m.opcode.code := by cases m <;> decide
  have hexp : exp (moveLine m c first cr r) = some [.call (moveCall m c first cr r)] := by
    cases first <;> cases c <;>
      simp [moveLine, moveCall, condToks, condCode, exp, expFmtVIC, hop, cr.getCregForName_name]
  exact assembled_call hexp (moveCall_inRange m c first cr r)

/-! ## Executing -/

/-- The instruction's effect, with the numbers of the operands as written. -/
def moveTaken (x y : Fin 16) (e : EmulatorContext) : EmulatorContext :=
  match m with
  | .movtc => e.setCreg x (e.regs y)
  | .movfc => e.setReg x (e.cregs y)

theorem moveLine_round {e : EmulatorContext} (h : Holds e (moveCall m c first cr r).bytes)
    (hc : condPasses (condCode c) (e.regs cpuRegFlgs)) :
    cpuIteration e = .ok (.next (if first then moveTaken m cr.number (regOf r) e.fetched
      else moveTaken m (regOf r) cr.number e.fetched)) := by
  rw [← List.append_nil (moveCall m c first cr r).bytes] at h
  obtain ⟨hround, henc⟩ := h.round (moveCall_inRange m c first cr r)
  rw [hround]
  generalize insAt _ _ = ins at henc
  cases first with
  | true =>
    obtain ⟨⟨-, hcond, ho⟩, ha, hb⟩ := henc
    have hcond' : ins.condition = condCode c := hcond
    have ho' : ins.opcode = m.opcode.code := ho
    have ha' : ins.opa = cr.number := eq_reg cr.code_lt ha
    have hb' : ins.opb = regOf r := eq_regOf hb
    rw [dispatchIns, hcond', EmulatorContext.fetched_regs, if_pos hc, executeIns, ho',
      Opcode.ofByte_code]
    cases m with
    | movtc => simp only [ControlMove.opcode, insMovtc, ha', hb', moveTaken, ↓reduceIte]
    | movfc => simp only [ControlMove.opcode, insMovfc, ha', hb', moveTaken, ↓reduceIte]
  | false =>
    obtain ⟨⟨-, hcond, ho⟩, ha, hb⟩ := henc
    have hcond' : ins.condition = condCode c := hcond
    have ho' : ins.opcode = m.opcode.code := ho
    have ha' : ins.opa = regOf r := eq_regOf ha
    have hb' : ins.opb = cr.number := eq_reg cr.code_lt hb
    rw [dispatchIns, hcond', EmulatorContext.fetched_regs, if_pos hc, executeIns, ho',
      Opcode.ofByte_code]
    cases m with
    | movtc =>
      simp only [ControlMove.opcode, insMovtc, ha', hb', moveTaken, Bool.false_eq_true, ↓reduceIte]
    | movfc =>
      simp only [ControlMove.opcode, insMovfc, ha', hb', moveTaken, Bool.false_eq_true, ↓reduceIte]

end

/-! ## What the line says and what it does -/

section
variable {e : EmulatorContext} {x y : Fin 16} {v w : Dword}

theorem setCreg_eq_iff (hxy : x ≠ y) :
    e.setCreg x v = e.setCreg y w ↔ v = e.cregs x ∧ w = e.cregs y := by
  rw [← update_swap hxy]
  refine ⟨fun h => congrArg EmulatorContext.cregs h, fun h => ?_⟩
  rw [EmulatorContext.setCreg, EmulatorContext.setCreg, h]

theorem setReg_eq_iff (hxy : x ≠ y) :
    e.setReg x v = e.setReg y w ↔ v = e.regs x ∧ w = e.regs y := by
  rw [← update_swap hxy]
  refine ⟨fun h => congrArg EmulatorContext.regs h, fun h => ?_⟩
  rw [EmulatorContext.setReg, EmulatorContext.setReg, h]

end

section
variable (m : ControlMove) (c : Option (Name conditionNames)) (first : Bool) (cr : Creg)
  (r : Name reg32Names)

/-- The two registers with the number `x` hold crosswise what those with the number `y` do. -/
def Crossed (x y : Fin 16) (e : EmulatorContext) : Prop :=
  e.cregs x = e.regs y ∧ e.cregs y = e.regs x

/-- The wrong order makes no difference where the registers are the same or hold the same. -/
theorem moveTaken_iff (x y : Fin 16) (e : EmulatorContext) :
    moveTaken m x y e = moveTaken m y x e ↔ x = y ∨ Crossed x y e := by
  by_cases hxy : x = y
  · rw [hxy]
    exact iff_of_true rfl (.inl rfl)
  rw [or_iff_right hxy]
  cases m with
  | movtc => exact (setCreg_eq_iff hxy).trans (and_congr eq_comm eq_comm)
  | movfc => exact (setReg_eq_iff hxy).trans and_comm

theorem moveLine_iff (h : Holds e (moveCall m c first cr r).bytes)
    (hc : condPasses (condCode c) (e.regs cpuRegFlgs)) :
    cpuIteration e = .ok (.next (m.meant cr (regOf r) e.fetched)) ↔
      first = m.cregFirst ∨ cr.number = regOf r ∨ Crossed cr.number (regOf r) e := by
  have hnext {s s' : EmulatorContext} :
      (Except.ok (Flow.next s) : Except Fault Flow) = .ok (.next s') ↔ s = s' := by
    simp only [Except.ok.injEq, Flow.next.injEq]
  have hcross := moveTaken_iff m cr.number (regOf r) e.fetched
  rw [moveLine_round m c first cr r h hc, hnext]
  cases m with
  | movtc =>
    cases first with
    | true => exact iff_of_true rfl (.inl rfl)
    | false => exact (eq_comm.trans hcross).trans (or_iff_right Bool.false_ne_true).symm
  | movfc =>
    cases first with
    | true => exact hcross.trans (or_iff_right (Ne.symm Bool.false_ne_true)).symm
    | false => exact iff_of_true rfl (.inl rfl)

/-- Some flags let a condition pass: none of them or all of them. -/
theorem condPasses_some : condPasses (condCode c) 0 ∨ condPasses (condCode c) 0x3F := by
  cases c with
  | none => exact .inl rfl
  | some n =>
    have : ∀ s ∈ conditionNames,
        condPasses (getCondForName s) 0 ∨ condPasses (getCondForName s) 0x3F := by decide
    exact this n n.2

/-- A state that holds the line's bytes at the position, and in which nothing is crossed. -/
def moveState (flgs : Dword) : EmulatorContext :=
  { emuInit (fun _ => 0) fun _ => 0 with
    memory := fun i => (moveCall m c first cr r).bytes.getD i.toNat 0
    cregs := fun _ => 0x100
    regs := fun q => if q = cpuRegFlgs then flgs else 0 }

theorem moveState_holds (flgs : Dword) :
    Holds (moveState m c first cr r flgs) (moveCall m c first cr r).bytes := by
  obtain ⟨b1, b2, b3, b4, hb⟩ := (moveCall_inRange m c first cr r).bytes
  rw [Holds, moveState, hb]
  have hin : (0 : Dword).toNat + 4 ≤ vaDefaultMemorySize.toNat := by decide
  refine ⟨hin, fun i hi => ?_⟩
  have hi4 : i < 4 := hi
  show [b1, b2, b3, b4].getD (0#32 + BitVec.ofNat 32 i).toNat 0 = _
  rw [BitVec.zero_add, BitVec.toNat_ofNat, Nat.mod_eq_of_lt (by omega), List.getD_eq_getElem _ _ hi]

/-- **`MOVTC` and `MOVFC`** do what the line says exactly in the documented order, or where both
registers have the same number, or where the state makes no difference of it. -/
theorem controlMove_iff : ∃ bs, Assembled (moveLine m c first cr r) bs ∧
    (∀ e, Holds e bs → condPasses (condCode c) (e.regs cpuRegFlgs) →
      (cpuIteration e = .ok (.next (m.meant cr (regOf r) e.fetched)) ↔
        first = m.cregFirst ∨ cr.number = regOf r ∨ Crossed cr.number (regOf r) e)) ∧
    ((∀ e, Holds e bs → condPasses (condCode c) (e.regs cpuRegFlgs) →
      cpuIteration e = .ok (.next (m.meant cr (regOf r) e.fetched))) ↔
        first = m.cregFirst ∨ cr.number = regOf r) := by
  refine ⟨_, moveLine_assembled m c first cr r, fun e h hc => moveLine_iff m c first cr r h hc,
    fun h => ?_, fun h e hh hc => ?_⟩
  · obtain ⟨flgs, hsmall, hc⟩ : ∃ flgs : Dword, (flgs = 0 ∨ flgs = 0x3F) ∧
        condPasses (condCode c) flgs := by
      rcases condPasses_some c with hc | hc
      · exact ⟨0, .inl rfl, hc⟩
      · exact ⟨0x3F, .inr rfl, hc⟩
    have hpass : condPasses (condCode c) ((moveState m c first cr r flgs).regs cpuRegFlgs) := hc
    have hholds := moveState_holds m c first cr r flgs
    rcases (moveLine_iff m c first cr r hholds hpass).1 (h _ hholds hpass) with h | h | ⟨h, -⟩
    · exact .inl h
    · exact .inr h
    · have hreg : (0x100 : Dword) = if regOf r = cpuRegFlgs then flgs else 0 := h
      rcases hsmall with rfl | rfl <;> split at hreg <;> exact absurd hreg (by decide)
  · refine (moveLine_iff m c first cr r hh hc).2 ?_
    rcases h with h | h
    · exact .inl h
    · exact .inr (.inl h)

end

/-- `MOVTC R0, CR1` writes `MR1`, not `CR1`, and takes what it writes from `R2`. -/
theorem not_controlMove_movtc :
    ¬ ∀ (m : ControlMove) (first : Bool) (cr : Creg) (r : Name reg32Names) (bs : List Byte),
      Assembled (moveLine m none first cr r) bs → ∀ e, Holds e bs →
        cpuIteration e = .ok (.next (m.meant cr (regOf r) e.fetched)) := by
  intro h
  have hholds := moveState_holds .movtc none false .cr1 nameR0 0
  have hmeant := h .movtc false .cr1 nameR0 _ (moveLine_assembled .movtc none false .cr1 nameR0) _
    hholds
  rcases (moveLine_iff .movtc none false .cr1 nameR0 hholds rfl).1 hmeant with h | h | ⟨h, -⟩
  · exact absurd h (by decide)
  · exact absurd h (by decide)
  · exact absurd (show (0x100 : Dword) = 0 from h) (by decide)

end E2E
