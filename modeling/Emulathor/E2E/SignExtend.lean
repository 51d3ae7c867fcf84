import Emulathor.E2E.Placed

/-!
# `SEX` from the line to the register

`sex_iff`: the line's operand is encoded with the sub-register's number, but `ins_sex` takes it for
the number of a dword register and extends the low part of that one. So the named sub-register is
extended exactly when the two hold the same (`SubReg.Coincides`), as for `R0LL` and `R0L`, whose
number is the one of the register they are the low part of.
-/

namespace E2E

open Common Lib Cpu Assembler

/-- A byte or word register. -/
inductive SubReg
  | byte (name : Name reg8Names)
  | word (name : Name reg16Names)

namespace SubReg

def token : SubReg → Token
  | byte name => .reg8 name
  | word name => .reg16 name

/-- The number of the sub-register among those of its size. -/
def number : SubReg → Fin 16
  | byte name => ⟨(getReg8ForName name).toNat, getReg8ForName_lt name⟩
  | word name => ⟨(getReg16ForName name).toNat, getReg16ForName_lt name⟩

/-- `prefix` -/
def pfx : SubReg → Byte
  | byte _ => pfxByte
  | word _ => pfxWord

/-- What the sub-register holds, extended by its sign. -/
def extended (regs : Fin 16 → Dword) : SubReg → Dword
  | byte name => (cpuGetByteReg (byte name).number regs).signExtend 32
  | word name => (cpuGetWordReg (word name).number regs).signExtend 32

/-- The low part of the dword register with the sub-register's number is what the sub-register
holds. -/
def Coincides (regs : Fin 16 → Dword) : SubReg → Prop
  | byte name => (regs (byte name).number).setWidth 8 = cpuGetByteReg (byte name).number regs
  | word name => (regs (word name).number).setWidth 16 = cpuGetWordReg (word name).number regs

end SubReg

/-! ## The instruction -/

section
variable {ins : InstructionContext} {e : EmulatorContext}

theorem insSex_byte (h : ins.pfx = pfxByte) :
    insSex ins e = e.setReg ins.opa (((e.regs ins.opb).setWidth 8).signExtend 32) := by
  have hext := signExtend_masked (e.regs ins.opb) 0x000000FF#32 0x00000080#32 0xFFFFFF00#32
    (k := 8) (by decide) (by decide) (by decide) (by decide) (by decide)
  rw [insSex, h, if_pos rfl, hext]

theorem insSex_word (h : ins.pfx = pfxWord) :
    insSex ins e = e.setReg ins.opa (((e.regs ins.opb).setWidth 16).signExtend 32) := by
  have hext := signExtend_masked (e.regs ins.opb) 0x0000FFFF#32 0x00008000#32 0xFFFF0000#32
    (k := 16) (by decide) (by decide) (by decide) (by decide) (by decide)
  rw [insSex, h, if_neg (by decide), if_pos rfl, hext]

end

/-! ## The line -/

section
variable (x : Name reg32Names) (b : SubReg)

/-- `SEX x, b`. -/
def sexLine : List Token := [.opSSex, .space, .reg32 x, .comma, b.token]

/-- The line's instruction. -/
def sexCall : EmitCall :=
  .fmtVI b.pfx cAlways Opcode.sex.code (getRegForName x) (BitVec.ofNat 8 b.number.val)

theorem sexCall_inRange : InRange (sexCall x b) := by
  have hpfx : b.pfx.toNat < 4 := by
    cases b with
    | byte name => show pfxByte.toNat < 4; decide
    | word name => show pfxWord.toNat < 4; decide
  refine ⟨⟨hpfx, by decide, by decide⟩, getRegForName_lt x, ?_⟩
  rw [BitVec.toNat_ofNat]
  omega

theorem sexLine_assembled : Assembled (sexLine x b) (sexCall x b).bytes := by
  have hexp : exp (sexLine x b) = some [.call (sexCall x b)] := by
    cases b with
    | byte name => simp [sexLine, sexCall, SubReg.token, SubReg.pfx, SubReg.number, exp, expSex]
    | word name => simp [sexLine, sexCall, SubReg.token, SubReg.pfx, SubReg.number, exp, expSex]
  exact assembled_call hexp (sexCall_inRange x b)

/-- The state behind a round that executes the line. -/
theorem sexLine_round {e : EmulatorContext} (h : Holds e (sexCall x b).bytes) :
    cpuIteration e = .ok (.next (e.fetched.setReg (regOf x) (match b with
      | .byte name => ((e.regs (SubReg.byte name).number).setWidth 8).signExtend 32
      | .word name => ((e.regs (SubReg.word name).number).setWidth 16).signExtend 32))) := by
  rw [← List.append_nil (sexCall x b).bytes] at h
  obtain ⟨hround, ⟨hp, hc, ho⟩, ha, hb⟩ := h.round (sexCall_inRange x b)
  have ho' : (insAt e.memory e.pos).opcode = Opcode.sex.code := ho
  have hc' : condPasses (insAt e.memory e.pos).condition (e.regs cpuRegFlgs) := by
    rw [show (insAt e.memory e.pos).condition = cAlways from hc]
    rfl
  have hb' : (insAt e.memory e.pos).opb = b.number := by
    apply Fin.ext
    have := congrArg BitVec.toNat (show BitVec.ofNat 8 _ = BitVec.ofNat 8 _ from hb)
    simp only [BitVec.toNat_ofNat] at this
    omega
  rw [hround, dispatchIns, EmulatorContext.fetched_regs, if_pos hc', executeIns, ho',
    Opcode.ofByte_code]
  simp only
  cases b with
  | byte name => rw [insSex_byte hp, eq_regOf ha, hb']; rfl
  | word name => rw [insSex_word hp, eq_regOf ha, hb']; rfl

/-- **`SEX`** extends the named sub-register exactly when the register with its number coincides. -/
theorem sex_iff : ∃ bs, Assembled (sexLine x b) bs ∧ ∀ e, Holds e bs →
    (cpuIteration e = .ok (.next (e.fetched.setReg (regOf x) (b.extended e.regs))) ↔
      b.Coincides e.regs) := by
  refine ⟨_, sexLine_assembled x b, fun e h => ?_⟩
  have heq {v v' : Dword} : (Except.ok (Flow.next (e.fetched.setReg (regOf x) v)) :
      Except Fault Flow) = .ok (.next (e.fetched.setReg (regOf x) v')) ↔ v = v' := by
    refine ⟨fun hv => ?_, fun hv => by rw [hv]⟩
    injection hv with hv
    injection hv with hv
    simpa using congrFun (congrArg EmulatorContext.regs hv) (regOf x)
  rw [sexLine_round x b h, heq]
  cases b with
  | byte name => exact signExtend_inj (by decide)
  | word name => exact signExtend_inj (by decide)

end

/-- The low sub-register of `R0` is the low part of register 0. -/
theorem coincides_r0 (regs : Fin 16 → Dword) :
    (SubReg.byte ⟨"R0LL", by decide⟩).Coincides regs ∧
      (SubReg.word ⟨"R0L", by decide⟩).Coincides regs := by
  constructor
  · have hn : (SubReg.byte ⟨"R0LL", by decide⟩).number = 0 := by decide
    rw [SubReg.Coincides, hn]
    exact (setWidth_and_mask _ 0xFF#32 (by decide)).symm
  · have hn : (SubReg.word ⟨"R0L", by decide⟩).number = 0 := by decide
    rw [SubReg.Coincides, hn]
    exact (setWidth_and_mask _ 0xFFFF#32 (by decide)).symm

/-- `SEX R1,R0LH` in memory, `R0` is 0x8000. -/
def sexState : EmulatorContext :=
  { emuInit (fun r => if r = 0 then 0x8000 else 0) fun _ => 0 with
    memory := fun i => [0x94#8, 0x00, 0x11, 0x00].getD i.toNat 0 }

/-- It does not extend 0x80, unless the low byte of `R1` is 0x80 too. -/
theorem sex_iff_r0lh : ∃ bs, Assembled (sexLine nameR1 (.byte ⟨"R0LH", by decide⟩)) bs ∧
    cpuIteration sexState ≠ .ok (.next (sexState.fetched.setReg 1 0xFFFFFF80)) ∧
    cpuIteration (sexState.setReg 1 0x80)
      = .ok (.next ((sexState.setReg 1 0x80).fetched.setReg 1 0xFFFFFF80)) := by
  obtain ⟨bs, hline, h⟩ := sex_iff nameR1 (.byte ⟨"R0LH", by decide⟩)
  obtain rfl := hline.unique (sexLine_assembled _ _)
  refine ⟨_, hline, mt (h sexState (by decide)).1 ?_, (h (sexState.setReg 1 0x80) (by decide)).2 ?_⟩
  · unfold SubReg.Coincides
    decide
  · unfold SubReg.Coincides
    decide

/-- It leaves the low byte of `R1`, which is zero, in `R1`. -/
theorem not_sex_r0lh :
    ¬ ∀ (x : Name reg32Names) (b : SubReg), ∃ bs, Assembled (sexLine x b) bs ∧ ∀ e, Holds e bs →
      cpuIteration e = .ok (.next (e.fetched.setReg (regOf x) (b.extended e.regs))) := by
  intro h
  obtain ⟨bs, hline, hexec⟩ := h nameR1 (.byte ⟨"R0LH", by decide⟩)
  obtain rfl := hline.unique (sexLine_assembled _ _)
  have hholds : Holds sexState (sexCall nameR1 (.byte ⟨"R0LH", by decide⟩)).bytes := by decide
  have heq := (sexLine_round _ _ hholds).symm.trans (hexec sexState hholds)
  injection heq with heq
  injection heq with heq
  have hreg : (0 : Dword) = 0xFFFFFF80 := congrFun (congrArg EmulatorContext.regs heq) 1
  exact absurd hreg (by decide)

end E2E
