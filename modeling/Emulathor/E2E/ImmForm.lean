import Emulathor.E2E.EncodeDecode

/-!
# Register and immediate forms

`immForm_iff`: a line whose last operand is the immediate `k` and the line with a register holding
`k` there leave the same registers, memory and position, for every mnemonic that has both forms but
`MOD`. `ins_mod` has no immediate case: it takes the register numbered by the upper four bits of the
immediate, so its forms agree exactly when the two divisors give the same result (`Dual.Agrees`).
-/

namespace E2E

open Common Lib Cpu Assembler

/-! ## The lines -/

/-- A line with both forms, up to its last operand. -/
inductive Dual
  | fmtII (op : Name opFmtIINames) (dst a : Name reg32Names)
  | cmp (a : Name reg32Names)
  | test

namespace Dual

/-- The line with its last operand. -/
def line (c : Option (Name conditionNames)) (last : Token) : Dual → List Token
  | fmtII op dst a =>
    .opFmtII op :: condToks c ++ [.space, .reg32 dst, .comma, .reg32 a, .comma, last]
  | cmp a => .opFmtVI ⟨"CMP", by decide⟩ :: condToks c ++ [.space, .reg32 a, .comma, last]
  | test => .opFmtV ⟨"TEST", by decide⟩ :: condToks c ++ [.space, last]

/-- The immediates a line accepts. -/
def ImmInRange (k : Word) : Dual → Prop
  | fmtII _ _ _ | cmp _ => k.toNat < 4096
  | test => True

/-- The call of the form with a register. -/
def regCall (c : Option (Name conditionNames)) (b : Name reg32Names) : Dual → EmitCall
  | fmtII op dst a =>
    .fmtII pfxDword (condCode c) (getOpForName op) (getRegForName dst) (getRegForName a)
      (getRegForName b)
  | cmp a =>
    .fmtVI pfxDword (condCode c) (getOpForName "CMP") (getRegForName a) (getRegForName b)
  | test => .fmtV pfxDword (condCode c) (getOpForName "TEST") (getRegForName b)

/-- The call of the form with an immediate. -/
def immCall (c : Option (Name conditionNames)) (k : Word) : Dual → EmitCall
  | fmtII op dst a =>
    .fmtIII pfxImm (condCode c) (getOpForName op) (getRegForName dst) (getRegForName a) k
  | cmp a => .fmtVII pfxImm (condCode c) (getOpForName "CMP") (getRegForName a) k
  | test => .fmtVIII pfxImm (condCode c) (getOpForName "TEST") k

end Dual

section
variable {d : Dual} {c : Option (Name conditionNames)} {b : Name reg32Names} {k : Word}

theorem exp_reg : exp (d.line c (.reg32 b)) = some [.call (d.regCall c b)] := by
  cases d <;> cases c <;> rfl

theorem exp_imm (hk : d.ImmInRange k) : exp (d.line c (.int k)) = some [.call (d.immCall c k)] := by
  cases d with
  | fmtII op dst a =>
    refine Eq.trans ?_ (congrArg some (checked hk))
    cases c <;> rfl
  | cmp a =>
    refine Eq.trans ?_ (congrArg some (checked hk))
    cases c <;> rfl
  | test => cases c <;> rfl

theorem regCall_inRange : InRange (d.regCall c b) := by
  have hc := condCode_lt c
  have hr := getRegForName_lt
  have ho := getOpForName_lt
  cases d with
  | fmtII op dst a => exact ⟨⟨by decide, hc, ho _⟩, hr _, hr _, hr _⟩
  | cmp a => exact ⟨⟨by decide, hc, ho _⟩, hr _, hr _⟩
  | test => exact ⟨⟨by decide, hc, ho _⟩, hr _⟩

theorem immCall_inRange (hk : d.ImmInRange k) : InRange (d.immCall c k) := by
  have hc := condCode_lt c
  have hr := getRegForName_lt
  have ho := getOpForName_lt
  cases d with
  | fmtII op dst a => exact ⟨⟨by decide, hc, ho _⟩, hr _, hr _, hk⟩
  | cmp a => exact ⟨⟨by decide, hc, ho _⟩, hr _, hk⟩
  | test => exact ⟨by decide, hc, ho _⟩

end

/-! ## Their effect -/

/-- Both continue, with the same registers (the flags among them), memory and position. -/
def SameOutcome : Except Fault Flow → Except Fault Flow → Prop
  | .ok (.next s), .ok (.next s') => s.regs = s'.regs ∧ s.memory = s'.memory ∧ s.pos = s'.pos
  | _, _ => False

theorem sameOutcome_next (s : EmulatorContext) :
    SameOutcome (.ok (.next s)) (.ok (.next s)) := ⟨rfl, rfl, rfl⟩

/-- The instructions whose second operand is `operandB`. -/
def arithmeticOps : List Opcode :=
  [.add, .and, .div, .or, .mul, .sar, .sdiv, .shl, .shr, .smul, .sub, .xor]

/-- The mnemonics of format II are those and `MOD`. -/
theorem getOpForName_fmtII (op : Name opFmtIINames) :
    (op.val = "MOD" ∧ getOpForName op = Opcode.mod.code) ∨
      (op.val ≠ "MOD" ∧ ∃ o ∈ arithmeticOps, getOpForName op = o.code) := by
  have : ∀ s ∈ opFmtIINames, (s = "MOD" ∧ getOpForName s = Opcode.mod.code) ∨
      (s ≠ "MOD" ∧ ∃ o ∈ arithmeticOps, getOpForName s = o.code) := by decide
  exact this op op.2

section
variable {i r : InstructionContext} {e : EmulatorContext}

/-- Same destination, same first operand, same value of the second: same effect. -/
theorem executeIns_arithmetic {o : Opcode} (ho : o ∈ arithmeticOps) (hi : i.opcode = o.code)
    (hr : r.opcode = o.code) (hdst : i.dst = r.dst) (hopa : i.opa = r.opa)
    (hopb : operandB i e = operandB r e) :
    ∃ s, executeIns i e = .ok (.next s) ∧ executeIns r e = .ok (.next s) := by
  have heq : executeIns i e = executeIns r e := by
    rw [executeIns, executeIns, hi, hr, Opcode.ofByte_code]
    cases o with
    | add => simp only [insAdd, hdst, hopa, hopb]
    | and => simp only [insAnd, hdst, hopa, hopb]
    | div => simp only [insDiv, hdst, hopa, hopb]
    | or => simp only [insOr, hdst, hopa, hopb]
    | mul => simp only [insMul, hdst, hopa, hopb]
    | sar => simp only [insSar, hdst, hopa, hopb]
    | sdiv => simp only [insSdiv, hdst, hopa, hopb]
    | shl => simp only [insShl, hdst, hopa, hopb]
    | shr => simp only [insShr, hdst, hopa, hopb]
    | smul => simp only [insSmul, hdst, hopa, hopb]
    | sub => simp only [insSub, hdst, hopa, hopb]
    | xor => simp only [insXor, hdst, hopa, hopb]
    | _ => exact absurd ho (by decide)
  have hnext : ∃ s, executeIns r e = .ok (.next s) := by
    rw [executeIns, hr, Opcode.ofByte_code]
    cases o with
    | add | and | div | or | mul | sar | sdiv | shl | shr | smul | sub | xor => exact ⟨_, rfl⟩
    | _ => exact absurd ho (by decide)
  obtain ⟨s, hs⟩ := hnext
  exact ⟨s, heq.trans hs, hs⟩

theorem executeIns_cmp (hi : i.opcode = Opcode.cmp.code) (hr : r.opcode = Opcode.cmp.code)
    (hopa : i.opa = r.opa) (hopb : operandB i e = operandB r e) :
    ∃ s, executeIns i e = .ok (.next s) ∧ executeIns r e = .ok (.next s) := by
  refine ⟨insCmp r e, ?_, ?_⟩
  · rw [executeIns, hi, Opcode.ofByte_code]
    simp only [insCmp, hopa, hopb]
  · rw [executeIns, hr, Opcode.ofByte_code]

theorem executeIns_test (hi : i.opcode = Opcode.test.code) (hr : r.opcode = Opcode.test.code)
    (hpi : i.pfx = pfxImm) (hpr : r.pfx = pfxDword)
    (hval : i.imm16.setWidth 32 = e.regs r.dst) :
    ∃ s, executeIns i e = .ok (.next s) ∧ executeIns r e = .ok (.next s) := by
  have hne : ¬ pfxDword = pfxImm := by decide
  refine ⟨insTest r e, ?_, ?_⟩
  · rw [executeIns, hi, Opcode.ofByte_code]
    simp only [insTest, hpi, hpr, hne, hval, ↓reduceIte]
  · rw [executeIns, hr, Opcode.ofByte_code]

/-- What `MOD` leaves in a destination that holds `old`. -/
def modOf (old value modulo : Dword) : Dword := if modulo = 0 then old else value % modulo

theorem executeIns_mod (hi : i.opcode = Opcode.mod.code) :
    executeIns i e = .ok (.next (e.setReg i.dst
      (modOf (e.regs i.dst) (e.regs i.opa) (e.regs i.opb)))) := by
  rw [executeIns, hi, Opcode.ofByte_code]
  simp only [insMod, modOf]
  split
  · rw [EmulatorContext.setReg, Function.update_eq_self]
  · rfl

/-- Two `MOD`s agree exactly when they leave the same in the destination. -/
theorem executeIns_mod_iff (hi : i.opcode = Opcode.mod.code) (hr : r.opcode = Opcode.mod.code)
    (hdst : i.dst = r.dst) (hopa : i.opa = r.opa) :
    SameOutcome (executeIns i e) (executeIns r e) ↔
      modOf (e.regs r.dst) (e.regs r.opa) (e.regs i.opb)
        = modOf (e.regs r.dst) (e.regs r.opa) (e.regs r.opb) := by
  rw [executeIns_mod hi, executeIns_mod hr, hdst, hopa]
  constructor
  · rintro ⟨hregs, -, -⟩
    have := congrFun hregs r.dst
    rwa [EmulatorContext.setReg_same, EmulatorContext.setReg_same] at this
  · intro h
    rw [h]
    exact sameOutcome_next _

end

/-! ## Both forms of a line -/

/-- The line is not `MOD`, or is not executed, or both divisors lead to the same result: that of the
immediate, and that of the register `ins_mod` takes instead. -/
def Dual.Agrees (c : Option (Name conditionNames)) (k : Word) (e : EmulatorContext) : Dual → Prop
  | .fmtII op dst a => op.val = "MOD" → condPasses (condCode c) (e.regs cpuRegFlgs) →
    modOf (e.regs (regOf dst)) (e.regs (regOf a)) (e.regs (Fin.ofNat 16 (k.toNat / 256)))
      = modOf (e.regs (regOf dst)) (e.regs (regOf a)) (k.setWidth 32)
  | .cmp _ | .test => True

section
variable {i r : InstructionContext} {e : EmulatorContext}

theorem operandB_imm (h : i.pfx = pfxImm) : operandB i e = i.imm12.setWidth 32 := if_pos h

theorem operandB_reg (h : i.pfx = pfxDword) : operandB i e = e.regs i.opb := by
  rw [operandB, h]
  exact if_neg (by decide)

/-- The condition decides for both forms alike. -/
theorem dispatchIns_iff {p : Prop} (hcond : i.condition = r.condition)
    (h : condPasses r.condition (e.regs cpuRegFlgs) →
      (SameOutcome (executeIns i e) (executeIns r e) ↔ p)) :
    SameOutcome (dispatchIns i e) (dispatchIns r e) ↔
      (condPasses r.condition (e.regs cpuRegFlgs) → p) := by
  rw [dispatchIns, dispatchIns, hcond]
  by_cases hc : condPasses r.condition (e.regs cpuRegFlgs)
  · simp only [hc, ↓reduceIte, forall_const]
    exact h hc
  · simp only [hc, Bool.false_eq_true, ↓reduceIte, false_implies, iff_true]
    exact sameOutcome_next e

end

/-- The forms of a line of format II. -/
theorem fmtII_iff {i r : InstructionContext} {e : EmulatorContext} {op : Name opFmtIINames}
    {dst a b : Name reg32Names} {c : Option (Name conditionNames)} {k : Word}
    (hi : Encodes (ofContext i) ((Dual.fmtII op dst a).immCall c k))
    (hr : Encodes (ofContext r) ((Dual.fmtII op dst a).regCall c b))
    (hopb : i.imm12 >>> 8 = BitVec.ofNat 16 i.opb.val) (hb : e.regs (regOf b) = k.setWidth 32) :
    SameOutcome (dispatchIns i e) (dispatchIns r e) ↔ (Dual.fmtII op dst a).Agrees c k e := by
  obtain ⟨⟨hpi, hci, hoi⟩, hdi, hai, hki⟩ := hi
  obtain ⟨⟨hpr, hcr, hor⟩, hdr, har, hbr⟩ := hr
  have hdst : i.dst = r.dst := by rw [eq_regOf hdi, eq_regOf hdr]
  have hopa : i.opa = r.opa := by rw [eq_regOf hai, eq_regOf har]
  have hval : e.regs r.opb = k.setWidth 32 := by rw [eq_regOf hbr, hb]
  have hki' : i.imm12 = k := hki
  have hcond : r.condition = condCode c := hcr
  have hdispatch := @dispatchIns_iff i r e (op.val = "MOD" →
    modOf (e.regs (regOf dst)) (e.regs (regOf a)) (e.regs (Fin.ofNat 16 (k.toNat / 256)))
      = modOf (e.regs (regOf dst)) (e.regs (regOf a)) (k.setWidth 32)) (hci.trans hcr.symm)
  rw [hcond] at hdispatch
  refine (hdispatch fun _ => ?_).trans imp.swap
  rcases getOpForName_fmtII op with ⟨hmod, hcode⟩ | ⟨hmod, o, ho, hcode⟩
  · -- the register `ins_mod` reads
    have hreg : i.opb = Fin.ofNat 16 (k.toNat / 256) := by
      have := congrArg BitVec.toNat hopb
      rw [hki', BitVec.toNat_ushiftRight, Nat.shiftRight_eq_div_pow, BitVec.toNat_ofNat] at this
      apply Fin.ext
      show i.opb.val = k.toNat / 256 % 16
      omega
    rw [executeIns_mod_iff (hoi.trans hcode) (hor.trans hcode) hdst hopa, hreg, hval,
      eq_regOf hdr, eq_regOf har]
    exact ⟨fun h _ => h, fun h => h hmod⟩
  · have hsame : operandB i e = operandB r e := by
      rw [operandB_imm hpi, operandB_reg hpr, hval, hki']
    obtain ⟨s, hs, hs'⟩ :=
      executeIns_arithmetic ho (hoi.trans hcode) (hor.trans hcode) hdst hopa hsame
    rw [hs, hs']
    exact iff_of_true (sameOutcome_next s) fun h => absurd h hmod

/-- Equal effects agree, executed or not. -/
theorem sameOutcome_dispatch {i r : InstructionContext} {e : EmulatorContext}
    (hcond : i.condition = r.condition)
    (h : ∃ s, executeIns i e = .ok (.next s) ∧ executeIns r e = .ok (.next s)) :
    SameOutcome (dispatchIns i e) (dispatchIns r e) := by
  obtain ⟨s, hs, hs'⟩ := h
  refine (dispatchIns_iff (p := True) hcond fun _ => ?_).2 fun _ => trivial
  rw [hs, hs']
  exact iff_of_true (sameOutcome_next s) trivial

/-- **Immediate and register forms** of a line agree exactly when `Dual.Agrees`. -/
theorem immForm_iff (d : Dual) (c : Option (Name conditionNames)) (b : Name reg32Names) {k : Word}
    (hk : d.ImmInRange k) {e : EmulatorContext} (hb : e.regs (regOf b) = k.setWidth 32) :
    ∃ i r, decodeLine (d.line c (.int k)) = some i ∧ decodeLine (d.line c (.reg32 b)) = some r ∧
      (SameOutcome (dispatchIns i e) (dispatchIns r e) ↔ d.Agrees c k e) := by
  obtain ⟨i, hi, henci, hopb⟩ := decodeLine_call (exp_imm (c := c) hk) (immCall_inRange hk)
  obtain ⟨r, hr, hencr, -⟩ := decodeLine_call (exp_reg (d := d) (c := c) (b := b)) regCall_inRange
  refine ⟨i, r, hi, hr, ?_⟩
  cases d with
  | fmtII op dst a => exact fmtII_iff henci hencr hopb hb
  | cmp a =>
    obtain ⟨⟨hpi, hci, hoi⟩, hai, hki⟩ := henci
    obtain ⟨⟨hpr, hcr, hor⟩, har, hbr⟩ := hencr
    refine iff_of_true (sameOutcome_dispatch (hci.trans hcr.symm) ?_) trivial
    refine executeIns_cmp hoi hor (by rw [eq_regOf hai, eq_regOf har]) ?_
    rw [operandB_imm hpi, operandB_reg hpr, eq_regOf hbr, hb, show i.imm12 = k from hki]
  | test =>
    obtain ⟨⟨hpi, hci, hoi⟩, hki⟩ := henci
    obtain ⟨⟨hpr, hcr, hor⟩, hdr⟩ := hencr
    refine iff_of_true (sameOutcome_dispatch (hci.trans hcr.symm) ?_) trivial
    refine executeIns_test hoi hor hpi hpr ?_
    rw [eq_regOf hdr, hb, show i.imm16 = k from hki]

/-- `R1` holds 7, `R3` holds 5, the other registers hold zero. -/
def modState : EmulatorContext :=
  emuInit (fun r => if r = 1 then 7 else if r = 3 then 5 else 0) fun _ => 0

/-- `MOD R0,R1,…`. -/
def modLine : Dual := .fmtII ⟨"MOD", by decide⟩ nameR0 nameR1

/-- With 5 and with `R3`, `MOD R0,R1,…` does not do the same, and `CMP R1,…` does. -/
theorem immForm_iff_mod :
    (∃ i r, decodeLine (modLine.line none (.int 5)) = some i ∧
      decodeLine (modLine.line none (.reg32 ⟨"R3", by decide⟩)) = some r ∧
      ¬ SameOutcome (dispatchIns i modState) (dispatchIns r modState)) ∧
    ∃ i r, decodeLine ((Dual.cmp nameR1).line none (.int 5)) = some i ∧
      decodeLine ((Dual.cmp nameR1).line none (.reg32 ⟨"R3", by decide⟩)) = some r ∧
      SameOutcome (dispatchIns i modState) (dispatchIns r modState) := by
  have hk : (5 : Word).toNat < 4096 := by decide
  constructor
  · obtain ⟨i, r, hi, hr, hiff⟩ :=
      @immForm_iff modLine none ⟨"R3", by decide⟩ 5 hk modState (by decide)
    refine ⟨i, r, hi, hr, fun hsame => ?_⟩
    exact absurd (hiff.1 hsame rfl rfl) (by decide)
  · obtain ⟨i, r, hi, hr, hiff⟩ :=
      @immForm_iff (.cmp nameR1) none ⟨"R3", by decide⟩ 5 hk modState (by decide)
    exact ⟨i, r, hi, hr, hiff.2 trivial⟩

/-- `MOD R0,R1,5` leaves `R0` alone, `MOD R0,R1,R3` leaves 2 in it. -/
theorem not_sameOutcome_mod :
    ¬ ∀ (d : Dual) (c : Option (Name conditionNames)) (b : Name reg32Names) (k : Word)
      (e : EmulatorContext), d.ImmInRange k → e.regs (regOf b) = k.setWidth 32 →
      ∃ i r, decodeLine (d.line c (.int k)) = some i ∧ decodeLine (d.line c (.reg32 b)) = some r ∧
        SameOutcome (dispatchIns i e) (dispatchIns r e) := by
  intro h
  have hk : modLine.ImmInRange 5 := by
    show (5 : Word).toNat < 4096
    decide
  obtain ⟨i, r, hi, hr, hsame⟩ := h modLine none ⟨"R3", by decide⟩ 5 modState hk (by decide)
  obtain ⟨i', hi', henci, hopb⟩ := decodeLine_call (exp_imm (c := none) hk) (immCall_inRange hk)
  obtain ⟨r', hr', hencr, -⟩ :=
    decodeLine_call (exp_reg (d := modLine) (c := none) (b := ⟨"R3", by decide⟩)) regCall_inRange
  cases hi.symm.trans hi'
  cases hr.symm.trans hr'
  have hmod := (fmtII_iff henci hencr hopb (by decide)).1 hsame rfl rfl
  exact absurd hmod (by decide)

end E2E
