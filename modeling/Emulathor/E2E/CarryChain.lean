import Mathlib.Data.List.Forall2
import Emulathor.Cpu.Proof.Arithmetic
import Emulathor.E2E.ImmForm
import Emulathor.E2E.Placed
import Emulathor.Lib.Carry

/-!
# Carry chains

`ADD r1,r1,x` and an `ADDIC r,r,1` for each further register add `x` to the number the registers
hold, lowest limb first, and `SUB` with `SUBIC` subtract it. A limb's instruction is executed exactly
if the one before left a carry; one that is passed over leaves the limb as it is and the carry clear
(`Chain.next_round`). So the columns add up (`Chain.rest_run`), and `carry_chain` reads the sum and
the last carry off them.
-/

namespace E2E

open Common Lib Cpu Assembler

/-! ## The lines -/

inductive Chain
  | add | sub

namespace Chain

def name : Chain → Name opFmtIINames
  | add => ⟨"ADD", by decide⟩
  | sub => ⟨"SUB", by decide⟩

def op : Chain → ArithOp
  | add => .add
  | sub => .sub

/-- Whether the limbs grow or shrink. -/
def sign : Chain → ℤ
  | add => 1
  | sub => -1

/-- The exact sum or difference. -/
def exact (number x : ℤ) : Chain → ℤ
  | add => number + x
  | sub => number - x

end Chain

def nameIC : Name conditionNames := ⟨"IC", by decide⟩

section
variable (k : Chain) (r : Name reg32Names) (rs : List (Name reg32Names)) (x : Name reg32Names)

/-- `ADD r1,r1,x`, `ADDIC r2,r2,1`, … -/
def chainLines : List (List Token) :=
  (Dual.fmtII k.name r r).line none (.reg32 x) ::
    rs.map fun r => (Dual.fmtII k.name r r).line (some nameIC) (.int 1)

def chainFirst : EmitCall := (Dual.fmtII k.name r r).regCall none x

def chainNext : EmitCall := (Dual.fmtII k.name r r).immCall (some nameIC) 1

/-- The number in the registers, the first the lowest limb. -/
def number (regs : Fin 16 → Dword) : ℕ :=
  Nat.ofDigits (2 ^ 32) (rs.map fun r => (regs (regOf r)).toNat)

end

/-! ## Registers -/

theorem regOf_inj {a b : Name reg32Names} (h : regOf a = regOf b) : a = b := by
  have hidx : ∀ s ∈ reg32Names, (getRegForName s).toNat = reg32Names.idxOf s := by decide
  have heq : reg32Names.idxOf a.val = reg32Names.idxOf b.val := by
    rw [← hidx a a.2, ← hidx b b.2]
    exact congrArg (fun f : Fin 16 => f.val) h
  exact Subtype.ext ((List.idxOf_inj a.2).1 heq)

/-! ## One limb -/

/-- The carry flag as a number. -/
def carryOf (e : EmulatorContext) : ℤ := (e.flag flgsC).toNat

section
variable {k : Chain} {e : EmulatorContext} {r : Name reg32Names}

/-- The column of a limb: what is stored, and the carry left. -/
theorem Chain.column (k : Chain) (a b : Dword) : ∃ o, k.op.outcome a b = some o ∧
    ∃ c, o.carry = some c ∧
      ((BitVec.ofInt 32 o.value).toNat : ℤ) + k.sign * 2 ^ 32 * (c.toNat : ℤ)
        = a.toNat + k.sign * b.toNat := by
  have ha := a.isLt
  have hb := b.isLt
  cases k with
  | add =>
    refine ⟨_, rfl, _, rfl, ?_⟩
    rw [BitVec.toNat_ofInt]
    by_cases hc : 2 ^ 32 ≤ a.toNat + b.toNat
    · simp only [hc, decide_true, Bool.toNat_true, Chain.sign]
      omega
    · simp only [hc, decide_false, Bool.toNat_false, Chain.sign]
      omega
  | sub =>
    refine ⟨_, rfl, _, rfl, ?_⟩
    rw [BitVec.toNat_ofInt]
    by_cases hc : a.toNat < b.toNat
    · simp only [hc, decide_true, Bool.toNat_true, Chain.sign]
      omega
    · simp only [hc, decide_false, Bool.toNat_false, Chain.sign]
      omega

/-- The column is added up in `r`, and the registers but `r` and the flags are as they were. -/
structure AddsUp (k : Chain) (r : Name reg32Names) (b : ℤ) (e e' : EmulatorContext) : Prop where
  column : ((e'.regs (regOf r)).toNat : ℤ) + k.sign * 2 ^ 32 * carryOf e'
    = (e.regs (regOf r)).toNat + k.sign * b
  regs : ∀ q, q ≠ regOf r → q ≠ cpuRegFlgs → e'.regs q = e.regs q

/-- An instruction of the chain that is executed. -/
theorem addsUp_exec {ins : InstructionContext} (hop : ins.opcode = k.op.opcode.code)
    (hdst : ins.dst = regOf r) (hopa : ins.opa = regOf r) (hr : regOf r ≠ cpuRegFlgs) :
    ∃ e', executeIns ins e = .ok (.next e') ∧ AddsUp k r (operandB ins e).toNat e e' ∧
      e'.memory = e.memory ∧ e'.memorySize = e.memorySize ∧ e'.pos = e.pos := by
  have hmod : k.op = .mod → ins.pfx ≠ pfxImm := by cases k <;> exact nofun
  have hexec := k.op.exec (e := e) ins (hdst ▸ hr) hop hmod
  obtain ⟨o, ho, c, hc, hcol⟩ := k.column (e.regs ins.opa) (operandB ins e)
  rw [ho, hdst] at hexec
  have hmeets := meets_store (e := e) hr o
  refine ⟨_, hexec, ⟨?_, hmeets.regs⟩, ?_, ?_, ?_⟩
  · rw [carryOf, hmeets.carry, hc, Option.getD_some, hmeets.value, hcol, hopa]
  · rw [hmeets.frame]
  · rw [hmeets.frame]
  · rw [hmeets.frame]

variable {rest : List Byte}

theorem Chain.code (k : Chain) : getOpForName k.name = k.op.opcode.code := by cases k <;> decide

theorem Chain.first_round {x : Name reg32Names} (hr : regOf r ≠ cpuRegFlgs)
    (hh : Holds e ((chainFirst k r x).bytes ++ rest)) :
    ∃ e', cpuIteration e = .ok (.next e') ∧ Holds e' rest ∧
      AddsUp k r (e.regs (regOf x)).toNat e e' := by
  obtain ⟨hround, ⟨hp, hc, ho⟩, hd, ha, hb⟩ := hh.round regCall_inRange
  obtain ⟨e', hexec, hadds, hmem, hsize, hpos⟩ :=
    addsUp_exec (e := e.fetched) (ho.trans k.code) (eq_regOf hd) (eq_regOf ha) hr
  have hpass : condPasses (insAt e.memory e.pos).condition (e.regs cpuRegFlgs) := by
    rw [show (insAt e.memory e.pos).condition = cAlways from hc]
    rfl
  rw [dispatchIns, EmulatorContext.fetched_regs, if_pos hpass, hexec] at hround
  rw [operandB_reg hp, eq_regOf hb] at hadds
  exact ⟨e', hround, hh.next regCall_inRange hmem hsize hpos, hadds.column, hadds.regs⟩

/-- A limb behind the first takes the carry of the one before. -/
theorem Chain.next_round (hr : regOf r ≠ cpuRegFlgs)
    (hh : Holds e ((chainNext k r).bytes ++ rest)) :
    ∃ e', cpuIteration e = .ok (.next e') ∧ Holds e' rest ∧ AddsUp k r (carryOf e) e e' := by
  have hrange : InRange (chainNext k r) := immCall_inRange (by show (1 : Word).toNat < 4096; decide)
  obtain ⟨hround, ⟨hp, hc, ho⟩, hd, ha, hi⟩ := hh.round hrange
  have hcond : condPasses (insAt e.memory e.pos).condition (e.regs cpuRegFlgs) = e.flag flgsC := by
    rw [show (insAt e.memory e.pos).condition = Cond.ic.code from hc]
    rfl
  rw [dispatchIns, EmulatorContext.fetched_regs, hcond] at hround
  cases hflag : e.flag flgsC with
  | true =>
    obtain ⟨e', hexec, hadds, hmem, hsize, hpos⟩ :=
      addsUp_exec (e := e.fetched) (ho.trans k.code) (eq_regOf hd) (eq_regOf ha) hr
    rw [hflag, if_pos rfl, hexec] at hround
    rw [operandB_imm hp, show (insAt e.memory e.pos).imm12 = 1 from hi] at hadds
    have hcarry : carryOf e = 1 := by rw [carryOf, hflag]; rfl
    rw [hcarry]
    exact ⟨e', hround, hh.next hrange hmem hsize hpos, hadds.column, hadds.regs⟩
  | false =>
    -- passed over: nothing to add, and nothing to hand on
    rw [hflag, if_neg Bool.false_ne_true] at hround
    have hcarry : carryOf e = 0 := by rw [carryOf, hflag]; rfl
    have hcarry' : carryOf e.fetched = 0 := hcarry
    refine ⟨_, hround, hh.next hrange rfl rfl rfl, ?_, fun _ _ _ => rfl⟩
    rw [hcarry, hcarry']
    simp

end

/-! ## The chain -/

section
variable {k : Chain} {rs : List (Name reg32Names)}

/-- The limbs behind the first, executed one after the other. -/
theorem Chain.rest_run (hnodup : rs.Nodup) (hflgs : ∀ r ∈ rs, regOf r ≠ cpuRegFlgs)
    {e : EmulatorContext} {rest : List Byte}
    (hh : Holds e ((rs.map (chainNext k)).flatMap EmitCall.bytes ++ rest)) :
    ∃ e', iterate cpuIteration rs.length e = .ok (.next e') ∧
      Ripple k.sign (2 ^ 32) (carryOf e) (rs.map fun r => (e.regs (regOf r)).toNat)
        (rs.map fun r => (e'.regs (regOf r)).toNat) (carryOf e') ∧
      ∀ q, (∀ r ∈ rs, q ≠ regOf r) → q ≠ cpuRegFlgs → e'.regs q = e.regs q := by
  induction rs generalizing e with
  | nil => exact ⟨e, rfl, .nil, fun _ _ _ => rfl⟩
  | cons r rs ih =>
    rw [List.map_cons, List.flatMap_cons, List.append_assoc] at hh
    obtain ⟨hnotin, hnodup⟩ := List.nodup_cons.1 hnodup
    have hr : regOf r ≠ cpuRegFlgs := hflgs r (.head _)
    have hrs : ∀ q ∈ rs, regOf q ≠ cpuRegFlgs := fun q hq => hflgs q (.tail _ hq)
    obtain ⟨e1, hround, hh1, hcol, hkeep⟩ := Chain.next_round hr hh
    obtain ⟨e', hrun, hripple, hkeep'⟩ := ih hnodup hrs hh1
    have hne : ∀ q ∈ rs, regOf q ≠ regOf r := fun q hq h => hnotin (regOf_inj h ▸ hq)
    -- the later limbs are still as they were, and this one stays as it is
    have hlimbs : (rs.map fun r => (e1.regs (regOf r)).toNat)
        = rs.map fun r => (e.regs (regOf r)).toNat :=
      List.map_congr_left fun q hq => by rw [hkeep _ (hne q hq) (hrs q hq)]
    have hlimb : e'.regs (regOf r) = e1.regs (regOf r) :=
      hkeep' _ (fun q hq => (hne q hq).symm) hr
    refine ⟨e', (iterate_next hround).trans hrun, ?_, fun q hq hqf => ?_⟩
    · rw [List.map_cons, List.map_cons, hlimb]
      rw [hlimbs] at hripple
      exact .cons hcol hripple
    · rw [hkeep' q (fun r hr => hq r (.tail _ hr)) hqf, hkeep q (hq r (.head _)) hqf]

/-- The whole chain, with `x` as the first carry. -/
theorem Chain.run {r x : Name reg32Names} (hnodup : (r :: rs).Nodup)
    (hflgs : ∀ q ∈ r :: rs, regOf q ≠ cpuRegFlgs) {e : EmulatorContext}
    (hh : Holds e ((chainFirst k r x).bytes ++ (rs.map (chainNext k)).flatMap EmitCall.bytes)) :
    ∃ e', iterate cpuIteration (rs.length + 1) e = .ok (.next e') ∧
      Ripple k.sign (2 ^ 32 : ℕ) (e.regs (regOf x)).toNat
        ((r :: rs).map fun r => (e.regs (regOf r)).toNat)
        ((r :: rs).map fun r => (e'.regs (regOf r)).toNat) (carryOf e') := by
  obtain ⟨hnotin, hnodup⟩ := List.nodup_cons.1 hnodup
  have hr : regOf r ≠ cpuRegFlgs := hflgs r (.head _)
  have hrs : ∀ q ∈ rs, regOf q ≠ cpuRegFlgs := fun q hq => hflgs q (.tail _ hq)
  have hne : ∀ q ∈ rs, regOf q ≠ regOf r := fun q hq h => hnotin (regOf_inj h ▸ hq)
  obtain ⟨e1, hround, hh1, hcol, hkeep⟩ := Chain.first_round hr hh
  rw [← List.append_nil (List.flatMap ..)] at hh1
  obtain ⟨e', hrun, hripple, hkeep'⟩ := Chain.rest_run hnodup hrs hh1
  have hlimbs : (rs.map fun r => (e1.regs (regOf r)).toNat)
      = rs.map fun r => (e.regs (regOf r)).toNat :=
    List.map_congr_left fun q hq => by rw [hkeep _ (hne q hq) (hrs q hq)]
  have hlimb : e'.regs (regOf r) = e1.regs (regOf r) := hkeep' _ (fun q hq => (hne q hq).symm) hr
  refine ⟨e', (iterate_next hround).trans hrun, ?_⟩
  rw [List.map_cons, List.map_cons, hlimb]
  rw [hlimbs] at hripple
  rw [Nat.cast_pow, Nat.cast_ofNat]
  exact .cons hcol hripple

theorem regOf_ne_flgs {r : Name reg32Names} (h : r.val ≠ "FLGS") : regOf r ≠ cpuRegFlgs := by
  have hflgs : cpuRegFlgs = regOf ⟨"FLGS", by decide⟩ := by decide
  rw [hflgs]
  exact fun heq => h (congrArg Subtype.val (regOf_inj heq))

theorem chainLines_assembled (k : Chain) (r : Name reg32Names) (rs : List (Name reg32Names))
    (x : Name reg32Names) :
    List.Forall₂ Assembled (chainLines k r rs x)
      ((chainFirst k r x :: rs.map (chainNext k)).map EmitCall.bytes) := by
  have hone : (1 : Word).toNat < 4096 := by decide
  rw [List.map_cons]
  refine .cons (assembled_call exp_reg regCall_inRange) ?_
  rw [List.map_map, List.forall₂_map_left_iff, List.forall₂_map_right_iff, List.forall₂_same]
  exact fun r _ => assembled_call (exp_imm hone) (immCall_inRange hone)

/-- **Carry chains** compute the exact sum or difference modulo `2^(32n)`, and `C` tells whether it
was out of range. -/
theorem carry_chain (k : Chain) (r : Name reg32Names) (rs : List (Name reg32Names))
    (x : Name reg32Names) (hnodup : (r :: rs).Nodup) (hflgs : ∀ q ∈ r :: rs, q.val ≠ "FLGS") :
    ∃ bss, List.Forall₂ Assembled (chainLines k r rs x) bss ∧ ∀ e, Holds e bss.flatten →
      ∃ e', iterate cpuIteration (rs.length + 1) e = .ok (.next e') ∧
        (number (r :: rs) e'.regs : ℤ) = k.exact (number (r :: rs) e.regs)
          (e.regs (regOf x)).toNat % 2 ^ (32 * (rs.length + 1)) ∧
        (e'.flag flgsC ↔
          ¬ (0 ≤ k.exact (number (r :: rs) e.regs) (e.regs (regOf x)).toNat ∧
            k.exact (number (r :: rs) e.regs) (e.regs (regOf x)).toNat
              < 2 ^ (32 * (rs.length + 1)))) := by
  refine ⟨_, chainLines_assembled k r rs x, fun e hh => ?_⟩
  rw [← List.flatMap_def, List.flatMap_cons] at hh
  obtain ⟨e', hrun, hripple⟩ := Chain.run hnodup (fun q hq => regOf_ne_flgs (hflgs q hq)) hh
  have hdigits : ∀ d ∈ (r :: rs).map fun r => (e'.regs (regOf r)).toNat, d < 2 ^ 32 := by
    intro d hd
    obtain ⟨q, -, rfl⟩ := List.mem_map.1 hd
    exact (e'.regs (regOf q)).isLt
  have hsign : k.sign = 1 ∨ k.sign = -1 := by
    cases k with
    | add => exact .inl rfl
    | sub => exact .inr rfl
  have hcarry : carryOf e' = 0 ∨ carryOf e' = 1 := by
    rw [carryOf]
    cases e'.flag flgsC with
    | false => exact .inl rfl
    | true => exact .inr rfl
  have hexact : (number (r :: rs) e.regs : ℤ) + k.sign * (e.regs (regOf x)).toNat
      = k.exact (number (r :: rs) e.regs) (e.regs (regOf x)).toNat := by
    cases k with
    | add => rw [Chain.sign, Chain.exact, one_mul]
    | sub => rw [Chain.sign, Chain.exact, neg_one_mul, sub_eq_add_neg]
  have hpow : ((2 ^ 32 : ℕ) : ℤ) ^ ((r :: rs).map fun r => (e.regs (regOf r)).toNat).length
      = 2 ^ (32 * (rs.length + 1)) := by
    rw [List.length_map, List.length_cons, Nat.cast_pow, Nat.cast_ofNat, ← pow_mul]
  have hresult := hripple.result (by decide) hdigits
  have hflag := hripple.carry_iff (by decide) hdigits hsign hcarry
  rw [hpow] at hresult hflag
  have hset : e'.flag flgsC ↔ carryOf e' = 1 := by
    rw [carryOf]
    cases e'.flag flgsC with
    | false => exact iff_of_false Bool.false_ne_true (by decide)
    | true => exact iff_of_true rfl rfl
  refine ⟨e', hrun, ?_, ?_⟩
  · rw [← hexact]
    exact hresult
  · rw [hset, ← hexact]
    exact hflag

end

/-- `ADD R0,R0,R2` and `ADDIC R1,R1,1` in memory, `R0` is 0xFFFFFFFF and `R2` is 3. -/
def chainState : EmulatorContext :=
  { emuInit (fun r => if r = 0 then 0xFFFFFFFF else if r = 2 then 3 else 0) fun _ => 0 with
    memory := fun i => [0x2A#8, 0x00, 0x02, 0x00, 0xEA, 0xD1, 0x10, 0x01].getD i.toNat 0 }

theorem carry_chain_adder :
    ∃ e', iterate cpuIteration 2 chainState = .ok (.next e') ∧
      (number [nameR0, nameR1] e'.regs : ℤ) = 0x100000002 := by
  obtain ⟨bss, hlines, h⟩ := carry_chain .add nameR0 [nameR1] ⟨"R2", by decide⟩ (by decide) (by decide)
  have huniq : Relator.RightUnique Assembled := fun _ _ _ h h' => h.unique h'
  obtain rfl := huniq.forall₂ hlines (chainLines_assembled _ _ _ _)
  obtain ⟨e', hrun, hnumber, -⟩ := h chainState (by decide)
  refine ⟨e', hrun, hnumber.trans ?_⟩
  decide

end E2E
