import Emulathor.E2E.Load32

/-!
# `LOADADR`, `LDCALL` and `LDJMP`

The pseudo-instructions become a `LOADI` pair of a label's address and, the last two, a `CALL` or
`JMP` through the register. Each of the instructions tests the condition again, but none in front of
the last can change the flags, since the register is one of `R0` to `R7`: `addressOp_atomic`, the
whole sequence is executed or the whole sequence is passed over.
-/

namespace E2E

open Common Lib Cpu Assembler

/-! ## The lines -/

inductive AddressOp
  | loadadr | ldcall | ldjmp

namespace AddressOp

def token : AddressOp → Token
  | loadadr => .opPseudoLoadadr
  | ldcall => .opPseudoLdcall
  | ldjmp => .opPseudoLdjmp

/-- The instructions behind the `LOADI` pair. -/
def jump (cond reg : Byte) : AddressOp → List EmitCall
  | loadadr => []
  | ldcall => [.fmtV pfxDword cond Opcode.call.code reg]
  | ldjmp => [.fmtV pfxDword cond Opcode.jmp.code reg]

/-- How many instructions there are. -/
def count : AddressOp → Nat
  | loadadr => 2
  | ldcall | ldjmp => 3

end AddressOp

section
variable (o : AddressOp) (c : Option (Name conditionNames)) (r : Name reg32Names)

/-- `LOADADR r, l`, `LDCALL r, l` or `LDJMP r, l`. -/
def addressLine (l : String) : List Token :=
  o.token :: condToks c ++ [.space, .reg32 r, .comma, .ident l]

/-- What the line emits: a reference to the label and the instructions behind it. -/
def addressActs (l : String) : List EmitCall :=
  .labelRef l (getRegForName r) (condCode c) :: o.jump (condCode c) (getRegForName r)

/-- The line's instructions, for the label's address. -/
def addressCalls (addr : Dword) : List EmitCall :=
  loadHalves addr (condCode c) (getRegForName r) ++ o.jump (condCode c) (getRegForName r)

end

/-! ## Assembling -/

section
variable {o : AddressOp} {c : Option (Name conditionNames)} {r : Name reg32Names}

theorem exp_address (hr : (regOf r).val < 8) (l : String) :
    exp (addressLine o c r l) = some ((addressActs o c r l).map .call) := by
  have hcheck (msg : String) : checkIfR7 (getRegForName r) msg = [] := by
    have hle : ¬ 7 < (getRegForName r).toNat := Nat.not_lt.2 (Nat.le_of_lt_succ hr)
    exact if_neg hle
  cases o <;> cases c <;>
    simp [addressLine, addressActs, AddressOp.token, AddressOp.jump, condToks, condCode, exp,
      expLoadadr, expLdcall, expLdjmp, hcheck]

theorem addressLine_bytes {t : String → Option Dword} {l : String} {addr : Dword}
    (hl : t l = some addr) : lineBytes t ((addressActs o c r l).map .call)
      = .ok ((addressCalls o c r addr).flatMap EmitCall.bytes) := by
  have hcalls : Calls ((addressActs o c r l).map .call) := by
    intro s hs
    obtain ⟨d, -, rfl⟩ := List.mem_map.1 hs
    exact ⟨d, rfl⟩
  have hw : widthOf ((addressActs o c r l).map .call) ≤ 64 := by
    cases o with
    | loadadr => show 8 + 0 ≤ 64; decide
    | _ => show 8 + (4 + 0) ≤ 64; decide
  have hrefs : refNames ((addressActs o c r l).map .call) = [l] := by cases o <;> rfl
  rcases lineBytes_calls (t := t) hcalls hw with ⟨-, h⟩ | ⟨h, -⟩
  · rw [h]
    cases o <;> simp [addressActs, addressCalls, loadHalves, AddressOp.jump, Statement.image,
      EmitCall.image, hl, loadiPair, EmitCall.bytes]
  · rw [hrefs] at h
    refine absurd (fun name hname => ?_) h
    rw [List.mem_singleton.1 hname, hl]
    rfl

end

/-! ## Executing -/

/-- The state with `n` instructions passed over. -/
def passed (n : Nat) (e : EmulatorContext) : EmulatorContext :=
  { e with
    pos := e.pos + BitVec.ofNat 32 (4 * n)
    instructionCount := e.instructionCount + BitVec.ofNat 64 n }

theorem fetched_passed (n : Nat) (e : EmulatorContext) : (passed n e).fetched = passed (n + 1) e := by
  have hpos : e.pos + BitVec.ofNat 32 (4 * n) + 4 = e.pos + BitVec.ofNat 32 (4 * (n + 1)) := by
    rw [BitVec.add_assoc, Nat.mul_succ, BitVec.ofNat_add]
    rfl
  have hcount : e.instructionCount + BitVec.ofNat 64 n + 1
      = e.instructionCount + BitVec.ofNat 64 (n + 1) := by
    rw [BitVec.add_assoc, BitVec.ofNat_add]
    rfl
  simp only [passed, EmulatorContext.fetched, hpos, hcount]

/-- What the sequence does to the state when it is executed. -/
def AddressOp.done (n : Fin 16) (addr : Dword) (e : EmulatorContext) : AddressOp → EmulatorContext
  | loadadr => { passed 2 e with regs := Function.update e.regs n addr }
  | ldcall =>
    { passed 3 e with
      regs := Function.update (Function.update e.regs n addr) cpuRegRc (e.pos + 12)
      pos := addr }
  | ldjmp => { passed 3 e with regs := Function.update e.regs n addr, pos := addr }

section
variable {cond reg : Byte} {n : Fin 16} {addr : Dword} {e : EmulatorContext} {rest : List Byte}

/-- The `LOADI` pair, executed or passed over. -/
theorem loadHalves_eq (hcond : cond.toNat < 16) (hreg : reg.toNat = n.val) (hn : n.val < 8)
    (hh : Holds e ((loadHalves addr cond reg).flatMap EmitCall.bytes ++ rest)) :
    iterate cpuIteration 2 e = .ok (.next
        { passed 2 e with regs := stepRegs cond (Function.update · n addr) e.regs }) ∧
      Holds { passed 2 e with regs := stepRegs cond (Function.update · n addr) e.regs } rest := by
  obtain ⟨hlo16, hhi16⟩ := double_lt (show reg.toNat < 8 by omega)
  have hlo : (reg * 2).toNat = 2 * n.val := by
    rw [BitVec.toNat_mul, show (2 : Byte).toNat = 2 from rfl]
    omega
  have hhi : (reg * 2 + 1).toNat = 2 * n.val + 1 := by
    rw [BitVec.toNat_add, hlo, show (1 : Byte).toNat = 1 from rfl]
    omega
  rw [loadHalves, List.flatMap_cons, List.flatMap_singleton, List.append_assoc] at hh
  obtain ⟨hround1, hh1⟩ := (regCall_loadi hcond hlo16).round_eq hh
  obtain ⟨hround2, hh2⟩ := (regCall_loadi hcond hhi16).round_eq hh1
  have hpassed : e.fetched.fetched = passed 2 e := by
    rw [← fetched_passed 1 e, ← fetched_passed 0 e]
    rw [show passed 0 e = e from by simp [passed]]
  have hstate : { EmulatorContext.fetched
        { e.fetched with
          regs := stepRegs cond (cpuSetWordReg ⟨_, hlo16⟩ (lwordFromDword addr)) e.regs } with
      regs := stepRegs cond (cpuSetWordReg ⟨_, hhi16⟩ (hwordFromDword addr))
        (stepRegs cond (cpuSetWordReg ⟨_, hlo16⟩ (lwordFromDword addr)) e.regs) }
      = { passed 2 e with regs := stepRegs cond (Function.update · n addr) e.regs } := by
    rw [← hpassed, stepRegs_loadi hlo hhi]
    rfl
  rw [← hstate]
  exact ⟨(iterate_next hround1).trans (iterate_next hround2), hh2⟩

/-- The jump behind the pair: the flags are as they were, and the register holds the address. -/
theorem jump_round {o : AddressOp} {c : EmitCall} (hcond : cond.toNat < 16)
    (hreg : reg.toNat = n.val) (hn : n.val < 8) (hjump : o.jump cond reg = [c])
    (hh : Holds { passed 2 e with regs := stepRegs cond (Function.update · n addr) e.regs }
      (c.bytes ++ rest)) :
    cpuIteration { passed 2 e with regs := stepRegs cond (Function.update · n addr) e.regs }
      = .ok (.next (if condPasses cond (e.regs cpuRegFlgs) then o.done n addr e
          else passed 3 e)) := by
  have hrc : n ≠ cpuRegRc := fun h => by
    have : cpuRegRc.val = 12 := rfl
    omega
  have hflgs : cpuRegFlgs ≠ n := fun h => by
    have : cpuRegFlgs.val = 15 := rfl
    omega
  have hne : ¬ pfxDword = pfxImm := by decide
  have hrange : InRange c := by
    cases o with
    | loadadr => cases hjump
    | _ => cases hjump; exact ⟨⟨by decide, hcond, by decide⟩, by omega⟩
  obtain ⟨hround, henc⟩ := hh.round hrange
  have hfetched : EmulatorContext.fetched
      { passed 2 e with regs := stepRegs cond (Function.update · n addr) e.regs }
      = { passed 3 e with regs := stepRegs cond (Function.update · n addr) e.regs } := by
    rw [← fetched_passed 2 e]
    rfl
  rw [hround, hfetched]
  generalize insAt _ _ = ins at henc
  by_cases hpass : condPasses cond (e.regs cpuRegFlgs)
  case neg =>
    have hcondition : ins.condition = cond := by
      cases o with
      | loadadr => cases hjump
      | _ => cases hjump; exact henc.1.2.1
    simp only [dispatchIns, hcondition, stepRegs, hpass, Bool.false_eq_true, ↓reduceIte]
    rfl
  case pos =>
    have hflags : Function.update e.regs n addr cpuRegFlgs = e.regs cpuRegFlgs :=
      Function.update_of_ne hflgs ..
    cases o with
    | loadadr => cases hjump
    | ldcall =>
      cases hjump
      obtain ⟨⟨hp, hc, ho⟩, hd⟩ := henc
      have hdst : ins.dst = n := (eq_reg (by omega) hd).trans (Fin.ext hreg)
      have hp' : ins.pfx = pfxDword := hp
      simp only [dispatchIns, show ins.condition = cond from hc, stepRegs, hpass, ↓reduceIte, hflags,
        executeIns, show ins.opcode = Opcode.call.code from ho, Opcode.ofByte_code, insCall, hp', hne,
        hdst, EmulatorContext.setReg_other _ _ _ _ hrc, Function.update_self, AddressOp.done]
      rfl
    | ldjmp =>
      cases hjump
      obtain ⟨⟨hp, hc, ho⟩, hd⟩ := henc
      have hdst : ins.dst = n := (eq_reg (by omega) hd).trans (Fin.ext hreg)
      have hp' : ins.pfx = pfxDword := hp
      simp only [dispatchIns, show ins.condition = cond from hc, stepRegs, hpass, ↓reduceIte, hflags,
        executeIns, show ins.opcode = Opcode.jmp.code from ho, Opcode.ofByte_code, insJmp, hp', hne,
        hdst, Function.update_self, AddressOp.done]

end

section
variable (o : AddressOp) (c : Option (Name conditionNames)) {r : Name reg32Names}

/-- **`LOADADR`, `LDCALL` and `LDJMP`** are executed as a whole or passed over as a whole. -/
theorem addressOp_atomic (hr : (regOf r).val < 8) {t : String → Option Dword} {l : String}
    {addr : Dword} (hl : t l = some addr) :
    ∃ acts bs, exp (addressLine o c r l) = some acts ∧ lineBytes t acts = .ok bs ∧
      bs.length = 4 * o.count ∧ ∀ e, Holds e bs →
        iterate cpuIteration o.count e = .ok (.next (if condPasses (condCode c) (e.regs cpuRegFlgs)
          then o.done (regOf r) addr e else passed o.count e)) := by
  have hcond := condCode_lt c
  refine ⟨_, _, exp_address hr l, addressLine_bytes hl, ?_, fun e hh => ?_⟩
  · cases o <;> rfl
  have hreg : (getRegForName r).toNat = (regOf r).val := rfl
  rw [addressCalls, List.flatMap_append] at hh
  obtain ⟨hpair, hh'⟩ := loadHalves_eq hcond hreg hr hh
  cases o with
  | loadadr =>
    rw [AddressOp.count, hpair, stepRegs]
    split <;> rfl
  | ldcall =>
    rw [AddressOp.jump, List.flatMap_singleton, ← List.append_nil (EmitCall.bytes _)] at hh'
    exact (iterate_succ hpair).trans (jump_round (o := .ldcall) hcond hreg hr rfl hh')
  | ldjmp =>
    rw [AddressOp.jump, List.flatMap_singleton, ← List.append_nil (EmitCall.bytes _)] at hh'
    exact (iterate_succ hpair).trans (jump_round (o := .ldjmp) hcond hreg hr rfl hh')

end

/-- `LDCALL R1, _X` in memory, for `_X` at 0x2000. -/
def ldcallState : EmulatorContext :=
  { emuInit (fun _ => 0) fun _ => 0 with
    memory := fun i => [0x46#8, 0x02, 0x00, 0x20, 0x46, 0x03, 0x00, 0x00, 0x0C, 0x01, 0x00,
      0x00].getD i.toNat 0 }

theorem addressOp_atomic_ldcall :
    ∃ acts bs, exp (addressLine .ldcall none nameR1 "_X") = some acts ∧
      lineBytes (fun _ => some 0x2000) acts = .ok bs ∧ Holds ldcallState bs ∧
      iterate cpuIteration 3 ldcallState
        = .ok (.next (AddressOp.ldcall.done 1 0x2000 ldcallState)) := by
  have hr : (regOf nameR1).val < 8 := by decide
  let t : String → Option Dword := fun _ => some 0x2000
  have ht : t "_X" = some 0x2000 := rfl
  obtain ⟨acts, bs, hexp, hbs, -, hrun⟩ := addressOp_atomic .ldcall none hr ht
  cases hexp.symm.trans (exp_address hr "_X")
  cases hbs.symm.trans (addressLine_bytes ht)
  have hholds : Holds ldcallState
      ((addressCalls .ldcall none nameR1 0x2000).flatMap EmitCall.bytes) := by decide
  exact ⟨_, _, hexp, hbs, hholds, hrun ldcallState hholds⟩

end E2E
