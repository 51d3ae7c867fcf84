import Emulathor.Cpu.Proof.Taint
import Emulathor.Cpu.Proof.Loops

/-!
# Taint and instructions

`decides` are the places an instruction looks at to know where to act and what to do: an address, a
target, a port, a divisor that may be zero, what a `CMPXCHG` compares. `taintIns` is what it makes of
a taint: what it writes is tainted if something it is computed from is, and clean otherwise. In two
states that agree, an instruction that decides by clean places does the same, and the states agree
outside the new taint then (`Agree.executeIns`).
-/

namespace Cpu

open Common Lib

/-- Where the operands of an arithmetic instruction lie. -/
def operandBBits (ins : InstructionContext) : List Loc :=
  if ins.pfx = pfxImm then [] else wholeReg ins.opb

def operandBits (ins : InstructionContext) : List Loc := wholeReg ins.opa ++ operandBBits ins

/-- Both operands are the same register. -/
def sameOperands (ins : InstructionContext) : Bool := ins.pfx ≠ pfxImm ∧ ins.opa = ins.opb

/-- What an instruction decides by. -/
def decides (ins : InstructionContext) (e : EmulatorContext) : List Loc :=
  match Opcode.ofByte ins.opcode with
  | some .div | some .sdiv => operandBBits ins
  | some .mod | some .in_ => wholeReg ins.opb
  | some .out | some .loadid => wholeReg ins.opa
  | some .loadrd => wholeReg ins.opa ++ wholeReg ins.opb
  | some .loadma | some .storema | some .storeid => wholeReg ins.dst
  | some .storerd => wholeReg ins.dst ++ wholeReg ins.opb
  | some .cmpxchg =>
    if ins.pfx = pfxDword then
      wholeReg ins.dst ++ (memBytes (e.regs ins.dst) 4 ++ wholeReg ins.opa)
    else []
  | some .jmp | some .call => if ins.pfx = pfxImm then [] else wholeReg ins.dst
  | _ => []

/-- The registers `n - 1` down to `regstart` are popped. -/
def popTaint (regstart : Nat) : Nat → Dword → Taint Loc → Taint Loc
  | 0, _, D => D
  | n + 1, temp, D =>
    if regstart ≤ n then
      popTaint regstart n (temp + 4)
        (D.put (D.of (memBytes (temp + 4) 4)) (wholeReg (Fin.ofNat 16 n)))
    else D

/-- `n` registers from `r` up are pushed. -/
def pushTaint : Nat → Nat → Dword → Taint Loc → Taint Loc
  | 0, _, _, D => D
  | n + 1, r, temp, D =>
    pushTaint n (r + 1) (temp - 4) (D.put (D.of (wholeReg (Fin.ofNat 16 r))) (memBytes temp 4))

/-- The bytes a load or store of the prefix moves. -/
def moveBytes (pfx : Byte) (addr : Dword) : List Loc :=
  memBytes addr (if pfx = pfxDword then 4 else if pfx = pfxWord then 2 else if pfx = pfxByte then 1
    else 0)

/-- The taint after an instruction. -/
def taintIns (ins : InstructionContext) (e : EmulatorContext) (D : Taint Loc) : Taint Loc :=
  let t := D.of (operandBits ins)
  match Opcode.ofByte ins.opcode with
  | some .add => D.put t (wholeReg ins.dst ++ flagBits flgsO ++ flagBits flgsC)
  | some .sub =>
    D.put (!sameOperands ins && t) (wholeReg ins.dst ++ flagBits flgsO ++ flagBits flgsC)
  | some .mul | some .shl | some .shr | some .sar =>
    D.put t (flagBits flgsC ++ wholeReg ins.dst)
  | some .smul => D.put t (wholeReg ins.dst ++ flagBits flgsO)
  | some .and | some .or => D.put t (wholeReg ins.dst)
  | some .xor => D.put (!sameOperands ins && t) (wholeReg ins.dst)
  | some .div =>
    if operandB ins e = 0 then D else D.put (D.of (wholeReg ins.opa)) (wholeReg ins.dst)
  | some .sdiv =>
    if operandB ins e = 0 then D
    else D.put (D.of (wholeReg ins.opa)) (flagBits flgsO ++ wholeReg ins.dst)
  | some .mod =>
    if e.regs ins.opb = 0 then D else D.put (D.of (wholeReg ins.opa)) (wholeReg ins.dst)
  | some .cmp => D.put t (flagBits flgsZ ++ flagBits flgsC ++ flagBits flgsS)
  | some .test =>
    D.put (D.of (if ins.pfx = pfxImm then [] else wholeReg ins.dst))
      (flagBits flgsZ ++ flagBits flgsS ++ flagBits flgsE ++ flagBits flgsP)
  | some .not => D.put (D.of (wholeReg ins.opb)) (wholeReg ins.opa)
  | some .sex =>
    D.put (D.of (if ins.pfx = pfxByte then regBits ins.opb 0x000000FF#32
      else if ins.pfx = pfxWord then regBits ins.opb 0x0000FFFF#32 else wholeReg ins.opa))
      (wholeReg ins.opa)
  | some .in_ => D.put (D.of [.latch]) (wholeReg ins.opa)
  | some .out =>
    match portAt ((e.regs ins.opa &&& 0x7F#32).setWidth 8) e with
    | .ok (some _) => D.put (D.of (wholeReg ins.opb)) [.latch]
    | _ => D
  | some .movfc => D.put (D.of [.creg ins.opb]) (wholeReg ins.opa)
  | some .movtc => D.put (D.of (wholeReg ins.opb)) [.creg ins.opa]
  | some .xchgc =>
    (D.put (D.of [.creg ins.opb]) (wholeReg ins.opa)).put (D.of (wholeReg ins.opa)) [.creg ins.opb]
  | some .xchg =>
    (D.put (D.of (wholeReg ins.opb)) (wholeReg ins.opa)).put (D.of (wholeReg ins.opa))
      (wholeReg ins.opb)
  | some .mov =>
    if ins.pfx = pfxImm then D.put false (wholeReg ins.opa)
    else D.put (D.of (prefixedBits ins.pfx ins.opb)) (prefixedBits ins.pfx ins.opa)
  | some .loadi =>
    D.put false (if ins.pfx = pfxByte then byteBits ins.dst else wordBits ins.dst)
  | some .loadid =>
    if (e.regs ins.opa).toNat + ins.imm12.toNat > dwordMax then D
    else D.put (D.of (moveBytes ins.pfx (e.regs ins.opa + ins.imm12.setWidth 32)))
      (prefixedBits ins.pfx ins.dst)
  | some .loadrd =>
    if ((e.regs ins.opa).toNat : Int) + (e.regs ins.opb).toInt > dwordMax ∨
        ((e.regs ins.opa).toNat : Int) + (e.regs ins.opb).toInt < 0 then D
    else D.put (D.of (moveBytes ins.pfx (e.regs ins.opa + e.regs ins.opb)))
      (prefixedBits ins.pfx ins.dst)
  | some .storeid =>
    if (e.regs ins.dst).toNat + ins.imm12.toNat > dwordMax then D
    else D.put (D.of (prefixedBits ins.pfx ins.opa))
      (moveBytes ins.pfx (e.regs ins.dst + ins.imm12.setWidth 32))
  | some .storerd =>
    if ((e.regs ins.dst).toNat : Int) + (e.regs ins.opb).toInt > dwordMax ∨
        ((e.regs ins.dst).toNat : Int) + (e.regs ins.opb).toInt < 0 then D
    else D.put (D.of (prefixedBits ins.pfx ins.opa))
      (moveBytes ins.pfx (e.regs ins.dst + e.regs ins.opb))
  | some .loadma =>
    (popTaint (regstartOf ins).val ((regendOf ins).val + 1) (e.regs ins.dst) D).put false
      (wholeReg ins.dst)
  | some .storema =>
    (pushTaint ((regendOf ins).val + 1 - (regstartOf ins).val) (regstartOf ins).val
      (e.regs ins.dst) D).put false (wholeReg ins.dst)
  | some .cmpxchg =>
    if ins.pfx = pfxDword then
      if dwordAt e.memory (e.regs ins.dst) = e.regs ins.opa then
        (D.put (D.of (wholeReg ins.opb)) (memBytes (e.regs ins.dst) 4)).put false (flagBits flgsZ)
      else (D.put false (wholeReg ins.opa)).put false (flagBits flgsZ)
    else D
  | some .call => D.put false (wholeReg cpuRegRc)
  | some .jmp | some .stop | some .fail | some .iret | some .int | some .storeas | some .loadas
  | none => D

/-! ## Register instructions -/

section
variable {ins : InstructionContext} {D : Taint Loc} {e e' : EmulatorContext} (h : Agree D e e')
include h

theorem Agree.reg_of {r : Fin 16} (ht : D.of (wholeReg r) = false) : e.regs r = e'.regs r :=
  h.reg (Taint.of_eq_false.1 ht)

theorem Agree.operandB (hc : D.clean (operandBBits ins) = true) :
    operandB ins e = operandB ins e' := by
  unfold operandBBits at hc
  unfold Cpu.operandB
  split
  · rfl
  · next hi =>
    rw [if_neg hi] at hc
    exact h.reg hc

/-- What is computed of the operands. -/
theorem Agree.binary {β : Type} (f : Dword → Dword → β) (ht : D.of (operandBits ins) = false) :
    f (e.regs ins.opa) (Cpu.operandB ins e) = f (e'.regs ins.opa) (Cpu.operandB ins e') := by
  obtain ⟨ha, hb⟩ := Taint.clean_append.1 (Taint.of_eq_false.1 ht)
  rw [h.reg ha, h.operandB hb]

/-- What is computed of operands that are the same register, if it is the same of any. -/
theorem Agree.binary_self {β : Type} (f : Dword → Dword → β) (hf : ∀ x y, f x x = f y y)
    (ht : (!sameOperands ins && D.of (operandBits ins)) = false) :
    f (e.regs ins.opa) (Cpu.operandB ins e) = f (e'.regs ins.opa) (Cpu.operandB ins e') := by
  rcases Bool.and_eq_false_iff.1 ht with hs | ht
  · have hs : sameOperands ins = true := by simpa using hs
    obtain ⟨hi, hab⟩ := of_decide_eq_true hs
    simp only [Cpu.operandB, if_neg hi, hab]
    exact hf ..
  · exact h.binary f ht

theorem Agree.insAdd : Agree (D.put (D.of (operandBits ins))
    (wholeReg ins.dst ++ flagBits flgsO ++ flagBits flgsC)) (insAdd ins e) (insAdd ins e') := by
  rw [Taint.put_append, Taint.put_append]
  exact ((h.setReg (h.binary (· + ·))).setFlag (h.binary BitVec.saddOverflow)).setFlag
    (h.binary BitVec.uaddOverflow)

theorem Agree.insSub : Agree (D.put (!sameOperands ins && D.of (operandBits ins))
    (wholeReg ins.dst ++ flagBits flgsO ++ flagBits flgsC)) (insSub ins e) (insSub ins e') := by
  rw [Taint.put_append, Taint.put_append]
  refine ((h.setReg (h.binary_self (· - ·) fun x y => ?_)).setFlag
    (h.binary_self BitVec.ssubOverflow fun x y => ?_)).setFlag
    (h.binary_self BitVec.usubOverflow fun x y => ?_)
  · rw [BitVec.sub_self, BitVec.sub_self]
  · simp [BitVec.ssubOverflow]
  · simp [BitVec.usubOverflow]

/-- The carry, then a result. -/
theorem Agree.carry (f : Dword → Dword → Bool) (g : Dword → Dword → Dword) :
    Agree (D.put (D.of (operandBits ins)) (flagBits flgsC ++ wholeReg ins.dst))
      ((e.setFlag flgsC (f (e.regs ins.opa) (Cpu.operandB ins e))).setReg ins.dst
        (g (e.regs ins.opa) (Cpu.operandB ins e)))
      ((e'.setFlag flgsC (f (e'.regs ins.opa) (Cpu.operandB ins e'))).setReg ins.dst
        (g (e'.regs ins.opa) (Cpu.operandB ins e'))) := by
  rw [Taint.put_append]
  exact (h.setFlag (h.binary f)).setReg (h.binary g)

theorem Agree.insSmul : Agree (D.put (D.of (operandBits ins))
    (wholeReg ins.dst ++ flagBits flgsO)) (insSmul ins e) (insSmul ins e') := by
  rw [Taint.put_append]
  exact (h.setReg (h.binary (· * ·))).setFlag (h.binary BitVec.smulOverflow)

theorem Agree.insXor : Agree (D.put (!sameOperands ins && D.of (operandBits ins))
    (wholeReg ins.dst)) (insXor ins e) (insXor ins e') := by
  refine h.setReg (h.binary_self (· ^^^ ·) fun x y => ?_)
  rw [BitVec.xor_self, BitVec.xor_self]

theorem Agree.insCmp : Agree (D.put (D.of (operandBits ins))
    (flagBits flgsZ ++ flagBits flgsC ++ flagBits flgsS)) (insCmp ins e) (insCmp ins e') := by
  rw [Taint.put_append, Taint.put_append]
  exact ((h.setFlag (h.binary fun a b => decide (a = b))).setFlag
    (h.binary fun a b => decide (a < b))).setFlag (h.binary fun a b => decide (a.toInt < b.toInt))

theorem Agree.insTest : Agree (D.put (D.of (if ins.pfx = pfxImm then [] else wholeReg ins.dst))
    (flagBits flgsZ ++ flagBits flgsS ++ flagBits flgsE ++ flagBits flgsP))
    (insTest ins e) (insTest ins e') := by
  rw [Taint.put_append, Taint.put_append, Taint.put_append]
  have hval {β : Type} (f : Dword → β)
      (ht : D.of (if ins.pfx = pfxImm then [] else wholeReg ins.dst) = false) :
      f (if ins.pfx = pfxImm then ins.imm16.setWidth 32 else e.regs ins.dst)
        = f (if ins.pfx = pfxImm then ins.imm16.setWidth 32 else e'.regs ins.dst) := by
    split
    · rfl
    · next hi =>
      rw [if_neg hi] at ht
      rw [h.reg_of ht]
  exact (((h.setFlag (hval fun v => decide (v = 0))).setFlag
    (hval fun v => decide (v &&& 0x80000000#32 ≠ 0))).setFlag
    (hval fun v => decide (v &&& 0x00000001#32 = 0))).setFlag
    (hval fun v => decide (countBits 32 v % 2 = 1))

theorem Agree.insDiv (hc : D.clean (operandBBits ins) = true) :
    Agree (if Cpu.operandB ins e = 0 then D else D.put (D.of (wholeReg ins.opa)) (wholeReg ins.dst))
      (insDiv ins e) (insDiv ins e') := by
  unfold Cpu.insDiv
  rw [← h.operandB hc]
  by_cases hb : Cpu.operandB ins e = 0
  · simp only [hb, ↓reduceIte]
    exact h
  · simp only [hb, ↓reduceIte]
    exact h.setReg fun ht => by rw [h.reg_of ht]

theorem Agree.insSdiv (hc : D.clean (operandBBits ins) = true) :
    Agree (if Cpu.operandB ins e = 0 then D
      else D.put (D.of (wholeReg ins.opa)) (flagBits flgsO ++ wholeReg ins.dst))
      (insSdiv ins e) (insSdiv ins e') := by
  unfold Cpu.insSdiv
  rw [← h.operandB hc]
  generalize Cpu.operandB ins e = b
  by_cases hb : b = 0
  · simp only [hb, ↓reduceIte]
    exact h
  -- the overflow and what is left
  have hform (e : EmulatorContext) :
      (if (e.regs ins.opa).toInt.tdiv b.toInt > 2147483647 ∨
          (e.regs ins.opa).toInt.tdiv b.toInt < -2147483648 then
        (e.setFlag flgsO true).setReg ins.dst 0
      else
        (e.setFlag flgsO false).setReg ins.dst
          (BitVec.ofInt 32 ((e.regs ins.opa).toInt.tdiv b.toInt)))
      = (e.setFlag flgsO (decide ((e.regs ins.opa).toInt.tdiv b.toInt > 2147483647 ∨
          (e.regs ins.opa).toInt.tdiv b.toInt < -2147483648))).setReg ins.dst
        (if (e.regs ins.opa).toInt.tdiv b.toInt > 2147483647 ∨
          (e.regs ins.opa).toInt.tdiv b.toInt < -2147483648 then 0
        else BitVec.ofInt 32 ((e.regs ins.opa).toInt.tdiv b.toInt)) := by
    split
    · next ho => rw [decide_eq_true ho]
    · next ho => rw [decide_eq_false ho]
  simp only [hb, ↓reduceIte]
  rw [hform, hform, Taint.put_append]
  exact (h.setFlag fun ht => by rw [h.reg_of ht]).setReg fun ht => by rw [h.reg_of ht]

theorem Agree.insMod (hc : D.clean (wholeReg ins.opb) = true) :
    Agree (if e.regs ins.opb = 0 then D else D.put (D.of (wholeReg ins.opa)) (wholeReg ins.dst))
      (insMod ins e) (insMod ins e') := by
  unfold Cpu.insMod
  rw [← h.reg hc]
  by_cases hb : e.regs ins.opb = 0
  · simp only [hb, ↓reduceIte]
    exact h
  · simp only [hb, ↓reduceIte]
    exact h.setReg fun ht => by rw [h.reg_of ht]

theorem Agree.insSex : Agree (D.put
    (D.of (if ins.pfx = pfxByte then regBits ins.opb 0x000000FF#32
      else if ins.pfx = pfxWord then regBits ins.opb 0x0000FFFF#32 else wholeReg ins.opa))
    (wholeReg ins.opa)) (insSex ins e) (insSex ins e') := by
  refine h.setReg fun ht => ?_
  have hc := Taint.of_eq_false.1 ht
  by_cases hb : ins.pfx = pfxByte
  · simp only [if_pos hb] at hc ⊢
    rw [h.and_mask hc]
  by_cases hw : ins.pfx = pfxWord
  · simp only [if_neg hb, if_pos hw] at hc ⊢
    rw [h.and_mask hc]
  · simp only [if_neg hb, if_neg hw] at hc ⊢
    exact h.reg hc

theorem Agree.insXchg : Agree
    ((D.put (D.of (wholeReg ins.opb)) (wholeReg ins.opa)).put (D.of (wholeReg ins.opa))
      (wholeReg ins.opb)) (insXchg ins e) (insXchg ins e') :=
  (h.setReg h.reg_of).setReg h.reg_of

theorem Agree.insMov : Agree
    (if ins.pfx = pfxImm then D.put false (wholeReg ins.opa)
      else D.put (D.of (prefixedBits ins.pfx ins.opb)) (prefixedBits ins.pfx ins.opa))
    (insMov ins e) (insMov ins e') := by
  unfold Cpu.insMov prefixedBits
  by_cases hi : ins.pfx = pfxImm
  · simp only [if_pos hi]
    exact h.setReg fun _ => rfl
  by_cases hd : ins.pfx = pfxDword
  · simp only [if_neg hi, if_pos hd]
    exact h.setReg h.reg_of
  by_cases hw : ins.pfx = pfxWord
  · simp only [if_neg hi, if_neg hd, if_pos hw]
    exact h.setWordReg fun ht => h.wordReg (Taint.of_eq_false.1 ht)
  by_cases hb : ins.pfx = pfxByte
  · simp only [if_neg hi, if_neg hd, if_neg hw, if_pos hb]
    exact h.setByteReg fun ht => h.byteReg (Taint.of_eq_false.1 ht)
  · simp only [if_neg hi, if_neg hd, if_neg hw, if_neg hb, Taint.put_nil]
    exact h

theorem Agree.insLoadi : Agree
    (D.put false (if ins.pfx = pfxByte then byteBits ins.dst else wordBits ins.dst))
    (insLoadi ins e) (insLoadi ins e') := by
  unfold Cpu.insLoadi
  by_cases hb : ins.pfx = pfxByte
  · simp only [if_pos hb]
    exact h.setByteReg fun _ => rfl
  · simp only [if_neg hb]
    exact h.setWordReg fun _ => rfl

theorem Agree.insJmp (hc : D.clean (if ins.pfx = pfxImm then [] else wholeReg ins.dst) = true) :
    Agree D (insJmp ins e) (insJmp ins e') := by
  unfold Cpu.insJmp
  split
  · rw [h.pos]
    exact h.setPos _
  · next hi =>
    rw [if_neg hi] at hc
    rw [h.reg hc]
    exact h.setPos _

theorem Agree.insCall (hc : D.clean (if ins.pfx = pfxImm then [] else wholeReg ins.dst) = true) :
    Agree (D.put false (wholeReg cpuRegRc)) (insCall ins e) (insCall ins e') := by
  have hrc := h.setReg (r := cpuRegRc) (t := false) fun _ => h.pos
  unfold Cpu.insCall
  simp only
  split
  · rw [hrc.pos]
    exact hrc.setPos _
  · next hi =>
    rw [if_neg hi, Taint.clean_iff] at hc
    rw [hrc.reg (r := ins.dst) (Taint.clean_iff.2 fun l hl => ?_)]
    · exact hrc.setPos _
    · unfold Taint.put
      split
      · rfl
      · exact hc l hl

/-! ## Instructions that may fault -/

theorem Agree.loadAt (addr : Dword) : Alike Eq
    (Agree (D.put (D.of (moveBytes ins.pfx addr)) (prefixedBits ins.pfx ins.dst)))
    (loadAt ins e addr) (loadAt ins e' addr) := by
  unfold Cpu.loadAt moveBytes prefixedBits
  by_cases hd : ins.pfx = pfxDword
  · simp only [if_pos hd]
    refine (h.memGetDwordP addr).bind ?_
    rintro _ _ ⟨v, v', rfl, rfl, hv⟩
    exact h.setReg fun ht => hv (Taint.of_eq_false.1 ht)
  by_cases hw : ins.pfx = pfxWord
  · simp only [if_neg hd, if_pos hw]
    refine (h.memGetWordP addr).bind ?_
    rintro _ _ ⟨v, v', rfl, rfl, hv⟩
    exact h.setWordReg fun ht => hv (Taint.of_eq_false.1 ht)
  by_cases hb : ins.pfx = pfxByte
  · simp only [if_neg hd, if_neg hw, if_pos hb]
    refine (h.memGetByteP addr).bind ?_
    rintro _ _ ⟨v, v', rfl, rfl, hv⟩
    exact h.setByteReg fun ht => hv (Taint.of_eq_false.1 ht)
  · simp only [if_neg hd, if_neg hw, if_neg hb, Taint.put_nil]
    exact h

theorem Agree.storeAt (addr : Dword) : Alike Eq
    (Agree (D.put (D.of (prefixedBits ins.pfx ins.opa)) (moveBytes ins.pfx addr)))
    (storeAt ins e addr) (storeAt ins e' addr) := by
  unfold Cpu.storeAt moveBytes prefixedBits
  by_cases hd : ins.pfx = pfxDword
  · simp only [if_pos hd]
    refine (h.memWriteDwordP h.reg_of).bind ?_
    rintro _ _ ⟨f, f', rfl, rfl, hf⟩
    exact hf
  by_cases hw : ins.pfx = pfxWord
  · have hb : ¬ ins.pfx = pfxByte := by rw [hw]; decide
    simp only [if_neg hd, if_pos hw, if_neg hb]
    refine (h.memWriteWordP fun ht => h.wordReg (Taint.of_eq_false.1 ht)).bind ?_
    rintro _ _ ⟨f, f', rfl, rfl, hf⟩
    exact hf
  by_cases hb : ins.pfx = pfxByte
  · simp only [if_neg hd, if_neg hw, if_pos hb]
    refine (h.memWriteByteP fun ht => h.byteReg (Taint.of_eq_false.1 ht)).bind ?_
    rintro _ _ ⟨f, f', rfl, rfl, hf⟩
    exact hf
  · simp only [if_neg hd, if_neg hw, if_neg hb]
    exact h

theorem Agree.insLoadid (hc : D.clean (wholeReg ins.opa) = true) : Alike Eq
    (Agree (if (e.regs ins.opa).toNat + ins.imm12.toNat > dwordMax then D
      else D.put (D.of (moveBytes ins.pfx (e.regs ins.opa + ins.imm12.setWidth 32)))
        (prefixedBits ins.pfx ins.dst))) (insLoadid ins e) (insLoadid ins e') := by
  unfold Cpu.insLoadid
  rw [← h.reg hc]
  split
  · exact h
  · exact h.loadAt _

theorem Agree.insLoadrd (hc : D.clean (wholeReg ins.opa ++ wholeReg ins.opb) = true) : Alike Eq
    (Agree (if ((e.regs ins.opa).toNat : Int) + (e.regs ins.opb).toInt > dwordMax ∨
        ((e.regs ins.opa).toNat : Int) + (e.regs ins.opb).toInt < 0 then D
      else D.put (D.of (moveBytes ins.pfx (e.regs ins.opa + e.regs ins.opb)))
        (prefixedBits ins.pfx ins.dst))) (insLoadrd ins e) (insLoadrd ins e') := by
  obtain ⟨ha, hb⟩ := Taint.clean_append.1 hc
  unfold Cpu.insLoadrd
  rw [← h.reg ha, ← h.reg hb]
  split
  · next hg =>
    simp only [if_pos hg]
    exact h
  · next hg =>
    simp only [if_neg hg]
    exact h.loadAt _

theorem Agree.insStoreid (hc : D.clean (wholeReg ins.dst) = true) : Alike Eq
    (Agree (if (e.regs ins.dst).toNat + ins.imm12.toNat > dwordMax then D
      else D.put (D.of (prefixedBits ins.pfx ins.opa))
        (moveBytes ins.pfx (e.regs ins.dst + ins.imm12.setWidth 32))))
    (insStoreid ins e) (insStoreid ins e') := by
  unfold Cpu.insStoreid
  rw [← h.reg hc]
  split
  · exact h
  · exact h.storeAt _

theorem Agree.insStorerd (hc : D.clean (wholeReg ins.dst ++ wholeReg ins.opb) = true) : Alike Eq
    (Agree (if ((e.regs ins.dst).toNat : Int) + (e.regs ins.opb).toInt > dwordMax ∨
        ((e.regs ins.dst).toNat : Int) + (e.regs ins.opb).toInt < 0 then D
      else D.put (D.of (prefixedBits ins.pfx ins.opa))
        (moveBytes ins.pfx (e.regs ins.dst + e.regs ins.opb))))
    (insStorerd ins e) (insStorerd ins e') := by
  obtain ⟨ha, hb⟩ := Taint.clean_append.1 hc
  unfold Cpu.insStorerd
  rw [← h.reg ha, ← h.reg hb]
  split
  · next hg =>
    simp only [if_pos hg]
    exact h
  · next hg =>
    simp only [if_neg hg]
    exact h.storeAt _

theorem Agree.insCmpxchg (hc : D.clean (if ins.pfx = pfxDword then
      wholeReg ins.dst ++ (memBytes (e.regs ins.dst) 4 ++ wholeReg ins.opa) else []) = true) :
    Alike Eq (Agree (if ins.pfx = pfxDword then
        if dwordAt e.memory (e.regs ins.dst) = e.regs ins.opa then
          (D.put (D.of (wholeReg ins.opb)) (memBytes (e.regs ins.dst) 4)).put false (flagBits flgsZ)
        else (D.put false (wholeReg ins.opa)).put false (flagBits flgsZ)
      else D)) (insCmpxchg ins e) (insCmpxchg ins e') := by
  unfold Cpu.insCmpxchg
  by_cases hd : ins.pfx = pfxDword
  · simp only [if_pos hd] at hc ⊢
    obtain ⟨hdst, hc⟩ := Taint.clean_append.1 hc
    obtain ⟨hmem, ha⟩ := Taint.clean_append.1 hc
    rw [← h.reg hdst, ← h.reg ha]
    have hread := h.memGetDwordP (e.regs ins.dst)
    by_cases hin : e.InBlock (e.regs ins.dst) 4
    · have hin' : e'.InBlock (e.regs ins.dst) 4 := by
        unfold EmulatorContext.InBlock at hin ⊢
        rwa [← h.memorySize]
      rw [memGetDwordP_ok hin, memGetDwordP_ok hin'] at hread ⊢
      obtain ⟨v, v', hv, hv', heq⟩ := hread
      cases hv
      cases hv'
      rw [ok_bind, ok_bind, ← heq hmem]
      simp only
      split
      · refine (h.memWriteDwordP h.reg_of).bind ?_
        rintro _ _ ⟨f, f', rfl, rfl, hf⟩
        exact hf.setFlag fun _ => rfl
      · exact (h.setReg fun _ => rfl).setFlag fun _ => rfl
    · obtain ⟨i, -, hi⟩ := memGetDwordP_out hin
      rw [hi] at hread ⊢
      obtain ⟨_, hi', rfl⟩ := hread.of_error
      rw [hi']
      rfl
  · simp only [if_neg hd]
    exact h

theorem Agree.insIn (hc : D.clean (wholeReg ins.opb) = true) : Alike Eq
    (Agree (D.put (D.of [.latch]) (wholeReg ins.opa))) (insIn ins e) (insIn ins e') := by
  rw [insIn_eq, insIn_eq, ← h.reg hc]
  by_cases hno : ((e.regs ins.opb).setWidth 8).toNat < 128
  · rw [pioRead_ok hno, pioRead_ok hno, ← h.ports]
    cases e.ports ⟨_, hno⟩ with
    | none => exact h.setReg fun _ => rfl
    | some hndl =>
      cases hndl
      exact h.setReg fun ht => h.latch (Taint.of_eq_false.1 ht)
  · rw [pioRead_error hno, pioRead_error hno]
    rfl

theorem Agree.insOut (hc : D.clean (wholeReg ins.opa) = true) : Alike Eq
    (Agree (match portAt ((e.regs ins.opa &&& 0x7F#32).setWidth 8) e with
      | .ok (some _) => D.put (D.of (wholeReg ins.opb)) [.latch]
      | _ => D)) (insOut ins e) (insOut ins e') := by
  unfold Cpu.insOut portAt
  rw [← h.reg hc]
  by_cases hno : ((e.regs ins.opa &&& 0x7F#32).setWidth 8).toNat < 128
  · rw [pioWrite_ok hno, pioWrite_ok hno, ← h.ports, dif_pos hno]
    cases e.ports ⟨_, hno⟩ with
    | none => exact h
    | some hndl =>
      cases hndl
      exact h.setLatch h.reg_of
  · simp only [pioWrite, portAt, dif_neg hno]
    rfl

omit h in
theorem popTaint_done {regstart n : Nat} (hn : n = regstart) (temp : Dword) :
    popTaint regstart n temp D = D := by
  cases n with
  | zero => rfl
  | succ n => exact if_neg (by omega)

theorem Agree.cpuPopDword (t : Dword) : Alike Eq
    (fun o o' => ∃ v v', o = some (t + 4, v) ∧ o' = some (t + 4, v') ∧
      (D.clean (memBytes (t + 4) 4) = true → v = v'))
    (cpuPopDword t e) (cpuPopDword t e') := by
  refine (h.memGetDwordP (t + 4)).bind ?_
  rintro _ _ ⟨v, v', rfl, rfl, hv⟩
  exact ⟨v, v', rfl, rfl, hv⟩

theorem Agree.cpuPushDword (r : Fin 16) (t : Dword) : Alike Eq
    (fun o o' => ∃ f f', o = some (t - 4, f) ∧ o' = some (t - 4, f') ∧
      Agree (D.put (D.of (wholeReg r)) (memBytes t 4)) f f')
    (cpuPushDword t (e.regs r) e) (cpuPushDword t (e'.regs r) e') := by
  refine (h.memWriteDwordP h.reg_of).bind ?_
  rintro _ _ ⟨f, f', rfl, rfl, hf⟩
  exact ⟨f, f', rfl, rfl, hf⟩

end

/-- Both loops end alike. -/
def Looped (D : Taint Loc) (x x' : Bool × Dword × EmulatorContext) : Prop :=
  x.1 = x'.1 ∧ x.2.1 = x'.2.1 ∧ Agree D x.2.2 x'.2.2

theorem Agree.loadmaLoop {regstart : Fin 16} {n : Nat} {regp : Byte} {hp : regp.toNat < 16}
    {temp : Dword} {D : Taint Loc} {e e' : EmulatorContext} (h : Agree D e e')
    (hn : regp.toNat = n) :
    Alike Eq (Looped (popTaint regstart.val (n + 1) temp D)) (loadmaLoop regstart regp hp temp e)
      (loadmaLoop regstart regp hp temp e') := by
  induction n using Nat.strong_induction_on generalizing regp temp D e e' with
  | _ n ih =>
    subst hn
    rw [Cpu.loadmaLoop, Cpu.loadmaLoop]
    by_cases hs : regstart.val ≤ regp.toNat
    · have hreg : (⟨regp.toNat, hp⟩ : Fin 16) = Fin.ofNat 16 regp.toNat :=
        Fin.ext (Nat.mod_eq_of_lt hp).symm
      rw [dif_pos hs, dif_pos hs, popTaint, if_pos (by omega), hreg]
      refine (h.cpuPopDword temp).bind ?_
      rintro _ _ ⟨v, v', rfl, rfl, hv⟩
      have hset := h.setReg (r := Fin.ofNat 16 regp.toNat) (t := D.of (memBytes (temp + 4) 4))
        fun ht => hv (Taint.of_eq_false.1 ht)
      by_cases hlast : regp.toNat = regstart.val
      · rw [popTaint_done hlast]
        simp only [dif_pos hlast]
        exact ⟨rfl, rfl, hset⟩
      · have hprev : (regp - 1#8).toNat = regp.toNat - 1 := toNat_sub_ofNat (by omega)
        have hcount (D : Taint Loc) : popTaint regstart.val regp.toNat (temp + 4) D
            = popTaint regstart.val (regp.toNat - 1 + 1) (temp + 4) D := by
          rw [Nat.sub_add_cancel (by omega)]
        simp only [dif_neg hlast]
        rw [hcount]
        exact ih (regp.toNat - 1) (by omega) hset hprev
    · rw [dif_neg hs, dif_neg hs, popTaint, if_neg (by omega)]
      exact ⟨rfl, rfl, h⟩

theorem Agree.storemaLoop {regend : Fin 16} : ∀ {n : Nat} {regp : Byte} {temp : Dword}
    {D : Taint Loc} {e e' : EmulatorContext}, Agree D e e' →
    regp.toNat + n = max regp.toNat (regend.val + 1) →
    Alike Eq (Looped (pushTaint n regp.toNat temp D)) (storemaLoop regend regp temp e)
      (storemaLoop regend regp temp e')
  | 0, regp, temp, D, e, e', h, hn => by
    rw [Cpu.storemaLoop, Cpu.storemaLoop, dif_neg (by omega), dif_neg (by omega)]
    exact ⟨rfl, rfl, h⟩
  | n + 1, regp, temp, D, e, e', h, hn => by
    have hend := regend.isLt
    have hnext : (regp + 1#8).toNat = regp.toNat + 1 := toNat_add_ofNat (by omega)
    have hreg : (⟨regp.toNat, by omega⟩ : Fin 16) = Fin.ofNat 16 regp.toNat :=
      Fin.ext (Nat.mod_eq_of_lt (by omega)).symm
    rw [Cpu.storemaLoop, Cpu.storemaLoop, dif_pos (by omega), dif_pos (by omega), hreg]
    refine (h.cpuPushDword _ temp).bind ?_
    rintro _ _ ⟨f, f', rfl, rfl, hf⟩
    rw [pushTaint, ← hnext]
    exact Agree.storemaLoop hf (by omega)

section
variable {ins : InstructionContext} {D : Taint Loc} {e e' : EmulatorContext} (h : Agree D e e')
include h

theorem Agree.insLoadma (hc : D.clean (wholeReg ins.dst) = true) : Alike Eq
    (Agree ((popTaint (regstartOf ins).val ((regendOf ins).val + 1) (e.regs ins.dst) D).put false
      (wholeReg ins.dst))) (insLoadma ins e) (insLoadma ins e') := by
  unfold Cpu.insLoadma
  rw [← h.reg hc]
  refine (h.loadmaLoop (toNat_regNumber _)).bind ?_
  rintro ⟨success, temp, f⟩ ⟨success', temp', f'⟩ ⟨rfl, rfl, hf⟩
  cases success with
  | true => exact hf.setReg fun _ => rfl
  | false => exact hf.setReg fun _ => rfl

theorem Agree.insStorema (hc : D.clean (wholeReg ins.dst) = true) : Alike Eq
    (Agree ((pushTaint ((regendOf ins).val + 1 - (regstartOf ins).val) (regstartOf ins).val
      (e.regs ins.dst) D).put false (wholeReg ins.dst))) (insStorema ins e) (insStorema ins e') := by
  unfold Cpu.insStorema
  rw [← h.reg hc]
  refine (h.storemaLoop (storema_count (regstartOf ins) (regendOf ins))).bind ?_
  rintro ⟨success, temp, f⟩ ⟨success', temp', f'⟩ ⟨rfl, rfl, hf⟩
  rw [toNat_regNumber] at hf
  cases success with
  | true => exact hf.setReg fun _ => rfl
  | false => exact hf.setReg fun _ => rfl

/-! ## Any instruction -/

omit h in
theorem alike_next {x x' : Except Fault EmulatorContext} (h : Alike Eq (Agree D) x x') :
    Alike Eq (Flow.Both (Agree D)) (.next <$> x : Except Fault Flow) (.next <$> x') := by
  rcases x with i | f <;> rcases x' with i' | f' <;> exact h

/-- **An instruction** that decides by clean places. -/
theorem Agree.executeIns (hc : D.clean (decides ins e) = true) :
    Alike Eq (Flow.Both (Agree (taintIns ins e D))) (executeIns ins e) (executeIns ins e') := by
  unfold Cpu.executeIns taintIns
  unfold decides at hc
  cases hop : Opcode.ofByte ins.opcode with
  | none => exact h
  | some o =>
    rw [hop] at hc
    cases o with
    | add => exact h.insAdd
    | sub => exact h.insSub
    | mul =>
      exact h.carry (fun a b => decide ((a.setWidth 64 * b.setWidth 64 : Qword).toNat > dwordMax))
        fun a b => (a.setWidth 64 * b.setWidth 64 : Qword).setWidth 32
    | shl =>
      exact h.carry (fun a _ => decide (a &&& 0x80000000#32 ≠ 0)) fun a b => a <<< (b % 32).toNat
    | shr => exact h.carry (fun a _ => decide (a &&& 1#32 ≠ 0)) fun a b => a >>> (b % 32).toNat
    | sar =>
      exact h.carry (fun a _ => decide (a &&& 1#32 ≠ 0)) fun a b => a.sshiftRight (b % 32).toNat
    | smul => exact h.insSmul
    | and => exact h.setReg (h.binary (· &&& ·))
    | or => exact h.setReg (h.binary (· ||| ·))
    | xor => exact h.insXor
    | div => exact h.insDiv hc
    | sdiv => exact h.insSdiv hc
    | mod => exact h.insMod hc
    | cmp => exact h.insCmp
    | test => exact h.insTest
    | not => exact h.setReg fun ht => by rw [h.reg_of ht]
    | sex => exact h.insSex
    | in_ => exact alike_next (h.insIn hc)
    | out => exact alike_next (h.insOut hc)
    | movfc => exact h.setReg fun ht => h.creg (Taint.of_eq_false.1 ht)
    | movtc => exact h.setCreg h.reg_of
    | xchgc => exact (h.setReg fun ht => h.creg (Taint.of_eq_false.1 ht)).setCreg h.reg_of
    | xchg => exact h.insXchg
    | mov => exact h.insMov
    | loadi => exact h.insLoadi
    | loadid => exact alike_next (h.insLoadid hc)
    | loadrd => exact alike_next (h.insLoadrd hc)
    | storeid => exact alike_next (h.insStoreid hc)
    | storerd => exact alike_next (h.insStorerd hc)
    | loadma => exact alike_next (h.insLoadma hc)
    | storema => exact alike_next (h.insStorema hc)
    | cmpxchg => exact alike_next (h.insCmpxchg hc)
    | call => exact h.insCall hc
    | jmp => exact h.insJmp hc
    | stop | fail => exact ⟨rfl, h⟩
    | iret | int | storeas | loadas => exact h

end

end Cpu
