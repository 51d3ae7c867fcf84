import Emulathor.Cpu.Emulator
import Emulathor.Cpu.Proof.Fetch

/-!
# `LOADI` into the halves of a register

A `LOADI` of the low word and one of the high word of a value leave it in the register
(`loadi_pair`), in two rounds of the loop. What a loaded image left in memory are its bytes
(`emuLoadImg_memory`).
-/

namespace Cpu

open Common Lib

/-! ## Word registers -/

/-- The halves of a dword written one after the other. -/
theorem insert_words (x v : Dword) :
    (((x &&& ~~~(0xFFFF#32 <<< 0)) ||| ((lwordFromDword v).setWidth 32 <<< 0))
      &&& ~~~(0xFFFF#32 <<< 16)) ||| ((hwordFromDword v).setWidth 32 <<< 16) = v := by
  simp only [lwordFromDword, hwordFromDword]
  rw [setWidth_and_mask _ _ (by decide), setWidth_and_mask _ _ (by decide)]
  have hmask : ∀ j < 32, (0xFFFF#32).getLsbD j = decide (j < 16) := by decide
  apply BitVec.eq_of_getLsbD_eq
  intro i hi
  simp only [BitVec.getLsbD_or, BitVec.getLsbD_and, BitVec.getLsbD_not, BitVec.getLsbD_shiftLeft,
    BitVec.getLsbD_setWidth, BitVec.getLsbD_ushiftRight, Nat.sub_zero, hmask i hi,
    hmask (i - 16) (by omega)]
  by_cases hlow : i < 16
  · simp [hi, hlow]
  · rw [Nat.add_sub_of_le (Nat.not_lt.1 hlow)]
    simp [hi, hlow, show i - 16 < 16 by omega, show i - 16 < 32 by omega]

/-- The word registers of `n` written with the words of `v`. -/
theorem setWordReg_pair {n lo hi : Fin 16} (hlo : lo.val = 2 * n.val)
    (hhi : hi.val = 2 * n.val + 1) (regs : Fin 16 → Dword) (v : Dword) :
    cpuSetWordReg hi (hwordFromDword v) (cpuSetWordReg lo (lwordFromDword v) regs)
      = Function.update regs n v := by
  have hlon : wordRegOf lo = n := Fin.ext (by show lo.val / 2 = n.val; omega)
  have hhin : wordRegOf hi = n := Fin.ext (by show hi.val / 2 = n.val; omega)
  have hlo2 : lo.val % 2 * 16 = 0 := by omega
  have hhi2 : hi.val % 2 * 16 = 16 := by omega
  simp only [cpuSetWordReg, hlon, hhin, hlo2, hhi2, Function.update_self, Function.update_idem,
    insert_words]

/-! ## Two rounds -/

/-- The instruction is `LOADI` of a word into the word register `r`. -/
structure LoadsWord (ins : InstructionContext) (cond : Byte) (r : Fin 16) (w : Word) : Prop where
  opcode : ins.opcode = Opcode.loadi.code
  pfx : ins.pfx = pfxWord
  condition : ins.condition = cond
  dst : ins.dst = r
  imm16 : ins.imm16 = w

section
variable {e : EmulatorContext} {cond : Byte} {r : Fin 16} {w : Word}

/-- A round that executes `LOADI`. -/
theorem cpuIteration_loadi (hin : e.InBlock e.pos 4) (h : LoadsWord (insAt e.memory e.pos) cond r w)
    (hc : condPasses cond (e.regs cpuRegFlgs)) :
    cpuIteration e = .ok (.next { e.fetched with regs := cpuSetWordReg r w e.regs }) := by
  have hpfx : ¬ pfxWord = pfxByte := by decide
  rw [cpuIteration_passes hin (by rw [h.condition]; exact hc), executeIns, h.opcode,
    Opcode.ofByte_code]
  simp only [insLoadi, h.pfx, hpfx, h.dst, h.imm16, ↓reduceIte, EmulatorContext.fetched_regs]

/-- **A `LOADI` pair** leaves the value in the register. -/
theorem loadi_pair {n lo hi : Fin 16} {v : Dword} (hlo : lo.val = 2 * n.val)
    (hhi : hi.val = 2 * n.val + 1) (hn : n ≠ cpuRegFlgs) (hin : e.InBlock e.pos 8)
    (h1 : LoadsWord (insAt e.memory e.pos) cond lo (lwordFromDword v))
    (h2 : LoadsWord (insAt e.memory (e.pos + 4)) cond hi (hwordFromDword v))
    (hc : condPasses cond (e.regs cpuRegFlgs)) :
    ∃ e', iterate cpuIteration 2 e = .ok (.next e') ∧ e'.regs = Function.update e.regs n v ∧
      e'.memory = e.memory ∧ e'.pos = e.pos + 8 := by
  have hsize := e.memorySize.isLt
  unfold EmulatorContext.InBlock at hin
  have hin1 : e.InBlock e.pos 4 := by
    unfold EmulatorContext.InBlock
    omega
  let e1 : EmulatorContext := { e.fetched with regs := cpuSetWordReg lo (lwordFromDword v) e.regs }
  have hpos : (e.pos + 4).toNat = e.pos.toNat + 4 := toNat_add_ofNat (k := 4) (by omega)
  have hin2 : e1.InBlock e1.pos 4 := by
    show (e.pos + 4).toNat + 4 ≤ e.memorySize.toNat
    omega
  -- the first half leaves the flags alone
  have hflgs : e1.regs cpuRegFlgs = e.regs cpuRegFlgs := by
    refine Function.update_of_ne (fun heq => hn ?_) ..
    rw [heq]
    exact Fin.ext (by show n.val = lo.val / 2; omega)
  have hround1 := cpuIteration_loadi hin1 h1 hc
  have hround2 := cpuIteration_loadi (e := e1) hin2 h2 (by rw [hflgs]; exact hc)
  refine ⟨_, (iterate_next hround1).trans (iterate_next hround2), ?_, rfl, ?_⟩
  · exact setWordReg_pair hlo hhi e.regs v
  · show e.pos + 4 + 4 = e.pos + 8
    rw [BitVec.add_assoc]
    rfl

end

/-! ## A loaded image -/

theorem emuLoadImg_ok {img : List Byte} {ectx e0 : EmulatorContext}
    (h : emuLoadImg img ectx = .ok e0) :
    instructionsStartOffset + img.length ≤ e0.memorySize.toNat ∧
    ∀ i (hi : i < img.length), e0.memory (BitVec.ofNat 32 (instructionsStartOffset + i)) = img[i] := by
  unfold emuLoadImg at h
  split at h
  case isFalse => cases h
  case isTrue hfit =>
  cases h
  have hsize := ectx.memorySize.isLt
  refine ⟨hfit, fun i hi => ?_⟩
  have ha : (BitVec.ofNat 32 (instructionsStartOffset + i)).toNat = instructionsStartOffset + i := by
    rw [BitVec.toNat_ofNat, Nat.mod_eq_of_lt (by omega)]
  simp only [ha, Nat.le_add_right, ↓reduceIte, Nat.add_sub_cancel_left]
  rw [List.getD_eq_getElem?_getD, List.getElem?_eq_getElem hi]
  rfl

end Cpu
