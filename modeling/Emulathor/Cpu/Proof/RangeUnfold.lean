import Emulathor.Cpu.Emulator
import Emulathor.Cpu.Proof.Loops

/-!
# Register ranges

`STOREMA` and `LOADMA` on a range against the same instruction on one register after the other,
ascending and descending (`range_unfold`).
-/

namespace Cpu

open Common Lib

/-- The registers of the range in an instruction. -/
def InRange (ins : InstructionContext) (r : Fin 16) : Prop :=
  regstartOf ins ≤ r ∧ r ≤ regendOf ins

instance instDecidableInRange (ins : InstructionContext) (r : Fin 16) :
    Decidable (InRange ins r) :=
  inferInstanceAs (Decidable (_ ∧ _))

/-- The range in an instruction, ascending. -/
def rangeOf (ins : InstructionContext) : List (Fin 16) :=
  (List.range' (regstartOf ins).val (rangeLength (regstartOf ins) (regendOf ins))).map (Fin.ofNat 16)

/-- The instruction with the range `r:r`. -/
def single (ins : InstructionContext) (r : Fin 16) : InstructionContext :=
  { ins with imm16 := BitVec.ofNat 16 (17 * r.val) }

/-- Instructions that do not return, in order. -/
def executeAll : List InstructionContext → EmulatorContext → Except Fault EmulatorContext :=
  run fun ins e => Flow.state <$> executeIns ins e

/-- The addresses `STOREMA` pushes to are inside memory. -/
def EmulatorContext.PushesInside (e : EmulatorContext) (ins : InstructionContext) : Prop :=
  ∀ j < rangeLength (regstartOf ins) (regendOf ins),
    e.InBlock (e.regs ins.dst - BitVec.ofNat 32 (4 * j)) 4

/-- The addresses `LOADMA` pops from are inside memory. -/
def EmulatorContext.PopsInside (e : EmulatorContext) (ins : InstructionContext) : Prop :=
  ∀ j < rangeLength (regstartOf ins) (regendOf ins),
    e.InBlock (e.regs ins.dst + 4 + BitVec.ofNat 32 (4 * j)) 4

instance instDecidablePushesInside (e : EmulatorContext) (ins : InstructionContext) :
    Decidable (e.PushesInside ins) :=
  inferInstanceAs (Decidable (∀ j < _, _))

instance instDecidablePopsInside (e : EmulatorContext) (ins : InstructionContext) :
    Decidable (e.PopsInside ins) :=
  inferInstanceAs (Decidable (∀ j < _, _))

theorem PushBlock_of_each {e : EmulatorContext} : ∀ {n : Nat} {t : Dword},
    (∀ j < n, e.InBlock (t - BitVec.ofNat 32 (4 * j)) 4) → e.PushBlock t n
  | 0, _, _ => fun h => absurd rfl h
  | n + 1, t, h => by
    have hin : e.InBlock t 4 := by simpa using h 0 (by omega)
    cases n with
    | zero => exact fun _ => ⟨by omega, hin⟩
    | succ n =>
      refine (PushBlock_succ hin e.memory).2 (PushBlock_of_each fun j hj => ?_)
      rw [sub_four_sub]
      exact h (j + 1) (by omega)

theorem PopBlock_of_each {e : EmulatorContext} : ∀ {n : Nat} {t : Dword},
    (∀ j < n, e.InBlock (t + 4 + BitVec.ofNat 32 (4 * j)) 4) → e.PopBlock t n
  | 0, _, _ => fun h => absurd rfl h
  | n + 1, t, h => by
    have hin : e.InBlock (t + 4) 4 := by simpa using h 0 (by omega)
    cases n with
    | zero => exact fun _ => hin
    | succ n =>
      refine (PopBlock_succ hin).2 (PopBlock_of_each fun j hj => ?_)
      rw [add_four_add]
      exact h (j + 1) (by omega)

theorem regstartOf_single (ins : InstructionContext) (r : Fin 16) :
    regstartOf (single ins r) = r := by
  have h : ∀ r : Fin 16, hiNibble ((BitVec.ofNat 16 (17 * r.val) &&& 0x00FF#16).setWidth 8) = r := by
    decide
  exact h r

theorem regendOf_single (ins : InstructionContext) (r : Fin 16) :
    regendOf (single ins r) = r := by
  have h : ∀ r : Fin 16, loNibble ((BitVec.ofNat 16 (17 * r.val) &&& 0x00FF#16).setWidth 8) = r := by
    decide
  exact h r

theorem rangeLength_self (r : Fin 16) : rangeLength r r = 1 := by
  rw [rangeLength]
  omega

section
variable {ins : InstructionContext} {e : EmulatorContext} {r : Fin 16}

theorem executeIns_storema (hop : ins.opcode = Opcode.storema.code) :
    executeIns ins e = .next <$> insStorema ins e := by
  rw [executeIns, hop, Opcode.ofByte_code]

theorem executeIns_loadma (hop : ins.opcode = Opcode.loadma.code) :
    executeIns ins e = .next <$> insLoadma ins e := by
  rw [executeIns, hop, Opcode.ofByte_code]

/-! ## Storing -/

/-- `STOREMA d,r:r`. -/
theorem storema_single (hop : ins.opcode = Opcode.storema.code)
    (hin : e.InBlock (e.regs ins.dst) 4) :
    Flow.state <$> executeIns (single ins r) e
      = .ok (({ e with memory := pushDwords e.memory (e.regs ins.dst) [e.regs r] }).setReg ins.dst
          (e.regs ins.dst - 4)) := by
  have hlen : rangeLength (regstartOf (single ins r)) (regendOf (single ins r)) = 1 := by
    rw [regstartOf_single, regendOf_single, rangeLength_self]
  have hreg : Fin.ofNat 16 r.val = r := Fin.ext (Nat.mod_eq_of_lt r.isLt)
  have hblock : e.PushBlock (e.regs (single ins r).dst) 1 := fun _ => ⟨by omega, hin⟩
  have hop' : (single ins r).opcode = Opcode.storema.code := hop
  rw [executeIns_storema hop', insStorema_ok (by rw [hlen]; exact hblock), hlen, regstartOf_single,
    regVals, regVals, hreg]
  rfl

theorem regVals_congr {regs regs' : Fin 16 → Dword} : ∀ {n s : Nat},
    (∀ j < n, regs (Fin.ofNat 16 (s + j)) = regs' (Fin.ofNat 16 (s + j))) →
    regVals regs s n = regVals regs' s n
  | 0, _, _ => rfl
  | n + 1, s, h => by
    have hrest : ∀ j < n, regs (Fin.ofNat 16 (s + 1 + j)) = regs' (Fin.ofNat 16 (s + 1 + j)) := by
      intro j hj
      rw [Nat.add_assoc, Nat.add_comm 1]
      exact h (j + 1) (by omega)
    rw [regVals, regVals, regVals_congr hrest]
    exact congrArg (· :: _) (h 0 (by omega))

/-- `STOREMA` on `n` registers from `s` up, one after the other. -/
theorem storema_singles (hop : ins.opcode = Opcode.storema.code) : ∀ {n s : Nat}
    {e : EmulatorContext}, (∀ j < n, Fin.ofNat 16 (s + j) ≠ ins.dst) →
    e.PushBlock (e.regs ins.dst) n →
    executeAll (((List.range' s n).map (Fin.ofNat 16)).map (single ins)) e
      = .ok (({ e with memory := pushDwords e.memory (e.regs ins.dst) (regVals e.regs s n) }).setReg
          ins.dst (e.regs ins.dst - BitVec.ofNat 32 (4 * n)))
  | 0, s, e, _, _ => by
    rw [Nat.mul_zero, BitVec.sub_zero]
    exact congrArg Except.ok (e.setReg_self ins.dst).symm
  | n + 1, s, e, hd, hb => by
    have hin : e.InBlock (e.regs ins.dst) 4 := (hb (by omega)).2
    have hnext : ∀ j < n, Fin.ofNat 16 (s + 1 + j) ≠ ins.dst := by
      intro j hj
      rw [Nat.add_assoc, Nat.add_comm 1]
      exact hd (j + 1) (by omega)
    have hblock : e.PushBlock (e.regs ins.dst - 4) n := by
      cases n with
      | zero => exact fun h => absurd rfl h
      | succ n => exact (PushBlock_succ hin e.memory).1 hb
    let m1 := pushDwords e.memory (e.regs ins.dst) (regVals e.regs s 1)
    let e1 := ({ e with memory := m1 }).setReg ins.dst (e.regs ins.dst - 4)
    have hbase : e1.regs ins.dst = e.regs ins.dst - 4 := Function.update_self ..
    have hvals : regVals e1.regs (s + 1) n = regVals e.regs (s + 1) n :=
      regVals_congr fun j hj => Function.update_of_ne (hnext j hj) ..
    have hfirst : executeAll (((List.range' s (n + 1)).map (Fin.ofNat 16)).map (single ins)) e
        = executeAll (((List.range' (s + 1) n).map (Fin.ofNat 16)).map (single ins)) e1 :=
      run_cons (storema_single hop hin)
    rw [hfirst, storema_singles hop hnext (by rw [hbase]; exact hblock), hvals, hbase,
      sub_four_sub]
    exact congrArg Except.ok (EmulatorContext.setReg_setReg { e with memory := _ } ins.dst _ _)

/-! ## Loading -/

/-- `LOADMA d,r:r`. -/
theorem loadma_single (hop : ins.opcode = Opcode.loadma.code)
    (hin : e.InBlock (e.regs ins.dst + 4) 4) :
    Flow.state <$> executeIns (single ins r) e
      = .ok ((e.setReg r (dwordAt e.memory (e.regs ins.dst + 4))).setReg ins.dst
          (e.regs ins.dst + 4)) := by
  have hlen : rangeLength (regstartOf (single ins r)) (regendOf (single ins r)) = 1 := by
    rw [regstartOf_single, regendOf_single, rangeLength_self]
  have hblock : e.PopBlock (e.regs (single ins r).dst) 1 := fun _ => hin
  have hop' : (single ins r).opcode = Opcode.loadma.code := hop
  rw [executeIns_loadma hop', insLoadma_ok (by rw [hlen]; exact hblock), hlen, regstartOf_single,
    regendOf_single, popRegs_single]
  rfl

/-- The registers popped into hide what the base register holds elsewhere. -/
theorem update_popRegs (m : Dword → Byte) (t : Dword) (s p : Nat) (regs : Fin 16 → Dword)
    (d : Fin 16) (v w : Dword) :
    Function.update (popRegs m t s p (Function.update regs d v)) d w
      = Function.update (popRegs m t s p regs) d w := by
  funext r
  by_cases hr : r = d
  · rw [hr, Function.update_self, Function.update_self]
  · rw [Function.update_of_ne hr, Function.update_of_ne hr, popRegs, popRegs,
      Function.update_of_ne hr]

/-- `LOADMA` on `n + 1` registers from `s + n` down, one after the other. -/
theorem loadma_singles (hop : ins.opcode = Opcode.loadma.code) {s : Nat} : ∀ {n : Nat}
    {e : EmulatorContext}, s + n < 16 → e.PopBlock (e.regs ins.dst) (n + 1) →
    executeAll (((List.range' s (n + 1)).map (Fin.ofNat 16)).reverse.map (single ins)) e
      = .ok (({ e with regs := popRegs e.memory (e.regs ins.dst) s (s + n) e.regs }).setReg ins.dst
          (e.regs ins.dst + BitVec.ofNat 32 (4 * (n + 1))))
  | 0, e, hs, hb => by
    have hreg : (Fin.ofNat 16 s).val = s := Nat.mod_eq_of_lt hs
    have hone := popRegs_single e.memory (e.regs ins.dst) (Fin.ofNat 16 s) e.regs
    rw [hreg] at hone
    rw [Nat.add_zero s, hone]
    exact (run_singleton ..).trans (loadma_single hop (hb (by omega)))
  | n + 1, e, hs, hb => by
    have hin : e.InBlock (e.regs ins.dst + 4) 4 := by
      have := hb (by omega)
      unfold EmulatorContext.InBlock at *
      omega
    let p : Fin 16 := ⟨s + n + 1, hs⟩
    have hp : Fin.ofNat 16 (s + (n + 1)) = p := Fin.ext (Nat.mod_eq_of_lt hs)
    let e1 := (e.setReg p (dwordAt e.memory (e.regs ins.dst + 4))).setReg ins.dst
      (e.regs ins.dst + 4)
    have hbase : e1.regs ins.dst = e.regs ins.dst + 4 := Function.update_self ..
    have hfirst : executeAll (((List.range' s (n + 1 + 1)).map (Fin.ofNat 16)).reverse.map
        (single ins)) e
        = executeAll (((List.range' s (n + 1)).map (Fin.ofNat 16)).reverse.map (single ins)) e1 := by
      rw [List.range'_concat, List.map_append, List.reverse_append, List.map_append, Nat.one_mul]
      simp only [List.map_cons, List.map_nil, List.reverse_singleton, List.singleton_append, hp]
      exact run_cons (loadma_single hop hin)
    have hrest : e1.PopBlock (e1.regs ins.dst) (n + 1) := by
      rw [hbase]
      exact (PopBlock_succ hin).1 hb
    rw [hfirst, loadma_singles hop (by omega) hrest, hbase, add_four_add]
    have hregs := popRegs_succ e.memory (e.regs ins.dst) (s := s) (p := s + n) hs (by omega) e.regs
    simp only [EmulatorContext.setReg, e1, update_popRegs, p]
    rw [hregs]
    rfl

/-! ## The ranges -/

/-- `STOREMA` with its range inside memory. -/
theorem storema_next (hop : ins.opcode = Opcode.storema.code) (hin : e.PushesInside ins) :
    executeIns ins e = .ok (.next (({ e with
      memory := pushDwords e.memory (e.regs ins.dst)
        (regVals e.regs (regstartOf ins).val (rangeLength (regstartOf ins) (regendOf ins))) }).setReg
      ins.dst
      (e.regs ins.dst - BitVec.ofNat 32 (4 * rangeLength (regstartOf ins) (regendOf ins))))) := by
  rw [executeIns_storema hop, insStorema_ok (PushBlock_of_each hin)]
  rfl

/-- `LOADMA` with its range inside memory. -/
theorem loadma_next (hop : ins.opcode = Opcode.loadma.code) (hin : e.PopsInside ins) :
    executeIns ins e = .ok (.next (({ e with
      regs := popRegs e.memory (e.regs ins.dst) (regstartOf ins).val (regendOf ins).val
        e.regs }).setReg ins.dst
      (e.regs ins.dst + BitVec.ofNat 32 (4 * rangeLength (regstartOf ins) (regendOf ins))))) := by
  rw [executeIns_loadma hop, insLoadma_ok (PopBlock_of_each hin)]
  rfl

/-- The `j`-th register of a range is in it. -/
theorem inRange_ofNat {j : Nat} (hj : j < rangeLength (regstartOf ins) (regendOf ins)) :
    InRange ins (Fin.ofNat 16 ((regstartOf ins).val + j)) := by
  have hend := (regendOf ins).isLt
  unfold rangeLength at hj
  have hval : (Fin.ofNat 16 ((regstartOf ins).val + j)).val = (regstartOf ins).val + j :=
    Nat.mod_eq_of_lt (by omega)
  refine ⟨Fin.le_def.2 ?_, Fin.le_def.2 ?_⟩ <;> rw [hval] <;> omega

theorem rangeLength_empty (h : regendOf ins < regstartOf ins) :
    rangeLength (regstartOf ins) (regendOf ins) = 0 := by
  have := Fin.lt_def.1 h
  unfold rangeLength
  omega

/-- Only the base register changes, memory by the registers of the range alone. -/
theorem storema_touches {e₂ e' e₂' : EmulatorContext} (hop : ins.opcode = Opcode.storema.code)
    (hin : e.PushesInside ins) (h : executeIns ins e = .ok (.next e'))
    (hmem : e₂.memory = e.memory) (hsize : e₂.memorySize = e.memorySize)
    (hdst : e₂.regs ins.dst = e.regs ins.dst) (hregs : ∀ r, InRange ins r → e₂.regs r = e.regs r)
    (h₂ : executeIns ins e₂ = .ok (.next e₂')) :
    e₂'.memory = e'.memory ∧ e₂'.regs ins.dst = e'.regs ins.dst := by
  have hin₂ : e₂.PushesInside ins := by
    intro j hj
    have := hin j hj
    unfold EmulatorContext.InBlock at *
    rwa [hdst, hsize]
  rw [storema_next hop hin] at h
  rw [storema_next hop hin₂] at h₂
  cases h
  cases h₂
  refine ⟨?_, ?_⟩
  · simp only [EmulatorContext.setReg_memory]
    rw [hmem, hdst, regVals_congr fun j hj => hregs _ (inRange_ofNat hj)]
  · rw [EmulatorContext.setReg_same, EmulatorContext.setReg_same, hdst]

/-- A register outside the range keeps its value. -/
theorem loadma_touches {e' : EmulatorContext} (hop : ins.opcode = Opcode.loadma.code)
    (hin : e.PopsInside ins) (h : executeIns ins e = .ok (.next e')) (hr : ¬ InRange ins r)
    (hd : r ≠ ins.dst) : e'.regs r = e.regs r := by
  rw [loadma_next hop hin] at h
  cases h
  rw [EmulatorContext.setReg_other _ _ _ _ hd]
  exact if_neg hr

/-- An empty range leaves everything as it is. -/
theorem storema_empty {e' : EmulatorContext} (hop : ins.opcode = Opcode.storema.code)
    (h : executeIns ins e = .ok (.next e')) (hlt : regendOf ins < regstartOf ins) : e' = e := by
  have hlen := rangeLength_empty hlt
  have hin : e.PushesInside ins := by
    intro j hj
    omega
  rw [storema_next hop hin, hlen, Nat.mul_zero, BitVec.sub_zero] at h
  cases h
  exact e.setReg_self ins.dst

theorem loadma_empty {e' : EmulatorContext} (hop : ins.opcode = Opcode.loadma.code)
    (h : executeIns ins e = .ok (.next e')) (hlt : regendOf ins < regstartOf ins) : e' = e := by
  have hlen := rangeLength_empty hlt
  have hin : e.PopsInside ins := by
    intro j hj
    omega
  have hregs : popRegs e.memory (e.regs ins.dst) (regstartOf ins).val (regendOf ins).val e.regs
      = e.regs := by
    funext r
    have := Fin.lt_def.1 hlt
    exact if_neg (by omega)
  rw [loadma_next hop hin, hlen, hregs, Nat.mul_zero, BitVec.add_zero] at h
  cases h
  exact e.setReg_self ins.dst

/-- `STOREMA` on a range without the base register. -/
theorem storema_unfold {e' : EmulatorContext} (hop : ins.opcode = Opcode.storema.code)
    (hin : e.PushesInside ins) (hd : ¬ InRange ins ins.dst)
    (h : executeIns ins e = .ok (.next e')) :
    executeAll ((rangeOf ins).map (single ins)) e = .ok e' := by
  have hne : ∀ j < rangeLength (regstartOf ins) (regendOf ins),
      Fin.ofNat 16 ((regstartOf ins).val + j) ≠ ins.dst := by
    intro j hj heq
    exact hd (heq ▸ inRange_ofNat hj)
  rw [storema_next hop hin] at h
  cases h
  exact storema_singles hop hne (PushBlock_of_each hin)

/-- `LOADMA` on a range; the base register may be one of it. -/
theorem loadma_unfold {e' : EmulatorContext} (hop : ins.opcode = Opcode.loadma.code)
    (hin : e.PopsInside ins) (h : executeIns ins e = .ok (.next e')) :
    executeAll ((rangeOf ins).reverse.map (single ins)) e = .ok e' := by
  by_cases hlt : regendOf ins < regstartOf ins
  · rw [loadma_empty hop h hlt, rangeOf, rangeLength_empty hlt]
    rfl
  · have hle := Fin.le_def.1 (Fin.not_lt.1 hlt)
    have hend := (regendOf ins).isLt
    obtain ⟨n, hn⟩ : ∃ n, rangeLength (regstartOf ins) (regendOf ins) = n + 1 :=
      ⟨(regendOf ins).val - (regstartOf ins).val, by unfold rangeLength; omega⟩
    have hsum : (regendOf ins).val = (regstartOf ins).val + n := by
      unfold rangeLength at hn
      omega
    rw [loadma_next hop hin, hn, hsum] at h
    cases h
    have hblock : e.PopBlock (e.regs ins.dst) (n + 1) := hn ▸ PopBlock_of_each hin
    rw [rangeOf, hn]
    exact loadma_singles hop (by omega) hblock

end

/-- **Register ranges unfold.** With its block inside memory, `STOREMA` and `LOADMA` come to an end
and have to do with the registers of their range and the base alone; they do what the instruction
on the single registers does, ascending and descending. -/
theorem range_unfold :
    (∀ (ins : InstructionContext) (e : EmulatorContext),
      ins.opcode = Opcode.storema.code → e.PushesInside ins →
      ∃ e', executeIns ins e = .ok (.next e') ∧
        e' = ({ e with memory := e'.memory }).setReg ins.dst (e'.regs ins.dst) ∧
        (∀ e₂ e₂' : EmulatorContext, e₂.memory = e.memory → e₂.memorySize = e.memorySize →
          e₂.regs ins.dst = e.regs ins.dst → (∀ r, InRange ins r → e₂.regs r = e.regs r) →
          executeIns ins e₂ = .ok (.next e₂') →
          e₂'.memory = e'.memory ∧ e₂'.regs ins.dst = e'.regs ins.dst) ∧
        (regendOf ins < regstartOf ins → e' = e) ∧
        (¬ InRange ins ins.dst → executeAll ((rangeOf ins).map (single ins)) e = .ok e')) ∧
    ∀ (ins : InstructionContext) (e : EmulatorContext),
      ins.opcode = Opcode.loadma.code → e.PopsInside ins →
      ∃ e', executeIns ins e = .ok (.next e') ∧
        e' = { e with regs := e'.regs } ∧
        (∀ r, ¬ InRange ins r → r ≠ ins.dst → e'.regs r = e.regs r) ∧
        (regendOf ins < regstartOf ins → e' = e) ∧
        executeAll ((rangeOf ins).reverse.map (single ins)) e = .ok e' := by
  refine ⟨fun ins e hop hin => ?_, fun ins e hop hin => ?_⟩
  · have hnext := storema_next hop hin
    refine ⟨_, hnext, ?_, ?_, storema_empty hop hnext, fun hd => storema_unfold hop hin hd hnext⟩
    · rw [EmulatorContext.setReg_same]
      rfl
    · intro e₂ e₂' hmem hsize hdst hregs h₂
      exact storema_touches hop hin hnext hmem hsize hdst hregs h₂
  · have hnext := loadma_next hop hin
    refine ⟨_, hnext, rfl, ?_, loadma_empty hop hnext, loadma_unfold hop hin hnext⟩
    intro r hr hd
    exact loadma_touches hop hin hnext hr hd

/-- A base of 0x100 in `R0`, and each register holds its number. -/
def rangeState : EmulatorContext :=
  emuInit (fun r => if r = 0 then 0x100 else BitVec.ofNat 32 r.val) fun _ => 0

/-- `STOREMA R0,R2:R4` and `LOADMA R0,R2:R4`. -/
def storema24 : InstructionContext := decodeBytes 0x08 0xF0 0x24 0x00
def loadma24 : InstructionContext := decodeBytes 0x09 0xF0 0x24 0x00

theorem range_unfold_singles :
    (∃ e', executeIns storema24 rangeState = .ok (.next e') ∧
      executeAll ([2, 3, 4].map (single storema24)) rangeState = .ok e') ∧
    ∃ e', executeIns loadma24 rangeState = .ok (.next e') ∧
      executeAll ([4, 3, 2].map (single loadma24)) rangeState = .ok e' := by
  obtain ⟨hstore, hload⟩ := range_unfold
  obtain ⟨e₁, h₁, -, -, -, hsingles⟩ := hstore storema24 rangeState rfl (by decide)
  obtain ⟨e₂, h₂, -, -, -, hsingles'⟩ := hload loadma24 rangeState rfl (by decide)
  exact ⟨⟨e₁, h₁, hsingles (by decide)⟩, e₂, h₂, hsingles'⟩

end Cpu
