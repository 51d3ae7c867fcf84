import Emulathor.Cpu.Proof.Fetch
import Emulathor.Cpu.Proof.Loops

/-!
# Stack discipline

A run of `STOREMA` and `LOADMA` brackets over one base register, with anything in between that
leaves memory and the base register alone, is `WellNested`. Such a run ends with the base register
it started with and writes nothing above the slot it started at (`WellNested.frame`), so each
`LOADMA` finds what its `STOREMA` pushed and restores the range and the base register (`restores`).
The induction is on the nesting; a run that could not push at all (`Above`) is the case of a base
register decremented below zero.
-/

namespace Cpu

open Common Lib

/-! ## Rounds -/

/-- The next instruction has opcode `o`, base register `d` and the range from `s` to `t`, and its
condition passes. -/
structure NextIs (o : Opcode) (d s t : Fin 16) (e : EmulatorContext) : Prop where
  opcode : (insAt e.memory e.pos).opcode = o.code
  dst : (insAt e.memory e.pos).dst = d
  regstart : regstartOf (insAt e.memory e.pos) = s
  regend : regendOf (insAt e.memory e.pos) = t
  passes : condPasses (insAt e.memory e.pos).condition (e.regs cpuRegFlgs) = true

/-- A round that executes such an instruction. -/
structure Executes (o : Opcode) (d s t : Fin 16) (e e' : EmulatorContext) : Prop
    extends NextIs o d s t e where
  round : cpuIteration e = .ok (.next e')

/-- The state after `STOREMA`. -/
def EmulatorContext.pushed (e : EmulatorContext) (d s t : Fin 16) : EmulatorContext :=
  { e.fetched with
    memory := pushDwords e.memory (e.regs d) (regVals e.regs s.val (rangeLength s t)) }.setReg d
    (e.regs d - BitVec.ofNat 32 (4 * rangeLength s t))

/-- The state after `LOADMA`. -/
def EmulatorContext.popped (e : EmulatorContext) (d s t : Fin 16) : EmulatorContext :=
  { e.fetched with regs := popRegs e.memory (e.regs d) s.val t.val e.regs }.setReg d
    (e.regs d + BitVec.ofNat 32 (4 * rangeLength s t))

section
variable {d s t : Fin 16} {e e' : EmulatorContext}

theorem NextIs.round {o : Opcode} (h : NextIs o d s t e) (hin : e.InBlock e.pos 4) :
    cpuIteration e = executeIns (insAt e.memory e.pos) e.fetched :=
  cpuIteration_passes hin h.passes

/-- `STOREMA` runs to its end if what it pushes lies inside memory. -/
theorem NextIs.storema (h : NextIs .storema d s t e) (hin : e.InBlock e.pos 4)
    (hb : e.PushBlock (e.regs d) (rangeLength s t)) :
    Executes .storema d s t e (e.pushed d s t) := by
  refine ⟨h, ?_⟩
  rw [h.round hin, executeIns, h.opcode, Opcode.ofByte_code]
  obtain ⟨-, rfl, rfl, rfl, -⟩ := h
  have hexec := insStorema_ok (e := e.fetched) hb
  simp only [hexec, map_ok]
  rfl

/-- It faults if not. -/
theorem NextIs.storema_out (h : NextIs .storema d s t e) (hin : e.InBlock e.pos 4)
    (hb : ¬ e.PushBlock (e.regs d) (rangeLength s t)) : OutOfBlock e.memorySize (cpuIteration e) := by
  rw [h.round hin, executeIns, h.opcode, Opcode.ofByte_code]
  obtain ⟨-, rfl, rfl, rfl, -⟩ := h
  have hexec := insStorema_out (e := e.fetched) hb
  exact hexec.map _

/-- `LOADMA` runs to its end if what it pops lies inside memory. -/
theorem NextIs.loadma (h : NextIs .loadma d s t e) (hin : e.InBlock e.pos 4)
    (hb : e.PopBlock (e.regs d) (rangeLength s t)) :
    Executes .loadma d s t e (e.popped d s t) := by
  refine ⟨h, ?_⟩
  rw [h.round hin, executeIns, h.opcode, Opcode.ofByte_code]
  obtain ⟨-, rfl, rfl, rfl, -⟩ := h
  have hexec := insLoadma_ok (e := e.fetched) hb
  simp only [hexec, map_ok]
  rfl

/-- It faults if not. -/
theorem NextIs.loadma_out (h : NextIs .loadma d s t e) (hin : e.InBlock e.pos 4)
    (hb : ¬ e.PopBlock (e.regs d) (rangeLength s t)) : OutOfBlock e.memorySize (cpuIteration e) := by
  rw [h.round hin, executeIns, h.opcode, Opcode.ofByte_code]
  obtain ⟨-, rfl, rfl, rfl, -⟩ := h
  have hexec := insLoadma_out (e := e.fetched) hb
  exact hexec.map _

/-- **What `STOREMA` does** when it runs to its end. -/
theorem Executes.storema (h : Executes .storema d s t e e') :
    e.PushBlock (e.regs d) (rangeLength s t) ∧ e' = e.pushed d s t := by
  have hin := inBlock_of_cpuIteration h.round
  by_cases hb : e.PushBlock (e.regs d) (rangeLength s t)
  · cases h.round.symm.trans (h.toNextIs.storema hin hb).round
    exact ⟨hb, rfl⟩
  · obtain ⟨i, -, hi⟩ := h.toNextIs.storema_out hin hb
    cases h.round.symm.trans hi

/-- **What `LOADMA` does** when it runs to its end. -/
theorem Executes.loadma (h : Executes .loadma d s t e e') : e' = e.popped d s t := by
  have hin := inBlock_of_cpuIteration h.round
  by_cases hb : e.PopBlock (e.regs d) (rangeLength s t)
  · cases h.round.symm.trans (h.toNextIs.loadma hin hb).round
    rfl
  · obtain ⟨i, -, hi⟩ := h.toNextIs.loadma_out hin hb
    cases h.round.symm.trans hi

end

/-! ## Well-nested runs -/

/-- Anything that leaves memory and the base register alone. -/
structure Quiet (d : Fin 16) (e e' : EmulatorContext) : Prop where
  memory : e'.memory = e.memory
  memorySize : e'.memorySize = e.memorySize
  base : e'.regs d = e.regs d

/-- A run of `STOREMA` and `LOADMA` rounds over `d`, each `LOADMA` with the range of its `STOREMA`,
and quiet changes in between. -/
inductive WellNested (d : Fin 16) : EmulatorContext → EmulatorContext → Prop
  | nil (e : EmulatorContext) : WellNested d e e
  | quiet {e e1 e2 : EmulatorContext} (h : Quiet d e e1) (rest : WellNested d e1 e2) :
    WellNested d e e2
  | bracket {s t : Fin 16} {e e1 e2 e3 e4 : EmulatorContext} (store : Executes .storema d s t e e1)
    (body : WellNested d e1 e2) (load : Executes .loadma d s t e2 e3) (rest : WellNested d e3 e4) :
    WellNested d e e4

/-- A state within a well-nested run, some brackets still open. -/
inductive Within (d : Fin 16) : EmulatorContext → EmulatorContext → Prop
  | closed {e m : EmulatorContext} (h : WellNested d e m) : Within d e m
  | opened {s t : Fin 16} {e e1 e2 m : EmulatorContext} (front : WellNested d e e1)
    (store : Executes .storema d s t e1 e2) (rest : Within d e2 m) : Within d e m

/-- The addresses a run from `e` does not write: those above the slot the base register is at, and
all if that is outside memory. -/
def Above (d : Fin 16) (e : EmulatorContext) (i : Dword) : Prop :=
  e.InBlock (e.regs d) 4 → (e.regs d).toNat + 4 ≤ i.toNat

/-- `e'` has the base register and the size of `e`, and its memory above the slot. -/
structure Frame (d : Fin 16) (e e' : EmulatorContext) : Prop where
  memorySize : e'.memorySize = e.memorySize
  base : e'.regs d = e.regs d
  memory : ∀ i, Above d e i → e'.memory i = e.memory i

section
variable {d s t : Fin 16} {e e1 e2 e3 : EmulatorContext}

theorem Frame.refl (d : Fin 16) (e : EmulatorContext) : Frame d e e := ⟨rfl, rfl, fun _ _ => rfl⟩

theorem Frame.above (h : Frame d e e1) {i : Dword} : Above d e1 i ↔ Above d e i := by
  unfold Above EmulatorContext.InBlock
  rw [h.memorySize, h.base]

theorem Frame.trans (h : Frame d e e1) (h' : Frame d e1 e2) : Frame d e e2 := by
  refine ⟨h'.memorySize.trans h.memorySize, h'.base.trans h.base, fun i hi => ?_⟩
  rw [h'.memory i (h.above.2 hi), h.memory i hi]

theorem Quiet.frame (h : Quiet d e e1) : Frame d e e1 :=
  ⟨h.memorySize, h.base, fun i _ => by rw [h.memory]⟩

@[simp] theorem pushed_memorySize : (e.pushed d s t).memorySize = e.memorySize := rfl

theorem pushed_base : (e.pushed d s t).regs d
    = e.regs d - BitVec.ofNat 32 (4 * rangeLength s t) := EmulatorContext.setReg_same ..

/-- `STOREMA` leaves the memory above its slot, and what it pushed is above the slot it leaves the
base register at. -/
theorem pushed_above (hb : e.PushBlock (e.regs d) (rangeLength s t)) {i : Dword}
    (hi : (e.regs d).toNat + 4 ≤ i.toNat + 4 * rangeLength s t ∨ Above d e i) :
    Above d (e.pushed d s t) i := by
  have hsize := e.memorySize.isLt
  unfold Above
  rw [pushed_base]
  by_cases h0 : rangeLength s t = 0
  · rw [h0, Nat.mul_zero, BitVec.sub_zero]
    intro hin
    rcases hi with hi | hi
    · omega
    · exact hi hin
  · obtain ⟨hlow, hin⟩ := hb h0
    have hi' : (e.regs d).toNat + 4 ≤ i.toNat + 4 * rangeLength s t := by
      rcases hi with hi | hi
      · exact hi
      · have := hi hin
        omega
    intro hin1
    unfold EmulatorContext.InBlock at hin hin1
    rw [pushed_memorySize] at hin1
    rw [BitVec.toNat_sub, BitVec.toNat_ofNat] at hin1 ⊢
    omega

theorem pushed_memory (hb : e.PushBlock (e.regs d) (rangeLength s t)) {i : Dword}
    (hi : Above d e i) : (e.pushed d s t).memory i = e.memory i := by
  show pushDwords _ _ _ i = _
  by_cases h0 : rangeLength s t = 0
  · rw [h0]
    rfl
  · obtain ⟨hlow, hin⟩ := hb h0
    have := e.memorySize.isLt
    have habove := hi hin
    unfold EmulatorContext.InBlock at hin
    exact pushDwords_outside (by rw [regVals_length]; exact hlow) (by omega) (.inl habove)

/-- What `LOADMA` finds: memory as `STOREMA` left it, from the slot up. -/
theorem dwordAt_pushed (hb : e.PushBlock (e.regs d) (rangeLength s t)) {m : Dword → Byte}
    (hm : ∀ i, Above d (e.pushed d s t) i → m i = (e.pushed d s t).memory i) {r : Fin 16}
    (hs : s.val ≤ r.val) (ht : r.val ≤ t.val) :
    dwordAt m (e.regs d - BitVec.ofNat 32 (4 * rangeLength s t)
      + BitVec.ofNat 32 (4 * (t.val + 1 - r.val))) = e.regs r := by
  have hlen : rangeLength s t = t.val + 1 - s.val := rfl
  obtain ⟨hlow, hin⟩ := hb (by omega)
  have hsize := e.memorySize.isLt
  unfold EmulatorContext.InBlock at hin
  -- the slot of `r`
  have haddr : e.regs d - BitVec.ofNat 32 (4 * rangeLength s t)
      + BitVec.ofNat 32 (4 * (t.val + 1 - r.val)) = e.regs d - BitVec.ofNat 32 (4 * (r.val - s.val)) := by
    apply BitVec.eq_of_toNat_eq
    rw [BitVec.toNat_add, BitVec.toNat_sub, BitVec.toNat_sub]
    simp only [BitVec.toNat_ofNat]
    omega
  have hslot : (e.regs d - BitVec.ofNat 32 (4 * (r.val - s.val))).toNat
      = (e.regs d).toNat - 4 * (r.val - s.val) := toNat_sub_ofNat (by omega)
  have hcongr : dwordAt m (e.regs d - BitVec.ofNat 32 (4 * (r.val - s.val)))
      = dwordAt (e.pushed d s t).memory (e.regs d - BitVec.ofNat 32 (4 * (r.val - s.val))) := by
    refine dwordAt_congr (by omega) fun i hi => hm i (pushed_above hb (.inl ?_))
    have := hi.1
    omega
  have hj : r.val - s.val < (regVals e.regs s.val (rangeLength s t)).length := by
    rw [regVals_length]
    omega
  rw [haddr, hcongr]
  show dwordAt (pushDwords _ _ _) _ = _
  rw [dwordAt_pushDwords (by rw [regVals_length]; exact hlow) (by omega) hj, regVals_getElem]
  congr 1
  apply Fin.ext
  show (s.val + (r.val - s.val)) % 16 = r.val
  omega

/-- **A bracket restores** its range and the base register, if its body left the memory above. -/
theorem bracket_restores (store : Executes .storema d s t e e1) (hbody : Frame d e1 e2)
    (load : Executes .loadma d s t e2 e3) :
    (∀ r : Fin 16, s.val ≤ r.val → r.val ≤ t.val → e3.regs r = e.regs r) ∧ e3.regs d = e.regs d ∧
      e3.memory = e2.memory ∧ e3.memorySize = e.memorySize := by
  obtain ⟨hb, rfl⟩ := store.storema
  obtain rfl := load.loadma
  have hbase : e2.regs d = e.regs d - BitVec.ofNat 32 (4 * rangeLength s t) :=
    hbody.base.trans pushed_base
  have hd : (e2.popped d s t).regs d = e.regs d := by
    rw [EmulatorContext.popped, EmulatorContext.setReg_same, hbase, BitVec.sub_add_cancel]
  refine ⟨fun r hs ht => ?_, hd, rfl, hbody.memorySize⟩
  by_cases hr : r = d
  · rw [hr, hd]
  · rw [EmulatorContext.popped, EmulatorContext.setReg_other _ _ _ _ hr]
    show popRegs _ _ _ _ _ r = _
    rw [popRegs, if_pos ⟨hs, ht⟩, hbase]
    exact dwordAt_pushed hb hbody.memory hs ht

/-- **A well-nested run** ends with its base register and writes nothing above its slot. -/
theorem WellNested.frame (h : WellNested d e e1) : Frame d e e1 := by
  induction h with
  | nil e => exact .refl d e
  | quiet h _ ih => exact h.frame.trans ih
  | @bracket s t e e1 e2 e3 e4 store body load rest ihbody ihrest =>
    obtain ⟨-, hbase, hmem, hsize⟩ := bracket_restores store ihbody load
    refine Frame.trans ⟨hsize, hbase, fun i hi => ?_⟩ ihrest
    obtain ⟨hb, rfl⟩ := store.storema
    rw [hmem, ihbody.memory i (pushed_above hb (.inr hi)), pushed_memory hb hi]

/-- Nor is anything written there while brackets are open. -/
theorem Within.memory {m : EmulatorContext} (h : Within d e m) :
    ∀ i, Above d e i → m.memory i = e.memory i := by
  induction h with
  | closed h => exact h.frame.memory
  | @opened s t e e1 e2 m front store rest ih =>
    intro i hi
    have hi1 : Above d e1 i := front.frame.above.2 hi
    obtain ⟨hb, rfl⟩ := store.storema
    rw [ih i (pushed_above hb (.inr hi1)), pushed_memory hb hi1, front.frame.memory i hi]

end

end Cpu
