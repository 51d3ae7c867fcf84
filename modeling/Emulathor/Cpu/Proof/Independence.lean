import Emulathor.Cpu.Proof.TaintIns
import Emulathor.Cpu.Proof.Fetch
import Emulathor.Cpu.Proof.Returns

/-!
# What a run does not depend on

A round decides by the bytes of its instruction, by flags and by what the instruction decides by
(`roundDecides`). Two states that agree outside a taint go through rounds that decide by clean places
alike: the fault, the result and every place that is clean then are the same
(`execute_independent`). So what the registers hold that `emu_create_context` leaves uninitialised
does not matter to a program that does not decide by it (`main_uninitialised`).
-/

namespace Cpu

open Common Lib

/-! ## Rounds -/

/-- The flags a condition looks at. -/
def condMask (condition : Byte) : Dword :=
  match Cond.ofByte condition with
  | some .iz | some .nz => flgsZ
  | some .is | some .ns => flgsS
  | some .io | some .no => flgsO
  | some .ip | some .np => flgsP
  | some .izis | some .nzns => flgsZ ||| flgsS
  | some .izic | some .nznc => flgsZ ||| flgsC
  | some .ic | some .nc => flgsC
  | some .nf => flgsZ ||| flgsC ||| flgsS ||| flgsO ||| flgsP ||| flgsE
  | some .always | none => 0

theorem condPasses_congr {condition : Byte} {f f' : Dword}
    (h : f &&& condMask condition = f' &&& condMask condition) :
    condPasses condition f = condPasses condition f' := by
  have hflag {m : Dword} (g : Dword) (hm : m &&& g = g) (h : f &&& m = f' &&& m) :
      f &&& g = f' &&& g := by
    rw [← hm, ← BitVec.and_assoc, h, BitVec.and_assoc]
  unfold condMask at h
  unfold condPasses
  cases hc : Cond.ofByte condition with
  | none => rfl
  | some c =>
    rw [hc] at h
    cases c with
    | always => rfl
    | iz | nz | is | ns | io | no | ip | np | ic | nc => simp only [show _ = _ from h]
    | izis | nzns => simp only [hflag flgsZ (by decide) h, hflag flgsS (by decide) h]
    | izic | nznc => simp only [hflag flgsZ (by decide) h, hflag flgsC (by decide) h]
    | nf =>
      simp only [hflag flgsZ (by decide) h, hflag flgsC (by decide) h, hflag flgsS (by decide) h,
        hflag flgsO (by decide) h, hflag flgsP (by decide) h, hflag flgsE (by decide) h]

/-- What a round decides by: the instruction's bytes, its condition and what it decides by. -/
def roundDecides (e : EmulatorContext) : List Loc :=
  memBytes e.pos 4 ++ (flagBits (condMask (insAt e.memory e.pos).condition) ++
    if condPasses (insAt e.memory e.pos).condition (e.regs cpuRegFlgs) then
      decides (insAt e.memory e.pos) e.fetched
    else [])

/-- The taint after a round. -/
def roundTaint (D : Taint Loc) (e : EmulatorContext) : Taint Loc :=
  if condPasses (insAt e.memory e.pos).condition (e.regs cpuRegFlgs) then
    taintIns (insAt e.memory e.pos) e.fetched D
  else D

/-- The round decides by clean places. -/
def roundClean (D : Taint Loc) (e : EmulatorContext) : Bool := D.clean (roundDecides e)

section
variable {D : Taint Loc} {e e' : EmulatorContext} (h : Agree D e e')
include h

theorem Agree.fetched : Agree D e.fetched e'.fetched where
  same l hl := by
    have hs := h.same l hl
    cases l <;> exact hs
  memorySize := h.memorySize
  pos := congrArg (· + 4) h.pos
  instructionCount := congrArg (· + 1) h.instructionCount
  ports := h.ports

theorem Agree.insAt (hc : D.clean (memBytes e.pos 4) = true) :
    insAt e.memory e.pos = insAt e'.memory e'.pos := by
  have h0 := h.memory hc (k := 0) (by decide)
  have h1 : e.memory (e.pos + 1) = e'.memory (e.pos + 1) := h.memory hc (k := 1) (by decide)
  have h2 : e.memory (e.pos + 2) = e'.memory (e.pos + 2) := h.memory hc (k := 2) (by decide)
  have h3 : e.memory (e.pos + 3) = e'.memory (e.pos + 3) := h.memory hc (k := 3) (by decide)
  rw [BitVec.add_zero] at h0
  rw [Cpu.insAt, Cpu.insAt, ← h.pos, h0, h1, h2, h3]

/-- **A round** that decides by clean places. -/
theorem Agree.cpuIteration (hc : roundClean D e = true) :
    Alike Eq (Flow.Both (Agree (roundTaint D e))) (cpuIteration e) (cpuIteration e') := by
  obtain ⟨hbytes, hrest⟩ := Taint.clean_append.1 hc
  obtain ⟨hflags, hins⟩ := Taint.clean_append.1 hrest
  have hread := h.memGetDwordP e.pos
  by_cases hin : e.InBlock e.pos 4
  · have hin' : e'.InBlock e'.pos 4 := by
      unfold EmulatorContext.InBlock at hin ⊢
      rwa [← h.memorySize, ← h.pos]
    have hcond := condPasses_congr (h.and_mask hflags)
    rw [cpuIteration_ok hin, cpuIteration_ok hin', ← h.insAt hbytes, dispatchIns, dispatchIns,
      EmulatorContext.fetched_regs, EmulatorContext.fetched_regs, ← hcond]
    unfold roundTaint
    split
    · next hp =>
      rw [if_pos hp] at hins
      exact h.fetched.executeIns hins
    · exact h.fetched
  · obtain ⟨i, -, hi⟩ := memGetDwordP_out hin
    rw [hi] at hread
    obtain ⟨_, hi', rfl⟩ := hread.of_error
    rw [Cpu.cpuIteration, Cpu.cpuIteration, decFetchIns, decFetchIns, memGetInstructionP,
      memGetInstructionP, ← h.pos, hi, hi']
    rfl

/-- **Runs** whose rounds decide by clean places. -/
theorem Agree.iterate {n : Nat}
    (hs : safeRun Cpu.cpuIteration roundTaint roundClean n D e = true) :
    Alike Eq (Flow.Both (Agree (tracked Cpu.cpuIteration roundTaint n D e)))
      (iterate Cpu.cpuIteration n e) (iterate Cpu.cpuIteration n e') :=
  tracked_run (fun _ _ _ h hc => h.cpuIteration hc) h hs

end

/-! ## The emulator -/

/-- What `emu_create_context` leaves uninitialised. -/
def uninitialised : Taint Loc
  | .reg r _ => r ≠ cpuRegSp
  | .creg r => r ≠ 0x01 ∧ r ≠ 0x02 ∧ r ≠ 0x04
  | .mem _ | .latch => false

/-- The loaded images agree. -/
theorem load_agree (img : List Byte) (regs cregs regs' cregs' : Fin 16 → Dword) :
    Alike Eq (Agree uninitialised) (emuLoadImg img (emuInit regs cregs))
      (emuLoadImg img (emuInit regs' cregs')) := by
  unfold emuLoadImg
  by_cases hfit : instructionsStartOffset + img.length ≤ (emuInit regs cregs).memorySize.toNat
  · rw [if_pos hfit, if_pos (c := _ ≤ (emuInit regs' cregs').memorySize.toNat) hfit]
    refine ⟨fun l hl => ?_, rfl, rfl, rfl, rfl⟩
    cases l with
    | mem i => rfl
    | latch => rfl
    | reg r b =>
      have hr : r = cpuRegSp := by simpa [uninitialised] using hl
      rw [hr]
      rfl
    | creg r =>
      have hr : r = 0x01 ∨ r = 0x02 ∨ r = 0x04 := by
        by_contra hno
        simp only [not_or] at hno
        exact absurd hl (ne_true_of_eq_false · (decide_eq_true hno))
      rcases hr with rfl | rfl | rfl <;> rfl
  · rw [if_neg hfit, if_neg (c := _ ≤ (emuInit regs' cregs').memorySize.toNat) hfit]
    rfl

/-- `PUSH BP`, `XOR R1,R1,R1`, `TEST R1`, `FAILIZ 3`. -/
def clearImage : List Byte :=
  [0xC8, 0x0E, 0xDD, 0x00, 0x23, 0x01, 0x11, 0x00, 0x16, 0x01, 0x00, 0x00, 0xC1, 0x10, 0x03, 0x00]

/-- The image loaded, with `v` in the registers. -/
def clearState (v : Dword) : EmulatorContext :=
  { emuInit (fun _ => v) fun _ => v with
    memory := fun i =>
      if instructionsStartOffset ≤ i.toNat then
        clearImage.getD (i.toNat - instructionsStartOffset) 0
      else 0
    pos := BitVec.ofNat 32 instructionsStartOffset }

/-- Both runs fault alike, run on, or return the same in states that agree. -/
theorem execute_independent {D : Taint Loc} {e e' : EmulatorContext} (h : Agree D e e') {n : Nat}
    (hs : safeRun cpuIteration roundTaint roundClean n D e = true) :
    (∃ fault, cpuExecute n e false = .error fault ∧ cpuExecute n e' false = .error fault) ∨
    (cpuExecute n e false = .ok none ∧ cpuExecute n e' false = .ok none) ∨
    ∃ r s s', cpuExecute n e false = .ok (some (r, s)) ∧
      cpuExecute n e' false = .ok (some (r, s')) ∧
      Agree (tracked cpuIteration roundTaint n D e) s s' := by
  rcases Flow.both_cases (h.iterate hs) with
    ⟨fault, hx, hy⟩ | ⟨s, s', hx, hy, -⟩ | ⟨r, s, s', hx, hy, hagree⟩
  · exact .inl ⟨fault, cpuExecute_error.2 hx, cpuExecute_error.2 hy⟩
  · exact .inr (.inl ⟨cpuExecute_none.2 ⟨s, hx⟩, cpuExecute_none.2 ⟨s', hy⟩⟩)
  · exact .inr (.inr ⟨r, s, s', cpuExecute_some.2 hx, cpuExecute_some.2 hy, hagree⟩)

/-- The result of a run, if it returned. -/
def returned (x : Except Fault (Option (Int × EmulatorContext))) : Option Int :=
  x.toOption.bind fun y => y.map Prod.fst

set_option maxRecDepth 100000 in
theorem execute_independent_clear : ∃ s s',
    cpuExecute 4 (clearState 0) false = .ok (some (3, s)) ∧
      cpuExecute 4 (clearState 7) false = .ok (some (3, s')) ∧
      Agree (tracked cpuIteration roundTaint 4 uninitialised (clearState 0)) s s' := by
  have hagree : Agree uninitialised (clearState 0) (clearState 7) :=
    load_agree clearImage (fun _ => 0) (fun _ => 0) (fun _ => 7) fun _ => 7
  have hr : returned (cpuExecute 4 (clearState 0) false) = some 3 := by decide +kernel
  rcases execute_independent (n := 4) hagree (by decide +kernel) with
    ⟨_, h, -⟩ | ⟨h, -⟩ | ⟨r, s, s', h, h', hout⟩
  · rw [h] at hr
    cases hr
  · rw [h] at hr
    cases hr
  · rw [h] at hr
    cases hr
    exact ⟨s, s', h, h', hout⟩

/-- **Uninitialised registers** do not matter to a program that does not decide by them. -/
theorem main_uninitialised {img : List Byte} {regs cregs : Fin 16 → Dword} {e : EmulatorContext}
    {n : Nat} (hload : emuLoadImg img (emuInit regs cregs) = .ok e)
    (hs : safeRun cpuIteration roundTaint roundClean n uninitialised e = true)
    (regs' cregs' : Fin 16 → Dword) : main n img regs' cregs' = main n img regs cregs := by
  have hboth := load_agree img regs cregs regs' cregs'
  rw [hload] at hboth
  rcases hload' : emuLoadImg img (emuInit regs' cregs') with i | e'
  · rw [hload'] at hboth
    exact hboth.elim
  rw [hload'] at hboth
  rw [main, main, hload, hload', ok_bind, ok_bind, cpuExecute_run, cpuExecute_run]
  rcases Flow.both_cases (Agree.iterate hboth hs) with
    ⟨fault, hx, hy⟩ | ⟨s, s', hx, hy, -⟩ | ⟨r, s, s', hx, hy, -⟩
  · rw [hx, hy]
  · rw [hx, hy]
    rfl
  · rw [hx, hy]
    rfl

set_option maxRecDepth 100000 in
theorem main_uninitialised_clear : main 4 clearImage (fun _ => 7) (fun _ => 7)
    = main 4 clearImage (fun _ => 0) fun _ => 0 :=
  main_uninitialised rfl (by decide +kernel) _ _

end Cpu
