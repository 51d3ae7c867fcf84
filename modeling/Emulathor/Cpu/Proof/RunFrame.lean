import Emulathor.Cpu.Proof.Frame

/-!
# What a run may change

Whatever has come of a run, a byte of memory, a register, a flag or the latch that differs from what
it was at the start is among the effects of an instruction that one of its rounds executed
(`run_frame`). Nothing is asked of the run but that no round faulted: an instruction that was
executed made its accesses, so they were in range (`executeIns_ok`).
-/

namespace Cpu

open Common Lib

/-! ## Rounds that did not fault -/

section
variable {ins : InstructionContext} {e : EmulatorContext} {f : Flow}

theorem insIn_port {e' : EmulatorContext} (h : insIn ins e = .ok e') :
    (e.regs ins.opb).toNat % 256 < 128 := by
  by_contra hno
  rw [insIn_eq, pioRead_error (by rwa [BitVec.toNat_setWidth])] at h
  cases h

/-- An instruction that was executed has its effects only. -/
theorem executeIns_ok (h : executeIns ins e = .ok f) : Confined (effects ins e) e f.state := by
  have hacc : e.AccessInRange ins := by
    by_contra hout
    obtain ⟨i, -, hi⟩ := executeIns_faults.2 hout
    rw [hi] at h
    cases h
  have hin (ho : ins.opcode = Opcode.in_.code) : (e.regs ins.opb).toNat % 256 < 128 := by
    rw [executeIns, ho, Opcode.ofByte_code] at h
    cases hx : insIn ins e with
    | error fault => simp [hx] at h
    | ok e' => exact insIn_port hx
  obtain ⟨f', hf', hw⟩ := executeIns_confined hacc hin
  cases h.symm.trans hf'
  exact hw

/-- What the next round may change: nothing if the condition does not hold. -/
def roundEffects (e : EmulatorContext) : Effects :=
  if condPasses (insAt e.memory e.pos).condition (e.regs cpuRegFlgs) then
    effects (insAt e.memory e.pos) e
  else {}

theorem round_confined (h : cpuIteration e = .ok f) : Confined (roundEffects e) e.fetched f.state := by
  rw [cpuIteration_ok (inBlock_of_cpuIteration h), dispatchIns, EmulatorContext.fetched_regs] at h
  unfold roundEffects
  split at h
  · next hc =>
    rw [if_pos hc]
    exact executeIns_ok h
  · next hc =>
    cases h
    rw [if_neg hc]
    exact .refl

end

/-! ## Runs -/

/-- The first `n` rounds from `e` get to `s`. -/
def Visited (n : Nat) (e s : EmulatorContext) : Prop :=
  ∃ k < n, iterate cpuIteration k e = .ok (.next s)

section
variable {n : Nat} {e : EmulatorContext} {f : Flow}

/-- What no round visited changes. -/
theorem run_keeps {β : Type} {g : EmulatorContext → β} (h : iterate cpuIteration n e = .ok f)
    (hg : ∀ s, Visited n e s → ∀ f1 : Flow, Confined (roundEffects s) s.fetched f1.state →
      g f1.state = g s) : g f.state = g e :=
  iterate_keeps h fun k hk s hs f1 hf1 => hg s ⟨k, hk, hs⟩ f1 (round_confined hf1)

/-- A bit outside a mask. -/
theorem bit_of_masked {a b m : Dword} {i : Nat} (h : a &&& ~~~m = b &&& ~~~m)
    (hm : m.getLsbD i = false) : a.getLsbD i = b.getLsbD i := by
  by_cases hi : i < 32
  · have := congrArg (·.getLsbD i) h
    simpa only [BitVec.getLsbD_and, BitVec.getLsbD_not, hi, decide_true, hm, Bool.not_false,
      Bool.and_true] using this
  · rw [BitVec.getLsbD_of_ge _ _ (Nat.not_lt.1 hi), BitVec.getLsbD_of_ge _ _ (Nat.not_lt.1 hi)]

/-- **A run** changes nothing that is not among the effects of a round it got to. -/
theorem run_frame (h : iterate cpuIteration n e = .ok f) :
    (∀ i, (∀ s, Visited n e s → ¬ (roundEffects s).mem i) → f.state.memory i = e.memory i) ∧
    (∀ r, (∀ s, Visited n e s → ¬ (roundEffects s).creg r) → f.state.cregs r = e.cregs r) ∧
    (∀ r, r ≠ cpuRegFlgs → (∀ s, Visited n e s → ¬ (roundEffects s).reg r) →
      f.state.regs r = e.regs r) ∧
    (∀ b, (∀ s, Visited n e s → ¬ (roundEffects s).reg cpuRegFlgs ∧
        (roundEffects s).flags.getLsbD b = false) →
      (f.state.regs cpuRegFlgs).getLsbD b = (e.regs cpuRegFlgs).getLsbD b) ∧
    ((∀ s, Visited n e s → ¬ (roundEffects s).port) → f.state.latch = e.latch) ∧
    f.state.memorySize = e.memorySize ∧ f.state.ports = e.ports := by
  refine ⟨fun i hi => ?_, fun r hr => ?_, fun r hne hr => ?_, fun b hb => ?_, fun hp => ?_, ?_, ?_⟩
  · exact run_keeps (g := fun s => s.memory i) h fun s hs f1 hw => hw.memory i (hi s hs)
  · exact run_keeps (g := fun s => s.cregs r) h fun s hs f1 hw => hw.cregs r (hr s hs)
  · exact run_keeps (g := fun s => s.regs r) h fun s hs f1 hw => hw.regs r hne (hr s hs)
  · refine run_keeps (g := fun s => (s.regs cpuRegFlgs).getLsbD b) h fun s hs f1 hw => ?_
    obtain ⟨hreg, hflag⟩ := hb s hs
    exact bit_of_masked (hw.flags hreg) hflag
  · exact run_keeps (g := fun s => s.latch) h fun s hs f1 hw => hw.latch (hp s hs)
  · exact run_keeps (g := fun s => s.memorySize) h fun s hs f1 hw => hw.memorySize
  · exact run_keeps (g := fun s => s.ports) h fun s hs f1 hw => hw.ports

set_option maxRecDepth 20000 in
/-- What the three instructions of `storeLoad` may change: four bytes and two registers. -/
theorem storeLoad_effects {e0 s : EmulatorContext}
    (hload : emuLoadImg storeLoad (emuInit (fun _ => 7) fun _ => 0) = .ok e0)
    (hs : Visited 3 e0 s) :
    (∀ i, (roundEffects s).mem i → 0x104 ≤ i.toNat ∧ i.toNat < 0x108) ∧
      ∀ r, (roundEffects s).reg r → r = 1 ∨ r = 2 := by
  obtain rfl := Except.ok.inj hload
  obtain ⟨k, hk, hs⟩ := hs
  obtain rfl | rfl | rfl : k = 0 ∨ k = 1 ∨ k = 2 := by omega
  · obtain rfl := Flow.next.inj (Except.ok.inj hs)
    exact ⟨fun i h => h.elim, fun r h => .inl h⟩
  · obtain rfl := Flow.next.inj (Except.ok.inj hs)
    exact ⟨fun i h => ⟨Int.ofNat_le.1 h.1, Int.ofNat_lt.1 h.2⟩, fun r h => h.elim⟩
  · obtain rfl := Flow.next.inj (Except.ok.inj hs)
    exact ⟨fun i h => h.elim, fun r h => .inr h.2⟩

set_option maxRecDepth 20000 in
theorem run_frame_storeLoad :
    ∃ e0 f, emuLoadImg storeLoad (emuInit (fun _ => 7) fun _ => 0) = .ok e0 ∧
      iterate cpuIteration 3 e0 = .ok f ∧
      (f.state.memory 0x104 = 7 ∧ f.state.regs 1 = 0x100 ∧ f.state.regs 2 = 0x0707) ∧
      (∀ i : Dword, ¬ (0x104 ≤ i.toNat ∧ i.toNat < 0x108) → f.state.memory i = e0.memory i) ∧
      ∀ r, r ≠ cpuRegFlgs → r ≠ 1 → r ≠ 2 → f.state.regs r = e0.regs r := by
  obtain ⟨e0, f, hload, hrun, hwritten⟩ : ∃ e0 f,
      emuLoadImg storeLoad (emuInit (fun _ => 7) fun _ => 0) = .ok e0 ∧
      iterate cpuIteration 3 e0 = .ok f ∧
      f.state.memory 0x104 = 7 ∧ f.state.regs 1 = 0x100 ∧ f.state.regs 2 = 0x0707 :=
    ⟨_, _, rfl, rfl, rfl, rfl, rfl⟩
  obtain ⟨hmem, -, hreg, -⟩ := run_frame hrun
  refine ⟨e0, f, hload, hrun, hwritten, fun i hi => ?_, fun r hne h1 h2 => ?_⟩
  · exact hmem i fun s hs h => hi ((storeLoad_effects hload hs).1 i h)
  · exact hreg r hne fun s hs h => ((storeLoad_effects hload hs).2 r h).elim h1 h2

end

end Cpu
