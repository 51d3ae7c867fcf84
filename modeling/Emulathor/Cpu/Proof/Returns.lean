import Emulathor.Cpu.Emulator
import Emulathor.Cpu.Proof.Fetch
import Emulathor.Cpu.Proof.SingleStep

/-!
# How the emulator ends

`main` of `emulator.c` returns what `cpu_execute` does, and the system keeps the low byte of it
(`exitStatus`). A run ends only where it executes a `STOP` or a `FAIL` (`round_ret_iff`), so the
exit status is 0 or the low byte of a `FAIL`'s immediate (`main_exits_iff`); a test that fails with
0x0100 passes.
-/

namespace Cpu

open Common Lib

/-! ## The round that ends the loop -/

section
variable {ins : InstructionContext} {e s : EmulatorContext} {r : Int} {n : Nat}

theorem executeIns_ret_iff : executeIns ins e = .ok (.ret r s) ↔
    (ins.opcode = Opcode.stop.code ∧ r = 0 ∨ ins.opcode = Opcode.fail.code ∧ r = ins.imm16.toNat) ∧
      s = e := by
  have next {x : Except Fault EmulatorContext} : Flow.next <$> x ≠ .ok (.ret r s) := by
    cases x <;> simp
  constructor
  · intro h
    unfold executeIns at h
    cases hop : Opcode.ofByte ins.opcode with
    | none =>
      rw [hop] at h
      cases h
    | some o =>
      have hcode := Opcode.code_of_ofByte hop
      rw [hop] at h
      cases o with
      | fail =>
        cases h
        exact ⟨.inr ⟨hcode.symm, rfl⟩, rfl⟩
      | stop =>
        cases h
        exact ⟨.inl ⟨hcode.symm, rfl⟩, rfl⟩
      | cmpxchg | in_ | loadid | loadma | loadrd | out | storeid | storema | storerd =>
        exact absurd h next
      | _ => cases h
  · rintro ⟨⟨hop, rfl⟩ | ⟨hop, rfl⟩, rfl⟩
    · rw [executeIns, hop, Opcode.ofByte_code]
    · rw [executeIns, hop, Opcode.ofByte_code]

/-- A round ends the loop if it executes a `STOP` or a `FAIL`. -/
theorem round_ret_iff : cpuIteration e = .ok (.ret r s) ↔
    (NextOp .stop e ∧ r = 0 ∨ NextOp .fail e ∧ r = (insAt e.memory e.pos).imm16.toNat) ∧
      s = e.fetched := by
  constructor
  · intro h
    have hin := inBlock_of_cpuIteration h
    rw [cpuIteration_ok hin, dispatchIns, EmulatorContext.fetched_regs] at h
    split at h
    · next hc =>
      obtain ⟨⟨hop, hr⟩ | ⟨hop, hr⟩, hs⟩ := executeIns_ret_iff.1 h
      · exact ⟨.inl ⟨⟨hin, hop, hc⟩, hr⟩, hs⟩
      · exact ⟨.inr ⟨⟨hin, hop, hc⟩, hr⟩, hs⟩
    · cases h
  · rintro ⟨⟨hnext, hr⟩ | ⟨hnext, hr⟩, hs⟩
    · rw [hnext.round, executeIns_ret_iff]
      exact ⟨.inl ⟨hnext.opcode, hr⟩, hs⟩
    · rw [hnext.round, executeIns_ret_iff]
      exact ⟨.inr ⟨hnext.opcode, hr⟩, hs⟩

/-! ## Runs -/

theorem cpuExecute_error {fault : Fault} : cpuExecute n e false = .error fault ↔
    iterate cpuIteration n e = .error fault := by
  rw [cpuExecute_run]
  cases iterate cpuIteration n e with
  | error i => simp
  | ok f => cases f <;> simp

/-- **A run returns** from the first `STOP` or `FAIL` that it executes. -/
theorem returns_iff : (∃ n, cpuExecute n e false = .ok (some (r, s))) ↔
    ∃ n s0, iterate cpuIteration n e = .ok (.next s0) ∧
      (NextOp .stop s0 ∧ r = 0 ∨ NextOp .fail s0 ∧ r = (insAt s0.memory s0.pos).imm16.toNat) ∧
      s = s0.fetched := by
  simp only [cpuExecute_some]
  constructor
  · rintro ⟨n, h⟩
    obtain ⟨k, -, s0, hs0, hret⟩ := exists_of_iterate_ret h
    exact ⟨k, s0, hs0, round_ret_iff.1 hret⟩
  · rintro ⟨n, s0, hs0, hret⟩
    exact ⟨n + 1, by rw [iterate_succ hs0]; exact round_ret_iff.2 hret⟩

end

/-! ## The process -/

/-- What the system keeps of the value `main` returns. -/
def exitStatus (r : Int) : Byte := BitVec.ofInt 8 r

/-- `main`, with the contents of the file at `argv[1]`; `none` if it has not returned within `fuel`
rounds. -/
def main (fuel : Nat) (filedata : List Byte) (regs cregs : Fin 16 → Dword) :
    Except Fault (Option Byte) := do
  let ectx ← emuLoadImg filedata (emuInit regs cregs)
  match ← cpuExecute fuel ectx false with
  | none => return none
  | some (r, _) => return some (exitStatus r)

/-- The immediate's low byte is the third byte of the instruction. -/
theorem exitStatus_imm16 (m : Dword → Byte) (a : Dword) :
    exitStatus ((insAt m a).imm16.toNat : Int) = m (a + 2) := by
  have hlow : exitStatus ((insAt m a).imm16.toNat : Int) = (insAt m a).imm16.setWidth 8 := by
    rw [exitStatus, BitVec.ofInt_natCast, BitVec.ofNat_toNat]
  rw [hlow]
  show (wordFromBytes (m (a + 3)) (m (a + 2))).setWidth 8 = _
  apply BitVec.eq_of_getLsbD_eq
  intro i hi
  simp [wordFromBytes, hi]

section
variable {filedata : List Byte} {regs cregs : Fin 16 → Dword} {e0 : EmulatorContext}

theorem main_loaded (hload : emuLoadImg filedata (emuInit regs cregs) = .ok e0) (fuel : Nat)
    (code : Byte) : main fuel filedata regs cregs = .ok (some code) ↔
      ∃ r s, cpuExecute fuel e0 false = .ok (some (r, s)) ∧ exitStatus r = code := by
  rw [main, hload, ok_bind]
  rcases cpuExecute fuel e0 false with fault | ⟨_ | ⟨r, s⟩⟩ <;> simp

/-- **The exit status** is 0 of a run that gets to a `STOP` it executes, and the low byte of the
immediate of a run that gets to a `FAIL` it executes; no other run exits. -/
theorem main_exits_iff (hload : emuLoadImg filedata (emuInit regs cregs) = .ok e0) (code : Byte) :
    (∃ fuel, main fuel filedata regs cregs = .ok (some code)) ↔
      ∃ n s, iterate cpuIteration n e0 = .ok (.next s) ∧
        (NextOp .stop s ∧ code = 0 ∨ NextOp .fail s ∧ code = s.memory (s.pos + 2)) := by
  simp only [main_loaded hload]
  constructor
  · rintro ⟨fuel, r, s, hrun, rfl⟩
    obtain ⟨n, s0, hs0, ⟨hnext, rfl⟩ | ⟨hnext, rfl⟩, -⟩ := returns_iff.1 ⟨fuel, hrun⟩
    · exact ⟨n, s0, hs0, .inl ⟨hnext, rfl⟩⟩
    · exact ⟨n, s0, hs0, .inr ⟨hnext, exitStatus_imm16 ..⟩⟩
  · rintro ⟨n, s0, hs0, ⟨hnext, rfl⟩ | ⟨hnext, rfl⟩⟩
    · obtain ⟨fuel, hrun⟩ := returns_iff.2 ⟨n, s0, hs0, .inl ⟨hnext, rfl⟩, rfl⟩
      exact ⟨fuel, 0, s0.fetched, hrun, rfl⟩
    · obtain ⟨fuel, hrun⟩ := returns_iff.2 ⟨n, s0, hs0, .inr ⟨hnext, rfl⟩, rfl⟩
      exact ⟨fuel, _, s0.fetched, hrun, exitStatus_imm16 ..⟩

/-- `FAIL 0x0100` exits like `STOP`. -/
theorem main_exits_fail :
    ∃ fuel, main fuel [0xC1, 0x00, 0x00, 0x01] (fun _ => 0) (fun _ => 0) = .ok (some 0) :=
  (main_exits_iff rfl 0).2 ⟨0, _, rfl, .inr ⟨⟨by decide, by decide, by decide⟩, by decide⟩⟩

end

end Cpu
