import Emulathor.Cpu.Emulator
import Emulathor.Cpu.Proof.Fetch
import Emulathor.Cpu.Proof.Loops

/-!
# When a run keeps inside memory

The instructions guard their addresses against 2^32 but not against `memory_size`, and no `mem_*`
function looks at it. So a run of a loaded image stays inside memory exactly when every round it
gets to fetches and accesses inside memory (`emuLoadImg_memorySafe_iff`). The condition on a round,
`InRange`, is about the state before it: the position, the fetched instruction, and the registers
and prefix its address and width come from.
-/

namespace Cpu

open Common Lib

/-! ## The bytes an instruction accesses -/

namespace EmulatorContext

variable (e : EmulatorContext)

/-- The bytes a load or store with this prefix moves lie inside memory. -/
def MoveInBlock (pfx : Byte) (addr : Dword) : Prop :=
  if pfx = pfxDword then e.InBlock addr 4
  else if pfx = pfxWord then e.InBlock addr 2
  else if pfx = pfxByte then e.InBlock addr 1
  else True

instance (pfx : Byte) (addr : Dword) : Decidable (e.MoveInBlock pfx addr) := by
  unfold MoveInBlock; infer_instance

/-- A load or store at `base + imm12`, not made at all when that exceeds 2^32 - 1. -/
def ImmAccess (base : Dword) (ins : InstructionContext) : Prop :=
  base.toNat + ins.imm12.toNat ≤ dwordMax → e.MoveInBlock ins.pfx (base + ins.imm12.setWidth 32)

instance (base : Dword) (ins : InstructionContext) : Decidable (e.ImmAccess base ins) := by
  unfold ImmAccess; infer_instance

/-- A load or store at `base + regs[opb]`, `regs[opb]` signed; not made at all when that is negative
or exceeds 2^32 - 1. -/
def RegAccess (base : Dword) (ins : InstructionContext) : Prop :=
  ¬ ((base.toNat : Int) + (e.regs ins.opb).toInt > dwordMax ∨
      (base.toNat : Int) + (e.regs ins.opb).toInt < 0) →
    e.MoveInBlock ins.pfx (base + e.regs ins.opb)

instance (base : Dword) (ins : InstructionContext) : Decidable (e.RegAccess base ins) := by
  unfold RegAccess; infer_instance

/-- What the instruction reads and writes lies inside memory. -/
def AccessInRange (ins : InstructionContext) : Prop :=
  match Opcode.ofByte ins.opcode with
  | some .loadid => e.ImmAccess (e.regs ins.opa) ins
  | some .storeid => e.ImmAccess (e.regs ins.dst) ins
  | some .loadrd => e.RegAccess (e.regs ins.opa) ins
  | some .storerd => e.RegAccess (e.regs ins.dst) ins
  | some .loadma =>
    e.PopBlock (e.regs ins.dst) ((regendOf ins).val + 1 - (regstartOf ins).val)
  | some .storema =>
    e.PushBlock (e.regs ins.dst) ((regendOf ins).val + 1 - (regstartOf ins).val)
  | some .cmpxchg => ins.pfx = pfxDword → e.InBlock (e.regs ins.dst) 4
  | _ => True

instance (ins : InstructionContext) : Decidable (e.AccessInRange ins) := by
  unfold AccessInRange; split <;> infer_instance

/-- The next round fetches inside memory, and so accesses the instruction it executes, if its
condition passes. -/
def InRange : Prop :=
  e.InBlock e.pos 4 ∧
    (condPasses (insAt e.memory e.pos).condition (e.regs cpuRegFlgs) →
      e.AccessInRange (insAt e.memory e.pos))

instance : Decidable e.InRange := by unfold InRange; infer_instance

end EmulatorContext

/-! ## Accesses fault exactly outside memory -/

/-- `x` makes no access outside memory if `p`, and faults outside the `size` bytes if not. -/
def FaultsUnless {α : Type} (p : Prop) (size : Dword) (x : Except Fault α) : Prop :=
  (p → ∀ i, x ≠ .error (.memory i)) ∧ (¬ p → OutOfBlock size x)

section
variable {α β : Type} {p q : Prop} {size : Dword} {x : Except Fault α}

theorem FaultsUnless.map (h : FaultsUnless p size x) (f : α → β) : FaultsUnless p size (f <$> x) :=
  ⟨fun hp i hi => h.1 hp i (map_eq_error.1 hi), fun hp => (h.2 hp).map f⟩

theorem FaultsUnless.of_ok {a : α} (hp : p) : FaultsUnless p size (.ok a : Except Fault α) :=
  ⟨fun _ _ h => (by cases h), fun hn => absurd hp hn⟩

/-- An access made under a guard. -/
theorem FaultsUnless.guard {c : Prop} [Decidable c] {a : α} (h : FaultsUnless p size x) :
    FaultsUnless (¬ c → p) size (if c then .ok a else x) := by
  by_cases hc : c
  · rw [if_pos hc]
    exact .of_ok fun hn => absurd hc hn
  · rw [if_neg hc]
    exact ⟨fun hp => h.1 (hp hc), fun hn => h.2 fun hp => hn fun _ => hp⟩

theorem FaultsUnless.error_iff (h : FaultsUnless p size x) :
    (∀ i, x ≠ .error (.memory i)) ↔ p := by
  refine ⟨fun hx => ?_, h.1⟩
  by_contra hp
  obtain ⟨i, -, hi⟩ := h.2 hp
  exact hx i hi

theorem FaultsUnless.congr (h : FaultsUnless p size x) (hpq : p ↔ q) : FaultsUnless q size x :=
  ⟨fun hq => h.1 (hpq.2 hq), fun hq => h.2 fun hp => hq (hpq.1 hp)⟩

end

variable {ins : InstructionContext} {e : EmulatorContext} {addr : Dword}

theorem loadAt_faults : FaultsUnless (e.MoveInBlock ins.pfx addr) e.memorySize (loadAt ins e addr) := by
  unfold EmulatorContext.MoveInBlock loadAt
  by_cases hd : ins.pfx = pfxDword
  · simp only [if_pos hd]
    exact ⟨fun h i => by rw [memGetDwordP_ok h]; simp, fun h => (memGetDwordP_out h).bind _⟩
  by_cases hw : ins.pfx = pfxWord
  · simp only [if_neg hd, if_pos hw]
    exact ⟨fun h i => by rw [memGetWordP_ok h]; simp, fun h => (memGetWordP_out h).bind _⟩
  by_cases hb : ins.pfx = pfxByte
  · simp only [if_neg hd, if_neg hw, if_pos hb]
    exact ⟨fun h i => by rw [memGetByteP_ok h]; simp, fun h => (memGetByteP_out h).bind _⟩
  · simp only [if_neg hd, if_neg hw, if_neg hb]
    exact .of_ok trivial

theorem storeAt_faults :
    FaultsUnless (e.MoveInBlock ins.pfx addr) e.memorySize (storeAt ins e addr) := by
  unfold EmulatorContext.MoveInBlock storeAt
  by_cases hd : ins.pfx = pfxDword
  · simp only [if_pos hd]
    exact ⟨fun h i => by rw [memWriteDwordP_ok h]; simp, fun h => (memWriteDwordP_out h).bind _⟩
  by_cases hw : ins.pfx = pfxWord
  · have hb : ¬ ins.pfx = pfxByte := by rw [hw]; decide
    simp only [if_neg hd, if_neg hb, if_pos hw]
    exact ⟨fun h i => by rw [memWriteWordP_ok h]; simp, fun h => (memWriteWordP_out h).bind _⟩
  by_cases hb : ins.pfx = pfxByte
  · simp only [if_neg hd, if_neg hw, if_pos hb]
    exact ⟨fun h i => by rw [memWriteByteP_ok h]; simp, fun h => (memWriteByteP_out h).bind _⟩
  · simp only [if_neg hd, if_neg hw, if_neg hb]
    exact .of_ok trivial

theorem insLoadid_faults :
    FaultsUnless (e.ImmAccess (e.regs ins.opa) ins) e.memorySize (insLoadid ins e) :=
  loadAt_faults.guard.congr (by simp only [gt_iff_lt, Nat.not_lt]; rfl)

theorem insStoreid_faults :
    FaultsUnless (e.ImmAccess (e.regs ins.dst) ins) e.memorySize (insStoreid ins e) :=
  storeAt_faults.guard.congr (by simp only [gt_iff_lt, Nat.not_lt]; rfl)

theorem insLoadrd_faults :
    FaultsUnless (e.RegAccess (e.regs ins.opa) ins) e.memorySize (insLoadrd ins e) :=
  loadAt_faults.guard

theorem insStorerd_faults :
    FaultsUnless (e.RegAccess (e.regs ins.dst) ins) e.memorySize (insStorerd ins e) :=
  storeAt_faults.guard

theorem insLoadma_faults :
    FaultsUnless (e.PopBlock (e.regs ins.dst) ((regendOf ins).val + 1 - (regstartOf ins).val))
      e.memorySize (insLoadma ins e) := by
  refine ⟨fun h i => ?_, fun h => insLoadma_out h⟩
  rw [insLoadma_ok h]
  exact nofun

theorem insStorema_faults :
    FaultsUnless (e.PushBlock (e.regs ins.dst) ((regendOf ins).val + 1 - (regstartOf ins).val))
      e.memorySize (insStorema ins e) := by
  refine ⟨fun h i => ?_, fun h => insStorema_out h⟩
  rw [insStorema_ok h]
  exact nofun

theorem insCmpxchg_faults :
    FaultsUnless (ins.pfx = pfxDword → e.InBlock (e.regs ins.dst) 4) e.memorySize
      (insCmpxchg ins e) := by
  unfold insCmpxchg
  by_cases hd : ins.pfx = pfxDword
  · simp only [hd, ↓reduceIte, forall_const]
    refine ⟨fun h i => ?_, fun h => (memGetDwordP_out h).bind _⟩
    rw [memGetDwordP_ok h, ok_bind]
    simp only
    split
    · rw [memWriteDwordP_ok h]; simp
    · simp
  · simp only [hd, ↓reduceIte]
    exact .of_ok nofun

/-! ## Ports are not memory -/

theorem portAt_memory (no : Byte) (i : Dword) : portAt no e ≠ .error (.memory i) := by
  unfold portAt
  split <;> simp

theorem insIn_memory (i : Dword) : insIn ins e ≠ .error (.memory i) := by
  intro h
  rcases bind_eq_error.1 h with h | ⟨⟨d, e'⟩, -, h⟩
  · rcases bind_eq_error.1 h with h | ⟨p, -, h⟩
    · exact portAt_memory _ i h
    · cases p <;> cases h
  · cases h

theorem insOut_memory (i : Dword) : insOut ins e ≠ .error (.memory i) := by
  intro h
  rcases bind_eq_error.1 h with h | ⟨p, -, h⟩
  · exact portAt_memory _ i h
  · cases p <;> cases h

/-! ## Rounds -/

theorem executeIns_faults : FaultsUnless (e.AccessInRange ins) e.memorySize (executeIns ins e) := by
  unfold EmulatorContext.AccessInRange executeIns
  cases Opcode.ofByte ins.opcode with
  | none => exact .of_ok trivial
  | some o =>
    cases o with
    | loadid => exact insLoadid_faults.map _
    | storeid => exact insStoreid_faults.map _
    | loadrd => exact insLoadrd_faults.map _
    | storerd => exact insStorerd_faults.map _
    | loadma => exact insLoadma_faults.map _
    | storema => exact insStorema_faults.map _
    | cmpxchg => exact insCmpxchg_faults.map _
    | in_ => exact ⟨fun _ i h => insIn_memory i (map_eq_error.1 h), fun h => absurd trivial h⟩
    | out => exact ⟨fun _ i h => insOut_memory i (map_eq_error.1 h), fun h => absurd trivial h⟩
    | _ => exact .of_ok trivial

/-- Fetching does not change what the instruction accesses. -/
theorem fetched_accessInRange : e.fetched.AccessInRange ins ↔ e.AccessInRange ins := Iff.rfl

theorem cpuIteration_faults : FaultsUnless e.InRange e.memorySize (cpuIteration e) := by
  unfold EmulatorContext.InRange
  by_cases hpos : e.InBlock e.pos 4
  · rw [cpuIteration_ok hpos]
    by_cases hc : condPasses (insAt e.memory e.pos).condition (e.regs cpuRegFlgs)
    · simp only [dispatchIns, EmulatorContext.fetched_regs, hc, ↓reduceIte, forall_const, hpos,
        true_and]
      exact executeIns_faults.congr fetched_accessInRange
    · simp only [dispatchIns, EmulatorContext.fetched_regs, hc]
      exact .of_ok ⟨hpos, fun h => absurd h Bool.false_ne_true⟩
  · exact ⟨fun h => absurd h.1 hpos, fun _ => cpuIteration_out hpos⟩

/-! ## Runs -/

/-- **Memory safety** of `n` rounds from `e`: no round accesses memory at or above `memory_size`,
and a round in which an access would do so leaves memory and the registers as they were. -/
def MemorySafe (n : Nat) (e : EmulatorContext) : Prop :=
  (∀ i, iterate cpuIteration n e ≠ .error (.memory i)) ∧
  ∀ k < n, ∀ s, iterate cpuIteration k e = .ok (.next s) → ¬ s.InRange →
    ∃ s', cpuIteration s = .ok (.next s') ∧ s'.memory = s.memory ∧ s'.regs = s.regs ∧
      s'.cregs = s.cregs

theorem memorySafe_iff {n : Nat} :
    MemorySafe n e ↔ ∀ k < n, ∀ s, iterate cpuIteration k e = .ok (.next s) → s.InRange := by
  constructor
  · rintro ⟨hsafe, -⟩ k hk s hs
    refine cpuIteration_faults.error_iff.1 fun i hi => hsafe i ?_
    exact iterate_error_iff.2 ⟨k, hk, s, hs, hi⟩
  · intro h
    refine ⟨fun i hi => ?_, fun k hk s hs hout => absurd (h k hk s hs) hout⟩
    obtain ⟨k, hk, s, hs, he⟩ := iterate_error_iff.1 hi
    exact cpuIteration_faults.error_iff.2 (h k hk s hs) i he

/-- **Guest memory safety.** For every image that fits in memory and every content of the registers:
the first `n` rounds are safe exactly when each round reached fetches and accesses in range. -/
theorem emuLoadImg_memorySafe_iff {img : List Byte} {ectx e0 : EmulatorContext} (n : Nat)
    (_ : emuLoadImg img ectx = .ok e0) :
    MemorySafe n e0 ↔ ∀ k < n, ∀ s, iterate cpuIteration k e0 = .ok (.next s) → s.InRange :=
  memorySafe_iff

/-- `LOADI R1L, 0x100`, `STOREID R1, R0, 4`, `LOADID R2LH, R1, 4`. -/
def storeLoad : List Byte :=
  [0x46, 0x02, 0x00, 0x01, 0x28, 0x01, 0x00, 0x04, 0xA6, 0x09, 0x10, 0x04]

/-- `LOADI R1L, 0`, `LOADI R1H, 0x40`, `LOADID R0, R1, 0`: a load at `memory_size`. -/
def loadidPastEnd : List Byte :=
  [0x46, 0x02, 0x00, 0x00, 0x46, 0x03, 0x40, 0x00, 0x26, 0x00, 0x10, 0x00]

set_option maxRecDepth 20000 in
/-- The first program is safe; the second is not, for a round of it is out of range. -/
theorem emuLoadImg_memorySafe_iff_moves :
    (∃ e0, emuLoadImg storeLoad (emuInit (fun _ => 0) fun _ => 0) = .ok e0 ∧ MemorySafe 3 e0) ∧
    ∃ e0, emuLoadImg loadidPastEnd (emuInit (fun _ => 0) fun _ => 0) = .ok e0 ∧
      ∃ k < 3, ∃ s, iterate cpuIteration k e0 = .ok (.next s) ∧ ¬ s.InRange := by
  constructor
  · obtain ⟨e0, hload, hrounds⟩ : ∃ e0,
        emuLoadImg storeLoad (emuInit (fun _ => 0) fun _ => 0) = .ok e0 ∧
        ∀ k < 3, (iterate cpuIteration k e0).toOption.all (decide ·.state.InRange) = true :=
      ⟨_, rfl, by decide +kernel⟩
    refine ⟨e0, hload, (emuLoadImg_memorySafe_iff 3 hload).2 fun k hk s hs => ?_⟩
    have hround := hrounds k hk
    rw [hs] at hround
    exact of_decide_eq_true hround
  · refine ⟨_, rfl, ?_⟩
    have hiff := @emuLoadImg_memorySafe_iff loadidPastEnd (emuInit (fun _ => 0) fun _ => 0) _ 3 rfl
    by_contra hnone
    push Not at hnone
    exact (hiff.2 hnone).1 0x400000#32 rfl

set_option maxRecDepth 20000 in
theorem not_memorySafe_loadid :
    ¬ ∀ (img : List Byte) (ectx e0 : EmulatorContext) (n : Nat),
      emuLoadImg img ectx = .ok e0 → MemorySafe n e0 := by
  intro h
  obtain ⟨hsafe, -⟩ := h loadidPastEnd (emuInit (fun _ => 0) fun _ => 0) _ 3 rfl
  exact hsafe 0x400000#32 rfl

end Cpu
