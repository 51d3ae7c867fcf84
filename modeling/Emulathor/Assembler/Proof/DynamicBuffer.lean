import Emulathor.Assembler.Proof.Emit

/-!
# The dynamic buffer

`handle_exceeding_buffer` reallocates to the block behind `highest_pos` and clears a whole block from
`pos` on, so it keeps the buffer, its size and the position in step (`InStep`) only if growth starts
at a block boundary. `dynamicSafe_iff`: a sequence of calls stays inside the allocated bytes exactly
when no call straddles a boundary and none starts in the last block below 2^32, past its first byte
(`Aligned`).
-/

namespace Assembler

open Common Lib

/-- The end of the blocks that hold the first `p` bytes. -/
def blockEnd (p : Nat) : Nat := dynamicBufferSize * max 1 ((p + 511) / dynamicBufferSize)

/-- The context after `p` bytes emitted or reserved without a fault. -/
structure InStep (p : Nat) (ctx : EmitContext) : Prop where
  dynamic : ctx.bufLenFixed = false
  pos : ctx.pos.toNat = p
  highest : ctx.highestPos = ctx.pos
  allocated : ctx.allocated = blockEnd p
  size : ctx.size = BitVec.ofNat 32 (blockEnd p)

/-- A call of width `w` at position `p` that keeps the buffer in step. -/
def Aligned (p w : Nat) : Prop :=
  p / dynamicBufferSize = (p + w - 1) / dynamicBufferSize ∧ p + dynamicBufferSize ≤ 2 ^ 32

instance (p w : Nat) : Decidable (Aligned p w) := inferInstanceAs (Decidable (_ ∧ _))

/-- The same for every call of a sequence, the first at `p`. -/
def AllAligned : Nat → List EmitCall → Prop
  | _, [] => True
  | p, c :: cs => Aligned p c.width ∧ AllAligned (p + c.width) cs

instance : ∀ (p : Nat) (calls : List EmitCall), Decidable (AllAligned p calls)
  | _, [] => isTrue trivial
  | p, c :: cs =>
    have : Decidable (AllAligned (p + c.width) cs) := instDecidableAllAligned (p + c.width) cs
    inferInstanceAs (Decidable (_ ∧ _))

/-- The calls so far have not faulted, and the size is not above the bytes allocated. -/
def BufferSafe (calls : List EmitCall) (ctx : EmitContext) : Prop :=
  ∀ pre, pre <+: calls → ∃ ctx', run EmitCall.exec pre ctx = .ok ctx' ∧
    ctx'.size.toNat ≤ ctx'.allocated

theorem inStep_create (heap : Nat → Byte) :
    InStep 0 (emitCreateContext (BitVec.ofNat 32 dynamicBufferSize) false heap) :=
  ⟨rfl, rfl, rfl, rfl, rfl⟩

section
variable {p w : Nat} {ctx : EmitContext}

theorem InStep.size_toNat (h : InStep p ctx) : ctx.size.toNat = blockEnd p % 2 ^ 32 := by
  rw [h.size, BitVec.toNat_ofNat]

theorem InStep.size_le (h : InStep p ctx) : ctx.size.toNat ≤ ctx.allocated := by
  rw [h.size_toNat, h.allocated]
  exact Nat.mod_le ..

theorem InStep.lt (h : InStep p ctx) : p < 2 ^ 32 := h.pos ▸ ctx.pos.isLt

/-! ## Room for a call -/

/-- The context behind `handle_exceeding_buffer`: big enough for the request, not yet advanced. -/
structure HasRoom (p w : Nat) (ctx : EmitContext) : Prop where
  dynamic : ctx.bufLenFixed = false
  pos : ctx.pos.toNat = p
  highest : ctx.highestPos = ctx.pos
  allocated : ctx.allocated = blockEnd (p + w)
  size : ctx.size = BitVec.ofNat 32 (blockEnd (p + w))

/-- An aligned request gets room. -/
theorem InStep.room (h : InStep p ctx) (hw : 0 < w) (hw8 : w ≤ 8) (ha : Aligned p w) :
    ∃ ctx', handleExceedingBuffer (BitVec.ofNat 32 w) ctx = .ok ctx' ∧ HasRoom p w ctx' := by
  obtain ⟨hblock, htop⟩ := ha
  have hsize := h.size_toNat
  have hno : ctx.pos.toNat + w ≤ 2 ^ 32 := by
    rw [h.pos]
    simp only [dynamicBufferSize] at htop
    omega
  have hguard : ctx.pos + BitVec.ofNat 32 w - 1 ≥ ctx.size ↔ ctx.size.toNat < ctx.pos.toNat + w :=
    guard_iff hw hno
  unfold blockEnd dynamicBufferSize at *
  by_cases hin : p % 512 = 0 ∧ p ≠ 0
  · -- at a boundary: a new block
    have hend : 512 * max 1 ((p + 511) / 512) = p := by omega
    have hend' : 512 * max 1 ((p + w + 511) / 512) = p + 512 := by omega
    rw [hend, Nat.mod_eq_of_lt (by omega)] at hsize
    have hexceeds : ctx.pos + BitVec.ofNat 32 w - 1 ≥ ctx.size := hguard.2 (by rw [h.pos]; omega)
    have hgrown : ctx.grown.allocated = p + 512 := by
      rw [grown_allocated, dynamicBufferSize, h.highest, h.pos]
      omega
    have hmemset : ctx.pos.toNat + dynamicBufferSize ≤ ctx.grown.allocated := by
      rw [hgrown, h.pos]
      exact Nat.le_refl _
    refine ⟨ctx.grown, handleExceedingBuffer_grow hexceeds h.dynamic hmemset, h.dynamic, h.pos,
      h.highest, ?_, ?_⟩
    · rw [hgrown, blockEnd, dynamicBufferSize, hend']
    · rw [grown_size, h.size, blockEnd, blockEnd, dynamicBufferSize, hend, hend', BitVec.ofNat_add]
  · -- inside a block: room already
    have hend : 512 * max 1 ((p + w + 511) / 512) = 512 * max 1 ((p + 511) / 512) := by omega
    have hroom : ¬ ctx.pos + BitVec.ofNat 32 w - 1 ≥ ctx.size := by
      rw [hguard, hsize, h.pos, Nat.mod_eq_of_lt (by omega)]
      omega
    refine ⟨ctx, handleExceedingBuffer_room hroom, h.dynamic, h.pos, h.highest, ?_, ?_⟩
    · rw [h.allocated, blockEnd, blockEnd, dynamicBufferSize, hend]
    · rw [h.size, blockEnd, blockEnd, dynamicBufferSize, hend]

/-- A request that is not aligned clears bytes behind the block. -/
theorem InStep.noRoom (h : InStep p ctx) (hw : 0 < w) (hw8 : w ≤ 8) (ha : ¬ Aligned p w) :
    ∃ i, ctx.allocated ≤ i ∧
      ∀ refs, handleExceedingBuffer (BitVec.ofNat 32 w) { ctx with labelrefs := refs }
        = .error (.fault i) := by
  have hsize := h.size_toNat
  have hp := h.lt
  have hguard : ctx.pos.toNat + w ≤ 2 ^ 32 →
      (ctx.pos + BitVec.ofNat 32 w - 1 ≥ ctx.size ↔ ctx.size.toNat < ctx.pos.toNat + w) :=
    guard_iff hw
  unfold Aligned blockEnd dynamicBufferSize at *
  have hhigh : ctx.highestPos.toNat = p := by rw [h.highest, h.pos]
  have hexceeds : ctx.pos + BitVec.ofNat 32 w - 1 ≥ ctx.size := by
    by_cases hlast : p + 512 ≤ 2 ^ 32
    · rw [hguard (by rw [h.pos]; omega), hsize, h.pos, Nat.mod_eq_of_lt (by omega)]
      omega
    · -- the size has wrapped around to zero
      rw [ge_iff_le, BitVec.le_def, hsize]
      omega
  have hgrown : ctx.grown.allocated = (p / 512 + 1) * 512 := by
    rw [grown_allocated, dynamicBufferSize, hhigh]
  have hmemset : ¬ ctx.pos.toNat + dynamicBufferSize ≤ ctx.grown.allocated := by
    rw [hgrown, h.pos, dynamicBufferSize]
    omega
  have hall : ctx.allocated ≤ max ctx.pos.toNat ctx.grown.allocated := by
    rw [h.allocated, hgrown, h.pos, blockEnd, dynamicBufferSize]
    omega
  exact ⟨_, hall, fun refs => handleExceedingBuffer_fault hexceeds h.dynamic hmemset⟩

/-- The position advanced over the room there is. -/
theorem HasRoom.advance (h : HasRoom p w ctx) (hw : p + w < 2 ^ 32) : InStep (p + w) (ctx.advance w) := by
  have hpos : (ctx.pos + BitVec.ofNat 32 w).toNat = p + w := by
    rw [toNat_add_ofNat (by rw [h.pos]; exact hw), h.pos]
  refine ⟨by simp [h.dynamic], by rw [advance_pos, hpos], ?_, by simp [h.allocated],
    by simp [h.size]⟩
  apply BitVec.eq_of_toNat_eq
  rw [advance_highestPos, advance_pos, hpos, h.highest, h.pos]
  omega

/-! ## Calls -/

theorem InStep.exec_ok {c : EmitCall} (h : InStep p ctx) (ha : Aligned p c.width) :
    ∃ ctx', c.exec ctx = .ok ctx' ∧ InStep (p + c.width) ctx' := by
  have htop : p + c.width < 2 ^ 32 := by
    have := c.width_le
    have := ha.2
    simp only [dynamicBufferSize] at this
    omega
  rcases c.bytes_ne_nil_or with hb | ⟨name, reg, cond, rfl⟩
  · obtain ⟨ctx', hroom, hr⟩ := h.room c.width_pos c.width_le ha
    rw [EmitCall.width_eq hb] at *
    have hfit : ctx'.pos.toNat + c.bytes.length ≤ ctx'.allocated := by
      rw [hr.pos, hr.allocated, blockEnd, dynamicBufferSize]
      omega
    have hall : ctx'.allocated ≤ 2 ^ 32 := by
      rw [hr.allocated, blockEnd, dynamicBufferSize]
      omega
    refine ⟨_, by rw [EmitCall.exec_eq hb]; exact emitBytes_ok hroom hfit hall, ?_⟩
    exact HasRoom.advance ⟨hr.dynamic, hr.pos, hr.highest, hr.allocated, hr.size⟩ htop
  · have h' : InStep p (ctx.referring name reg cond) :=
      ⟨h.dynamic, h.pos, h.highest, h.allocated, h.size⟩
    obtain ⟨ctx', hroom, hr⟩ := h'.room (w := 8) (by omega) (by omega) ha
    exact ⟨ctx'.advance 8, by rw [EmitCall.exec, emitLabelRef_eq, hroom]; rfl, hr.advance htop⟩

theorem InStep.exec_fault {c : EmitCall} (h : InStep p ctx) (ha : ¬ Aligned p c.width) :
    ∃ i, ctx.allocated ≤ i ∧ c.exec ctx = .error (.fault i) := by
  obtain ⟨i, hi, hr⟩ := h.noRoom c.width_pos c.width_le ha
  exact ⟨i, hi, exec_error hr⟩

/-- A run from a context in step stays inside the buffer exactly when its calls are aligned. -/
theorem InStep.bufferSafe_iff : ∀ {calls : List EmitCall} {p : Nat} {ctx : EmitContext},
    InStep p ctx → (BufferSafe calls ctx ↔ AllAligned p calls)
  | [], p, ctx, h => by
    refine ⟨fun _ => trivial, fun _ pre hpre => ?_⟩
    rw [List.prefix_nil.1 hpre]
    exact ⟨ctx, rfl, h.size_le⟩
  | c :: cs, p, ctx, h => by
    by_cases ha : Aligned p c.width
    · obtain ⟨ctx', hexec, h'⟩ := h.exec_ok ha
      have ih : BufferSafe cs ctx' ↔ AllAligned (p + c.width) cs := bufferSafe_iff h'
      constructor
      · intro hsafe
        refine ⟨ha, ih.1 fun pre hpre => ?_⟩
        have := hsafe (c :: pre) (List.prefix_cons_inj c |>.2 hpre)
        rwa [run_cons hexec] at this
      · rintro ⟨-, hrest⟩ pre hpre
        cases pre with
        | nil => exact ⟨ctx, rfl, h.size_le⟩
        | cons d pre =>
          obtain ⟨rfl, hrest'⟩ := List.cons_prefix_cons.1 hpre
          rw [run_cons hexec]
          exact ih.2 hrest pre hrest'
    · constructor
      · intro hsafe
        obtain ⟨i, -, hi⟩ := h.exec_fault ha
        obtain ⟨ctx', hrun, -⟩ := hsafe [c] (List.prefix_cons_inj c |>.2 List.nil_prefix)
        rw [run_singleton, hi] at hrun
        cases hrun
      · rintro ⟨ha', -⟩
        exact absurd ha' ha

end

/-- **The dynamic buffer** is big enough for the calls, and never smaller than `size`, exactly when
every call is aligned. -/
theorem dynamicSafe_iff (heap : Nat → Byte) (calls : List EmitCall) :
    BufferSafe calls (emitCreateContext (BitVec.ofNat 32 dynamicBufferSize) false heap)
      ↔ AllAligned 0 calls :=
  (inStep_create heap).bufferSafe_iff

/-- `.byte 0` and 128 times `STOP`: the last instruction straddles the first boundary. -/
def straddling : List EmitCall :=
  .byte 0 :: List.replicate 128 (.fmtI pfxDword Cond.always.code Opcode.stop.code)

theorem not_bufferSafe_straddling :
    ¬ ∀ (heap : Nat → Byte) (calls : List EmitCall),
      BufferSafe calls (emitCreateContext (BitVec.ofNat 32 dynamicBufferSize) false heap) := by
  intro h
  have haligned := (inStep_create fun _ => 0).bufferSafe_iff.1 (h _ straddling)
  exact absurd haligned (by decide +kernel)

end Assembler
