import Emulathor.Assembler.Grammar
import Emulathor.Assembler.Proof.DynamicBuffer

/-!
# Alignment

`.align n fill` divides by its first operand unchecked. `align_iff`: it fills up to the next multiple
of `n` exactly when `n` is not zero. Where the padding has room, the loop is that many `emit_byte`s
(`alignLoop_run`).
-/

namespace Assembler

open Common Lib

/-- Buffer space for `k` bytes `b`: `emit_byte` returns that many times. -/
def SpaceFor (k : Nat) (b : Byte) (ctx : EmitContext) : Prop :=
  ∃ ctx', run EmitCall.exec (List.replicate k (.byte b)) ctx = .ok ctx'

/-- `.align n fill` does not divide by zero and, buffer space permitting, moves the position to the
next multiple of `n`, the low byte of `fill` in between and everything before as it was. -/
def Pads (n fill : Word) (ctx : EmitContext) : Prop :=
  ∃ acts, exp [.directiveAlign, .int n, .space, .int fill] = some acts ∧
    run Statement.exec acts ctx ≠ .error .divZero ∧
    ∀ p, IsLeast {p | ctx.pos.toNat ≤ p ∧ n.toNat ∣ p} p → p < 2 ^ 32 →
      SpaceFor (p - ctx.pos.toNat) (fill.setWidth 8) ctx →
      ∃ ctx', run Statement.exec acts ctx = .ok ctx' ∧
        ctx'.pos.toNat = p ∧
        (∀ i, ctx.pos.toNat ≤ i → i < p → ctx'.buf i = fill.setWidth 8) ∧
        ∀ i < ctx.pos.toNat, ctx'.buf i = ctx.buf i

section
variable {ctx ctx' : EmitContext} {b : Byte} {k n : Nat}

/-! ## Padding -/

theorem handleExceedingBuffer_before {d : Dword} (h : handleExceedingBuffer d ctx = .ok ctx')
    {i : Nat} (hi : i < ctx.pos.toNat) : ctx'.buf i = ctx.buf i := by
  rcases handleExceedingBuffer_cases d ctx with heq | heq | ⟨msg, heq⟩ | ⟨j, heq⟩
  all_goals rw [heq] at h; cases h
  · rfl
  · exact if_neg (by omega)

/-- `emit_byte` leaves what is before the position. -/
theorem emitByte_before (h : emitByte b ctx = .ok ctx') {i : Nat} (hi : i < ctx.pos.toNat) :
    ctx'.buf i = ctx.buf i := by
  obtain ⟨c1, hroom, h⟩ := bind_eq_ok.1 h
  obtain ⟨c2, hput, h⟩ := bind_eq_ok.1 h
  obtain ⟨c3, hbyte, hnil⟩ := bind_eq_ok.1 hput
  cases h
  cases hnil
  unfold putByte at hbyte
  split at hbyte <;> cases hbyte
  rw [setHighestPosition_eq]
  have hne : i ≠ c1.pos.toNat := by
    rw [handleExceedingBuffer_pos hroom]
    omega
  exact (Function.update_of_ne hne ..).trans (handleExceedingBuffer_before hroom hi)

theorem emitByte_buf (h : emitByte b ctx = .ok ctx') : ctx'.buf ctx.pos.toNat = b := by
  have hbyte := exec_buf (c := .byte b) h 0 (Nat.succ_pos 0)
  rwa [BitVec.add_zero] at hbyte

/-- A padding of `k` bytes. -/
theorem run_bytes : ∀ {k : Nat} {ctx ctx' : EmitContext}, ctx.pos.toNat + k < 2 ^ 32 →
    run EmitCall.exec (List.replicate k (.byte b)) ctx = .ok ctx' →
    ctx'.pos.toNat = ctx.pos.toNat + k ∧
      (∀ i, ctx.pos.toNat ≤ i → i < ctx.pos.toNat + k → ctx'.buf i = b) ∧
      ∀ i < ctx.pos.toNat, ctx'.buf i = ctx.buf i
  | 0, ctx, ctx', _, h => by
    cases h
    exact ⟨rfl, fun i _ _ => by omega, fun _ _ => rfl⟩
  | k + 1, ctx, ctx', hlt, h => by
    obtain ⟨c1, hbyte, h⟩ := bind_eq_ok.1 h
    have hpos : c1.pos.toNat = ctx.pos.toNat + 1 := by
      rw [emitByte_pos hbyte]
      exact toNat_add_ofNat (k := 1) (by omega)
    obtain ⟨hend, hfill, hkeep⟩ := run_bytes (by omega) h
    refine ⟨by omega, fun i hge hi => ?_, fun i hi => ?_⟩
    · by_cases hfirst : i = ctx.pos.toNat
      · rw [hkeep i (by omega), hfirst, emitByte_buf hbyte]
      · exact hfill i (by omega) (by omega)
    · rw [hkeep i (by omega), emitByte_before hbyte hi]

/-! ## The loop -/

/-- **The loop is a padding** up to the first multiple. -/
theorem alignLoop_run (hn : 0 < n) : ∀ {k : Nat} {ctx : EmitContext},
    ctx.pos.toNat + k < 2 ^ 32 → n ∣ ctx.pos.toNat + k → (∀ j < k, ¬ n ∣ ctx.pos.toNat + j) →
    alignLoop n hn b ctx = run EmitCall.exec (List.replicate k (.byte b)) ctx
  | 0, ctx, _, hdvd, _ => by
    have hzero : ctx.pos.toNat % n = 0 := Nat.mod_eq_zero_of_dvd hdvd
    rw [alignLoop, dif_pos hzero]
    rfl
  | k + 1, ctx, hlt, hdvd, hfirst => by
    have hnot : ¬ ctx.pos.toNat % n = 0 :=
      fun h => hfirst 0 (Nat.succ_pos k) (Nat.dvd_of_mod_eq_zero h)
    rw [alignLoop, dif_neg hnot]
    show _ = emitByte b ctx >>= run EmitCall.exec (List.replicate k (.byte b))
    split
    case h_1 e he => rw [he]; rfl
    case h_2 c1 hbyte =>
      have hpos : c1.pos.toNat = ctx.pos.toNat + 1 := by
        rw [emitByte_pos hbyte]
        exact toNat_add_ofNat (k := 1) (by omega)
      have hshift (j : Nat) : c1.pos.toNat + j = ctx.pos.toNat + (j + 1) := by omega
      rw [hbyte, ok_bind]
      refine alignLoop_run hn (by omega) (hshift k ▸ hdvd) fun j hj => ?_
      rw [hshift]
      exact hfirst (j + 1) (by omega)

theorem handleExceedingBuffer_ne_divZero (d : Dword) (ctx : EmitContext) :
    handleExceedingBuffer d ctx ≠ .error .divZero := by
  intro h
  rcases handleExceedingBuffer_cases d ctx with heq | heq | ⟨msg, heq⟩ | ⟨j, heq⟩
  all_goals rw [heq] at h; cases h

theorem emitByte_ne_divZero (b : Byte) (ctx : EmitContext) :
    emitByte b ctx ≠ .error .divZero := by
  intro h
  rcases bind_eq_error.1 h with h | ⟨c1, -, h⟩
  · exact handleExceedingBuffer_ne_divZero _ _ h
  rcases bind_eq_error.1 h with h | ⟨c2, -, h⟩
  · rcases bind_eq_error.1 h with h | ⟨c3, -, h⟩
    · unfold putByte at h
      split at h <;> cases h
    · cases h
  · cases h

/-- The loop does not divide by zero, with room or without. -/
theorem alignLoop_ne_divZero (hn : 0 < n) (ctx : EmitContext) :
    alignLoop n hn b ctx ≠ .error .divZero := by
  fun_induction alignLoop n hn b ctx with
  | case1 ctx hzero => nofun
  | case2 ctx hnot e he =>
    rintro ⟨⟩
    exact emitByte_ne_divZero b ctx he
  | case3 ctx hnot ctx' hbyte ih => exact ih

/-! ## Buffer space -/

/-- A fixed buffer has space up to its size. -/
theorem Sized.spaceFor : ∀ {k : Nat} {ctx : EmitContext}, Sized ctx →
    ctx.pos.toNat + k ≤ ctx.size.toNat → SpaceFor k b ctx
  | 0, ctx, _, _ => ⟨ctx, rfl⟩
  | k + 1, ctx, h, hk => by
    have hfit : Fits ctx (.byte b) := by
      show ctx.pos.toNat + 1 ≤ ctx.size.toNat
      omega
    have hpos : (ctx.after (.byte b)).pos.toNat = ctx.pos.toNat + 1 := by
      rw [EmitContext.after, advance_pos]
      exact hfit.pos_eq
    have hsize : (ctx.after (.byte b)).size = ctx.size := advance_size ..
    obtain ⟨ctx', hrun⟩ := (h.after_fits hfit).spaceFor (k := k) (by rw [hpos, hsize]; omega)
    exact ⟨ctx', (run_cons (h.exec_fits hfit)).trans hrun⟩

theorem allAligned_bytes : ∀ {k p : Nat}, p + k + 511 ≤ 2 ^ 32 →
    AllAligned p (List.replicate k (.byte b))
  | 0, _, _ => trivial
  | k + 1, p, h => by
    have hrest : p + 1 + k + 511 ≤ 2 ^ 32 := by omega
    exact ⟨⟨rfl, by unfold dynamicBufferSize; omega⟩, allAligned_bytes hrest⟩

/-- A dynamic buffer in step has space up to the last block. -/
theorem InStep.spaceFor {p : Nat} (h : InStep p ctx) (hk : p + k + 511 ≤ 2 ^ 32) :
    SpaceFor k b ctx := by
  obtain ⟨ctx', hrun, -⟩ := h.bufferSafe_iff.2 (allAligned_bytes hk) _ List.prefix_rfl
  exact ⟨ctx', hrun⟩

/-! ## The directive -/

theorem exec_align {n fill : Word} (hn : 0 < n.toNat) :
    run Statement.exec [.align n fill] ctx = alignLoop n.toNat hn (fill.setWidth 8) ctx := by
  rw [run_singleton]
  exact dif_pos hn

theorem exec_align_zero (fill : Word) :
    run Statement.exec [.align 0 fill] ctx = .error .divZero := rfl

/-- A directive with an operand that is not zero. -/
theorem pads_of_pos {n fill : Word} (hn : 0 < n.toNat) (ctx : EmitContext) : Pads n fill ctx := by
  refine ⟨_, rfl, ?_, fun p hleast hp hspace => ?_⟩
  · rw [exec_align hn]
    exact alignLoop_ne_divZero hn ctx
  · obtain ⟨⟨hge, hdvd⟩, hmin⟩ := hleast
    obtain ⟨ctx', hrun⟩ := hspace
    have hp' : ctx.pos.toNat + (p - ctx.pos.toNat) = p := Nat.add_sub_cancel' hge
    have hfirst : ∀ j < p - ctx.pos.toNat, ¬ n.toNat ∣ ctx.pos.toNat + j := by
      intro j hj hd
      have : p ≤ ctx.pos.toNat + j := hmin ⟨Nat.le_add_right .., hd⟩
      omega
    have hloop := alignLoop_run (b := fill.setWidth 8) hn (by rwa [hp']) (by rwa [hp']) hfirst
    obtain ⟨hpos, hfill, hkeep⟩ := run_bytes (by rwa [hp']) hrun
    rw [hp'] at hpos hfill
    exact ⟨ctx', by rw [exec_align hn, hloop, hrun], hpos, hfill, hkeep⟩

end

/-- **`.align`** pads up to the next multiple of its first operand exactly when that is not zero. -/
theorem align_iff (n fill : Word) (ctx : EmitContext) : Pads n fill ctx ↔ n ≠ 0 := by
  constructor
  · rintro ⟨acts, hacts, hne, -⟩ rfl
    cases hacts
    exact hne (exec_align_zero fill)
  · intro hn
    have hpos : 0 < n.toNat := by
      refine Nat.pos_of_ne_zero fun h => hn ?_
      exact BitVec.eq_of_toNat_eq h
    exact pads_of_pos hpos ctx

/-- `.align 0 0` at the start of an image. -/
theorem not_pads_zero : ¬ ∀ (n fill : Word) (ctx : EmitContext), Pads n fill ctx := by
  intro h
  obtain ⟨acts, hacts, hne, -⟩ := h 0 0 (emitCreateContext 512 true fun _ => 0)
  cases hacts
  exact hne rfl

end Assembler
