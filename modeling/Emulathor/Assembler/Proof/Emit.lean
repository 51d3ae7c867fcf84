import Emulathor.Assembler.Layout

/-!
# What an emitter does

A request that passes the guard of `handle_exceeding_buffer` and whose bytes lie in the allocated
block writes its bytes at the position and advances it (`emitBytes_ok`, `emitLabelRef_ok`, `after`);
one that leaves the block faults (`putBytes_out`).
-/

namespace Assembler

open Common Lib

/-- The position advanced, the highest position with it. -/
def EmitContext.advance (ctx : EmitContext) (n : Nat) : EmitContext :=
  setHighestPosition { ctx with pos := ctx.pos + BitVec.ofNat 32 n }

theorem setHighestPosition_eq (ctx : EmitContext) :
    setHighestPosition ctx
      = { ctx with highestPos := if ctx.pos > ctx.highestPos then ctx.pos else ctx.highestPos } := by
  unfold setHighestPosition
  split <;> rfl

section
variable (ctx : EmitContext) (n : Nat)

@[simp] theorem advance_buf : (ctx.advance n).buf = ctx.buf := by
  rw [EmitContext.advance, setHighestPosition_eq]

@[simp] theorem advance_allocated : (ctx.advance n).allocated = ctx.allocated := by
  rw [EmitContext.advance, setHighestPosition_eq]

@[simp] theorem advance_bufLenFixed : (ctx.advance n).bufLenFixed = ctx.bufLenFixed := by
  rw [EmitContext.advance, setHighestPosition_eq]

@[simp] theorem advance_size : (ctx.advance n).size = ctx.size := by
  rw [EmitContext.advance, setHighestPosition_eq]

@[simp] theorem advance_offset : (ctx.advance n).offset = ctx.offset := by
  rw [EmitContext.advance, setHighestPosition_eq]

@[simp] theorem advance_labels : (ctx.advance n).labels = ctx.labels := by
  rw [EmitContext.advance, setHighestPosition_eq]

@[simp] theorem advance_labelrefs : (ctx.advance n).labelrefs = ctx.labelrefs := by
  rw [EmitContext.advance, setHighestPosition_eq]

@[simp] theorem advance_pos : (ctx.advance n).pos = ctx.pos + BitVec.ofNat 32 n := by
  rw [EmitContext.advance, setHighestPosition_eq]

theorem advance_highestPos :
    (ctx.advance n).highestPos.toNat
      = max (ctx.pos + BitVec.ofNat 32 n).toNat ctx.highestPos.toNat := by
  rw [EmitContext.advance, setHighestPosition_eq]
  simp only [BitVec.lt_def, gt_iff_lt]
  split <;> omega

end

variable {ctx : EmitContext} {n : Nat} {bs : List Byte}

/-! ## Writing -/

theorem putBytes_ok : ∀ {bs : List Byte} {ctx : EmitContext},
    ctx.pos.toNat + bs.length ≤ ctx.allocated → ctx.allocated ≤ 2 ^ 32 →
    putBytes bs ctx = .ok { ctx with
      buf := overlay ctx.buf ctx.pos.toNat bs, pos := ctx.pos + BitVec.ofNat 32 bs.length }
  | [], ctx, _, _ => by simp [putBytes, overlay_nil]
  | b :: bs, ctx, hfit, hall => by
    rw [List.length_cons] at hfit
    have hput : putByte b ctx = .ok { ctx with
        buf := Function.update ctx.buf ctx.pos.toNat b, pos := ctx.pos + 1 } := if_pos (by omega)
    rw [putBytes, hput, ok_bind]
    cases bs with
    | nil =>
      rw [← overlay_cons, overlay_nil]
      rfl
    | cons c bs =>
      rw [List.length_cons] at hfit
      have hpos : (ctx.pos + 1).toNat = ctx.pos.toNat + 1 := toNat_add_ofNat (k := 1) (by omega)
      have hadd : ctx.pos + 1 + BitVec.ofNat 32 (c :: bs).length
          = ctx.pos + BitVec.ofNat 32 (b :: c :: bs).length := by
        show _ = ctx.pos + BitVec.ofNat 32 ((c :: bs).length + 1)
        rw [BitVec.add_assoc, Nat.add_comm, BitVec.ofNat_add]
        rfl
      have hfit' : (ctx.pos + 1).toNat + (c :: bs).length ≤ ctx.allocated := by
        rw [hpos, List.length_cons]; omega
      have hrest := @putBytes_ok (c :: bs)
        { ctx with buf := Function.update ctx.buf ctx.pos.toNat b, pos := ctx.pos + 1 } hfit' hall
      rw [hrest, hadd]
      simp only [hpos, overlay_cons]

/-- Bytes that do not lie in a block smaller than the address space: one of them faults. -/
theorem putBytes_out : ∀ {bs : List Byte} {ctx : EmitContext},
    ctx.allocated < ctx.pos.toNat + bs.length → ctx.allocated < 2 ^ 32 →
    bs ≠ [] → ∃ i, ctx.allocated ≤ i ∧ putBytes bs ctx = .error (.fault i)
  | [], _, _, _, h => absurd rfl h
  | b :: bs, ctx, hout, hall, _ => by
    rw [List.length_cons] at hout
    unfold putBytes putByte
    by_cases hlt : ctx.pos.toNat < ctx.allocated
    · rw [if_pos hlt, ok_bind]
      have hpos : (ctx.pos + 1).toNat = ctx.pos.toNat + 1 := toNat_add_ofNat (k := 1) (by omega)
      have hne : bs ≠ [] := by
        rintro rfl
        simp only [List.length_nil] at hout
        omega
      exact @putBytes_out bs { ctx with buf := _, pos := ctx.pos + 1 }
        (by simp only [hpos]; omega) hall hne
    · exact ⟨ctx.pos.toNat, by omega, by rw [if_neg hlt]; rfl⟩

/-! ## Requests -/

/-- The guard of `handle_exceeding_buffer`, for a request that does not reach beyond 2^32. -/
theorem guard_iff (hn : 0 < n) (hno : ctx.pos.toNat + n ≤ 2 ^ 32) :
    ctx.pos + BitVec.ofNat 32 n - 1 ≥ ctx.size ↔ ctx.size.toNat < ctx.pos.toNat + n := by
  have hs := ctx.size.isLt
  have hguard : (ctx.pos + BitVec.ofNat 32 n - 1).toNat = ctx.pos.toNat + n - 1 := by
    rw [BitVec.toNat_sub, BitVec.toNat_add, BitVec.toNat_ofNat, show (1 : Dword).toNat = 1 from rfl]
    omega
  rw [ge_iff_le, BitVec.le_def, hguard]
  omega

/-- The same for a request that does. -/
theorem guard_wrap_iff (hn : n < 2 ^ 32) (hw : 2 ^ 32 < ctx.pos.toNat + n) :
    ctx.pos + BitVec.ofNat 32 n - 1 ≥ ctx.size
      ↔ ctx.size.toNat ≤ ctx.pos.toNat + n - 1 - 2 ^ 32 := by
  have hp := ctx.pos.isLt
  have hguard : (ctx.pos + BitVec.ofNat 32 n - 1).toNat = ctx.pos.toNat + n - 1 - 2 ^ 32 := by
    rw [BitVec.toNat_sub, BitVec.toNat_add, BitVec.toNat_ofNat, show (1 : Dword).toNat = 1 from rfl]
    omega
  rw [ge_iff_le, BitVec.le_def, hguard]

theorem handleExceedingBuffer_room (h : ¬ ctx.pos + BitVec.ofNat 32 n - 1 ≥ ctx.size) :
    handleExceedingBuffer (BitVec.ofNat 32 n) ctx = .ok ctx := if_pos h

theorem handleExceedingBuffer_full (h : ctx.pos + BitVec.ofNat 32 n - 1 ≥ ctx.size)
    (hfixed : ctx.bufLenFixed = true) :
    handleExceedingBuffer (BitVec.ofNat 32 n) ctx
      = .error (.yyerror "FATAL: Emit buffer too small!\n") := by
  rw [handleExceedingBuffer, if_neg (not_not_intro h), if_pos hfixed]

/-- A dynamic buffer reallocated and cleared. -/
def EmitContext.grown (ctx : EmitContext) : EmitContext :=
  { ctx with
    allocated := (ctx.highestPos.toNat / dynamicBufferSize + 1) * dynamicBufferSize
    buf := fun i =>
      if ctx.pos.toNat ≤ i ∧ i < ctx.pos.toNat + dynamicBufferSize then 0 else ctx.buf i
    size := ctx.size + BitVec.ofNat 32 dynamicBufferSize }

/-- A request leaves the context as it is, makes the buffer grow, or stops. -/
theorem handleExceedingBuffer_cases (d : Dword) (ctx : EmitContext) :
    handleExceedingBuffer d ctx = .ok ctx ∨ handleExceedingBuffer d ctx = .ok ctx.grown ∨
      (∃ msg, handleExceedingBuffer d ctx = .error (.yyerror msg)) ∨
      ∃ i, handleExceedingBuffer d ctx = .error (.fault i) := by
  unfold handleExceedingBuffer
  split
  · exact .inl rfl
  split
  · exact .inr (.inr (.inl ⟨_, rfl⟩))
  dsimp only
  split
  · exact .inr (.inl rfl)
  · exact .inr (.inr (.inr ⟨_, rfl⟩))

theorem grown_allocated (ctx : EmitContext) :
    ctx.grown.allocated = (ctx.highestPos.toNat / dynamicBufferSize + 1) * dynamicBufferSize := rfl

theorem grown_size (ctx : EmitContext) :
    ctx.grown.size = ctx.size + BitVec.ofNat 32 dynamicBufferSize := rfl

section
variable (h : ctx.pos + BitVec.ofNat 32 n - 1 ≥ ctx.size) (hdyn : ctx.bufLenFixed = false)
include h hdyn

theorem handleExceedingBuffer_grow
    (hmemset : ctx.pos.toNat + dynamicBufferSize ≤ ctx.grown.allocated) :
    handleExceedingBuffer (BitVec.ofNat 32 n) ctx = .ok ctx.grown := by
  have hd : ¬ ctx.bufLenFixed = true := by rw [hdyn]; nofun
  rw [handleExceedingBuffer, if_neg (not_not_intro h), if_neg hd]
  exact if_pos hmemset

theorem handleExceedingBuffer_fault
    (hmemset : ¬ ctx.pos.toNat + dynamicBufferSize ≤ ctx.grown.allocated) :
    handleExceedingBuffer (BitVec.ofNat 32 n) ctx
      = .error (.fault (max ctx.pos.toNat ctx.grown.allocated)) := by
  have hd : ¬ ctx.bufLenFixed = true := by rw [hdyn]; nofun
  rw [handleExceedingBuffer, if_neg (not_not_intro h), if_neg hd]
  exact if_neg hmemset

end

/-- The bytes of a request written, the position advanced. -/
def EmitContext.written (ctx : EmitContext) (bs : List Byte) : EmitContext :=
  { ctx with buf := overlay ctx.buf ctx.pos.toNat bs }.advance bs.length

theorem emitBytes_ok {ctx' : EmitContext}
    (hroom : handleExceedingBuffer (BitVec.ofNat 32 bs.length) ctx = .ok ctx')
    (hfit : ctx'.pos.toNat + bs.length ≤ ctx'.allocated) (hall : ctx'.allocated ≤ 2 ^ 32) :
    emitBytes bs ctx = .ok (ctx'.written bs) := by
  rw [emitBytes, hroom, ok_bind, putBytes_ok hfit hall]
  rfl

/-- A label reference recorded. -/
def EmitContext.referring (ctx : EmitContext) (name : String) (reg cond : Byte) : EmitContext :=
  { ctx with labelrefs := ctx.labelrefs ++ [{ name, pos := ctx.pos, reg, cond }] }

theorem emitLabelRef_eq (name : String) (reg cond : Byte) :
    emitLabelRef name reg cond ctx = (do
      let ctx ← handleExceedingBuffer (BitVec.ofNat 32 8) (ctx.referring name reg cond)
      return ctx.advance 8) := rfl

/-- The context after a call for which there was room. -/
def EmitContext.after (ctx : EmitContext) (c : EmitCall) : EmitContext :=
  { ctx with
    buf := overlay ctx.buf ctx.pos.toNat c.bytes
    labelrefs := ctx.labelrefs ++ c.refs ctx.pos }.advance c.width

/-- **A call for which there is room.** -/
theorem exec_ok {c : EmitCall} (hroom : ¬ ctx.pos + BitVec.ofNat 32 c.width - 1 ≥ ctx.size)
    (hfit : c.bytes ≠ [] → ctx.pos.toNat + c.width ≤ ctx.allocated)
    (hall : ctx.allocated ≤ 2 ^ 32) : c.exec ctx = .ok (ctx.after c) := by
  rcases c.bytes_ne_nil_or with hb | ⟨name, reg, cond, rfl⟩
  · have hrefs : c.refs ctx.pos = [] := by
      cases c with
      | labelRef name reg cond => exact absurd rfl hb
      | _ => rfl
    rw [EmitContext.after, hrefs, List.append_nil, EmitCall.exec_eq hb]
    have hfit' := hfit hb
    rw [EmitCall.width_eq hb] at hroom hfit' ⊢
    exact emitBytes_ok (handleExceedingBuffer_room hroom) hfit' hall
  · have hroom' : ¬ (ctx.referring name reg cond).pos + BitVec.ofNat 32 8 - 1
        ≥ (ctx.referring name reg cond).size := hroom
    rw [EmitCall.exec, emitLabelRef_eq, handleExceedingBuffer_room hroom', EmitContext.after]
    simp only [EmitCall.bytes, overlay_nil]
    rfl

/-! ## What a call has written -/

theorem putBytes_buf : ∀ {bs : List Byte} {ctx ctx' : EmitContext}, putBytes bs ctx = .ok ctx' →
    bs.length ≤ 2 ^ 32 →
    (∀ i (hi : i < bs.length), ctx'.buf (ctx.pos + BitVec.ofNat 32 i).toNat = bs[i]) ∧
    ∀ p : Dword, (∀ i < bs.length, p ≠ ctx.pos + BitVec.ofNat 32 i) →
      ctx'.buf p.toNat = ctx.buf p.toNat
  | [], ctx, ctx', h, _ => by
    cases h
    exact ⟨nofun, fun _ _ => rfl⟩
  | b :: bs, ctx, ctx', h, hlen => by
    rw [List.length_cons] at hlen
    obtain ⟨ctx1, hput, hrest⟩ := bind_eq_ok.1 h
    unfold putByte at hput
    split at hput <;> cases hput
    obtain ⟨hin, hout⟩ := putBytes_buf hrest (by omega)
    have hshift (i : Nat) : ctx.pos + BitVec.ofNat 32 (i + 1) = ctx.pos + 1 + BitVec.ofNat 32 i := by
      rw [Nat.add_comm, BitVec.ofNat_add, BitVec.add_assoc]
      rfl
    -- the bytes that follow do not wrap around to the position
    have hfirst : ∀ i < bs.length, ctx.pos ≠ ctx.pos + 1 + BitVec.ofNat 32 i := by
      intro i hi heq
      have := congrArg BitVec.toNat heq
      rw [← hshift, BitVec.toNat_add, BitVec.toNat_ofNat] at this
      have := ctx.pos.isLt
      omega
    refine ⟨fun i hi => ?_, fun p hp => ?_⟩
    · cases i with
      | zero =>
        rw [show ctx.pos + BitVec.ofNat 32 0 = ctx.pos from BitVec.add_zero _, hout _ hfirst]
        exact Function.update_self ..
      | succ i =>
        rw [hshift]
        exact hin i (Nat.lt_of_succ_lt_succ hi)
    · rw [hout p fun i hi => by rw [← hshift]; exact hp (i + 1) (Nat.succ_lt_succ hi)]
      refine Function.update_of_ne (fun heq => ?_) ..
      exact hp 0 (Nat.succ_pos _) (by rw [BitVec.eq_of_toNat_eq heq]; exact (BitVec.add_zero _).symm)

/-- **The bytes of a call** are in the buffer after it, at the position it started from. -/
theorem exec_buf {c : EmitCall} {ctx' : EmitContext} (h : c.exec ctx = .ok ctx') (i : Nat)
    (hi : i < c.bytes.length) : ctx'.buf (ctx.pos + BitVec.ofNat 32 i).toNat = c.bytes[i] := by
  have hne : c.bytes ≠ [] := List.ne_nil_of_length_pos (by omega)
  have hlen : c.bytes.length ≤ 2 ^ 32 := by
    rw [← EmitCall.width_eq hne]
    exact Nat.le_trans c.width_le (by decide)
  rw [EmitCall.exec_eq hne] at h
  obtain ⟨ctx1, hroom, h⟩ := bind_eq_ok.1 h
  obtain ⟨ctx2, hput, h⟩ := bind_eq_ok.1 h
  cases h
  rw [setHighestPosition_eq, ← handleExceedingBuffer_pos hroom]
  exact (putBytes_buf hput hlen).1 i hi

/-! ## Buffers of a given size -/

/-- A buffer of `size` bytes that holds all that has been emitted. -/
structure Sized (ctx : EmitContext) : Prop where
  allocated : ctx.allocated = ctx.size.toNat
  highest : ctx.highestPos.toNat ≤ ctx.size.toNat

theorem sized_create (size : Dword) (fixedLength : Bool) (heap : Nat → Byte) :
    Sized (emitCreateContext size fixedLength heap) :=
  ⟨rfl, Nat.zero_le _⟩

/-- The request of `c` fits. -/
def Fits (ctx : EmitContext) (c : EmitCall) : Prop := ctx.pos.toNat + c.width ≤ ctx.size.toNat

section
variable {c : EmitCall}

theorem Sized.allocated_le (h : Sized ctx) : ctx.allocated ≤ 2 ^ 32 := by
  have := ctx.size.isLt
  rw [h.allocated]
  omega

/-- A request that fits passes the guard. -/
theorem fits_room (hfit : Fits ctx c) : ¬ ctx.pos + BitVec.ofNat 32 c.width - 1 ≥ ctx.size := by
  have hs := ctx.size.isLt
  unfold Fits at hfit
  rw [guard_iff c.width_pos (by omega)]
  omega

theorem Fits.pos_eq (hfit : Fits ctx c) :
    (ctx.pos + BitVec.ofNat 32 c.width).toNat = ctx.pos.toNat + c.width := by
  have hs := ctx.size.isLt
  unfold Fits at hfit
  exact toNat_add_ofNat (by omega)

/-- **A call that fits** is made. -/
theorem Sized.exec_fits (h : Sized ctx) (hfit : Fits ctx c) : c.exec ctx = .ok (ctx.after c) := by
  refine exec_ok (fits_room hfit) (fun _ => ?_) h.allocated_le
  rw [h.allocated]
  exact hfit

theorem Sized.after (h : Sized ctx)
    (hhigh : (ctx.pos + BitVec.ofNat 32 c.width).toNat ≤ ctx.size.toNat) : Sized (ctx.after c) := by
  refine ⟨by simp [EmitContext.after, h.allocated], ?_⟩
  rw [EmitContext.after, advance_highestPos, advance_size]
  exact Nat.max_le.2 ⟨hhigh, h.highest⟩

theorem Sized.after_fits (h : Sized ctx) (hfit : Fits ctx c) : Sized (ctx.after c) :=
  h.after (by rw [hfit.pos_eq]; exact hfit)

end

/-- A call whose request is refused stops as the request does. -/
theorem exec_error {c : EmitCall} {s : Stop}
    (h : ∀ refs, handleExceedingBuffer (BitVec.ofNat 32 c.width) { ctx with labelrefs := refs }
      = .error s) : c.exec ctx = .error s := by
  rcases c.bytes_ne_nil_or with hb | ⟨name, reg, cond, rfl⟩
  · rw [EmitCall.exec_eq hb, emitBytes, ← EmitCall.width_eq hb]
    rw [show handleExceedingBuffer (BitVec.ofNat 32 c.width) ctx = _ from h ctx.labelrefs]
    rfl
  · rw [EmitCall.exec, emitLabelRef_eq]
    rw [show handleExceedingBuffer (BitVec.ofNat 32 8) (ctx.referring name reg cond) = _ from h _]
    rfl

end Assembler
