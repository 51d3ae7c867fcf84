import Emulathor.Assembler.Proof.Layout

/-!
# The fixed buffer

The guard `pos + required_size - 1 >= size` is computed in 32 bits. A request that does not reach
beyond 2^32 is refused exactly when it does not fit (`exec_fits`, `exec_full`); one that does may
pass. `fixedSafe_iff`: a sequence of statements keeps inside a buffer of fixed size, refusing what
does not fit, exactly when no call it gets to passes the guard that way (`Guarded`).
-/

namespace Assembler

open Common Lib

/-- A context whose buffer is fixed and holds all that has been emitted. -/
structure Fixed (ctx : EmitContext) : Prop extends Sized ctx where
  fixed : ctx.bufLenFixed = true

theorem fixed_create (size : Dword) (heap : Nat → Byte) : Fixed (emitCreateContext size true heap) :=
  ⟨sized_create size true heap, rfl⟩

/-- The request does not reach beyond 2^32, or so far that the guard refuses it. -/
def Guarded (ctx : EmitContext) (c : EmitCall) : Prop :=
  ctx.pos.toNat + c.width ≤ 2 ^ 32 ∨ ctx.size.toNat ≤ ctx.pos.toNat + c.width - 1 - 2 ^ 32

variable {ctx : EmitContext} {c : EmitCall}

/-- A request that does not fit is refused exactly when it is guarded. -/
theorem guard_iff_guarded (hfit : ¬ Fits ctx c) :
    ctx.pos + BitVec.ofNat 32 c.width - 1 ≥ ctx.size ↔ Guarded ctx c := by
  unfold Fits at hfit
  unfold Guarded
  by_cases hno : ctx.pos.toNat + c.width ≤ 2 ^ 32
  · rw [guard_iff c.width_pos hno]
    omega
  · have hw := c.width_le
    rw [guard_wrap_iff (by omega) (by omega)]
    omega

theorem Fixed.exec_full (h : Fixed ctx) (hfit : ¬ Fits ctx c) (hg : Guarded ctx c) :
    c.exec ctx = .error (.yyerror "FATAL: Emit buffer too small!\n") :=
  exec_error fun _ => handleExceedingBuffer_full ((guard_iff_guarded hfit).2 hg) h.fixed

theorem Fixed.after (h : Fixed ctx)
    (hhigh : (ctx.pos + BitVec.ofNat 32 c.width).toNat ≤ ctx.size.toNat) : Fixed (ctx.after c) :=
  ⟨h.toSized.after hhigh, by simp [EmitContext.after, h.fixed]⟩

/-- A call that returns keeps the context fixed, also one that has passed the guard by wrapping
around: it then reserved bytes, and its new position is small. -/
theorem Fixed.exec (h : Fixed ctx) {ctx' : EmitContext} (hexec : c.exec ctx = .ok ctx') :
    Fixed ctx' := by
  by_cases hfit : Fits ctx c
  · rw [h.exec_fits hfit] at hexec
    cases hexec
    exact ⟨h.after_fits hfit, by simp [EmitContext.after, h.fixed]⟩
  by_cases hg : Guarded ctx c
  · rw [h.exec_full hfit hg] at hexec
    cases hexec
  have hroom : ¬ ctx.pos + BitVec.ofNat 32 c.width - 1 ≥ ctx.size :=
    fun hge => hg ((guard_iff_guarded hfit).1 hge)
  unfold Guarded at hg
  have hw := c.width_le
  rcases c.bytes_ne_nil_or with hb | ⟨name, reg, cond, rfl⟩
  · have hlen := EmitCall.width_eq hb
    obtain ⟨i, -, hi⟩ := @putBytes_out c.bytes ctx (by rw [h.allocated]; omega)
      (by rw [h.allocated]; exact ctx.size.isLt) hb
    rw [hlen] at hroom
    rw [EmitCall.exec_eq hb, emitBytes, handleExceedingBuffer_room hroom, ok_bind, hi] at hexec
    cases hexec
  · rw [exec_ok hroom (fun hb => absurd rfl hb) h.allocated_le] at hexec
    cases hexec
    refine h.after ?_
    rw [BitVec.toNat_add, BitVec.toNat_ofNat]
    omega

/-! ## Statements -/

theorem Fixed.exec_statement (h : Fixed ctx) {s : Statement} (hs : s.NoAlign) {ctx' : EmitContext}
    (hexec : s.exec ctx = .ok ctx') : Fixed ctx' := by
  cases s with
  | call c => exact h.exec hexec
  | label name =>
    simp only [Statement.exec, emitLabel] at hexec
    split at hexec <;> cases hexec
    exact ⟨⟨h.allocated, h.highest⟩, h.fixed⟩
  | offset o => cases hexec; exact ⟨⟨h.allocated, h.highest⟩, h.fixed⟩
  | at_ pos => cases hexec; exact ⟨⟨h.allocated, h.highest⟩, h.fixed⟩
  | align n fill => exact absurd hs id
  | yyerror msg => cases hexec

/-- Only a call faults. -/
theorem exec_fault_call {s : Statement} (hs : s.NoAlign) {i : Nat}
    (hexec : s.exec ctx = .error (.fault i)) : ∃ c, s = .call c := by
  cases s with
  | call c => exact ⟨c, rfl⟩
  | label name =>
    simp only [Statement.exec, emitLabel] at hexec
    split at hexec <;> cases hexec
  | offset o => cases hexec
  | at_ pos => cases hexec
  | align n fill => exact absurd hs id
  | yyerror msg => cases hexec

/-- **What is asked of a fixed buffer**: no write leaves it, a request that does not fit is refused
by `handle_exceeding_buffer`, before any write, and the highest position stays in it. -/
structure FixedSafe (stmts : List Statement) (ctx : EmitContext) : Prop where
  noFault : ∀ i, run Statement.exec stmts ctx ≠ .error (.fault i)
  refused : ∀ c ctx', Reached Statement.exec stmts ctx (.call c) ctx' → ¬ Fits ctx' c →
    ∃ msg, handleExceedingBuffer (BitVec.ofNat 32 c.width) ctx' = .error (.yyerror msg)
  highest : ∀ pre ctx', pre <+: stmts → run Statement.exec pre ctx = .ok ctx' →
    ctx'.highestPos.toNat ≤ ctx'.size.toNat

/-- **The fixed buffer** is safe exactly when no call passes the guard by reaching beyond 2^32. -/
theorem fixedSafe_iff (size : Dword) (heap : Nat → Byte) {stmts : List Statement}
    (hs : ∀ s ∈ stmts, s.NoAlign) :
    FixedSafe stmts (emitCreateContext size true heap) ↔
      ∀ c ctx, Reached Statement.exec stmts (emitCreateContext size true heap) (.call c) ctx →
        Guarded ctx c := by
  have keep : ∀ s ∈ stmts, ∀ ctx ctx', Fixed ctx → s.exec ctx = .ok ctx' → Fixed ctx' :=
    fun s hmem ctx ctx' h hexec => h.exec_statement (hs s hmem) hexec
  constructor
  · intro hsafe c ctx hr
    by_contra hg
    have hfit : ¬ Fits ctx c := by
      have hlt := ctx.size.isLt
      unfold Guarded at hg
      unfold Fits
      omega
    obtain ⟨msg, hmsg⟩ := hsafe.refused c ctx hr hfit
    rw [handleExceedingBuffer_room fun hge => hg ((guard_iff_guarded hfit).1 hge)] at hmsg
    cases hmsg
  · intro hg
    refine ⟨fun i hi => ?_, fun c ctx hr hfit => ?_, fun pre ctx hpre hrun => ?_⟩
    · obtain ⟨s, ctx, hr, hexec⟩ := run_error_iff.1 hi
      have hctx := reached_inv keep (fixed_create size heap) hr
      obtain ⟨c, rfl⟩ := exec_fault_call (hs s hr.mem) hexec
      by_cases hfit : Fits ctx c
      · rw [Statement.exec, hctx.exec_fits hfit] at hexec
        cases hexec
      · rw [Statement.exec, hctx.exec_full hfit (hg c ctx hr)] at hexec
        cases hexec
    · have hctx := reached_inv keep (fixed_create size heap) hr
      exact ⟨_, handleExceedingBuffer_full ((guard_iff_guarded hfit).2 (hg c ctx hr)) hctx.fixed⟩
    · have hkeep : ∀ s ∈ pre, ∀ ctx ctx', Fixed ctx → s.exec ctx = .ok ctx' → Fixed ctx' :=
        fun s hmem => keep s (hpre.subset hmem)
      exact (run_inv hkeep (fixed_create size heap) hrun).highest

/-- `.byte 0x2A`, `.at 12`, `STOP` and a byte that does not fit. -/
def fullBuffer : List Statement :=
  [.call (.byte 0x2A), .at_ 12, .call (.fmtI pfxDword Cond.always.code Opcode.stop.code),
    .call (.byte 0x2B)]

/-- `.at 0xFFFFFFFE` and `STOP`. -/
def wrapAround : List Statement :=
  [.at_ 0xFFFFFFFE, .call (.fmtI pfxDword Cond.always.code Opcode.stop.code)]

/-- A buffer of 16 bytes is safe for the first; the second gets to a call that passes its guard. -/
theorem fixedSafe_iff_at :
    FixedSafe fullBuffer (emitCreateContext 16 true fun _ => 0) ∧
    ∃ c ctx, ¬ Guarded ctx c ∧
      Reached Statement.exec wrapAround (emitCreateContext 16 true fun _ => 0) (.call c) ctx := by
  constructor
  · refine (@fixedSafe_iff 16 (fun _ => 0) fullBuffer (by decide)).2 fun c ctx hr => .inl ?_
    rcases reached_cons.1 hr with ⟨heq, rfl⟩ | ⟨ctx1, h1, hr⟩
    · cases heq
      decide
    obtain rfl := Except.ok.inj h1
    rcases reached_cons.1 hr with ⟨heq, -⟩ | ⟨ctx2, h2, hr⟩
    · cases heq
    obtain rfl := Except.ok.inj h2
    rcases reached_cons.1 hr with ⟨heq, rfl⟩ | ⟨ctx3, h3, hr⟩
    · cases heq
      decide
    obtain rfl := Except.ok.inj h3
    rcases reached_cons.1 hr with ⟨heq, rfl⟩ | ⟨ctx4, h4, -⟩
    · cases heq
      decide
    · cases h4
  · have hiff := @fixedSafe_iff 16 (fun _ => 0) wrapAround (by decide)
    by_contra hnone
    push Not at hnone
    exact (hiff.2 fun c ctx hr => by_contra fun hg => hnone c ctx hg hr).noFault 0xFFFFFFFE rfl

theorem not_fixedSafe_wrap :
    ¬ ∀ (size : Dword) (heap : Nat → Byte) (stmts : List Statement), (∀ s ∈ stmts, s.NoAlign) →
      FixedSafe stmts (emitCreateContext size true heap) := by
  intro h
  have hsafe := h 16 (fun _ => 0) wrapAround (by decide)
  exact hsafe.noFault 0xFFFFFFFE rfl

end Assembler
