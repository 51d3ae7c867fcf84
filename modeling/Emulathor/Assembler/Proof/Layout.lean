import Emulathor.Assembler.Proof.Emit

/-!
# The assembler lays out the program

`imageOf_laid`: run from a context at the program's first cursor, the assembler writes the image its
layout describes (last writer, resolved references over emitted bytes) if every call fits, no label
is defined twice and no reference is undefined (`Assembles`), and aborts through `yyerror`
otherwise. The induction over the statements carries `Laid`, the one over the references `Resolved`.
-/

namespace Assembler

open Common Lib

/-! ## What the assembler accepts -/

/-- The statement is not refused at cursor `k`, with `size` bytes and the labels `t`. -/
def Statement.Accepted (size : Nat) (k : Cursor) (t : String → Option Dword) : Statement → Prop
  | .call c => k.pos + c.width ≤ size
  | .label name => t name = none
  | .offset _ | .at_ _ => True
  | .align _ _ | .yyerror _ => False

/-- No statement is refused. -/
def AllAccepted (size : Nat) : Cursor → (String → Option Dword) → List Statement → Prop
  | _, _, [] => True
  | k, t, s :: ss => s.Accepted size k t ∧ AllAccepted size (s.next k) (defineAll t (s.defs k)) ss

/-- No statement is refused and every reference is defined. -/
def Assembles (size : Nat) (k : Cursor) (t : String → Option Dword) (ss : List Statement) : Prop :=
  AllAccepted size k t ss ∧
    ∀ lr ∈ along Statement.refs k ss, (defineAll t (along Statement.defs k ss) lr.name).isSome

/-- Not `.align`, whose bytes are emitted in a loop. -/
def Statement.NoAlign : Statement → Prop
  | .align _ _ => False
  | _ => True

instance : DecidablePred Statement.NoAlign
  | .align _ _ => .isFalse id
  | .call _ | .label _ | .offset _ | .at_ _ | .yyerror _ => .isTrue trivial

/-- How far a request may reach: a fixed buffer refuses it up to 2^32, a dynamic one does not grow
below its size. -/
def EmitContext.bound (ctx : EmitContext) : Nat :=
  if ctx.bufLenFixed then 2 ^ 32 else ctx.size.toNat

/-! ## Statements -/

/-- The context is at cursor `k`. -/
structure AtCursor (k : Cursor) (ctx : EmitContext) : Prop where
  pos : ctx.pos.toNat = k.pos
  offset : ctx.offset = k.offset

theorem AtCursor.pos_eq {k : Cursor} {ctx : EmitContext} (h : AtCursor k ctx) :
    ctx.pos = BitVec.ofNat 32 k.pos := by
  rw [← h.pos, BitVec.ofNat_toNat, BitVec.setWidth_eq]

/-- `ctx'` is `ctx` with the statements laid out. -/
structure Laid (k : Cursor) (ss : List Statement) (ctx ctx' : EmitContext) : Prop where
  buf : ctx'.buf = overlayAll ctx.buf (along Statement.writes k ss)
  labelrefs : ctx'.labelrefs = ctx.labelrefs ++ along Statement.refs k ss
  labels : ctx'.labels = defineAll ctx.labels (along Statement.defs k ss)
  highest : ctx'.highestPos.toNat = max ctx.highestPos.toNat (reach k ss)
  size : ctx'.size = ctx.size
  bufLenFixed : ctx'.bufLenFixed = ctx.bufLenFixed

theorem Laid.nil (k : Cursor) (ctx : EmitContext) : Laid k [] ctx ctx := by
  refine ⟨rfl, ?_, rfl, (Nat.max_zero _).symm, rfl, rfl⟩
  exact (List.append_nil _).symm

theorem Laid.cons {k : Cursor} {s : Statement} {ss : List Statement} {ctx c1 ctx' : EmitContext}
    (h1 : Laid k [s] ctx c1) (h2 : Laid (s.next k) ss c1 ctx') : Laid k (s :: ss) ctx ctx' := by
  have single {α : Type} (f : Cursor → Statement → List α) : along f k [s] = f k s :=
    List.append_nil _
  refine ⟨?_, ?_, ?_, ?_, h2.size.trans h1.size, h2.bufLenFixed.trans h1.bufLenFixed⟩
  · rw [h2.buf, h1.buf, single, ← overlayAll_append, along]
  · rw [h2.labelrefs, h1.labelrefs, single, List.append_assoc, along]
  · rw [h2.labels, h1.labels, single, ← defineAll_append, along]
  · rw [h2.highest, h1.highest, show reach k (s :: ss) = _ from reach_cons s, Nat.max_assoc]

section
variable {k : Cursor} {ctx : EmitContext} {s : Statement}

/-- An accepted statement is laid out. -/
theorem exec_accepted (hsz : Sized ctx) (hk : AtCursor k ctx)
    (ha : s.Accepted ctx.size.toNat k ctx.labels) :
    ∃ ctx', s.exec ctx = .ok ctx' ∧ Sized ctx' ∧ AtCursor (s.next k) ctx' ∧ Laid k [s] ctx ctx' := by
  cases s with
  | call c =>
    have hfit : Fits ctx c := by rw [Fits, hk.pos]; exact ha
    have hpos : (ctx.after c).pos.toNat = k.pos + c.width := by
      rw [EmitContext.after, advance_pos, hfit.pos_eq, hk.pos]
    refine ⟨_, hsz.exec_fits hfit, hsz.after_fits hfit, ⟨hpos, ?_⟩, ⟨?_, ?_, ?_, ?_, ?_, ?_⟩⟩
    · simp [EmitContext.after, hk.offset, Statement.next]
    · simp [EmitContext.after, along, Statement.writes, overlayAll, hk.pos]
    · simp [EmitContext.after, along, Statement.refs, hk.pos_eq]
    · simp [EmitContext.after, along, Statement.defs, defineAll]
    · rw [EmitContext.after, advance_highestPos, hfit.pos_eq, hk.pos, Nat.max_comm]
      simp [reach, along, Statement.ends]
    · simp [EmitContext.after]
    · simp [EmitContext.after]
  | label name =>
    have hexec : emitLabel name ctx = .ok { ctx with
        labels := Function.update ctx.labels name (some (ctx.pos + ctx.offset)) } := by
      have hnone : ctx.labels name = none := ha
      rw [emitLabel, hnone]
    refine ⟨_, hexec, ⟨hsz.allocated, hsz.highest⟩, ⟨hk.pos, hk.offset⟩, rfl, ?_, ?_, ?_, rfl, rfl⟩
    · exact (List.append_nil _).symm
    · rw [hk.pos_eq, hk.offset]
      rfl
    · exact (Nat.max_zero _).symm
  | offset o =>
    refine ⟨_, rfl, ⟨hsz.allocated, hsz.highest⟩, ⟨hk.pos, rfl⟩, rfl, ?_, rfl, ?_, rfl, rfl⟩
    · exact (List.append_nil _).symm
    · exact (Nat.max_zero _).symm
  | at_ pos =>
    refine ⟨_, rfl, ⟨hsz.allocated, hsz.highest⟩, ⟨rfl, hk.offset⟩, rfl, ?_, rfl, ?_, rfl, rfl⟩
    · exact (List.append_nil _).symm
    · exact (Nat.max_zero _).symm
  | align n fill => exact ha.elim
  | yyerror msg => exact ha.elim

/-- A statement that is not accepted aborts, if it does not reach beyond the bound. -/
theorem exec_refused (hk : AtCursor k ctx) (hs : s.NoAlign)
    (hb : ∀ n ∈ s.ends k, n ≤ ctx.bound) (ha : ¬ s.Accepted ctx.size.toNat k ctx.labels) :
    ∃ msg, s.exec ctx = .error (.yyerror msg) := by
  cases s with
  | call c =>
    have hend : k.pos + c.width ≤ ctx.bound := hb _ (.head _)
    have hfull : ¬ k.pos + c.width ≤ ctx.size.toNat := ha
    unfold EmitContext.bound at hend
    split at hend
    · next hfixed =>
      refine ⟨_, exec_error fun _ => handleExceedingBuffer_full ?_ hfixed⟩
      rw [← hk.pos] at hend hfull
      exact (guard_iff c.width_pos hend).2 (by omega)
    · exact absurd hend hfull
  | label name =>
    have hsome : ¬ ctx.labels name = none := ha
    cases h : ctx.labels name with
    | none => exact absurd h hsome
    | some v => exact ⟨_, by rw [Statement.exec, emitLabel, h]⟩
  | offset o => exact absurd trivial ha
  | at_ pos => exact absurd trivial ha
  | align n fill => exact absurd hs id
  | yyerror msg => exact ⟨msg, rfl⟩

end

/-- **The statements** are laid out if all are accepted; if not, the run aborts. -/
theorem run_laid : ∀ {ss : List Statement} {k : Cursor} {ctx : EmitContext},
    Sized ctx → AtCursor k ctx → (∀ s ∈ ss, s.NoAlign) →
    (∀ n ∈ along Statement.ends k ss, n ≤ ctx.bound) →
    (AllAccepted ctx.size.toNat k ctx.labels ss ∧
      ∃ ctx', run Statement.exec ss ctx = .ok ctx' ∧ Sized ctx' ∧ Laid k ss ctx ctx') ∨
    (¬ AllAccepted ctx.size.toNat k ctx.labels ss ∧
      ∃ msg, run Statement.exec ss ctx = .error (.yyerror msg))
  | [], k, ctx, hsz, _, _, _ => .inl ⟨trivial, ctx, rfl, hsz, .nil k ctx⟩
  | s :: ss, k, ctx, hsz, hk, hs, hb => by
    by_cases ha : s.Accepted ctx.size.toNat k ctx.labels
    · obtain ⟨c1, hexec, hsz1, hk1, hlaid1⟩ := exec_accepted hsz hk ha
      have hlabels : c1.labels = defineAll ctx.labels (s.defs k) := by
        rw [hlaid1.labels, along, along, List.append_nil]
      have hbound : c1.bound = ctx.bound := by
        rw [EmitContext.bound, EmitContext.bound, hlaid1.size, hlaid1.bufLenFixed]
      have hb1 : ∀ n ∈ along Statement.ends (s.next k) ss, n ≤ c1.bound := by
        intro n hn
        rw [hbound]
        exact hb n (List.mem_append_right _ hn)
      rw [run_cons hexec, AllAccepted, ← hlabels, ← hlaid1.size]
      rcases run_laid hsz1 hk1 (fun s hm => hs s (.tail _ hm)) hb1 with
        ⟨hall, ctx', hrun, hsz', hlaid⟩ | ⟨hall, msg, hrun⟩
      · exact .inl ⟨⟨by rw [hlaid1.size]; exact ha, hall⟩, ctx', hrun, hsz', hlaid1.cons hlaid⟩
      · exact .inr ⟨fun h => hall h.2, msg, hrun⟩
    · obtain ⟨msg, hexec⟩ := exec_refused hk (hs s (.head _))
        (fun n hn => hb n (List.mem_append_left _ hn)) ha
      exact .inr ⟨fun h => ha h.1, msg, by simp [run, hexec]⟩

/-! ## Label resolution -/

/-- `ctx'` is `ctx` with the references resolved. -/
structure Resolved (refs : List LabelRef) (ctx ctx' : EmitContext) : Prop where
  buf : ctx'.buf = overlayAll ctx.buf (refs.map (resolvedWrite ctx.labels))
  labels : ctx'.labels = ctx.labels
  highest : ctx'.highestPos = ctx.highestPos
  size : ctx'.size = ctx.size

section
variable {ctx : EmitContext} {lr : LabelRef}

/-- The `LOADI` pair written over a reserved slot. -/
theorem resolveRef_ok (hsz : Sized ctx) (hslot : lr.pos.toNat + 8 ≤ ctx.highestPos.toNat)
    {val : Dword} (hval : ctx.labels lr.name = some val) :
    ∃ ctx', resolveRef lr ctx = .ok ctx' ∧ Sized ctx' ∧ Resolved [lr] ctx ctx' := by
  have hhigh := hsz.highest
  -- the two emissions
  let low : EmitCall := .fmtIV pfxWord lr.cond Opcode.loadi.code (lr.reg * 2) (lwordFromDword val)
  let high : EmitCall :=
    .fmtIV pfxWord lr.cond Opcode.loadi.code (lr.reg * 2 + 1) (hwordFromDword val)
  let c0 : EmitContext := { ctx with pos := lr.pos }
  have hsz0 : Sized c0 := ⟨hsz.allocated, hsz.highest⟩
  have hfit0 : Fits c0 low := by
    show lr.pos.toNat + 4 ≤ ctx.size.toNat
    omega
  have hpos1 : (c0.after low).pos.toNat = lr.pos.toNat + 4 := by
    rw [EmitContext.after, advance_pos]
    exact hfit0.pos_eq
  have hsz1 : Sized (c0.after low) := hsz0.after_fits hfit0
  have hsize1 : (c0.after low).size = ctx.size := advance_size ..
  have hfit1 : Fits (c0.after low) high := by
    rw [Fits, hpos1, hsize1]
    show lr.pos.toNat + 4 + 4 ≤ ctx.size.toNat
    omega
  have hres : emitLabelRes lr.name ctx = .ok val := by rw [emitLabelRes, hval]
  refine ⟨(c0.after low).after high, ?_, hsz1.after_fits hfit1, ?_, ?_, ?_, ?_⟩
  · rw [resolveRef, hres, ok_bind]
    show (low.exec c0 >>= fun ctx => high.exec ctx) = _
    rw [hsz0.exec_fits hfit0, ok_bind, hsz1.exec_fits hfit1]
  · have hbytes : loadiPair lr.reg lr.cond val = low.bytes ++ high.bytes := rfl
    have hnext : lr.pos.toNat + 4 = lr.pos.toNat + low.bytes.length := rfl
    simp only [List.map_cons, List.map_nil, overlayAll, resolvedWrite, hval, Option.getD_some]
    rw [hbytes, ← overlay_overlay, ← hnext, ← hpos1]
    simp only [EmitContext.after, advance_buf]
    rfl
  · simp [EmitContext.after, c0]
  · apply BitVec.eq_of_toNat_eq
    have h1 : (c0.after low).highestPos.toNat = max (lr.pos.toNat + 4) ctx.highestPos.toNat := by
      rw [EmitContext.after, advance_highestPos, hfit0.pos_eq]
      rfl
    rw [EmitContext.after, advance_highestPos, hfit1.pos_eq, hpos1]
    show max (lr.pos.toNat + 4 + 4) (c0.after low).highestPos.toNat = _
    rw [h1]
    omega
  · simp [EmitContext.after, c0]

theorem resolveRef_undefined (hval : ctx.labels lr.name = none) :
    ∃ msg, resolveRef lr ctx = .error (.yyerror msg) :=
  ⟨_, by rw [resolveRef, emitLabelRes, hval, error_bind]⟩

end

/-- **The references** are resolved if all are defined; if not, the resolution aborts. -/
theorem run_resolved : ∀ {refs : List LabelRef} {ctx : EmitContext}, Sized ctx →
    (∀ lr ∈ refs, lr.pos.toNat + 8 ≤ ctx.highestPos.toNat) →
    ((∀ lr ∈ refs, (ctx.labels lr.name).isSome) ∧
      ∃ ctx', run resolveRef refs ctx = .ok ctx' ∧ Resolved refs ctx ctx') ∨
    (¬ (∀ lr ∈ refs, (ctx.labels lr.name).isSome) ∧
      ∃ msg, run resolveRef refs ctx = .error (.yyerror msg))
  | [], ctx, _, _ => .inl ⟨nofun, ctx, rfl, rfl, rfl, rfl, rfl⟩
  | lr :: refs, ctx, hsz, hslots => by
    cases hval : ctx.labels lr.name with
    | none =>
      obtain ⟨msg, hexec⟩ := resolveRef_undefined hval
      refine .inr ⟨fun h => ?_, msg, by simp [run, hexec]⟩
      have := h lr (.head _)
      rw [hval] at this
      cases this
    | some val =>
      obtain ⟨c1, hexec, hsz1, hr1⟩ := resolveRef_ok hsz (hslots lr (.head _)) hval
      have hslots1 : ∀ lr ∈ refs, lr.pos.toNat + 8 ≤ c1.highestPos.toNat := by
        intro lr' hm
        rw [hr1.highest]
        exact hslots lr' (.tail _ hm)
      rw [run_cons hexec]
      have hhead : (ctx.labels lr.name).isSome := by rw [hval]; rfl
      rcases run_resolved hsz1 hslots1 with ⟨hall, ctx', hrun, hr⟩ | ⟨hall, msg, hrun⟩
      · rw [hr1.labels] at hall
        refine .inl ⟨fun lr' hm => ?_, ctx', hrun, ?_, hr.labels.trans hr1.labels,
          hr.highest.trans hr1.highest, hr.size.trans hr1.size⟩
        · rcases List.mem_cons.1 hm with rfl | hm
          · exact hhead
          · exact hall lr' hm
        · rw [hr.buf, hr1.buf, hr1.labels, ← overlayAll_append]
          rfl
      · rw [hr1.labels] at hall
        exact .inr ⟨fun h => hall fun lr' hm => h lr' (.tail _ hm), msg, hrun⟩

/-! ## The image -/

/-- **The image** is the program's layout if the program assembles; if not, the assembler aborts. -/
theorem imageOf_laid {ss : List Statement} {k : Cursor} {ctx : EmitContext} (hsz : Sized ctx)
    (hk : AtCursor k ctx) (hnew : ctx.labelrefs = [] ∧ ctx.highestPos = 0)
    (hs : ∀ s ∈ ss, s.NoAlign) (hb : ∀ n ∈ along Statement.ends k ss, n ≤ ctx.bound) :
    (Assembles ctx.size.toNat k ctx.labels ss ∧ ∃ img, imageOf ss ctx = .ok img ∧
      img.length = reach k ss ∧
      ∀ i, i < reach k ss → img[i]? = some (laidByte k ctx.labels ss (ctx.buf i) i)) ∨
    (¬ Assembles ctx.size.toNat k ctx.labels ss ∧ ∃ msg, imageOf ss ctx = .error (.yyerror msg)) := by
  rcases run_laid hsz hk hs hb with ⟨hall, c1, hrun, hsz1, hlaid⟩ | ⟨hall, msg, hrun⟩
  · have hrefs : c1.labelrefs = along Statement.refs k ss := by
      rw [hlaid.labelrefs, hnew.1, List.nil_append]
    have hhigh : c1.highestPos.toNat = reach k ss := by
      rw [hlaid.highest, hnew.2]
      exact Nat.zero_max _
    have hslots : ∀ lr ∈ along Statement.refs k ss, lr.pos.toNat + 8 ≤ c1.highestPos.toNat := by
      intro lr hm
      obtain ⟨p, hp, hend⟩ := refs_ends hm
      have hle := le_reach hend
      have hlt := c1.highestPos.isLt
      rw [hhigh] at hlt ⊢
      rw [hp, BitVec.toNat_ofNat, Nat.mod_eq_of_lt (by omega)]
      exact hle
    rcases run_resolved hsz1 hslots with ⟨hdef, c2, hrun2, hres⟩ | ⟨hdef, msg, hrun2⟩
    · rw [hlaid.labels] at hdef
      have hhigh2 : c2.highestPos.toNat = reach k ss := by rw [hres.highest, hhigh]
      have himg : imageOf ss ctx = .ok (writeFile c2) := by
        rw [imageOf, hrun, ok_bind, labelResolution, hrefs, hrun2]
        rfl
      refine .inl ⟨⟨hall, hdef⟩, _, himg, ?_, fun i hi => ?_⟩
      · rw [writeFile, List.length_ofFn, hhigh2]
      · rw [writeFile, List.getElem?_ofFn, dif_pos (by rw [hhigh2]; exact hi)]
        show some (c2.buf i) = _
        rw [hres.buf, overlayAll_apply, hlaid.buf, overlayAll_apply, hlaid.labels]
        rfl
    · rw [hlaid.labels] at hdef
      refine .inr ⟨fun h => hdef h.2, msg, ?_⟩
      rw [imageOf, hrun, ok_bind, labelResolution, hrefs, hrun2]
      rfl
  · exact .inr ⟨fun h => hall h.1, msg, by rw [imageOf, hrun]; rfl⟩

end Assembler
