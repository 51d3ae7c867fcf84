import Emulathor.Assembler.Proof.DynamicBuffer
import Emulathor.Assembler.Proof.Straight

/-!
# Programs in a growing buffer

A buffer that grows keeps what has been emitted: it clears from the position on (`exec_keeps`). So a
program without `.at` is assembled to the bytes of its calls side by side also where it outgrows the
first block, as long as no call straddles a block's end (`Roomy`, `assemble_roomy`); and one that is
assembled has met no such call (`roomy_of_assemble`).
-/

namespace Assembler

open Common Lib

/-! ## What a call keeps -/

section
variable {ctx ctx' : EmitContext}

theorem putBytes_keeps : ∀ {bs : List Byte} {ctx : EmitContext}, putBytes bs ctx = .ok ctx' →
    ctx'.labels = ctx.labels ∧ ctx'.offset = ctx.offset ∧ ctx'.labelrefs = ctx.labelrefs
  | [], ctx, h => by
    cases h
    exact ⟨rfl, rfl, rfl⟩
  | b :: bs, ctx, h => by
    obtain ⟨c1, hput, hrest⟩ := bind_eq_ok.1 h
    unfold putByte at hput
    split at hput <;> cases hput
    have hkeeps := putBytes_keeps hrest
    exact hkeeps

/-- A request keeps the labels and what is in front of the position. -/
theorem handleExceedingBuffer_keeps {d : Dword} (h : handleExceedingBuffer d ctx = .ok ctx') :
    (ctx'.labels = ctx.labels ∧ ctx'.offset = ctx.offset ∧ ctx'.labelrefs = ctx.labelrefs) ∧
      ∀ i < ctx.pos.toNat, ctx'.buf i = ctx.buf i := by
  rcases handleExceedingBuffer_cases d ctx with hc | hc | ⟨msg, hc⟩ | ⟨i, hc⟩
  · cases hc.symm.trans h
    exact ⟨⟨rfl, rfl, rfl⟩, fun _ _ => rfl⟩
  · cases hc.symm.trans h
    refine ⟨⟨rfl, rfl, rfl⟩, fun i hi => if_neg fun hin => ?_⟩
    exact Nat.not_lt.2 hin.1 hi
  · cases hc.symm.trans h
  · cases hc.symm.trans h

/-- **A call** keeps the labels and what is in front of it, and records its reference. -/
theorem exec_keeps {c : EmitCall} (h : c.exec ctx = .ok ctx')
    (hno : ctx.pos.toNat + c.width ≤ 2 ^ 32) :
    (ctx'.labels = ctx.labels ∧ ctx'.offset = ctx.offset ∧
      ctx'.labelrefs = ctx.labelrefs ++ c.refs ctx.pos) ∧
      ∀ i < ctx.pos.toNat, ctx'.buf i = ctx.buf i := by
  rcases c.bytes_ne_nil_or with hb | ⟨name, reg, cond, rfl⟩
  · have hrefs : c.refs ctx.pos = [] := by
      cases c with
      | labelRef name reg cond => exact absurd rfl hb
      | _ => rfl
    rw [EmitCall.exec_eq hb] at h
    rw [EmitCall.width_eq hb] at hno
    obtain ⟨c1, hroom, h⟩ := bind_eq_ok.1 h
    obtain ⟨c2, hput, h⟩ := bind_eq_ok.1 h
    cases h
    obtain ⟨⟨hlabels, hoffset, hlabelrefs⟩, hbuf⟩ := handleExceedingBuffer_keeps hroom
    obtain ⟨hlabels', hoffset', hlabelrefs'⟩ := putBytes_keeps hput
    have hpos := handleExceedingBuffer_pos hroom
    rw [setHighestPosition_eq, hrefs, List.append_nil]
    refine ⟨⟨hlabels'.trans hlabels, hoffset'.trans hoffset, hlabelrefs'.trans hlabelrefs⟩,
      fun i hi => ?_⟩
    have hi32 : (BitVec.ofNat 32 i).toNat = i := by
      rw [BitVec.toNat_ofNat, Nat.mod_eq_of_lt (by omega)]
    have hout := (putBytes_buf hput (by omega)).2 (BitVec.ofNat 32 i) fun j hj heq => by
      have := congrArg BitVec.toNat heq
      rw [hi32, hpos, toNat_add_ofNat (by omega)] at this
      omega
    rw [hi32] at hout
    exact hout.trans (hbuf i hi)
  · rw [EmitCall.exec, emitLabelRef_eq] at h
    obtain ⟨c1, hroom, h⟩ := bind_eq_ok.1 h
    cases h
    obtain ⟨⟨hlabels, hoffset, hlabelrefs⟩, hbuf⟩ := handleExceedingBuffer_keeps hroom
    rw [advance_labels, advance_offset, advance_labelrefs, advance_buf]
    exact ⟨⟨hlabels, hoffset, hlabelrefs⟩, hbuf⟩

end

/-! ## Statements in step -/

/-- The calls of a program. -/
def callsOf : List Statement → List EmitCall
  | [] => []
  | .call c :: ss => c :: callsOf ss
  | _ :: ss => callsOf ss

/-- `ctx'` is `ctx` with the bytes and labels of the statements. -/
structure Emits (k : Cursor) (ss : List Statement) (ctx ctx' : EmitContext) : Prop where
  labels : ctx'.labels = defineAll ctx.labels (along Statement.defs k ss)
  labelrefs : ctx'.labelrefs = ctx.labelrefs ++ along Statement.refs k ss
  before : ∀ i < k.pos, ctx'.buf i = ctx.buf i
  bytes : ∀ i b, lastWriter (along Statement.writes k ss) i = some b → ctx'.buf i = b

theorem Emits.nil (k : Cursor) (ctx : EmitContext) : Emits k [] ctx ctx where
  labels := rfl
  labelrefs := (List.append_nil _).symm
  before _ _ := rfl
  bytes _ _ h := by cases h

theorem Emits.cons {k : Cursor} {s : Statement} {ss : List Statement} {ctx c1 ctx' : EmitContext}
    (hs : s.Straight) (h1 : Emits k [s] ctx c1) (h2 : Emits (s.next k) ss c1 ctx') :
    Emits k (s :: ss) ctx ctx' := by
  have single {α : Type} (f : Cursor → Statement → List α) : along f k [s] = f k s :=
    List.append_nil _
  have hpos := @next_pos k s hs
  refine ⟨?_, ?_, fun i hi => ?_, fun i b hb => ?_⟩
  · rw [h2.labels, h1.labels, single, ← defineAll_append, along]
  · rw [h2.labelrefs, h1.labelrefs, single, List.append_assoc, along]
  · rw [h2.before i (by omega), h1.before i hi]
  · rw [along, lastWriter_append, Option.or_eq_some_iff] at hb
    rcases hb with hb | ⟨-, hb⟩
    · exact h2.bytes i b hb
    · rw [h2.before i ?_]
      · exact h1.bytes i b (by rw [single]; exact hb)
      · -- a statement writes in front of the next cursor
        cases s with
        | call c =>
          have hle : c.bytes.length ≤ c.width := by
            rcases c.bytes_ne_nil_or with hne | ⟨name, reg, cond, rfl⟩
            · exact Nat.le_of_eq (EmitCall.width_eq hne).symm
            · exact Nat.zero_le _
          simp only [Statement.writes, lastWriter, Option.none_or, cell] at hb
          rw [hpos]
          simp only [Statement.width]
          split at hb
          · obtain ⟨hlt, -⟩ := List.getElem?_eq_some_iff.1 hb
            omega
          · cases hb
        | _ => cases hb

section
variable {k : Cursor} {ctx : EmitContext} {c : EmitCall}

/-- An aligned call in step. -/
theorem InStep.exec_emits (h : InStep k.pos ctx) (hk : AtCursor k ctx)
    (ha : Aligned k.pos c.width) :
    ∃ ctx', c.exec ctx = .ok ctx' ∧ InStep (k.pos + c.width) ctx' ∧
      AtCursor (Statement.next k (.call c)) ctx' ∧ Emits k [.call c] ctx ctx' := by
  obtain ⟨ctx', hexec, h'⟩ := h.exec_ok ha
  have hw := c.width_le
  have htop := ha.2
  simp only [dynamicBufferSize] at htop
  obtain ⟨⟨hlabels, hoffset, hlabelrefs⟩, hbuf⟩ := exec_keeps hexec (by rw [h.pos]; omega)
  refine ⟨ctx', hexec, h', ⟨h'.pos, hoffset.trans hk.offset⟩, hlabels, ?_, ?_, fun i b hb => ?_⟩
  · rw [hlabelrefs, hk.pos_eq]
    exact congrArg (ctx.labelrefs ++ ·) (List.append_nil _).symm
  · rw [← h.pos]
    exact hbuf
  · simp only [along, Statement.writes, List.append_nil, lastWriter, Option.none_or, cell] at hb
    split at hb
    · next hge =>
      obtain ⟨hlt, rfl⟩ := List.getElem?_eq_some_iff.1 hb
      have hne : c.bytes ≠ [] := List.ne_nil_of_length_pos (by omega)
      have hlen := EmitCall.width_eq hne
      have := exec_buf hexec (i - k.pos) hlt
      rwa [toNat_add_ofNat (by rw [h.pos]; omega), h.pos, Nat.add_sub_cancel' hge] at this
    · cases hb

end

/-- **Statements in step**: aligned, they are emitted if all are accepted; else the run aborts. -/
theorem run_inStep {size : Nat} : ∀ {ss : List Statement} {k : Cursor} {ctx : EmitContext},
    InStep k.pos ctx → AtCursor k ctx → (∀ s ∈ ss, s.Straight) → AllAligned k.pos (callsOf ss) →
    k.pos + widthOf ss ≤ size →
    (AllAccepted size k ctx.labels ss ∧ ∃ ctx', run Statement.exec ss ctx = .ok ctx' ∧
      InStep (k.pos + widthOf ss) ctx' ∧ Emits k ss ctx ctx') ∨
    (¬ AllAccepted size k ctx.labels ss ∧
      ∃ msg, run Statement.exec ss ctx = .error (.yyerror msg))
  | [], k, ctx, h, _, _, _, _ => .inl ⟨trivial, ctx, rfl, h, .nil k ctx⟩
  | s :: ss, k, ctx, h, hk, hs, ha, hfit => by
    have hss : ∀ s ∈ ss, s.Straight := fun s hm => hs s (.tail _ hm)
    have hpos := @next_pos k s (hs s (.head _))
    rw [widthOf_cons] at hfit
    -- what follows a statement that is executed
    have hrest {c1 : EmitContext} (hacc : s.Accepted size k ctx.labels)
        (hexec : s.exec ctx = .ok c1) (h1 : InStep (s.next k).pos c1) (hk1 : AtCursor (s.next k) c1)
        (he1 : Emits k [s] ctx c1) (ha1 : AllAligned (s.next k).pos (callsOf ss)) :
        (AllAccepted size k ctx.labels (s :: ss) ∧ ∃ ctx',
          run Statement.exec (s :: ss) ctx = .ok ctx' ∧
            InStep (k.pos + widthOf (s :: ss)) ctx' ∧ Emits k (s :: ss) ctx ctx') ∨
        (¬ AllAccepted size k ctx.labels (s :: ss) ∧
          ∃ msg, run Statement.exec (s :: ss) ctx = .error (.yyerror msg)) := by
      have hlabels : c1.labels = defineAll ctx.labels (s.defs k) := by
        rw [he1.labels, along, along, List.append_nil]
      rw [run_cons hexec, AllAccepted, ← hlabels, widthOf_cons, ← Nat.add_assoc, ← hpos]
      rcases @run_inStep size ss _ _ h1 hk1 hss ha1 (by omega) with
        ⟨hall, ctx', hrun, h', he⟩ | ⟨hall, msg, hrun⟩
      · exact .inl ⟨⟨hacc, hall⟩, ctx', hrun, h', he1.cons (hs s (.head _)) he⟩
      · exact .inr ⟨fun h => hall h.2, msg, hrun⟩
    cases s with
    | call c =>
      obtain ⟨hc, ha1⟩ := ha
      obtain ⟨c1, hexec, h1, hk1, he1⟩ := h.exec_emits hk hc
      refine hrest ?_ hexec h1 hk1 he1 ha1
      show k.pos + c.width ≤ size
      simp only [Statement.width] at hfit
      omega
    | label name =>
      cases hn : ctx.labels name with
      | none =>
        refine @hrest { ctx with
          labels := Function.update ctx.labels name (some (ctx.pos + ctx.offset)) } hn ?_
          ⟨h.dynamic, h.pos, h.highest, h.allocated, h.size⟩ ⟨hk.pos, hk.offset⟩
          ⟨?_, (List.append_nil _).symm, fun _ _ => rfl, fun _ _ hb => by cases hb⟩ ha
        · rw [Statement.exec, emitLabel, hn]
        · rw [hk.pos_eq, hk.offset]
          rfl
      | some v =>
        refine .inr ⟨fun hall => ?_, _, by rw [run, Statement.exec, emitLabel, hn]; rfl⟩
        have : ctx.labels name = none := hall.1
        rw [hn] at this
        cases this
    | offset o =>
      exact hrest trivial rfl ⟨h.dynamic, h.pos, h.highest, h.allocated, h.size⟩ ⟨hk.pos, rfl⟩
        ⟨rfl, (List.append_nil _).symm, fun _ _ => rfl, fun _ _ hb => by cases hb⟩ ha
    | _ => exact (hs _ (.head _)).elim

/-- A run in step that does not stop has met aligned calls only. -/
theorem aligned_of_run : ∀ {ss : List Statement} {p : Nat} {ctx ctx' : EmitContext},
    InStep p ctx → (∀ s ∈ ss, s.Straight) → run Statement.exec ss ctx = .ok ctx' →
    AllAligned p (callsOf ss)
  | [], _, _, _, _, _, _ => trivial
  | s :: ss, p, ctx, ctx', h, hs, hrun => by
    have hss : ∀ s ∈ ss, s.Straight := fun s hm => hs s (.tail _ hm)
    obtain ⟨c1, hexec, hrest⟩ := bind_eq_ok.1 hrun
    cases s with
    | call c =>
      by_cases ha : Aligned p c.width
      · obtain ⟨c1', hexec', h1⟩ := h.exec_ok ha
        cases hexec'.symm.trans hexec
        exact ⟨ha, aligned_of_run h1 hss hrest⟩
      · obtain ⟨i, -, hfault⟩ := h.exec_fault ha
        cases hfault.symm.trans hexec
    | label name =>
      have hlabel : emitLabel name ctx = .ok c1 := hexec
      unfold emitLabel at hlabel
      split at hlabel <;> cases hlabel
      have h1 : InStep p { ctx with
          labels := Function.update ctx.labels name (some (ctx.pos + ctx.offset)) } :=
        ⟨h.dynamic, h.pos, h.highest, h.allocated, h.size⟩
      exact @aligned_of_run ss p _ ctx' h1 hss hrest
    | offset o =>
      cases hexec
      have h1 : InStep p { ctx with offset := o } :=
        ⟨h.dynamic, h.pos, h.highest, h.allocated, h.size⟩
      exact @aligned_of_run ss p _ ctx' h1 hss hrest
    | _ => exact (hs _ (.head _)).elim

/-! ## Images -/

/-- The context `main` starts a growing buffer with. -/
def growing (heap : Nat → Byte) : EmitContext :=
  { emitCreateContext (BitVec.ofNat 32 dynamicBufferSize) false heap with offset := 4096 }

theorem inStep_growing (heap : Nat → Byte) : InStep 0 (growing heap) := ⟨rfl, rfl, rfl, rfl, rfl⟩

/-- What is in step below the last block is of its size. -/
theorem InStep.sized {p : Nat} {ctx : EmitContext} (h : InStep p ctx)
    (hp : p + dynamicBufferSize ≤ 2 ^ 32) : Sized ctx := by
  have hsize := h.size_toNat
  have halloc := h.allocated
  unfold blockEnd at hsize halloc
  simp only [dynamicBufferSize] at hp hsize halloc
  rw [Nat.mod_eq_of_lt (by omega)] at hsize
  refine ⟨by rw [hsize, halloc], ?_⟩
  rw [h.highest, h.pos, hsize]
  omega

variable {size : Dword} {fixedSize : Bool} {heap : Nat → Byte} {ss : List Statement}
  {img : List Byte}

/-- The image of a straight program that has been emitted. -/
theorem writeFile_emits {ctx ctx' : EmitContext} {t : String → Option Dword}
    (hs : ∀ s ∈ ss, s.Straight) (hlt : widthOf ss < 2 ^ 32) {c0 : EmitContext}
    (he : Emits start ss c0 ctx) (hbuf : ctx'.buf
      = overlayAll ctx.buf ((along Statement.refs start ss).map (resolvedWrite t)))
    (hhigh : ctx'.highestPos.toNat = widthOf ss) :
    writeFile ctx' = ss.flatMap (Statement.image t) := by
  have hstart : start.pos = 0 := rfl
  apply List.ext_getElem?
  intro i
  by_cases hi : i < widthOf ss
  · have hlast := @lastWriter_straight t (ctx.buf i) ss start hs (by omega) i (by omega) (by omega)
    have hold : (lastWriter (along Statement.writes start ss) i).getD (ctx.buf i) = ctx.buf i := by
      cases hw : lastWriter (along Statement.writes start ss) i with
      | none => rfl
      | some b => exact (he.bytes i b hw).symm
    rw [hold, hstart, Nat.sub_zero] at hlast
    rw [writeFile, List.getElem?_ofFn, dif_pos (by rw [hhigh]; exact hi), ← hlast, hbuf,
      overlayAll_apply]
  · rw [List.getElem?_eq_none (by rw [writeFile, List.length_ofFn]; omega),
      List.getElem?_eq_none (by rw [image_length]; omega)]

/-- **Assembling a straight program** in a growing buffer, its calls aligned. -/
theorem assemble_growing (hs : ∀ s ∈ ss, s.Straight) (ha : AllAligned 0 (callsOf ss))
    (hlt : widthOf ss + dynamicBufferSize ≤ 2 ^ 32) :
    (Resolvable ss ∧
      assemble size false heap ss = .ok (ss.flatMap (Statement.image (labelTable ss)))) ∨
    (¬ Resolvable ss ∧ ∃ msg, assemble size false heap ss = .error (.yyerror msg)) := by
  have hstart : start.pos + widthOf ss = widthOf ss := Nat.zero_add _
  have hlt' : widthOf ss < 2 ^ 32 := by
    simp only [dynamicBufferSize] at hlt
    omega
  have hlabels : (growing heap).labels = fun _ => none := rfl
  rw [← @assembles_iff (widthOf ss) ss start hs (Nat.le_of_eq hstart), Assembles]
  show (_ ∧ imageOf ss (growing heap) = _) ∨ (_ ∧ ∃ msg, imageOf ss (growing heap) = _)
  rcases @run_inStep (widthOf ss) ss start (growing heap) (inStep_growing heap) ⟨rfl, rfl⟩ hs ha
    (Nat.le_of_eq hstart) with ⟨hall, c1, hrun, h1, he⟩ | ⟨hall, msg, hrun⟩
  · rw [hstart] at h1
    rw [hlabels] at hall
    have hrefs : c1.labelrefs = along Statement.refs start ss := by
      rw [he.labelrefs]
      rfl
    have htable : c1.labels = labelTable ss := he.labels
    have hhigh : c1.highestPos.toNat = widthOf ss := by rw [h1.highest, h1.pos]
    have hslots : ∀ lr ∈ along Statement.refs start ss,
        lr.pos.toNat + 8 ≤ c1.highestPos.toNat := by
      intro lr hm
      obtain ⟨p, hp, hend⟩ := refs_ends hm
      have hle := ends_le hs _ hend
      rw [hstart] at hle
      rw [hhigh, hp, BitVec.toNat_ofNat, Nat.mod_eq_of_lt (by omega)]
      exact hle
    rcases run_resolved (h1.sized hlt) hslots with ⟨hdef, c2, hrun2, hres⟩ | ⟨hdef, msg, hrun2⟩
    · rw [htable] at hdef
      refine .inl ⟨⟨hall, hdef⟩, ?_⟩
      rw [imageOf, hrun, ok_bind, labelResolution, hrefs, hrun2, ok_bind]
      refine congrArg Except.ok (writeFile_emits hs hlt' he ?_ ?_)
      · rw [hres.buf, htable]
      · rw [hres.highest, hhigh]
    · rw [htable] at hdef
      refine .inr ⟨fun h => hdef h.2, msg, ?_⟩
      rw [imageOf, hrun, ok_bind, labelResolution, hrefs, hrun2]
      rfl
  · rw [hlabels] at hall
    exact .inr ⟨fun h => hall h.1, msg, by rw [imageOf, hrun]; rfl⟩

/-! ## Either buffer -/

/-- The buffer has room for the program: a fixed one is as large, a growing one meets no call that
straddles the end of a block. -/
def Roomy (size : Dword) (fixedSize : Bool) (ss : List Statement) : Prop :=
  if fixedSize then widthOf ss ≤ size.toNat
  else AllAligned 0 (callsOf ss) ∧ widthOf ss + dynamicBufferSize ≤ 2 ^ 32

/-- **Assembling a straight program** where there is room for it. -/
theorem assemble_roomy (hs : ∀ s ∈ ss, s.Straight) (hroom : Roomy size fixedSize ss) :
    (Resolvable ss ∧
      assemble size fixedSize heap ss = .ok (ss.flatMap (Statement.image (labelTable ss)))) ∨
    (¬ Resolvable ss ∧ ∃ msg, assemble size fixedSize heap ss = .error (.yyerror msg)) := by
  cases fixedSize with
  | true => exact assemble_straight hs hroom
  | false => exact assemble_growing hs hroom.1 hroom.2

/-- A program no wider than the buffer `main` starts with has room. -/
theorem roomy_of_le (h : widthOf ss ≤ (bufferSize size fixedSize).toNat) :
    Roomy size fixedSize ss := by
  have haligned : ∀ {ss : List Statement} {p : Nat}, p + widthOf ss ≤ dynamicBufferSize →
      AllAligned p (callsOf ss) := by
    intro ss
    induction ss with
    | nil => exact fun _ => trivial
    | cons s ss ih =>
      intro p hp
      rw [widthOf_cons] at hp
      cases s with
      | call c =>
        have hw := c.width_pos
        simp only [Statement.width, dynamicBufferSize] at hp
        refine ⟨?_, ih (by simp only [dynamicBufferSize]; omega)⟩
        unfold Aligned dynamicBufferSize
        omega
      | _ => exact ih (by simp only [Statement.width] at hp; omega)
  cases fixedSize with
  | true => exact h
  | false =>
    have h : widthOf ss ≤ dynamicBufferSize := h
    refine ⟨haligned (by omega), ?_⟩
    simp only [dynamicBufferSize] at h ⊢
    omega

/-- The buffer has room for `n` bytes of words. -/
def WordRoom (size : Dword) (fixedSize : Bool) (n : Nat) : Prop :=
  if fixedSize then n ≤ size.toNat else n + dynamicBufferSize ≤ 2 ^ 32

instance (n : Nat) : Decidable (WordRoom size fixedSize n) :=
  inferInstanceAs (Decidable (if fixedSize then n ≤ size.toNat else n + dynamicBufferSize ≤ 2 ^ 32))

theorem WordRoom.lt {n : Nat} (h : WordRoom size fixedSize n) : n < 2 ^ 32 := by
  cases fixedSize with
  | true => exact Nat.lt_of_le_of_lt h size.isLt
  | false =>
    have h : n + dynamicBufferSize ≤ 2 ^ 32 := h
    simp only [dynamicBufferSize] at h
    omega

theorem Roomy.words (h : Roomy size fixedSize ss) : WordRoom size fixedSize (widthOf ss) := by
  cases fixedSize with
  | true => exact h
  | false => exact h.2

/-- Words do not straddle the end of a block. -/
theorem roomy_words (hw : ∀ c ∈ callsOf ss, c.width = 4)
    (h : WordRoom size fixedSize (widthOf ss)) : Roomy size fixedSize ss := by
  have haligned : ∀ {ss : List Statement} {p : Nat}, (∀ c ∈ callsOf ss, c.width = 4) → p % 4 = 0 →
      p + widthOf ss + dynamicBufferSize ≤ 2 ^ 32 → AllAligned p (callsOf ss) := by
    intro ss
    induction ss with
    | nil => exact fun _ _ _ => trivial
    | cons s ss ih =>
      intro p hw hp hlt
      rw [widthOf_cons] at hlt
      cases s with
      | call c =>
        obtain ⟨hc, hw⟩ := List.forall_mem_cons.1 hw
        simp only [Statement.width, hc, dynamicBufferSize] at hlt
        refine ⟨?_, ih hw (by omega) (by simp only [hc, dynamicBufferSize]; omega)⟩
        unfold Aligned dynamicBufferSize
        omega
      | _ => exact ih hw hp (by simp only [Statement.width] at hlt; omega)
  cases fixedSize with
  | true => exact h
  | false =>
    have h : widthOf ss + dynamicBufferSize ≤ 2 ^ 32 := h
    exact ⟨haligned hw rfl (by omega), h⟩

/-- **A program that is assembled** had room. -/
theorem roomy_of_assemble (hs : ∀ s ∈ ss, s.Straight)
    (hlt : widthOf ss + dynamicBufferSize ≤ 2 ^ 32)
    (h : assemble size fixedSize heap ss = .ok img) : Roomy size fixedSize ss := by
  have hstart : start.pos + widthOf ss = widthOf ss := Nat.zero_add _
  cases fixedSize with
  | false =>
    obtain ⟨c1, hrun, -⟩ := bind_eq_ok.1 h
    exact ⟨aligned_of_run (inStep_growing heap) hs hrun, hlt⟩
  | true =>
    have hsz : Sized { emitCreateContext size true heap with offset := 4096 } :=
      ⟨rfl, Nat.zero_le _⟩
    have hna : ∀ s ∈ ss, s.NoAlign := by
      intro s hm
      have := hs s hm
      cases s <;> trivial
    have hb : ∀ n ∈ along Statement.ends start ss, n ≤ 2 ^ 32 := by
      intro n hn
      have := ends_le hs n hn
      simp only [dynamicBufferSize] at hlt
      omega
    rcases imageOf_laid hsz ⟨rfl, rfl⟩ ⟨rfl, rfl⟩ hna hb with ⟨⟨hall, -⟩, -⟩ | ⟨-, msg, herr⟩
    · have hreach := @reach_straight ss start hs
      have hle := reach_le hall.ends_le
      rw [hstart] at hreach
      show widthOf ss ≤ size.toNat
      have : start.pos = 0 := rfl
      have hle : reach start ss ≤ size.toNat := hle
      omega
    · cases herr.symm.trans h

end Assembler
