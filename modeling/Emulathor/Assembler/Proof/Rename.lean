import Mathlib.Data.List.Forall2
import Mathlib.Data.Set.Function
import Mathlib.Logic.Equiv.Basic
import Emulathor.Assembler.Proof.Straight

/-!
# Renaming labels

Labels matter only for which reference means which definition. `assemble_rename`: a program whose
labels are renamed one-to-one is assembled to the same image, or is stopped where the program is, by
the same message but for the label's name. Directives, both kinds of buffer and what the heap holds
included: the emitters never look at the table of labels (`emitBytes_withLabels`).
-/

namespace Assembler

open Common Lib

/-! ## Names -/

def EmitCall.rename (f : String → String) : EmitCall → EmitCall
  | .labelRef name reg cond => .labelRef (f name) reg cond
  | c => c

def Statement.rename (f : String → String) : Statement → Statement
  | .call c => .call (c.rename f)
  | .label name => .label (f name)
  | s => s

def LabelRef.rename (f : String → String) (lr : LabelRef) : LabelRef := { lr with name := f lr.name }

/-- The statement's labels are among the names. -/
def Statement.Names (names : Set String) : Statement → Prop
  | .call (.labelRef name _ _) | .label name => name ∈ names
  | _ => True

theorem names_of_mem {ss : List Statement} :
    ∀ s ∈ ss, s.Names {name | name ∈ labelNames ss ∨ name ∈ refNames ss} := by
  induction ss with
  | nil => exact List.forall_mem_nil _
  | cons s ss ih =>
    have hrest : ∀ s' ∈ ss,
        s'.Names {name | name ∈ labelNames (s :: ss) ∨ name ∈ refNames (s :: ss)} := by
      intro s' hs'
      have hmono {name : String} (h : name ∈ labelNames ss ∨ name ∈ refNames ss) :
          name ∈ labelNames (s :: ss) ∨ name ∈ refNames (s :: ss) := by
        cases s with
        | call c =>
          cases c with
          | labelRef name' reg cond => exact h.imp_right (.tail _)
          | _ => exact h
        | label name' => exact h.imp_left (.tail _)
        | _ => exact h
      have h := ih s' hs'
      cases s' with
      | call c =>
        cases c with
        | labelRef name reg cond => exact hmono h
        | _ => trivial
      | label name => exact hmono h
      | _ => trivial
    refine List.forall_mem_cons.2 ⟨?_, hrest⟩
    cases s with
    | call c =>
      cases c with
      | labelRef name reg cond => exact .inr (.head _)
      | _ => trivial
    | label name => exact .inl (.head _)
    | _ => trivial

/-! ## The emitters and the labels -/

section
variable (labels : String → Option Dword) (labelrefs : List LabelRef)

/-- The context with other labels and references. -/
def EmitContext.withLabels (ctx : EmitContext) : EmitContext := { ctx with labels, labelrefs }

variable {labels labelrefs} {ctx : EmitContext}

theorem handleExceedingBuffer_withLabels (n : Dword) :
    handleExceedingBuffer n (ctx.withLabels labels labelrefs)
      = EmitContext.withLabels labels labelrefs <$> handleExceedingBuffer n ctx := by
  unfold handleExceedingBuffer
  dsimp only
  rw [apply_ite (EmitContext.withLabels labels labelrefs <$> ·),
    apply_ite (EmitContext.withLabels labels labelrefs <$> ·),
    apply_ite (EmitContext.withLabels labels labelrefs <$> ·)]
  rfl

theorem putBytes_withLabels (bs : List Byte) :
    putBytes bs (ctx.withLabels labels labelrefs)
      = EmitContext.withLabels labels labelrefs <$> putBytes bs ctx := by
  induction bs generalizing ctx with
  | nil => rfl
  | cons b bs ih =>
    have hput : putByte b (ctx.withLabels labels labelrefs)
        = EmitContext.withLabels labels labelrefs <$> putByte b ctx := by
      unfold putByte
      rw [apply_ite (EmitContext.withLabels labels labelrefs <$> ·)]
      rfl
    unfold putBytes
    rw [hput]
    cases putByte b ctx with
    | error e => rfl
    | ok c1 => exact ih

theorem setHighestPosition_withLabels :
    setHighestPosition (ctx.withLabels labels labelrefs)
      = (setHighestPosition ctx).withLabels labels labelrefs := by
  unfold setHighestPosition
  rw [apply_ite (EmitContext.withLabels labels labelrefs)]
  rfl

/-- **The emitters do not look at the labels.** -/
theorem emitBytes_withLabels (bs : List Byte) :
    emitBytes bs (ctx.withLabels labels labelrefs)
      = EmitContext.withLabels labels labelrefs <$> emitBytes bs ctx := by
  unfold emitBytes
  rw [handleExceedingBuffer_withLabels]
  cases handleExceedingBuffer (BitVec.ofNat 32 bs.length) ctx with
  | error e => rfl
  | ok c1 =>
    simp only [map_ok, ok_bind]
    rw [putBytes_withLabels]
    cases putBytes bs c1 with
    | error e => rfl
    | ok c2 => exact congrArg Except.ok setHighestPosition_withLabels

end

/-! ## Contexts alike -/

/-- Both stop alike, the label a message names renamed. -/
inductive SameStop (f : String → String) : Stop → Stop → Prop
  | same (e : Stop) : SameStop f e e
  | used (name : String) :
    SameStop f (.yyerror (msg50 ("Label " ++ name ++ " already used!")))
      (.yyerror (msg50 ("Label " ++ f name ++ " already used!")))
  | notFound (name : String) :
    SameStop f (.yyerror (msg50 ("Label " ++ name ++ " could not be found!")))
      (.yyerror (msg50 ("Label " ++ f name ++ " could not be found!")))

/-- The contexts are the same, the labels `names` renamed in the second. -/
structure Renamed (f : String → String) (names : Set String) (ctx ctx' : EmitContext) : Prop where
  eq : ctx' = ctx.withLabels ctx'.labels (ctx.labelrefs.map (LabelRef.rename f))
  labels : ∀ name ∈ names, ctx'.labels (f name) = ctx.labels name
  labelrefs : ∀ lr ∈ ctx.labelrefs, lr.name ∈ names

section
variable {f : String → String} {names : Set String} {ctx ctx' : EmitContext}

/-- What the second context is at another position. -/
theorem Renamed.setPos (h : Renamed f names ctx ctx') (pos : Dword) :
    Renamed f names { ctx with pos } { ctx' with pos } where
  eq := by
    have := congrArg (fun c => { c with pos }) h.eq
    exact this
  labels := h.labels
  labelrefs := h.labelrefs

/-- A computation that does not look at the labels is alike in both contexts. -/
theorem Renamed.alike (h : Renamed f names ctx ctx')
    {g : EmitContext → Except Stop EmitContext} (hg : ∀ labels labelrefs (c : EmitContext),
      g (c.withLabels labels labelrefs) = EmitContext.withLabels labels labelrefs <$> g c) :
    Alike (SameStop f) (Renamed f names) (g ctx) (g ctx') := by
  have hself := hg ctx.labels ctx.labelrefs ctx
  have hother := hg ctx'.labels (ctx.labelrefs.map (LabelRef.rename f)) ctx
  rw [← h.eq] at hother
  rw [hother]
  cases hc : g ctx with
  | error e => exact .same e
  | ok c =>
    -- the labels are as before
    rw [show ctx.withLabels ctx.labels ctx.labelrefs = ctx from rfl, hc] at hself
    have hc' : c = c.withLabels ctx.labels ctx.labelrefs := Except.ok.inj hself
    have hlabels : c.labels = ctx.labels := by rw [hc']; rfl
    have hrefs : c.labelrefs = ctx.labelrefs := by rw [hc']; rfl
    refine ⟨?_, ?_, ?_⟩
    · rw [hrefs]
      rfl
    · rw [hlabels]
      exact h.labels
    · rw [hrefs]
      exact h.labelrefs

theorem alignLoop_withLabels {n : Nat} (hn : 0 < n) (fill : Byte)
    (labels : String → Option Dword) (labelrefs : List LabelRef) (c : EmitContext) :
    alignLoop n hn fill (c.withLabels labels labelrefs)
      = EmitContext.withLabels labels labelrefs <$> alignLoop n hn fill c := by
  fun_induction alignLoop n hn fill c with
  | case1 c hzero =>
    rw [alignLoop, dif_pos (show (c.withLabels labels labelrefs).pos.toNat % n = 0 from hzero)]
    rfl
  | case2 c hnot e he =>
    have hbyte := @emitBytes_withLabels labels labelrefs c [fill]
    rw [show emitBytes [fill] c = .error e from he] at hbyte
    rw [alignLoop, dif_neg (show ¬ (c.withLabels labels labelrefs).pos.toNat % n = 0 from hnot)]
    split
    case h_1 e' he' => exact he'.symm.trans hbyte
    case h_2 c' hc' => exact absurd (hc'.symm.trans hbyte) nofun
  | case3 c hnot c1 hc1 ih =>
    have hbyte := @emitBytes_withLabels labels labelrefs c [fill]
    rw [show emitBytes [fill] c = .ok c1 from hc1] at hbyte
    rw [alignLoop, dif_neg (show ¬ (c.withLabels labels labelrefs).pos.toNat % n = 0 from hnot)]
    split
    case h_1 e' he' => exact absurd (he'.symm.trans hbyte) nofun
    case h_2 c' hc' =>
      obtain rfl := Except.ok.inj (hc'.symm.trans hbyte)
      exact ih

/-- A label's definition. -/
theorem Renamed.emitLabel (h : Renamed f names ctx ctx') (hf : Set.InjOn f names) {name : String}
    (hname : name ∈ names) :
    Alike (SameStop f) (Renamed f names) (emitLabel name ctx) (Assembler.emitLabel (f name) ctx') := by
  unfold Assembler.emitLabel
  rw [h.labels name hname]
  cases ctx.labels name with
  | some value => exact .used name
  | none =>
    have hpos : ctx'.pos + ctx'.offset = ctx.pos + ctx.offset := by
      rw [h.eq]
      rfl
    refine ⟨?_, fun name' hname' => ?_, h.labelrefs⟩
    · exact congrArg (fun c : EmitContext => { c with
        labels := Function.update ctx'.labels (f name) (some (ctx'.pos + ctx'.offset)) }) h.eq
    · show Function.update ctx'.labels (f name) _ (f name') = Function.update ctx.labels name _ name'
      by_cases heq : name' = name
      · rw [heq, Function.update_self, Function.update_self, hpos]
      · rw [Function.update_of_ne heq, Function.update_of_ne (fun h' => heq (hf hname' hname h')),
          h.labels name' hname']

/-- A label reference. -/
theorem Renamed.emitLabelRef (h : Renamed f names ctx ctx') {name : String} (hname : name ∈ names)
    (reg cond : Byte) :
    Alike (SameStop f) (Renamed f names) (emitLabelRef name reg cond ctx)
      (Assembler.emitLabelRef (f name) reg cond ctx') := by
  have hrec : Renamed f names (ctx.referring name reg cond) (ctx'.referring (f name) reg cond) := by
    refine ⟨?_, h.labels, fun lr hlr => ?_⟩
    · rw [h.eq]
      simp [EmitContext.withLabels, EmitContext.referring, LabelRef.rename]
    · rcases List.mem_append.1 hlr with hlr | hlr
      · exact h.labelrefs lr hlr
      · obtain rfl := List.mem_singleton.1 hlr
        exact hname
  rw [emitLabelRef_eq, emitLabelRef_eq]
  refine (hrec.alike fun labels labelrefs c => handleExceedingBuffer_withLabels _).bind ?_
  intro c c' hc
  refine Renamed.alike (g := fun c => .ok (c.advance 8)) hc fun labels labelrefs c => ?_
  exact congrArg Except.ok (@setHighestPosition_withLabels labels labelrefs { c with pos := c.pos + 8 })

/-- **A statement** and the statement renamed. -/
theorem Renamed.exec (h : Renamed f names ctx ctx') (hf : Set.InjOn f names) {s : Statement}
    (hs : s.Names names) :
    Alike (SameStop f) (Renamed f names) (s.exec ctx) ((s.rename f).exec ctx') := by
  cases s with
  | call c =>
    cases c with
    | labelRef name reg cond => exact h.emitLabelRef hs reg cond
    | _ => exact h.alike fun labels labelrefs c => emitBytes_withLabels _
  | label name => exact h.emitLabel hf hs
  | offset o => exact h.alike fun labels labelrefs c => rfl
  | at_ pos => exact h.setPos pos
  | align n fill =>
    refine h.alike fun labels labelrefs c => ?_
    unfold Statement.exec
    by_cases hn : 0 < n.toNat
    · simp only [dif_pos hn]
      exact alignLoop_withLabels hn _ labels labelrefs c
    · simp only [dif_neg hn]
      rfl
  | yyerror msg => exact .same _

/-- The resolution of a label reference. -/
theorem Renamed.resolveRef (h : Renamed f names ctx ctx') {lr : LabelRef} (hlr : lr.name ∈ names) :
    Alike (SameStop f) (Renamed f names) (resolveRef lr ctx)
      (Assembler.resolveRef (lr.rename f) ctx') := by
  have hres : Alike (SameStop f) Eq (emitLabelRes lr.name ctx)
      (emitLabelRes (lr.rename f).name ctx') := by
    unfold emitLabelRes
    rw [show (lr.rename f).name = f lr.name from rfl, h.labels _ hlr]
    cases ctx.labels lr.name with
    | none => exact .notFound lr.name
    | some value => exact .refl _
  refine hres.bind ?_
  rintro val _ rfl
  refine ((h.setPos lr.pos).alike fun labels labelrefs c => emitBytes_withLabels _).bind ?_
  exact fun c c' hc => hc.alike fun labels labelrefs c => emitBytes_withLabels _

end

/-- **Renaming labels** one-to-one changes nothing but the label's name in a message. -/
theorem assemble_rename {f : String → String} {ss : List Statement}
    (hf : Set.InjOn f {name | name ∈ labelNames ss ∨ name ∈ refNames ss}) (size : Dword)
    (fixedSize : Bool) (heap : Nat → Byte) :
    Alike (SameStop f) Eq (assemble size fixedSize heap ss)
      (assemble size fixedSize heap (ss.map (Statement.rename f))) := by
  unfold assemble imageOf
  have hstart (c : EmitContext) (hc : c.labels = fun _ => none) (hr : c.labelrefs = []) :
      Renamed f {name | name ∈ labelNames ss ∨ name ∈ refNames ss} c c := by
    refine ⟨?_, fun name _ => by rw [hc], by rw [hr]; exact List.forall_mem_nil _⟩
    rw [hr, List.map_nil, ← hr]
    rfl
  refine (Alike.run (List.forall₂_map_right_iff.2 (List.forall₂_same.2 fun s hs c c' hc =>
    hc.exec hf (names_of_mem s hs))) (hstart _ rfl rfl)).bind fun c c' hc => ?_
  refine Alike.bind (R := Renamed f {name | name ∈ labelNames ss ∨ name ∈ refNames ss}) ?_
    fun c1 c1' hc1 => ?_
  · unfold labelResolution
    have hrefs : c'.labelrefs = c.labelrefs.map (LabelRef.rename f) := by
      rw [hc.eq]
      rfl
    rw [hrefs]
    exact Alike.run (List.forall₂_map_right_iff.2 (List.forall₂_same.2 fun lr hlr c c' hc' =>
      hc'.resolveRef (hc.labelrefs lr hlr))) hc
  · show writeFile c1 = writeFile c1'
    rw [hc1.eq]
    rfl

/-- `_A` and `_B` change places. -/
theorem assemble_rename_swap : ∃ img,
    assemble 32 true (fun _ => 0) [.label "_A", .call (.labelRef "_B" 0 0), .label "_B"]
      = .ok img ∧
    assemble 32 true (fun _ => 0) [.label "_B", .call (.labelRef "_A" 0 0), .label "_A"]
      = .ok img := by
  obtain ⟨img, himg⟩ : ∃ img, assemble 32 true (fun _ => 0)
      [.label "_A", .call (.labelRef "_B" 0 0), .label "_B"] = .ok img := ⟨_, rfl⟩
  have halike : Alike (SameStop (Equiv.swap "_A" "_B")) Eq (.ok img) (assemble 32 true (fun _ => 0)
      [.label "_B", .call (.labelRef "_A" 0 0), .label "_A"]) := by
    rw [← himg]
    exact @assemble_rename (Equiv.swap "_A" "_B")
      [.label "_A", .call (.labelRef "_B" 0 0), .label "_B"] (Equiv.injective _).injOn 32 true _
  cases hother : assemble 32 true (fun _ => 0)
      [.label "_B", .call (.labelRef "_A" 0 0), .label "_A"] with
  | error e =>
    rw [hother] at halike
    exact halike.elim
  | ok img' =>
    rw [hother] at halike
    obtain rfl : img = img' := halike
    exact ⟨img, himg, rfl⟩

end Assembler
