import Emulathor.Assembler.Proof.LastWriter

/-!
# Programs without `.at`

Without `.at` (and `.align`) the positions only advance, so the image is the bytes of the calls side
by side, each label reference replaced by its `LOADI` pair (`imageOf_straight`). In a buffer large
enough only labels can be refused: the assembler aborts exactly when one is defined twice or a
referenced one is never defined (`assemble_straight`, `Resolvable`), and a label's address is the
position it stands at plus the offset in force there (`labelTable_eq`).
-/

namespace Assembler

open Common Lib

/-! ## Straight programs -/

/-- A call, a label or an offset. -/
def Statement.Straight : Statement → Prop
  | .call _ | .label _ | .offset _ => True
  | _ => False

instance : DecidablePred Statement.Straight
  | .call _ | .label _ | .offset _ => .isTrue trivial
  | .at_ _ | .align _ _ | .yyerror _ => .isFalse id

def Statement.width : Statement → Nat
  | .call c => c.width
  | _ => 0

/-- The bytes the statements take. -/
def widthOf (ss : List Statement) : Nat := (ss.map Statement.width).sum

/-- The cursor behind the statements. -/
def cursorAfter (k : Cursor) (ss : List Statement) : Cursor := ss.foldl Statement.next k

/-- The names of the labels defined. -/
def labelNames : List Statement → List String
  | [] => []
  | .label name :: ss => name :: labelNames ss
  | _ :: ss => labelNames ss

/-- The names of the labels referenced. -/
def refNames : List Statement → List String
  | [] => []
  | .call (.labelRef name _ _) :: ss => name :: refNames ss
  | _ :: ss => refNames ss

/-- The bytes of a call in the image, under the label table `t`. -/
def EmitCall.image (t : String → Option Dword) : EmitCall → List Byte
  | .labelRef name reg cond => loadiPair reg cond ((t name).getD 0)
  | c => c.bytes

def Statement.image (t : String → Option Dword) : Statement → List Byte
  | .call c => c.image t
  | _ => []

theorem EmitCall.image_length (t : String → Option Dword) (c : EmitCall) :
    (c.image t).length = c.width := by cases c <;> rfl

theorem Statement.image_length (t : String → Option Dword) (s : Statement) :
    (s.image t).length = s.width := by
  cases s with
  | call c => exact c.image_length t
  | _ => rfl

theorem image_length (t : String → Option Dword) :
    ∀ ss : List Statement, (ss.flatMap (Statement.image t)).length = widthOf ss
  | [] => rfl
  | s :: ss => by
    rw [List.flatMap_cons, List.length_append, s.image_length, image_length t ss]
    rfl

theorem widthOf_cons (s : Statement) (ss : List Statement) :
    widthOf (s :: ss) = s.width + widthOf ss := rfl

theorem widthOf_append (as bs : List Statement) : widthOf (as ++ bs) = widthOf as + widthOf bs := by
  simp [widthOf]

section
variable {k : Cursor} {s : Statement}

theorem next_pos (hs : s.Straight) : (s.next k).pos = k.pos + s.width := by
  cases s with
  | call c => rfl
  | label name => rfl
  | offset o => rfl
  | _ => exact hs.elim

theorem cursorAfter_pos : ∀ {ss : List Statement} {k : Cursor}, (∀ s ∈ ss, s.Straight) →
    (cursorAfter k ss).pos = k.pos + widthOf ss
  | [], _, _ => rfl
  | s :: ss, k, h => by
    show (cursorAfter (s.next k) ss).pos = _
    rw [cursorAfter_pos fun s hm => h s (.tail _ hm), next_pos (h s (.head _)), widthOf_cons,
      Nat.add_assoc]

/-- The ends of a straight program are within its width. -/
theorem ends_le : ∀ {ss : List Statement} {k : Cursor}, (∀ s ∈ ss, s.Straight) →
    ∀ n ∈ along Statement.ends k ss, n ≤ k.pos + widthOf ss
  | [], _, _, n, hn => by cases hn
  | s :: ss, k, h, n, hn => by
    rw [widthOf_cons]
    rcases List.mem_append.1 hn with hn | hn
    · cases s with
      | call c =>
        obtain rfl := List.mem_singleton.1 hn
        show k.pos + c.width ≤ k.pos + (c.width + widthOf ss)
        omega
      | _ => cases hn
    · have := ends_le (fun s hm => h s (.tail _ hm)) n hn
      rw [next_pos (h s (.head _))] at this
      omega

/-- A straight program reaches as far as it is wide. -/
theorem reach_straight : ∀ {ss : List Statement} {k : Cursor}, (∀ s ∈ ss, s.Straight) →
    max k.pos (reach k ss) = k.pos + widthOf ss
  | [], _, _ => Nat.max_zero _
  | s :: ss, k, h => by
    have ih := @reach_straight ss (s.next k) fun s hm => h s (.tail _ hm)
    rw [next_pos (h s (.head _))] at ih
    rw [show reach k (s :: ss) = _ from reach_cons s, widthOf_cons]
    cases s with
    | call c =>
      have : reach k [.call c] = k.pos + c.width := Nat.max_zero _
      rw [this]
      simp only [Statement.width] at ih ⊢
      omega
    | label name =>
      have : reach k [.label name] = 0 := rfl
      rw [this]
      simp only [Statement.width] at ih ⊢
      omega
    | offset o =>
      have : reach k [.offset o] = 0 := rfl
      rw [this]
      simp only [Statement.width] at ih ⊢
      omega
    | _ => exact (h _ (.head _)).elim

/-! ## The image -/

theorem lastWriter_none {ws : List (Nat × List Byte)} {i : Nat} (h : ∀ w ∈ ws, i < w.1) :
    lastWriter ws i = none := by
  induction ws with
  | nil => rfl
  | cons w ws ih =>
    have hcell : cell w i = none := if_neg (Nat.not_le.2 (h w (.head _)))
    rw [lastWriter, ih fun w hm => h w (.tail _ hm), hcell]
    rfl

theorem lastWriter_append (as bs : List (Nat × List Byte)) (i : Nat) :
    lastWriter (as ++ bs) i = (lastWriter bs i).or (lastWriter as i) := by
  induction as with
  | nil => simp [lastWriter]
  | cons a as ih => rw [List.cons_append, lastWriter, ih, lastWriter, Option.or_assoc]

theorem cell_at {p i : Nat} {bs : List Byte} (h : p ≤ i) : cell (p, bs) i = bs[i - p]? := if_pos h

/-- The emissions of a straight program are not in front of it. -/
theorem writes_ge : ∀ {ss : List Statement} {k : Cursor}, (∀ s ∈ ss, s.Straight) →
    ∀ w ∈ along Statement.writes k ss, k.pos ≤ w.1
  | [], _, _, w, hw => by cases hw
  | s :: ss, k, h, w, hw => by
    rcases List.mem_append.1 hw with hw | hw
    · cases s with
      | call c =>
        obtain rfl := List.mem_singleton.1 hw
        exact Nat.le_refl _
      | _ => cases hw
    · have := writes_ge (fun s hm => h s (.tail _ hm)) w hw
      rw [next_pos (h s (.head _))] at this
      omega

/-- Nor are its references. -/
theorem refs_ge : ∀ {ss : List Statement} {k : Cursor}, (∀ s ∈ ss, s.Straight) →
    k.pos + widthOf ss < 2 ^ 32 → ∀ lr ∈ along Statement.refs k ss, k.pos ≤ lr.pos.toNat
  | [], _, _, _, lr, hm => by cases hm
  | s :: ss, k, h, hlt, lr, hm => by
    rw [widthOf_cons] at hlt
    have hpos := @next_pos k s (h s (.head _))
    rcases List.mem_append.1 hm with hm | hm
    · cases s with
      | call c =>
        cases c with
        | labelRef name reg cond =>
          obtain rfl := List.mem_singleton.1 hm
          show k.pos ≤ (BitVec.ofNat 32 k.pos).toNat
          rw [BitVec.toNat_ofNat, Nat.mod_eq_of_lt (by omega)]
        | _ => cases hm
      | _ => cases hm
    · have := refs_ge (fun s hm => h s (.tail _ hm)) (by rw [hpos]; omega) lr hm
      rw [hpos] at this
      omega

/-- The last writers of a straight program: the bytes of its calls side by side. -/
theorem lastWriter_straight (t : String → Option Dword) (old : Byte) :
    ∀ {ss : List Statement} {k : Cursor}, (∀ s ∈ ss, s.Straight) → k.pos + widthOf ss < 2 ^ 32 →
    ∀ {i : Nat}, k.pos ≤ i → i < k.pos + widthOf ss →
    some ((lastWriter ((along Statement.refs k ss).map (resolvedWrite t)) i).getD
      ((lastWriter (along Statement.writes k ss) i).getD old))
      = (ss.flatMap (Statement.image t))[i - k.pos]?
  | [], _, _, _, i, h1, h2 => absurd h2 (Nat.not_lt.2 h1)
  | s :: ss, k, h, hlt, i, h1, h2 => by
    have hss : ∀ s ∈ ss, s.Straight := fun s hm => h s (.tail _ hm)
    have hpos := @next_pos k s (h s (.head _))
    rw [widthOf_cons] at hlt h2
    have hlt' : (s.next k).pos + widthOf ss < 2 ^ 32 := by rw [hpos]; omega
    rw [along, along, List.map_append, lastWriter_append, lastWriter_append, List.flatMap_cons]
    by_cases hi : i < k.pos + s.width
    · -- the statement's own bytes
      have hw : lastWriter (along Statement.writes (s.next k) ss) i = none := by
        refine lastWriter_none fun w hm => ?_
        have := writes_ge hss w hm
        omega
      have hr : lastWriter ((along Statement.refs (s.next k) ss).map (resolvedWrite t)) i = none := by
        refine lastWriter_none fun w hm => ?_
        obtain ⟨lr, hlr, rfl⟩ := List.mem_map.1 hm
        have := refs_ge hss hlt' lr hlr
        show i < lr.pos.toNat
        omega
      have hlen : i - k.pos < (s.image t).length := by rw [s.image_length]; omega
      rw [hw, hr, Option.none_or, Option.none_or, List.getElem?_append_left hlen]
      cases s with
      | call c =>
        cases c with
        | labelRef name reg cond =>
          have hp : (BitVec.ofNat 32 k.pos).toNat = k.pos := by
            rw [BitVec.toNat_ofNat, Nat.mod_eq_of_lt (by omega)]
          have hget := List.getElem?_eq_getElem hlen
          simp only [Statement.refs, EmitCall.refs, List.map_cons, List.map_nil, lastWriter,
            Option.none_or, resolvedWrite, hp, cell_at h1]
          simp only [Statement.image, EmitCall.image] at hget ⊢
          rw [hget]
          rfl
        | _ =>
          have hget := List.getElem?_eq_getElem hlen
          simp only [Statement.refs, EmitCall.refs, Statement.writes, List.map_nil, lastWriter,
            Option.none_or, cell_at h1, Option.getD_none]
          simp only [Statement.image, EmitCall.image] at hget ⊢
          rw [hget]
          rfl
      | _ => exact absurd hi (Nat.not_lt.2 h1)
    · -- those of the statements behind it
      have hw : lastWriter (s.writes k) i = none := by
        cases s with
        | call c =>
          have hle : c.bytes.length ≤ c.width := by cases c <;> simp [EmitCall.bytes, EmitCall.width,
            fmtI, fmtII, fmtIII, fmtIV, fmtV, fmtVI, fmtVII, fmtVIII]
          simp only [Statement.width] at hi
          rw [Statement.writes, lastWriter, lastWriter, Option.none_or, cell_at h1,
            List.getElem?_eq_none (by omega)]
        | _ => rfl
      have hr : lastWriter ((s.refs k).map (resolvedWrite t)) i = none := by
        cases s with
        | call c =>
          cases c with
          | labelRef name reg cond =>
            have hp : (BitVec.ofNat 32 k.pos).toNat = k.pos := by
              rw [BitVec.toNat_ofNat, Nat.mod_eq_of_lt (by omega)]
            simp only [Statement.width, EmitCall.width] at hi
            simp only [Statement.refs, EmitCall.refs, List.map_cons, List.map_nil, lastWriter,
              Option.none_or, resolvedWrite, hp, cell_at h1]
            exact List.getElem?_eq_none (by simp only [loadiPair, fmtIV, List.length_append,
              List.length_cons, List.length_nil]; omega)
          | _ => rfl
        | _ => rfl
      have hidx : i - k.pos = (s.image t).length + (i - (s.next k).pos) := by
        rw [s.image_length, hpos]; omega
      rw [hw, hr, Option.or_none, Option.or_none, hidx, List.getElem?_append_right (by omega),
        Nat.add_sub_cancel_left]
      exact lastWriter_straight t old hss hlt' (by rw [hpos]; omega) (by rw [hpos]; omega)

end

/-- **The image of a straight program** in a buffer large enough: its calls' bytes side by side. -/
theorem imageOf_straight {ss : List Statement} {k : Cursor} {ctx : EmitContext} (hsz : Sized ctx)
    (hk : AtCursor k ctx) (hk0 : k.pos = 0) (hnew : ctx.labelrefs = [] ∧ ctx.highestPos = 0)
    (hs : ∀ s ∈ ss, s.Straight) (hfit : widthOf ss ≤ ctx.size.toNat) :
    (Assembles ctx.size.toNat k ctx.labels ss ∧
      imageOf ss ctx
        = .ok (ss.flatMap (Statement.image (defineAll ctx.labels (along Statement.defs k ss))))) ∨
    (¬ Assembles ctx.size.toNat k ctx.labels ss ∧ ∃ msg, imageOf ss ctx = .error (.yyerror msg)) := by
  have hlt := ctx.size.isLt
  have hna : ∀ s ∈ ss, s.NoAlign := by
    intro s hm
    have := hs s hm
    cases s <;> trivial
  have hb : ∀ n ∈ along Statement.ends k ss, n ≤ ctx.bound := by
    intro n hn
    have := ends_le hs n hn
    unfold EmitContext.bound
    split <;> omega
  have hreach : reach k ss = widthOf ss := by
    have := @reach_straight ss k hs
    omega
  rcases imageOf_laid hsz hk hnew hna hb with ⟨hasm, img, himg, hlen, hbytes⟩ | h
  · refine .inl ⟨hasm, ?_⟩
    have heq : img
        = ss.flatMap (Statement.image (defineAll ctx.labels (along Statement.defs k ss))) := by
      apply List.ext_getElem?
      intro i
      by_cases hi : i < widthOf ss
      · rw [hbytes i (by rw [hreach]; exact hi)]
        have := @lastWriter_straight (defineAll ctx.labels (along Statement.defs k ss)) (ctx.buf i) ss
          k hs (by omega) i (by omega) (by omega)
        rw [hk0, Nat.sub_zero] at this
        exact this
      · rw [List.getElem?_eq_none (by omega), List.getElem?_eq_none (by rw [image_length]; omega)]
    rw [himg, heq]
  · exact .inr h

/-! ## Labels -/

/-- A straight program that fits is refused for its labels only. -/
theorem allAccepted_iff {size : Nat} : ∀ {ss : List Statement} {k : Cursor}
    {t : String → Option Dword}, (∀ s ∈ ss, s.Straight) → k.pos + widthOf ss ≤ size →
    (AllAccepted size k t ss ↔
      (labelNames ss).Nodup ∧ ∀ name ∈ labelNames ss, t name = none)
  | [], _, _, _, _ => ⟨fun _ => ⟨List.nodup_nil, nofun⟩, fun _ => trivial⟩
  | s :: ss, k, t, h, hfit => by
    rw [widthOf_cons] at hfit
    have ih (t' : String → Option Dword) := @allAccepted_iff size ss (s.next k) t'
      (fun s hm => h s (.tail _ hm)) (by rw [next_pos (h s (.head _))]; omega)
    rw [AllAccepted]
    cases s with
    | call c =>
      have hacc : Statement.Accepted size k t (.call c) := by
        show k.pos + c.width ≤ size
        simp only [Statement.width] at hfit
        omega
      simp only [hacc, true_and]
      exact ih t
    | offset o =>
      simp only [Statement.Accepted, true_and]
      exact ih t
    | label name =>
      rw [ih, labelNames, List.nodup_cons, List.forall_mem_cons]
      simp only [Statement.Accepted, Statement.defs, defineAll]
      constructor
      · rintro ⟨hfree, hnodup, hrest⟩
        have hne : ∀ n ∈ labelNames ss, n ≠ name := by
          rintro n hn rfl
          have := hrest n hn
          rw [Function.update_self] at this
          cases this
        refine ⟨⟨fun hm => hne name hm rfl, hnodup⟩, hfree, fun n hn => ?_⟩
        have := hrest n hn
        rwa [Function.update_of_ne (hne n hn)] at this
      · rintro ⟨⟨hnew, hnodup⟩, hfree, hrest⟩
        refine ⟨hfree, hnodup, fun n hn => ?_⟩
        rw [Function.update_of_ne (by rintro rfl; exact hnew hn)]
        exact hrest n hn
    | _ => exact (h _ (.head _)).elim

theorem defineAll_other {name : String} : ∀ {ss : List Statement} {k : Cursor}
    {t : String → Option Dword}, name ∉ labelNames ss →
    defineAll t (along Statement.defs k ss) name = t name
  | [], _, _, _ => rfl
  | s :: ss, k, t, h => by
    rw [along, defineAll_append]
    cases s with
    | label name' =>
      rw [labelNames, List.mem_cons, not_or] at h
      rw [defineAll_other h.2]
      exact Function.update_of_ne h.1 ..
    | call c => exact defineAll_other (by cases c <;> exact h)
    | _ => exact defineAll_other h

theorem defineAll_isSome {name : String} : ∀ {ss : List Statement} {k : Cursor}
    {t : String → Option Dword}, name ∈ labelNames ss →
    (defineAll t (along Statement.defs k ss) name).isSome
  | [], _, _, h => by cases h
  | s :: ss, k, t, h => by
    rw [along, defineAll_append]
    by_cases hrest : name ∈ labelNames ss
    · exact defineAll_isSome hrest
    rw [defineAll_other hrest]
    cases s with
    | label name' =>
      rcases List.mem_cons.1 h with rfl | h
      · simp [Statement.defs, defineAll]
      · exact absurd h hrest
    | call c => exact absurd h hrest
    | _ => exact absurd h hrest

theorem refs_names : ∀ {ss : List Statement} {k : Cursor},
    (along Statement.refs k ss).map LabelRef.name = refNames ss
  | [], _ => rfl
  | s :: ss, k => by
    rw [along, List.map_append, refs_names]
    cases s with
    | call c => cases c <;> rfl
    | _ => rfl

/-- No label is defined twice, and every referenced label is defined. -/
def Resolvable (ss : List Statement) : Prop :=
  (labelNames ss).Nodup ∧ ∀ name ∈ refNames ss, name ∈ labelNames ss

instance (ss : List Statement) : Decidable (Resolvable ss) := inferInstanceAs (Decidable (_ ∧ _))

theorem assembles_iff {size : Nat} {ss : List Statement} {k : Cursor} (hs : ∀ s ∈ ss, s.Straight)
    (hfit : k.pos + widthOf ss ≤ size) :
    Assembles size k (fun _ => none) ss ↔ Resolvable ss := by
  rw [Assembles, allAccepted_iff hs hfit, Resolvable, ← @refs_names ss k]
  simp only [List.forall_mem_map, implies_true, and_true]
  refine and_congr_right fun _ => forall₂_congr fun lr _ => ?_
  constructor
  · intro hsome
    by_contra hnot
    rw [defineAll_other hnot] at hsome
    cases hsome
  · exact fun hm => defineAll_isSome hm

/-- The addresses of a program's labels. -/
def labelTable (ss : List Statement) : String → Option Dword :=
  defineAll (fun _ => none) (along Statement.defs start ss)

theorem along_append {α : Type} (f : Cursor → Statement → List α) :
    ∀ (k : Cursor) (as bs : List Statement),
    along f k (as ++ bs) = along f k as ++ along f (cursorAfter k as) bs
  | _, [], _ => rfl
  | k, a :: as, bs => by
    rw [List.cons_append, along, along_append, along, List.append_assoc]
    rfl

theorem labelNames_append : ∀ as bs : List Statement,
    labelNames (as ++ bs) = labelNames as ++ labelNames bs
  | [], _ => rfl
  | a :: as, bs => by
    cases a with
    | label name => exact congrArg (name :: ·) (labelNames_append as bs)
    | _ => exact labelNames_append as bs

/-- **A label's address** is its position plus the offset in force there. -/
theorem labelTable_eq {pre post : List Statement} {name : String}
    (hs : ∀ s ∈ pre, s.Straight) (hnodup : (labelNames (pre ++ .label name :: post)).Nodup) :
    labelTable (pre ++ .label name :: post) name
      = some (BitVec.ofNat 32 (widthOf pre) + (cursorAfter start pre).offset) := by
  rw [labelNames_append, List.nodup_append] at hnodup
  have hpost : name ∉ labelNames post := (List.nodup_cons.1 hnodup.2.1).1
  rw [labelTable, along_append, defineAll_append, along, defineAll_append, defineAll_other hpost]
  simp only [Statement.defs, defineAll, Function.update_self, cursorAfter_pos hs]
  rw [show start.pos = 0 from rfl, Nat.zero_add]

/-- The size of the buffer `main` creates. -/
def bufferSize (size : Dword) (fixedSize : Bool) : Dword :=
  if fixedSize then size else BitVec.ofNat 32 dynamicBufferSize

/-- **Assembling a straight program** in a buffer large enough for it. -/
theorem assemble_straight {size : Dword} {fixedSize : Bool} {heap : Nat → Byte}
    {ss : List Statement} (hs : ∀ s ∈ ss, s.Straight)
    (hfit : widthOf ss ≤ (bufferSize size fixedSize).toNat) :
    (Resolvable ss ∧
      assemble size fixedSize heap ss = .ok (ss.flatMap (Statement.image (labelTable ss)))) ∨
    (¬ Resolvable ss ∧ ∃ msg, assemble size fixedSize heap ss = .error (.yyerror msg)) := by
  have hsz : Sized { emitCreateContext (bufferSize size fixedSize) fixedSize heap with
      offset := 4096 } := ⟨rfl, Nat.zero_le _⟩
  have hasm := @assembles_iff (bufferSize size fixedSize).toNat ss start hs
    (by rw [show start.pos = 0 from rfl, Nat.zero_add]; exact hfit)
  have hk : AtCursor start { emitCreateContext (bufferSize size fixedSize) fixedSize heap with
      offset := 4096 } := ⟨rfl, rfl⟩
  rcases imageOf_straight hsz hk rfl ⟨rfl, rfl⟩ hs hfit with ⟨h, himg⟩ | ⟨h, himg⟩
  · exact .inl ⟨hasm.1 h, himg⟩
  · exact .inr ⟨fun hr => h (hasm.2 hr), himg⟩

end Assembler
