import Mathlib.Data.List.Forall2
import Emulathor.Assembler.Lexer
import Emulathor.Lib.Cut

/-!
# One parse

The tokens of a production with more behind them are those of no production, unless the next is a
`CONDITION` (`exp_append`), which starts none: the grammar is unambiguous (`Parses.unique`).
-/

namespace Assembler

open Common Lib Token

/-! ## Productions end -/

/-- What the function takes, it does not take with more behind it. -/
def Ends (f : List Token → Option Action) : Prop :=
  ∀ rest acts t more, f rest = some acts → f (rest ++ t :: more) = none

section
variable {op : String}

theorem expFmtII_ends : Ends (expFmtII op) := by
  intro rest acts t more h
  unfold expFmtII at h
  split at h <;> first | rfl | cases h

theorem expFmtIV_ends : Ends (expFmtIV op) := by
  intro rest acts t more h
  unfold expFmtIV at h
  split at h <;> first | rfl | cases h

theorem expFmtV_ends : Ends (expFmtV op) := by
  intro rest acts t more h
  unfold expFmtV at h
  split at h <;> first | rfl | cases h

theorem expFmtVI_ends : Ends (expFmtVI op) := by
  intro rest acts t more h
  unfold expFmtVI at h
  split at h <;> first | rfl | cases h

theorem expFmtVIC_ends : Ends (expFmtVIC op) := by
  intro rest acts t more h
  unfold expFmtVIC at h
  split at h <;> first | rfl | cases h

theorem expFmtVIII_ends : Ends (expFmtVIII op) := by
  intro rest acts t more h
  unfold expFmtVIII at h
  split at h <;> first | rfl | cases h

theorem expCmpxchg_ends : Ends expCmpxchg := by
  intro rest acts t more h
  unfold expCmpxchg at h
  split at h <;> first | rfl | cases h

theorem expLoadi_ends : Ends expLoadi := by
  intro rest acts t more h
  unfold expLoadi at h
  split at h <;> first | rfl | cases h

theorem expLoadid_ends : Ends expLoadid := by
  intro rest acts t more h
  unfold expLoadid at h
  split at h <;> first | rfl | cases h

theorem expLoadrd_ends : Ends expLoadrd := by
  intro rest acts t more h
  unfold expLoadrd at h
  split at h <;> first | rfl | cases h

theorem expMov_ends : Ends expMov := by
  intro rest acts t more h
  unfold expMov at h
  split at h <;> first | rfl | cases h

theorem expSex_ends : Ends expSex := by
  intro rest acts t more h
  unfold expSex at h
  split at h <;> first | rfl | cases h

theorem expStoreid_ends : Ends expStoreid := by
  intro rest acts t more h
  unfold expStoreid at h
  split at h <;> first | rfl | cases h

theorem expStorerd_ends : Ends expStorerd := by
  intro rest acts t more h
  unfold expStorerd at h
  split at h <;> first | rfl | cases h

theorem expXchgc_ends : Ends expXchgc := by
  intro rest acts t more h
  unfold expXchgc at h
  split at h <;> first | rfl | cases h

theorem expStoreas_ends : Ends expStoreas := by
  intro rest acts t more h
  unfold expStoreas at h
  split at h <;> first | rfl | cases h

theorem expLoadas_ends : Ends expLoadas := by
  intro rest acts t more h
  unfold expLoadas at h
  split at h <;> first | rfl | cases h

theorem expLoadadr_ends : Ends expLoadadr := by
  intro rest acts t more h
  unfold expLoadadr at h
  split at h <;> first | rfl | cases h

theorem expLdcall_ends : Ends expLdcall := by
  intro rest acts t more h
  unfold expLdcall at h
  split at h <;> first | rfl | cases h

theorem expLdjmp_ends : Ends expLdjmp := by
  intro rest acts t more h
  unfold expLdjmp at h
  split at h <;> first | rfl | cases h

theorem expPush_ends : Ends expPush := by
  intro rest acts t more h
  unfold expPush at h
  split at h <;> first | rfl | cases h

theorem expPop_ends : Ends expPop := by
  intro rest acts t more h
  unfold expPop at h
  split at h <;> first | rfl | cases h

theorem expLoad32_ends : Ends expLoad32 := by
  intro rest acts t more h
  unfold expLoad32 at h
  split at h <;> first | rfl | cases h

theorem expBytes_ends : Ends expBytes := by
  intro rest acts t more h
  induction rest generalizing acts with
  | nil => cases h
  | cons r rest ih =>
    cases r with
    | endl => exact ih acts h
    | space => exact ih acts h
    | int val =>
      cases hr : expBytes rest with
      | none =>
        rw [expBytes, hr] at h
        cases h
      | some acts' =>
        rw [List.cons_append, expBytes, ih acts' hr]
        rfl
    | directiveEnd =>
      cases rest with
      | nil => rfl
      | cons r' rest => cases h
    | _ => cases h

/-- But for a condition behind a format I mnemonic. -/
theorem expFmtI_append {rest more : List Token} {t : Token} {acts acts' : Action}
    (h : expFmtI op rest = some acts) (h' : expFmtI op (rest ++ t :: more) = some acts') :
    ∃ c, t = condition c := by
  cases rest with
  | nil =>
    cases t with
    | condition c => exact ⟨c, rfl⟩
    | _ => cases h'
  | cons r rest =>
    unfold expFmtI at h
    split at h
    case h_1 heq => cases heq
    case h_2 heq =>
      cases heq
      cases h'
    case h_3 => cases h

end

/-- **Behind a production** only a condition goes on. -/
theorem exp_append {toks more : List Token} {t : Token} {acts acts' : Action}
    (h : exp toks = some acts) (h' : exp (toks ++ t :: more) = some acts') :
    ∃ c, t = condition c := by
  cases toks with
  | nil => cases h
  | cons o rest =>
    have ends {f : List Token → Option Action} (hf : Ends f) (h : f rest = some acts)
        (h' : f (rest ++ t :: more) = some acts') : ∃ c, t = condition c := by
      rw [hf rest acts t more h] at h'
      cases h'
    rw [List.cons_append] at h'
    cases o with
    | opFmtI op => exact expFmtI_append h h'
    | opFmtII op => exact ends expFmtII_ends h h'
    | opFmtIV op => exact ends expFmtIV_ends h h'
    | opFmtV op => exact ends expFmtV_ends h h'
    | opFmtVI op => exact ends expFmtVI_ends h h'
    | opFmtVIC op => exact ends expFmtVIC_ends h h'
    | opFmtVIII op => exact ends expFmtVIII_ends h h'
    | opSCmpxchg => exact ends expCmpxchg_ends h h'
    | opSLoadi => exact ends expLoadi_ends h h'
    | opSLoadid => exact ends expLoadid_ends h h'
    | opSLoadrd => exact ends expLoadrd_ends h h'
    | opSMov => exact ends expMov_ends h h'
    | opSSex => exact ends expSex_ends h h'
    | opSStoreid => exact ends expStoreid_ends h h'
    | opSStorerd => exact ends expStorerd_ends h h'
    | opSXchgc => exact ends expXchgc_ends h h'
    | opSStoreas => exact ends expStoreas_ends h h'
    | opSLoadas => exact ends expLoadas_ends h h'
    | opPseudoLoadadr => exact ends expLoadadr_ends h h'
    | opPseudoLdcall => exact ends expLdcall_ends h h'
    | opPseudoLdjmp => exact ends expLdjmp_ends h h'
    | opPseudoPush => exact ends expPush_ends h h'
    | opPseudoPop => exact ends expPop_ends h h'
    | opPseudoLoad32 => exact ends expLoad32_ends h h'
    | directiveBytes =>
      cases rest with
      | nil => cases h
      | cons b rest =>
        by_cases hb : b = directiveEnd
        · subst hb
          cases h
        · have hexp (rest : List Token) :
              exp (directiveBytes :: b :: rest) = expBytes (b :: rest) := if_neg hb
          rw [hexp] at h
          rw [List.cons_append, hexp] at h'
          exact ends expBytes_ends h h'
    | int | int32 | ident | reg32 | reg16 | reg8 | creg | condition | comma | garbage
    | directiveEnd => cases h
    | _ =>
      -- the whole line is in the pattern
      unfold exp at h
      split at h
      all_goals
        rename_i heq
        first
          | cases heq; done
          | cases heq; cases h'
          | cases h

/-! ## Programs -/

theorem exps_cons {l : List Token} {ls : List (List Token)} {acts : Action}
    (h : exps (l :: ls) = some acts) :
    ∃ a, exp l = some a ∧ (ls = [] ∧ acts = a ∨ ∃ b, exps ls = some b ∧ acts = a ++ b) := by
  cases ls with
  | nil => exact ⟨acts, h, .inl ⟨rfl, rfl⟩⟩
  | cons m ms =>
    obtain ⟨a, ha, h⟩ := Option.bind_eq_some_iff.1 h
    obtain ⟨b, hb, h⟩ := Option.bind_eq_some_iff.1 h
    cases h
    exact ⟨a, ha, .inr ⟨b, hb, rfl⟩⟩

theorem exps_accepts {lines : List (List Token)} {acts : Action} (h : exps lines = some acts) :
    ∀ line ∈ lines, (exp line).isSome = true := by
  induction lines generalizing acts with
  | nil => exact nofun
  | cons l ls ih =>
    obtain ⟨a, ha, hls⟩ := exps_cons h
    refine List.forall_mem_cons.2 ⟨by rw [ha]; rfl, ?_⟩
    obtain ⟨rfl, -⟩ | ⟨b, hb, -⟩ := hls
    · exact nofun
    · exact ih hb

/-- Behind a line only a condition goes on, and no line starts with one. -/
theorem exp_cuts : Cuts (fun line => (exp line).isSome = true) fun t => ∃ c, t = condition c where
  ne := by
    rintro l h rfl
    cases h
  ends := by
    intro l t more h h'
    obtain ⟨acts, hacts⟩ := Option.isSome_iff_exists.1 h
    obtain ⟨acts', hacts'⟩ := Option.isSome_iff_exists.1 h'
    exact exp_append hacts hacts'
  starts := by
    rintro t l h ⟨c, rfl⟩
    cases h

theorem Parses.line {tokens : List Token} {acts : Action} (h : exp tokens = some acts) :
    Parses tokens acts := ⟨[tokens], List.append_nil _, h⟩

/-- A program starts with a line. -/
theorem Parses.head {tokens : List Token} {acts : Action} (h : Parses tokens acts) :
    ∃ line rest a, line ++ rest = tokens ∧ exp line = some a := by
  obtain ⟨lines, hf, h⟩ := h
  cases lines with
  | nil => cases h
  | cons line lines =>
    obtain ⟨a, ha, -⟩ := exps_cons h
    exact ⟨line, lines.flatten, a, hf, ha⟩

theorem Parses.ne_nil {tokens : List Token} {acts : Action} (h : Parses tokens acts) :
    tokens ≠ [] := by
  rintro rfl
  obtain ⟨line, rest, a, hnil, ha⟩ := h.head
  obtain rfl := (List.append_eq_nil_iff.1 hnil).1
  cases ha

/-- Behind a line a program starts with comes the rest of the program. -/
theorem Parses.peel {line more : List Token} {t : Token} {acts a : Action}
    (h : Parses (line ++ t :: more) acts) (hl : exp line = some a) (ht : ∀ c, t ≠ condition c) :
    ∃ acts', Parses (t :: more) acts' := by
  obtain ⟨lines, hf, h⟩ := h
  have hline : (exp line).isSome = true := by
    rw [hl]
    rfl
  obtain ⟨lines', rfl, hf'⟩ :=
    exp_cuts.peel hline (fun ⟨c, hc⟩ => ht c hc) (exps_accepts h) hf
  obtain ⟨-, -, ⟨rfl, -⟩ | ⟨b, hb, -⟩⟩ := exps_cons h
  · cases hf'
  · exact ⟨b, lines', hf', hb⟩

/-- The actions of lines. -/
theorem exps_of_forall {lines : List (List Token)} {acts : List Action} (hne : lines ≠ [])
    (h : List.Forall₂ (fun line a => exp line = some a) lines acts) :
    exps lines = some acts.flatten := by
  induction h with
  | nil => exact absurd rfl hne
  | @cons line a lines acts ha hall ih =>
    cases hall with
    | nil => rw [exps, ha, List.flatten_cons, List.flatten_nil, List.append_nil]
    | @cons l a' ls as ha' hall =>
      rw [exps, ha, ih (List.cons_ne_nil _ _), List.flatten_cons]
      · rfl
      · exact List.cons_ne_nil _ _

/-- **The grammar is unambiguous.** -/
theorem Parses.unique {tokens : List Token} {acts acts' : Action} (h : Parses tokens acts)
    (h' : Parses tokens acts') : acts = acts' := by
  obtain ⟨lines, hf, h⟩ := h
  obtain ⟨lines', hf', h'⟩ := h'
  obtain rfl := exp_cuts.unique (hf.trans hf'.symm) (exps_accepts h) (exps_accepts h')
  exact Option.some.inj (h.symm.trans h')

/-- vasm assembles a text to one image. -/
theorem AssemblesTo.unique {size : Dword} {fixedSize : Bool} {heap : Nat → Byte}
    {text : List Char} {img img' : List Byte} (h : AssemblesTo size fixedSize heap text img)
    (h' : AssemblesTo size fixedSize heap text img') : img = img' := by
  obtain ⟨tokens, acts, hlex, hparse, himg⟩ := h
  obtain ⟨tokens', acts', hlex', hparse', himg'⟩ := h'
  obtain rfl := Except.ok.inj (hlex.symm.trans hlex')
  obtain rfl := hparse.unique hparse'
  exact Except.ok.inj (himg.symm.trans himg')

end Assembler
