import Mathlib.Data.List.Forall2
import Emulathor.Assembler.X86tov
import Emulathor.Lib.Cut

/-!
# x86tov prints one text

No `exp` goes on behind another (`exp_append`), so the tokens of a text are cut into `exp`s in one way
(`Translates.unique`).
-/

namespace X86tov

open Lib Token

/-- Behind an `exp` nothing goes on. -/
theorem exp_append {line more : List Token} {t : Token} {out : String} (h : exp line = some out) :
    exp (line ++ t :: more) = none := by
  unfold exp at h
  split at h
  all_goals first | rfl | cases h

theorem exps_cons {line : List Token} {lines : List (List Token)} {out : String}
    (h : exps (line :: lines) = some out) :
    ∃ o, exp line = some o ∧ (lines = [] ∧ out = o ∨
      ∃ rest, exps lines = some rest ∧ out = o ++ rest) := by
  cases lines with
  | nil => exact ⟨out, h, .inl ⟨rfl, rfl⟩⟩
  | cons l ls =>
    obtain ⟨o, ho, h⟩ := Option.bind_eq_some_iff.1 h
    obtain ⟨rest, hrest, h⟩ := Option.bind_eq_some_iff.1 h
    cases h
    exact ⟨o, ho, .inr ⟨rest, hrest, rfl⟩⟩

theorem exps_accepts {lines : List (List Token)} {out : String} (h : exps lines = some out) :
    ∀ line ∈ lines, (exp line).isSome = true := by
  induction lines generalizing out with
  | nil => exact nofun
  | cons l ls ih =>
    obtain ⟨o, ho, hls⟩ := exps_cons h
    refine List.forall_mem_cons.2 ⟨by rw [ho]; rfl, ?_⟩
    obtain ⟨rfl, -⟩ | ⟨b, hb, -⟩ := hls
    · exact nofun
    · exact ih hb

theorem exp_cuts : Cuts (fun line => (exp line).isSome = true) fun _ => False where
  ne := by
    rintro l h rfl
    cases h
  ends := by
    intro l t more h h'
    obtain ⟨out, hout⟩ := Option.isSome_iff_exists.1 h
    rw [exp_append hout] at h'
    cases h'
  starts _ _ _ := id

/-- **What is printed** for a text is one text. -/
theorem Translates.unique {behind : Nat → List Char} {text : List Char} {out out' : String}
    (h : Translates behind text out) (h' : Translates behind text out') : out = out' := by
  obtain ⟨lines, hf, h⟩ := h
  obtain ⟨lines', hf', h'⟩ := h'
  obtain rfl := exp_cuts.unique (hf.trans hf'.symm) (exps_accepts h) (exps_accepts h')
  exact Option.some.inj (h.symm.trans h')

/-- The text printed for `exp`s. -/
theorem exps_of_forall {lines : List (List Token)} {outs : List String} (hne : lines ≠ [])
    (h : List.Forall₂ (fun line out => exp line = some out) lines outs) :
    ∃ out, exps lines = some out ∧ out.toList = outs.flatMap String.toList := by
  induction h with
  | nil => exact absurd rfl hne
  | @cons line o lines outs ho hall ih =>
    cases hall with
    | nil => exact ⟨o, ho, by rw [List.flatMap_singleton]⟩
    | @cons l o' ls os ho' hall =>
      obtain ⟨out, hout, hlist⟩ := ih (List.cons_ne_nil _ _)
      refine ⟨o ++ out, ?_, ?_⟩
      · rw [exps, ho, hout]
        · rfl
        · exact List.cons_ne_nil _ _
      · rw [String.toList_append, hlist]
        rfl

end X86tov
