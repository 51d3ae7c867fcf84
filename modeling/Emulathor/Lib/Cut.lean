import Mathlib.Data.List.Basic

/-!
# Cutting a list into pieces

A list is cut into pieces that are accepted. Where what goes on behind a piece (`ends`) does not
start one (`starts`), there is only one way to cut it (`Cuts.unique`).
-/

namespace Lib

variable {τ : Type}

/-- Only `goesOn` comes between a piece and a longer one, and no piece starts with it. -/
structure Cuts (accepts : List τ → Prop) (goesOn : τ → Prop) : Prop where
  ne : ∀ l, accepts l → l ≠ []
  ends : ∀ l t more, accepts l → accepts (l ++ t :: more) → goesOn t
  starts : ∀ t l, accepts (t :: l) → ¬ goesOn t

namespace Cuts

variable {accepts : List τ → Prop} {goesOn : τ → Prop} (hc : Cuts accepts goesOn)
include hc

/-- The pieces start with a piece. -/
theorem flatten_cons {ls : List (List τ)} (h : ∀ l ∈ ls, accepts l) {t : τ} {more : List τ}
    (hf : ls.flatten = t :: more) : ¬ goesOn t := by
  cases ls with
  | nil => cases hf
  | cons l ls =>
    have hl := h l (.head _)
    cases l with
    | nil => exact absurd rfl (hc.ne [] hl)
    | cons s l =>
      obtain rfl := (List.cons.inj hf).1
      exact hc.starts s l hl

/-- Of two first pieces none goes on behind the other. -/
theorem first {l l' : List τ} {ls ls' : List (List τ)} (hf : (l :: ls).flatten = (l' :: ls').flatten)
    (h : ∀ p ∈ l :: ls, accepts p) (h' : ∀ p ∈ l' :: ls', accepts p) : l = l' := by
  have hrest : ∀ p ∈ ls, accepts p := fun p hp => h p (.tail _ hp)
  have hrest' : ∀ p ∈ ls', accepts p := fun p hp => h' p (.tail _ hp)
  rw [List.flatten_cons, List.flatten_cons, List.append_eq_append_iff] at hf
  obtain ⟨k, rfl, hk⟩ | ⟨k, rfl, hk⟩ := hf
  · cases k with
    | nil => exact (List.append_nil l).symm
    | cons t more =>
      exact absurd (hc.ends l t more (h l (.head _)) (h' _ (.head _))) (hc.flatten_cons hrest hk)
  · cases k with
    | nil => exact List.append_nil l'
    | cons t more =>
      exact absurd (hc.ends l' t more (h' l' (.head _)) (h _ (.head _))) (hc.flatten_cons hrest' hk)

/-- A piece at the front of the list is the first. -/
theorem peel {ls : List (List τ)} {l more : List τ} {t : τ} (hl : accepts l) (ht : ¬ goesOn t)
    (h : ∀ p ∈ ls, accepts p) (hf : ls.flatten = l ++ t :: more) :
    ∃ ls', ls = l :: ls' ∧ ls'.flatten = t :: more := by
  cases ls with
  | nil => exact absurd hf.symm (List.append_ne_nil_of_right_ne_nil _ (List.cons_ne_nil _ _))
  | cons p ps =>
    have hrest : ∀ q ∈ ps, accepts q := fun q hq => h q (.tail _ hq)
    rw [List.flatten_cons, List.append_eq_append_iff] at hf
    obtain ⟨k, rfl, hk⟩ | ⟨k, rfl, hk⟩ := hf
    · cases k with
      | nil => exact ⟨ps, by rw [List.append_nil], hk⟩
      | cons s k => exact absurd (hc.ends p s k (h p (.head _)) hl) (hc.flatten_cons hrest hk)
    · cases k with
      | nil => exact ⟨ps, by rw [List.append_nil], hk.symm⟩
      | cons s k =>
        obtain rfl := (List.cons.inj hk).1
        exact absurd (hc.ends l t k hl (h _ (.head _))) ht

/-- Pieces at the front of the list are the first. -/
theorem peel_append {ls ms : List (List τ)} {more : List τ} {t : τ} (hl : ∀ l ∈ ls, accepts l)
    (ht : ¬ goesOn t) (h : ∀ p ∈ ms, accepts p) (hf : ms.flatten = ls.flatten ++ t :: more) :
    ∃ ms', ms = ls ++ ms' ∧ ms'.flatten = t :: more := by
  induction ls generalizing ms with
  | nil => exact ⟨ms, rfl, hf⟩
  | cons l ls ih =>
    obtain ⟨hl, hls⟩ := List.forall_mem_cons.1 hl
    rw [List.flatten_cons, List.append_assoc] at hf
    obtain ⟨s, rest, hrest, hs⟩ : ∃ s rest, ls.flatten ++ t :: more = s :: rest ∧ ¬ goesOn s := by
      cases hflat : ls.flatten with
      | nil => exact ⟨t, more, rfl, ht⟩
      | cons s rest => exact ⟨s, rest ++ t :: more, rfl, hc.flatten_cons hls hflat⟩
    rw [hrest] at hf
    obtain ⟨ps, rfl, hps⟩ := hc.peel hl hs h hf
    obtain ⟨ms', rfl, hms'⟩ := ih hls (fun p hp => h p (.tail _ hp)) (hps.trans hrest.symm)
    exact ⟨ms', rfl, hms'⟩

/-- **The pieces** are determined by the list. -/
theorem unique {ls ls' : List (List τ)} (hf : ls.flatten = ls'.flatten) (h : ∀ l ∈ ls, accepts l)
    (h' : ∀ l ∈ ls', accepts l) : ls = ls' := by
  have empty {l : List τ} {ls : List (List τ)} (h : ∀ p ∈ l :: ls, accepts p) :
      (l :: ls).flatten ≠ [] := by
    rw [List.flatten_cons]
    exact List.append_ne_nil_of_left_ne_nil (hc.ne l (h l (.head _))) _
  induction ls generalizing ls' with
  | nil =>
    cases ls' with
    | nil => rfl
    | cons l' ls' => exact absurd hf.symm (empty h')
  | cons l ls ih =>
    cases ls' with
    | nil => exact absurd hf (empty h)
    | cons l' ls' =>
      obtain rfl := hc.first hf h h'
      rw [ih (List.append_cancel_left hf) (fun p hp => h p (.tail _ hp))
        fun p hp => h' p (.tail _ hp)]

end Cuts

end Lib
