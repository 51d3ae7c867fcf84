import Emulathor.Lib.Run

/-!
# Taint tracking

Which places of a state hold what must not matter. A place is tainted by what is written to it
(`Taint.put`), and a step may not look at a tainted place for what it does next. Where every step of
a machine takes states that agree outside the taint to states that agree outside the new one, so do
its runs (`tracked_run`).
-/

namespace Lib

variable {α : Type} [DecidableEq α]

/-- The tainted places. -/
abbrev Taint (α : Type) := α → Bool

namespace Taint

variable (D : Taint α) (t : Bool) (xs ys : List α)

/-- Every one of the places is clean. -/
def clean (D : Taint α) (xs : List α) : Bool := xs.all fun x => !D x

/-- The taint of what is computed from the places. -/
def of (D : Taint α) (xs : List α) : Bool := xs.any D

/-- The places are written something that is tainted or not. -/
def put : Taint α := fun x => if x ∈ xs then t else D x

variable {D t xs ys} {x : α}

omit [DecidableEq α] in
theorem clean_iff : D.clean xs = true ↔ ∀ x ∈ xs, D x = false := by
  simp [clean]

omit [DecidableEq α] in
theorem clean_append : D.clean (xs ++ ys) = true ↔ D.clean xs = true ∧ D.clean ys = true := by
  simp [clean]

omit [DecidableEq α] in
theorem of_eq_false : D.of xs = false ↔ D.clean xs = true := by
  simp [of, clean]

theorem put_append : D.put t (xs ++ ys) = (D.put t xs).put t ys := by
  funext x
  simp only [put, List.mem_append]
  by_cases hy : x ∈ ys
  · simp [hy]
  · simp [hy]

theorem put_cons : D.put t (x :: xs) = (D.put t [x]).put t xs := by
  rw [← List.singleton_append, put_append]

theorem put_nil : D.put t [] = D := by
  funext x
  exact if_neg List.not_mem_nil

/-- A place that is clean in spite of a write was written something clean, or not written. -/
theorem of_put (h : D.put t xs x = false) : (x ∈ xs ∧ t = false) ∨ (x ∉ xs ∧ D x = false) := by
  unfold put at h
  split at h
  · next hx => exact .inl ⟨hx, h⟩
  · next hx => exact .inr ⟨hx, h⟩

end Taint

/-! ## Runs -/

section
variable {σ ε ρ ι : Type}

/-- Both go on, or both return the same, in states that `R` relates. -/
def Flow.Both (R : σ → σ → Prop) : Flow σ ρ → Flow σ ρ → Prop
  | next s, next s' => R s s'
  | ret r s, ret r' s' => r = r' ∧ R s s'
  | _, _ => False

/-- The ways two steps or runs are alike. -/
theorem Flow.both_cases {R : σ → σ → Prop} {x y : Except ε (Flow σ ρ)}
    (h : Alike Eq (Flow.Both R) x y) :
    (∃ e, x = .error e ∧ y = .error e) ∨
    (∃ s s', x = .ok (.next s) ∧ y = .ok (.next s') ∧ R s s') ∨
    ∃ r s s', x = .ok (.ret r s) ∧ y = .ok (.ret r s') ∧ R s s' := by
  rcases x with e | ⟨s | ⟨r, s⟩⟩ <;> rcases y with e' | ⟨s' | ⟨r', s'⟩⟩
  · cases (show e = e' from h)
    exact .inl ⟨e, rfl, rfl⟩
  · exact h.elim
  · exact h.elim
  · exact h.elim
  · exact .inr (.inl ⟨s, s', rfl, rfl, h⟩)
  · exact h.elim
  · exact h.elim
  · exact h.elim
  · obtain ⟨rfl, hR⟩ := h
    exact .inr (.inr ⟨r, s, s', rfl, rfl, hR⟩)

variable (step : σ → Except ε (Flow σ ρ)) (track : ι → σ → ι) (safe : ι → σ → Bool)

/-- What has been tracked after `n` steps. -/
def tracked : Nat → ι → σ → ι
  | 0, i, _ => i
  | n + 1, i, s =>
    match step s with
    | .ok (.next s1) => tracked n (track i s) s1
    | _ => track i s

/-- Each of the first `n` steps is safe for what has been tracked so far. -/
def safeRun : Nat → ι → σ → Bool
  | 0, _, _ => true
  | n + 1, i, s => safe i s &&
    match step s with
    | .ok (.next s1) => safeRun n (track i s) s1
    | _ => true

variable {step track safe} {R : ι → σ → σ → Prop}

/-- **Runs**: what the tracking relates before a run it relates after. -/
theorem tracked_run
    (hstep : ∀ i s s', R i s s' → safe i s = true →
      Alike Eq (Flow.Both (R (track i s))) (step s) (step s')) {n : Nat} {i : ι} {s s' : σ}
    (h : R i s s') (hs : safeRun step track safe n i s = true) :
    Alike Eq (Flow.Both (R (tracked step track n i s))) (iterate step n s) (iterate step n s') := by
  induction n generalizing i s s' with
  | zero => exact h
  | succ n ih =>
    obtain ⟨hsafe, hrest⟩ := Bool.and_eq_true_iff.1 hs
    unfold iterate tracked
    rcases Flow.both_cases (hstep i s s' h hsafe) with
      ⟨e, hx, hy⟩ | ⟨s1, s1', hx, hy, hR⟩ | ⟨r, s1, s1', hx, hy, hR⟩
    · rw [hx, hy]
      rfl
    · rw [hx] at hrest
      rw [hx, hy]
      exact ih hR hrest
    · rw [hx, hy]
      exact ⟨rfl, hR⟩

end

end Lib
