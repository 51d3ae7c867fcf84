import Emulathor.Lib.Run

/-!
# Simulation

A machine that may go wrong (`Except.error none`) is simulated by another when each of its steps is
matched by one step or more of the other (`Simulates`). Then so are its runs (`Simulates.run`). Of a
machine that does not go wrong the other returns and stops exactly as it does (`Simulates.ret_iff`,
`Simulates.error_iff`): both are functions of their state, so what the second does within `n` steps
the first has to do, too.
-/

namespace Lib

variable {α σ ε ρ : Type}

/-- A run that has come to an end stays there. -/
theorem iterate_stop {step : σ → Except ε (Flow σ ρ)} {m n : Nat} {s : σ} (hmn : n ≤ m)
    (h : ∀ s', iterate step n s ≠ .ok (.next s')) : iterate step m s = iterate step n s := by
  induction n generalizing m s with
  | zero => exact absurd rfl (h s)
  | succ n ih =>
    obtain ⟨m, rfl⟩ : ∃ k, m = k + 1 := ⟨m - 1, by omega⟩
    cases hs : step s with
    | error e => simp [iterate, hs]
    | ok f =>
      cases f with
      | ret r s1 => simp [iterate, hs]
      | next s1 =>
        rw [iterate_next hs] at h
        rw [iterate_next hs, iterate_next hs]
        exact ih (by omega) h

/-- What a step or a run of the first machine leads to, and what one of the second does. Nothing is
asked where the first goes wrong. -/
def Matches (R F : α → σ → Prop) : Except (Option ε) (Flow α ρ) → Except ε (Flow σ ρ) → Prop
  | .ok (.next a), .ok (.next s) => R a s
  | .ok (.ret r a), .ok (.ret r' s) => r = r' ∧ F a s
  | .error (some e), .error e' => e = e'
  | .error none, _ => True
  | _, _ => False

section
variable {R F : α → σ → Prop} {x : Except (Option ε) (Flow α ρ)} {y : Except ε (Flow σ ρ)}

/-- What ends a run of the first machine ends one of the second. -/
theorem Matches.ends (h : Matches R F x y) (hx : ∀ a, x ≠ .ok (.next a)) (hw : x ≠ .error none)
    (s : σ) : y ≠ .ok (.next s) := by
  rintro rfl
  rcases x with (_ | e) | ⟨a | ⟨r, a⟩⟩
  · exact hw rfl
  · exact h
  · exact hx _ rfl
  · exact h

theorem Matches.of_next {a : α} (h : Matches R F (.ok (.next a)) y) :
    ∃ s, y = .ok (.next s) ∧ R a s := by
  rcases y with e | ⟨s | ⟨r, s⟩⟩
  · exact h.elim
  · exact ⟨s, rfl, h⟩
  · exact h.elim

theorem Matches.of_ret {r : ρ} {a : α} (h : Matches R F (.ok (.ret r a)) y) :
    ∃ s, y = .ok (.ret r s) ∧ F a s := by
  rcases y with e | ⟨s | ⟨r', s⟩⟩
  · exact h.elim
  · exact h.elim
  · obtain ⟨rfl, hF⟩ := h
    exact ⟨s, rfl, hF⟩

theorem Matches.of_error {e : ε} (h : Matches R F (.error (some e)) y) : y = .error e := by
  rcases y with e' | ⟨s | ⟨r, s⟩⟩
  · exact congrArg Except.error h.symm
  · exact h.elim
  · exact h.elim

theorem Matches.to_ret {r : ρ} {s : σ} (h : Matches R F x (.ok (.ret r s))) (hw : x ≠ .error none) :
    ∃ a, x = .ok (.ret r a) ∧ F a s := by
  rcases x with (_ | e) | ⟨a | ⟨r', a⟩⟩
  · exact absurd rfl hw
  · exact h.elim
  · exact h.elim
  · obtain ⟨rfl, hF⟩ := h
    exact ⟨a, rfl, hF⟩

theorem Matches.to_error {e : ε} (h : Matches R F x (.error e)) (hw : x ≠ .error none) :
    x = .error (some e) := by
  rcases x with (_ | e') | ⟨a | ⟨r, a⟩⟩
  · exact absurd rfl hw
  · exact congrArg (Except.error ∘ some) h
  · exact h.elim
  · exact h.elim

end

/-- Every step of `first`, from related states, is one or more of `second`. -/
def Simulates (first : α → Except (Option ε) (Flow α ρ)) (second : σ → Except ε (Flow σ ρ))
    (R F : α → σ → Prop) : Prop :=
  ∀ a s, R a s → ∃ n, Matches R F (first a) (iterate second (n + 1) s)

section
variable {first : α → Except (Option ε) (Flow α ρ)} {second : σ → Except ε (Flow σ ρ)}
  {R F : α → σ → Prop} {a : α} {s : σ}

/-- **Runs are simulated**, in at least as many steps. -/
theorem Simulates.run (h : Simulates first second R F) (hR : R a s) (n : Nat) :
    ∃ m, n ≤ m ∧ Matches R F (iterate first n a) (iterate second m s) := by
  induction n generalizing a s with
  | zero => exact ⟨0, Nat.le_refl 0, hR⟩
  | succ n ih =>
    obtain ⟨k, hk⟩ := h a s hR
    by_cases hnext : ∃ a1, first a = .ok (.next a1)
    · obtain ⟨a1, hf⟩ := hnext
      rw [hf] at hk
      obtain ⟨s1, hs, hR1⟩ := hk.of_next
      obtain ⟨m, hm, hmatch⟩ := ih hR1
      refine ⟨k + 1 + m, by omega, ?_⟩
      rw [iterate_next hf, iterate_add hs]
      exact hmatch
    · -- the step ends the run
      have hx : iterate first (n + 1) a = first a := by
        rcases hf : first a with e | ⟨a1 | ⟨r, a1⟩⟩
        · simp [iterate, hf]
        · exact absurd ⟨a1, hf⟩ hnext
        · simp [iterate, hf]
      rw [hx]
      by_cases hw : first a = .error none
      · exact ⟨n + 1, Nat.le_refl _, by rw [hw]; trivial⟩
      · refine ⟨max (n + 1) (k + 1), Nat.le_max_left .., ?_⟩
        rwa [iterate_stop (Nat.le_max_right ..) (hk.ends (not_exists.1 hnext) hw)]

/-- The machine never goes wrong from here. -/
def NeverWrong (first : α → Except (Option ε) (Flow α ρ)) (a : α) : Prop :=
  ∀ n, iterate first n a ≠ .error none

/-- A run that returns does not go wrong. -/
theorem neverWrong_of_ret {n : Nat} {a' : α} {r : ρ} (h : iterate first n a = .ok (.ret r a')) :
    NeverWrong first a := by
  intro m hm
  rcases Nat.le_total m n with hle | hle
  · rw [iterate_stop hle (by rw [hm]; nofun), hm] at h
    cases h
  · rw [iterate_stop hle (by rw [h]; nofun), h] at hm
    cases hm

/-- A run of the second that has ended matches one of the first of as many steps. -/
theorem Simulates.matches_end (h : Simulates first second R F) (hR : R a s) {n : Nat}
    (hs : ∀ s', iterate second n s ≠ .ok (.next s')) :
    Matches R F (iterate first n a) (iterate second n s) := by
  obtain ⟨m, hm, hmatch⟩ := h.run hR n
  rwa [iterate_stop hm hs] at hmatch

/-- **Returning**: both machines return the same, in states that `F` relates. -/
theorem Simulates.ret_iff (h : Simulates first second R F) (hR : R a s) (hw : NeverWrong first a)
    (hF : ∀ a s s', F a s → F a s' → s = s') {r : ρ} {s' : σ} :
    (∃ n, iterate second n s = .ok (.ret r s')) ↔
      ∃ n a', iterate first n a = .ok (.ret r a') ∧ F a' s' := by
  constructor
  · rintro ⟨n, hs⟩
    have hmatch := h.matches_end hR (n := n) (by rw [hs]; nofun)
    rw [hs] at hmatch
    exact ⟨n, hmatch.to_ret (hw n)⟩
  · rintro ⟨n, a', ha, hF'⟩
    obtain ⟨m, -, hmatch⟩ := h.run hR n
    rw [ha] at hmatch
    obtain ⟨s1, hs, hF1⟩ := hmatch.of_ret
    exact ⟨m, by rw [hs, hF _ _ _ hF1 hF']⟩

/-- **Stopping**: both machines stop with the same error. -/
theorem Simulates.error_iff (h : Simulates first second R F) (hR : R a s) (hw : NeverWrong first a)
    {e : ε} : (∃ n, iterate second n s = .error e) ↔ ∃ n, iterate first n a = .error (some e) := by
  constructor
  · rintro ⟨n, hs⟩
    have hmatch := h.matches_end hR (n := n) (by rw [hs]; nofun)
    rw [hs] at hmatch
    exact ⟨n, hmatch.to_error (hw n)⟩
  · rintro ⟨n, ha⟩
    obtain ⟨m, -, hmatch⟩ := h.run hR n
    rw [ha] at hmatch
    exact ⟨m, hmatch.of_error⟩

end

end Lib
