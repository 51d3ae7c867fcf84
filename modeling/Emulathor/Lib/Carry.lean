import Mathlib.Data.Nat.Digits.Defs

/-!
# Carry chains

A number in digits of base `B`, lowest first, to which a carry is added at the low end (`σ = 1`) or
from which a borrow is taken (`σ = -1`), digit by digit. Each column hands a carry on
(`Ripple.cons`); together they add the first carry to the whole number, and what the last one hands
on counts `B ^ n` (`Ripple.total`). If the last carry is 0 or 1 this is the exact result modulo
`B ^ n` and whether it left the range (`Ripple.result`, `Ripple.carry_iff`).
-/

namespace Lib

/-- `c` goes into the digits `ds`, `ds'` are left and `c'` comes out. -/
inductive Ripple (σ B : ℤ) : ℤ → List ℕ → List ℕ → ℤ → Prop
  | nil {c : ℤ} : Ripple σ B c [] [] c
  | cons {c c₁ c' : ℤ} {d d' : ℕ} {ds ds' : List ℕ} (column : d' + σ * B * c₁ = d + σ * c)
    (rest : Ripple σ B c₁ ds ds' c') : Ripple σ B c (d :: ds) (d' :: ds') c'

section
variable {σ B c c' : ℤ} {ds ds' : List ℕ}

/-- **The columns together.** -/
theorem Ripple.total (h : Ripple σ B c ds ds' c') :
    Nat.ofDigits B ds' + σ * B ^ ds.length * c' = Nat.ofDigits B ds + σ * c := by
  induction h with
  | nil => simp
  | @cons c c₁ c' d d' ds ds' column _ ih =>
    simp only [List.length_cons, pow_succ]
    calc d' + B * Nat.ofDigits B ds' + σ * (B ^ ds.length * B) * c'
        = d' + B * (Nat.ofDigits B ds' + σ * B ^ ds.length * c') := by ring
      _ = (d' + σ * B * c₁) + B * Nat.ofDigits B ds := by rw [ih]; ring
      _ = d + B * Nat.ofDigits B ds + σ * c := by rw [column]; ring

theorem Ripple.length (h : Ripple σ B c ds ds' c') : ds'.length = ds.length := by
  induction h with
  | nil => rfl
  | cons _ _ ih => rw [List.length_cons, List.length_cons, ih]

end

/-- A number in digits lies below the power of the base. -/
theorem ofDigits_bounds {b : ℕ} (hb : 1 < b) {ds : List ℕ} (h : ∀ d ∈ ds, d < b) :
    (0 : ℤ) ≤ Nat.ofDigits (b : ℤ) ds ∧ Nat.ofDigits (b : ℤ) ds < (b : ℤ) ^ ds.length := by
  have hlt := Nat.ofDigits_lt_base_pow_length hb h
  rw [← Nat.coe_ofDigits]
  exact ⟨Int.natCast_nonneg _, by exact_mod_cast hlt⟩

section
variable {σ c c' : ℤ} {b : ℕ} {ds ds' : List ℕ}

/-- The digits left are the exact result modulo `b ^ n`. -/
theorem Ripple.result (h : Ripple σ b c ds ds' c') (hb : 1 < b) (hds' : ∀ d ∈ ds', d < b) :
    ((Nat.ofDigits b ds' : ℕ) : ℤ)
      = ((Nat.ofDigits b ds : ℕ) + σ * c) % (b : ℤ) ^ ds.length := by
  obtain ⟨hge, hlt⟩ := ofDigits_bounds hb hds'
  rw [Nat.coe_ofDigits, Nat.coe_ofDigits]
  rw [h.length] at hlt
  rw [← h.total, mul_assoc, mul_comm ((b : ℤ) ^ ds.length), ← mul_assoc, Int.add_mul_emod_self_right,
    Int.emod_eq_of_lt hge hlt]

/-- A carry out of 0 or 1 tells whether the exact result is out of range. -/
theorem Ripple.carry_iff (h : Ripple σ b c ds ds' c') (hb : 1 < b) (hds' : ∀ d ∈ ds', d < b)
    (hσ : σ = 1 ∨ σ = -1) (hc' : c' = 0 ∨ c' = 1) :
    c' = 1 ↔ ¬ (0 ≤ ((Nat.ofDigits b ds : ℕ) : ℤ) + σ * c ∧
      ((Nat.ofDigits b ds : ℕ) : ℤ) + σ * c < (b : ℤ) ^ ds.length) := by
  obtain ⟨hge, hlt⟩ := ofDigits_bounds hb hds'
  rw [Nat.coe_ofDigits]
  rw [h.length] at hlt
  rw [← h.total]
  rcases hc' with rfl | rfl
  · simp [hge, hlt]
  · rcases hσ with rfl | rfl
    · refine iff_of_true rfl fun hin => ?_
      linarith
    · refine iff_of_true rfl fun hin => ?_
      linarith

end

end Lib
