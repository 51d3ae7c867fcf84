import Emulathor.Lib.Mem

/-!
# A stack that grows downwards

`push m t c` writes the cells `c` of one entry at the address `t` of the first free entry;
`pushAll` writes several entries of `k` cells, each `k` below the one before. An entry is found `k * j`
below the first (`pushAll_get`), and nothing above the first entry or below the last changes
(`pushAll_outside`).
-/

namespace Lib

variable {w : Nat} {β : Type}

/-- Entries of `k` cells, the first at `t`. -/
def pushAll (k : Nat) (m : BitVec w → β) (t : BitVec w) : List (List β) → BitVec w → β
  | [] => m
  | c :: cs => pushAll k (writeN m t c) (t - BitVec.ofNat w k) cs

theorem toNat_sub_ofNat {a : BitVec w} {k : Nat} (h : k ≤ a.toNat) :
    (a - BitVec.ofNat w k).toNat = a.toNat - k := by
  have := a.isLt
  rw [BitVec.toNat_sub, BitVec.toNat_ofNat, Nat.mod_eq_of_lt (show k < 2 ^ w by omega),
    show 2 ^ w - k + a.toNat = a.toNat - k + 2 ^ w by omega, Nat.add_mod_right,
    Nat.mod_eq_of_lt (by omega)]

/-- Entries pushed within the address space leave every cell above the first entry and below the
last. -/
theorem pushAll_outside {k : Nat} {cs : List (List β)} (hc : ∀ c ∈ cs, c.length = k) :
    ∀ {m : BitVec w → β} {t i : BitVec w}, k * cs.length ≤ t.toNat + k → t.toNat + k ≤ 2 ^ w →
      t.toNat + k ≤ i.toNat ∨ i.toNat + k * cs.length < t.toNat + k →
      pushAll k m t cs i = m i := by
  induction cs with
  | nil => intro m t i _ _ _; rfl
  | cons c cs ih =>
    intro m t i hlow hup hout
    have hck : c.length = k := hc c (.head _)
    have hc' : ∀ c ∈ cs, c.length = k := fun c h => hc c (.tail _ h)
    have hfirst : writeN m t c i = m i := by
      refine writeN_outside (by omega) ?_
      rintro ⟨h1, h2⟩
      simp only [List.length_cons, Nat.mul_succ] at hout
      omega
    unfold pushAll
    cases cs with
    | nil => exact hfirst
    | cons c' cs =>
      simp only [List.length_cons, Nat.mul_succ] at hlow hout
      have ht : (t - BitVec.ofNat w k).toNat = t.toNat - k := toNat_sub_ofNat (by omega)
      rw [ih hc' (by simp only [List.length_cons, Nat.mul_succ]; omega) (by omega)
        (by simp only [List.length_cons, Nat.mul_succ]; omega), hfirst]

/-- The cells of the `j`-th entry. -/
theorem pushAll_get {k : Nat} {cs : List (List β)} (hc : ∀ c ∈ cs, c.length = k) :
    ∀ {m : BitVec w → β} {t : BitVec w} {j l : Nat}, k * cs.length ≤ t.toNat + k →
      t.toNat + k ≤ 2 ^ w → ∀ (hj : j < cs.length) (hl : l < cs[j].length),
      pushAll k m t cs (t - BitVec.ofNat w (k * j) + BitVec.ofNat w l) = cs[j][l] := by
  induction cs with
  | nil => intro m t j l _ _ hj; simp at hj
  | cons entry cs ih =>
    intro m t j l hlow hup hj hl
    have hck : entry.length = k := hc entry (.head _)
    have hc' : ∀ c ∈ cs, c.length = k := fun c h => hc c (.tail _ h)
    simp only [List.length_cons, Nat.mul_succ] at hlow
    unfold pushAll
    cases j with
    | zero =>
      simp only [List.getElem_cons_zero] at hl
      have hget : writeN m t entry (t + BitVec.ofNat w l) = entry[l] :=
        writeN_get (by omega) hl
      have hadd : (t + BitVec.ofNat w l).toNat = t.toNat + l := toNat_add_ofNat (by omega)
      rw [Nat.mul_zero, BitVec.sub_zero]
      cases cs with
      | nil => exact hget
      | cons c' cs =>
        simp only [List.length_cons, Nat.mul_succ] at hlow
        have ht : (t - BitVec.ofNat w k).toNat = t.toNat - k := toNat_sub_ofNat (by omega)
        rw [pushAll_outside hc' (by simp only [List.length_cons, Nat.mul_succ]; omega) (by omega)
          (.inl (by omega))]
        exact hget
    | succ j =>
      have hj' : j < cs.length := by simpa using hj
      have hkk : k * 1 ≤ k * cs.length := Nat.mul_le_mul_left k (by omega)
      have ht : (t - BitVec.ofNat w k).toNat = t.toNat - k := toNat_sub_ofNat (by omega)
      have hsub : t - BitVec.ofNat w (k * (j + 1))
          = t - BitVec.ofNat w k - BitVec.ofNat w (k * j) := by
        rw [BitVec.sub_sub, ← BitVec.ofNat_add, Nat.mul_succ, Nat.add_comm]
      simp only [List.getElem_cons_succ] at hl ⊢
      rw [hsub]
      exact ih hc' (by omega) (by omega) hj' hl

end Lib
