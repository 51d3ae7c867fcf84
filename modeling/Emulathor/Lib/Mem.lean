import Mathlib.Algebra.Order.Ring.Nat

/-!
# A memory of cells

A memory is a function on `w`-bit addresses; `writeN m a bs` writes the cells `bs` from address `a`
up. Within the address space (no wrap-around) a write is read back (`writeN_get`) and changes no
other cell (`writeN_outside`).
-/

namespace Lib

variable {w : Nat} {β : Type}

def writeN (m : BitVec w → β) (a : BitVec w) : List β → BitVec w → β
  | [] => m
  | b :: bs => writeN (Function.update m a b) (a + 1#w) bs

/-- The cells a write of `n` cells at `a` touches. -/
def InSpan (a : BitVec w) (n : Nat) (i : BitVec w) : Prop :=
  a.toNat ≤ i.toNat ∧ i.toNat < a.toNat + n

theorem toNat_add_ofNat {a : BitVec w} {k : Nat} (h : a.toNat + k < 2 ^ w) :
    (a + BitVec.ofNat w k).toNat = a.toNat + k := by
  rw [BitVec.toNat_add, BitVec.toNat_ofNat, Nat.mod_eq_of_lt (show k < 2 ^ w by omega),
    Nat.mod_eq_of_lt h]

/-- A write leaves the cells outside its span. -/
theorem writeN_outside {bs : List β} : ∀ {m : BitVec w → β} {a i : BitVec w},
    a.toNat + bs.length ≤ 2 ^ w → ¬ InSpan a bs.length i → writeN m a bs i = m i := by
  induction bs with
  | nil => intro m a i _ _; rfl
  | cons b bs ih =>
    intro m a i hfit hout
    simp only [List.length_cons] at hfit hout
    have hne : i ≠ a := by
      rintro rfl
      exact hout ⟨Nat.le_refl _, by omega⟩
    unfold writeN
    cases bs with
    | nil => exact Function.update_of_ne hne ..
    | cons c bs =>
      have ha : (a + 1#w).toNat = a.toNat + 1 := toNat_add_ofNat (by simp at hfit; omega)
      rw [ih (by rw [ha]; omega) ?_, Function.update_of_ne hne]
      rintro ⟨h1, h2⟩
      rw [ha] at h1 h2
      exact hout ⟨by omega, by omega⟩

/-- A write is read back. -/
theorem writeN_get {bs : List β} : ∀ {m : BitVec w → β} {a : BitVec w} {k : Nat}
    (_ : a.toNat + bs.length ≤ 2 ^ w) (hk : k < bs.length),
    writeN m a bs (a + BitVec.ofNat w k) = bs[k] := by
  induction bs with
  | nil => intro m a k _ hk; simp at hk
  | cons b bs ih =>
    intro m a k hfit hk
    simp only [List.length_cons] at hfit hk
    unfold writeN
    cases k with
    | zero =>
      cases bs with
      | nil => simp [writeN]
      | cons c bs =>
        have ha : (a + 1#w).toNat = a.toNat + 1 := toNat_add_ofNat (by simp at hfit; omega)
        rw [writeN_outside (by rw [ha]; omega)]
        · simp
        · rintro ⟨h, -⟩
          rw [ha, BitVec.add_zero] at h
          exact Nat.not_succ_le_self _ h
    | succ k =>
      have ha : (a + 1#w).toNat = a.toNat + 1 := toNat_add_ofNat (by omega)
      have hadd : a + BitVec.ofNat w (k + 1) = a + 1#w + BitVec.ofNat w k := by
        rw [BitVec.add_assoc, Nat.add_comm k 1, BitVec.ofNat_add]
      rw [hadd, ih (by rw [ha]; omega) (by omega)]
      rfl

/-- Two updates at different places that do the same change nothing. -/
theorem update_swap {α β : Type*} [DecidableEq α] {f : α → β} {a b : α} {v w : β} (hab : a ≠ b) :
    Function.update f a v = Function.update f b w ↔ v = f a ∧ w = f b := by
  constructor
  · intro h
    have ha := congrFun h a
    have hb := congrFun h b
    rw [Function.update_self, Function.update_of_ne hab] at ha
    rw [Function.update_self, Function.update_of_ne hab.symm] at hb
    exact ⟨ha, hb.symm⟩
  · rintro ⟨rfl, rfl⟩
    rw [Function.update_eq_self, Function.update_eq_self]

end Lib
