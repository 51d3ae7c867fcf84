import Mathlib.Data.Nat.Cast.Basic
import Mathlib.Data.Int.Cast.Lemmas

/-!
# Bit vectors and exact integers

The operations on bit vectors of width `w` compute the exact integer result modulo `2 ^ w`
(`BitVec.ofInt w`), of the operands as unsigned (`toNat`) or signed (`toInt`) integers.
-/

namespace Lib

variable {w : Nat} (a b : BitVec w)

/-! ## Results -/

theorem ofInt_toNat : BitVec.ofInt w a.toNat = a := by
  rw [BitVec.ofInt_natCast, BitVec.ofNat_toNat, BitVec.setWidth_eq]

theorem ofInt_toNat_add : BitVec.ofInt w (a.toNat + b.toNat) = a + b := by
  rw [BitVec.ofInt_add, ofInt_toNat, ofInt_toNat]

theorem ofInt_toNat_sub : BitVec.ofInt w (a.toNat - b.toNat) = a - b := by
  rw [Int.sub_eq_add_neg, BitVec.ofInt_add, BitVec.ofInt_neg, ofInt_toNat, ofInt_toNat,
    BitVec.sub_eq_add_neg]

theorem ofInt_toNat_mul : BitVec.ofInt w (a.toNat * b.toNat) = a * b := by
  rw [BitVec.ofInt_mul, ofInt_toNat, ofInt_toNat]

theorem ofInt_toInt_mul : BitVec.ofInt w (a.toInt * b.toInt) = a * b := by
  rw [BitVec.ofInt_mul, BitVec.ofInt_toInt, BitVec.ofInt_toInt]

theorem ofInt_toNat_div : BitVec.ofInt w (a.toNat / b.toNat : Nat) = a / b := by
  rw [← BitVec.toNat_udiv, ofInt_toNat]

theorem ofInt_toNat_mod : BitVec.ofInt w (a.toNat % b.toNat : Nat) = a % b := by
  rw [← BitVec.toNat_umod, ofInt_toNat]

theorem ofInt_toNat_shiftLeft (n : Nat) : BitVec.ofInt w (a.toNat * 2 ^ n) = a <<< n := by
  have hpow : BitVec.ofInt w (2 ^ n) = BitVec.twoPow w n := by
    apply BitVec.eq_of_toNat_eq
    rw [BitVec.toNat_twoPow, ← BitVec.toNat_ofNat, ← BitVec.ofInt_natCast, Nat.cast_pow,
      Nat.cast_ofNat]
  rw [BitVec.shiftLeft_eq_mul_twoPow, BitVec.ofInt_mul, ofInt_toNat, hpow]

theorem ofInt_toNat_shiftRight (n : Nat) : BitVec.ofInt w (a.toNat / 2 ^ n : Nat) = a >>> n := by
  rw [← Nat.shiftRight_eq_div_pow, ← BitVec.toNat_ushiftRight, ofInt_toNat]

theorem ofInt_toInt_shiftRight (n : Nat) : BitVec.ofInt w (a.toInt / 2 ^ n) = a.sshiftRight n := by
  rw [← BitVec.ofInt_toInt (x := a.sshiftRight n), BitVec.toInt_sshiftRight,
    Int.shiftRight_eq_div_pow, Nat.cast_pow, Nat.cast_ofNat]

/-! ## Single bits -/

theorem and_twoPow_ne_zero {i : Nat} (hi : i < w) : a &&& BitVec.twoPow w i ≠ 0 ↔ a.getLsbD i := by
  have hne : BitVec.twoPow w i ≠ 0 := fun h => by
    have := congrArg (·.getLsbD i) h
    simp [hi] at this
  rw [BitVec.and_twoPow]
  cases a.getLsbD i with
  | false => simp
  | true => simpa using hne

/-- The lowest bit. -/
theorem and_one_ne_zero (hw : 0 < w) : a &&& 1#w ≠ 0 ↔ a.toNat % 2 = 1 := by
  have hone : 1#w = BitVec.twoPow w 0 := by rw [BitVec.twoPow_zero]
  rw [hone, and_twoPow_ne_zero a hw, BitVec.getLsbD, Nat.testBit_zero, decide_eq_true_eq]

/-- The highest bit. -/
theorem and_twoPow_ne_zero_top (hw : 0 < w) :
    a &&& BitVec.twoPow w (w - 1) ≠ 0 ↔ 2 ^ (w - 1) ≤ a.toNat := by
  rw [and_twoPow_ne_zero a (by omega), ← BitVec.msb_eq_getLsbD_last, BitVec.msb_eq_decide,
    decide_eq_true_eq]

end Lib
