import Mathlib.Algebra.Order.Ring.Nat
import Mathlib.Data.Nat.Digits.Defs

/-!
# Bytes and nibbles of bit vectors

Shifting, masking and truncating is how a C program takes a machine word apart, shifting and or-ing
how it puts one together. The lemmas here say that the two undo each other: `setWidth_and_mask`
drops a mask the truncation makes superfluous, `join2_*`/`join4_*` read a part back from a joined
word, and `join2_split`/`join4_split` join the parts of a word back to it. `pack_hi` and
`pack_lo` are the same for two fields of any width in one word, `littleEndian_byteAt` for all bytes
of a word as digits.
-/

namespace Lib

variable {w v : Nat}

/-- A mask with ones below `v` does not matter to the low `v` bits. -/
theorem setWidth_and_mask (x m : BitVec w) (hm : ∀ i < v, m.getLsbD i = true) :
    (x &&& m).setWidth v = x.setWidth v := by
  apply BitVec.eq_of_getLsbD_eq
  intro i hi
  simp [hi, hm i hi]

/-- Bits set or cleared do not show under a mask without them. -/
theorem or_and_disjoint {x f g : BitVec w} (h : f &&& g = 0) : (x ||| f) &&& g = x &&& g := by
  rw [BitVec.and_or_distrib_right, h]
  exact BitVec.or_zero

theorem and_not_and_disjoint {x f g : BitVec w} (h : f &&& g = 0) :
    (x &&& ~~~f) &&& g = x &&& g := by
  apply BitVec.eq_of_getLsbD_eq
  intro i hi
  have hbit : (f &&& g).getLsbD i = (0 : BitVec w).getLsbD i := by rw [h]
  simp only [BitVec.getLsbD_and, BitVec.getLsbD_not, hi, decide_true, Bool.true_and] at hbit ⊢
  cases hf : f.getLsbD i with
  | false => simp
  | true =>
    have hg : g.getLsbD i = false := by simpa [hf] using hbit
    simp [hg]

/-- A mask before a shift. -/
theorem ushiftRight_and (x m : BitVec w) (s : Nat) : (x >>> s) &&& m = (x &&& (m <<< s)) >>> s := by
  refine BitVec.eq_of_getLsbD_eq fun i hi => ?_
  simp only [BitVec.getLsbD_and, BitVec.getLsbD_ushiftRight, BitVec.getLsbD_shiftLeft,
    Nat.add_sub_cancel_left]
  by_cases hs : s + i < w
  · simp [hs, show ¬ s + i < s by omega]
  · simp [BitVec.getLsbD_of_ge x (s + i) (by omega)]

/-- The part of `x` outside the mask, and `y` inside. -/
theorem insert_and_mask (x y m : BitVec w) : ((x &&& ~~~m) ||| y) &&& m = y &&& m := by
  refine BitVec.eq_of_getLsbD_eq fun i hi => ?_
  simp only [BitVec.getLsbD_and, BitVec.getLsbD_or, BitVec.getLsbD_not, hi, decide_true,
    Bool.true_and]
  cases m.getLsbD i <;> simp

theorem insert_and_not_mask {x y m : BitVec w} (h : y &&& ~~~m = 0) :
    ((x &&& ~~~m) ||| y) &&& ~~~m = x &&& ~~~m := by
  rw [or_and_disjoint h, BitVec.and_assoc, BitVec.and_self]

theorem shifted_and_not_mask {y : BitVec v} {m : BitVec w} {s : Nat}
    (hm : ∀ i < v, m.getLsbD i = true) : (y.setWidth w <<< s) &&& ~~~(m <<< s) = 0 := by
  refine BitVec.eq_of_getLsbD_eq fun i hi => ?_
  simp only [BitVec.getLsbD_and, BitVec.getLsbD_not, BitVec.getLsbD_shiftLeft,
    BitVec.getLsbD_setWidth, hi, decide_true, Bool.true_and]
  by_cases hs : i < s
  · simp [hs]
  by_cases hv : i - s < v
  · simp [hs, hm _ hv]
  · simp [BitVec.getLsbD_of_ge y (i - s) (by omega)]

theorem or_and_mask (x f : BitVec w) : (x ||| f) &&& f = f := by
  refine BitVec.eq_of_getLsbD_eq fun i _ => ?_
  rw [BitVec.getLsbD_and, BitVec.getLsbD_or]
  cases f.getLsbD i <;> simp

/-! ## Two bytes in a word -/

/-- The word with high byte `hi` and low byte `lo`. -/
def join2 (hi lo : BitVec 8) : BitVec 16 := (hi.setWidth 16 <<< 8) ||| lo.setWidth 16

theorem join2_lo (hi lo : BitVec 8) : (join2 hi lo).setWidth 8 = lo := by
  apply BitVec.eq_of_getLsbD_eq
  intro i hi'
  simp only [join2, BitVec.getLsbD_or, BitVec.getLsbD_shiftLeft, BitVec.getLsbD_setWidth]
  grind

theorem join2_hi (hi lo : BitVec 8) : (join2 hi lo >>> 8).setWidth 8 = hi := by
  apply BitVec.eq_of_getLsbD_eq
  intro i hi'
  simp only [join2, BitVec.getLsbD_or, BitVec.getLsbD_shiftLeft, BitVec.getLsbD_setWidth,
    BitVec.getLsbD_ushiftRight]
  grind

theorem join2_split (x : BitVec 16) : join2 ((x >>> 8).setWidth 8) (x.setWidth 8) = x := by
  apply BitVec.eq_of_getLsbD_eq
  intro i hi
  simp only [join2, BitVec.getLsbD_or, BitVec.getLsbD_shiftLeft, BitVec.getLsbD_setWidth,
    BitVec.getLsbD_ushiftRight]
  grind

/-! ## Four bytes in a double word -/

/-- The double word with the bytes `uh`, `ul`, `lh`, `ll`, from the top. -/
def join4 (uh ul lh ll : BitVec 8) : BitVec 32 :=
  (uh.setWidth 32 <<< 24) ||| (ul.setWidth 32 <<< 16) ||| (lh.setWidth 32 <<< 8) ||| ll.setWidth 32

section
variable (uh ul lh ll : BitVec 8)

theorem join4_ll : (join4 uh ul lh ll).setWidth 8 = ll := by
  apply BitVec.eq_of_getLsbD_eq
  intro i hi
  simp only [join4, BitVec.getLsbD_or, BitVec.getLsbD_shiftLeft, BitVec.getLsbD_setWidth]
  grind

theorem join4_lh : (join4 uh ul lh ll >>> 8).setWidth 8 = lh := by
  apply BitVec.eq_of_getLsbD_eq
  intro i hi
  simp only [join4, BitVec.getLsbD_or, BitVec.getLsbD_shiftLeft, BitVec.getLsbD_setWidth,
    BitVec.getLsbD_ushiftRight]
  grind

theorem join4_ul : (join4 uh ul lh ll >>> 16).setWidth 8 = ul := by
  apply BitVec.eq_of_getLsbD_eq
  intro i hi
  simp only [join4, BitVec.getLsbD_or, BitVec.getLsbD_shiftLeft, BitVec.getLsbD_setWidth,
    BitVec.getLsbD_ushiftRight]
  grind

theorem join4_uh : (join4 uh ul lh ll >>> 24).setWidth 8 = uh := by
  apply BitVec.eq_of_getLsbD_eq
  intro i hi
  simp only [join4, BitVec.getLsbD_or, BitVec.getLsbD_shiftLeft, BitVec.getLsbD_setWidth,
    BitVec.getLsbD_ushiftRight]
  grind

end

theorem join4_split (x : BitVec 32) :
    join4 ((x >>> 24).setWidth 8) ((x >>> 16).setWidth 8) ((x >>> 8).setWidth 8) (x.setWidth 8)
      = x := by
  apply BitVec.eq_of_getLsbD_eq
  intro i hi
  simp only [join4, BitVec.getLsbD_or, BitVec.getLsbD_shiftLeft, BitVec.getLsbD_setWidth,
    BitVec.getLsbD_ushiftRight]
  grind

/-! ## Bytes by number -/

/-- Byte `k`, from the bottom. -/
def byteAt (x : BitVec w) (k : Nat) : BitVec 8 := (x >>> (8 * k)).setWidth 8

theorem getLsbD_byteAt (x : BitVec w) {k i : Nat} (hi : i < 8) :
    (byteAt x k).getLsbD i = x.getLsbD (8 * k + i) := by
  simp [byteAt, hi]

theorem byteAt_self (b : BitVec 8) : byteAt b 0 = b := by
  rw [byteAt, Nat.mul_zero, BitVec.ushiftRight_zero, BitVec.setWidth_eq]

theorem byteAt_join2 (hi lo : BitVec 8) :
    byteAt (join2 hi lo) 0 = lo ∧ byteAt (join2 hi lo) 1 = hi := by
  constructor
  · rw [byteAt, Nat.mul_zero, BitVec.ushiftRight_zero]
    exact join2_lo hi lo
  · exact join2_hi hi lo

theorem byteAt_join4 (uh ul lh ll : BitVec 8) : byteAt (join4 uh ul lh ll) 0 = ll ∧
    byteAt (join4 uh ul lh ll) 1 = lh ∧ byteAt (join4 uh ul lh ll) 2 = ul ∧
    byteAt (join4 uh ul lh ll) 3 = uh := by
  refine ⟨?_, join4_lh .., join4_ul .., join4_uh ..⟩
  rw [byteAt, Nat.mul_zero, BitVec.ushiftRight_zero]
  exact join4_ll uh ul lh ll

/-- A field of `n` bytes read from byte `s` up, with the mask `m` of `8 * n` ones. -/
theorem byteAt_field {x m : BitVec w} {n s k : Nat} (hm : ∀ i < w, m.getLsbD i = decide (i < 8 * n))
    (hv : v = 8 * n) (hk : k < n) :
    byteAt (((x >>> (8 * s)) &&& m).setWidth v) k = byteAt x (s + k) := by
  apply BitVec.eq_of_getLsbD_eq
  intro i hi
  rw [getLsbD_byteAt _ hi, getLsbD_byteAt _ hi, BitVec.getLsbD_setWidth, BitVec.getLsbD_and,
    BitVec.getLsbD_ushiftRight, show 8 * s + (8 * k + i) = 8 * (s + k) + i by omega]
  by_cases hw : 8 * k + i < w
  · rw [hm _ hw]
    simp [show 8 * k + i < v by omega, show 8 * k + i < 8 * n by omega]
  · simp [BitVec.getLsbD_of_ge x (8 * (s + k) + i) (by omega),
      BitVec.getLsbD_of_ge m (8 * k + i) (by omega)]

/-- A field of `n` bytes put in from byte `s` up, with the mask `m` of `8 * n` ones. -/
theorem byteAt_insert {x m : BitVec w} {y : BitVec v} {n s k : Nat}
    (hm : ∀ i < w, m.getLsbD i = decide (i < 8 * n)) (hv : v = 8 * n) (hk : 8 * k + 8 ≤ w) :
    byteAt ((x &&& ~~~(m <<< (8 * s))) ||| (y.setWidth w <<< (8 * s))) k
      = if s ≤ k ∧ k < s + n then byteAt y (k - s) else byteAt x k := by
  apply BitVec.eq_of_getLsbD_eq
  intro i hi
  have hlt : 8 * k + i < w := by omega
  simp only [getLsbD_byteAt _ hi, BitVec.getLsbD_or, BitVec.getLsbD_and, BitVec.getLsbD_not,
    BitVec.getLsbD_shiftLeft, BitVec.getLsbD_setWidth, hlt, decide_true, Bool.true_and]
  by_cases hs : 8 * k + i < 8 * s
  · rw [if_neg (by omega), getLsbD_byteAt _ hi]
    simp [hs]
  have hsub : 8 * k + i - 8 * s < w := by omega
  rw [hm _ hsub]
  by_cases hn : k < s + n
  · rw [if_pos (by omega), getLsbD_byteAt _ hi, show 8 * (k - s) + i = 8 * k + i - 8 * s by omega]
    simp [hs, hsub, show 8 * k + i - 8 * s < 8 * n by omega]
  · rw [if_neg (by omega), getLsbD_byteAt _ hi]
    simp [hs, show ¬ 8 * k + i - 8 * s < 8 * n by omega,
      BitVec.getLsbD_of_ge y (8 * k + i - 8 * s) (by omega)]

/-! ## Little-endian composition -/

/-- The number with the bytes `bs`, the lowest first. -/
def littleEndian (w : Nat) (bs : List (BitVec 8)) : BitVec w :=
  BitVec.ofNat w (Nat.ofDigits 256 (bs.map BitVec.toNat))

theorem ofDigits_div_mod {b x n : Nat} (h : x < b ^ n) :
    Nat.ofDigits b ((List.range n).map fun k => x / b ^ k % b) = x := by
  induction n generalizing x with
  | zero =>
    rw [Nat.pow_zero] at h
    rw [Nat.lt_one_iff.1 h]
    rfl
  | succ n ih =>
    have hdiv : x / b < b ^ n := by
      rw [Nat.pow_succ] at h
      exact Nat.div_lt_of_lt_mul (by rwa [Nat.mul_comm])
    have htail : ((List.range n).map fun k => x / b ^ (k + 1) % b)
        = (List.range n).map fun k => x / b / b ^ k % b :=
      List.map_congr_left fun k _ => by rw [Nat.pow_succ', Nat.div_div_eq_div_mul]
    rw [List.range_succ_eq_map, List.map_cons, List.map_map, Nat.ofDigits_cons]
    show x / b ^ 0 % b + b * Nat.ofDigits b ((List.range n).map fun k => x / b ^ (k + 1) % b) = x
    rw [htail, ih hdiv, Nat.pow_zero, Nat.div_one, Nat.mod_add_div]

/-- A number is composed of its bytes. -/
theorem littleEndian_byteAt (x : BitVec w) {n : Nat} (h : w ≤ 8 * n) :
    littleEndian w ((List.range n).map (byteAt x)) = x := by
  have hlt : x.toNat < 256 ^ n := by
    calc x.toNat < 2 ^ w := x.isLt
      _ ≤ 2 ^ (8 * n) := Nat.pow_le_pow_right (by decide) h
      _ = 256 ^ n := Nat.pow_mul 2 8 n
  have hbytes : ((List.range n).map (byteAt x)).map BitVec.toNat
      = (List.range n).map fun k => x.toNat / 256 ^ k % 256 := by
    rw [List.map_map]
    refine List.map_congr_left fun k _ => ?_
    show (byteAt x k).toNat = _
    rw [byteAt, BitVec.toNat_setWidth, BitVec.toNat_ushiftRight, Nat.shiftRight_eq_div_pow,
      Nat.pow_mul]
  rw [littleEndian, hbytes, ofDigits_div_mod hlt, BitVec.ofNat_toNat, BitVec.setWidth_eq]

example : littleEndian 32 [0x44, 0x33, 0x22, 0x11] = 0x11223344 := by decide

/-! ## Two fields in one word -/

theorem getLsbD_of_lt {x : BitVec w} {k i : Nat} (h : x.toNat < 2 ^ k) (hi : k ≤ i) :
    x.getLsbD i = false :=
  Nat.testBit_lt_two_pow (Nat.lt_of_lt_of_le h (Nat.pow_le_pow_right (by decide) hi))

/-- The upper field of a word packed from a field `a` and a `k`-bit field `b`. -/
theorem pack_hi {a b : BitVec w} {k : Nat} (hk : k ≤ w) (ha : a.toNat < 2 ^ (w - k))
    (hb : b.toNat < 2 ^ k) : ((a <<< k) ||| b) >>> k = a := by
  apply BitVec.eq_of_getLsbD_eq
  intro i hi
  have hbi : b.getLsbD (k + i) = false := getLsbD_of_lt hb (by omega)
  simp only [BitVec.getLsbD_ushiftRight, BitVec.getLsbD_or, BitVec.getLsbD_shiftLeft, hbi,
    Bool.or_false, Nat.add_sub_cancel_left]
  by_cases hlt : k + i < w
  · simp [hlt]
  · simp [hlt, getLsbD_of_lt ha (show w - k ≤ i by omega)]

/-- The lower field of such a word, read with the mask `m` of `k` ones. -/
theorem pack_lo {a b m : BitVec w} {k : Nat} (hb : b.toNat < 2 ^ k)
    (hm : ∀ i < w, m.getLsbD i = decide (i < k)) : ((a <<< k) ||| b) &&& m = b := by
  apply BitVec.eq_of_getLsbD_eq
  intro i hi
  simp only [BitVec.getLsbD_and, BitVec.getLsbD_or, BitVec.getLsbD_shiftLeft, hm i hi]
  by_cases hik : i < k
  · simp [hik]
  · simp [hik, getLsbD_of_lt hb (show k ≤ i by omega)]

/-! ## Sign extension -/

/-- The low `k` bits masked out, and the rest set if bit `k - 1` is. -/
theorem signExtend_masked (x mask sign high : BitVec w) {k : Nat} (hk : 0 < k)
    (hkw : k ≤ w) (hmask : ∀ i < w, mask.getLsbD i = decide (i < k))
    (hsign : ∀ i < w, sign.getLsbD i = decide (i = k - 1))
    (hhigh : ∀ i < w, high.getLsbD i = decide (k ≤ i)) :
    (if x &&& mask &&& sign ≠ 0 then high ||| (x &&& mask) else x &&& mask)
      = (x.setWidth k).signExtend w := by
  have hmsb : (x.setWidth k).msb = x.getLsbD (k - 1) := by
    rw [BitVec.msb_eq_getLsbD_last, BitVec.getLsbD_setWidth]
    simp [show k - 1 < k by omega]
  have htest : x &&& mask &&& sign = 0#w ↔ x.getLsbD (k - 1) = false := by
    constructor
    · intro h
      have hbit := congrArg (BitVec.getLsbD · (k - 1)) h
      simpa [hmask (k - 1) (by omega), hsign (k - 1) (by omega), show k - 1 < k by omega]
        using hbit
    · intro h
      apply BitVec.eq_of_getLsbD_eq
      intro i hi
      simp only [BitVec.getLsbD_and, hmask i hi, hsign i hi]
      by_cases hik : i = k - 1
      · simp [hik, h]
      · simp [hik]
  apply BitVec.eq_of_getLsbD_eq
  intro i hi
  rw [BitVec.getLsbD_signExtend, hmsb, BitVec.getLsbD_setWidth]
  cases hbit : x.getLsbD (k - 1) with
  | true =>
    rw [if_pos fun h => by rw [htest.1 h] at hbit; cases hbit]
    simp only [BitVec.getLsbD_or, BitVec.getLsbD_and, hmask i hi, hhigh i hi, hi]
    by_cases hik : i < k
    · simp [hik]
    · simp [hik, show k ≤ i by omega]
  | false =>
    rw [if_neg fun h => h (htest.2 hbit)]
    simp only [BitVec.getLsbD_and, hmask i hi, hi]
    by_cases hik : i < k <;> simp [hik]

theorem signExtend_inj {x y : BitVec w} (h : w ≤ v) : x.signExtend v = y.signExtend v ↔ x = y := by
  refine ⟨fun hxy => ?_, fun hxy => by rw [hxy]⟩
  apply BitVec.eq_of_getLsbD_eq
  intro i hi
  have hbit : (x.signExtend v).getLsbD i = (y.signExtend v).getLsbD i := by rw [hxy]
  rw [BitVec.getLsbD_signExtend, BitVec.getLsbD_signExtend, if_pos hi, if_pos hi] at hbit
  simpa only [show i < v by omega, decide_true, Bool.true_and] using hbit

/-! ## Set bits -/

/-- The lowest bit and the others. -/
theorem cpopNatRec_shift (x : BitVec w) (n : Nat) :
    x.cpopNatRec (n + 1) 0 = (x.getLsbD 0).toNat + (x >>> 1).cpopNatRec n 0 := by
  induction n with
  | zero => rw [BitVec.cpopNatRec_succ, Nat.zero_add]; rfl
  | succ n ih =>
    rw [BitVec.cpopNatRec_succ, BitVec.cpopNatRec_add, ih, BitVec.cpopNatRec_succ (n := n),
      BitVec.cpopNatRec_add, BitVec.getLsbD_ushiftRight, Nat.add_comm 1 n, Nat.add_assoc]

/-- Bits set in both are set in none of the exclusive or. -/
theorem cpop_xor (x y : BitVec w) :
    (x ^^^ y).cpop.toNat + 2 * (x &&& y).cpop.toNat = x.cpop.toNat + y.cpop.toNat := by
  have hrounds (n : Nat) : (x ^^^ y).cpopNatRec n 0 + 2 * (x &&& y).cpopNatRec n 0
      = x.cpopNatRec n 0 + y.cpopNatRec n 0 := by
    induction n with
    | zero => rfl
    | succ n ih =>
      simp only [BitVec.cpopNatRec_succ, BitVec.cpopNatRec_add, BitVec.getLsbD_xor,
        BitVec.getLsbD_and]
      cases x.getLsbD n <;> cases y.getLsbD n <;> simp <;> omega
  simp only [BitVec.toNat_cpop, hrounds w]

end Lib
