import Emulathor.Assembler.Lexer

/-!
# Upper case

What the conversions of `vasm.l` give for a lexeme they give for it in upper case.
-/

namespace Assembler

/-! ## Characters -/

theorem toNat_toUpper (c : Char) : c.toUpper.toNat =
    if 97 ≤ c.toNat ∧ c.toNat ≤ 122 then c.toNat - 32 else c.toNat := by
  have hle : ('a'.val ≤ c.val ∧ c.val ≤ 'z'.val) ↔ (97 ≤ c.toNat ∧ c.toNat ≤ 122) := Iff.rfl
  unfold Char.toUpper
  by_cases h : 'a'.val ≤ c.val ∧ c.val ≤ 'z'.val
  · rw [dif_pos h, if_pos (hle.1 h)]
    have hc := hle.1 h
    show (c.val + ('A'.val - 'a'.val)).toNat = _
    rw [UInt32.toNat_add]
    show (c.toNat + 4294967264) % 2 ^ 32 = _
    omega
  · rw [dif_neg h, if_neg fun h' => h (hle.2 h')]

theorem toUpper_toUpper (c : Char) : c.toUpper.toUpper = c.toUpper := by
  rw [← Char.toNat_inj, toNat_toUpper, if_neg]
  rw [toNat_toUpper]
  split <;> omega

/-- A character that is no letter is nothing else's upper case. -/
theorem toUpper_eq {c d : Char} (hd : d.toNat < 65) : c.toUpper = d ↔ c = d := by
  rw [← Char.toNat_inj, toNat_toUpper, ← Char.toNat_inj]
  split <;> omega

theorem isDigit_iff (c : Char) : c.isDigit = true ↔ 48 ≤ c.toNat ∧ c.toNat ≤ 57 := by
  unfold Char.isDigit
  rw [Bool.and_eq_true, decide_eq_true_iff, decide_eq_true_iff]
  exact Iff.rfl

theorem toUpper_digit {c : Char} (h : c.isDigit = true) : c.toUpper = c := by
  rw [isDigit_iff] at h
  rw [← Char.toNat_inj, toNat_toUpper, if_neg (by omega)]

theorem isDigit_toUpper (c : Char) : c.toUpper.isDigit = c.isDigit := by
  rw [Bool.eq_iff_iff, isDigit_iff, isDigit_iff, toNat_toUpper]
  split <;> omega

theorem hexDigit_toUpper (c : Char) : hexDigit c.toUpper = hexDigit c := by
  unfold hexDigit
  rw [isDigit_toUpper, toUpper_toUpper]
  cases h : c.isDigit with
  | true => rw [toUpper_digit h]
  | false => rfl

/-! ## Conversions -/

section
variable (s : List Char)

theorem map_toUpper_twice : (s.map Char.toUpper).map Char.toUpper = s.map Char.toUpper := by
  rw [List.map_map]
  exact List.map_congr_left fun c _ => toUpper_toUpper c

theorem upper_map : upper (s.map Char.toUpper) = upper s := by
  rw [upper, map_toUpper_twice, upper]

theorem gAsciiStrtoull_map : gAsciiStrtoull (s.map Char.toUpper) = gAsciiStrtoull s := by
  unfold gAsciiStrtoull
  rw [← List.map_drop, List.foldl_map]
  simp only [hexDigit_toUpper]

theorem digits_map : digits (s.map Char.toUpper) = digits s := by
  have hcomp : Char.isDigit ∘ Char.toUpper = Char.isDigit := funext isDigit_toUpper
  have hsame : (s.takeWhile Char.isDigit).map Char.toUpper = s.takeWhile Char.isDigit := by
    refine (List.map_congr_left fun c hc => ?_).trans (List.map_id _)
    exact toUpper_digit (List.all_eq_true.1 List.all_takeWhile c hc)
  unfold digits
  rw [List.takeWhile_map, hcomp, hsame]

theorem gAsciiStrtoll_of_ne {c : Char} {s : List Char} (h : c ≠ '-') :
    gAsciiStrtoll (c :: s) = min (digits (c :: s) : Int) 9223372036854775807 := by
  unfold gAsciiStrtoll
  split
  · next heq => exact absurd (List.cons.inj heq).1 h
  · rfl

theorem gAsciiStrtoll_map : gAsciiStrtoll (s.map Char.toUpper) = gAsciiStrtoll s := by
  cases s with
  | nil => rfl
  | cons c s =>
    by_cases hc : c = '-'
    · subst hc
      exact congrArg (fun n : Nat => max (- (n : Int)) _) (digits_map s)
    · have hc' : c.toUpper ≠ '-' := fun h => hc ((toUpper_eq (by decide)).1 h)
      rw [List.map_cons, gAsciiStrtoll_of_ne hc', gAsciiStrtoll_of_ne hc, ← List.map_cons, digits_map]

theorem remove32BitEscapeSign_of_ne {c : Char} {s : List Char} (h : c ≠ '@') :
    remove32BitEscapeSign (c :: s) = c :: s := by
  unfold remove32BitEscapeSign
  split
  · next heq => exact absurd (List.cons.inj heq).1 h
  · rfl

theorem remove32BitEscapeSign_map :
    remove32BitEscapeSign (s.map Char.toUpper) = (remove32BitEscapeSign s).map Char.toUpper := by
  cases s with
  | nil => rfl
  | cons c s =>
    by_cases hc : c = '@'
    · subst hc
      rfl
    · have hc' : c.toUpper ≠ '@' := fun h => hc ((toUpper_eq (by decide)).1 h)
      rw [List.map_cons, remove32BitEscapeSign_of_ne hc', remove32BitEscapeSign_of_ne hc,
        List.map_cons]

end

end Assembler
