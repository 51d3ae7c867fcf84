import Mathlib.Data.List.TakeWhile
import Mathlib.Data.Nat.Digits.Defs
import Emulathor.Assembler.Proof.Lexemes

/-!
# Numeric literals

A `Literal` is a number as the manual has it, with the integer it denotes and the range documented for
it. The numeric rules of the lexer match its text (`numeric_cases`), and any number of signs besides:
`literal_iff`, a string that they match is exact or rejected exactly when it has at most one.
-/

namespace Assembler

open Common Lib Regex

/-! ## Literals -/

inductive Literal
  /-- `0x` and digits, in either case -/
  | hex (escape : Bool) (x : Char) (ds : List Char) (hx : x.toUpper = 'X') (hne : ds ≠ [])
      (hds : ∀ c ∈ ds, isHex c.toUpper = true)
  /-- an optional sign and digits -/
  | int (escape neg : Bool) (ds : List Char) (hne : ds ≠ []) (hds : ∀ c ∈ ds, c.isDigit = true)

/-- The escape sign for 32 bits. -/
def escapeSign (escape : Bool) : List Char := if escape then ['@'] else []

/-- The number with these digits. -/
def numeral (base : Nat) (ds : List Char) : Nat := Nat.ofDigits base (ds.reverse.map hexDigit)

namespace Literal

def text : Literal → List Char
  | hex escape x ds _ _ _ => escapeSign escape ++ '0' :: x :: ds
  | int escape neg ds _ _ => escapeSign escape ++ (List.replicate neg.toNat '-' ++ ds)

/-- The integer denoted. -/
def value : Literal → Int
  | hex _ _ ds _ _ _ => numeral 16 ds
  | int _ neg ds _ _ => if neg then - numeral 10 ds else numeral 10 ds

/-- It is immediate data of 32 bits: escaped, or of eight hexadecimal digits. -/
def wide : Literal → Bool
  | hex escape _ ds _ _ _ => escape || ds.length == 8
  | int escape _ _ _ _ => escape

def bits (l : Literal) : Nat := if l.wide then 32 else 16

/-- In the documented range: unsigned in hexadecimal, else signed. -/
def Documented (l : Literal) : Prop :=
  match l with
  | hex .. => l.value < 2 ^ l.bits
  | int .. => -2 ^ (l.bits - 1) ≤ l.value ∧ l.value < 2 ^ (l.bits - 1)

def token (l : Literal) : Token :=
  if l.wide then .int32 (BitVec.ofInt 32 l.value) else .int (BitVec.ofInt 16 l.value)

end Literal

/-- The rules for numbers. -/
def numericRules : List LexRule := [.hex32bit, .hex, .int, .int32]

/-- A numeric rule matches the string. -/
def Numeric (s : List Char) : Prop :=
  ∃ r ∈ numericRules, r.pattern.Matches (s.map Char.toUpper)

/-- What the lexer makes of a string is exact or a rejection: the token of a literal in range, and no
value for anything else. -/
def Exact (s : List Char) (outcome : Except LexStop (List Token)) : Prop :=
  (∀ l : Literal, l.text = s → l.Documented → outcome = .ok [l.token]) ∧
  ((∀ l : Literal, l.text = s → ¬ l.Documented) → ∃ stop, outcome = .error stop)

/-! ## Conversions -/

theorem foldl_digits {f g : Char → Nat} (base : Nat) {ds : List Char} (h : ∀ c ∈ ds, f c = g c) :
    ds.foldl (fun n c => base * n + f c) 0 = Nat.ofDigits base (ds.reverse.map g) := by
  rw [Nat.ofDigits_eq_foldr, List.foldr_map, List.foldr_reverse]
  simp only [Nat.cast_id]
  refine List.foldl_ext _ _ 0 fun n c hc => ?_
  rw [h c hc, Nat.add_comm]

theorem gAsciiStrtoull_hex (x : Char) (ds : List Char) :
    gAsciiStrtoull ('0' :: x :: ds) = min (numeral 16 ds) 0xFFFFFFFFFFFFFFFF := by
  rw [gAsciiStrtoull, numeral, ← foldl_digits 16 fun _ _ => rfl]
  rfl

theorem digits_eq {ds : List Char} (h : ∀ c ∈ ds, c.isDigit = true) : digits ds = numeral 10 ds := by
  rw [digits, List.takeWhile_eq_self_iff.2 h, numeral]
  refine foldl_digits 10 fun c hc => ?_
  rw [hexDigit, if_pos (h c hc)]

/-- The sign, if there is one, and digits. -/
theorem gAsciiStrtoll_int {ds : List Char} (neg : Bool) (hne : ds ≠ [])
    (h : ∀ c ∈ ds, c.isDigit = true) :
    gAsciiStrtoll (List.replicate neg.toNat '-' ++ ds) =
      max (min (if neg then - (numeral 10 ds : Int) else numeral 10 ds) 9223372036854775807)
        (-9223372036854775808) := by
  cases neg with
  | true =>
    show max (- (digits ds : Int)) _ = max (min (- (numeral 10 ds : Int)) _) _
    rw [digits_eq h]
    omega
  | false =>
    show gAsciiStrtoll ds = max (min (numeral 10 ds : Int) _) _
    obtain ⟨c, rest, rfl⟩ := List.exists_cons_of_ne_nil hne
    have hc : c ≠ '-' := by
      rintro rfl
      have := h '-' (.head _)
      cases this
    rw [gAsciiStrtoll_of_ne hc, digits_eq h]
    omega

/-- Two signs are one too many. -/
theorem gAsciiStrtoll_signs (n : Nat) (ds : List Char) :
    gAsciiStrtoll (List.replicate (n + 2) '-' ++ ds) = 0 := rfl

theorem hexToDec32_hex (x : Char) (ds : List Char) : hexToDec32 ('0' :: x :: ds) =
    if (numeral 16 ds : Int) < 2 ^ 32 then .ok (BitVec.ofInt 32 (numeral 16 ds))
    else .error (.hex 32 (String.ofList ('0' :: x :: ds))) := by
  rw [hexToDec32, gAsciiStrtoull_hex]
  by_cases h : (numeral 16 ds : Int) < 2 ^ 32
  · have hmin : min (numeral 16 ds) 0xFFFFFFFFFFFFFFFF = numeral 16 ds := by omega
    rw [if_pos h, hmin, if_neg (by omega), BitVec.ofInt_natCast]
  · rw [if_neg h, if_pos (by omega)]

theorem hexToDec_hex (x : Char) (ds : List Char) : hexToDec ('0' :: x :: ds) =
    if (numeral 16 ds : Int) < 2 ^ 16 then .ok (BitVec.ofInt 16 (numeral 16 ds))
    else .error (.hex 16 (String.ofList ('0' :: x :: ds))) := by
  rw [hexToDec, gAsciiStrtoull_hex]
  by_cases h : (numeral 16 ds : Int) < 2 ^ 16
  · have hmin : min (numeral 16 ds) 0xFFFFFFFFFFFFFFFF = numeral 16 ds := by omega
    rw [if_pos h, hmin, if_neg (by omega), BitVec.ofInt_natCast]
  · rw [if_neg h, if_pos (by omega)]

section
variable {ds : List Char} (neg : Bool) (hne : ds ≠ []) (hds : ∀ c ∈ ds, c.isDigit = true)
include hne hds

theorem to32BitInt_int {v : Int} (hv : (if neg then - (numeral 10 ds : Int) else numeral 10 ds) = v) :
    to32BitInt (List.replicate neg.toNat '-' ++ ds) =
      if -2 ^ 31 ≤ v ∧ v < 2 ^ 31 then .ok (BitVec.ofInt 32 v)
      else .error (.int 32 (String.ofList (List.replicate neg.toNat '-' ++ ds))) := by
  rw [to32BitInt, gAsciiStrtoll_int neg hne hds, hv]
  by_cases h : -2 ^ 31 ≤ v ∧ v < 2 ^ 31
  · have hclamp : max (min v 9223372036854775807) (-9223372036854775808) = v := by omega
    rw [if_pos h, hclamp, if_neg (by omega)]
  · rw [if_neg h, if_pos (by omega)]

theorem to16BitInt_int {v : Int} (hv : (if neg then - (numeral 10 ds : Int) else numeral 10 ds) = v) :
    to16BitInt (List.replicate neg.toNat '-' ++ ds) =
      if -2 ^ 15 ≤ v ∧ v < 2 ^ 15 then .ok (BitVec.ofInt 16 v)
      else .error (.int 16 (String.ofList (List.replicate neg.toNat '-' ++ ds))) := by
  rw [to16BitInt, gAsciiStrtoll_int neg hne hds, hv]
  by_cases h : -2 ^ 15 ≤ v ∧ v < 2 ^ 15
  · have hclamp : max (min v 9223372036854775807) (-9223372036854775808) = v := by omega
    rw [if_pos h, hclamp, if_neg (by omega)]
  · rw [if_neg h, if_pos (by omega)]

end

/-- The escape sign is taken off. -/
theorem remove32BitEscapeSign_escape {c : Char} {w : List Char} (escape : Bool) (hc : c ≠ '@') :
    remove32BitEscapeSign (escapeSign escape ++ c :: w) = c :: w := by
  cases escape with
  | true => rfl
  | false => exact remove32BitEscapeSign_of_ne hc

/-! ## Lexemes -/

theorem matches_decimal {x : List Char} : decimal.Matches x ↔
    ∃ n ds, x = List.replicate n '-' ++ ds ∧ ds ≠ [] ∧ ∀ c ∈ ds, c.isDigit = true := by
  constructor
  · intro h
    obtain ⟨u, ds, rfl, hu, hds⟩ := matches_seq.1 h
    have hu : u = List.replicate u.length '-' :=
      List.eq_replicate_iff.2 ⟨rfl, fun c hc => eq_of_beq (matches_star_cls.1 hu c hc)⟩
    exact ⟨u.length, ds, by rw [← hu], matches_plus.1 hds⟩
  · rintro ⟨n, ds, rfl, hds⟩
    refine .seq (matches_star_cls.2 fun c hc => ?_) (matches_plus.2 hds)
    rw [List.eq_of_mem_replicate hc]
    rfl

/-- Decimal numbers, with any number of signs. -/
theorem isLexeme_decimal {w : List Char} (escape : Bool) (hm : decimal.Matches w) :
    IsLexeme (if escape then .int32 else .int) (escapeSign escape ++ w) := by
  have hnum := matches_int hm
  have hne : w ≠ [] := by
    rintro rfl
    obtain ⟨n, ds, h, hds, -⟩ := matches_decimal.1 hm
    exact hds (List.append_eq_nil_iff.1 h.symm).2
  cases escape with
  | false =>
    obtain ⟨c, rest, rfl⟩ := List.exists_cons_of_ne_nil hne
    exact isLexeme_int (numeral_start (hnum c (.head _))) hm
  | true =>
    have hmap : (escapeSign true ++ w).map Char.toUpper = '@' :: w := by
      rw [List.map_append, numeral_toUpper hnum]
      rfl
    refine isLexeme_of (by decide) (List.cons_ne_nil _ _) ?_ fun j hj => ?_
    · rw [hmap]
      exact .seq (x := ['@']) (matches_word.2 rfl) hm
    · rw [hmap] at hj
      have hmem := starts (show ('@', [.hex32bit, .int32, .garbage]) ∈ startRules by decide) hj
      simp only [List.mem_cons, List.not_mem_nil, or_false] at hmem
      obtain rfl | rfl | rfl := hmem
      · obtain ⟨ds, heq, -⟩ | ⟨ds, heq, -⟩ := matches_hex32bit.1 hj
        · cases heq
        · have hX := hnum 'X' ((List.cons.inj heq).2 ▸ .tail _ (.head _))
          cases hX
      · exact .inl rfl
      · exact .inr rfl

/-- Hexadecimal numbers. -/
theorem isLexeme_hexadecimal {x : Char} {ds : List Char} (escape : Bool) (hx : x.toUpper = 'X')
    (hne : ds ≠ []) (hds : ∀ c ∈ ds, isHex c.toUpper = true) :
    IsLexeme (if escape || ds.length == 8 then .hex32bit else .hex)
      (escapeSign escape ++ '0' :: x :: ds) := by
  cases escape with
  | true =>
    have hmap : (escapeSign true ++ '0' :: x :: ds).map Char.toUpper
        = '@' :: '0' :: 'X' :: ds.map Char.toUpper := by
      rw [List.map_append, hex_toUpper hx]
      rfl
    show IsLexeme .hex32bit _
    refine isLexeme_of (by decide) (List.cons_ne_nil _ _) ?_ fun j hj => ?_
    · rw [hmap]
      have hne' : ds.map Char.toUpper ≠ [] := fun h => hne (List.map_eq_nil_iff.1 h)
      exact matches_hex32bit.2 (.inr ⟨_, rfl, hne', isHex_map hds⟩)
    · rw [hmap] at hj
      have hmem := starts (show ('@', [.hex32bit, .int32, .garbage]) ∈ startRules by decide) hj
      simp only [List.mem_cons, List.not_mem_nil, or_false] at hmem
      obtain rfl | rfl | rfl := hmem
      · exact .inl rfl
      · obtain ⟨u, v, huv, hu, hv⟩ := matches_seq.1 hj
        rw [matches_word.1 hu] at huv
        obtain rfl : '0' :: 'X' :: ds.map Char.toUpper = v := (List.cons.inj huv).2
        have hX := matches_int hv 'X' (.tail _ (.head _))
        cases hX
      · exact .inr rfl
  | false =>
    by_cases hlen : ds.length = 8
    · -- `HEX` matches it, too, behind `HEX_32BIT`
      have hmatches : LexRule.hex32bit.pattern.Matches (('0' :: x :: ds).map Char.toUpper) := by
        rw [hex_toUpper hx]
        exact matches_hex32bit.2 (.inl ⟨_, rfl, by rwa [List.length_map], isHex_map hds⟩)
      rw [Bool.false_or, hlen]
      refine ⟨List.cons_ne_nil _ _, hmatches, [.endl, .space], _, rfl, fun j hj hm => ?_⟩
      have hm' : j.pattern.Matches ('0' :: (x :: ds).map Char.toUpper) := hm
      have hmem := starts (show ('0', [.hex32bit, .hex, .int, .garbage]) ∈ startRules by decide) hm'
      have hno : ∀ j ∈ [LexRule.endl, .space], j ∉ [LexRule.hex32bit, .hex, .int, .garbage] := by
        decide
      exact hno j hj hmem
    · have hlen' : (ds.length == 8) = false := beq_false_of_ne hlen
      rw [Bool.false_or, hlen']
      exact isLexeme_hex hx hne hlen hds

/-! ## The lexer -/

/-- The rule of a literal. -/
def Literal.rule : Literal → LexRule
  | .hex escape _ ds _ _ _ => if escape || ds.length == 8 then .hex32bit else .hex
  | .int escape _ _ _ _ => if escape then .int32 else .int

theorem isLexeme_literal : ∀ l : Literal, IsLexeme l.rule l.text
  | .hex escape _ _ hx hne hds => isLexeme_hexadecimal escape hx hne hds
  | .int escape _ _ hne hds => isLexeme_decimal escape (matches_decimal.2 ⟨_, _, rfl, hne, hds⟩)

theorem map_ite {ε α β : Type} (f : α → β) (p : Prop) [Decidable p] (a : α) (e : ε) :
    f <$> (if p then Except.ok a else .error e) = if p then .ok (f a) else .error e := by
  split <;> rfl

theorem action_of_ite {l : Literal} {p : Prop} [Decidable p] (stop : LexStop)
    (hdoc : l.Documented ↔ p)
    (h : l.rule.action l.text = if p then .ok (some l.token) else .error stop) :
    (l.Documented ∧ l.rule.action l.text = .ok (some l.token)) ∨
      (¬ l.Documented ∧ ∃ stop, l.rule.action l.text = .error stop) := by
  rw [hdoc, h]
  by_cases hp : p
  · exact .inl ⟨hp, if_pos hp⟩
  · exact .inr ⟨hp, stop, if_neg hp⟩

/-- **The token of a literal** in range, and no value out of it. -/
theorem action_literal (l : Literal) :
    (l.Documented ∧ l.rule.action l.text = .ok (some l.token)) ∨
      (¬ l.Documented ∧ ∃ stop, l.rule.action l.text = .error stop) := by
  cases l with
  | hex escape x ds hx hne hds =>
    let v : Int := numeral 16 ds
    by_cases hw : (escape || ds.length == 8) = true
    · have hdoc : (Literal.hex escape x ds hx hne hds).Documented ↔ v < 2 ^ 32 := by
        rw [Literal.Documented, Literal.bits, Literal.wide, if_pos hw]
        rfl
      refine action_of_ite (.hex 32 (String.ofList ('0' :: x :: ds))) hdoc ?_
      rw [Literal.rule, if_pos hw, LexRule.action, Literal.text,
        remove32BitEscapeSign_escape _ (by decide), hexToDec32_hex, map_ite, map_ite, Literal.token,
        Literal.wide, if_pos hw]
      rfl
    · obtain ⟨rfl, -⟩ := Bool.or_eq_false_iff.1 (Bool.eq_false_iff.2 hw)
      have hdoc : (Literal.hex false x ds hx hne hds).Documented ↔ v < 2 ^ 16 := by
        rw [Literal.Documented, Literal.bits, Literal.wide, if_neg hw]
        rfl
      refine action_of_ite (.hex 16 (String.ofList ('0' :: x :: ds))) hdoc ?_
      have htext : (Literal.hex false x ds hx hne hds).text = '0' :: x :: ds := rfl
      rw [Literal.rule, if_neg hw, LexRule.action, htext, hexToDec_hex, map_ite, map_ite,
        Literal.token, Literal.wide, if_neg hw]
      rfl
  | int escape neg ds hne hds =>
    let v : Int := if neg then - (numeral 10 ds : Int) else numeral 10 ds
    let s := String.ofList (List.replicate neg.toNat '-' ++ ds)
    cases escape with
    | true =>
      refine action_of_ite (p := -2 ^ 31 ≤ v ∧ v < 2 ^ 31) (.int 32 s) Iff.rfl ?_
      show some <$> Token.int32 <$> to32BitInt (List.replicate neg.toNat '-' ++ ds) = _
      rw [to32BitInt_int neg hne hds (v := v) rfl, map_ite, map_ite]
      rfl
    | false =>
      refine action_of_ite (p := -2 ^ 15 ≤ v ∧ v < 2 ^ 15) (.int 16 s) Iff.rfl ?_
      show some <$> Token.int <$> to16BitInt (List.replicate neg.toNat '-' ++ ds) = _
      rw [to16BitInt_int neg hne hds (v := v) rfl, map_ite, map_ite]
      rfl

/-- A text that is one lexeme. -/
theorem lexText_single {i : LexRule} {w : List Char} (h : IsLexeme i w) :
    lexText w = Option.toList <$> i.action w := by
  have hstops : Stops w [] := nofun
  have := lexText_cons h hstops
  rw [List.append_nil, lexText_nil] at this
  rw [this]
  cases i.action w with
  | error stop => rfl
  | ok token => exact congrArg Except.ok (List.append_nil _)

/-! ## The strings matched -/

/-- More than one sign. -/
def TwoSigns (s : List Char) : Prop := ['-', '-'] <+: s ∨ ['@', '-', '-'] <+: s

instance instDecidableTwoSigns (s : List Char) : Decidable (TwoSigns s) :=
  inferInstanceAs (Decidable (_ ∨ _))

theorem map_toUpper_eq {s y : List Char} (hy : ∀ c ∈ y, c.toNat < 65)
    (h : s.map Char.toUpper = y) : s = y := by
  induction s generalizing y with
  | nil => exact h
  | cons c s ih =>
    cases y with
    | nil => cases h
    | cons d y =>
      obtain ⟨hd, hy⟩ := List.forall_mem_cons.1 hy
      obtain ⟨hc, hs⟩ := List.cons.inj h
      rw [(toUpper_eq hd).1 hc, ih hy hs]

theorem lt_of_isNumeral {c : Char} (h : isNumeral c = true) : c.toNat < 65 := by
  rcases Bool.or_eq_true_iff.1 h with hminus | hdigit
  · rw [eq_of_beq hminus]
    decide
  · have := (isDigit_iff c).1 hdigit
    omega

/-- `0x` and digits in upper case. -/
theorem hexadecimal_of_map {s ds : List Char} (h : s.map Char.toUpper = '0' :: 'X' :: ds)
    (hne : ds ≠ []) (hds : ∀ c ∈ ds, isHex c = true) :
    ∃ x es, s = '0' :: x :: es ∧ x.toUpper = 'X' ∧ es ≠ [] ∧ ∀ c ∈ es, isHex c.toUpper = true := by
  obtain ⟨c, t, rfl, hc, ht⟩ := List.map_eq_cons_iff.1 h
  obtain ⟨x, es, rfl, hx, rfl⟩ := List.map_eq_cons_iff.1 ht
  obtain rfl := (toUpper_eq (by decide)).1 hc
  refine ⟨x, es, rfl, hx, fun hnil => hne (List.map_eq_nil_iff.2 hnil), fun c hc => ?_⟩
  exact hds _ (List.mem_map_of_mem hc)

theorem decimal_cases (escape : Bool) {w : List Char} (hm : decimal.Matches w) :
    (∃ l : Literal, l.text = escapeSign escape ++ w) ∨
      ∃ n ds, w = List.replicate (n + 2) '-' ++ ds ∧ ds ≠ [] ∧ ∀ c ∈ ds, c.isDigit = true := by
  obtain ⟨n, ds, rfl, hne, hds⟩ := matches_decimal.1 hm
  match n with
  | 0 => exact .inl ⟨.int escape false ds hne hds, rfl⟩
  | 1 => exact .inl ⟨.int escape true ds hne hds, rfl⟩
  | n + 2 => exact .inr ⟨n, ds, rfl, hne, hds⟩

/-- **A string of a numeric rule** is a literal, or has more than one sign. -/
theorem numeric_cases {s : List Char} (h : Numeric s) :
    (∃ l : Literal, l.text = s) ∨
      ∃ escape n ds, s = escapeSign escape ++ (List.replicate (n + 2) '-' ++ ds) ∧ ds ≠ [] ∧
        ∀ c ∈ ds, c.isDigit = true := by
  obtain ⟨r, hr, hm⟩ := h
  simp only [numericRules, List.mem_cons, List.not_mem_nil, or_false] at hr
  obtain rfl | rfl | rfl | rfl := hr
  · left
    obtain ⟨ds, hs, hlen, hds⟩ | ⟨ds, hs, hne, hds⟩ := matches_hex32bit.1 hm
    · have hne : ds ≠ [] := List.ne_nil_of_length_pos (by omega)
      obtain ⟨x, es, rfl, hx, hne, hes⟩ := hexadecimal_of_map hs hne hds
      exact ⟨.hex false x es hx hne hes, rfl⟩
    · obtain ⟨c, t, rfl, hc, ht⟩ := List.map_eq_cons_iff.1 hs
      obtain rfl := (toUpper_eq (by decide)).1 hc
      obtain ⟨x, es, rfl, hx, hne, hes⟩ := hexadecimal_of_map ht hne hds
      exact ⟨.hex true x es hx hne hes, rfl⟩
  · left
    obtain ⟨ds, hs, hne, hds⟩ := matches_hex.1 hm
    obtain ⟨x, es, rfl, hx, hne, hes⟩ := hexadecimal_of_map hs hne hds
    exact ⟨.hex false x es hx hne hes, rfl⟩
  · have hs := map_toUpper_eq (fun c hc => lt_of_isNumeral (matches_int hm c hc)) rfl
    rw [← hs] at hm
    exact (decimal_cases false hm).imp_right fun ⟨n, ds, hw, h⟩ => ⟨false, n, ds, hw, h⟩
  · obtain ⟨u, w, hs, hu, hw⟩ := matches_seq.1 hm
    rw [matches_word.1 hu] at hs
    obtain ⟨c, t, rfl, hc, ht⟩ := List.map_eq_cons_iff.1 hs
    obtain rfl := (toUpper_eq (by decide)).1 hc
    rw [← map_toUpper_eq (fun c hc => lt_of_isNumeral (matches_int hw c hc)) ht] at hw
    exact (decimal_cases true hw).imp_right fun ⟨n, ds, ht, h⟩ => ⟨true, n, ds, ht ▸ rfl, h⟩

/-- A literal has one sign at most. -/
theorem Literal.not_twoSigns (l : Literal) : ¬ TwoSigns l.text := by
  cases l with
  | hex escape x ds =>
    cases escape <;> simp [TwoSigns, Literal.text, escapeSign, List.cons_prefix_cons]
  | int escape neg ds hne hds =>
    obtain ⟨d, rest, rfl⟩ := List.exists_cons_of_ne_nil hne
    have hminus : '-' ≠ d := by
      rintro rfl
      exact absurd (hds _ (.head _)) (by decide)
    have hat : '@' ≠ d := by
      rintro rfl
      exact absurd (hds _ (.head _)) (by decide)
    cases escape <;> cases neg <;>
      simp [TwoSigns, Literal.text, escapeSign, List.cons_prefix_cons, hminus, hat]

/-- Digits behind two signs: zero. -/
theorem lexText_signs (escape : Bool) (n : Nat) {ds : List Char} (hne : ds ≠ [])
    (hds : ∀ c ∈ ds, c.isDigit = true) :
    lexText (escapeSign escape ++ (List.replicate (n + 2) '-' ++ ds))
      = .ok [if escape then .int32 0 else .int 0] := by
  have hm := matches_decimal.2 ⟨n + 2, ds, rfl, hne, hds⟩
  rw [lexText_single (isLexeme_decimal escape hm)]
  cases escape with
  | true =>
    show Option.toList <$> some <$> Token.int32 <$> to32BitInt (List.replicate (n + 2) '-' ++ ds) = _
    rw [to32BitInt, gAsciiStrtoll_signs]
    rfl
  | false =>
    show Option.toList <$> some <$> Token.int <$> to16BitInt (List.replicate (n + 2) '-' ++ ds) = _
    rw [to16BitInt, gAsciiStrtoll_signs]
    rfl

theorem twoSigns_signs (escape : Bool) (n : Nat) (ds : List Char) :
    TwoSigns (escapeSign escape ++ (List.replicate (n + 2) '-' ++ ds)) := by
  cases escape with
  | true => exact .inr ⟨List.replicate n '-' ++ ds, rfl⟩
  | false => exact .inl ⟨List.replicate n '-' ++ ds, rfl⟩

theorem exact_literal (l : Literal) : Exact l.text (lexText l.text) := by
  have hlex (l : Literal) : lexText l.text = Option.toList <$> l.rule.action l.text :=
    lexText_single (isLexeme_literal l)
  refine ⟨fun l' htext hdoc => ?_, fun hnone => ?_⟩
  · rcases action_literal l' with ⟨-, haction⟩ | ⟨hnot, -⟩
    · rw [← htext, hlex, haction]
      rfl
    · exact absurd hdoc hnot
  · rcases action_literal l with ⟨hdoc, -⟩ | ⟨-, stop, haction⟩
    · exact absurd hdoc (hnone l rfl)
    · exact ⟨stop, by rw [hlex, haction]; rfl⟩

theorem exact_iff {s : List Char} (h : Numeric s) : Exact s (lexText s) ↔ ¬ TwoSigns s := by
  rcases numeric_cases h with ⟨l, rfl⟩ | ⟨escape, n, ds, rfl, hne, hds⟩
  · exact ⟨fun _ => l.not_twoSigns, fun _ => exact_literal l⟩
  · constructor
    · rintro ⟨-, hreject⟩
      have hsigns := twoSigns_signs escape n ds
      obtain ⟨stop, hstop⟩ := hreject fun l htext => absurd (htext ▸ hsigns) l.not_twoSigns
      rw [lexText_signs escape n hne hds] at hstop
      cases hstop
    · exact fun hnot => absurd (twoSigns_signs escape n ds) hnot

/-- **Numeric literals**, as a text or as lexemes of one, are exact or rejected exactly when they have
one sign at most. -/
theorem literal_iff (text : List Char) :
    (Numeric text → (Exact text (lexText text) ↔ ¬ TwoSigns text)) ∧
    ∀ p ∈ lexemes text, p.1 ∈ numericRules →
      (Exact p.2 (Option.toList <$> p.1.action p.2) ↔ ¬ TwoSigns p.2) := by
  refine ⟨exact_iff, ?_⟩
  rintro ⟨i, w⟩ hp hi
  have hlexeme : IsLexeme i w := scan_isLexeme hp
  rw [← lexText_single hlexeme]
  exact exact_iff ⟨i, hi, hlexeme.matches_⟩

/-- `@-5`. -/
theorem literal_iff_minus : Exact ['@', '-', '5'] (lexText ['@', '-', '5']) := by
  have hm : LexRule.int32.pattern.Matches ['@', '-', '5'] :=
    .seq (x := ['@']) (matches_word.2 rfl)
      (matches_decimal.2 ⟨1, ['5'], rfl, by decide, by decide⟩)
  exact ((literal_iff ['@', '-', '5']).1 ⟨.int32, by decide, hm⟩).2 (by decide)

/-- `--5` is zero. -/
theorem not_exact_twoSigns : ¬ ∀ s, Numeric s → Exact s (lexText s) := by
  intro h
  have hm : decimal.Matches ['-', '-', '5'] :=
    matches_decimal.2 ⟨2, ['5'], rfl, by decide, by decide⟩
  obtain ⟨-, hreject⟩ := h ['-', '-', '5'] ⟨.int, by decide, hm⟩
  have hsigns : TwoSigns ['-', '-', '5'] := by decide
  obtain ⟨stop, hstop⟩ := hreject fun l htext => absurd (htext ▸ hsigns) l.not_twoSigns
  have hzero : lexText ['-', '-', '5'] = .ok [.int 0] :=
    lexText_signs false 0 (List.cons_ne_nil '5' []) (by decide)
  rw [hzero] at hstop
  cases hstop

end Assembler
