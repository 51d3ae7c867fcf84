import Mathlib.Data.List.Basic

/-!
# Regular expressions

Expressions over classes of characters, what they match (`Matches`), and the derivative that takes
a first character off (`matches_deriv`). `longest r s` is the length of the longest prefix of `s`
that `r` matches (`longest_isLongest`); what no match goes on to does not matter to it
(`longest_append`).
-/

namespace Lib

/-- Only the members of the list are tested, also where the whole type could be. -/
instance (priority := 2000) decidableForallMem {α : Type} (p : α → Prop) [DecidablePred p]
    (l : List α) : Decidable (∀ a ∈ l, p a) := List.decidableBAll p l

/-- Regular expressions over classes of `α`. -/
inductive Regex (α : Type)
  | zero
  | eps
  | cls (p : α → Bool)
  | seq (r s : Regex α)
  | alt (r s : Regex α)
  | star (r : Regex α)

namespace Regex

variable {α : Type}

inductive Matches : Regex α → List α → Prop
  | eps : Matches eps []
  | cls {p : α → Bool} {a : α} : p a = true → Matches (cls p) [a]
  | seq {r s : Regex α} {x y : List α} : Matches r x → Matches s y → Matches (seq r s) (x ++ y)
  | altLeft {r s : Regex α} {x : List α} : Matches r x → Matches (alt r s) x
  | altRight {r s : Regex α} {x : List α} : Matches s x → Matches (alt r s) x
  | starNil {r : Regex α} : Matches (star r) []
  | starCons {r : Regex α} {a : α} {x y : List α} :
      Matches r (a :: x) → Matches (star r) y → Matches (star r) (a :: (x ++ y))

theorem not_matches_zero {x : List α} : ¬ Matches zero x := nofun

theorem matches_eps {x : List α} : Matches eps x ↔ x = [] :=
  ⟨fun h => by cases h; rfl, fun h => h ▸ .eps⟩

theorem matches_cls {p : α → Bool} {x : List α} : Matches (cls p) x ↔ ∃ a, p a = true ∧ x = [a] := by
  constructor
  · intro h
    cases h with
    | cls h => exact ⟨_, h, rfl⟩
  · rintro ⟨a, h, rfl⟩
    exact .cls h

theorem matches_seq {r s : Regex α} {x : List α} :
    Matches (seq r s) x ↔ ∃ y z, x = y ++ z ∧ Matches r y ∧ Matches s z := by
  constructor
  · intro h
    cases h with
    | seq hr hs => exact ⟨_, _, rfl, hr, hs⟩
  · rintro ⟨y, z, rfl, hr, hs⟩
    exact .seq hr hs

theorem matches_alt {r s : Regex α} {x : List α} :
    Matches (alt r s) x ↔ Matches r x ∨ Matches s x := by
  constructor
  · intro h
    cases h with
    | altLeft h => exact .inl h
    | altRight h => exact .inr h
  · rintro (h | h)
    · exact .altLeft h
    · exact .altRight h

/-! ## Derivatives -/

/-- It matches the empty list. -/
def nullable : Regex α → Bool
  | zero => false
  | eps => true
  | cls _ => false
  | seq r s => r.nullable && s.nullable
  | alt r s => r.nullable || s.nullable
  | star _ => true

def isZero : Regex α → Bool
  | zero => true
  | _ => false

/-- Whether a match can start with the character. -/
def first (a : α) : Regex α → Bool
  | zero => false
  | eps => false
  | cls p => p a
  | seq r s => r.first a || (r.nullable && s.first a)
  | alt r s => r.first a || s.first a
  | star r => r.first a

/-- `seq`, with what cannot match left out. -/
def mkSeq : Regex α → Regex α → Regex α
  | zero, _ => zero
  | eps, s => s
  | r, s => seq r s

/-- `alt`, with what cannot match left out. -/
def mkAlt : Regex α → Regex α → Regex α
  | zero, s => s
  | r, zero => r
  | r, s => alt r s

/-- What is left to match behind a first `a`. -/
def deriv (a : α) : Regex α → Regex α
  | zero => zero
  | eps => zero
  | cls p => if p a then eps else zero
  | seq r s => if r.nullable then mkAlt (mkSeq (deriv a r) s) (deriv a s) else mkSeq (deriv a r) s
  | alt r s => mkAlt (deriv a r) (deriv a s)
  | star r => mkSeq (deriv a r) (star r)

theorem nullable_iff {r : Regex α} : r.nullable = true ↔ Matches r [] := by
  induction r with
  | zero => exact ⟨nofun, nofun⟩
  | eps => exact ⟨fun _ => .eps, fun _ => rfl⟩
  | cls p =>
    refine ⟨nofun, fun h => ?_⟩
    obtain ⟨a, -, ha⟩ := matches_cls.1 h
    cases ha
  | seq r s ihr ihs =>
    simp only [nullable, Bool.and_eq_true, ihr, ihs, matches_seq]
    constructor
    · rintro ⟨hr, hs⟩
      exact ⟨[], [], rfl, hr, hs⟩
    · rintro ⟨y, z, hyz, hr, hs⟩
      obtain ⟨rfl, rfl⟩ := List.append_eq_nil_iff.1 hyz.symm
      exact ⟨hr, hs⟩
  | alt r s ihr ihs => simp only [nullable, Bool.or_eq_true, ihr, ihs, matches_alt]
  | star r ih => exact ⟨fun _ => .starNil, fun _ => rfl⟩

theorem matches_mkSeq {r s : Regex α} {x : List α} : Matches (mkSeq r s) x ↔ Matches (seq r s) x := by
  cases r with
  | zero =>
    refine ⟨nofun, fun h => ?_⟩
    obtain ⟨y, z, -, hr, -⟩ := matches_seq.1 h
    cases hr
  | eps =>
    constructor
    · exact fun h => .seq .eps h
    · intro h
      obtain ⟨y, z, rfl, hr, hs⟩ := matches_seq.1 h
      rwa [matches_eps.1 hr]
  | _ => exact Iff.rfl

theorem matches_mkAlt {r s : Regex α} {x : List α} : Matches (mkAlt r s) x ↔ Matches (alt r s) x := by
  have hleft (t : Regex α) : Matches (alt zero t) x ↔ Matches t x := by
    rw [matches_alt, or_iff_right not_matches_zero]
  have hright (t : Regex α) : Matches (alt t zero) x ↔ Matches t x := by
    rw [matches_alt, or_iff_left not_matches_zero]
  cases r with
  | zero => exact (hleft s).symm
  | _ =>
    cases s with
    | zero => exact (hright _).symm
    | _ => exact Iff.rfl

/-- A match of a star that is not empty. -/
theorem matches_star_cons {r : Regex α} {a : α} {x : List α} :
    Matches (star r) (a :: x) ↔ ∃ y z, x = y ++ z ∧ Matches r (a :: y) ∧ Matches (star r) z := by
  constructor
  · intro h
    cases h with
    | starCons hr hs => exact ⟨_, _, rfl, hr, hs⟩
  · rintro ⟨y, z, rfl, hr, hs⟩
    exact .starCons hr hs

/-- **The derivative** matches what follows a first character. -/
theorem matches_deriv {r : Regex α} {a : α} {x : List α} :
    Matches (deriv a r) x ↔ Matches r (a :: x) := by
  induction r generalizing x with
  | zero => exact ⟨nofun, nofun⟩
  | eps => exact ⟨nofun, nofun⟩
  | cls p =>
    rw [matches_cls]
    unfold deriv
    by_cases hp : p a = true
    · rw [if_pos hp, matches_eps]
      constructor
      · rintro rfl
        exact ⟨a, hp, rfl⟩
      · rintro ⟨b, -, hb⟩
        exact (List.cons.inj hb).2
    · rw [if_neg hp]
      refine ⟨nofun, ?_⟩
      rintro ⟨b, hb, hab⟩
      obtain rfl := (List.cons.inj hab).1
      exact absurd hb hp
  | seq r s ihr ihs =>
    -- the first character is `r`'s, or `s`'s behind an empty match of `r`
    have hseq : Matches (mkSeq (deriv a r) s) x ↔
        ∃ y z, x = y ++ z ∧ Matches r (a :: y) ∧ Matches s z := by
      rw [matches_mkSeq, matches_seq]
      simp only [ihr]
    have hsplit : Matches (seq r s) (a :: x) ↔
        (∃ y z, x = y ++ z ∧ Matches r (a :: y) ∧ Matches s z) ∨
          (Matches r [] ∧ Matches s (a :: x)) := by
      rw [matches_seq]
      constructor
      · rintro ⟨y, z, hyz, hr, hs⟩
        cases y with
        | nil =>
          obtain rfl : a :: x = z := hyz
          exact .inr ⟨hr, hs⟩
        | cons b y =>
          obtain ⟨rfl, rfl⟩ := List.cons.inj hyz
          exact .inl ⟨y, z, rfl, hr, hs⟩
      · rintro (⟨y, z, rfl, hr, hs⟩ | ⟨hr, hs⟩)
        · exact ⟨a :: y, z, rfl, hr, hs⟩
        · exact ⟨[], a :: x, rfl, hr, hs⟩
    unfold deriv
    by_cases hn : r.nullable = true
    · rw [if_pos hn, matches_mkAlt, matches_alt, hseq, ihs, hsplit, and_iff_right (nullable_iff.1 hn)]
    · rw [if_neg hn, hseq, hsplit, or_iff_left fun h => hn (nullable_iff.2 h.1)]
  | alt r s ihr ihs => rw [deriv, matches_mkAlt, matches_alt, matches_alt, ihr, ihs]
  | star r ih =>
    rw [deriv, matches_mkSeq, matches_seq, matches_star_cons]
    simp only [ih]

/-- **The first character** of a match. -/
theorem matches_first {r : Regex α} {a : α} {x : List α} (h : Matches r (a :: x)) :
    r.first a = true := by
  induction r generalizing x with
  | zero => cases h
  | eps => cases h
  | cls p =>
    obtain ⟨b, hb, hab⟩ := matches_cls.1 h
    obtain rfl := (List.cons.inj hab).1
    exact hb
  | seq r s ihr ihs =>
    obtain ⟨y, z, hyz, hr, hs⟩ := matches_seq.1 h
    rw [first, Bool.or_eq_true, Bool.and_eq_true]
    cases y with
    | nil =>
      obtain rfl : a :: x = z := hyz
      exact .inr ⟨nullable_iff.2 hr, ihs hs⟩
    | cons b y =>
      obtain ⟨rfl, rfl⟩ := List.cons.inj hyz
      exact .inl (ihr hr)
  | alt r s ihr ihs =>
    rw [first, Bool.or_eq_true]
    exact (matches_alt.1 h).imp ihr ihs
  | star r ih =>
    obtain ⟨y, z, -, hr, -⟩ := matches_star_cons.1 h
    exact ih hr

/-! ## The longest match -/

/-- The length of the longest prefix matched. -/
def longest (r : Regex α) : List α → Option Nat
  | [] => if r.nullable then some 0 else none
  | a :: x =>
    let d := deriv a r
    ((if d.isZero then none else longest d x).map (· + 1)).or (if r.nullable then some 0 else none)

theorem longest_zero {x : List α} : longest (zero : Regex α) x = none := by
  cases x <;> rfl

theorem eq_zero_of_isZero {r : Regex α} (h : r.isZero = true) : r = zero := by
  cases r <;> first | rfl | cases h

/-- Giving up early changes nothing. -/
theorem longest_cons (r : Regex α) (a : α) (x : List α) : longest r (a :: x) =
    ((longest (deriv a r) x).map (· + 1)).or (if r.nullable then some 0 else none) := by
  rw [longest]
  by_cases h : (deriv a r).isZero = true
  · rw [eq_zero_of_isZero h, longest_zero]
    rfl
  · simp only [h, Bool.false_eq_true, ↓reduceIte]

/-- The length of the longest prefix of `x` that `r` matches is `o`. -/
def IsLongest (r : Regex α) (x : List α) : Option Nat → Prop
  | some n => n ≤ x.length ∧ Matches r (x.take n) ∧ ∀ m ≤ x.length, Matches r (x.take m) → m ≤ n
  | none => ∀ m ≤ x.length, ¬ Matches r (x.take m)

/-- A prefix matched is empty or matched by the derivative behind the first character. -/
theorem isLongest_cons {r : Regex α} {a : α} {x : List α} {o : Option Nat}
    (h : IsLongest (deriv a r) x o) :
    IsLongest r (a :: x) ((o.map (· + 1)).or (if r.nullable then some 0 else none)) := by
  have hsucc (m : Nat) : Matches r ((a :: x).take (m + 1)) ↔ Matches (deriv a r) (x.take m) := by
    rw [List.take_succ_cons, matches_deriv]
  cases o with
  | some n =>
    obtain ⟨hn, hmatch, hmax⟩ := h
    refine ⟨Nat.succ_le_succ hn, (hsucc n).2 hmatch, fun m hm hr => ?_⟩
    cases m with
    | zero => exact Nat.zero_le _
    | succ m => exact Nat.succ_le_succ (hmax m (Nat.le_of_succ_le_succ hm) ((hsucc m).1 hr))
  | none =>
    have hpos (m : Nat) (hm : m ≤ (a :: x).length) (hr : Matches r ((a :: x).take m)) : m = 0 := by
      cases m with
      | zero => rfl
      | succ m => exact absurd ((hsucc m).1 hr) (h m (Nat.le_of_succ_le_succ hm))
    cases hn : r.nullable with
    | true =>
      exact ⟨Nat.zero_le _, nullable_iff.1 hn, fun m hm hr => Nat.le_of_eq (hpos m hm hr)⟩
    | false =>
      intro m hm hr
      obtain rfl := hpos m hm hr
      rw [nullable_iff.2 hr] at hn
      cases hn

/-- **What `longest` finds.** -/
theorem longest_isLongest (r : Regex α) (x : List α) : IsLongest r x (longest r x) := by
  induction x generalizing r with
  | nil =>
    unfold longest
    cases hn : r.nullable with
    | true => exact ⟨Nat.le_refl _, nullable_iff.1 hn, fun m hm _ => hm⟩
    | false =>
      intro m hm hr
      rw [List.take_nil, ← nullable_iff, hn] at hr
      cases hr
  | cons a x ih =>
    rw [longest_cons]
    exact isLongest_cons (ih _)

theorem IsLongest.unique {r : Regex α} {x : List α} {o o' : Option Nat} (h : IsLongest r x o)
    (h' : IsLongest r x o') : o = o' := by
  cases o with
  | none =>
    cases o' with
    | none => rfl
    | some n => exact absurd h'.2.1 (h n h'.1)
  | some n =>
    cases o' with
    | none => exact absurd h.2.1 (h' n h.1)
    | some m =>
      have hle := h.2.2 m h'.1 h'.2.1
      have hge := h'.2.2 n h.1 h.2.1
      rw [Nat.le_antisymm hge hle]

theorem longest_eq {r : Regex α} {x : List α} {o : Option Nat} (h : IsLongest r x o) :
    longest r x = o := (longest_isLongest r x).unique h

/-- The match of the whole list is the longest. -/
theorem longest_all {r : Regex α} {x : List α} (h : Matches r x) : longest r x = some x.length :=
  longest_eq ⟨Nat.le_refl _, by rwa [List.take_length], fun _ hm _ => hm⟩

/-- **A dead end**: if no match goes past `x`, what follows it does not matter. -/
theorem longest_append {r : Regex α} {x y : List α}
    (h : ∀ z, z ≠ [] → z <+: y → ¬ Matches r (x ++ z)) : longest r (x ++ y) = longest r x := by
  refine longest_eq ?_
  -- a prefix that is matched is one of `x`
  have hshort : ∀ m ≤ (x ++ y).length, Matches r ((x ++ y).take m) → m ≤ x.length := by
    intro m hle hm
    by_contra hlt
    obtain ⟨k, rfl⟩ := Nat.exists_eq_add_of_lt (Nat.lt_of_not_le hlt)
    rw [Nat.add_assoc, List.take_length_add_append] at hm
    refine h _ (fun hnil => ?_) (List.take_prefix _ _) hm
    rw [List.length_append] at hle
    have hlen := congrArg List.length hnil
    rw [List.length_take, List.length_nil] at hlen
    omega
  have htake {m : Nat} (hm : m ≤ x.length) : (x ++ y).take m = x.take m :=
    List.take_append_of_le_length hm
  have hx := longest_isLongest r x
  cases ho : longest r x with
  | none =>
    rw [ho] at hx
    intro m hle hm
    have hle := hshort m hle hm
    rw [htake hle] at hm
    exact hx m hle hm
  | some n =>
    rw [ho] at hx
    obtain ⟨hn, hmatch, hmax⟩ := hx
    refine ⟨?_, by rwa [htake hn], fun m hle hm => ?_⟩
    · rw [List.length_append]
      exact Nat.le_trans hn (Nat.le_add_right _ _)
    · have hle := hshort m hle hm
      rw [htake hle] at hm
      exact hmax m hle hm

/-! ## Characters that are in no match -/

/-- No class of the expression has the character. -/
def avoids (a : α) : Regex α → Bool
  | zero => true
  | eps => true
  | cls p => !p a
  | seq r s => r.avoids a && s.avoids a
  | alt r s => r.avoids a && s.avoids a
  | star r => r.avoids a

theorem not_mem_of_avoids {r : Regex α} {a : α} (ha : r.avoids a = true) {x : List α}
    (h : Matches r x) : a ∉ x := by
  induction h with
  | eps | starNil => exact List.not_mem_nil
  | @cls p b hb =>
    intro hm
    obtain rfl := List.mem_singleton.1 hm
    rw [avoids, hb] at ha
    cases ha
  | seq _ _ ihr ihs =>
    rw [avoids, Bool.and_eq_true] at ha
    rw [List.mem_append, not_or]
    exact ⟨ihr ha.1, ihs ha.2⟩
  | altLeft _ ih =>
    rw [avoids, Bool.and_eq_true] at ha
    exact ih ha.1
  | altRight _ ih =>
    rw [avoids, Bool.and_eq_true] at ha
    exact ih ha.2
  | starCons _ _ ihr ihs =>
    rw [← List.cons_append, List.mem_append, not_or]
    exact ⟨ihr ha, ihs ha⟩

/-! ## Words and repetitions -/

/-- A word. -/
def word [DecidableEq α] (w : List α) : Regex α := w.foldr (fun a r => seq (cls (· == a)) r) eps

/-- One of the words. -/
def words [DecidableEq α] (ws : List (List α)) : Regex α := ws.foldr (fun w r => alt (word w) r) zero

/-- One or more characters of a class. -/
def plus (p : α → Bool) : Regex α := seq (cls p) (star (cls p))

theorem matches_word [DecidableEq α] {w x : List α} : Matches (word w) x ↔ x = w := by
  induction w generalizing x with
  | nil => exact matches_eps
  | cons a w ih =>
    show Matches (seq (cls (· == a)) (word w)) x ↔ _
    simp only [matches_seq, matches_cls, beq_iff_eq, ih]
    constructor
    · rintro ⟨y, z, rfl, ⟨b, rfl, rfl⟩, rfl⟩
      rfl
    · rintro rfl
      exact ⟨[a], w, rfl, ⟨a, rfl, rfl⟩, rfl⟩

theorem matches_words [DecidableEq α] {ws : List (List α)} {x : List α} :
    Matches (words ws) x ↔ x ∈ ws := by
  induction ws with
  | nil => exact ⟨nofun, nofun⟩
  | cons w ws ih =>
    show Matches (alt (word w) (words ws)) x ↔ _
    rw [matches_alt, matches_word, ih, List.mem_cons]

theorem matches_star_cls {p : α → Bool} {x : List α} :
    Matches (star (cls p)) x ↔ ∀ a ∈ x, p a = true := by
  induction x with
  | nil => exact ⟨fun _ => nofun, fun _ => .starNil⟩
  | cons a x ih =>
    rw [matches_star_cons]
    constructor
    · rintro ⟨y, z, rfl, hr, hs⟩
      obtain ⟨b, hb, hab⟩ := matches_cls.1 hr
      obtain ⟨rfl, rfl⟩ := List.cons.inj hab
      exact List.forall_mem_cons.2 ⟨hb, ih.1 hs⟩
    · intro h
      obtain ⟨ha, hx⟩ := List.forall_mem_cons.1 h
      exact ⟨[], x, rfl, .cls ha, ih.2 hx⟩

theorem matches_plus {p : α → Bool} {x : List α} :
    Matches (plus p) x ↔ x ≠ [] ∧ ∀ a ∈ x, p a = true := by
  rw [plus, matches_seq]
  constructor
  · rintro ⟨y, z, rfl, hr, hs⟩
    obtain ⟨a, ha, rfl⟩ := matches_cls.1 hr
    exact ⟨List.cons_ne_nil _ _, List.forall_mem_cons.2 ⟨ha, matches_star_cls.1 hs⟩⟩
  · rintro ⟨hne, h⟩
    cases x with
    | nil => exact absurd rfl hne
    | cons a x =>
      obtain ⟨ha, hx⟩ := List.forall_mem_cons.1 h
      exact ⟨[a], x, rfl, .cls ha, matches_star_cls.2 hx⟩

end Regex

end Lib
