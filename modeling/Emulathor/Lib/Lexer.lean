import Emulathor.Lib.Regex

/-!
# Lexers

A lexer is a list of rules, each with a pattern. At every position it takes the longest prefix any
rule matches, and the first of the rules that match it (`munch`); a character no rule matches is
passed over. `scan` gives the rules and lexemes of a text. The patterns see the text through `fold`:
texts that are folded alike are cut alike (`scan_fold`). Texts that no rule matches across are cut one
after the other (`scan_append`).
-/

namespace Lib

variable {α ι : Type} (pattern : ι → Regex α) (fold : α → α)

/-- The longest prefix matched, and the first rule that matches it. -/
def munch : List ι → List α → Option (Nat × ι)
  | [], _ => none
  | i :: rules, x =>
    match (pattern i).longest x, munch rules x with
    | some n, some (m, j) => if m ≤ n then some (n, i) else some (m, j)
    | some n, none => some (n, i)
    | none, best => best

variable (rules : List ι)

/-- The rules and lexemes of a text. -/
def scan (x : List α) : List (ι × List α) :=
  match x with
  | [] => []
  | a :: x =>
    match munch pattern rules ((a :: x).map fold) with
    | some (n + 1, i) => (i, (a :: x).take (n + 1)) :: scan (x.drop n)
    | _ => scan x
termination_by x.length
decreasing_by
  · rw [List.length_drop, List.length_cons]
    omega
  · exact Nat.lt_succ_self _

variable {pattern fold rules}

/-! ## One lexeme -/

theorem munch_le {x : List α} {n : Nat}
    (h : ∀ i ∈ rules, ∀ m, (pattern i).longest x = some m → m ≤ n) {m : Nat} {j : ι}
    (hm : munch pattern rules x = some (m, j)) : m ≤ n := by
  induction rules generalizing m j with
  | nil => cases hm
  | cons i rules ih =>
    have hi : ∀ m, (pattern i).longest x = some m → m ≤ n := h i (.head _)
    have ih' {m j} := @ih (fun k hk => h k (.tail _ hk)) m j
    rw [munch] at hm
    cases hl : (pattern i).longest x with
    | none =>
      rw [hl] at hm
      exact ih' hm
    | some k =>
      have hk := hi k hl
      cases hr : munch pattern rules x with
      | none =>
        rw [hl, hr] at hm
        cases hm
        exact hk
      | some b =>
        rw [hl, hr] at hm
        dsimp only at hm
        split at hm
        · cases hm
          exact hk
        · cases hm
          exact ih' hr

theorem munch_length_le {x : List α} {n : Nat} {i : ι} (h : munch pattern rules x = some (n, i)) :
    n ≤ x.length := by
  refine munch_le (fun j _ m hm => ?_) h
  have hlong := Regex.longest_isLongest (pattern j) x
  rw [hm] at hlong
  exact hlong.1

/-- **The first rule** that matches all of it munches it. -/
theorem munch_first {i : ι} {pre post : List ι} {x : List α} (hm : (pattern i).Matches x)
    (hpre : ∀ j ∈ pre, ¬ (pattern j).Matches x) :
    munch pattern (pre ++ i :: post) x = some (x.length, i) := by
  induction pre with
  | nil =>
    rw [List.nil_append, munch, Regex.longest_all hm]
    cases hr : munch pattern post x with
    | none => rfl
    | some b => exact if_pos (munch_length_le hr)
  | cons j pre ih =>
    rw [List.cons_append, munch, ih fun k hk => hpre k (.tail _ hk)]
    have hlong := Regex.longest_isLongest (pattern j) x
    cases hl : (pattern j).longest x with
    | none => rfl
    | some n =>
      rw [hl] at hlong
      obtain ⟨hn, hmatch, -⟩ := hlong
      have hlt : n < x.length := by
        refine Nat.lt_of_le_of_ne hn ?_
        rintro rfl
        rw [List.take_length] at hmatch
        exact hpre j (.head _) hmatch
      exact if_neg (Nat.not_le.2 hlt)

/-- What no rule goes on to does not matter. -/
theorem munch_append {x y : List α}
    (h : ∀ i ∈ rules, ∀ z, z ≠ [] → z <+: y → ¬ (pattern i).Matches (x ++ z)) :
    munch pattern rules (x ++ y) = munch pattern rules x := by
  induction rules with
  | nil => rfl
  | cons i rules ih =>
    rw [munch, munch, ih fun j hj => h j (.tail _ hj), Regex.longest_append (h i (.head _))]

/-- What follows a character no rule goes past does not matter. -/
theorem munch_append_dead {x y : List α} {a : α}
    (h : ∀ i ∈ rules, ∀ z, ¬ (pattern i).Matches (x ++ a :: z)) :
    munch pattern rules (x ++ a :: y) = munch pattern rules x := by
  refine munch_append fun i hi z hz hpre => ?_
  cases z with
  | nil => exact absurd rfl hz
  | cons b z =>
    obtain rfl := (List.cons_prefix_cons.1 hpre).1
    exact h i hi z

/-- The rule that munches is the first to match what it munches. -/
theorem munch_matches {x : List α} {n : Nat} {i : ι} (h : munch pattern rules x = some (n, i)) :
    (pattern i).Matches (x.take n) ∧
      ∃ pre post, rules = pre ++ i :: post ∧ ∀ j ∈ pre, ¬ (pattern j).Matches (x.take n) := by
  induction rules generalizing n i with
  | nil => cases h
  | cons j rules ih =>
    rw [munch] at h
    have hlong := Regex.longest_isLongest (pattern j) x
    -- a later rule munches if the first one does not match as much
    have hlater (hr : munch pattern rules x = some (n, i))
        (hj : ¬ (pattern j).Matches (x.take n)) : (pattern i).Matches (x.take n) ∧
        ∃ pre post, j :: rules = pre ++ i :: post ∧ ∀ j ∈ pre, ¬ (pattern j).Matches (x.take n) := by
      obtain ⟨hm, pre, post, hrules, hpre⟩ := ih hr
      exact ⟨hm, j :: pre, post, by rw [hrules]; rfl, List.forall_mem_cons.2 ⟨hj, hpre⟩⟩
    cases hl : (pattern j).longest x with
    | none =>
      rw [hl] at h hlong
      exact hlater h (hlong n (munch_length_le h))
    | some k =>
      rw [hl] at h hlong
      have hself : (pattern j).Matches (x.take k) ∧ ∃ pre post, j :: rules = pre ++ j :: post ∧
          ∀ j ∈ pre, ¬ (pattern j).Matches (x.take k) := ⟨hlong.2.1, [], rules, rfl, nofun⟩
      cases hr : munch pattern rules x with
      | none =>
        rw [hr] at h
        cases h
        exact hself
      | some b =>
        rw [hr] at h
        dsimp only at h
        split at h
        · cases h
          exact hself
        · cases h
          next hlt => exact hlater hr fun hm => hlt (hlong.2.2 _ (munch_length_le hr) hm)

/-! ## Texts -/

theorem scan_nil : scan pattern fold rules [] = [] := by
  rw [scan]

variable (pattern fold rules) in
/-- The rule is the first to match the lexeme. -/
structure IsLexeme (i : ι) (w : List α) : Prop where
  ne : w ≠ []
  matches_ : (pattern i).Matches (w.map fold)
  first : ∃ pre post, rules = pre ++ i :: post ∧ ∀ j ∈ pre, ¬ (pattern j).Matches (w.map fold)

/-- The rule of a lexeme that no other matches, but for the last one. -/
theorem IsLexeme.of_last {i k : ι} {init : List ι} {w : List α} (hrules : rules = init ++ [k])
    (hk : k ∉ init) (hi : i ∈ init) (hne : w ≠ []) (hm : (pattern i).Matches (w.map fold))
    (hun : ∀ j, (pattern j).Matches (w.map fold) → j = i ∨ j = k) :
    IsLexeme pattern fold rules i w := by
  obtain ⟨pre, post, hsplit, hpre⟩ := List.eq_append_cons_of_mem hi
  refine ⟨hne, hm, pre, post ++ [k], ?_, fun j hj hmj => ?_⟩
  · rw [hrules, hsplit, List.append_assoc, List.cons_append]
  · rcases hun j hmj with rfl | rfl
    · exact hpre hj
    · exact hk (hsplit ▸ List.mem_append_left _ hj)

variable (pattern fold rules) in
/-- No rule matches the lexeme and more of what follows. -/
def Stops (w y : List α) : Prop :=
  ∀ a, y.head? = some a → ∀ i ∈ rules, ∀ z, ¬ (pattern i).Matches (w.map fold ++ fold a :: z)

/-- **A lexeme** is taken off. -/
theorem scan_lexeme {i : ι} {w y : List α} (h : IsLexeme pattern fold rules i w)
    (hs : Stops pattern fold rules w y) :
    scan pattern fold rules (w ++ y) = (i, w) :: scan pattern fold rules y := by
  have hm : munch pattern rules ((w ++ y).map fold) = some (w.length, i) := by
    have hw : munch pattern rules (w.map fold) = some (w.length, i) := by
      obtain ⟨pre, post, hrules, hpre⟩ := h.first
      rw [hrules, munch_first h.matches_ hpre, List.length_map]
    cases y with
    | nil => rwa [List.append_nil]
    | cons a y => rw [List.map_append, List.map_cons, munch_append_dead (hs a rfl), hw]
  cases w with
  | nil => exact absurd rfl h.ne
  | cons a w =>
    rw [List.cons_append] at hm ⊢
    rw [scan, hm]
    simp only [List.length_cons, List.take_succ_cons, List.take_left', List.drop_left']

variable (pattern fold rules) in
/-- No rule matches across the end of the first text. -/
def Apart (x y : List α) : Prop :=
  ∀ w, w ≠ [] → w <:+ x → ∀ z, z ≠ [] → z <+: y → ∀ i ∈ rules,
    ¬ (pattern i).Matches (w.map fold ++ z.map fold)

theorem Apart.suffix {w x y : List α} (h : Apart pattern fold rules x y) (hw : w <:+ x) :
    Apart pattern fold rules w y :=
  fun v hv hvw => h v hv (hvw.trans hw)

/-- **Texts apart** are cut apart. -/
theorem scan_append {x y : List α} (h : Apart pattern fold rules x y) :
    scan pattern fold rules (x ++ y) = scan pattern fold rules x ++ scan pattern fold rules y := by
  induction hn : x.length using Nat.strongRecOn generalizing x with
  | _ n ih =>
    subst hn
    cases x with
    | nil =>
      rw [scan_nil]
      rfl
    | cons a x =>
      have hm : munch pattern rules ((a :: (x ++ y)).map fold)
          = munch pattern rules ((a :: x).map fold) := by
        rw [← List.cons_append, List.map_append]
        refine munch_append fun i hi z hz hpre => ?_
        obtain ⟨k, hk⟩ : ∃ k, z = (y.take k).map fold := by
          rw [List.prefix_iff_eq_take.1 hpre, ← List.map_take]
          exact ⟨_, rfl⟩
        subst hk
        exact h _ (List.cons_ne_nil _ _) (List.suffix_refl _) _
          (fun hnil => hz (by rw [hnil]; rfl)) (List.take_prefix _ _) i hi
      have htail {k : Nat} (hk : k ≤ x.length) :
          scan pattern fold rules (x.drop k ++ y)
            = scan pattern fold rules (x.drop k) ++ scan pattern fold rules y := by
        refine ih _ ?_ (h.suffix ((List.drop_suffix k x).trans (List.suffix_cons a x))) rfl
        rw [List.length_drop, List.length_cons]
        omega
      rw [List.cons_append, scan, hm]
      conv => rhs; rw [scan]
      split
      case h_1 n i hmunch =>
        have hle : n ≤ x.length := by
          have := munch_length_le hmunch
          rw [List.length_map, List.length_cons] at this
          omega
        rw [List.drop_append_of_le_length hle, htail hle, List.cons_append, List.take_succ_cons,
          List.take_succ_cons, List.take_append_of_le_length hle]
      case h_2 => exact htail (Nat.zero_le _)

/-- What a text is cut into are lexemes. -/
theorem scan_isLexeme {x : List α} {i : ι} {w : List α} (h : (i, w) ∈ scan pattern fold rules x) :
    IsLexeme pattern fold rules i w := by
  induction hn : x.length using Nat.strongRecOn generalizing x with
  | _ n ih =>
    subst hn
    cases x with
    | nil =>
      rw [scan_nil] at h
      cases h
    | cons a x =>
      rw [scan] at h
      split at h
      case h_1 n j hm =>
        rcases List.mem_cons.1 h with heq | h
        · cases heq
          obtain ⟨hmatch, hfirst⟩ := munch_matches hm
          rw [← List.map_take] at hmatch hfirst
          exact ⟨List.cons_ne_nil _ _, hmatch, hfirst⟩
        · refine ih _ ?_ h rfl
          rw [List.length_drop, List.length_cons]
          omega
      case h_2 => exact ih _ (Nat.lt_succ_self _) h rfl

/-- **Texts folded alike** are cut alike. -/
theorem scan_fold {x x' : List α} (h : x.map fold = x'.map fold) :
    List.Forall₂ (fun p p' => p.1 = p'.1 ∧ p.2.map fold = p'.2.map fold)
      (scan pattern fold rules x) (scan pattern fold rules x') := by
  induction hn : x.length using Nat.strongRecOn generalizing x x' with
  | _ n ih =>
    subst hn
    cases x with
    | nil =>
      obtain rfl : x' = [] := List.map_eq_nil_iff.1 h.symm
      rw [scan_nil]
      exact .nil
    | cons a x =>
      cases x' with
      | nil => cases h
      | cons a' x' =>
        have htail : x.map fold = x'.map fold := (List.cons.inj h).2
        rw [scan, scan, ← h]
        split
        case h_1 n i hm =>
          have hdrop : (x.drop n).map fold = (x'.drop n).map fold := by
            rw [List.map_drop, List.map_drop, htail]
          have htake : ((a :: x).take (n + 1)).map fold = ((a' :: x').take (n + 1)).map fold := by
            rw [List.map_take, List.map_take, h]
          refine .cons ⟨rfl, htake⟩ (ih _ ?_ hdrop rfl)
          rw [List.length_drop, List.length_cons]
          omega
        case h_2 => exact ih _ (Nat.lt_succ_self _) htail rfl

end Lib
