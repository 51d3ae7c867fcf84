import Mathlib.Data.List.Nodup
import Mathlib.Data.List.Pairwise
import Emulathor.Assembler.Proof.Upper

/-!
# The lexemes of a line

Which rule takes a name, a number, a separator, and what may stand behind each so that no rule goes
on (`Lib.scan_lexeme`). A name's rule is the only one it is a spelling of (`spelling_unique`).
-/

namespace Assembler

open Common Lib Regex

/-! ## Spellings -/

namespace LexRule

/-- The words of a rule that matches only words. -/
def spellings : LexRule → List String
  | creg => cregNames
  | reg8 => reg8Names
  | reg16 => reg16Names
  | reg32 => reg32Names
  | opFmtI => opFmtINames
  | opFmtII => opFmtIINames
  | opFmtIV => opFmtIVNames
  | opFmtV => opFmtVNames
  | opFmtVI => opFmtVINames
  | opFmtVIC => opFmtVICNames
  | opFmtVIII => opFmtVIIINames
  | opSCmpxchg => ["CMPXCHG"]
  | opSLoadi => ["LOADI"]
  | opSLoadid => ["LOADID"]
  | opSLoadrd => ["LOADRD"]
  | opSMov => ["MOV"]
  | opSSex => ["SEX"]
  | opSStoreid => ["STOREID"]
  | opSStorerd => ["STORERD"]
  | opSXchgc => ["XCHGC"]
  | opSStoreas => ["STOREAS"]
  | opSLoadas => ["LOADAS"]
  | opPseudoLoadadr => ["LOADADR"]
  | opPseudoLdcall => ["LDCALL"]
  | opPseudoLdjmp => ["LDJMP"]
  | opPseudoPush => ["PUSH"]
  | opPseudoPop => ["POP"]
  | opPseudoLoad32 => ["LOAD32"]
  | condition => conditionNames
  | _ => []

/-- The rules of mnemonics. -/
def ops : List LexRule :=
  [opFmtI, opFmtII, opFmtIV, opFmtV, opFmtVI, opFmtVIC, opFmtVIII, opSCmpxchg, opSLoadi, opSLoadid,
    opSLoadrd, opSMov, opSSex, opSStoreid, opSStorerd, opSXchgc, opSStoreas, opSLoadas,
    opPseudoLoadadr, opPseudoLdcall, opPseudoLdjmp, opPseudoPush, opPseudoPop, opPseudoLoad32]

theorem mem_all (i : LexRule) : i ∈ all := by cases i <;> decide

theorem matches_spelling {i : LexRule} (h : i.spellings ≠ []) {x : List Char} :
    i.pattern.Matches x ↔ ∃ s ∈ i.spellings, s.toList = x := by
  have hnames (ns : List String) : (names ns).Matches x ↔ ∃ s ∈ ns, s.toList = x := by
    rw [names, matches_words, List.mem_map]
  have hlit (s : String) : (lit s).Matches x ↔ ∃ s' ∈ [s], s'.toList = x := by
    rw [lit, matches_word]
    constructor
    · rintro rfl
      exact ⟨s, .head _, rfl⟩
    · rintro ⟨s', hs, rfl⟩
      rw [List.mem_singleton.1 hs]
  cases i with
  | creg | reg8 | reg16 | reg32 | opFmtI | opFmtII | opFmtIV | opFmtV | opFmtVI | opFmtVIC
  | opFmtVIII | condition => exact hnames _
  | opSCmpxchg | opSLoadi | opSLoadid | opSLoadrd | opSMov | opSSex | opSStoreid | opSStorerd
  | opSXchgc | opSStoreas | opSLoadas | opPseudoLoadadr | opPseudoLdcall | opPseudoLdjmp
  | opPseudoPush | opPseudoPop | opPseudoLoad32 => exact hlit _
  | _ => exact absurd rfl h

end LexRule

def vocabulary : List String := LexRule.all.flatMap LexRule.spellings

theorem mem_vocabulary {i : LexRule} {s : String} (h : s ∈ i.spellings) : s ∈ vocabulary :=
  List.mem_flatMap.2 ⟨i, i.mem_all, h⟩

/-- No two rules share a word. -/
theorem spelling_unique {i j : LexRule} {s : String} (hi : s ∈ i.spellings) (hj : s ∈ j.spellings) :
    i = j := by
  -- words that differ as numbers to the base 256 are compared faster
  have hnodup : vocabulary.Nodup := by
    refine List.Nodup.of_map (fun s => s.toList.foldl (fun n c => 256 * n + c.toNat) 0) ?_
    decide +kernel
  have hdisjoint := (List.nodup_flatMap.1 hnodup).2
  by_contra hne
  have hsymm : Std.Symm (Function.onFun List.Disjoint LexRule.spellings) :=
    ⟨fun _ _ h _ ha hb => h hb ha⟩
  exact hdisjoint.forall i.mem_all j.mem_all hne hi hj

def letters : List Char := "ABCDEFGHIJKLMNOPQRSTUVWXYZ".toList

/-- The characters behind a name in a line. -/
def delimiters : List Char := [',', '\t', ' ', '\n']

theorem head_delimiter {c : Char} {x : List Char} (hc : c ∈ delimiters) :
    ∀ a, (c :: x).head? = some a → a ∈ delimiters := by
  rintro a ⟨⟩
  exact hc

theorem vocabulary_letter : ∀ s ∈ vocabulary, ∃ c ∈ letters, ∃ x ≠ [], s.toList = c :: x := by
  have h : ∀ s ∈ vocabulary, (s.toList.head?.any (· ∈ letters)) = true ∧ s.toList.tail ≠ [] := by
    decide +kernel
  intro s hs
  obtain ⟨hhead, htail⟩ := h s hs
  cases hl : s.toList with
  | nil =>
    rw [hl] at hhead
    cases hhead
  | cons c x =>
    rw [hl] at hhead htail
    exact ⟨c, of_decide_eq_true hhead, x, htail, rfl⟩

theorem vocabulary_chars : ∀ s ∈ vocabulary, ∀ c ∈ ':' :: '/' :: delimiters, c ∉ s.toList := by
  decide +kernel

/-- What starts with a letter is a word, a register range or a single character. -/
theorem letter_cases {i : LexRule} {c : Char} {x : List Char} (hc : c ∈ letters)
    (h : i.pattern.Matches (c :: x)) :
    (∃ s ∈ i.spellings, s.toList = c :: x) ∨
    (i = .regRange ∧ ∃ a ∈ reg32Names, ∃ b ∈ reg32Names,
      a.toList ++ ':' :: b.toList = c :: x) ∨
    (i = .garbage ∧ x = []) := by
  by_cases hword : i.spellings = []
  · right
    have hfirst := matches_first h
    have hno : ∀ c ∈ letters, ∀ i ∈ [LexRule.endl, .space, .hex32bit, .hex, .int, .int32, .comma,
        .dAlign, .dLabel, .dOffset, .dByte, .dWord, .dDword, .dAt, .bytes, .end_, .comment, .ident],
        i.pattern.first c = false := by decide +kernel
    cases i with
    | regRange =>
      left
      obtain ⟨y, z, hyz, hy, hz⟩ := matches_seq.1 h
      obtain ⟨m, z', rfl, hm, hz'⟩ := matches_seq.1 hz
      obtain rfl := matches_word.1 hm
      obtain ⟨a, ha, rfl⟩ := List.mem_map.1 (matches_words.1 hy)
      obtain ⟨b, hb, rfl⟩ := List.mem_map.1 (matches_words.1 hz')
      exact ⟨rfl, a, ha, b, hb, hyz.symm⟩
    | garbage =>
      right
      obtain ⟨a, -, ha⟩ := matches_cls.1 h
      exact ⟨rfl, (List.cons.inj ha).2⟩
    | endl | space | hex32bit | hex | int | int32 | comma | dAlign | dLabel | dOffset | dByte | dWord
    | dDword | dAt | bytes | end_ | comment | ident =>
      rw [hno c hc _ (by decide)] at hfirst
      cases hfirst
    | _ => cases hword
  · exact .inl ((LexRule.matches_spelling hword).1 h)

/-- No more than one character has a delimiter in it. -/
theorem letter_chars {i : LexRule} {c : Char} {x : List Char} (hc : c ∈ letters)
    (h : i.pattern.Matches (c :: x)) (hx : x ≠ []) : ∀ a ∈ '/' :: delimiters, a ∉ c :: x := by
  intro a ha
  have hword {s : String} (hs : s ∈ vocabulary) : a ∉ s.toList :=
    vocabulary_chars s hs a (.tail _ ha)
  obtain ⟨s, hs, hsx⟩ | ⟨-, r, hr, r', hr', hrx⟩ | ⟨-, rfl⟩ := letter_cases hc h
  · rw [← hsx]
    exact hword (mem_vocabulary hs)
  · have hcolon : a ≠ ':' := by
      rintro rfl
      exact absurd ha (by decide)
    rw [← hrx, List.mem_append, List.mem_cons]
    rintro (hmem | hmem | hmem)
    · exact hword (mem_vocabulary (i := .reg32) hr) hmem
    · exact hcolon hmem
    · exact hword (mem_vocabulary (i := .reg32) hr') hmem
  · exact absurd rfl hx

/-! ## Lexemes -/

/-- The rule is the first to match the lexeme. -/
abbrev IsLexeme (i : LexRule) (w : List Char) : Prop :=
  Lib.IsLexeme LexRule.pattern Char.toUpper LexRule.all i w

/-- No rule matches the lexeme and more of what follows. -/
abbrev Stops (w y : List Char) : Prop := Lib.Stops LexRule.pattern Char.toUpper LexRule.all w y

/-- The rule of a lexeme no other matches, but for the last one. -/
theorem isLexeme_of {i : LexRule} {w : List Char} (hi : i ≠ .garbage) (hne : w ≠ [])
    (hm : i.pattern.Matches (w.map Char.toUpper))
    (hun : ∀ j : LexRule, j.pattern.Matches (w.map Char.toUpper) → j = i ∨ j = .garbage) :
    IsLexeme i w := by
  have hall : LexRule.all = LexRule.all.dropLast ++ [.garbage] := rfl
  have hmem : i ∈ LexRule.all.dropLast := by
    have := i.mem_all
    rw [hall, List.mem_append, List.mem_singleton] at this
    exact this.resolve_right hi
  exact Lib.IsLexeme.of_last hall (by decide) hmem hne hm hun

/-! ## Names -/

theorem isLexeme_spelling {i : LexRule} {s : String} {w : List Char} (hs : s ∈ i.spellings)
    (hw : w.map Char.toUpper = s.toList) : IsLexeme i w := by
  obtain ⟨c, hc, x, hx, hcx⟩ := vocabulary_letter s (mem_vocabulary hs)
  have hne : i.spellings ≠ [] := List.ne_nil_of_mem hs
  have hi : i ≠ .garbage := by
    rintro rfl
    cases hs
  refine isLexeme_of hi ?_ ?_ fun j hj => .inl ?_
  · rintro rfl
    rw [hcx] at hw
    cases hw
  · rw [hw]
    exact (LexRule.matches_spelling hne).2 ⟨s, hs, rfl⟩
  · rw [hw, hcx] at hj
    obtain ⟨t, ht, htx⟩ | ⟨-, a, -, b, -, hab⟩ | ⟨-, rfl⟩ := letter_cases hc hj
    · obtain rfl : t = s := String.toList_injective (htx.trans hcx.symm)
      exact spelling_unique ht hs
    · have hcolon : ':' ∈ s.toList := by
        rw [hcx, ← hab]
        exact List.mem_append_right _ (.head _)
      exact absurd hcolon (vocabulary_chars s (mem_vocabulary hs) ':' (.head _))
    · exact absurd rfl hx

/-- What follows a word must go on to a longer word, or to a range. -/
theorem stops_word {s : String} {w y : List Char} (hs : s ∈ vocabulary)
    (hw : w.map Char.toUpper = s.toList)
    (hy : ∀ a, y.head? = some a → a.toUpper ≠ ':' ∧
      ∀ t ∈ vocabulary, ∀ z, s.toList ++ a.toUpper :: z ≠ t.toList) : Stops w y := by
  intro a ha j _ z hj
  obtain ⟨hcolon, hword⟩ := hy a ha
  obtain ⟨c, hc, x, hx, hcx⟩ := vocabulary_letter s hs
  rw [hw, hcx, List.cons_append] at hj
  have hnot := letter_cases hc hj
  rw [← List.cons_append, ← hcx] at hnot
  obtain ⟨t, ht, htx⟩ | ⟨-, r, hr, r', -, hrr⟩ | ⟨-, hnil⟩ := hnot
  · exact hword t (mem_vocabulary ht) z htx.symm
  · have hr' : r ∈ vocabulary := mem_vocabulary (i := .reg32) hr
    obtain ⟨k, hk, hrest⟩ | ⟨k, hk, hrest⟩ := List.append_eq_append_iff.1 hrr
    · -- the word goes on behind the range's first name
      cases k with
      | nil => exact hcolon (List.cons.inj hrest).1.symm
      | cons k ks =>
        obtain rfl := (List.cons.inj hrest).1
        have : ':' ∈ s.toList := by
          rw [hk]
          exact List.mem_append_right _ (.head _)
        exact vocabulary_chars s hs ':' (.head _) this
    · cases k with
      | nil => exact hcolon (List.cons.inj hrest).1
      | cons k ks =>
        obtain rfl := (List.cons.inj hrest).1
        exact hword r hr' ks hk.symm
  · exact absurd (List.append_eq_nil_iff.1 hnil).2 (List.cons_ne_nil _ _)

/-- What starts with a letter, in front of a delimiter or at the end. -/
theorem stops_letter {c : Char} {x w y : List Char} (hc : c ∈ letters)
    (hw : w.map Char.toUpper = c :: x) (hy : ∀ a, y.head? = some a → a ∈ '/' :: delimiters) :
    Stops w y := by
  have hdel : ∀ a ∈ '/' :: delimiters, a.toUpper = a := by decide
  intro a ha j _ z hj
  rw [hw, hdel a (hy a ha), List.cons_append] at hj
  refine letter_chars hc hj ?_ a (hy a ha) (List.mem_cons_of_mem _ ?_)
  · exact List.append_ne_nil_of_right_ne_nil _ (List.cons_ne_nil _ _)
  · exact List.mem_append_right _ (.head _)

/-- A name in front of a delimiter, or at the end. -/
theorem stops_delimiter {s : String} {w y : List Char} (hs : s ∈ vocabulary)
    (hw : w.map Char.toUpper = s.toList) (hy : ∀ a, y.head? = some a → a ∈ delimiters) :
    Stops w y := by
  obtain ⟨c, hc, x, -, hcx⟩ := vocabulary_letter s hs
  exact stops_letter hc (hw.trans hcx) fun a ha => .tail _ (hy a ha)

theorem isLexeme_range {w : List Char} {r r' : String} (hr : r ∈ reg32Names) (hr' : r' ∈ reg32Names)
    (hw : w.map Char.toUpper = r.toList ++ ':' :: r'.toList) : IsLexeme .regRange w := by
  have hne : w ≠ [] := by
    rintro rfl
    exact List.append_ne_nil_of_right_ne_nil _ (List.cons_ne_nil _ _) hw.symm
  refine isLexeme_of (by decide) hne ?_ fun j hj => ?_
  · rw [hw]
    exact .seq (matches_words.2 (List.mem_map_of_mem hr))
      (.seq (matches_word.2 rfl) (matches_words.2 (List.mem_map_of_mem hr')))
  · obtain ⟨c, hc, x, -, hcx⟩ := vocabulary_letter r (mem_vocabulary (i := .reg32) hr)
    rw [hw, hcx] at hj
    obtain ⟨s, hs, hsx⟩ | ⟨rfl, -⟩ | ⟨rfl, -⟩ := letter_cases hc hj
    · -- no word has a colon
      refine absurd ?_ (vocabulary_chars s (mem_vocabulary hs) ':' (.head _))
      rw [hsx]
      exact List.mem_cons_of_mem _ (List.mem_append_right _ (.head _))
    · exact .inl rfl
    · exact .inr rfl

/-- A mnemonic in front of a condition. -/
theorem stops_condition {i : LexRule} {s : String} {w y : List Char} (hi : i ∈ LexRule.ops)
    (hs : s ∈ i.spellings) (hw : w.map Char.toUpper = s.toList)
    (hy : ∀ a, y.head? = some a → a.toUpper = 'I' ∨ a.toUpper = 'N') : Stops w y := by
  -- what is in front of an `I` or `N` in a word is no mnemonic
  have hpre : ∀ t ∈ vocabulary, ∀ k < 8, t.toList[k]? = some 'I' ∨ t.toList[k]? = some 'N' →
      ∀ i ∈ LexRule.ops, String.ofList (t.toList.take k) ∉ i.spellings := by decide +kernel
  have hlen : ∀ s ∈ vocabulary, s.toList.length < 8 := by decide +kernel
  refine stops_word (mem_vocabulary hs) hw fun a ha => ?_
  have hIN := hy a ha
  refine ⟨?_, fun t ht z htz => ?_⟩
  · rcases hIN with h | h <;> rw [h] <;> decide
  · have hat : t.toList[s.toList.length]? = some a.toUpper := by
      rw [← htz, List.getElem?_append_right (Nat.le_refl _), Nat.sub_self]
      rfl
    have htake : String.ofList (t.toList.take s.toList.length) = s := by
      rw [← htz, List.take_left', String.ofList_toList]
      rfl
    have := hpre t ht s.toList.length (hlen s (mem_vocabulary hs))
      (by rw [hat]; exact hIN.imp (congrArg some) (congrArg some)) i hi
    rw [htake] at this
    exact this hs

/-- A letter by itself is no token. -/
theorem isLexeme_letter {c : Char} (hc : c ∈ letters) : IsLexeme .garbage [c] := by
  have hup : ∀ c ∈ letters, c.toUpper = c ∧ (c != '\n') = true := by decide
  have hmap : [c].map Char.toUpper = [c] := by rw [List.map_singleton, (hup c hc).1]
  refine ⟨List.cons_ne_nil _ _, ?_, LexRule.all.dropLast, [], rfl, fun j hj hm => ?_⟩
  · rw [hmap]
    exact .cls (hup c hc).2
  · rw [hmap] at hm
    obtain ⟨s, hs, hsx⟩ | ⟨-, a, -, b, -, hab⟩ | ⟨rfl, -⟩ := letter_cases hc hm
    · obtain ⟨d, -, x, hx, hdx⟩ := vocabulary_letter s (mem_vocabulary hs)
      exact hx (List.cons.inj (hdx.symm.trans hsx)).2
    · have hcolon : ':' ∈ [c] := by
        rw [← hab]
        exact List.mem_append_right _ (.head _)
      obtain rfl := List.mem_singleton.1 hcolon
      exact absurd hc (by decide)
    · exact absurd hj (by decide)

/-! ## Separators and numbers -/

/-- The rules that match something starting with the character. -/
def startRules : List (Char × List LexRule) :=
  [(' ', [.space, .comma, .garbage]), ('\t', [.space, .comma, .garbage]), (',', [.comma, .garbage]),
    ('\n', [.endl, .comma]), (';', [.comment, .garbage]), ('/', [.garbage])]
  ++ ['-', '0', '1', '2', '3', '4', '5', '6', '7', '8', '9'].map
    (fun c => (c, [.hex32bit, .hex, .int, .garbage]))
  ++ [('@', [.hex32bit, .int32, .garbage])]

theorem starts {c : Char} {rules : List LexRule} (h : (c, rules) ∈ startRules) {i : LexRule}
    {x : List Char} (hm : i.pattern.Matches (c :: x)) : i ∈ rules := by
  have hall : ∀ p ∈ startRules, ∀ i ∈ LexRule.all, i.pattern.first p.1 = true → i ∈ p.2 := by
    decide +kernel
  exact hall _ h i i.mem_all (matches_first hm)

/-- What may stand around a comma. -/
def isGap (c : Char) : Bool := isBlank c || c == '\n'

theorem matches_comma {x : List Char} : LexRule.comma.pattern.Matches x ↔
    ∃ u v, x = u ++ ',' :: v ∧ (∀ c ∈ u, isGap c = true) ∧ ∀ c ∈ v, isGap c = true := by
  constructor
  · intro h
    obtain ⟨u, z, rfl, hu, hz⟩ := matches_seq.1 h
    obtain ⟨m, v, rfl, hm, hv⟩ := matches_seq.1 hz
    obtain rfl := matches_word.1 hm
    exact ⟨u, v, rfl, matches_star_cls.1 hu, matches_star_cls.1 hv⟩
  · rintro ⟨u, v, rfl, hu, hv⟩
    exact .seq (matches_star_cls.2 hu) (.seq (matches_word.2 rfl) (matches_star_cls.2 hv))

theorem matches_garbage {x : List Char} (h : LexRule.garbage.pattern.Matches x) : x.length = 1 := by
  obtain ⟨a, -, rfl⟩ := matches_cls.1 h
  rfl

theorem isBlank_iff {c : Char} : isBlank c = true ↔ c = ' ' ∨ c = '\t' := by
  rw [isBlank, Bool.or_eq_true, beq_iff_eq, beq_iff_eq]

theorem blank_start {c : Char} (h : isBlank c = true) :
    (c, [LexRule.space, .comma, .garbage]) ∈ startRules := by
  obtain rfl | rfl := isBlank_iff.1 h <;> decide

theorem map_blanks {w : List Char} (hw : ∀ c ∈ w, isBlank c = true) : w.map Char.toUpper = w := by
  refine (List.map_congr_left fun c hc => ?_).trans (List.map_id w)
  obtain rfl | rfl := isBlank_iff.1 (hw c hc) <;> rfl

theorem isLexeme_blanks {w : List Char} (hne : w ≠ []) (hw : ∀ c ∈ w, isBlank c = true) :
    IsLexeme .space w := by
  refine isLexeme_of (by decide) hne ?_ fun j hj => ?_
  · rw [map_blanks hw]
    exact matches_star_cls.2 hw
  · rw [map_blanks hw] at hj
    cases w with
    | nil => exact absurd rfl hne
    | cons c w =>
      have hmem := starts (blank_start (hw c (.head _))) hj
      rcases List.mem_cons.1 hmem with rfl | hmem
      · exact .inl rfl
      · rcases List.mem_cons.1 hmem with rfl | hmem
        · obtain ⟨u, v, huv, -⟩ := matches_comma.1 hj
          have : isBlank ',' = true := by
            refine hw ',' ?_
            rw [huv]
            exact List.mem_append_right _ (.head _)
          cases this
        · exact .inr (List.mem_singleton.1 hmem)

/-- A character that no separator has. -/
def isSolid (c : Char) : Bool := !isGap c && c != ','

/-- Neither a gap nor a comma goes on with a solid character. -/
theorem not_separator {j : LexRule} {c : Char} {x z : List Char} {a : Char} {rules : List LexRule}
    (hstart : (c, rules) ∈ startRules) (hrules : ∀ j ∈ rules, j ∈ [.space, .comma, .endl, .garbage])
    (ha : isSolid a = true) : ¬ j.pattern.Matches (c :: x ++ a :: z) := by
  intro hj
  rw [isSolid, Bool.and_eq_true, Bool.not_eq_true', bne_iff_ne] at ha
  obtain ⟨hgap, hcomma⟩ := ha
  have hblank : isBlank a = false := (Bool.or_eq_false_iff.1 hgap).1
  have hmem : a ∈ c :: x ++ a :: z := List.mem_append_right _ (.head _)
  have hlen : 2 ≤ (c :: x ++ a :: z).length := by
    rw [List.length_append, List.length_cons, List.length_cons]
    omega
  have hrule := hrules j (starts hstart hj)
  simp only [List.mem_cons, List.not_mem_nil, or_false] at hrule
  obtain rfl | rfl | rfl | rfl := hrule
  · have := matches_star_cls.1 hj a hmem
    rw [hblank] at this
    cases this
  · obtain ⟨u, v, huv, hu, hv⟩ := matches_comma.1 hj
    rw [huv, List.mem_append, List.mem_cons] at hmem
    rcases hmem with hu' | rfl | hv'
    · rw [hu a hu'] at hgap
      cases hgap
    · exact hcomma rfl
    · rw [hv a hv'] at hgap
      cases hgap
  · rcases matches_alt.1 hj with hj | hj
    · rw [matches_word.1 hj] at hlen
      exact absurd hlen (by decide)
    · have hc : c = '\r' := (List.cons.inj (matches_word.1 hj)).1
      have hno : ∀ p ∈ startRules, p.1 ≠ '\r' := by decide
      exact hno _ hstart hc
  · rw [matches_garbage hj] at hlen
    omega

theorem isSolid_toUpper (a : Char) : isSolid a.toUpper = isSolid a := by
  have hblank {b : Char} (hb : b.toNat < 65) : (a.toUpper == b) = (a == b) :=
    Bool.eq_iff_iff.2 (by rw [beq_iff_eq, beq_iff_eq, toUpper_eq hb])
  have hne : (a.toUpper != ',') = (a != ',') := by rw [bne, bne, hblank (by decide)]
  unfold isSolid isGap isBlank
  rw [hblank (by decide), hblank (by decide), hblank (by decide), hne]

theorem solid_toUpper {a : Char} (h : isSolid a = true) : isSolid a.toUpper = true :=
  (isSolid_toUpper a).trans h

/-- What starts with a letter of either case. -/
theorem letter_solid {c : Char} {x w y : List Char} (hc : c ∈ letters)
    (hw : w.map Char.toUpper = c :: x) : ∀ a, (w ++ y).head? = some a → isSolid a = true := by
  have hletters : ∀ c ∈ letters, isSolid c = true := by decide
  cases w with
  | nil => cases hw
  | cons d w =>
    rintro a ⟨⟩
    rw [← isSolid_toUpper, (List.cons.inj hw).1]
    exact hletters c hc

theorem word_solid {s : String} {w y : List Char} (hs : s ∈ vocabulary)
    (hw : w.map Char.toUpper = s.toList) : ∀ a, (w ++ y).head? = some a → isSolid a = true := by
  obtain ⟨c, hc, x, -, hcx⟩ := vocabulary_letter s hs
  exact letter_solid hc (hw.trans hcx)

theorem stops_blanks {w y : List Char} (hne : w ≠ []) (hw : ∀ c ∈ w, isBlank c = true)
    (hy : ∀ a, y.head? = some a → isSolid a = true) : Stops w y := by
  intro a ha j _ z
  rw [map_blanks hw]
  cases w with
  | nil => exact absurd rfl hne
  | cons c w =>
    exact not_separator (blank_start (hw c (.head _))) (by decide) (solid_toUpper (hy a ha))

theorem isLexeme_comma {w : List Char} (hw : ∀ c ∈ w, isBlank c = true) :
    IsLexeme .comma (',' :: w) := by
  have hmap : (',' :: w).map Char.toUpper = ',' :: w := congrArg _ (map_blanks hw)
  refine isLexeme_of (by decide) (List.cons_ne_nil _ _) ?_ fun j hj => ?_
  · rw [hmap]
    refine matches_comma.2 ⟨[], w, rfl, nofun, fun c hc => ?_⟩
    rw [isGap, hw c hc]
    rfl
  · rw [hmap] at hj
    have hmem := starts (show (',', [.comma, .garbage]) ∈ startRules by decide) hj
    simpa only [List.mem_cons, List.not_mem_nil, or_false] using hmem

theorem stops_comma {w y : List Char} (hw : ∀ c ∈ w, isBlank c = true)
    (hy : ∀ a, y.head? = some a → isSolid a = true) : Stops (',' :: w) y := by
  intro a ha j _ z
  have hmap : (',' :: w).map Char.toUpper = ',' :: w := congrArg _ (map_blanks hw)
  rw [hmap]
  have hstart : (',', [LexRule.comma, .garbage]) ∈ startRules := by decide
  exact not_separator hstart (by decide) (solid_toUpper (hy a ha))

theorem isLexeme_endl : IsLexeme .endl ['\n'] :=
  ⟨List.cons_ne_nil _ _, .altLeft (matches_word.2 rfl), [], LexRule.all.tail, rfl, nofun⟩

theorem stops_endl {y : List Char} (hy : ∀ a, y.head? = some a → isSolid a = true) :
    Stops ['\n'] y := by
  intro a ha j _ z
  have hstart : ('\n', [LexRule.endl, .comma]) ∈ startRules := by decide
  exact not_separator hstart (by decide) (solid_toUpper (hy a ha))

/-! ## Numbers -/

theorem matches_hex {x : List Char} : LexRule.hex.pattern.Matches x ↔
    ∃ ds, x = '0' :: 'X' :: ds ∧ ds ≠ [] ∧ ∀ c ∈ ds, isHex c = true := by
  constructor
  · intro h
    obtain ⟨m, ds, rfl, hm, hds⟩ := matches_seq.1 h
    obtain rfl := matches_word.1 hm
    obtain ⟨hne, hall⟩ := matches_plus.1 hds
    exact ⟨ds, rfl, hne, hall⟩
  · rintro ⟨ds, rfl, hne, hall⟩
    exact .seq (x := ['0', 'X']) (matches_word.2 rfl) (matches_plus.2 ⟨hne, hall⟩)

theorem matches_hex8 {x : List Char} :
    hex8.Matches x ↔ x.length = 8 ∧ ∀ c ∈ x, isHex c = true := by
  have hrep : ∀ (n : Nat) (x : List Char),
      ((List.replicate n (cls isHex)).foldr seq eps).Matches x ↔
        x.length = n ∧ ∀ c ∈ x, isHex c = true := by
    intro n
    induction n with
    | zero =>
      intro x
      constructor
      · intro hx
        obtain rfl := matches_eps.1 hx
        exact ⟨rfl, nofun⟩
      · rintro ⟨hx, -⟩
        obtain rfl := List.length_eq_zero_iff.1 hx
        exact .eps
    | succ n ih =>
      intro x
      constructor
      · intro hx
        obtain ⟨y, z, rfl, hy, hz⟩ := matches_seq.1 hx
        obtain ⟨a, ha, rfl⟩ := matches_cls.1 hy
        obtain ⟨hlen, hall⟩ := (ih z).1 hz
        refine ⟨?_, List.forall_mem_cons.2 ⟨ha, hall⟩⟩
        rw [List.singleton_append, List.length_cons, hlen]
      · rintro ⟨hlen, hall⟩
        cases x with
        | nil => cases hlen
        | cons a x =>
          obtain ⟨ha, hx⟩ := List.forall_mem_cons.1 hall
          exact .seq (x := [a]) (.cls ha) ((ih x).2 ⟨Nat.succ.inj hlen, hx⟩)
  exact hrep 8 x

/-- Ten characters, or an escape sign first. -/
theorem matches_hex32bit {x : List Char} : LexRule.hex32bit.pattern.Matches x ↔
    (∃ ds, x = '0' :: 'X' :: ds ∧ ds.length = 8 ∧ ∀ c ∈ ds, isHex c = true) ∨
      ∃ ds, x = '@' :: '0' :: 'X' :: ds ∧ ds ≠ [] ∧ ∀ c ∈ ds, isHex c = true := by
  refine matches_alt.trans (or_congr ?_ ?_)
  · constructor
    · intro h
      obtain ⟨m, ds, rfl, hm, hds⟩ := matches_seq.1 h
      obtain rfl := matches_word.1 hm
      exact ⟨ds, rfl, matches_hex8.1 hds⟩
    · rintro ⟨ds, rfl, hds⟩
      exact .seq (x := ['0', 'X']) (matches_word.2 rfl) (matches_hex8.2 hds)
  · constructor
    · intro h
      obtain ⟨m, ds, rfl, hm, hds⟩ := matches_seq.1 h
      obtain rfl := matches_word.1 hm
      exact ⟨ds, rfl, matches_plus.1 hds⟩
    · rintro ⟨ds, rfl, hds⟩
      exact .seq (x := ['@', '0', 'X']) (matches_word.2 rfl) (matches_plus.2 hds)

/-- A sign or a digit. -/
def isNumeral (c : Char) : Bool := c == '-' || c.isDigit

theorem matches_int {x : List Char} (h : LexRule.int.pattern.Matches x) :
    ∀ c ∈ x, isNumeral c = true := by
  obtain ⟨u, v, rfl, hu, hv⟩ := matches_seq.1 h
  have hu := matches_star_cls.1 hu
  obtain ⟨-, hv⟩ := matches_plus.1 hv
  intro c hc
  rw [isNumeral, Bool.or_eq_true]
  rcases List.mem_append.1 hc with hc | hc
  · exact .inl (hu c hc)
  · exact .inr (hv c hc)

theorem numeral_toUpper {w : List Char} (h : ∀ c ∈ w, isNumeral c = true) :
    w.map Char.toUpper = w := by
  refine (List.map_congr_left fun c hc => ?_).trans (List.map_id w)
  rcases Bool.or_eq_true_iff.1 (h c hc) with hminus | hdigit
  · obtain rfl := eq_of_beq hminus
    rfl
  · exact toUpper_digit hdigit

theorem numeral_start {c : Char} (h : isNumeral c = true) :
    (c, [LexRule.hex32bit, .hex, .int, .garbage]) ∈ startRules := by
  rcases Bool.or_eq_true_iff.1 h with hminus | hdigit
  · obtain rfl := eq_of_beq hminus
    decide
  · have hall : ∀ k < 10,
        (Char.ofNat (48 + k), [LexRule.hex32bit, .hex, .int, .garbage]) ∈ startRules := by decide
    obtain ⟨hlow, hhigh⟩ := (isDigit_iff c).1 hdigit
    have := hall (c.toNat - 48) (by omega)
    rwa [Nat.add_sub_cancel' hlow, Char.ofNat_toNat] at this

/-- A decimal number. -/
theorem isLexeme_int {c : Char} {w : List Char}
    (hc : (c, [LexRule.hex32bit, .hex, .int, .garbage]) ∈ startRules)
    (hm : decimal.Matches (c :: w)) : IsLexeme .int (c :: w) := by
  have hnum := matches_int hm
  refine isLexeme_of (by decide) (List.cons_ne_nil _ _) ?_ fun j hj => ?_
  · rw [numeral_toUpper hnum]
    exact hm
  · rw [numeral_toUpper hnum] at hj
    have hX {ds : List Char} (h : c :: w = '0' :: 'X' :: ds) : False := by
      have := hnum 'X' (h ▸ .tail _ (.head _))
      cases this
    have hmem := starts hc hj
    simp only [List.mem_cons, List.not_mem_nil, or_false] at hmem
    obtain rfl | rfl | rfl | rfl := hmem
    · obtain ⟨es, heq, -⟩ | ⟨y, heq, -⟩ := matches_hex32bit.1 hj
      · exact (hX heq).elim
      · obtain rfl := (List.cons.inj heq).1
        exact absurd hc (by decide)
    · obtain ⟨es, heq, -⟩ := matches_hex.1 hj
      exact (hX heq).elim
    · exact .inl rfl
    · exact .inr rfl

theorem hex_toUpper {x : Char} {ds : List Char} (hx : x.toUpper = 'X') :
    ('0' :: x :: ds).map Char.toUpper = '0' :: 'X' :: ds.map Char.toUpper := by
  rw [List.map_cons, List.map_cons, hx]
  rfl

theorem isHex_map {ds : List Char} (h : ∀ c ∈ ds, isHex c.toUpper = true) :
    ∀ c ∈ ds.map Char.toUpper, isHex c = true := by
  intro c hc
  obtain ⟨d, hd, rfl⟩ := List.mem_map.1 hc
  exact h d hd

/-- A hexadecimal number, not of eight digits. -/
theorem isLexeme_hex {x : Char} {ds : List Char} (hx : x.toUpper = 'X') (hne : ds ≠ [])
    (hlen : ds.length ≠ 8) (hds : ∀ c ∈ ds, isHex c.toUpper = true) :
    IsLexeme .hex ('0' :: x :: ds) := by
  refine isLexeme_of (by decide) (List.cons_ne_nil _ _) ?_ fun j hj => ?_
  · rw [hex_toUpper hx]
    exact matches_hex.2 ⟨_, rfl, fun h => hne (List.map_eq_nil_iff.1 h), isHex_map hds⟩
  · rw [hex_toUpper hx] at hj
    have hmem := starts (show ('0', [.hex32bit, .hex, .int, .garbage]) ∈ startRules by decide) hj
    simp only [List.mem_cons, List.not_mem_nil, or_false] at hmem
    obtain rfl | rfl | rfl | rfl := hmem
    · obtain ⟨es, heq, hes, -⟩ | ⟨y, heq, -⟩ := matches_hex32bit.1 hj
      · obtain rfl : ds.map Char.toUpper = es := (List.cons.inj (List.cons.inj heq).2).2
        rw [List.length_map] at hes
        exact absurd hes hlen
      · cases heq
    · exact .inl rfl
    · have := matches_int hj 'X' (.tail _ (.head _))
      cases this
    · exact .inr rfl

/-- Numbers end at a delimiter. -/
theorem stops_number {c : Char} {w y : List Char}
    (hc : (c, [LexRule.hex32bit, .hex, .int, .garbage]) ∈ startRules)
    (hy : ∀ a, y.head? = some a → a ∈ delimiters) : Stops (c :: w) y := by
  have hup : ∀ p ∈ startRules, p.1.toUpper = p.1 := by decide
  have hdel : ∀ a ∈ delimiters, a.toUpper = a ∧ isHex a = false ∧ isNumeral a = false ∧
      a ≠ '0' ∧ a ≠ 'X' := by decide
  intro a ha j _ z hj
  obtain ⟨haup, hhex, hnum, h0, hX⟩ := hdel a (hy a ha)
  rw [List.map_cons, hup _ hc, haup] at hj
  have hmem : a ∈ c :: w.map Char.toUpper ++ a :: z := List.mem_append_right _ (.head _)
  have hno (ds : List Char) (hds : ∀ d ∈ ds, isHex d = true)
      (h : a ∈ '0' :: 'X' :: ds) : False := by
    rcases List.mem_cons.1 h with h | h
    · exact h0 h
    · rcases List.mem_cons.1 h with h | h
      · exact hX h
      · rw [hds a h] at hhex
        cases hhex
  have hrule := starts hc hj
  simp only [List.mem_cons, List.not_mem_nil, or_false] at hrule
  obtain rfl | rfl | rfl | rfl := hrule
  · obtain ⟨ds, heq, -, hds⟩ | ⟨y, heq, -⟩ := matches_hex32bit.1 hj
    · exact hno ds hds (heq ▸ hmem)
    · obtain rfl := (List.cons.inj heq).1
      exact absurd hc (by decide)
  · obtain ⟨ds, heq, -, hds⟩ := matches_hex.1 hj
    exact hno ds hds (heq ▸ hmem)
  · rw [matches_int hj a hmem] at hnum
    cases hnum
  · have hlen := matches_garbage hj
    rw [List.cons_append, List.length_cons, List.length_append, List.length_cons] at hlen
    omega

theorem isLexeme_slash : IsLexeme .garbage ['/'] := by
  refine ⟨List.cons_ne_nil _ _, .cls rfl, LexRule.all.dropLast, [], rfl, fun j hj hm => ?_⟩
  have hmem := starts (show ('/', [.garbage]) ∈ startRules by decide) hm
  obtain rfl := List.mem_singleton.1 hmem
  exact absurd hj (by decide)

theorem stops_slash {y : List Char} : Stops ['/'] y := by
  intro a _ j _ z hj
  have hmem := starts (show ('/', [.garbage]) ∈ startRules by decide) hj
  obtain rfl := List.mem_singleton.1 hmem
  have hlen := matches_garbage hj
  cases hlen

/-! ## Comments -/

theorem newline_toUpper {w : List Char} (h : '\n' ∉ w) : '\n' ∉ w.map Char.toUpper := by
  intro hm
  obtain ⟨c, hc, hup⟩ := List.mem_map.1 hm
  have hdown : c = '\n' := (toUpper_eq (by decide)).1 hup
  exact h (hdown ▸ hc)

theorem isLexeme_comment {w : List Char} (h : '\n' ∉ w) : IsLexeme .comment (';' :: w ++ ['\n']) := by
  have hmap : (';' :: w ++ ['\n']).map Char.toUpper = ';' :: (w.map Char.toUpper ++ ['\n']) := by
    rw [List.map_append]
    rfl
  refine isLexeme_of (by decide) (List.cons_ne_nil _ _) ?_ fun j hj => ?_
  · rw [hmap]
    refine .seq (matches_word.2 rfl) (.seq (matches_star_cls.2 fun c hc => ?_) (matches_word.2 rfl))
    rw [bne_iff_ne]
    rintro rfl
    exact newline_toUpper h hc
  · rw [hmap] at hj
    have hmem := starts (show (';', [.comment, .garbage]) ∈ startRules by decide) hj
    simpa only [List.mem_cons, List.not_mem_nil, or_false] using hmem

/-- A comment ends with its line. -/
theorem stops_comment {w y : List Char} : Stops (';' :: w ++ ['\n']) y := by
  intro a _ j _ z hj
  rw [List.map_append, List.map_cons, List.append_assoc] at hj
  have hmem := starts (show (';', [.comment, .garbage]) ∈ startRules by decide) hj
  simp only [List.mem_cons, List.not_mem_nil, or_false] at hmem
  obtain rfl | rfl := hmem
  · obtain ⟨u, v, huv, hu, hv⟩ := matches_seq.1 hj
    obtain ⟨x, t, rfl, hx, ht⟩ := matches_seq.1 hv
    rw [matches_word.1 hu, matches_word.1 ht] at huv
    have hx := matches_star_cls.1 hx
    -- the line's end is in the text before the last character
    have htail : w.map Char.toUpper ++ '\n' :: (a.toUpper :: z) = x ++ ['\n'] :=
      (List.cons.inj huv).2
    have hmem : '\n' ∈ x := by
      have hlast : '\n' ∈ (w.map Char.toUpper ++ '\n' :: (a.toUpper :: z)).dropLast := by
        rw [List.dropLast_append_of_ne_nil (List.cons_ne_nil _ _), List.dropLast_cons_cons]
        exact List.mem_append_right _ (.head _)
      rwa [htail, List.dropLast_concat] at hlast
    have := hx _ hmem
    cases this
  · have hlen := matches_garbage hj
    simp only [List.cons_append, List.length_cons, List.length_append] at hlen
    omega

/-! ## Tokens -/

/-- The text is read as the token, in front of the rest. -/
def Lexes (w : List Char) (token : Token) (y : List Char) : Prop :=
  ∃ i, IsLexeme i w ∧ Stops w y ∧ i.action w = .ok (some token)

theorem lexText_cons {i : LexRule} {w y : List Char} (h : IsLexeme i w) (hs : Stops w y) :
    lexText (w ++ y) = do
      let token ← i.action w
      let tokens ← lexText y
      return token.toList ++ tokens := by
  unfold lexText lexemes
  rw [scan_lexeme h hs, tokensOf]

theorem lexText_nil : lexText [] = .ok [] := by
  unfold lexText lexemes
  rw [scan_nil, tokensOf]

theorem Lexes.append_eq {w y : List Char} {token : Token} (h : Lexes w token y) :
    lexText (w ++ y) = (lexText y).map (token :: ·) := by
  obtain ⟨i, hi, hs, ha⟩ := h
  rw [lexText_cons hi hs, ha]
  cases lexText y <;> rfl

theorem Lexes.append {w y : List Char} {token : Token} {tokens : List Token}
    (h : Lexes w token y) (hy : lexText y = .ok tokens) : lexText (w ++ y) = .ok (token :: tokens) := by
  rw [h.append_eq, hy]
  rfl

/-- A comment is passed over. -/
theorem lexText_comment {w y : List Char} (h : '\n' ∉ w) :
    lexText (';' :: w ++ ['\n'] ++ y) = lexText y := by
  rw [lexText_cons (isLexeme_comment h) stops_comment]
  cases lexText y <;> rfl

section
variable {w y : List Char}

/-- A mnemonic in any case. -/
theorem lexes_op {i : LexRule} {s : String} {token : Token} (hs : s ∈ i.spellings)
    (hw : w.map Char.toUpper = s.toList) (ha : i.action w = .ok (some token))
    (hy : ∀ a, y.head? = some a → a ∈ delimiters) : Lexes w token y :=
  ⟨i, isLexeme_spelling hs hw, stops_delimiter (mem_vocabulary hs) hw hy, ha⟩

theorem lexes_named {i : LexRule} {ns : List String} {token : Name ns → Token}
    (hi : i.spellings = ns) (ha : i.action = LexRule.named ns token) (n : Name ns)
    (hw : w.map Char.toUpper = n.val.toList) (hs : Stops w y) : Lexes w (token n) y := by
  have hup : upper w = n.val := by rw [upper, hw, String.ofList_toList]
  refine ⟨i, isLexeme_spelling (by rw [hi]; exact n.2) hw, hs, ?_⟩
  have hmem : upper w ∈ ns := by
    rw [hup]
    exact n.2
  have hn : (⟨upper w, hmem⟩ : Name ns) = n := Subtype.ext hup
  rw [ha, LexRule.named, dif_pos hmem, hn]

theorem lexes_reg32 (n : Name reg32Names) (hw : w.map Char.toUpper = n.val.toList)
    (hy : ∀ a, y.head? = some a → a ∈ delimiters) : Lexes w (.reg32 n) y :=
  lexes_named (i := .reg32) rfl rfl n hw
    (stops_delimiter (mem_vocabulary (i := .reg32) n.2) hw hy)

theorem lexes_reg16 (n : Name reg16Names) (hw : w.map Char.toUpper = n.val.toList)
    (hy : ∀ a, y.head? = some a → a ∈ delimiters) : Lexes w (.reg16 n) y :=
  lexes_named (i := .reg16) rfl rfl n hw
    (stops_delimiter (mem_vocabulary (i := .reg16) n.2) hw hy)

theorem lexes_reg8 (n : Name reg8Names) (hw : w.map Char.toUpper = n.val.toList)
    (hy : ∀ a, y.head? = some a → a ∈ delimiters) : Lexes w (.reg8 n) y :=
  lexes_named (i := .reg8) rfl rfl n hw
    (stops_delimiter (mem_vocabulary (i := .reg8) n.2) hw hy)

theorem lexes_creg (n : Name cregNames) (hw : w.map Char.toUpper = n.val.toList)
    (hy : ∀ a, y.head? = some a → a ∈ delimiters) : Lexes w (.creg n) y :=
  lexes_named (i := .creg) rfl rfl n hw
    (stops_delimiter (mem_vocabulary (i := .creg) n.2) hw hy)

theorem lexes_condition (n : Name conditionNames) (hw : w.map Char.toUpper = n.val.toList)
    (hy : ∀ a, y.head? = some a → a ∈ delimiters) : Lexes w (.condition n) y :=
  lexes_named (i := .condition) rfl rfl n hw
    (stops_delimiter (mem_vocabulary (i := .condition) n.2) hw hy)

theorem lexes_range {r r' : String} (hr : r ∈ reg32Names) (hr' : r' ∈ reg32Names)
    (hw : w.map Char.toUpper = r.toList ++ ':' :: r'.toList)
    (hy : ∀ a, y.head? = some a → a ∈ delimiters) : Lexes w (.int (regRangeTo16bitInt w)) y := by
  obtain ⟨c, hc, x, -, hcx⟩ := vocabulary_letter r (mem_vocabulary (i := .reg32) hr)
  refine ⟨.regRange, isLexeme_range hr hr' hw, ?_, rfl⟩
  rw [hcx] at hw
  exact stops_letter hc hw fun a ha => .tail _ (hy a ha)

theorem lexes_blanks (hne : w ≠ []) (hw : ∀ c ∈ w, isBlank c = true)
    (hy : ∀ a, y.head? = some a → isSolid a = true) : Lexes w .space y :=
  ⟨.space, isLexeme_blanks hne hw, stops_blanks hne hw hy, rfl⟩

theorem lexes_comma (hw : ∀ c ∈ w, isBlank c = true)
    (hy : ∀ a, y.head? = some a → isSolid a = true) : Lexes (',' :: w) .comma y :=
  ⟨.comma, isLexeme_comma hw, stops_comma hw hy, rfl⟩

theorem lexes_endl (hy : ∀ a, y.head? = some a → isSolid a = true) : Lexes ['\n'] .endl y :=
  ⟨.endl, isLexeme_endl, stops_endl hy, rfl⟩

/-- A hexadecimal number of four digits. -/
theorem lexes_hex {a b c d : Nat} (ha : a < 16) (hb : b < 16) (hc : c < 16) (hd : d < 16)
    (hy : ∀ a, y.head? = some a → a ∈ delimiters) :
    Lexes ['0', 'x', Nat.digitChar a, Nat.digitChar b, Nat.digitChar c, Nat.digitChar d]
      (.int (BitVec.ofNat 16 (((16 * a + b) * 16 + c) * 16 + d))) y := by
  have hdigit : ∀ n < 16, isHex (Nat.digitChar n).toUpper = true ∧ hexDigit (Nat.digitChar n) = n := by
    decide
  refine ⟨.hex, isLexeme_hex rfl (List.cons_ne_nil _ _) (by simp) ?_,
    stops_number (by decide) hy, ?_⟩
  · simp only [List.forall_mem_cons]
    exact ⟨(hdigit a ha).1, (hdigit b hb).1, (hdigit c hc).1, (hdigit d hd).1, List.forall_mem_nil _⟩
  · have hval : gAsciiStrtoull
        ['0', 'x', Nat.digitChar a, Nat.digitChar b, Nat.digitChar c, Nat.digitChar d]
        = ((16 * a + b) * 16 + c) * 16 + d := by
      simp only [gAsciiStrtoull, List.drop_succ_cons, List.drop_zero, List.foldl_cons,
        List.foldl_nil, (hdigit a ha).2, (hdigit b hb).2, (hdigit c hc).2, (hdigit d hd).2]
      omega
    have hle : ¬ ((16 * a + b) * 16 + c) * 16 + d > 0xFFFF := by omega
    rw [LexRule.action, hexToDec, hval, if_neg hle]
    rfl

end

end Assembler
