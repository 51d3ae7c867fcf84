import Emulathor.Assembler.Proof.Lexemes
import Emulathor.E2E.Disassembly

/-!
# Lexing a printed line

The disassembler prints a mnemonic, a condition and operands in upper case, with tabs and commas
between them; `lexText_condLine`: the lexer reads them as the tokens of that mnemonic, condition and
operands. A condition starts with `I` or `N` and no mnemonic goes on with these, so the lexer stops
behind the mnemonic even though nothing separates the two.
-/

namespace E2E

open Common Lib Assembler Disassembler

/-! ## Lexing a printed line -/

def condText : Option (Name conditionNames) → String
  | none => ""
  | some c => c

/-- A token the mnemonic of which is one of its rule's spellings. -/
def IsOp (tok : Token) : Prop :=
  ∃ i ∈ LexRule.ops, mnemonic tok ∈ i.spellings ∧
    ∀ w, upper w = mnemonic tok → i.action w = .ok (some tok)

theorem isOp_named {i : LexRule} {ns : List String} {token : Name ns → Token}
    (hi : i ∈ LexRule.ops) (hs : i.spellings = ns) (ha : i.action = LexRule.named ns token)
    (hm : ∀ n, mnemonic (token n) = n.val) (n : Name ns) : IsOp (token n) := by
  refine ⟨i, hi, ?_, fun w hw => ?_⟩
  · rw [hs, hm]
    exact n.2
  · rw [hm] at hw
    subst hs
    have hmem : upper w ∈ i.spellings := by
      rw [hw]
      exact n.2
    have hn : (⟨upper w, hmem⟩ : Name i.spellings) = n := Subtype.ext hw
    rw [ha, LexRule.named, dif_pos hmem, hn]

/-- The words are in upper case. -/
theorem map_vocabulary {s : String} (h : s ∈ vocabulary) : s.toList.map Char.toUpper = s.toList := by
  have : ∀ s ∈ vocabulary, s.toList.map Char.toUpper = s.toList := by decide +kernel
  exact this s h

section
variable {y : List Char}

theorem lexes_operand (o : Operand) (hy : ∀ a, y.head? = some a → a ∈ delimiters) :
    Lexes o.text.toList o.token y := by
  cases o with
  | reg32 n => exact lexes_reg32 n (map_vocabulary (mem_vocabulary (i := .reg32) n.2)) hy
  | reg16 n => exact lexes_reg16 n (map_vocabulary (mem_vocabulary (i := .reg16) n.2)) hy
  | reg8 n => exact lexes_reg8 n (map_vocabulary (mem_vocabulary (i := .reg8) n.2)) hy
  | creg n => exact lexes_creg n (map_vocabulary (mem_vocabulary (i := .creg) n.2)) hy
  | imm k =>
    have hk := k.isLt
    have hlex := lexes_hex (a := k.toNat / 4096) (b := k.toNat / 256 % 16) (c := k.toNat / 16 % 16)
      (d := k.toNat % 16) (by omega) (by omega) (by omega) (by omega) hy
    have hval : BitVec.ofNat 16 (((16 * (k.toNat / 4096) + k.toNat / 256 % 16) * 16
        + k.toNat / 16 % 16) * 16 + k.toNat % 16) = k := by
      rw [show ((16 * (k.toNat / 4096) + k.toNat / 256 % 16) * 16 + k.toNat / 16 % 16) * 16
        + k.toNat % 16 = k.toNat by omega, BitVec.ofNat_toNat, BitVec.setWidth_eq]
    rw [hval] at hlex
    show Lexes (hex4 k).toList (.int k) y
    rw [hex4, String.toList_append, String.toList_ofList, String.toList_ofList]
    exact hlex

theorem operand_solid (o : Operand) :
    ∀ a, (o.text.toList ++ y).head? = some a → isSolid a = true := by
  have hname {s : String} (hs : s ∈ vocabulary) := word_solid (y := y) hs (map_vocabulary hs)
  cases o with
  | reg32 n => exact hname (mem_vocabulary (i := .reg32) n.2)
  | reg16 n => exact hname (mem_vocabulary (i := .reg16) n.2)
  | reg8 n => exact hname (mem_vocabulary (i := .reg8) n.2)
  | creg n => exact hname (mem_vocabulary (i := .creg) n.2)
  | imm k =>
    show ∀ a, ((hex4 k).toList ++ y).head? = some a → _
    rw [hex4, String.toList_append, String.toList_ofList]
    rintro a ⟨⟩
    rfl

end

theorem toList_separated (a b : String) (rest : List String) :
    (separated (a :: b :: rest)).toList
      = a.toList ++ ([',', '\t'] ++ (separated (b :: rest)).toList) := by
  rw [separated, String.toList_append, String.toList_append, List.append_assoc]
  · rfl
  · exact List.cons_ne_nil _ _

/-- The tokens of operands. -/
def operandTokens (args : List Operand) : List Token := (args.map Operand.token).intersperse .comma

theorem separated_solid (args : List Operand) :
    ∀ a, (separated (args.map Operand.text)).toList.head? = some a → isSolid a = true := by
  match args with
  | [] => nofun
  | [o] =>
    have := operand_solid o (y := [])
    rwa [List.append_nil] at this
  | o :: o' :: rest =>
    rw [List.map_cons, List.map_cons, toList_separated]
    exact operand_solid o

theorem lexText_operands : ∀ args : List Operand,
    lexText (separated (args.map Operand.text)).toList = .ok (operandTokens args)
  | [] => lexText_nil
  | [o] => by
    have h := (lexes_operand o (y := []) nofun).append lexText_nil
    rw [List.append_nil] at h
    exact h
  | o :: o' :: rest => by
    have hrest := lexText_operands (o' :: rest)
    have hcomma : Lexes [',', '\t'] .comma (separated ((o' :: rest).map Operand.text)).toList :=
      lexes_comma (by decide) (separated_solid (o' :: rest))
    rw [List.map_cons, List.map_cons, toList_separated]
    refine (lexes_operand o ?_).append (hcomma.append hrest)
    rintro a ⟨⟩
    decide

/-- The text of a line: the mnemonic, the condition, the operands. -/
def condLine (tok : Token) (cond : Option (Name conditionNames)) (texts : List String) : String :=
  mnemonic tok ++ condText cond ++ "\t\t" ++ separated texts

theorem toList_condLine (tok : Token) (cond : Option (Name conditionNames)) (texts : List String) :
    (condLine tok cond texts).toList = (mnemonic tok).toList ++ ((condText cond).toList
      ++ (['\t', '\t'] ++ (separated texts).toList)) := by
  rw [condLine, String.toList_append, String.toList_append, String.toList_append, List.append_assoc,
    List.append_assoc]
  rfl

/-- The mnemonic and condition of a line are read. -/
theorem lexText_head {tok : Token} (h : IsOp tok) (cond : Option (Name conditionNames))
    {y : List Char} {tokens : List Token} (hy : lexText ('\t' :: y) = .ok tokens) :
    lexText ((mnemonic tok).toList ++ ((condText cond).toList ++ '\t' :: y))
      = .ok (tok :: (condToks cond ++ tokens)) := by
  obtain ⟨i, hi, hs, ha⟩ := h
  have hmap := map_vocabulary (mem_vocabulary hs)
  have haction : i.action (mnemonic tok).toList = .ok (some tok) := by
    refine ha _ ?_
    rw [upper, hmap, String.ofList_toList]
  have htab : ∀ a, ('\t' :: y).head? = some a → a ∈ delimiters := by
    rintro a ⟨⟩
    decide
  cases cond with
  | none =>
    have hlex : Lexes (mnemonic tok).toList tok ('\t' :: y) :=
      ⟨i, isLexeme_spelling hs hmap, stops_delimiter (mem_vocabulary hs) hmap htab, haction⟩
    exact hlex.append hy
  | some c =>
    have hcond : Lexes c.val.toList (.condition c) ('\t' :: y) :=
      lexes_condition c (map_vocabulary (mem_vocabulary (i := .condition) c.2)) htab
    have hfirst : ∀ a, (c.val.toList ++ '\t' :: y).head? = some a →
        a.toUpper = 'I' ∨ a.toUpper = 'N' := by
      have hnames : ∀ s ∈ conditionNames, s.toList.head? = some 'I' ∨ s.toList.head? = some 'N' := by
        decide
      intro a ha
      rw [List.head?_append] at ha
      rcases hnames c c.2 with h | h <;> rw [h] at ha <;> cases ha
      · exact .inl rfl
      · exact .inr rfl
    have hlex : Lexes (mnemonic tok).toList tok (c.val.toList ++ '\t' :: y) :=
      ⟨i, isLexeme_spelling hs hmap, stops_condition hi hs hmap hfirst, haction⟩
    exact hlex.append (hcond.append hy)

/-- **A printed line** is read as the tokens of its mnemonic, condition and operands. -/
theorem lexText_texts {tok : Token} (h : IsOp tok) (cond : Option (Name conditionNames))
    {texts : List String} {tokens : List Token}
    (hs : ∀ a, (separated texts).toList.head? = some a → isSolid a = true)
    (ht : lexText (separated texts).toList = .ok tokens) :
    lexText (condLine tok cond texts).toList = .ok (tok :: (condToks cond ++ .space :: tokens)) := by
  rw [toList_condLine]
  refine lexText_head h cond (y := '\t' :: (separated texts).toList) ?_
  have hblank : Lexes ['\t', '\t'] .space (separated texts).toList :=
    lexes_blanks (List.cons_ne_nil _ _) (by decide) hs
  exact hblank.append ht

theorem lexText_condLine {tok : Token} (h : IsOp tok) (cond : Option (Name conditionNames))
    (args : List Operand) : lexText (condLine tok cond (args.map Operand.text)).toList
      = .ok (tok :: (condToks cond ++ .space :: operandTokens args)) :=
  lexText_texts h cond (separated_solid args) (lexText_operands args)

end E2E
