import Mathlib.Data.List.Forall2
import Emulathor.Assembler.Proof.Line
import Emulathor.Assembler.Proof.Lines
import Emulathor.Assembler.Proof.Straight

/-!
# Letters of either case

Every conversion of a lexeme but the one of a register range sees its letters in upper case only
(`action_map_upper`). So texts that differ in the case of letters are assembled alike if the names
agree in the register ranges that vasm comes to; and where they do not, vasm makes different numbers
of a range in the two texts, behind the same tokens (`caseInsensitive`).
-/

namespace Assembler

open Common Lib Regex

/-- The texts differ in the case of letters only. -/
def SameCase (text text' : List Char) : Prop := text.map Char.toUpper = text'.map Char.toUpper

instance decidableSameCase (text text' : List Char) : Decidable (SameCase text text') :=
  inferInstanceAs (Decidable (_ = _))

/-- vasm aborts on both texts or writes the same image. -/
def SameImages (text text' : List Char) : Prop :=
  ∀ size fixedSize heap img,
    AssemblesTo size fixedSize heap text img ↔ AssemblesTo size fixedSize heap text' img

def startName (range : List Char) : List Char := range.takeWhile (· ≠ ':')
def endName (range : List Char) : List Char := (range.dropWhile (· ≠ ':')).drop 1

/-- All its letters are upper case. -/
def Upper (name : List Char) : Prop := name.map Char.toUpper = name

/-- The names are both in upper case or both not; or they are `R0`. -/
def NamesAgree (name name' : List Char) : Prop := upper name = "R0" ∨ (Upper name ↔ Upper name')

/-- The names agree if the lexeme is a register range. -/
def RangeAgrees (p p' : LexRule × List Char) : Prop :=
  p.1 = LexRule.regRange →
    NamesAgree (startName p.2) (startName p'.2) ∧ NamesAgree (endName p.2) (endName p'.2)

/-- The text is a program of the grammar. -/
def IsProgram (text : List Char) : Prop :=
  ∃ tokens acts, lexText text = .ok tokens ∧ Parses tokens acts

section
variable (size : Dword) (fixedSize : Bool) (heap : Nat → Byte)

/-- The tokens and a number start a program whose actions run through: vasm gets behind the tokens
and reads a number there. -/
def TakesNumber (tokens : List Token) : Prop :=
  ∃ val rest acts ctx, Parses (tokens ++ .int val :: rest) acts ∧
    run Statement.exec acts { emitCreateContext (bufferSize size fixedSize) fixedSize heap with
      offset := 4096 } = .ok ctx

/-- The names in each register range that vasm comes to agree, in lexemes behind the tokens. -/
def AgreeBehind (tokens : List Token) (ls ls' : List (LexRule × List Char)) : Prop :=
  ∀ i p p' more, ls[i]? = some p → ls'[i]? = some p' → tokensOf (ls.take i) = .ok more →
    TakesNumber size fixedSize heap (tokens ++ more) → RangeAgrees p p'

/-- vasm comes to a register range behind the same tokens in both, and reads different numbers. -/
def MisreadBehind (tokens : List Token) (ls ls' : List (LexRule × List Char)) : Prop :=
  ∃ i s s' more, ls[i]? = some (.regRange, s) ∧ ls'[i]? = some (.regRange, s') ∧
    tokensOf (ls.take i) = .ok more ∧ tokensOf (ls'.take i) = .ok more ∧
    TakesNumber size fixedSize heap (tokens ++ more) ∧ regRangeTo16bitInt s ≠ regRangeTo16bitInt s'

/-- If a text is a program, the names in the register ranges that vasm comes to agree. -/
def RangesAgree (text text' : List Char) : Prop :=
  IsProgram text ∨ IsProgram text' →
    AgreeBehind size fixedSize heap [] (lexemes text) (lexemes text')

/-- A text is a program, and vasm misreads a register range. -/
def RangeMisread (text text' : List Char) : Prop :=
  (IsProgram text ∨ IsProgram text') ∧
    MisreadBehind size fixedSize heap [] (lexemes text) (lexemes text')

end

/-! ## Actions -/

theorem toOption_map {α β ε : Type} (f : α → β) (x : Except ε α) :
    (f <$> x).toOption = x.toOption.map f := by cases x <;> rfl

/-- **The actions but one** see their lexeme in upper case. -/
theorem action_map_upper {rule : LexRule} (h : rule ≠ .regRange) (s : List Char) :
    (rule.action (s.map Char.toUpper)).toOption = (rule.action s).toOption := by
  have hnamed (ns : List String) (token : Name ns → Token) :
      LexRule.named ns token (s.map Char.toUpper) = LexRule.named ns token s := by
    unfold LexRule.named
    simp only [upper_map]
  have h32 : (hexToDec32 (remove32BitEscapeSign (s.map Char.toUpper))).toOption
      = (hexToDec32 (remove32BitEscapeSign s)).toOption := by
    unfold hexToDec32
    rw [remove32BitEscapeSign_map, gAsciiStrtoull_map]
    dsimp only
    split <;> rfl
  have h16 : (hexToDec (s.map Char.toUpper)).toOption = (hexToDec s).toOption := by
    unfold hexToDec
    rw [gAsciiStrtoull_map]
    dsimp only
    split <;> rfl
  have hi32 : (to32BitInt (remove32BitEscapeSign (s.map Char.toUpper))).toOption
      = (to32BitInt (remove32BitEscapeSign s)).toOption := by
    unfold to32BitInt
    rw [remove32BitEscapeSign_map, gAsciiStrtoll_map]
    dsimp only
    split <;> rfl
  have hi16 : (to16BitInt (s.map Char.toUpper)).toOption = (to16BitInt s).toOption := by
    unfold to16BitInt
    rw [gAsciiStrtoll_map]
    dsimp only
    split <;> rfl
  cases rule with
  | regRange => exact absurd rfl h
  | hex32bit => simp only [LexRule.action, toOption_map, h32]
  | hex => simp only [LexRule.action, toOption_map, h16]
  | int => simp only [LexRule.action, toOption_map, hi16]
  | int32 => simp only [LexRule.action, toOption_map, hi32]
  | ident => simp only [LexRule.action, upper_map]
  | creg | reg8 | reg16 | reg32 | opFmtI | opFmtII | opFmtIV | opFmtV | opFmtVI | opFmtVIC
  | opFmtVIII | condition => simp only [LexRule.action, hnamed]
  | _ => rfl

/-! ## Register ranges -/

theorem regRangeTo16bitInt_eq (s : List Char) : regRangeTo16bitInt s =
    ((getRegForName (String.ofList (startName s))).setWidth 16 <<< 4) |||
      (getRegForName (String.ofList (endName s))).setWidth 16 := rfl

theorem range_inj {a b a' b' : Byte} (hb : b.toNat < 16) (hb' : b'.toNat < 16) :
    (a.setWidth 16 <<< 4) ||| b.setWidth 16 = (a'.setWidth 16 <<< 4) ||| b'.setWidth 16 ↔
      a = a' ∧ b = b' := by
  have hval {a b : Byte} (hb : b.toNat < 16) :
      ((a.setWidth 16 <<< 4) ||| b.setWidth 16 : Word).toNat = 16 * a.toNat + b.toNat := by
    have ha := a.isLt
    rw [BitVec.toNat_or, BitVec.toNat_shiftLeft, BitVec.toNat_setWidth, BitVec.toNat_setWidth,
      Nat.mod_eq_of_lt (show a.toNat < 2 ^ 16 by omega),
      Nat.mod_eq_of_lt (show b.toNat < 2 ^ 16 by omega), Nat.shiftLeft_eq,
      Nat.mod_eq_of_lt (show a.toNat * 2 ^ 4 < 2 ^ 16 by omega), ← Nat.shiftLeft_eq,
      ← Nat.shiftLeft_add_eq_or_of_lt (show b.toNat < 2 ^ 4 by omega), Nat.shiftLeft_eq]
    omega
  constructor
  · intro h
    have := congrArg BitVec.toNat h
    rw [hval hb, hval hb'] at this
    exact ⟨BitVec.eq_of_toNat_eq (by omega), BitVec.eq_of_toNat_eq (by omega)⟩
  · rintro ⟨rfl, rfl⟩
    rfl

/-- A name that is not in upper case is not in the table. -/
theorem getRegForName_ofList {n : List Char} (h : ¬ Upper n) :
    getRegForName (String.ofList n) = 0 := by
  have hupper : ∀ p ∈ reg32lkupbuf, ∀ name, p.2 = some name →
      name.toList.map Char.toUpper = name.toList := by decide
  have hnone : (reg32lkupbuf.find? fun p => p.2 == some (String.ofList n)) = none := by
    rw [List.find?_eq_none]
    intro p hp heq
    have := hupper p hp _ (eq_of_beq heq)
    rw [String.toList_ofList] at this
    exact h this
  unfold getRegForName codeFor
  rw [hnone]
  rfl

theorem getRegForName_agree {n n' : List Char} (hn : upper n ∈ reg32Names)
    (h : n.map Char.toUpper = n'.map Char.toUpper) :
    getRegForName (String.ofList n) = getRegForName (String.ofList n') ↔ NamesAgree n n' := by
  have hup : upper n' = upper n := by rw [upper, ← h, upper]
  have hcode {m : List Char} (hm : Upper m) :
      getRegForName (String.ofList m) = getRegForName (upper m) := by rw [upper, hm]
  have hzero : getRegForName (upper n) = 0 ↔ upper n = "R0" := getRegForName_eq_zero ⟨_, hn⟩
  unfold NamesAgree
  by_cases hu : Upper n
  · by_cases hu' : Upper n'
    · rw [hcode hu, hcode hu', hup]
      exact ⟨fun _ => .inr (iff_of_true hu hu'), fun _ => rfl⟩
    · rw [hcode hu, getRegForName_ofList hu', hzero]
      exact ⟨.inl, fun h => h.resolve_right fun h => hu' (h.1 hu)⟩
  · rw [getRegForName_ofList hu]
    by_cases hu' : Upper n'
    · rw [hcode hu', hup, eq_comm, hzero]
      exact ⟨.inl, fun h => h.resolve_right fun h => hu (h.2 hu')⟩
    · rw [getRegForName_ofList hu']
      exact ⟨fun _ => .inr (iff_of_false hu hu'), fun _ => rfl⟩

theorem startName_map (s : List Char) :
    (startName s).map Char.toUpper = startName (s.map Char.toUpper) := by
  have hcomp : (fun c : Char => decide (c ≠ ':')) ∘ Char.toUpper = fun c => decide (c ≠ ':') :=
    funext fun c => decide_eq_decide.2 (not_congr (toUpper_eq (by decide)))
  unfold startName
  rw [List.takeWhile_map, hcomp]

theorem endName_map (s : List Char) :
    (endName s).map Char.toUpper = endName (s.map Char.toUpper) := by
  have hcomp : (fun c : Char => decide (c ≠ ':')) ∘ Char.toUpper = fun c => decide (c ≠ ':') :=
    funext fun c => decide_eq_decide.2 (not_congr (toUpper_eq (by decide)))
  unfold endName
  rw [List.dropWhile_map, hcomp, List.map_drop]

/-- A range's names are register names. -/
theorem range_names {s : List Char} (h : LexRule.regRange.pattern.Matches (s.map Char.toUpper)) :
    upper (startName s) ∈ reg32Names ∧ upper (endName s) ∈ reg32Names := by
  obtain ⟨y, z, hs, hy, hz⟩ := matches_seq.1 h
  obtain ⟨m, z', rfl, hm, hz'⟩ := matches_seq.1 hz
  obtain rfl := matches_word.1 hm
  obtain ⟨a, ha, rfl⟩ := List.mem_map.1 (matches_words.1 hy)
  obtain ⟨b, hb, rfl⟩ := List.mem_map.1 (matches_words.1 hz')
  have hcolon : ∀ a ∈ reg32Names, ∀ c ∈ a.toList, decide (c ≠ ':') = true := by decide
  have hstart : startName (a.toList ++ ':' :: b.toList) = a.toList := by
    unfold startName
    rw [List.takeWhile_append_of_pos (hcolon a ha)]
    exact List.append_nil _
  have hend : endName (a.toList ++ ':' :: b.toList) = b.toList := by
    unfold endName
    rw [List.dropWhile_append_of_pos (hcolon a ha)]
    rfl
  have hs' : s.map Char.toUpper = a.toList ++ ':' :: b.toList := hs
  rw [upper, startName_map, hs', hstart, upper, endName_map, hs', hend, String.ofList_toList,
    String.ofList_toList]
  exact ⟨ha, hb⟩

/-- **Ranges convert to the same value** exactly if their names agree. -/
theorem range_agree {s s' : List Char}
    (h : LexRule.regRange.pattern.Matches (s.map Char.toUpper))
    (hs : s.map Char.toUpper = s'.map Char.toUpper) :
    regRangeTo16bitInt s = regRangeTo16bitInt s' ↔
      NamesAgree (startName s) (startName s') ∧ NamesAgree (endName s) (endName s') := by
  obtain ⟨hstart, hend⟩ := range_names h
  rw [regRangeTo16bitInt_eq, regRangeTo16bitInt_eq,
    range_inj (getRegForName_lt _) (getRegForName_lt _),
    getRegForName_agree hstart (by rw [startName_map, startName_map, hs]),
    getRegForName_agree hend (by rw [endName_map, endName_map, hs])]

/-! ## Texts -/

/-- Lexemes of one rule that differ in the case of letters only. -/
structure SameLexeme (p p' : LexRule × List Char) : Prop where
  rule : p.1 = p'.1
  case_ : p.2.map Char.toUpper = p'.2.map Char.toUpper
  matches_ : p.1.pattern.Matches (p.2.map Char.toUpper)

theorem lexemes_same {text text' : List Char} (h : SameCase text text') :
    List.Forall₂ SameLexeme (lexemes text) (lexemes text') := by
  have hm : ∀ p ∈ lexemes text, p.1.pattern.Matches (p.2.map Char.toUpper) :=
    fun p hp => (scan_isLexeme hp).matches_
  have hboth := (List.forall₂_and_left _ _).2 ⟨hm, scan_fold h⟩
  exact hboth.imp fun p p' ⟨hm, hr, hc⟩ => ⟨hr, hc, hm⟩

theorem toOption_eq_some {α ε : Type} {x : Except ε α} {a : α} :
    x.toOption = some a ↔ x = .ok a := by
  cases x with
  | error e => exact ⟨nofun, nofun⟩
  | ok b => exact ⟨fun h => congrArg _ (Option.some.inj h), fun h => congrArg _ (Except.ok.inj h)⟩

theorem SameLexeme.action {p p' : LexRule × List Char} (h : SameLexeme p p')
    (hr : p.1 ≠ .regRange) (token : Option Token) :
    p.1.action p.2 = .ok token ↔ p'.1.action p'.2 = .ok token := by
  rw [← toOption_eq_some, ← toOption_eq_some, ← action_map_upper hr, h.case_,
    action_map_upper hr, h.rule]

theorem SameLexeme.range {s s' : List Char} (h : SameLexeme (.regRange, s) (.regRange, s')) :
    regRangeTo16bitInt s = regRangeTo16bitInt s' ↔ RangeAgrees (.regRange, s) (.regRange, s') :=
  (range_agree h.matches_ h.case_).trans ⟨fun h _ => h, fun h => h rfl⟩

/-- Only ranges do not agree. -/
theorem SameLexeme.range_of_not {p p' : LexRule × List Char} (h : SameLexeme p p')
    (hnot : ¬ RangeAgrees p p') : ∃ s s', p = (.regRange, s) ∧ p' = (.regRange, s') := by
  obtain ⟨rule, s⟩ := p
  obtain ⟨rule', s'⟩ := p'
  obtain rfl : rule = rule' := h.rule
  obtain ⟨hr, -⟩ := Classical.not_imp.1 hnot
  obtain rfl : rule = .regRange := hr
  exact ⟨s, s', rfl, rfl⟩

/-- Lexemes with names that agree become the same token, or none. -/
theorem SameLexeme.action_agree {p p' : LexRule × List Char} (h : SameLexeme p p')
    (ha : RangeAgrees p p') (token : Option Token) :
    p.1.action p.2 = .ok token ↔ p'.1.action p'.2 = .ok token := by
  by_cases hr : p.1 = .regRange
  · obtain ⟨rule, s⟩ := p
    obtain ⟨rule', s'⟩ := p'
    obtain rfl : rule = .regRange := hr
    obtain rfl : LexRule.regRange = rule' := h.rule
    rw [LexRule.action, LexRule.action, h.range.2 ha]
  · exact h.action hr token

theorem tokensOf_cons {p : LexRule × List Char} {ls : List (LexRule × List Char)}
    {tokens : List Token} : tokensOf (p :: ls) = .ok tokens ↔
      ∃ token rest, p.1.action p.2 = .ok token ∧ tokensOf ls = .ok rest ∧
        tokens = token.toList ++ rest := by
  rw [tokensOf]
  constructor
  · intro h
    obtain ⟨token, htoken, h⟩ := bind_eq_ok.1 h
    obtain ⟨rest, hrest, h⟩ := bind_eq_ok.1 h
    exact ⟨token, rest, htoken, hrest, (Except.ok.inj h).symm⟩
  · rintro ⟨token, rest, htoken, hrest, rfl⟩
    rw [htoken, hrest]
    rfl

section
variable {size : Dword} {fixedSize : Bool} {heap : Nat → Byte} {tokens : List Token}
  {p p' : LexRule × List Char} {ls ls' : List (LexRule × List Char)}

/-- vasm comes to the numbers of a program that it assembles. -/
theorem takesNumber_of_assemble {val : Word} {rest : List Token} {acts : Action} {img : List Byte}
    (hparse : Parses (tokens ++ .int val :: rest) acts)
    (himg : assemble size fixedSize heap acts = .ok img) :
    TakesNumber size fixedSize heap tokens := by
  obtain ⟨ctx, hrun, -⟩ := bind_eq_ok.1 himg
  exact ⟨val, rest, acts, ctx, hparse, hrun⟩

/-- vasm comes to a number on the way to one behind it. -/
theorem TakesNumber.of_append {val : Word} {more : List Token}
    (h : TakesNumber size fixedSize heap (tokens ++ .int val :: more)) :
    TakesNumber size fixedSize heap tokens := by
  obtain ⟨val', rest, acts, ctx, hparse, hrun⟩ := h
  rw [List.append_assoc] at hparse
  exact ⟨val, more ++ .int val' :: rest, acts, ctx, hparse, hrun⟩

theorem agreeBehind_cons : AgreeBehind size fixedSize heap tokens (p :: ls) (p' :: ls') ↔
    (TakesNumber size fixedSize heap tokens → RangeAgrees p p') ∧
      ∀ token, p.1.action p.2 = .ok token →
        AgreeBehind size fixedSize heap (tokens ++ token.toList) ls ls' := by
  constructor
  · intro h
    refine ⟨fun ht => h 0 p p' [] rfl rfl rfl (by rwa [List.append_nil]), ?_⟩
    intro token htoken i q q' more hq hq' hmore ht
    rw [List.append_assoc] at ht
    exact h (i + 1) q q' _ hq hq' (tokensOf_cons.2 ⟨token, more, htoken, hmore, rfl⟩) ht
  · rintro ⟨hhead, htail⟩ i q q' more hq hq' hmore ht
    cases i with
    | zero =>
      cases hq
      cases hq'
      cases hmore
      rw [List.append_nil] at ht
      exact hhead ht
    | succ i =>
      obtain ⟨token, rest, htoken, hrest, rfl⟩ := tokensOf_cons.1 hmore
      rw [← List.append_assoc] at ht
      exact htail token htoken i q q' rest hq hq' hrest ht

/-- Behind the tokens, the lexemes are those of a program that vasm assembles to the image. -/
def AssemblesBehind (size : Dword) (fixedSize : Bool) (heap : Nat → Byte) (tokens : List Token)
    (ls : List (LexRule × List Char)) (img : List Byte) : Prop :=
  ∃ more acts, tokensOf ls = .ok more ∧ Parses (tokens ++ more) acts ∧
    assemble size fixedSize heap acts = .ok img

theorem assemblesBehind_cons {img : List Byte} :
    AssemblesBehind size fixedSize heap tokens (p :: ls) img ↔
      ∃ token, p.1.action p.2 = .ok token ∧
        AssemblesBehind size fixedSize heap (tokens ++ token.toList) ls img := by
  constructor
  · rintro ⟨more, acts, hmore, hparse, himg⟩
    obtain ⟨token, rest, htoken, hrest, rfl⟩ := tokensOf_cons.1 hmore
    rw [← List.append_assoc] at hparse
    exact ⟨token, htoken, rest, acts, hrest, hparse, himg⟩
  · rintro ⟨token, htoken, rest, acts, hrest, hparse, himg⟩
    rw [List.append_assoc] at hparse
    exact ⟨_, acts, tokensOf_cons.2 ⟨token, rest, htoken, hrest, rfl⟩, hparse, himg⟩

/-- Nothing with a range in a place that vasm does not come to is assembled. -/
theorem AssemblesBehind.takesNumber {s : List Char} {img : List Byte}
    (h : AssemblesBehind size fixedSize heap tokens ((.regRange, s) :: ls) img) :
    TakesNumber size fixedSize heap tokens := by
  obtain ⟨token, htoken, more, acts, -, hparse, himg⟩ := assemblesBehind_cons.1 h
  cases htoken
  rw [List.append_assoc] at hparse
  exact takesNumber_of_assemble hparse himg

/-- **Ranges that agree where vasm comes to them** are all it takes. -/
theorem assemblesBehind_iff (h : List.Forall₂ SameLexeme ls ls')
    (ha : AgreeBehind size fixedSize heap tokens ls ls') (img : List Byte) :
    AssemblesBehind size fixedSize heap tokens ls img ↔
      AssemblesBehind size fixedSize heap tokens ls' img := by
  induction h generalizing tokens with
  | nil => rfl
  | @cons p p' ls ls' hp _ ih =>
    obtain ⟨hhead, htail⟩ := agreeBehind_cons.1 ha
    by_cases hreads : RangeAgrees p p'
    · rw [assemblesBehind_cons, assemblesBehind_cons]
      refine exists_congr fun token => ?_
      rw [← hp.action_agree hreads token]
      exact and_congr_right fun htoken => ih (htail token htoken)
    · -- the range is in a place that vasm does not come to
      obtain ⟨s, s', rfl, rfl⟩ := hp.range_of_not hreads
      exact iff_of_false (fun h => hreads (hhead h.takesNumber))
        fun h => hreads (hhead h.takesNumber)

theorem MisreadBehind.cons {token : Option Token} (htoken : p.1.action p.2 = .ok token)
    (htoken' : p'.1.action p'.2 = .ok token)
    (h : MisreadBehind size fixedSize heap (tokens ++ token.toList) ls ls') :
    MisreadBehind size fixedSize heap tokens (p :: ls) (p' :: ls') := by
  obtain ⟨i, s, s', more, hs, hs', hmore, hmore', ht, hne⟩ := h
  rw [List.append_assoc] at ht
  exact ⟨i + 1, s, s', _, hs, hs', tokensOf_cons.2 ⟨token, more, htoken, hmore, rfl⟩,
    tokensOf_cons.2 ⟨token, more, htoken', hmore', rfl⟩, ht, hne⟩

/-- The first range that vasm comes to and whose names do not agree is misread. -/
theorem misreadBehind_of_not (h : List.Forall₂ SameLexeme ls ls')
    (hnot : ¬ AgreeBehind size fixedSize heap tokens ls ls') :
    MisreadBehind size fixedSize heap tokens ls ls' := by
  induction h generalizing tokens with
  | nil => exact absurd (fun i p p' more hp => nomatch hp) hnot
  | @cons p p' ls ls' hp _ ih =>
    by_cases hreads : RangeAgrees p p'
    · rw [agreeBehind_cons, not_and] at hnot
      have hrest := hnot fun _ => hreads
      push Not at hrest
      obtain ⟨token, htoken, hrest⟩ := hrest
      exact (ih hrest).cons htoken ((hp.action_agree hreads token).1 htoken)
    · obtain ⟨s, s', rfl, rfl⟩ := hp.range_of_not hreads
      have hcomes : TakesNumber size fixedSize heap tokens := by
        rw [agreeBehind_cons, not_and_or] at hnot
        rcases hnot with hnot | hnot
        · exact (Classical.not_imp.1 hnot).1
        · -- vasm comes to a range behind this one
          push Not at hnot
          obtain ⟨token, htoken, hnot⟩ := hnot
          cases htoken
          obtain ⟨i, t, t', more, -, -, -, -, ht, -⟩ := ih hnot
          rw [List.append_assoc] at ht
          exact ht.of_append
      refine ⟨0, s, s', [], rfl, rfl, rfl, rfl, by rwa [List.append_nil], ?_⟩
      exact fun heq => hreads (hp.range.1 heq)

theorem not_agreeBehind_iff (h : List.Forall₂ SameLexeme ls ls') :
    ¬ AgreeBehind size fixedSize heap tokens ls ls' ↔
      MisreadBehind size fixedSize heap tokens ls ls' := by
  refine ⟨misreadBehind_of_not h, ?_⟩
  rintro ⟨i, s, s', more, hs, hs', hmore, -, ht, hne⟩ hagree
  have hsame : SameLexeme (.regRange, s) (.regRange, s') := by
    obtain ⟨hi, hget⟩ := List.getElem?_eq_some_iff.1 hs
    obtain ⟨hi', hget'⟩ := List.getElem?_eq_some_iff.1 hs'
    have := h.get hi hi'
    rwa [List.get_eq_getElem, List.get_eq_getElem, hget, hget'] at this
  exact hne (hsame.range.2 (hagree i _ _ more hs hs' hmore ht))

/-- The tokens up to a lexeme, and the one it becomes. -/
theorem tokensOf_split {i : Nat} {before more : List Token} (hp : ls[i]? = some p)
    (hbefore : tokensOf (ls.take i) = .ok before) (hmore : tokensOf ls = .ok more) :
    ∃ token rest, p.1.action p.2 = .ok token ∧ more = before ++ (token.toList ++ rest) := by
  obtain ⟨hi, rfl⟩ := List.getElem?_eq_some_iff.1 hp
  rw [← List.take_append_drop i ls, List.drop_eq_getElem_cons hi, tokensOf_append] at hmore
  obtain ⟨before', hbefore', hmore⟩ := bind_eq_ok.1 hmore
  obtain rfl := Except.ok.inj (hbefore.symm.trans hbefore')
  obtain ⟨behind, hbehind, hmore⟩ := bind_eq_ok.1 hmore
  obtain ⟨token, rest, htoken, -, rfl⟩ := tokensOf_cons.1 hbehind
  exact ⟨token, rest, htoken, (Except.ok.inj hmore).symm⟩

/-- Misread lexemes become other tokens. -/
theorem MisreadBehind.tokens_ne {more more' : List Token}
    (h : MisreadBehind size fixedSize heap tokens ls ls') (hmore : tokensOf ls = .ok more)
    (hmore' : tokensOf ls' = .ok more') : more ≠ more' := by
  obtain ⟨i, s, s', before, hs, hs', hbefore, hbefore', -, hne⟩ := h
  obtain ⟨token, rest, htoken, rfl⟩ := tokensOf_split hs hbefore hmore
  obtain ⟨token', rest', htoken', rfl⟩ := tokensOf_split hs' hbefore' hmore'
  cases htoken
  cases htoken'
  intro heq
  have hcons := List.append_cancel_left heq
  exact hne (Token.int.inj (List.cons.inj hcons).1)

end

theorem assemblesTo_isProgram {size : Dword} {fixedSize : Bool} {heap : Nat → Byte}
    {text : List Char} {img : List Byte} (h : AssemblesTo size fixedSize heap text img) :
    IsProgram text := by
  obtain ⟨tokens, acts, hlex, hparse, -⟩ := h
  exact ⟨tokens, acts, hlex, hparse⟩

/-- **Assembling does not depend on case**, but for the names in the register ranges that vasm comes
to. -/
theorem caseInsensitive {text text' : List Char} (h : SameCase text text') (size : Dword)
    (fixedSize : Bool) (heap : Nat → Byte) :
    (RangesAgree size fixedSize heap text text' → ∀ img,
      AssemblesTo size fixedSize heap text img ↔ AssemblesTo size fixedSize heap text' img) ∧
    (¬ RangesAgree size fixedSize heap text text' ↔
      RangeMisread size fixedSize heap text text') := by
  constructor
  · intro ha img
    by_cases hprog : IsProgram text ∨ IsProgram text'
    · exact assemblesBehind_iff (lexemes_same h) (ha hprog) img
    · rw [not_or] at hprog
      exact iff_of_false (fun himg => hprog.1 (assemblesTo_isProgram himg))
        fun himg => hprog.2 (assemblesTo_isProgram himg)
  · rw [RangesAgree, Classical.not_imp, not_agreeBehind_iff (lexemes_same h)]
    rfl

/-! ## `STOREMA SP,R1:R3` -/

section
variable {m s r : List Char}

def nameStorema : Name opFmtIVNames := ⟨"STOREMA", by decide⟩
def nameSp : Name reg32Names := ⟨"SP", by decide⟩

/-- The line in any case. -/
theorem lexText_storema (hm : m.map Char.toUpper = "STOREMA".toList)
    (hs : s.map Char.toUpper = "SP".toList) (hr : r.map Char.toUpper = "R1:R3".toList) :
    lexText (m ++ ([' '] ++ (s ++ ([','] ++ r))))
      = .ok [.opFmtIV nameStorema, .space, .reg32 nameSp, .comma, .int (regRangeTo16bitInt r)] := by
  have hmem : "STOREMA" ∈ LexRule.opFmtIV.spellings := by decide
  have hsolid := letter_solid (y := []) (show 'R' ∈ letters by decide) hr
  have hrange : Lexes r (.int (regRangeTo16bitInt r)) [] :=
    lexes_range (show "R1" ∈ reg32Names by decide) (show "R3" ∈ reg32Names by decide) hr nofun
  have hcomma : Lexes [','] .comma (r ++ []) := lexes_comma nofun hsolid
  have hsp : Lexes s (.reg32 nameSp) ([','] ++ (r ++ [])) :=
    lexes_reg32 nameSp hs (head_delimiter (by decide))
  have hspace : Lexes [' '] .space (s ++ ([','] ++ (r ++ []))) :=
    lexes_blanks (List.cons_ne_nil _ _) (by decide)
      (word_solid (mem_vocabulary (i := .reg32) nameSp.2) hs)
  have hop : Lexes m (.opFmtIV nameStorema) ([' '] ++ (s ++ ([','] ++ (r ++ [])))) :=
    lexes_named (i := .opFmtIV) rfl rfl nameStorema hm
      (stops_delimiter (mem_vocabulary hmem) hm (head_delimiter (by decide)))
  have := hop.append (hspace.append (hsp.append (hcomma.append (hrange.append lexText_nil))))
  rwa [List.append_nil] at this

/-- The line is assembled to the range it is read with. -/
theorem storema_assembles {text : List Char} {k : Word} (hlex : lexText text
      = .ok [.opFmtIV nameStorema, .space, .reg32 nameSp, .comma, .int k]) :
    AssemblesTo 4 true (fun _ => 0) text
      (fmtIV pfxImm cAlways Opcode.storema.code (getRegForName nameSp) k) := by
  let ss : List Statement :=
    [.call (.fmtIV pfxImm cAlways Opcode.storema.code (getRegForName nameSp) k)]
  have hs : ∀ s ∈ ss, s.Straight := by
    intro s hm
    obtain rfl := List.mem_singleton.1 hm
    trivial
  have hfit : widthOf ss ≤ (bufferSize 4 true).toNat := by
    show 4 ≤ (4 : Dword).toNat
    decide
  have hr : Resolvable ss := ⟨.nil, nofun⟩
  refine ⟨_, ss, hlex, Parses.line rfl, ?_⟩
  rcases @assemble_straight 4 true (fun _ => 0) ss hs hfit with ⟨-, himg⟩ | ⟨hnot, -⟩
  · exact himg
  · exact absurd hr hnot

end

theorem not_sameImages_storema :
    ¬ ∀ text text', SameCase text text' → SameImages text text' := by
  intro h
  have hupper := storema_assembles (@lexText_storema "STOREMA".toList "SP".toList "R1:R3".toList
    (by decide) (by decide) (by decide))
  have hlower := storema_assembles (@lexText_storema "storema".toList "sp".toList "r1:r3".toList
    (by decide) (by decide) (by decide))
  have hcase : SameCase "STOREMA SP,R1:R3".toList "storema sp,r1:r3".toList := by decide
  have hsame := (h _ _ hcase 4 true (fun _ => 0) _).1 hupper
  exact absurd (hsame.unique hlower) (by decide)

/-- A slash starts no program. -/
theorem not_isProgram_slash (text : List Char) : ¬ IsProgram ('/' :: text) := by
  rintro ⟨tokens, acts, hlex, hparse⟩
  have hslash : Lexes ['/'] .garbage text := ⟨.garbage, isLexeme_slash, stops_slash, rfl⟩
  have hcons := hslash.append_eq
  rw [List.singleton_append, hlex] at hcons
  cases hrest : lexText text with
  | error e =>
    rw [hrest] at hcons
    cases hcons
  | ok rest =>
    rw [hrest] at hcons
    cases hcons
    obtain ⟨line, more, a, hline, ha⟩ := hparse.head
    cases line with
    | nil => cases ha
    | cons t line =>
      obtain ⟨rfl, -⟩ := List.cons.inj hline
      cases ha

/-- With the range in upper case in both texts, in texts that are no programs, and with the range in
lower case in one. -/
theorem caseInsensitive_storema :
    (∀ img, AssemblesTo 4 true (fun _ => 0) "STOREMA SP,R1:R3".toList img ↔
      AssemblesTo 4 true (fun _ => 0) "storema sp,R1:R3".toList img) ∧
    (∀ img, AssemblesTo 4 true (fun _ => 0) "/\nSTOREMA SP,R1:R3".toList img ↔
      AssemblesTo 4 true (fun _ => 0) "/\nstorema sp,r1:r3".toList img) ∧
    RangeMisread 4 true (fun _ => 0) "STOREMA SP,R1:R3".toList "storema sp,r1:r3".toList := by
  have hupper := @lexText_storema "STOREMA".toList "SP".toList "R1:R3".toList
    (by decide) (by decide) (by decide)
  have hmixed := @lexText_storema "storema".toList "sp".toList "R1:R3".toList
    (by decide) (by decide) (by decide)
  have hlower := @lexText_storema "storema".toList "sp".toList "r1:r3".toList
    (by decide) (by decide) (by decide)
  refine ⟨?_, ?_, ?_⟩
  · obtain ⟨himages, hmisread⟩ := caseInsensitive
      (show SameCase "STOREMA SP,R1:R3".toList "storema sp,R1:R3".toList by decide)
      4 true fun _ => 0
    refine himages (by_contra fun hnot => ?_)
    obtain ⟨-, hrange⟩ := hmisread.1 hnot
    exact hrange.tokens_ne hupper hmixed rfl
  · obtain ⟨himages, -⟩ := caseInsensitive
      (show SameCase "/\nSTOREMA SP,R1:R3".toList "/\nstorema sp,r1:r3".toList by decide)
      4 true fun _ => 0
    refine himages fun hprog => ?_
    rcases hprog with hprog | hprog
    · exact absurd hprog (not_isProgram_slash _)
    · exact absurd hprog (not_isProgram_slash _)
  · obtain ⟨himages, hmisread⟩ := caseInsensitive
      (show SameCase "STOREMA SP,R1:R3".toList "storema sp,r1:r3".toList by decide)
      4 true fun _ => 0
    refine hmisread.1 fun hagree => ?_
    have hsame := (himages hagree _).1 (storema_assembles hupper)
    exact absurd (hsame.unique (storema_assembles hlower)) (by decide)

end Assembler
