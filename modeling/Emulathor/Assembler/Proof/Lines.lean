import Emulathor.Assembler.Proof.Lexemes
import Emulathor.Assembler.Proof.Parse

/-!
# Lines of a source text

Nothing in `vasm.l` is said to end with a line, and three rules match a line's end: `ENDL`, a comment,
which takes the end of its line with it, and a comma, which takes the gaps around it, line ends among
them. `lexText_lines`: a text is read line by line all the same, if no line starts or ends with a
comma. So its actions are those of its lines, one after the other (`assemblesTo_lines`).
-/

namespace Assembler

open Common Lib Regex

/-! ## Rules that match a line's end -/

/-- The rules that match something with the character. -/
def rulesWith (c : Char) : List LexRule := LexRule.all.filter fun i => !i.pattern.avoids c

theorem mem_rulesWith {i : LexRule} {c : Char} {x : List Char} (hm : i.pattern.Matches x)
    (hc : c ∈ x) : i ∈ rulesWith c := by
  refine List.mem_filter.2 ⟨i.mem_all, ?_⟩
  rw [Bool.not_eq_true']
  by_contra hav
  exact not_mem_of_avoids (eq_true_of_ne_false hav) hm hc

theorem rulesWith_breaks : rulesWith '\n' = [.endl, .comma, .comment] ∧
    rulesWith '\r' = [.endl, .comment, .garbage] ∧ rulesWith ';' = [.comment, .garbage] := by
  decide +kernel

/-! ## Lines -/

/-- The first character that is no gap is a comma. -/
def leadsComma : List Char → Bool
  | [] => false
  | c :: x => if isGap c then leadsComma x else c == ','

theorem leadsComma_append {x y : List Char} (h : leadsComma (x ++ y) = true) :
    leadsComma x = true ∨ leadsComma y = true := by
  induction x with
  | nil => exact .inr h
  | cons c x ih =>
    rw [List.cons_append, leadsComma] at h
    rw [leadsComma]
    split at h
    · next hc =>
      rw [if_pos hc]
      exact ih h
    · next hc =>
      rw [if_neg hc]
      exact .inl h

theorem leadsComma_prefix {x y : List Char} (h : leadsComma x = true) (hp : x <+: y) :
    leadsComma y = true := by
  obtain ⟨t, rfl⟩ := hp
  induction x with
  | nil => cases h
  | cons c x ih =>
    rw [List.cons_append]
    rw [leadsComma] at h ⊢
    split at h
    · next hc =>
      rw [if_pos hc]
      exact ih h
    · next hc =>
      rw [if_neg hc]
      exact h

theorem leadsComma_gaps {u v : List Char} (hu : ∀ c ∈ u, isGap c = true) :
    leadsComma (u ++ ',' :: v) = true := by
  induction u with
  | nil => rfl
  | cons c u ih =>
    obtain ⟨hc, hu⟩ := List.forall_mem_cons.1 hu
    rw [List.cons_append, leadsComma, if_pos hc]
    exact ih hu

theorem leadsComma_map (x : List Char) : leadsComma (x.map Char.toUpper) = leadsComma x := by
  have hup {c d : Char} (hd : d.toNat < 65) : (c.toUpper == d) = (c == d) :=
    Bool.eq_iff_iff.2 (by rw [beq_iff_eq, beq_iff_eq, toUpper_eq hd])
  have hgap (c : Char) : isGap c.toUpper = isGap c := by
    unfold isGap isBlank
    rw [hup (by decide), hup (by decide), hup (by decide)]
  induction x with
  | nil => rfl
  | cons c x ih => rw [List.map_cons, leadsComma, leadsComma, hgap, hup (by decide), ih]

/-- How a line ends. A comment goes to the end of its line. -/
inductive LineEnd
  | lf
  | crlf
  | comment (c : { c : List Char // '\n' ∉ c })

namespace LineEnd

def text : LineEnd → List Char
  | lf => ['\n']
  | crlf => ['\r', '\n']
  | comment c => ';' :: c.val ++ ['\n']

/-- A comment's line end is no token. -/
def tokens : LineEnd → List Token
  | lf => [.endl]
  | crlf => [.endl]
  | comment _ => []

end LineEnd

/-- A line that neither starts nor ends with a comma. -/
structure TextLine where
  code : List Char
  ending : LineEnd
  plain : ∀ c ∈ ['\n', '\r', ';'], c ∉ code
  first : leadsComma code = false
  last : leadsComma code.reverse = false

namespace TextLine

def text (l : TextLine) : List Char := l.code ++ l.ending.text

/-- The tokens of a line, read by itself. -/
def tokens (l : TextLine) : Except LexStop (List Token) := do
  let tokens ← lexText l.code
  return tokens ++ l.ending.tokens

/-- The text of lines. -/
def textOf (lines : List TextLine) : List Char := lines.flatMap text

end TextLine

/-! ## Texts apart -/

/-- No rule matches across the end of the first text. -/
abbrev Apart (x y : List Char) : Prop := Lib.Apart LexRule.pattern Char.toUpper LexRule.all x y

theorem tokensOf_append (a b : List (LexRule × List Char)) : tokensOf (a ++ b) = do
    let tokens ← tokensOf a
    let tokens' ← tokensOf b
    return tokens ++ tokens' := by
  induction a with
  | nil =>
    rw [List.nil_append, tokensOf]
    cases tokensOf b <;> rfl
  | cons p a ih =>
    obtain ⟨i, s⟩ := p
    rw [List.cons_append, tokensOf, tokensOf, ih]
    cases i.action s with
    | error e => rfl
    | ok token =>
      cases tokensOf a with
      | error e => rfl
      | ok tokens =>
        cases tokensOf b with
        | error e => rfl
        | ok tokens' => exact congrArg Except.ok (List.append_assoc _ _ _).symm

theorem lexText_append {x y : List Char} (h : Apart x y) : lexText (x ++ y) = do
    let tokens ← lexText x
    let tokens' ← lexText y
    return tokens ++ tokens' := by
  unfold lexText lexemes
  rw [scan_append h, tokensOf_append]

section
variable {w z rest : List Char} {i : LexRule}

/-- What starts in a line and does not end in it is a comma. -/
theorem comma_of_across (hw : w ≠ []) (hplain : ∀ c ∈ ['\n', '\r', ';'], c ∉ w) {c : Char}
    (hc : c ∈ ['\n', '\r', ';'])
    (hm : i.pattern.Matches (w.map Char.toUpper ++ (c :: z).map Char.toUpper)) :
    i = .comma ∧ c = '\n' := by
  obtain ⟨hlf, hcr, hsemi⟩ := rulesWith_breaks
  have hup : c.toUpper = c := by
    have : ∀ c ∈ ['\n', '\r', ';'], c.toUpper = c := by decide
    exact this c hc
  have hrule : i ∈ rulesWith c := by
    refine mem_rulesWith hm (List.mem_append_right _ ?_)
    rw [List.map_cons, hup]
    exact .head _
  obtain ⟨a, w, rfl⟩ := List.exists_cons_of_ne_nil hw
  rw [List.map_cons, List.map_cons, List.cons_append] at hm
  -- the first character is in the line
  have hfirst (d : Char) (hd : d ∈ ['\n', '\r', ';']) : a.toUpper ≠ d := by
    have hlt : ∀ d ∈ ['\n', '\r', ';'], d.toNat < 65 := by decide
    intro heq
    obtain rfl := (toUpper_eq (hlt d hd)).1 heq
    exact hplain a hd (.head _)
  have hendl : i ≠ .endl := by
    rintro rfl
    rcases matches_alt.1 hm with hm | hm
    · exact hfirst '\n' (by simp) (List.cons.inj (matches_word.1 hm)).1
    · exact hfirst '\r' (by simp) (List.cons.inj (matches_word.1 hm)).1
  have hcomment : i ≠ .comment := by
    rintro rfl
    have := matches_first hm
    exact hfirst ';' (by simp) (by simpa [LexRule.pattern, lit, word, first, nullable] using this)
  have hgarbage : i ≠ .garbage := by
    rintro rfl
    have hlen := matches_garbage hm
    rw [List.length_cons, List.length_append, List.length_cons] at hlen
    omega
  simp only [List.mem_cons, List.not_mem_nil, or_false] at hc
  obtain rfl | rfl | rfl := hc
  · rw [hlf] at hrule
    simp only [List.mem_cons, List.not_mem_nil, or_false, hendl, hcomment, false_or] at hrule
    exact ⟨hrule, rfl⟩
  · rw [hcr] at hrule
    simp [hendl, hcomment, hgarbage] at hrule
  · rw [hsemi] at hrule
    simp [hcomment, hgarbage] at hrule

/-- A comma takes no line's end between lines that do not start or end with one. -/
theorem not_comma_across (hlast : leadsComma w.reverse = false) (hrest : leadsComma rest = false)
    (hz : z <+: rest) :
    ¬ LexRule.comma.pattern.Matches (w.map Char.toUpper ++ ('\n' :: z).map Char.toUpper) := by
  intro hm
  obtain ⟨u, v, huv, hu, hv⟩ := matches_comma.1 hm
  have hback (k : List Char) (hk : ∀ c ∈ k, isGap c = true) (h : w.map Char.toUpper = u ++ ',' :: k) :
      False := by
    have hrev : (w.map Char.toUpper).reverse = k.reverse ++ ',' :: u.reverse := by
      rw [h, List.reverse_append, List.reverse_cons, List.append_assoc]
      rfl
    have hlead := leadsComma_gaps (v := u.reverse) fun c hc => hk c (List.mem_reverse.1 hc)
    rw [← hrev, ← List.map_reverse, leadsComma_map, hlast] at hlead
    cases hlead
  obtain ⟨k, hk, hrest'⟩ | ⟨k, hk, hrest'⟩ := List.append_eq_append_iff.1 huv
  · -- the comma is behind the line's end
    have hlead : leadsComma (('\n' :: z).map Char.toUpper) = true := by
      rw [hrest']
      refine leadsComma_gaps fun c hc => hu c ?_
      rw [hk]
      exact List.mem_append_right _ hc
    rw [leadsComma_map] at hlead
    have hlead := leadsComma_prefix (x := z) hlead hz
    rw [hrest] at hlead
    cases hlead
  · cases k with
    | nil => exact absurd (List.cons.inj hrest').1 (by decide)
    | cons a k =>
      obtain ⟨rfl, rfl⟩ := List.cons.inj hrest'
      exact hback k (fun c hc => hv c (List.mem_append_left _ hc)) hk

theorem apart_code {l : TextLine} (hrest : leadsComma rest = false) :
    Apart l.code (l.ending.text ++ rest) := by
  intro w hw hsuf z hz hpre i _ hm
  have hplain : ∀ c ∈ ['\n', '\r', ';'], c ∉ w := fun c hc hmem => l.plain c hc (hsuf.subset hmem)
  have hlast : leadsComma w.reverse = false := by
    by_contra h
    have := leadsComma_prefix (eq_true_of_ne_false h) (List.reverse_prefix.2 hsuf)
    rw [l.last] at this
    cases this
  obtain ⟨c, z, rfl⟩ := List.exists_cons_of_ne_nil hz
  cases hend : l.ending with
  | lf =>
    rw [hend] at hpre
    obtain ⟨rfl, hbehind⟩ := List.cons_prefix_cons.1 hpre
    obtain ⟨rfl, -⟩ := comma_of_across hw hplain (by simp) hm
    exact not_comma_across hlast hrest hbehind hm
  | crlf =>
    rw [hend] at hpre
    obtain ⟨rfl, -⟩ := List.cons_prefix_cons.1 hpre
    exact absurd (comma_of_across hw hplain (by simp) hm).2 (by decide)
  | comment t =>
    rw [hend] at hpre
    obtain ⟨rfl, -⟩ := List.cons_prefix_cons.1 hpre
    exact absurd (comma_of_across hw hplain (by simp) hm).2 (by decide)

/-- Nothing goes on behind a line feed. -/
theorem apart_newline (hrest : leadsComma rest = false) : Apart ['\n'] rest := by
  intro w hw hsuf z hz hpre i _ hm
  obtain rfl : w = ['\n'] := (List.suffix_cons_iff.1 hsuf).resolve_right fun h =>
    hw (List.suffix_nil.1 h)
  obtain ⟨c, z, rfl⟩ := List.exists_cons_of_ne_nil hz
  have hmem := starts (show ('\n', [.endl, .comma]) ∈ startRules by decide) hm
  simp only [List.mem_cons, List.not_mem_nil, or_false] at hmem
  obtain rfl | rfl := hmem
  · rcases matches_alt.1 hm with hm | hm
    · cases (List.cons.inj (matches_word.1 hm)).2
    · cases (List.cons.inj (matches_word.1 hm)).1
  · exact not_comma_across (w := []) rfl hrest hpre hm

theorem apart_return (hrest : leadsComma rest = false) : Apart ['\r', '\n'] rest := by
  intro w hw hsuf z hz hpre i hi hm
  rcases List.suffix_cons_iff.1 hsuf with rfl | hsuf
  · have hfirst : ∀ i ∈ LexRule.all, i.pattern.first '\r' = true → i = .endl ∨ i = .garbage := by
      decide +kernel
    obtain ⟨c, z, rfl⟩ := List.exists_cons_of_ne_nil hz
    obtain rfl | rfl := hfirst i hi (matches_first hm)
    · rcases matches_alt.1 hm with hm | hm
      · cases (List.cons.inj (matches_word.1 hm)).1
      · cases (List.cons.inj (List.cons.inj (matches_word.1 hm)).2).2
    · have hlen := matches_garbage hm
      rw [List.length_append, List.length_map, List.length_cons, List.length_cons] at hlen
      omega
  · exact apart_newline hrest w hw hsuf z hz hpre i hi hm

/-- A line's end is read by itself. -/
theorem lexText_ending (e : LineEnd) (hrest : leadsComma rest = false) :
    lexText (e.text ++ rest) = (lexText rest).map (e.tokens ++ ·) := by
  cases e with
  | lf =>
    have hlex : lexText ['\n'] = .ok [.endl] := (lexes_endl (y := []) nofun).append lexText_nil
    rw [LineEnd.text, lexText_append (apart_newline hrest), hlex]
    cases lexText rest <;> rfl
  | crlf =>
    have hendl : IsLexeme .endl ['\r', '\n'] :=
      ⟨List.cons_ne_nil _ _, .altRight (matches_word.2 rfl), [], LexRule.all.tail, rfl, nofun⟩
    have hlex : lexText ['\r', '\n'] = .ok [.endl] := by
      have := lexText_cons (y := []) hendl nofun
      rwa [lexText_nil] at this
    rw [LineEnd.text, lexText_append (apart_return hrest), hlex]
    cases lexText rest <;> rfl
  | comment c =>
    show lexText (';' :: c.val ++ ['\n'] ++ rest) = _
    rw [lexText_comment c.2]
    cases lexText rest <;> rfl

/-- **A line** is read by itself. -/
theorem lexText_line (l : TextLine) (hrest : leadsComma rest = false) : lexText (l.text ++ rest) = do
    let tokens ← l.tokens
    let tokens' ← lexText rest
    return tokens ++ tokens' := by
  rw [TextLine.text, List.append_assoc, lexText_append (apart_code hrest), lexText_ending _ hrest,
    TextLine.tokens]
  cases lexText l.code with
  | error e => rfl
  | ok tokens =>
    cases lexText rest with
    | error e => rfl
    | ok tokens' => exact congrArg Except.ok (List.append_assoc _ _ _).symm

/-! ## Texts of lines -/

theorem leadsComma_ending {e : LineEnd} (hrest : leadsComma rest = false) :
    leadsComma (e.text ++ rest) = false := by
  cases e with
  | lf => exact hrest
  | crlf => rfl
  | comment c => rfl

theorem leadsComma_textOf (lines : List TextLine) (hrest : leadsComma rest = false) :
    leadsComma (TextLine.textOf lines ++ rest) = false := by
  induction lines with
  | nil => exact hrest
  | cons l lines ih =>
    show leadsComma (l.text ++ TextLine.textOf lines ++ rest) = false
    rw [TextLine.text, List.append_assoc, List.append_assoc]
    by_contra h
    rcases leadsComma_append (eq_true_of_ne_false h) with h | h
    · rw [l.first] at h
      cases h
    · rw [leadsComma_ending ih] at h
      cases h

end

/-- **A text is read line by line**, what follows the last line's end included. -/
theorem lexText_lines (lines : List TextLine) {rest : List Char} (hrest : leadsComma rest = false) :
    lexText (TextLine.textOf lines ++ rest) = do
      let tokens ← lines.mapM TextLine.tokens
      let tokens' ← lexText rest
      return tokens.flatten ++ tokens' := by
  induction lines with
  | nil =>
    rw [List.mapM_nil]
    show lexText rest = _
    cases lexText rest <;> rfl
  | cons l lines ih =>
    show lexText (l.text ++ TextLine.textOf lines ++ rest) = _
    rw [List.append_assoc, lexText_line l (leadsComma_textOf lines hrest), ih, List.mapM_cons]
    cases l.tokens with
    | error e => rfl
    | ok tokens =>
      cases lines.mapM TextLine.tokens with
      | error e => rfl
      | ok rests =>
        cases lexText rest with
        | error e => rfl
        | ok tokens' => exact congrArg Except.ok (List.append_assoc _ _ _).symm

/-- The lines of a text are read as they are without what follows. -/
theorem lexText_textOf (lines : List TextLine) {rest : List Char} (hrest : leadsComma rest = false) :
    lexText (TextLine.textOf lines ++ rest) = do
      let tokens ← lexText (TextLine.textOf lines)
      let tokens' ← lexText rest
      return tokens ++ tokens' := by
  have hlines := @lexText_lines lines [] rfl
  rw [List.append_nil, lexText_nil] at hlines
  rw [lexText_lines lines hrest, hlines]
  cases lines.mapM TextLine.tokens with
  | error e => rfl
  | ok tokens =>
    cases lexText rest with
    | error e => rfl
    | ok tokens' => exact congrArg (fun t => Except.ok (t ++ tokens')) (List.append_nil _).symm

/-! ## Programs of lines -/

theorem exps_append {as bs : List (List Token)} {x y : Action} (ha : exps as = some x)
    (hb : exps bs = some y) : exps (as ++ bs) = some (x ++ y) := by
  have hne : bs ≠ [] := by
    rintro rfl
    cases hb
  induction as generalizing x with
  | nil => cases ha
  | cons a as ih =>
    obtain ⟨z, hz, ⟨rfl, rfl⟩ | ⟨w, hw, rfl⟩⟩ := exps_cons ha
    · rw [List.singleton_append, exps, hz, hb]
      · rfl
      · exact hne
    · rw [List.cons_append, exps, hz, ih hw, List.append_assoc]
      · rfl
      · exact List.append_ne_nil_of_right_ne_nil _ hne

theorem exps_suffix {as bs : List (List Token)} {acts : Action} (h : exps (as ++ bs) = some acts)
    (hne : bs ≠ []) : ∃ acts', exps bs = some acts' := by
  induction as generalizing acts with
  | nil => exact ⟨acts, h⟩
  | cons a as ih =>
    obtain ⟨x, -, ⟨hnil, -⟩ | ⟨y, hy, -⟩⟩ := exps_cons h
    · exact absurd (List.append_eq_nil_iff.1 hnil).2 hne
    · exact ih hy

theorem Parses.append {as bs : List Token} {x y : Action} (ha : Parses as x) (hb : Parses bs y) :
    Parses (as ++ bs) (x ++ y) := by
  obtain ⟨ls, rfl, hx⟩ := ha
  obtain ⟨ms, rfl, hy⟩ := hb
  exact ⟨ls ++ ms, List.flatten_append, exps_append hx hy⟩

/-- Behind a program comes a program. -/
theorem Parses.behind {as more : List Token} {t : Token} {x acts : Action} (ha : Parses as x)
    (h : Parses (as ++ t :: more) acts) (ht : ∀ c, t ≠ .condition c) :
    ∃ acts', Parses (t :: more) acts' := by
  obtain ⟨ls, rfl, hls⟩ := ha
  obtain ⟨ms, hf, hms⟩ := h
  obtain ⟨ms', rfl, hf'⟩ := exp_cuts.peel_append (exps_accepts hls) (fun ⟨c, hc⟩ => ht c hc)
    (exps_accepts hms) hf
  have hne : ms' ≠ [] := by
    rintro rfl
    cases hf'
  obtain ⟨acts', hacts'⟩ := exps_suffix hms hne
  exact ⟨acts', ms', hf', hacts'⟩

/-- The tokens are those of a program with these actions, or there are none. -/
def Reads (tokens : List Token) (acts : Action) : Prop :=
  tokens = [] ∧ acts = [] ∨ Parses tokens acts

theorem Reads.append {as bs : List Token} {x y : Action} (ha : Reads as x) (hb : Reads bs y) :
    Reads (as ++ bs) (x ++ y) := by
  obtain ⟨rfl, rfl⟩ | ha := ha
  · exact hb
  · obtain ⟨rfl, rfl⟩ | hb := hb
    · rw [List.append_nil, List.append_nil]
      exact .inr ha
    · exact .inr (ha.append hb)

theorem LineEnd.reads (e : LineEnd) : Reads e.tokens [] := by
  cases e with
  | lf | crlf => exact .inr (Parses.line rfl)
  | comment c => exact .inl ⟨rfl, rfl⟩

/-- What a line does, taken by itself. -/
def TextLine.Does (l : TextLine) (acts : Action) : Prop :=
  ∃ tokens, lexText l.code = .ok tokens ∧ Reads tokens acts

theorem TextLine.Does.tokens {l : TextLine} {acts : Action} (h : l.Does acts) :
    ∃ tokens, l.tokens = .ok tokens ∧ Reads tokens acts := by
  obtain ⟨tokens, hlex, hreads⟩ := h
  refine ⟨tokens ++ l.ending.tokens, ?_, ?_⟩
  · rw [TextLine.tokens, hlex]
    rfl
  · have := hreads.append l.ending.reads
    rwa [List.append_nil] at this

theorem reads_lines {lines : List TextLine} {acts : List Action}
    (h : List.Forall₂ TextLine.Does lines acts) :
    ∃ tokens, lines.mapM TextLine.tokens = .ok tokens ∧ Reads tokens.flatten acts.flatten := by
  induction h with
  | nil => exact ⟨[], rfl, .inl ⟨rfl, rfl⟩⟩
  | cons hl _ ih =>
    obtain ⟨toks, htoks, hr⟩ := hl.tokens
    obtain ⟨rests, hrests, hrs⟩ := ih
    refine ⟨toks :: rests, ?_, hr.append hrs⟩
    rw [List.mapM_cons, htoks, hrests]
    rfl

/-- The tokens of a text are those of its lines. -/
theorem lexText_of_mapM {lines : List TextLine} {tokens : List (List Token)}
    (h : lines.mapM TextLine.tokens = .ok tokens) :
    lexText (TextLine.textOf lines) = .ok tokens.flatten := by
  have hlex := @lexText_lines lines [] rfl
  rw [List.append_nil, h, lexText_nil] at hlex
  rw [hlex]
  exact congrArg Except.ok (List.append_nil _)

/-- **The lines of a text** do what they do by themselves, in order. -/
theorem reads_textOf {lines : List TextLine} {acts : List Action}
    (h : List.Forall₂ TextLine.Does lines acts) :
    ∃ tokens, lexText (TextLine.textOf lines) = .ok tokens ∧ Reads tokens acts.flatten := by
  obtain ⟨tokens, htokens, hreads⟩ := reads_lines h
  exact ⟨tokens.flatten, lexText_of_mapM htokens, hreads⟩

theorem parses_textOf {lines : List TextLine} {acts : List Action}
    (h : List.Forall₂ TextLine.Does lines acts) (hne : acts.flatten ≠ []) :
    ∃ tokens, lexText (TextLine.textOf lines) = .ok tokens ∧ Parses tokens acts.flatten := by
  obtain ⟨tokens, hlex, ⟨-, hnil⟩ | hparse⟩ := reads_textOf h
  · exact absurd hnil hne
  · exact ⟨tokens, hlex, hparse⟩

/-- Assembling a text that is parsed. -/
theorem assemblesTo_iff {size : Dword} {fixedSize : Bool} {heap : Nat → Byte} {text : List Char}
    {tokens : List Token} {acts : Action} {img : List Byte} (hlex : lexText text = .ok tokens)
    (hparse : Parses tokens acts) :
    AssemblesTo size fixedSize heap text img ↔ assemble size fixedSize heap acts = .ok img := by
  constructor
  · rintro ⟨tokens', acts', hlex', hparse', himg⟩
    obtain rfl := Except.ok.inj (hlex.symm.trans hlex')
    obtain rfl := hparse.unique hparse'
    exact himg
  · exact fun himg => ⟨tokens, acts, hlex, hparse, himg⟩

/-- **Assembling line by line**: the tokens of a text are those of its lines, whatever line ends and
comments the lines have, and its image is that of the lines' actions. A text without tokens is
refused. -/
theorem assemblesTo_lines {size : Dword} {fixedSize : Bool} {heap : Nat → Byte}
    {lines : List TextLine} {acts : List Action} (h : List.Forall₂ TextLine.Does lines acts) :
    ∃ tokens, lines.mapM TextLine.tokens = .ok tokens ∧
      lexText (TextLine.textOf lines) = .ok tokens.flatten ∧
      ∀ img, AssemblesTo size fixedSize heap (TextLine.textOf lines) img ↔
        tokens.flatten ≠ [] ∧ assemble size fixedSize heap acts.flatten = .ok img := by
  obtain ⟨tokens, htokens, hreads⟩ := reads_lines h
  have hlex := lexText_of_mapM htokens
  refine ⟨tokens, htokens, hlex, fun img => ?_⟩
  rcases hreads with ⟨hnil, -⟩ | hparse
  · refine iff_of_false ?_ fun himg => himg.1 hnil
    rintro ⟨tokens', acts', hlex', hparse', -⟩
    obtain rfl := Except.ok.inj (hlex.symm.trans hlex')
    exact hparse'.ne_nil hnil
  · rw [assemblesTo_iff hlex hparse]
    exact (and_iff_right hparse.ne_nil).symm

/-- `CMP R1,R2; loop` -/
def compareLine : TextLine where
  code := "CMP R1,R2".toList
  ending := .comment ⟨" loop".toList, by decide⟩
  plain := by decide
  first := by decide
  last := by decide

/-- An empty line, with the other line end. -/
def emptyLine : TextLine where
  code := []
  ending := .crlf
  plain := by decide
  first := rfl
  last := rfl

/-- `STOP` -/
def stopLine : TextLine where
  code := "STOP".toList
  ending := .lf
  plain := by decide
  first := by decide
  last := by decide

theorem lexText_compare : lexText compareLine.code = .ok [.opFmtVI ⟨"CMP", by decide⟩, .space,
    .reg32 ⟨"R1", by decide⟩, .comma, .reg32 ⟨"R2", by decide⟩] := by
  have hmem : "CMP" ∈ LexRule.opFmtVI.spellings := by decide
  have hreg {n : String} (hn : n ∈ reg32Names) {x : List Char} :
      ∀ a, (n.toList ++ x).head? = some a → isSolid a = true :=
    word_solid (mem_vocabulary (i := .reg32) hn) (by revert n; decide)
  have hr2 : Lexes "R2".toList (.reg32 ⟨"R2", by decide⟩) [] := lexes_reg32 _ (by decide) nofun
  have hcomma : Lexes [','] .comma ("R2".toList ++ []) := lexes_comma nofun (hreg (by decide))
  have hr1 : Lexes "R1".toList (.reg32 ⟨"R1", by decide⟩) ([','] ++ ("R2".toList ++ [])) :=
    lexes_reg32 _ (by decide) (head_delimiter (by decide))
  have hspace : Lexes [' '] .space ("R1".toList ++ ([','] ++ ("R2".toList ++ []))) :=
    lexes_blanks (List.cons_ne_nil _ _) (by decide) (hreg (by decide))
  have hop : Lexes "CMP".toList (.opFmtVI ⟨"CMP", by decide⟩)
      ([' '] ++ ("R1".toList ++ ([','] ++ ("R2".toList ++ [])))) :=
    lexes_named (i := .opFmtVI) rfl rfl _ (by decide)
      (stops_delimiter (mem_vocabulary hmem) (by decide) (head_delimiter (by decide)))
  exact hop.append (hspace.append (hr1.append (hcomma.append (hr2.append lexText_nil))))

theorem lexText_stop : lexText stopLine.code = .ok [.opFmtI ⟨"STOP", by decide⟩] := by
  have hstops : Stops "STOP".toList [] := nofun
  have hop : Lexes "STOP".toList (.opFmtI ⟨"STOP", by decide⟩) [] :=
    lexes_named (i := .opFmtI) rfl rfl _ (by decide) hstops
  exact hop.append lexText_nil

/-- The three lines, as one text. -/
theorem assemblesTo_lines_compare :
    TextLine.textOf [compareLine, emptyLine, stopLine] = "CMP R1,R2; loop\n\r\nSTOP\n".toList ∧
    lexText "CMP R1,R2; loop\n\r\nSTOP\n".toList = .ok [.opFmtVI ⟨"CMP", by decide⟩, .space,
      .reg32 ⟨"R1", by decide⟩, .comma, .reg32 ⟨"R2", by decide⟩, .endl,
      .opFmtI ⟨"STOP", by decide⟩, .endl] ∧
    AssemblesTo 0 false (fun _ => 0) "CMP R1,R2; loop\n\r\nSTOP\n".toList
      [0x18, 0x00, 0x12, 0x00, 0x00, 0x00, 0x00, 0x00] := by
  have htext : TextLine.textOf [compareLine, emptyLine, stopLine]
      = "CMP R1,R2; loop\n\r\nSTOP\n".toList := by decide
  have hdoes : List.Forall₂ TextLine.Does [compareLine, emptyLine, stopLine]
      [[.call (.fmtVI pfxDword cAlways Opcode.cmp.code 1 2)], [],
        [.call (.fmtI pfxDword cAlways Opcode.stop.code)]] :=
    .cons ⟨_, lexText_compare, .inr (Parses.line rfl)⟩
      (.cons ⟨_, lexText_nil, .inl ⟨rfl, rfl⟩⟩
        (.cons ⟨_, lexText_stop, .inr (Parses.line rfl)⟩ .nil))
  obtain ⟨tokens, htokens, hlex, himg⟩ := @assemblesTo_lines 0 false (fun _ => 0) _ _ hdoes
  have hempty : lexText emptyLine.code = .ok [] := lexText_nil
  rw [List.mapM_cons, List.mapM_cons, List.mapM_cons, List.mapM_nil, TextLine.tokens,
    TextLine.tokens, TextLine.tokens, lexText_compare, lexText_stop, hempty] at htokens
  cases htokens
  rw [htext] at hlex himg
  exact ⟨htext, hlex, (himg _).2 ⟨List.cons_ne_nil _ _, by decide⟩⟩

end Assembler
