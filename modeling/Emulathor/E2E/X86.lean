import Mathlib.Data.List.TakeWhile
import Emulathor.Assembler.Proof.Lexemes
import Emulathor.Assembler.X86tov

/-!
# The x86 lines

The x86 lines that x86tov translates: what they mean on a machine of six registers and a memory
(`Line.exec`), how they are written (`Line.text`), and the tokens x86tov reads them as
(`source_tokens`).
-/

namespace X86

open Common Lib Regex X86tov
open Assembler (lit decimal isBlank isGap isSolid)

/-! ## Meaning -/

inductive Reg
  | eax | ebx | ecx | edx | ebp | esp
  deriving DecidableEq, Repr

structure State where
  regs : Reg → Dword
  memory : Dword → Byte

/-- A dword stored at an address, the lowest byte first; addresses wrap around. -/
def storeDword (m : Dword → Byte) (a v : Dword) : Dword → Byte := fun i =>
  if (i - a).toNat < 4 then (v >>> (8 * (i - a).toNat)).setWidth 8 else m i

def loadDword (m : Dword → Byte) (a : Dword) : Dword :=
  dwordFromBytes (m (a + 3)) (m (a + 2)) (m (a + 1)) (m a)

inductive Line
  | movl (src dst : Reg)
  | movlStore (c offset : Dword) (base : Reg)
  | movlLoad (offset : Dword) (base dst : Reg)
  | imull (src dst : Reg)
  | pushl (src : Reg)
  deriving DecidableEq, Repr

/-- The source comes first and the destination last. -/
def Line.exec (s : State) : Line → State
  | movl src dst => { s with regs := Function.update s.regs dst (s.regs src) }
  | movlStore c offset base => { s with memory := storeDword s.memory (s.regs base + offset) c }
  | movlLoad offset base dst =>
    { s with regs := Function.update s.regs dst (loadDword s.memory (s.regs base + offset)) }
  | imull src dst => { s with regs := Function.update s.regs dst (s.regs dst * s.regs src) }
  | pushl src =>
    { regs := Function.update s.regs .esp (s.regs .esp - 4)
      memory := storeDword s.memory (s.regs .esp - 4) (s.regs src) }

/-- The lines executed in order. -/
def exec (s : State) (xs : List Line) : State := xs.foldl Line.exec s

/-! ## Text -/

def Reg.name : Reg → String
  | eax => "eax"
  | ebx => "ebx"
  | ecx => "ecx"
  | edx => "edx"
  | ebp => "ebp"
  | esp => "esp"

def Reg.text (r : Reg) : List Char := '%' :: r.name.toList

def intText (i : Dword) : List Char := (printInt i).toList

/-- The line and its end. -/
def Line.text : Line → List Char
  | movl src dst => "movl".toList ++ ([' '] ++ (src.text ++ ([',', ' '] ++ (dst.text ++ ['\n']))))
  | movlStore c offset base =>
    "movl".toList ++ ([' '] ++ (('$' :: intText c) ++ ([',', ' '] ++ (intText offset
      ++ (('(' :: base.text ++ [')']) ++ ['\n'])))))
  | movlLoad offset base dst =>
    "movl".toList ++ ([' '] ++ (intText offset ++ (('(' :: base.text ++ [')'])
      ++ ([',', ' '] ++ (dst.text ++ ['\n'])))))
  | imull src dst => "imull".toList ++ ([' '] ++ (src.text ++ ([',', ' '] ++ (dst.text ++ ['\n']))))
  | pushl src => "pushl".toList ++ ([' '] ++ (src.text ++ ['\n']))

/-- The lines one below the other. -/
def source (xs : List Line) : List Char := xs.flatMap Line.text

/-! ## Lexemes -/

/-- The rules that match something starting with the character. -/
def startRules : List (Char × List LexRule) :=
  [('m', [.opMovl, .garbage]), ('i', [.opImull, .garbage]), ('p', [.opPushl, .garbage]),
    ('%', [.reg32, .garbage]), ('(', [.mreg32, .garbage]), ('$', [.constant, .garbage]),
    (' ', [.space, .comma, .garbage]), (',', [.comma, .garbage]), ('\n', [.endl, .comma])]
  ++ ['-', '0', '1', '2', '3', '4', '5', '6', '7', '8', '9'].map fun c => (c, [.int, .garbage])

theorem mem_all (i : LexRule) : i ∈ LexRule.all := by cases i <;> decide

theorem starts {c : Char} {rules : List LexRule} (h : (c, rules) ∈ startRules) {i : LexRule}
    {x : List Char} (hm : i.pattern.Matches (c :: x)) : i ∈ rules := by
  have hall : ∀ p ∈ startRules, ∀ i ∈ LexRule.all, i.pattern.first p.1 = true → i ∈ p.2 := by
    decide +kernel
  exact hall _ h i (mem_all i) (matches_first hm)

/-- The lexeme is read by the rule, in front of the rest. -/
structure Reads (i : LexRule) (w y : List Char) : Prop where
  lexeme : IsLexeme LexRule.pattern id LexRule.all i w
  stops : Stops LexRule.pattern id LexRule.all w y

theorem lexemes_append {i : LexRule} {w y : List Char} (h : Reads i w y) :
    lexemes (w ++ y) = (i, w) :: lexemes y := scan_lexeme h.lexeme h.stops

theorem garbage_length {x : List Char} (h : LexRule.garbage.pattern.Matches x) : x.length = 1 := by
  obtain ⟨a, -, rfl⟩ := matches_cls.1 h
  rfl

/-- A lexeme whose first character only its rule starts with, which does not match more. -/
theorem reads_of {i : LexRule} {c : Char} {w y : List Char}
    (hc : (c, [i, .garbage]) ∈ startRules) (hm : i.pattern.Matches (c :: w))
    (hy : ∀ a, y.head? = some a → ∀ z, ¬ i.pattern.Matches (c :: w ++ a :: z)) :
    Reads i (c :: w) y := by
  have hone {j : LexRule} {x : List Char} (h : j.pattern.Matches (c :: x)) : j = i ∨ j = .garbage := by
    simpa only [List.mem_cons, List.not_mem_nil, or_false] using starts hc h
  have hi : i ≠ .garbage := by
    have : ∀ p ∈ startRules, p.2.head? ≠ some .garbage := by decide
    rintro rfl
    exact this _ hc rfl
  have hmem : i ∈ LexRule.all.dropLast := by
    have hall : LexRule.all = LexRule.all.dropLast ++ [.garbage] := rfl
    have := mem_all i
    rw [hall, List.mem_append, List.mem_singleton] at this
    exact this.resolve_right hi
  constructor
  · refine IsLexeme.of_last rfl (by decide) hmem (List.cons_ne_nil _ _) (by rwa [List.map_id]) ?_
    intro j hj
    rw [List.map_id] at hj
    exact hone hj
  · intro a ha j _ z hj
    rw [List.map_id, id] at hj
    rcases hone hj with rfl | rfl
    · exact hy a ha z hj
    · have := garbage_length hj
      simp at this

/-- A lexeme that is one word. -/
theorem reads_lit {i : LexRule} {s : String} {c : Char} {w y : List Char} (hi : i.pattern = lit s)
    (hs : s.toList = c :: w) (hc : (c, [i, .garbage]) ∈ startRules) : Reads i s.toList y := by
  rw [hs]
  refine reads_of hc ?_ fun a _ z hz => ?_
  · rw [hi, lit, hs]
    exact matches_word.2 rfl
  · rw [hi, lit, hs] at hz
    have hlen := congrArg List.length (matches_word.1 hz)
    simp only [List.length_append, List.length_cons] at hlen
    omega

theorem text_length (r : Reg) : r.text.length = 4 := by cases r <;> rfl

theorem matches_reg (r : Reg) : LexRule.reg32.pattern.Matches r.text := by
  have hmem : r.text ∈ reg32Names.map String.toList := by cases r <;> decide
  exact matches_words.2 hmem

theorem matches_reg_length {x : List Char} (h : LexRule.reg32.pattern.Matches x) : x.length = 4 := by
  have hall : ∀ s ∈ reg32Names, s.toList.length = 4 := by decide
  obtain ⟨s, hs, rfl⟩ := List.mem_map.1 (matches_words.1 h)
  exact hall s hs

theorem reads_reg (r : Reg) (y : List Char) : Reads .reg32 r.text y := by
  refine reads_of (by decide) (matches_reg r) fun a _ z hz => ?_
  have hlen := matches_reg_length hz
  have htext : ('%' :: r.name.toList).length = 4 := text_length r
  rw [List.length_append, htext, List.length_cons] at hlen
  omega

theorem reads_mreg (r : Reg) (y : List Char) : Reads .mreg32 ('(' :: r.text ++ [')']) y := by
  show Reads .mreg32 ('(' :: (r.text ++ [')'])) y
  refine reads_of (by decide) ?_ fun a _ z hz => ?_
  · exact .seq (matches_word.2 rfl) (.seq (matches_reg r) (matches_word.2 rfl))
  · obtain ⟨u, v, huv, hu, hv⟩ := matches_seq.1 hz
    obtain ⟨x, t, rfl, hx, ht⟩ := matches_seq.1 hv
    have hlen := congrArg List.length huv
    have hu1 : u.length = 1 := by rw [matches_word.1 hu]; rfl
    have ht1 : t.length = 1 := by rw [matches_word.1 ht]; rfl
    have hx4 := matches_reg_length hx
    have hr4 := text_length r
    simp only [List.length_append, List.length_cons, List.length_nil] at hlen
    omega

/-! ## Numbers -/

theorem intText_eq (c : Dword) : ∃ n : Nat,
    intText c = Nat.toDigits 10 n ∧ c.toInt = n ∨
      intText c = '-' :: Nat.toDigits 10 n ∧ c.toInt = -n := by
  cases h : c.toInt with
  | ofNat n =>
    refine ⟨n, .inl ⟨?_, rfl⟩⟩
    rw [intText, printInt, h]
    exact Nat.toList_repr
  | negSucc n =>
    refine ⟨n + 1, .inr ⟨?_, rfl⟩⟩
    rw [intText, printInt, h]
    show ("-" ++ (n + 1).repr).toList = _
    rw [String.toList_append, Nat.toList_repr]
    rfl

theorem toDigits_isDigit {n : Nat} {c : Char} (h : c ∈ Nat.toDigits 10 n) : c.isDigit = true :=
  Nat.isDigit_of_mem_toDigits (by decide) (by decide) h

theorem digits_toDigits (n : Nat) : Assembler.digits (Nat.toDigits 10 n) = n := by
  rw [Assembler.digits, List.takeWhile_eq_self_iff.2 fun c hc => toDigits_isDigit hc]
  exact Nat.ofDigitChars_ten_toDigits

/-- `atoi` reads what `%d` has printed. -/
theorem atoi_intText (c : Dword) : atoi (intText c) = c := by
  have hlow := BitVec.le_two_mul_toInt (x := c)
  have hhigh := BitVec.two_mul_toInt_lt (x := c)
  obtain ⟨n, ⟨htext, hn⟩ | ⟨htext, hn⟩⟩ := intText_eq c
  · rw [htext]
    have hatoi : atoi (Nat.toDigits 10 n)
        = BitVec.ofInt 32 (min (Assembler.digits (Nat.toDigits 10 n) : Int) (2 ^ 63 - 1)) := by
      unfold atoi
      split
      · next s h =>
        have hdigit := toDigits_isDigit (h ▸ List.mem_cons_self : '-' ∈ Nat.toDigits 10 n)
        cases hdigit
      · rfl
    rw [hatoi, digits_toDigits, ← hn, Int.min_eq_left (by omega), BitVec.ofInt_toInt]
  · rw [htext, atoi, digits_toDigits, ← hn, Int.max_eq_left (by omega), BitVec.ofInt_toInt]

theorem matches_intText (c : Dword) : decimal.Matches (intText c) := by
  have hdigits (n : Nat) : (plus Char.isDigit).Matches (Nat.toDigits 10 n) :=
    matches_plus.2 ⟨Nat.toDigits_ne_nil, fun c hc => toDigits_isDigit hc⟩
  obtain ⟨n, ⟨htext, -⟩ | ⟨htext, -⟩⟩ := intText_eq c
  · rw [htext]
    exact .seq .starNil (hdigits n)
  · rw [htext]
    have hsign : (star (cls (· == '-'))).Matches ['-'] := matches_star_cls.2 (by decide)
    exact .seq hsign (hdigits n)

theorem digit_start {a : Char} (h : a.isDigit = true) :
    (a, [LexRule.int, .garbage]) ∈ startRules := by
  have hall : ∀ k < 10, (Char.ofNat (48 + k), [LexRule.int, .garbage]) ∈ startRules := by decide
  obtain ⟨hlow, hhigh⟩ := (Assembler.isDigit_iff a).1 h
  have := hall (a.toNat - 48) (by omega)
  rwa [Nat.add_sub_cancel' hlow, Char.ofNat_toNat] at this

/-- A number starts with a sign or a digit. -/
theorem intText_start (c : Dword) : ∃ a w, intText c = a :: w ∧
    (a, [LexRule.int, .garbage]) ∈ startRules := by
  obtain ⟨n, ⟨htext, -⟩ | ⟨htext, -⟩⟩ := intText_eq c
  · cases hd : Nat.toDigits 10 n with
    | nil => exact absurd hd Nat.toDigits_ne_nil
    | cons a w =>
      refine ⟨a, w, by rw [htext, hd], ?_⟩
      have hdigit := toDigits_isDigit (hd ▸ List.mem_cons_self : a ∈ Nat.toDigits 10 n)
      exact digit_start hdigit
  · exact ⟨'-', _, htext, by decide⟩

/-- What may follow a number. -/
def numberEnds : List Char := [',', '(', '\n']

theorem reads_int {c : Dword} {y : List Char} (hy : ∀ a, y.head? = some a → a ∈ numberEnds) :
    Reads .int (intText c) y := by
  obtain ⟨a, w, htext, hstart⟩ := intText_start c
  rw [htext]
  refine reads_of hstart (htext ▸ matches_intText c) fun b hb z hz => ?_
  have hnum := Assembler.matches_int hz b (List.mem_append_right _ (.head _))
  have hends : ∀ b ∈ numberEnds, Assembler.isNumeral b = false := by decide
  rw [hends b (hy b hb)] at hnum
  cases hnum

theorem reads_constant {c : Dword} {y : List Char}
    (hy : ∀ a, y.head? = some a → a ∈ numberEnds) : Reads .constant ('$' :: intText c) y := by
  refine reads_of (by decide) (.seq (matches_word.2 rfl) (matches_intText c)) fun b hb z hz => ?_
  obtain ⟨u, v, huv, hu, hv⟩ := matches_seq.1 hz
  rw [matches_word.1 hu] at huv
  obtain rfl : intText c ++ b :: z = v := (List.cons.inj huv).2
  have hnum := Assembler.matches_int hv b (List.mem_append_right _ (.head _))
  have hends : ∀ b ∈ numberEnds, Assembler.isNumeral b = false := by decide
  rw [hends b (hy b hb)] at hnum
  cases hnum

/-! ## Separators

Their patterns are those of vasm. -/

/-- Neither a gap nor a comma goes on with a solid character. -/
theorem not_separator {j : LexRule} {c a : Char} {w z : List Char}
    {rules : List Assembler.LexRule} (hj : j ∈ [LexRule.space, .comma, .endl, .garbage])
    (hstart : (c, rules) ∈ Assembler.startRules)
    (hrules : ∀ j ∈ rules, j ∈ [.space, .comma, .endl, .garbage]) (ha : isSolid a = true) :
    ¬ j.pattern.Matches (c :: w ++ a :: z) := by
  intro hm
  simp only [List.mem_cons, List.not_mem_nil, or_false] at hj
  obtain rfl | rfl | rfl | rfl := hj
  · exact Assembler.not_separator (j := .space) hstart hrules ha hm
  · exact Assembler.not_separator (j := .comma) hstart hrules ha hm
  · exact Assembler.not_separator (j := .endl) hstart hrules ha hm
  · exact Assembler.not_separator (j := .garbage) hstart hrules ha hm

theorem stops_separator {c : Char} {w y : List Char} {own : List LexRule}
    {rules : List Assembler.LexRule} (hown : (c, own) ∈ startRules)
    (howns : ∀ j ∈ own, j ∈ [LexRule.space, .comma, .endl, .garbage])
    (hstart : (c, rules) ∈ Assembler.startRules)
    (hrules : ∀ j ∈ rules, j ∈ [.space, .comma, .endl, .garbage])
    (hy : ∀ a, y.head? = some a → isSolid a = true) :
    Stops LexRule.pattern id LexRule.all (c :: w) y := by
  intro a ha j _ z hj
  rw [List.map_id, id] at hj
  exact not_separator (howns j (starts hown hj)) hstart hrules (hy a ha) hj

theorem reads_space {y : List Char} (hy : ∀ a, y.head? = some a → isSolid a = true) :
    Reads .space [' '] y := by
  have hown : (' ', [LexRule.space, .comma, .garbage]) ∈ startRules := by decide
  have hstart : (' ', [.space, .comma, .garbage]) ∈ Assembler.startRules := by decide
  refine ⟨?_, stops_separator hown (by decide) hstart (by decide) hy⟩
  refine ⟨List.cons_ne_nil _ _, matches_star_cls.2 (by decide), [.endl], _, rfl, ?_⟩
  intro j hj hm
  obtain rfl := List.mem_singleton.1 hj
  exact absurd (starts hown hm) (by decide)

theorem reads_comma {y : List Char} (hy : ∀ a, y.head? = some a → isSolid a = true) :
    Reads .comma [',', ' '] y := by
  have hown : (',', [LexRule.comma, .garbage]) ∈ startRules := by decide
  have hstart : (',', [.comma, .garbage]) ∈ Assembler.startRules := by decide
  refine ⟨?_, stops_separator hown (by decide) hstart (by decide) hy⟩
  have hall : LexRule.all = LexRule.all.dropLast ++ [.garbage] := rfl
  refine IsLexeme.of_last hall (by decide) (by decide) (List.cons_ne_nil _ _) ?_ fun j hj => ?_
  · exact Assembler.matches_comma.2 ⟨[], [' '], rfl, nofun, by decide⟩
  · simpa only [List.mem_cons, List.not_mem_nil, or_false] using starts hown hj

theorem reads_endl {y : List Char} (hy : ∀ a, y.head? = some a → isSolid a = true) :
    Reads .endl ['\n'] y := by
  have hown : ('\n', [LexRule.endl, .comma]) ∈ startRules := by decide
  have hstart : ('\n', [.endl, .comma]) ∈ Assembler.startRules := by decide
  refine ⟨?_, stops_separator hown (by decide) hstart (by decide) hy⟩
  exact ⟨List.cons_ne_nil _ _, .altLeft (matches_word.2 rfl), [], _, rfl, nofun⟩

/-! ## Lines -/

/-- The tokens of a line, its end not among them; what is behind a buffer belongs to the name in it. -/
inductive ReadsAs (behind : Nat → List Char) : Line → List Token → Prop
  | movl (src dst : Reg) : ReadsAs behind (.movl src dst)
    [.opMovl "movl", .space, .reg32 src.name, .comma, .reg32 dst.name]
  | movlStore (c offset : Dword) (base : Reg) (n : Nat) :
    ReadsAs behind (.movlStore c offset base) [.opMovl "movl", .space, .int c, .comma, .int offset,
      .mreg32 (String.ofList (base.name.toList ++ behind n))]
  | movlLoad (offset : Dword) (base dst : Reg) (n : Nat) :
    ReadsAs behind (.movlLoad offset base dst) [.opMovl "movl", .space, .int offset,
      .mreg32 (String.ofList (base.name.toList ++ behind n)), .comma, .reg32 dst.name]
  | imull (src dst : Reg) : ReadsAs behind (.imull src dst)
    [.opImull "imull", .space, .reg32 src.name, .comma, .reg32 dst.name]
  | pushl (src : Reg) : ReadsAs behind (.pushl src) [.opPushl "pushl", .space, .reg32 src.name]

section
variable {behind : Nat → List Char} {y : List Char}

/-- The tokens of a text. -/
def tokens (behind : Nat → List Char) (text : List Char) : List Token :=
  tokensOf behind (lexemes text)

theorem tokens_append {i : LexRule} {w : List Char} (h : Reads i w y) :
    tokens behind (w ++ y)
      = (i.action (behind (lexemes y).length) w).toList ++ tokens behind y := by
  rw [tokens, lexemes_append h, tokensOf, tokens]

theorem reg_solid (r : Reg) : ∀ a, (r.text ++ y).head? = some a → isSolid a = true := by
  rintro a ⟨⟩
  rfl

theorem tokens_reg (r : Reg) : tokens behind (r.text ++ y) = .reg32 r.name :: tokens behind y := by
  have hname : String.ofList (r.text.drop 1) = r.name := String.ofList_toList
  rw [tokens_append (reads_reg r y), LexRule.action, hname]
  rfl

theorem tokens_mreg (r : Reg) : ∃ n, tokens behind (('(' :: r.text ++ [')']) ++ y)
    = .mreg32 (String.ofList (r.name.toList ++ behind n)) :: tokens behind y := by
  have hname (b : List Char) :
      (removeBrackets b ('(' :: r.text ++ [')'])).drop 1 = r.name.toList ++ b := by
    cases r <;> rfl
  refine ⟨(lexemes y).length, ?_⟩
  rw [tokens_append (reads_mreg r y), LexRule.action, hname]
  rfl

theorem tokens_int {c : Dword} (hy : ∀ a, y.head? = some a → a ∈ numberEnds) :
    tokens behind (intText c ++ y) = .int c :: tokens behind y := by
  rw [tokens_append (reads_int hy), LexRule.action, atoi_intText]
  rfl

theorem tokens_constant {c : Dword} (hy : ∀ a, y.head? = some a → a ∈ numberEnds) :
    tokens behind (('$' :: intText c) ++ y) = .int c :: tokens behind y := by
  rw [tokens_append (reads_constant hy), LexRule.action, List.drop_succ_cons, List.drop_zero,
    atoi_intText]
  rfl

theorem tokens_space (hy : ∀ a, y.head? = some a → isSolid a = true) :
    tokens behind ([' '] ++ y) = .space :: tokens behind y := tokens_append (reads_space hy)

theorem tokens_comma (hy : ∀ a, y.head? = some a → isSolid a = true) :
    tokens behind ([',', ' '] ++ y) = .comma :: tokens behind y := tokens_append (reads_comma hy)

theorem tokens_endl (hy : ∀ a, y.head? = some a → isSolid a = true) :
    tokens behind (['\n'] ++ y) = .endl :: tokens behind y := tokens_append (reads_endl hy)

theorem tokens_movl :
    tokens behind ("movl".toList ++ y) = .opMovl "movl" :: tokens behind y := by
  have hreads : Reads .opMovl "movl".toList y := reads_lit rfl rfl (by decide)
  exact tokens_append hreads

theorem tokens_imull :
    tokens behind ("imull".toList ++ y) = .opImull "imull" :: tokens behind y := by
  have hreads : Reads .opImull "imull".toList y := reads_lit rfl rfl (by decide)
  exact tokens_append hreads

theorem tokens_pushl :
    tokens behind ("pushl".toList ++ y) = .opPushl "pushl" :: tokens behind y := by
  have hreads : Reads .opPushl "pushl".toList y := reads_lit rfl rfl (by decide)
  exact tokens_append hreads

theorem int_solid (c : Dword) : ∀ a, (intText c ++ y).head? = some a → isSolid a = true := by
  have hall : ∀ p ∈ startRules, p.2 = [.int, .garbage] → isSolid p.1 = true := by decide
  obtain ⟨b, w, htext, hstart⟩ := intText_start c
  rw [htext]
  rintro a ⟨⟩
  exact hall _ hstart rfl

/-- **A line** is read as its tokens and its end. -/
theorem tokens_line (x : Line) (hy : ∀ a, y.head? = some a → isSolid a = true) :
    ∃ ts, ReadsAs behind x ts ∧ tokens behind (x.text ++ y) = ts ++ .endl :: tokens behind y := by
  cases x with
  | movl src dst =>
    refine ⟨_, .movl src dst, ?_⟩
    unfold Line.text
    generalize hop : "movl".toList = op
    simp only [List.append_assoc]
    subst hop
    refine tokens_movl.trans ?_
    rw [tokens_space (reg_solid src), tokens_reg, tokens_comma (reg_solid dst),
      tokens_reg, tokens_endl hy]
    rfl
  | movlStore c offset base =>
    obtain ⟨b, hb⟩ := @tokens_mreg behind (['\n'] ++ y) base
    refine ⟨_, .movlStore c offset base b, ?_⟩
    unfold Line.text
    generalize hop : "movl".toList = op
    simp only [List.append_assoc] at hb ⊢
    subst hop
    refine tokens_movl.trans ?_
    rw [tokens_space (by rintro a ⟨⟩; rfl), tokens_constant (by rintro a ⟨⟩; decide),
      tokens_comma (int_solid offset), tokens_int (by rintro a ⟨⟩; decide), hb, tokens_endl hy]
    rfl
  | movlLoad offset base dst =>
    obtain ⟨b, hb⟩ := @tokens_mreg behind ([',', ' '] ++ (dst.text ++ (['\n'] ++ y))) base
    refine ⟨_, .movlLoad offset base dst b, ?_⟩
    unfold Line.text
    generalize hop : "movl".toList = op
    simp only [List.append_assoc] at hb ⊢
    subst hop
    refine tokens_movl.trans ?_
    rw [tokens_space (int_solid offset), tokens_int (by rintro a ⟨⟩; decide), hb,
      tokens_comma (reg_solid dst), tokens_reg, tokens_endl hy]
    rfl
  | imull src dst =>
    refine ⟨_, .imull src dst, ?_⟩
    unfold Line.text
    generalize hop : "imull".toList = op
    simp only [List.append_assoc]
    subst hop
    refine tokens_imull.trans ?_
    rw [tokens_space (reg_solid src), tokens_reg, tokens_comma (reg_solid dst),
      tokens_reg, tokens_endl hy]
    rfl
  | pushl src =>
    refine ⟨_, .pushl src, ?_⟩
    unfold Line.text
    generalize hop : "pushl".toList = op
    simp only [List.append_assoc]
    subst hop
    refine tokens_pushl.trans ?_
    rw [tokens_space (reg_solid src), tokens_reg, tokens_endl hy]
    rfl

theorem source_solid (xs : List Line) :
    ∀ a, (source xs).head? = some a → isSolid a = true := by
  cases xs with
  | nil => exact nofun
  | cons x xs =>
    cases x <;> rintro a ⟨⟩ <;> rfl

/-- **A program** is read line by line. -/
theorem source_tokens (xs : List Line) :
    ∃ tss, List.Forall₂ (ReadsAs behind) xs tss ∧
      tokens behind (source xs) = tss.flatMap fun ts => ts ++ [.endl] := by
  induction xs with
  | nil => exact ⟨[], .nil, by rw [source, List.flatMap_nil, tokens, lexemes, scan_nil]; rfl⟩
  | cons x xs ih =>
    obtain ⟨tss, hall, htokens⟩ := ih
    obtain ⟨ts, hts, hline⟩ := @tokens_line behind _ x (source_solid xs)
    refine ⟨ts :: tss, .cons hts hall, ?_⟩
    rw [source, List.flatMap_cons, ← source, hline, htokens, List.flatMap_cons, List.append_assoc]
    rfl

end

end X86
