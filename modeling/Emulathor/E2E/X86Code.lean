import Mathlib.Data.List.Forall2
import Emulathor.Assembler.Proof.Parse
import Emulathor.Assembler.Proof.X86tov
import Emulathor.E2E.Placed
import Emulathor.E2E.X86

/-!
# The code for x86 lines

What x86tov prints for lines on registers is assembled to one instruction a line (`code_exists`).
-/

namespace E2E

open Common Lib Assembler
open X86 (Reg Line ReadsAs source)

/-! ## VA lines -/

/-- The register `translate_reg` names. -/
def vaRegister : Reg → String
  | .eax => "R0"
  | .ebx => "R1"
  | .ecx => "R2"
  | .edx => "R3"
  | .ebp => "BP"
  | .esp => "SP"

theorem vaRegister_mem (r : Reg) : vaRegister r ∈ reg32Names := by cases r <;> decide

def vaName (r : Reg) : Name reg32Names := ⟨vaRegister r, vaRegister_mem r⟩

/-- The name, in the case it is printed in. -/
def vaText (r : Reg) : List Char := (X86tov.translateReg r.name).toList

theorem vaText_upper (r : Reg) : (vaText r).map Char.toUpper = (vaName r).val.toList := by
  cases r <;> decide

/-- Its operands are registers. -/
def OnRegisters : Line → Prop
  | .movl _ _ | .imull _ _ | .pushl _ => True
  | .movlStore _ _ _ | .movlLoad _ _ _ => False

/-- A mnemonic and registers. -/
structure VaLine where
  token : Token
  mnemonic : String
  regs : List Reg

def vaLine : Line → VaLine
  | .movl src dst => ⟨.opSMov, "mov", [src, dst]⟩
  | .imull src dst => ⟨.opFmtII ⟨"MUL", by decide⟩, "mul", [src, src, dst]⟩
  | .pushl src => ⟨.opPseudoPush, "push", [src]⟩
  | .movlStore _ _ _ | .movlLoad _ _ _ => ⟨.garbage, "", []⟩

def regsText : List Reg → List Char
  | [] => []
  | [r] => vaText r
  | r :: rs => vaText r ++ ([',', ' '] ++ regsText rs)

def VaLine.text (l : VaLine) : List Char :=
  l.mnemonic.toList ++ (['\t', '\t'] ++ (regsText l.regs ++ ['\n']))

def VaLine.tokens (l : VaLine) : List Token :=
  l.token :: .space :: (l.regs.map fun r => Token.reg32 (vaName r)).intersperse .comma

theorem name_newline (r : Reg) : '\n' ∉ r.name.toList := by cases r <;> decide

theorem flatten_ended {α β : Type} (f : α → List β) (ending : List β) (l : List α) :
    (l.flatMap fun a => [f a, ending]).flatten = l.flatMap fun a => f a ++ ending := by
  induction l with
  | nil => rfl
  | cons a l ih =>
    rw [List.flatMap_cons, List.flatten_append, ih, List.flatMap_cons]
    simp

/-- The line is read, and this printed for it. -/
def Printed (behind : Nat → List Char) (x : Line) (out : String) : Prop :=
  ∃ ts, ReadsAs behind x ts ∧ X86tov.exp ts = some out

section
variable {behind : Nat → List Char} {x : Line} {xs : List Line} {out : String} {outs : List String}

theorem Printed.start (h : Printed behind x out) : ∃ w, out.toList = ';' :: w := by
  obtain ⟨ts, hts, hout⟩ := h
  cases hts <;> cases hout <;> exact ⟨_, by simp only [String.toList_append]; rfl⟩

/-- A comment and a VA line are printed. -/
theorem Printed.text (h : Printed behind x out) (hx : OnRegisters x) :
    ∃ w, '\n' ∉ w ∧ out.toList = ';' :: w ++ ['\n'] ++ (vaLine x).text := by
  obtain ⟨ts, hts, hout⟩ := h
  cases hts with
  | movl src dst =>
    cases hout
    refine ⟨(" movl %" ++ src.name ++ ", %" ++ dst.name).toList, ?_, ?_⟩
    · simp [name_newline]
    · simp [vaLine, VaLine.text, regsText, vaText]
  | imull src dst =>
    cases hout
    refine ⟨(" imull %" ++ src.name ++ ", %" ++ dst.name).toList, ?_, ?_⟩
    · simp [name_newline]
    · simp [vaLine, VaLine.text, regsText, vaText]
  | pushl src =>
    cases hout
    refine ⟨(" pushl %" ++ src.name).toList, ?_, ?_⟩
    · simp [name_newline]
    · simp [vaLine, VaLine.text, regsText, vaText]
  | movlStore => exact hx.elim
  | movlLoad => exact hx.elim

theorem printed_solid (h : List.Forall₂ (Printed behind) xs outs) :
    ∀ a, (outs.flatMap String.toList).head? = some a → isSolid a = true := by
  cases h with
  | nil => exact nofun
  | cons hout =>
    obtain ⟨w, hw⟩ := hout.start
    rw [List.flatMap_cons, hw]
    rintro a ⟨⟩
    rfl

/-- **What x86tov prints**, line by line. -/
theorem source_printed (hne : xs ≠ []) : ∃ outs out, List.Forall₂ (Printed behind) xs outs ∧
    X86tov.Translates behind (source xs) out ∧ out.toList = outs.flatMap String.toList := by
  obtain ⟨tss, htss, hsource⟩ := @X86.source_tokens behind xs
  have hprinted : ∃ outs, List.Forall₂ (Printed behind) xs outs ∧
      List.Forall₂ (fun line o => X86tov.exp line = some o)
        (tss.flatMap fun ts => [ts, [.endl]]) (outs.flatMap fun o => [o, ""]) := by
    clear hne hsource
    induction htss with
    | nil => exact ⟨[], .nil, .nil⟩
    | @cons x ts xs tss hts htss ih =>
      obtain ⟨outs, hall, hexp⟩ := ih
      obtain ⟨o, ho⟩ : ∃ o, X86tov.exp ts = some o := by cases hts <;> exact ⟨_, rfl⟩
      exact ⟨o :: outs, .cons ⟨ts, hts, ho⟩ hall, .cons ho (.cons rfl hexp)⟩
  obtain ⟨outs, hall, hexp⟩ := hprinted
  have htne : (tss.flatMap fun ts => [ts, [X86tov.Token.endl]]) ≠ [] := by
    cases htss with
    | nil => exact absurd rfl hne
    | cons => exact List.cons_ne_nil _ _
  obtain ⟨out, hout, hlist⟩ := X86tov.exps_of_forall htne hexp
  refine ⟨outs, out, hall, ⟨_, (flatten_ended id _ tss).trans hsource.symm, hout⟩, ?_⟩
  rw [hlist, List.flatMap_assoc]
  refine List.flatMap_congr fun o _ => ?_
  show o.toList ++ ([] ++ []) = o.toList
  rw [List.append_nil, List.append_nil]

end

section
variable {y : List Char} {tokens : List Token}

theorem vaText_solid (r : Reg) : ∀ a, (vaText r ++ y).head? = some a → isSolid a = true :=
  word_solid (mem_vocabulary (i := .reg32) (vaName r).2) (vaText_upper r)

theorem lexes_va (r : Reg) (hy : ∀ a, y.head? = some a → a ∈ delimiters) :
    Lexes (vaText r) (.reg32 (vaName r)) y := lexes_reg32 (vaName r) (vaText_upper r) hy

theorem regsText_solid {rs : List Reg} (hrs : rs ≠ []) :
    ∀ a, (regsText rs ++ y).head? = some a → isSolid a = true := by
  match rs with
  | [] => exact absurd rfl hrs
  | [r] => exact vaText_solid r
  | r :: r' :: rs =>
    rw [regsText, List.append_assoc]
    · exact vaText_solid r
    · exact List.cons_ne_nil _ _

theorem lexText_regs (hd : ∀ a, y.head? = some a → a ∈ delimiters) : ∀ rs : List Reg,
    lexText (regsText rs ++ y) = (lexText y).map
      ((rs.map fun r => Token.reg32 (vaName r)).intersperse .comma ++ ·)
  | [] => by
    rw [regsText, List.nil_append]
    cases lexText y <;> rfl
  | [r] => (lexes_va r hd).append_eq
  | r :: r' :: rs => by
    have hrest := lexText_regs hd (r' :: rs)
    have hcomma : Lexes [',', ' '] .comma (regsText (r' :: rs) ++ y) :=
      lexes_comma (by decide) (regsText_solid (List.cons_ne_nil _ _))
    have hreg : Lexes (vaText r) (.reg32 (vaName r))
        ([',', ' '] ++ (regsText (r' :: rs) ++ y)) := by
      refine lexes_va r ?_
      rintro a ⟨⟩
      decide
    rw [regsText, List.append_assoc, List.append_assoc, hreg.append_eq, hcomma.append_eq, hrest]
    · cases lexText y <;> rfl
    · exact List.cons_ne_nil _ _

/-- **A VA line** is read as its tokens and its end. -/
theorem lexText_vaLine {x : Line} (hx : OnRegisters x)
    (hs : ∀ a, y.head? = some a → isSolid a = true) : lexText ((vaLine x).text ++ y)
      = (lexText y).map ((vaLine x).tokens ++ .endl :: ·) := by
  have hdel : ∀ a, (['\n'] ++ y).head? = some a → a ∈ delimiters := by
    rintro a ⟨⟩
    decide
  have hne : (vaLine x).regs ≠ [] := by
    cases x with
    | movl | imull | pushl => exact List.cons_ne_nil _ _
    | movlStore | movlLoad => exact hx.elim
  have hblank : Lexes ['\t', '\t'] .space (regsText (vaLine x).regs ++ (['\n'] ++ y)) :=
    lexes_blanks (List.cons_ne_nil _ _) (by decide) (regsText_solid hne)
  have hop : Lexes (vaLine x).mnemonic.toList (vaLine x).token
      (['\t', '\t'] ++ (regsText (vaLine x).regs ++ (['\n'] ++ y))) := by
    have htab : ∀ a, (['\t', '\t'] ++ (regsText (vaLine x).regs ++ (['\n'] ++ y))).head? = some a →
        a ∈ delimiters := by
      rintro a ⟨⟩
      decide
    cases x with
    | movl =>
      have hup : "mov".toList.map Char.toUpper = "MOV".toList := by decide
      exact lexes_op (i := .opSMov) (by decide) hup rfl htab
    | imull =>
      have hup : "mul".toList.map Char.toUpper = "MUL".toList := by decide
      have hmem : "MUL" ∈ LexRule.opFmtII.spellings := by decide
      exact lexes_named (i := .opFmtII) rfl rfl _ hup
        (stops_delimiter (mem_vocabulary hmem) hup htab)
    | pushl =>
      have hup : "push".toList.map Char.toUpper = "PUSH".toList := by decide
      exact lexes_op (i := .opPseudoPush) (by decide) hup rfl htab
    | movlStore | movlLoad => exact hx.elim
  rw [VaLine.text, List.append_assoc, List.append_assoc, List.append_assoc, hop.append_eq,
    hblank.append_eq, lexText_regs hdel, (lexes_endl hs).append_eq]
  cases lexText y <;> rfl

end

/-! ## Programs -/

/-- The instruction of a line on registers. -/
def lineCall : Line → Option EmitCall
  | .movl src dst => some (.fmtVI pfxDword cAlways Opcode.mov.code (getRegForName (vaName src))
    (getRegForName (vaName dst)))
  | .imull src dst => some (.fmtII pfxDword cAlways (getOpForName "MUL") (getRegForName (vaName src))
    (getRegForName (vaName src)) (getRegForName (vaName dst)))
  | .pushl src => some (.fmtIV pfxImm cAlways Opcode.storema.code (getRegForName "SP")
    (selfRange (getRegForName (vaName src))))
  | .movlStore _ _ _ | .movlLoad _ _ _ => none

/-- The bytes of a program on registers. -/
def codeOf (xs : List Line) : List Byte := (xs.filterMap lineCall).flatMap EmitCall.bytes

theorem exp_vaLine {x : Line} (hx : OnRegisters x) :
    ∃ c, lineCall x = some c ∧ exp (vaLine x).tokens = some [.call c] ∧ InRange c := by
  have hr (r : Reg) := getRegForName_lt (vaName r).val
  cases x with
  | movl src dst => exact ⟨_, rfl, rfl, ⟨by decide, by decide, by decide⟩, hr src, hr dst⟩
  | imull src dst => exact ⟨_, rfl, rfl, ⟨by decide, by decide, by decide⟩, hr src, hr src, hr dst⟩
  | pushl src => exact ⟨_, rfl, rfl, ⟨by decide, by decide, by decide⟩, by decide⟩
  | movlStore | movlLoad => exact hx.elim

/-- x86tov prints a text for the lines and vasm assembles it to the image, in any buffer large
enough. -/
def Code (behind : Nat → List Char) (xs : List Line) (img : List Byte) : Prop :=
  ∃ out tokens acts, X86tov.Translates behind (source xs) out ∧ lexText out.toList = .ok tokens ∧
    Parses tokens acts ∧ img.length = widthOf acts ∧
    ∀ size fixedSize heap, img.length ≤ (bufferSize size fixedSize).toNat →
      assemble size fixedSize heap acts = .ok img

/-- What is printed for lines on registers, and how vasm reads it. -/
theorem lexText_printed {behind : Nat → List Char} {xs : List Line} {outs : List String}
    (hx : ∀ x ∈ xs, OnRegisters x) (h : List.Forall₂ (Printed behind) xs outs) :
    lexText (outs.flatMap String.toList)
      = .ok (xs.flatMap fun x => (vaLine x).tokens ++ [.endl]) := by
  induction h with
  | nil => exact lexText_nil
  | @cons x out xs outs hout hall ih =>
    obtain ⟨w, hw, htext⟩ := hout.text (hx x (.head _))
    rw [List.flatMap_cons, htext, List.append_assoc, lexText_comment hw,
      lexText_vaLine (hx x (.head _)) (printed_solid hall), ih fun x hm => hx x (.tail _ hm),
      List.flatMap_cons, List.append_assoc]
    rfl

theorem flatten_calls (cs : List EmitCall) :
    (cs.flatMap fun c => [[Statement.call c], []]).flatten = cs.map .call := by
  induction cs with
  | nil => rfl
  | cons c cs ih =>
    rw [List.flatMap_cons, List.flatten_append, ih]
    rfl

/-- The lines are lines of vasm's grammar. -/
theorem vaLines_exp {xs : List Line} (hx : ∀ x ∈ xs, OnRegisters x) :
    List.Forall₂ (fun line a => exp line = some a)
        (xs.flatMap fun x => [(vaLine x).tokens, [.endl]])
        ((xs.filterMap lineCall).flatMap fun c => [[.call c], []]) ∧
      ∀ c ∈ xs.filterMap lineCall, InRange c := by
  induction xs with
  | nil => exact ⟨.nil, nofun⟩
  | cons x xs ih =>
    obtain ⟨hexp, hr⟩ := ih fun x hm => hx x (.tail _ hm)
    obtain ⟨c, hc, hline, hrange⟩ := exp_vaLine (hx x (.head _))
    rw [List.filterMap_cons_some hc]
    exact ⟨.cons hline (.cons rfl hexp), List.forall_mem_cons.2 ⟨hrange, hr⟩⟩

/-- **A program on registers** is translated and assembled. -/
theorem code_exists {behind : Nat → List Char} {xs : List Line} (hne : xs ≠ [])
    (hx : ∀ x ∈ xs, OnRegisters x) : Code behind xs (codeOf xs) := by
  obtain ⟨outs, out, hprinted, htranslates, hlist⟩ := @source_printed behind xs hne
  obtain ⟨hlines, hr⟩ := vaLines_exp hx
  have hlne : (xs.flatMap fun x => [(vaLine x).tokens, [Token.endl]]) ≠ [] := by
    cases xs with
    | nil => exact absurd rfl hne
    | cons => exact List.cons_ne_nil _ _
  have hexps := exps_of_forall hlne hlines
  rw [flatten_calls] at hexps
  have hlen : (codeOf xs).length = widthOf ((xs.filterMap lineCall).map .call) := by
    rw [codeOf, length_inRange hr, widthOf_inRange hr]
  have hparse : Parses (xs.flatMap fun x => (vaLine x).tokens ++ [.endl])
      ((xs.filterMap lineCall).map .call) := ⟨_, flatten_ended _ _ xs, hexps⟩
  have hlex := lexText_printed hx hprinted
  rw [← hlist] at hlex
  exact ⟨out, _, _, htranslates, hlex, hparse, hlen,
    fun size fixedSize heap hfit => assemble_calls hr (roomy_of_le (hlen ▸ hfit))⟩

theorem Code.unique {behind : Nat → List Char} {xs : List Line} {img img' : List Byte}
    (hsize : img.length < 2 ^ 32) (h : Code behind xs img) (h' : Code behind xs img') :
    img = img' := by
  obtain ⟨out, tokens, acts, hout, hlex, hparse, hlen, himg⟩ := h
  obtain ⟨out', tokens', acts', hout', hlex', hparse', hlen', himg'⟩ := h'
  obtain rfl := hout.unique hout'
  obtain rfl := Except.ok.inj (hlex.symm.trans hlex')
  obtain rfl := hparse.unique hparse'
  have hfit : img.length ≤ (bufferSize (BitVec.ofNat 32 img.length) true).toNat := by
    show img.length ≤ (BitVec.ofNat 32 img.length).toNat
    rw [BitVec.toNat_ofNat, Nat.mod_eq_of_lt hsize]
  have hok := himg _ true (fun _ => 0) hfit
  rw [himg' _ true (fun _ => 0) (by rw [hlen', ← hlen]; exact hfit)] at hok
  exact (Except.ok.inj hok).symm

/-! ## Lines in memory

They load a constant without the sign of a 32 bit constant, which the lexer reads as a 16 bit one. -/

theorem intText_start (c : Dword) : ∃ a w, X86.intText c = a :: w ∧
    (a, [LexRule.hex32bit, .hex, .int, .garbage]) ∈ startRules := by
  have hall : ∀ p ∈ X86.startRules, p.2 = [.int, .garbage] →
      (p.1, [LexRule.hex32bit, .hex, .int, .garbage]) ∈ startRules := by decide
  obtain ⟨a, w, htext, hstart⟩ := X86.intText_start c
  exact ⟨a, w, htext, hall _ hstart rfl⟩

/-- The constant is out of range or read as one of 16 bits. -/
theorem lexText_int {c : Dword} {y : List Char} (hy : ∀ a, y.head? = some a → a ∈ delimiters)
    {tokens : List Token} (h : lexText (X86.intText c ++ y) = .ok tokens) :
    ∃ k more, tokens = .int k :: more := by
  obtain ⟨a, w, htext, hstart⟩ := intText_start c
  have hmatches := X86.matches_intText c
  rw [htext] at h hmatches
  rw [lexText_cons (isLexeme_int hstart hmatches) (stops_number hstart hy), LexRule.action] at h
  obtain ⟨token, htoken, h⟩ := bind_eq_ok.1 h
  obtain ⟨more, -, h⟩ := bind_eq_ok.1 h
  cases hk : to16BitInt (a :: w) with
  | error e =>
    rw [hk] at htoken
    cases htoken
  | ok k =>
    rw [hk] at htoken
    cases htoken
    exact ⟨k, more, (Except.ok.inj h).symm⟩

theorem not_parses_load32 {k : Word} {r : Name reg32Names} {tokens : List Token} {acts : Action} :
    ¬ Parses (.opPseudoLoad32 :: .space :: .reg32 r :: .comma :: .int k :: tokens) acts := by
  intro h
  obtain ⟨line, rest, a, hline, ha⟩ := h.head
  cases line with
  | nil => cases ha
  | cons t line =>
    obtain ⟨rfl, hrest⟩ := List.cons.inj hline
    change expLoad32 line = some a at ha
    unfold expLoad32 at ha
    split at ha
    all_goals first | cases hrest | cases ha

theorem Parses_endl {tokens : List Token} {acts : Action} (h : Parses (.endl :: tokens) acts) :
    tokens = [] ∨ ∃ acts', Parses tokens acts' := by
  obtain ⟨lines, hf, h⟩ := h
  cases lines with
  | nil => cases h
  | cons line lines =>
    obtain ⟨a, ha, hls⟩ := exps_cons h
    cases line with
    | nil => cases ha
    | cons t line =>
      obtain ⟨rfl, hrest⟩ := List.cons.inj hf
      cases line with
      | cons t line => cases ha
      | nil =>
        obtain ⟨rfl, -⟩ | ⟨b, hb, -⟩ := hls
        · exact .inl hrest.symm
        · exact .inr ⟨b, lines, hrest, hb⟩

def nameRA : Name reg32Names := ⟨"RA", by decide⟩

/-- The lines that load an offset, up to the offset. -/
def loadText (y : List Char) : List Char :=
  "xchg".toList ++ (['\t', '\t'] ++ ("ra".toList ++ ([',', ' '] ++ ("r0".toList ++ (['\n'] ++
    ("load32".toList ++ (['\t', '\t'] ++ ("r0".toList ++ ([',', ' '] ++ y)))))))))

def xchgTokens : List Token :=
  [.opFmtVI ⟨"XCHG", by decide⟩, .space, .reg32 nameRA, .comma, .reg32 (vaName .eax)]

theorem lexText_loadText {y : List Char} (hs : ∀ a, y.head? = some a → isSolid a = true) :
    lexText (loadText y) = (lexText y).map (xchgTokens ++
      .endl :: .opPseudoLoad32 :: .space :: .reg32 (vaName .eax) :: .comma :: ·) := by
  have htab {z : List Char} : ∀ a, (['\t', '\t'] ++ z).head? = some a → a ∈ delimiters := by
    rintro a ⟨⟩
    decide
  have hra : "ra".toList.map Char.toUpper = "RA".toList := by decide
  have hr0 : "r0".toList.map Char.toUpper = "R0".toList := by decide
  have hxchg : "xchg".toList.map Char.toUpper = "XCHG".toList := by decide
  have hload : "load32".toList.map Char.toUpper = "LOAD32".toList := by decide
  have hmemX : "XCHG" ∈ LexRule.opFmtVI.spellings := by decide
  have hmemL : "LOAD32" ∈ LexRule.opPseudoLoad32.spellings := by decide
  have hsolid {s : String} {w z : List Char} (hs : s ∈ vocabulary)
      (hw : w.map Char.toUpper = s.toList) := word_solid (y := z) hs hw
  have hregRA : "RA" ∈ vocabulary := mem_vocabulary (i := .reg32) nameRA.2
  have hregR0 : "R0" ∈ vocabulary := mem_vocabulary (i := .reg32) (vaName .eax).2
  have hop {z : List Char} : Lexes "xchg".toList (.opFmtVI ⟨"XCHG", by decide⟩)
      (['\t', '\t'] ++ z) :=
    lexes_named (i := .opFmtVI) rfl rfl _ hxchg (stops_delimiter (mem_vocabulary hmemX) hxchg htab)
  have hop' {z : List Char} : Lexes "load32".toList .opPseudoLoad32 (['\t', '\t'] ++ z) :=
    lexes_op hmemL hload rfl htab
  have hblank {z : List Char} (hz : ∀ a, z.head? = some a → isSolid a = true) :
      Lexes ['\t', '\t'] .space z := lexes_blanks (List.cons_ne_nil _ _) (by decide) hz
  have hcomma {z : List Char} (hz : ∀ a, z.head? = some a → isSolid a = true) :
      Lexes [',', ' '] .comma z := lexes_comma (by decide) hz
  have hRA {z : List Char} : Lexes "ra".toList (.reg32 nameRA) ([',', ' '] ++ z) :=
    lexes_reg32 nameRA hra (by rintro a ⟨⟩; decide)
  have hR0 {z : List Char} : Lexes "r0".toList (.reg32 (vaName .eax)) ([',', ' '] ++ z) :=
    lexes_reg32 (vaName .eax) hr0 (by rintro a ⟨⟩; decide)
  have hR0' {z : List Char} : Lexes "r0".toList (.reg32 (vaName .eax)) (['\n'] ++ z) :=
    lexes_reg32 (vaName .eax) hr0 (by rintro a ⟨⟩; decide)
  rw [loadText, hop.append_eq, (hblank (hsolid hregRA hra)).append_eq, hRA.append_eq,
    (hcomma (hsolid hregR0 hr0)).append_eq, hR0'.append_eq,
    (lexes_endl (hsolid (mem_vocabulary hmemL) hload)).append_eq, hop'.append_eq,
    (hblank (hsolid hregR0 hr0)).append_eq, hR0.append_eq, (hcomma hs).append_eq]
  cases lexText y <;> rfl

/-- A line in memory is not assembled. -/
theorem not_parses_memory {c : Dword} {z : List Char} {tokens : List Token}
    (hlex : lexText (loadText (X86.intText c ++ ('\n' :: z))) = .ok tokens) :
    tokens ≠ [] ∧ ∀ acts, ¬ Parses tokens acts := by
  have hnl : ∀ a, ('\n' :: z).head? = some a → a ∈ delimiters := by
    rintro a ⟨⟩
    decide
  rw [lexText_loadText (X86.int_solid c)] at hlex
  cases hint : lexText (X86.intText c ++ ('\n' :: z)) with
  | error e =>
    rw [hint] at hlex
    cases hlex
  | ok rest =>
    obtain ⟨k, more, rfl⟩ := lexText_int hnl hint
    rw [hint] at hlex
    cases hlex
    refine ⟨List.cons_ne_nil _ _, fun acts h => ?_⟩
    obtain ⟨acts1, h1⟩ := Parses.peel h (show exp xchgTokens = some _ from rfl) nofun
    obtain ⟨h, -⟩ | ⟨acts2, h2⟩ := Parses_endl h1
    exact not_parses_load32 h2

theorem printInt_newline (c : Dword) : '\n' ∉ (X86tov.printInt c).toList := by
  intro h
  have hnum := matches_int (X86.matches_intText c) '\n' h
  exact absurd hnum (by decide)

section
variable {behind : Nat → List Char} (hb : ∀ n, '\n' ∉ behind n)
include hb

/-- A comment and lines that load a constant without its sign are printed. -/
theorem Printed.memory {x : Line} {out : String} (h : Printed behind x out)
    (hx : ¬ OnRegisters x) : ∃ w c z, '\n' ∉ w ∧
      out.toList = ';' :: w ++ ['\n'] ++ loadText (X86.intText c ++ '\n' :: z) := by
  obtain ⟨ts, hts, hout⟩ := h
  cases hts with
  | movlStore c offset base n =>
    cases hout
    refine ⟨(" movl " ++ X86tov.printInt c ++ ", " ++ X86tov.printInt offset ++ "(%").toList
      ++ (base.name.toList ++ behind n) ++ [')'], offset, ("xchg\t\tra, r0\n"
      ++ X86tov.loadConstant c ++ ("storerd\t\t" ++ X86tov.translateReg
        (String.ofList (base.name.toList ++ behind n)) ++ ", ra, r5\n")).toList, ?_, ?_⟩
    · simp [name_newline, printInt_newline, hb]
    · simp [X86tov.loadOffset, loadText, X86.intText]
  | movlLoad offset base dst n =>
    cases hout
    refine ⟨(" movl " ++ X86tov.printInt offset ++ "(%").toList
      ++ (base.name.toList ++ behind n) ++ ("), " ++ dst.name).toList, offset, ("xchg\t\tra, r0\n"
      ++ ("loadrd\t\t" ++ X86tov.translateReg dst.name ++ ", " ++ X86tov.translateReg
        (String.ofList (base.name.toList ++ behind n)) ++ ", ra\n")).toList, ?_, ?_⟩
    · simp [name_newline, printInt_newline, hb]
    · simp [X86tov.loadOffset, loadText, X86.intText]
  | movl | imull | pushl => exact absurd trivial hx

/-- **A program with a line in memory** is not assembled. -/
theorem onRegisters_of_parses {xs : List Line} {outs : List String}
    (h : List.Forall₂ (Printed behind) xs outs) : ∀ tokens,
      lexText (outs.flatMap String.toList) = .ok tokens →
      (tokens = [] ∨ ∃ acts, Parses tokens acts) → ∀ x ∈ xs, OnRegisters x := by
  induction h with
  | nil => exact fun _ _ _ => nofun
  | @cons x out xs outs hout hall ih =>
    intro tokens hlex hparse
    rw [List.flatMap_cons] at hlex
    by_cases hx : OnRegisters x
    · obtain ⟨w, hw, htext⟩ := hout.text hx
      rw [htext, List.append_assoc, lexText_comment hw,
        lexText_vaLine hx (printed_solid hall)] at hlex
      obtain ⟨c, -, hline, -⟩ := exp_vaLine hx
      cases hrest : lexText (outs.flatMap String.toList) with
      | error e =>
        rw [hrest] at hlex
        cases hlex
      | ok rest =>
        rw [hrest] at hlex
        cases hlex
        obtain h | ⟨acts, h⟩ := hparse
        · cases h
        · obtain ⟨acts1, h1⟩ := Parses.peel h hline nofun
          exact List.forall_mem_cons.2 ⟨hx, ih rest hrest (Parses_endl h1)⟩
    · obtain ⟨w, c, z, hw, htext⟩ := hout.memory hb hx
      have hload {y z : List Char} : loadText y ++ z = loadText (y ++ z) := by simp [loadText]
      rw [htext, List.append_assoc, lexText_comment hw, hload, List.append_assoc,
        List.cons_append] at hlex
      obtain ⟨hne, hnot⟩ := not_parses_memory hlex
      obtain h | ⟨acts, h⟩ := hparse
      · exact absurd h hne
      · exact absurd h (hnot acts)

/-- **Only programs on registers** have code. -/
theorem Code.onRegisters {xs : List Line} {img : List Byte} (h : Code behind xs img) :
    ∀ x ∈ xs, OnRegisters x := by
  obtain ⟨out, tokens, acts, hout, hlex, hparse, -⟩ := h
  by_cases hne : xs = []
  · rw [hne]
    exact nofun
  · obtain ⟨outs, out', hprinted, htranslates, hlist⟩ := @source_printed behind xs hne
    obtain rfl := hout.unique htranslates
    rw [hlist] at hlex
    exact onRegisters_of_parses hb hprinted tokens hlex (.inr ⟨acts, hparse⟩)

end

end E2E
