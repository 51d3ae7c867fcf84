import Emulathor.Assembler.Proof.Lines
import Emulathor.Disassembler.Proof.Vdis
import Emulathor.E2E.ControlMove
import Emulathor.E2E.Emitted
import Emulathor.E2E.Load32
import Emulathor.E2E.Placed
import Emulathor.E2E.Reassemble

/-!
# Disassembling a program and assembling it again

vdis writes a line for each instruction of an image, and vasm reads them back. Both keep the
instructions that vasm emits (`EmittedCall`): the text that vdis writes for the image of a program of
instructions, labels and offsets is assembled to the same image (`vdis_vasm`). The names of the labels
are lost, and no control register may be emitted with a number that vdis has no name for
(`CregNamed`).
-/

namespace E2E

open Common Lib Cpu Assembler Disassembler

/-! ## The lines of an image -/

/-- The text printed for the four bytes of a word. -/
def wordText : List Byte → String
  | [b0, b1, b2, b3] => vasmdisDisasmInstruction b0 b1 b2 b3
  | _ => ""

/-- The text printed for an instruction. -/
def lineOf (c : EmitCall) : String := wordText c.bytes

theorem InRange.length {c : EmitCall} (h : InRange c) : c.bytes.length = 4 := by
  obtain ⟨b0, b1, b2, b3, hb⟩ := h.bytes
  rw [hb]
  rfl

section
variable {ws pre post : List (List Byte)} {w : List Byte}

theorem length_words (h : ∀ w ∈ ws, w.length = 4) : ws.flatten.length = 4 * ws.length := by
  rw [List.length_flatten, List.eq_replicate_of_mem (List.forall_mem_map.2 h),
    List.sum_replicate_nat, List.length_map, Nat.mul_comm]

/-- The word behind others. -/
theorem disasmAt_word (hpre : ∀ w ∈ pre, w.length = 4) (hw : w.length = 4)
    (hlt : 4 * pre.length < 2 ^ 32) :
    disasmAt (pre ++ w :: post).flatten (BitVec.ofNat 32 (4 * pre.length)) = .ok (wordText w) := by
  obtain ⟨b0, b1, b2, b3, rfl⟩ : ∃ b0 b1 b2 b3, w = [b0, b1, b2, b3] := by
    match w, hw with
    | [b0, b1, b2, b3], _ => exact ⟨b0, b1, b2, b3, rfl⟩
  have hlen := length_words hpre
  have hpos : (BitVec.ofNat 32 (4 * pre.length)).toNat = pre.flatten.length := by
    rw [BitVec.toNat_ofNat, Nat.mod_eq_of_lt hlt, hlen]
  have hget (k : Nat) (hk : k < 4) : filedata (pre ++ [b0, b1, b2, b3] :: post).flatten
      (pre.flatten.length + k) = .ok ([b0, b1, b2, b3].get ⟨k, hk⟩) := by
    rw [filedata, List.flatten_append, List.flatten_cons, List.append_assoc, List.append_assoc,
      List.getElem?_append_right (Nat.le_add_right _ _), Nat.add_sub_cancel_left,
      List.getElem?_append_left hk, List.getElem?_eq_getElem hk, List.get_eq_getElem]
  have h0 := hget 0 (by decide)
  have h1 := hget 1 (by decide)
  have h2 := hget 2 (by decide)
  have h3 := hget 3 (by decide)
  rw [Nat.add_zero] at h0
  rw [disasmAt, hpos, h0, h1, h2, h3]
  rfl

theorem mapM_disasmAt (hw : ∀ w ∈ pre ++ post, w.length = 4)
    (hlt : 4 * (pre ++ post).length < 2 ^ 32) :
    ((List.range' pre.length post.length).map fun j => BitVec.ofNat 32 (4 * j)).mapM
        (disasmAt (pre ++ post).flatten) = .ok (post.map wordText) := by
  induction post generalizing pre with
  | nil => rfl
  | cons w post ih =>
    have hpre : ∀ w ∈ pre, w.length = 4 := fun v hv => hw v (List.mem_append_left _ hv)
    have hfirst : w.length = 4 := hw w (List.mem_append_right _ (.head _))
    have hsnoc : pre ++ w :: post = pre ++ [w] ++ post := List.append_cons ..
    have hlen : (pre ++ [w]).length = pre.length + 1 := by rw [List.length_append]; rfl
    have hrest := @ih (pre ++ [w]) (hsnoc ▸ hw) (hsnoc ▸ hlt)
    rw [← hsnoc, hlen] at hrest
    rw [List.length_append] at hlt
    rw [List.length_cons, List.range'_succ, List.map_cons, List.mapM_cons,
      disasmAt_word hpre hfirst (by omega), hrest]
    rfl

/-- **vdis** writes the line of each word. -/
theorem vdis_words (hw : ∀ w ∈ ws, w.length = 4) (hlt : 4 * ws.length < 2 ^ 32) :
    ∃ k s, iterate (vdisIteration ws.flatten) k vdisInit = .ok (.ret () s) ∧
      s.file = ws.map wordText := by
  have hlen := length_words hw
  have hdis : Disassembles ws.flatten := disassembles_of_dvd (by omega) (by omega)
  obtain ⟨k, s, hrun, hin, hcalls, hfile⟩ := hdis
  refine ⟨k, s, hrun, ?_⟩
  have hall : s.calls.filter (fun pos => pos.toNat + 4 ≤ ws.flatten.length) = s.calls := by
    refine List.filter_eq_self.2 fun pos hpos => decide_eq_true ?_
    have := hin pos hpos 3 (by decide)
    omega
  have hpos : s.calls = (List.range ws.length).map fun j => BitVec.ofNat 32 (4 * j) := by
    rw [hall, hlen, Nat.mul_div_cancel_left _ (by decide)] at hcalls
    refine List.map_injective_iff.2 (fun _ _ => BitVec.eq_of_toNat_eq) ?_
    rw [hcalls, List.map_map]
    refine List.map_congr_left fun j hj => ?_
    have := List.mem_range.1 hj
    rw [Function.comp_apply, BitVec.toNat_ofNat, Nat.mod_eq_of_lt (by omega)]
  have hlines := @mapM_disasmAt [] ws hw hlt
  rw [List.length_nil, ← List.range_eq_range', ← hpos, List.nil_append, hfile] at hlines
  exact Except.ok.inj hlines

end

/-- **vdis** writes the line of each instruction. -/
theorem vdis_lines {cs : List EmitCall} (hr : ∀ c ∈ cs, InRange c) (hlt : 4 * cs.length < 2 ^ 32) :
    ∃ k s, iterate (vdisIteration (cs.flatMap EmitCall.bytes)) k vdisInit = .ok (.ret () s) ∧
      s.file = cs.map lineOf := by
  have hw : ∀ w ∈ cs.map EmitCall.bytes, w.length = 4 :=
    List.forall_mem_map.2 fun c hc => (hr c hc).length
  obtain ⟨k, s, hrun, hfile⟩ := vdis_words hw (by rwa [List.length_map])
  rw [List.map_map] at hfile
  exact ⟨k, s, hrun, hfile⟩

/-! ## The text of a line -/

/-- A character of a name or number. -/
def isPlain (c : Char) : Bool := isSolid c && c != '\r' && c != ';'

theorem isPlain_solid {c : Char} (h : isPlain c = true) : isSolid c = true := by
  rw [isPlain, Bool.and_eq_true, Bool.and_eq_true] at h
  exact h.1.1

theorem leadsComma_solid {x : List Char} (h : ∀ a, x.head? = some a → isSolid a = true) :
    leadsComma x = false := by
  cases x with
  | nil => rfl
  | cons a x =>
    have ha := h a rfl
    rw [isSolid, Bool.and_eq_true, Bool.not_eq_true'] at ha
    rw [leadsComma, if_neg (by rw [ha.1]; exact Bool.false_ne_true), beq_eq_false_iff_ne]
    exact bne_iff_ne.1 ha.2

theorem leadsComma_of_not_mem {x : List Char} (h : ',' ∉ x) : leadsComma x = false := by
  by_contra hx
  induction x with
  | nil => exact hx rfl
  | cons a x ih =>
    rw [List.mem_cons, not_or] at h
    rw [leadsComma] at hx
    split at hx
    · exact ih h.2 hx
    · exact hx (beq_eq_false_iff_ne.2 (Ne.symm h.1))

/-- A name or number. -/
def PlainText (s : String) : Prop := s.toList ≠ [] ∧ ∀ c ∈ s.toList, isPlain c = true

theorem vocabulary_plain {s : String} (hs : s ∈ vocabulary) : PlainText s := by
  have hall : ∀ s ∈ vocabulary, s.toList ≠ [] ∧ ∀ c ∈ s.toList, isPlain c = true := by decide +kernel
  exact hall s hs

theorem operand_plain (o : Operand) : PlainText o.text := by
  cases o with
  | reg32 n => exact vocabulary_plain (mem_vocabulary (i := .reg32) n.2)
  | reg16 n => exact vocabulary_plain (mem_vocabulary (i := .reg16) n.2)
  | reg8 n => exact vocabulary_plain (mem_vocabulary (i := .reg8) n.2)
  | creg n => exact vocabulary_plain (mem_vocabulary (i := .creg) n.2)
  | imm k =>
    have hdigit : ∀ d < 16, isPlain (Nat.digitChar d) = true := by decide
    have hk := k.isLt
    show PlainText (hex4 k)
    rw [PlainText, hex4, String.toList_append, String.toList_ofList, String.toList_ofList]
    refine ⟨List.cons_ne_nil _ _, ?_⟩
    simp only [List.cons_append, List.nil_append, List.forall_mem_cons]
    exact ⟨rfl, rfl, hdigit _ (by omega), hdigit _ (by omega), hdigit _ (by omega),
      hdigit _ (by omega), List.forall_mem_nil _⟩

/-- Operands are of plain characters, commas and tabs. -/
theorem separated_plain : ∀ {texts : List String}, (∀ s ∈ texts, PlainText s) →
    ∀ c ∈ (separated texts).toList, isPlain c = true ∨ c ∈ [',', '\t']
  | [], _, _, hc => nomatch hc
  | [s], h, c, hc => .inl ((h s (.head _)).2 c hc)
  | s :: s' :: rest, h, c, hc => by
    rw [toList_separated, List.mem_append, List.mem_append] at hc
    rcases hc with hc | hc | hc
    · exact .inl ((h s (.head _)).2 c hc)
    · exact .inr hc
    · exact separated_plain (fun t ht => h t (.tail _ ht)) c hc

/-- The last character of operands is one of the last operand. -/
theorem separated_last : ∀ {s : String} {texts : List String}, (∀ t ∈ s :: texts, PlainText t) →
    ∃ x a, (separated (s :: texts)).toList = x ++ [a] ∧ isSolid a = true
  | s, [], h => by
    obtain ⟨hne, hplain⟩ := h s (.head _)
    obtain ⟨x, a, hxa⟩ := (List.eq_nil_or_concat s.toList).resolve_left hne
    rw [List.concat_eq_append] at hxa
    refine ⟨x, a, hxa, isPlain_solid (hplain a ?_)⟩
    rw [hxa]
    exact List.mem_append_right _ (.head _)
  | s, s' :: texts, h => by
    obtain ⟨x, a, hxa, ha⟩ := separated_last fun t ht => h t (.tail _ ht)
    refine ⟨s.toList ++ ([',', '\t'] ++ x), a, ?_, ha⟩
    rw [toList_separated, hxa]
    simp only [List.append_assoc]

theorem condText_plain (cond : Option (Name conditionNames)) :
    ∀ c ∈ (condText cond).toList, isPlain c = true := by
  cases cond with
  | none => exact List.forall_mem_nil _
  | some k => exact (vocabulary_plain (mem_vocabulary (i := .condition) k.2)).2

/-- A printed line. -/
structure Printout where
  tok : Token
  cond : Option (Name conditionNames)
  texts : List String
  isOp : IsOp tok
  plain : ∀ s ∈ texts, PlainText s

namespace Printout

variable (p : Printout)

def text : List Char := (condLine p.tok p.cond p.texts).toList

theorem mnemonic_mem : mnemonic p.tok ∈ vocabulary := by
  obtain ⟨i, -, hs, -⟩ := p.isOp
  exact mem_vocabulary hs

theorem text_plain : ∀ c ∈ p.text, isPlain c = true ∨ c ∈ [',', '\t'] := by
  have htabs : ∀ c ∈ ['\t', '\t'], c ∈ [',', '\t'] := by decide
  intro c hc
  rw [text, toList_condLine, List.mem_append, List.mem_append, List.mem_append] at hc
  rcases hc with hc | hc | hc | hc
  · exact .inl ((vocabulary_plain p.mnemonic_mem).2 c hc)
  · exact .inl (condText_plain p.cond c hc)
  · exact .inr (htabs c hc)
  · exact separated_plain p.plain c hc

theorem text_last : leadsComma p.text.reverse = false := by
  rw [text, toList_condLine]
  cases htexts : p.texts with
  | nil =>
    have hcomma : isPlain ',' = false := by decide
    have htab : ',' ∉ ['\t', '\t'] ++ (separated []).toList := by decide
    refine leadsComma_of_not_mem fun hmem => ?_
    rw [List.mem_reverse, List.mem_append, List.mem_append] at hmem
    rcases hmem with hmem | hmem | hmem
    · rw [(vocabulary_plain p.mnemonic_mem).2 _ hmem] at hcomma
      cases hcomma
    · rw [condText_plain p.cond _ hmem] at hcomma
      cases hcomma
    · exact htab hmem
  | cons s texts =>
    obtain ⟨x, a, hxa, ha⟩ := separated_last (htexts ▸ p.plain)
    rw [hxa, ← List.append_assoc, ← List.append_assoc, ← List.append_assoc, List.reverse_append]
    refine leadsComma_solid ?_
    rintro b ⟨⟩
    exact ha

/-- It is a line of a source text. -/
def line : TextLine where
  code := p.text
  ending := .lf
  plain := by
    have hbreak : ∀ c ∈ ['\n', '\r', ';'], ¬ (isPlain c = true ∨ c ∈ [',', '\t']) := by decide
    exact fun c hc hmem => hbreak c hc (p.text_plain c hmem)
  first := by
    rw [text, toList_condLine]
    exact leadsComma_solid (word_solid p.mnemonic_mem (map_vocabulary p.mnemonic_mem))
  last := p.text_last

end Printout

/-! ## The instructions of a program -/

/-- The numbers that the instruction is emitted with as those of control registers are ones that vdis
has a name for. -/
def CregNamed : EmitCall → Prop
  | .fmtVI _ _ opcode a b => (opcode = Opcode.movtc.code → a.toNat < 8) ∧
    (opcode = Opcode.movfc.code ∨ opcode = Opcode.xchgc.code → b.toNat < 8)
  | _ => True

/-- An instruction that vasm emits. -/
structure EmittedIns (c : EmitCall) : Prop where
  inRange : InRange c
  formatted : Formatted c
  lookedUp : LookedUp c

section
variable {c c' : EmitCall} {i i' : Instruction} {F : Format}

/-- An instruction is its fields, in their format. -/
theorem formatted_call (hc : Formatted c) (h : Encodes (ofInstruction i) c) :
    ∃ F, formatIn i.pfx i.opcode = some F ∧ c = F.call i := by
  cases c with
  | byte b => exact hc.elim
  | labelRef name reg cond => exact hc.elim
  | fmtI pfx k op =>
    obtain ⟨rfl, rfl, rfl⟩ := h
    exact ⟨.I, hc, rfl⟩
  | fmtII pfx k op dst a b =>
    obtain ⟨⟨rfl, rfl, rfl⟩, rfl, rfl, rfl⟩ := h
    exact ⟨.II, hc, rfl⟩
  | fmtIII pfx k op dst a imm =>
    obtain ⟨⟨rfl, rfl, rfl⟩, rfl, rfl, rfl⟩ := h
    exact ⟨.III, hc, rfl⟩
  | fmtIV pfx k op dst imm =>
    obtain ⟨⟨rfl, rfl, rfl⟩, rfl, rfl⟩ := h
    exact ⟨.IV, hc, rfl⟩
  | fmtV pfx k op dst =>
    obtain ⟨⟨rfl, rfl, rfl⟩, rfl⟩ := h
    exact ⟨.V, hc, rfl⟩
  | fmtVI pfx k op a b =>
    obtain ⟨⟨rfl, rfl, rfl⟩, rfl, rfl⟩ := h
    exact ⟨.VI, hc, rfl⟩
  | fmtVII pfx k op a imm =>
    obtain ⟨⟨rfl, rfl, rfl⟩, rfl, rfl⟩ := h
    exact ⟨.VII, hc, rfl⟩
  | fmtVIII pfx k op imm =>
    obtain ⟨⟨rfl, rfl, rfl⟩, rfl⟩ := h
    exact ⟨.VIII, hc, rfl⟩

theorem formatIn_printed (h : formatIn i.pfx i.opcode = some F) :
    ∃ o ∈ printedOps i.pfx, i.opcode = o.code ∧ formatOf o i.pfx = F := by
  obtain ⟨o, ho, h⟩ := Option.bind_eq_some_iff.1 h
  split at h
  · next hm =>
    cases h
    exact ⟨o, hm, (Opcode.code_of_ofByte ho).symm, rfl⟩
  · cases h

/-- The operand fields of a format are the same. -/
def Format.Agree (i i' : Instruction) : Format → Prop
  | I => True
  | II => i.destination = i'.destination ∧ i.operandA = i'.operandA ∧ i.operandB = i'.operandB
  | III => i.destination = i'.destination ∧ i.operandA = i'.operandA ∧ i.imm12 = i'.imm12
  | IV => i.destination = i'.destination ∧ i.imm16 = i'.imm16
  | V => i.destination = i'.destination
  | VI => i.operandA = i'.operandA ∧ i.operandB = i'.operandB
  | VII => i.operandA = i'.operandA ∧ i.imm12 = i'.imm12
  | VIII => i.imm16 = i'.imm16

theorem Format.agree (h : F.operands (ofInstruction i) = F.operands (ofInstruction i')) :
    F.Agree i i' := by
  cases F <;> simp only [operands, ofInstruction, List.cons.injEq, and_true] at h
  case I => trivial
  case II => exact ⟨word_eq h.1, word_eq h.2.1, word_eq h.2.2⟩
  case III => exact ⟨word_eq h.1, word_eq h.2.1, h.2.2⟩
  case IV => exact ⟨word_eq h.1, h.2⟩
  case V => exact word_eq h
  case VI => exact ⟨word_eq h.1, word_eq h.2⟩
  case VII => exact ⟨word_eq h.1, h.2⟩
  case VIII => exact h

theorem Format.call_congr (hp : i.pfx = i'.pfx) (hc : i.condition = i'.condition)
    (ho : i.opcode = i'.opcode) (h : F.Agree i i') : F.call i = F.call i' := by
  cases F <;> simp only [Agree] at h <;> simp only [call, hp, hc, ho, h]

/-- Of the words that are the same instruction vasm emits one. -/
theorem call_unique (hc : Formatted c) (hc' : Formatted c') (h : Encodes (ofInstruction i) c)
    (h' : Encodes (ofInstruction i') c') (hs : SameUse (ofInstruction i) (ofInstruction i')) :
    c = c' := by
  obtain ⟨hop, hp, hcond, hops⟩ := hs
  obtain ⟨F, hF, rfl⟩ := formatted_call hc h
  obtain ⟨F', hF', rfl⟩ := formatted_call hc' h'
  have hp : i.pfx = i'.pfx := hp
  have hop : i.opcode = i'.opcode := hop
  have hfmt : F = F' := by
    rw [hp, hop, hF'] at hF
    exact (Option.some.inj hF).symm
  subst hfmt
  have hread (j : Instruction) (hj : formatIn j.pfx j.opcode = some F) :
      (ofInstruction j).operands = F.operands (ofInstruction j) := by
    obtain ⟨o, -, ho, rfl⟩ := formatIn_printed hj
    rw [Fields.operands, show (ofInstruction j).opcode = o.code from ho, Opcode.ofByte_code]
    rfl
  rw [hread i hF, hread i' hF'] at hops
  exact Format.call_congr hp hcond hop (Format.agree hops)

/-- What vasm emits is not misprinted, but for the names of control registers. -/
theorem not_misprinted (hc : EmittedIns c) (hn : CregNamed c) (h : Encodes (ofInstruction i) c) :
    ¬ Misprinted (ofInstruction i) := by
  obtain ⟨hr, hf, hl⟩ := hc
  obtain ⟨F, hF, rfl⟩ := formatted_call hf h
  have hfmt {pfx op : Byte} (G : Format) (hG : formatIn pfx op = some G) (hp : i.pfx = pfx)
      (hop : i.opcode = op) : F = G := by
    rw [hp, hop, hG] at hF
    exact (Option.some.inj hF).symm
  intro hm
  cases hm with
  | always hp hop hcond =>
    have hV : F = .V := by
      rcases hop with hop | hop
      · exact hfmt _ (by decide) hp hop
      · exact hfmt _ (by decide) hp hop
    subst hV
    exact hcond (hl hop)
  | xchgc hp hop hcond hb =>
    obtain rfl := hfmt .VI (by decide) hp hop
    exact hb (hl hop hcond)
  | loadrd hp hop hcond hno =>
    obtain rfl := hfmt .II (by decide) hp hop
    exact hno (hl hp hop hcond)
  | movtc hp hop h8 =>
    obtain rfl := hfmt .VI (by decide) hp hop
    exact Nat.not_lt.2 h8 (hn.1 hop)
  | movfc hp hop h8 =>
    have hVI : F = .VI := by
      rcases hop with hop | hop
      · exact hfmt _ (by decide) hp hop
      · exact hfmt _ (by decide) hp hop
    subst hVI
    exact Nat.not_lt.2 h8 (hn.2 hop)

/-- The instructions with control registers take a dword. -/
theorem pfx_of_creg {o : Opcode} (hop : o = .movtc ∨ o = .movfc ∨ o = .xchgc)
    (h : o ∈ printedOps i.pfx) : i.pfx = pfxDword := by
  by_contra hp
  have hno : ∀ o ∈ [Opcode.movtc, .movfc, .xchgc], o ∉ printedOps pfxWord ∧ o ∉ printedOps pfxImm := by
    decide
  have hmem : o ∈ [Opcode.movtc, .movfc, .xchgc] := by simpa using hop
  obtain ⟨hword, himm⟩ := hno o hmem
  rw [printedOps, if_neg hp] at h
  split at h
  · exact hword h
  · split at h
    · exact himm h
    · cases h

end

/-! ## The line of an instruction -/

section
variable {c : EmitCall}

theorem lineOf_eq {b0 b1 b2 b3 : Byte} (hb : c.bytes = [b0, b1, b2, b3]) :
    lineOf c = instructionText (vasmdisBytesToInstruction b0 b1 b2 b3) := by
  rw [lineOf, hb]
  rfl

theorem EmittedCall.ins (h : EmittedCall c) (hr : InRange c) : EmittedIns c := by
  cases c with
  | byte b => exact hr.elim
  | labelRef name reg cond => exact hr.elim
  | _ => exact ⟨h.1, h.2.1, h.2.2⟩

/-- **The line** of an instruction is read back as that instruction. -/
theorem line_named (hc : EmittedIns c) (hn : CregNamed c) :
    ∃ p : Printout, p.text = (lineOf c).toList ∧ p.line.Does [.call c] := by
  obtain ⟨b0, b1, b2, b3, hb⟩ := hc.inRange.bytes
  have henc := encodes_of_bytes hc.inRange hb
  obtain ⟨F, hF, -⟩ := formatted_call hc.formatted henc
  obtain ⟨o, ho, hop, -⟩ := formatIn_printed hF
  obtain ⟨tok, cond, args, c', htok, htext, hparse, hr', hsame⟩ :=
    readsBack (inWidth b0 b1 b2 b3) ⟨o, ho, hop⟩ (not_misprinted hc hn henc)
  -- the line's call is an emitted one, so it is this one
  obtain rfl : c = c' := by
    obtain ⟨lines, -, hlines⟩ := hparse
    have hstraight : ∀ s ∈ [Statement.call c'], s.Straight := fun s hs => by
      obtain rfl := List.mem_singleton.1 hs
      trivial
    have hcall : EmittedCall c' := exps_emitted hlines hstraight _ (.head _)
    obtain ⟨b0', b1', b2', b3', hb'⟩ := hr'.bytes
    have henc' := encodes_of_bytes hr' hb'
    exact call_unique hc.formatted (hcall.ins hr').formatted henc henc' (hsame _ henc')
  let p : Printout := ⟨tok, cond, args.map Operand.text, htok, fun s hs => by
    obtain ⟨o, -, rfl⟩ := List.mem_map.1 hs
    exact operand_plain o⟩
  refine ⟨p, ?_, _, lexText_condLine htok cond args, .inr hparse⟩
  rw [lineOf_eq hb, htext]
  rfl

/-- No program starts with the text. -/
def Refused (text : List Char) : Prop :=
  ∃ t tokens, lexText text = .ok (t :: tokens) ∧ (∀ c, t ≠ .condition c) ∧
    ∀ more acts, ¬ Parses (t :: (tokens ++ more)) acts

/-- The line of an instruction with a control register without a name is refused. -/
theorem line_unnamed (hc : EmittedIns c) (hn : ¬ CregNamed c) :
    ∃ p : Printout, p.text = (lineOf c).toList ∧ Refused p.text := by
  obtain ⟨b0, b1, b2, b3, hb⟩ := hc.inRange.bytes
  have henc := encodes_of_bytes hc.inRange hb
  have hi := inWidth b0 b1 b2 b3
  have hna : PlainText "N/A" := by
    have : "N/A".toList ≠ [] ∧ ∀ c ∈ "N/A".toList, isPlain c = true := by decide
    exact this
  rw [lineOf_eq hb]
  generalize vasmdisBytesToInstruction b0 b1 b2 b3 = i at henc hi
  obtain ⟨F, hF, rfl⟩ := formatted_call hc.formatted henc
  obtain ⟨o, ho, hop, -⟩ := formatIn_printed hF
  have hdword (o' : Opcode) (hcreg : o' = .movtc ∨ o' = .movfc ∨ o' = .xchgc)
      (h : i.opcode = o'.code) : i.pfx = pfxDword := by
    obtain rfl := Opcode.code_inj.1 (h.symm.trans hop)
    exact pfx_of_creg hcreg ho
  cases F with
  | VI =>
    rw [Format.call, CregNamed, not_and_or, Classical.not_imp, Classical.not_imp] at hn
    rcases hn with ⟨hmovtc, h8⟩ | ⟨hmovfc, h8⟩
    · obtain ⟨cond, b, htext⟩ := text_movtc hi (hdword _ (.inl rfl) hmovtc) hmovtc (Nat.not_lt.1 h8)
      have hop : IsOp (.opFmtVIC ⟨"MOVTC", by decide⟩) :=
        isOp_named (i := .opFmtVIC) (by decide) rfl rfl (fun _ => rfl) _
      let p : Printout := ⟨_, cond, ["N/A", (Operand.reg32 b).text], hop,
        List.forall_mem_cons.2 ⟨hna, List.forall_mem_singleton.2 (operand_plain _)⟩⟩
      refine ⟨p, by rw [htext]; rfl, _, _, lexText_texts hop cond ?_ (lexText_na_left _), ?_,
        fun more acts hparse => ?_⟩
      · rw [toList_separated]
        rintro a ⟨⟩
        rfl
      · simp
      · have hna : Parses (.opFmtVIC ⟨"MOVTC", by decide⟩ :: (condToks cond ++ .space :: .garbage ::
            .garbage :: .garbage :: .comma :: (Operand.reg32 b).token :: more)) acts := by
          simpa using hparse
        exact not_parses_movtc hna
    · have hp : i.pfx = pfxDword := by
        rcases hmovfc with h | h
        · exact hdword _ (.inr (.inl rfl)) h
        · exact hdword _ (.inr (.inr rfl)) h
      obtain ⟨tok, cond, a, hop, htoks, htext⟩ := text_movfc hi hp hmovfc (Nat.not_lt.1 h8)
      let p : Printout := ⟨tok, cond, [(Operand.reg32 a).text, "N/A"], hop,
        List.forall_mem_cons.2 ⟨operand_plain _, List.forall_mem_singleton.2 hna⟩⟩
      refine ⟨p, by rw [htext]; rfl, _, _, lexText_texts hop cond ?_ (lexText_na_right _), ?_,
        fun more acts hparse => ?_⟩
      · rw [toList_separated]
        exact operand_solid _
      · rcases htoks with ⟨op, rfl⟩ | rfl <;> simp
      · have hna : Parses (tok :: (condToks cond ++ .space :: .reg32 a :: .comma :: .garbage ::
            .garbage :: .garbage :: more)) acts := by simpa [Operand.token] using hparse
        exact not_parses_movfc htoks hna
  | _ => exact absurd trivial hn

end

/-! ## The file -/

section
variable {cs : List EmitCall} {size : Dword} {fixedSize : Bool}

/-- The lines of instructions. -/
theorem fileText_lines {ps : List Printout} {s : VdisState} (hfile : s.file = cs.map lineOf)
    (h : List.Forall₂ (fun c p => Printout.text p = (lineOf c).toList) cs ps) :
    fileText s = TextLine.textOf (ps.map Printout.line) := by
  rw [fileText, hfile]
  clear hfile
  induction h with
  | nil => rfl
  | @cons c p cs ps hp _ ih =>
    rw [List.map_cons, List.flatMap_cons, ih, ← hp]
    rfl

theorem lines_named (h : ∀ c ∈ cs, EmittedIns c) (hn : ∀ c ∈ cs, CregNamed c) :
    ∃ ps : List Printout, List.Forall₂ (fun c p => p.text = (lineOf c).toList) cs ps ∧
      List.Forall₂ TextLine.Does (ps.map Printout.line) (cs.map fun c => [.call c]) := by
  induction cs with
  | nil => exact ⟨[], .nil, .nil⟩
  | cons c cs ih =>
    obtain ⟨hc, hcs⟩ := List.forall_mem_cons.1 h
    obtain ⟨hn, hns⟩ := List.forall_mem_cons.1 hn
    obtain ⟨p, htext, hdoes⟩ := line_named hc hn
    obtain ⟨ps, htexts, hall⟩ := ih hcs hns
    exact ⟨p :: ps, .cons htext htexts, .cons hdoes hall⟩

/-- The first instruction with a control register without a name. -/
theorem first_unnamed (h : ¬ ∀ c ∈ cs, CregNamed c) :
    ∃ pre c post, cs = pre ++ c :: post ∧ (∀ c ∈ pre, CregNamed c) ∧ ¬ CregNamed c := by
  induction cs with
  | nil => exact absurd (List.forall_mem_nil _) h
  | cons c cs ih =>
    by_cases hc : CregNamed c
    · rw [List.forall_mem_cons, and_iff_right hc] at h
      obtain ⟨pre, d, post, rfl, hpre, hd⟩ := ih h
      exact ⟨c :: pre, d, post, rfl, List.forall_mem_cons.2 ⟨hc, hpre⟩, hd⟩
    · exact ⟨[], c, cs, rfl, List.forall_mem_nil _, hc⟩

/-- Every instruction has a line. -/
theorem lines_exist (h : ∀ c ∈ cs, EmittedIns c) :
    ∃ ps : List Printout, List.Forall₂ (fun c p => p.text = (lineOf c).toList) cs ps := by
  induction cs with
  | nil => exact ⟨[], .nil⟩
  | cons c cs ih =>
    obtain ⟨hc, hcs⟩ := List.forall_mem_cons.1 h
    obtain ⟨ps, htexts⟩ := ih hcs
    by_cases hn : CregNamed c
    · obtain ⟨p, htext, -⟩ := line_named hc hn
      exact ⟨p :: ps, .cons htext htexts⟩
    · obtain ⟨p, htext, -⟩ := line_unnamed hc hn
      exact ⟨p :: ps, .cons htext htexts⟩

theorem calls_flatten (cs : List EmitCall) :
    (cs.map fun c => [Statement.call c]).flatten = cs.map .call := by
  induction cs with
  | nil => rfl
  | cons c cs ih => rw [List.map_cons, List.flatten_cons, ih]; rfl

/-- A text with a line that is refused. -/
theorem not_parses_refused {pre post : List Printout} {acts : List Action} {p : Printout}
    {tokens : List Token} {x : Action} (hpre : List.Forall₂ TextLine.Does (pre.map Printout.line) acts)
    (hp : Refused p.text)
    (hlex : lexText (TextLine.textOf ((pre ++ p :: post).map Printout.line)) = .ok tokens) :
    ¬ Parses tokens x := by
  obtain ⟨t, toks, htoks, ht, hno⟩ := hp
  obtain ⟨before, hbefore, hreads⟩ := reads_textOf hpre
  have hpost : leadsComma (TextLine.textOf (post.map Printout.line)) = false := by
    have := @leadsComma_textOf [] (post.map Printout.line) rfl
    rwa [List.append_nil] at this
  have hline : leadsComma (p.line.text ++ TextLine.textOf (post.map Printout.line)) = false := by
    have := leadsComma_textOf [p.line] hpost
    rwa [TextLine.textOf, List.flatMap_singleton] at this
  have hsplit : TextLine.textOf ((pre ++ p :: post).map Printout.line)
      = TextLine.textOf (pre.map Printout.line)
        ++ (p.line.text ++ TextLine.textOf (post.map Printout.line)) := by
    rw [List.map_append, List.map_cons, TextLine.textOf, List.flatMap_append, List.flatMap_cons]
    rfl
  have htokens : p.line.tokens = .ok (t :: (toks ++ [.endl])) := by
    rw [TextLine.tokens, show lexText p.line.code = _ from htoks]
    rfl
  rw [hsplit, lexText_textOf _ hline, hbefore, lexText_line _ hpost, htokens] at hlex
  cases hafter : lexText (TextLine.textOf (post.map Printout.line)) with
  | error e =>
    rw [hafter] at hlex
    cases hlex
  | ok after =>
    rw [hafter] at hlex
    change Except.ok (before ++ (t :: (toks ++ [Token.endl]) ++ after)) = Except.ok tokens at hlex
    obtain rfl := Except.ok.inj hlex
    intro hparse
    obtain ⟨rfl, -⟩ | hbefore := hreads
    · refine hno (.endl :: after) x ?_
      simpa using hparse
    · obtain ⟨acts', hacts'⟩ := hbefore.behind hparse ht
      refine hno (.endl :: after) acts' ?_
      simpa using hacts'

/-- **The lines** of instructions are assembled to them, or refused for the names of control
registers. -/
theorem assemblesTo_file (hcs : ∀ c ∈ cs, EmittedIns c) (hne : cs ≠ [])
    (hroom : WordRoom size fixedSize (4 * cs.length)) {s : VdisState}
    (hfile : s.file = cs.map lineOf) (heap : Nat → Byte) (img : List Byte) :
    AssemblesTo size fixedSize heap (fileText s) img ↔
      img = cs.flatMap EmitCall.bytes ∧ ∀ c ∈ cs, CregNamed c := by
  have hr : ∀ c ∈ cs, InRange c := fun c hc => (hcs c hc).inRange
  by_cases hn : ∀ c ∈ cs, CregNamed c
  · obtain ⟨ps, htexts, hdoes⟩ := lines_named hcs hn
    have hflat : (cs.map fun c => [Statement.call c]).flatten ≠ [] := by
      rw [calls_flatten]
      exact fun h => hne (List.map_eq_nil_iff.1 h)
    obtain ⟨tokens, hlex, hparse⟩ := parses_textOf hdoes hflat
    rw [fileText_lines hfile htexts, assemblesTo_iff hlex hparse, calls_flatten,
      assemble_calls hr (roomy_words (width_inRange hr) (widthOf_inRange hr ▸ hroom)),
      Except.ok.injEq, and_iff_left hn, eq_comm]
  · refine iff_of_false ?_ fun h => hn h.2
    rintro ⟨tokens, acts, hlex, hparse, -⟩
    obtain ⟨pre, c, post, rfl, hpre, hc⟩ := first_unnamed hn
    have hin : ∀ d ∈ pre, EmittedIns d := fun d hd => hcs d (List.mem_append_left _ hd)
    obtain ⟨ps, htexts, hdoes⟩ := lines_named hin hpre
    obtain ⟨p, htext, hrefused⟩ := line_unnamed (hcs c (List.mem_append_right _ (.head _))) hc
    obtain ⟨qs, htexts'⟩ := lines_exist fun d hd =>
      hcs d (List.mem_append_right _ (List.mem_cons_of_mem c hd))
    rw [fileText_lines hfile (List.rel_append htexts (.cons htext htexts'))] at hlex
    exact not_parses_refused hdoes hrefused hlex hparse

end

/-! ## Programs -/

/-- The instructions of a statement, with the labels `t`. -/
def instrsOf (t : String → Option Dword) : Statement → List EmitCall
  | .call (.labelRef name reg cond) =>
    let val := (t name).getD 0
    [.fmtIV pfxWord cond Opcode.loadi.code (reg * 2) (lwordFromDword val),
      .fmtIV pfxWord cond Opcode.loadi.code (reg * 2 + 1) (hwordFromDword val)]
  | .call c => [c]
  | _ => []

section
variable {t : String → Option Dword} {ss : List Statement}

theorem image_instrs (s : Statement) : s.image t = (instrsOf t s).flatMap EmitCall.bytes := by
  cases s with
  | call c =>
    cases c with
    | labelRef name reg cond => rfl
    | _ => exact (List.flatMap_singleton _ _).symm
  | _ => rfl

theorem instrsOf_emitted {s : Statement} (h : EmittedStatement s) (hdata : ∀ b, s ≠ .call (.byte b)) :
    ∀ c ∈ instrsOf t s, EmittedIns c := by
  cases s with
  | call c =>
    cases c with
    | byte b => exact absurd rfl (hdata b)
    | labelRef name reg cond =>
      obtain ⟨hreg, hcond⟩ := h
      have hpair := @loadHalves_emitted _ _ ((t name).getD 0) (Nat.not_lt.2 hreg) hcond
      obtain ⟨hlo, hhi⟩ := List.forall_mem_cons.1 hpair
      have hhi := List.forall_mem_singleton.1 hhi
      exact List.forall_mem_cons.2 ⟨⟨hlo.1, hlo.2.1, hlo.2.2⟩,
        List.forall_mem_singleton.2 ⟨hhi.1, hhi.2.1, hhi.2.2⟩⟩
    | _ => exact List.forall_mem_singleton.2 ⟨h.1, h.2.1, h.2.2⟩
  | _ => exact List.forall_mem_nil _

theorem cregNamed_instrs : (∀ c ∈ ss.flatMap (instrsOf t), CregNamed c) ↔
    ∀ c, .call c ∈ ss → CregNamed c := by
  have hone (s : Statement) : (∀ c ∈ instrsOf t s, CregNamed c) ↔ ∀ c, s = .call c → CregNamed c := by
    cases s with
    | call c =>
      cases c with
      | labelRef name reg cond => simp [instrsOf, CregNamed]
      | _ => simp [instrsOf]
    | _ => simp [instrsOf]
  constructor
  · intro h c hc
    exact (hone _).1 (fun d hd => h d (List.mem_flatMap.2 ⟨_, hc, hd⟩)) c rfl
  · intro h c hc
    obtain ⟨s, hs, hc⟩ := List.mem_flatMap.1 hc
    exact (hone s).2 (fun d hd => h d (hd ▸ hs)) c hc

/-- **vasm, vdis, vasm**: the file that vdis writes for the image of a program of instructions, labels
and offsets is assembled to that image if vdis has a name for each number emitted as a control
register's, and refused otherwise. -/
theorem vdis_vasm {tokens : List Token} {size : Dword} {fixedSize : Bool} {heap : Nat → Byte}
    {img : List Byte} (hparse : Parses tokens ss) (hs : ∀ s ∈ ss, s.Straight)
    (hdata : ∀ b, .call (.byte b) ∉ ss) (hlt : widthOf ss + dynamicBufferSize ≤ 2 ^ 32)
    (himg : assemble size fixedSize heap ss = .ok img) (hne : img ≠ []) :
    ∃ k s, iterate (vdisIteration img) k vdisInit = .ok (.ret () s) ∧
      ∀ heap' img', AssemblesTo size fixedSize heap' (fileText s) img' ↔
        img' = img ∧ ∀ c, .call c ∈ ss → CregNamed c := by
  obtain ⟨lines, -, hlines⟩ := hparse
  have hemitted := exps_emitted hlines hs
  have hroom := roomy_of_assemble hs hlt himg
  obtain ⟨-, h⟩ | ⟨-, msg, h⟩ := @assemble_roomy size fixedSize heap ss hs hroom
  · rw [h] at himg
    obtain rfl := Except.ok.inj himg
    have hbytes : ss.flatMap (Statement.image (labelTable ss))
        = (ss.flatMap (instrsOf (labelTable ss))).flatMap EmitCall.bytes := by
      rw [List.flatMap_assoc]
      exact List.flatMap_congr fun s _ => image_instrs s
    have hcs : ∀ c ∈ ss.flatMap (instrsOf (labelTable ss)), EmittedIns c := by
      intro c hc
      obtain ⟨s, hsm, hc⟩ := List.mem_flatMap.1 hc
      exact instrsOf_emitted (hemitted s hsm) (fun b hb => hdata b (hb ▸ hsm)) c hc
    have hlen := image_length (labelTable ss) ss
    rw [hbytes, length_inRange fun c hc => (hcs c hc).inRange] at hlen
    rw [hbytes] at hne ⊢
    rw [← cregNamed_instrs (t := labelTable ss)]
    simp only [dynamicBufferSize] at hlt
    obtain ⟨k, s, hrun, hfile⟩ := vdis_lines (fun c hc => (hcs c hc).inRange) (by omega)
    refine ⟨k, s, hrun, assemblesTo_file hcs (fun hnil => hne ?_) (hlen ▸ hroom.words) hfile⟩
    rw [hnil]
    rfl
  · rw [h] at himg
    cases himg

end

/-- The label `_A`, `LDJMPIZ R0,_A` and `MOVFC R1,CR1`. -/
def movfcLines : List (List Token) :=
  [[.directiveLabel, .ident "_A"], [.endl],
    [.opPseudoLdjmp, .condition nameIZ, .space, .reg32 nameR0, .comma, .ident "_A"], [.endl],
    [.opFmtVIC ControlMove.movfc.name, .space, .reg32 nameR1, .comma, .creg Creg.cr1.name]]

def movfcStatements : List Statement :=
  [.label "_A", .call (.labelRef "_A" 0 Cond.iz.code),
    .call (.fmtV pfxDword Cond.iz.code Opcode.jmp.code 0),
    .call (.fmtVI pfxDword cAlways Opcode.movfc.code 1 cpuCregCr1)]

set_option maxRecDepth 10000 in
theorem vdis_vasm_movfc : ∃ img k s,
    assemble 64 true (fun _ => 0) movfcStatements = .ok img ∧
      iterate (vdisIteration img) k vdisInit = .ok (.ret () s) ∧
      AssemblesTo 64 true (fun _ => 0) (fileText s) img := by
  have hparse : Parses movfcLines.flatten movfcStatements := ⟨movfcLines, rfl, rfl⟩
  have hasm : assemble 64 true (fun _ => 0) movfcStatements = .ok
      (movfcStatements.flatMap (Statement.image (labelTable movfcStatements))) := by rfl
  obtain ⟨k, s, hrun, hiff⟩ := vdis_vasm hparse (by decide) (by simp [movfcStatements]) (by decide) hasm
    (List.cons_ne_nil _ _)
  refine ⟨_, k, s, hasm, hrun, (hiff _ _).2 ⟨rfl, ?_⟩⟩
  have hnamed : cpuCregCr1.toNat < 8 := by decide
  simp [movfcStatements, CregNamed, Opcode.code_inj, hnamed]

end E2E
