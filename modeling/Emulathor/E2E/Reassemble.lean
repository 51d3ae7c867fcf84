import Emulathor.E2E.ReadBack

/-!
# Assembling undoes disassembling

`reassembles_iff`: the text printed for an instruction word has the marker of an invalid instruction
or is the line of one instruction, assembled to a word of the same meaning (`SameUse.dispatch`),
exactly if the word is not `Misprinted`.
-/

namespace E2E

open Common Lib Cpu Assembler Disassembler

/-- The words whose text vasm refuses or takes for another instruction. -/
@[mk_iff] inductive Misprinted (f : Fields) : Prop
  /-- There is no conditional production. -/
  | always (hp : f.pfx = pfxDword)
    (hop : f.opcode = Opcode.storeas.code ∨ f.opcode = Opcode.loadas.code)
    (hc : f.condition ≠ Cond.always.code)
  /-- The conditional production looks the control register up as a byte register. -/
  | xchgc (hp : f.pfx = pfxDword) (hop : f.opcode = Opcode.xchgc.code)
    (hc : f.condition ≠ Cond.always.code) (hb : f.opb ≠ 0)
  /-- The conditional production looks two of the registers up in each other's tables. -/
  | loadrd (hp : f.pfx = pfxWord) (hop : f.opcode = Opcode.loadrd.code)
    (hc : f.condition ≠ Cond.always.code) (h : ¬ (f.dst = 0 ∧ f.opb = 0))
  /-- The control register has no name. -/
  | movtc (hp : f.pfx = pfxDword) (hop : f.opcode = Opcode.movtc.code) (h : 8 ≤ f.opa.toNat)
  | movfc (hp : f.pfx = pfxDword)
    (hop : f.opcode = Opcode.movfc.code ∨ f.opcode = Opcode.xchgc.code) (h : 8 ≤ f.opb.toNat)

instance : DecidablePred Misprinted := fun f => decidable_of_iff _ (misprinted_iff f).symm

/-! ## The other words -/

section
variable {i : Instruction} {o : Opcode}

theorem readsBack_dword (hi : InWidth i) (hp : i.pfx = pfxDword) (hop : i.opcode = o.code)
    (ho : o ∈ printedOps i.pfx) (h : ¬ Misprinted (ofInstruction i)) : ReadsBack i := by
  cases o with
  | stop | iret => exact dword_fmtI hi hop hp (by decide)
  | add | and | div | or | mod | mul | sar | sdiv | shl | shr | smul | sub | xor =>
    exact dword_fmtII hi hop hp (by decide)
  | call | jmp | test => exact dword_fmtV hi hop hp (by decide)
  | cmp | in_ | not | out | xchg => exact dword_fmtVI hi hop hp (by decide)
  | cmpxchg => exact dword_cmpxchg hi hop hp
  | loadrd => exact dword_loadrd hi hop hp
  | storerd => exact dword_storerd hi hop hp
  | mov => exact dword_mov hi hop hp
  | loadid => exact dword_loadid hi hop hp
  | storeid => exact dword_storeid hi hop hp
  | movtc =>
    refine dword_movtc hi hop hp (Nat.lt_of_not_le fun h8 => h ?_)
    exact .movtc hp hop h8
  | movfc =>
    refine dword_movfc hi hop hp (Nat.lt_of_not_le fun h8 => h ?_)
    exact .movfc hp (.inl hop) h8
  | xchgc =>
    refine dword_xchgc hi hop hp (Nat.lt_of_not_le fun h8 => h ?_) ?_
    · exact .movfc hp (.inr hop) h8
    · by_contra hc
      rw [not_or] at hc
      exact h (.xchgc hp hop hc.1 hc.2)
  | storeas =>
    refine dword_as hi hop hp (.inl ⟨rfl, rfl⟩) ?_
    by_contra hc
    exact h (.always hp (.inl hop) hc)
  | loadas =>
    refine dword_as hi hop hp (.inr ⟨rfl, rfl⟩) ?_
    by_contra hc
    exact h (.always hp (.inr hop) hc)
  | _ => exact absurd ho (by rw [hp]; decide)

theorem readsBack_word (hi : InWidth i) (hp : i.pfx = pfxWord) (hop : i.opcode = o.code)
    (ho : o ∈ printedOps i.pfx) (h : ¬ Misprinted (ofInstruction i)) : ReadsBack i := by
  cases o with
  | loadi => exact word_loadi hi hop hp
  | loadid => exact word_loadid hi hop hp
  | mov => exact word_mov hi hop hp
  | sex => exact word_sex hi hop hp
  | storeid => exact word_storeid hi hop hp
  | storerd => exact word_storerd hi hop hp
  | loadrd =>
    refine word_loadrd hi hop hp ?_
    by_contra hc
    rw [not_or] at hc
    exact h (.loadrd hp hop hc.1 hc.2)
  | _ => exact absurd ho (by rw [hp]; decide)

theorem readsBack_byte (hi : InWidth i) (hp : i.pfx = pfxByte) (hop : i.opcode = o.code)
    (ho : o ∈ printedOps i.pfx) : ReadsBack i := by
  cases o with
  | loadi => exact byte_loadi hi hop hp
  | loadid => exact byte_loadid hi hop hp
  | loadrd => exact byte_loadrd hi hop hp
  | mov => exact byte_mov hi hop hp
  | sex => exact byte_sex hi hop hp
  | storeid => exact byte_storeid hi hop hp
  | storerd => exact byte_storerd hi hop hp
  | _ => exact absurd ho (by rw [hp]; decide)

theorem readsBack_imm (hi : InWidth i) (hp : i.pfx = pfxImm) (hop : i.opcode = o.code)
    (ho : o ∈ printedOps i.pfx) : ReadsBack i := by
  cases o with
  | add | and | div | or | mod | mul | sar | sdiv | shl | shr | smul | sub | xor =>
    exact imm_fmtIII hi hop hp (by decide)
  | cmp => exact imm_cmp hi hop hp
  | call | jmp | test | fail | int => exact imm_fmtVIII hi hop hp (by decide)
  | loadma | storema => exact imm_fmtIV hi hop hp (by decide)
  | _ => exact absurd ho (by rw [hp]; decide)

theorem InWidth.pfx_cases (hi : InWidth i) :
    i.pfx = pfxDword ∨ i.pfx = pfxWord ∨ i.pfx = pfxByte ∨ i.pfx = pfxImm := by
  have hall : ∀ k < 4, BitVec.ofNat 8 k = pfxDword ∨ BitVec.ofNat 8 k = pfxWord ∨
      BitVec.ofNat 8 k = pfxByte ∨ BitVec.ofNat 8 k = pfxImm := by decide
  have := hall i.pfx.toNat hi.pfx
  rwa [BitVec.ofNat_toNat, BitVec.setWidth_eq] at this

/-- What is printed with operands and not misprinted reads back. -/
theorem readsBack (hi : InWidth i) (hp : Printed i) (h : ¬ Misprinted (ofInstruction i)) :
    ReadsBack i := by
  obtain ⟨o, ho, hop⟩ := hp
  rcases hi.pfx_cases with hp | hp | hp | hp
  · exact readsBack_dword hi hp hop ho h
  · exact readsBack_word hi hp hop ho h
  · exact readsBack_byte hi hp hop ho
  · exact readsBack_imm hi hp hop ho

/-- The others have the marker. -/
theorem marked_of_not_printed (hi : InWidth i) (h : ¬ Printed i) : Marked (instructionText i) := by
  refine marked_of hi ?_
  cases ho : Opcode.ofByte i.opcode with
  | none =>
    rcases hi.pfx_cases with hp | hp | hp | hp
    · rw [operandsText_dword hp, decodeDwordPrefixOps, ho]
    · rw [operandsText_word hp, decodeWordPrefixOps, ho]
    · rw [operandsText_byte hp, decodeBytePrefixOps, ho]
    · rw [operandsText_imm hp, decodeImmediatePrefixOps, ho]
  | some o =>
    have hop : i.opcode = o.code := (Opcode.code_of_ofByte ho).symm
    have hno : o ∉ printedOps i.pfx := fun hm => h ⟨o, hm, hop⟩
    rcases hi.pfx_cases with hp | hp | hp | hp
    · rw [operandsText_dword hp, decodeDwordPrefixOps, ho]
      rw [hp] at hno
      cases o <;> first | rfl | exact absurd (by decide) hno
    · rw [operandsText_word hp, decodeWordPrefixOps, ho]
      rw [hp] at hno
      cases o <;> first | rfl | exact absurd (by decide) hno
    · rw [operandsText_byte hp, decodeBytePrefixOps, ho]
      rw [hp] at hno
      cases o <;> first | rfl | exact absurd (by decide) hno
    · rw [operandsText_imm hp, decodeImmediatePrefixOps, ho]
      rw [hp] at hno
      cases o <;> first | rfl | exact absurd (by decide) hno

theorem readBack (hi : InWidth i) (h : ¬ Misprinted (ofInstruction i)) :
    Marked (instructionText i) ∨ Reassembles (instructionText i) (ofInstruction i) := by
  by_cases hp : Printed i
  · exact .inr (readsBack hi hp h).reassembles
  · exact .inl (marked_of_not_printed hi hp)

end

/-! ## Texts without the marker -/

theorem Marked.semicolon {text : String} (h : Marked text) : ';' ∈ text.toList := by
  obtain ⟨u, v, h⟩ := h
  have hmsg : ';' ∈ msgInvalidArgs.toList := by decide
  rw [← h]
  exact List.mem_append_left _ (List.mem_append_right _ hmsg)

theorem vocabulary_semicolon : ∀ s ∈ vocabulary, ';' ∉ s.toList := by decide +kernel

theorem separated_semicolon : ∀ {texts : List String}, (∀ s ∈ texts, ';' ∉ s.toList) →
    ';' ∉ (separated texts).toList
  | [], _ => by decide
  | [s], h => h s (.head _)
  | s :: s' :: rest, h => by
    have hrest := separated_semicolon fun t ht => h t (.tail _ ht)
    have hsep : ';' ∉ [',', '\t'] := by decide
    rw [toList_separated, List.mem_append, List.mem_append, not_or, not_or]
    exact ⟨h s (.head _), hsep, hrest⟩

/-- A printed line without the marker. -/
theorem not_marked {tok : Token} {cond : Option (Name conditionNames)} {texts : List String}
    (h : IsOp tok) (ht : ∀ s ∈ texts, ';' ∉ s.toList) : ¬ Marked (condLine tok cond texts) := by
  intro hm
  obtain ⟨i, -, hs, -⟩ := h
  have hcond : ';' ∉ (condText cond).toList := by
    cases cond with
    | none => decide
    | some c => exact vocabulary_semicolon _ (mem_vocabulary (i := .condition) c.2)
  have htab : ';' ∉ ['\t', '\t'] := by decide
  have hmem := hm.semicolon
  rw [toList_condLine, List.mem_append, List.mem_append, List.mem_append] at hmem
  rcases hmem with hmem | hmem | hmem | hmem
  · exact vocabulary_semicolon _ (mem_vocabulary hs) hmem
  · exact hcond hmem
  · exact htab hmem
  · exact separated_semicolon ht hmem

theorem operand_semicolon (o : Operand) : ';' ∉ o.text.toList := by
  cases o with
  | reg32 n => exact vocabulary_semicolon _ (mem_vocabulary (i := .reg32) n.2)
  | reg16 n => exact vocabulary_semicolon _ (mem_vocabulary (i := .reg16) n.2)
  | reg8 n => exact vocabulary_semicolon _ (mem_vocabulary (i := .reg8) n.2)
  | creg n => exact vocabulary_semicolon _ (mem_vocabulary (i := .creg) n.2)
  | imm k =>
    have hdigit : ∀ d < 16, ';' ≠ Nat.digitChar d := by decide
    have hk := k.isLt
    show ';' ∉ (hex4 k).toList
    rw [hex4, String.toList_append, String.toList_ofList, String.toList_ofList]
    simp only [List.mem_append, List.mem_cons, List.not_mem_nil, or_false, not_or]
    exact ⟨by decide, hdigit _ (by omega), hdigit _ (by omega), hdigit _ (by omega),
      hdigit _ (by omega)⟩

/-! ## Lines that are refused -/

/-- `STOREAS` and `LOADAS` take no condition. -/
theorem not_parses_always {tok : Token} {c : Name conditionNames} {tokens : List Token}
    {acts : Action} (htok : tok = .opSStoreas ∨ tok = .opSLoadas) :
    ¬ Parses (tok :: .condition c :: tokens) acts := by
  intro h
  obtain ⟨line, rest, a, hline, ha⟩ := h.head
  cases line with
  | nil => cases ha
  | cons t line =>
    obtain ⟨rfl, hrest⟩ := List.cons.inj hline
    cases line with
    | nil => rcases htok with rfl | rfl <;> cases ha
    | cons t line =>
      obtain ⟨rfl, -⟩ := List.cons.inj hrest
      rcases htok with rfl | rfl <;> cases ha

/-- A move between registers and control registers needs names for both. -/
theorem not_parses_movtc {op : Name opFmtVICNames} {cond : Option (Name conditionNames)}
    {tokens : List Token} {acts : Action} :
    ¬ Parses (.opFmtVIC op :: (condToks cond ++ .space :: .garbage :: tokens)) acts := by
  intro h
  obtain ⟨line, rest, a, hline, ha⟩ := h.head
  cases line with
  | nil => cases ha
  | cons t line =>
    obtain ⟨rfl, hrest⟩ := List.cons.inj hline
    change expFmtVIC op line = some a at ha
    unfold expFmtVIC at ha
    split at ha
    all_goals cases cond <;> first | cases hrest | cases ha

theorem not_parses_movfc {tok : Token} {cond : Option (Name conditionNames)}
    {r : Name reg32Names} {acts : Action} {tokens : List Token}
    (htok : (∃ op, tok = .opFmtVIC op) ∨ tok = .opSXchgc) :
    ¬ Parses (tok :: (condToks cond ++ .space :: .reg32 r :: .comma :: .garbage :: tokens)) acts := by
  intro h
  obtain ⟨line, rest, a, hline, ha⟩ := h.head
  cases line with
  | nil => cases ha
  | cons t line =>
    obtain ⟨rfl, hrest⟩ := List.cons.inj hline
    rcases htok with ⟨op, rfl⟩ | rfl
    · change expFmtVIC op line = some a at ha
      unfold expFmtVIC at ha
      split at ha
      all_goals cases cond <;> first | cases hrest | cases ha
    · change expXchgc line = some a at ha
      unfold expXchgc at ha
      split at ha
      all_goals cases cond <;> first | cases hrest | cases ha

/-- `N/A` is read as three characters that no rule is for. -/
theorem lexText_na {y : List Char} {tokens : List Token}
    (hy : ∀ a, y.head? = some a → a ∈ '/' :: delimiters) (h : lexText y = .ok tokens) :
    lexText ("N/A".toList ++ y) = .ok (.garbage :: .garbage :: .garbage :: tokens) := by
  have hslash : ∀ a, ('/' :: 'A' :: y).head? = some a → a ∈ '/' :: delimiters := by
    rintro a ⟨⟩
    exact .head _
  have hmemN : 'N' ∈ letters := by decide
  have hmemA : 'A' ∈ letters := by decide
  have hN : Lexes ['N'] .garbage ('/' :: 'A' :: y) :=
    ⟨.garbage, isLexeme_letter hmemN, stops_letter hmemN rfl hslash, rfl⟩
  have hA : Lexes ['A'] .garbage y :=
    ⟨.garbage, isLexeme_letter hmemA, stops_letter hmemA rfl hy, rfl⟩
  have hS : Lexes ['/'] .garbage ('A' :: y) := ⟨.garbage, isLexeme_slash, stops_slash, rfl⟩
  exact hN.append (hS.append (hA.append h))

theorem lexText_na_left (o : Operand) : lexText (separated ["N/A", o.text]).toList
    = .ok [.garbage, .garbage, .garbage, .comma, o.token] := by
  have hrest : lexText (separated [o.text]).toList = .ok [o.token] := lexText_operands [o]
  have hcomma : Lexes [',', '\t'] .comma (separated [o.text]).toList :=
    lexes_comma (by decide) (separated_solid [o])
  rw [toList_separated]
  refine lexText_na ?_ (hcomma.append hrest)
  rintro a ⟨⟩
  decide

theorem lexText_na_right (o : Operand) : lexText (separated [o.text, "N/A"]).toList
    = .ok [o.token, .comma, .garbage, .garbage, .garbage] := by
  have hna := lexText_na (y := []) nofun lexText_nil
  rw [List.append_nil] at hna
  have hcomma : Lexes [',', '\t'] .comma "N/A".toList :=
    lexes_comma (by decide) (by rintro a ⟨⟩; rfl)
  have hop : Lexes o.text.toList o.token ([',', '\t'] ++ "N/A".toList) := by
    refine lexes_operand o ?_
    rintro a ⟨⟩
    decide
  rw [toList_separated]
  exact hop.append (hcomma.append hna)

/-! ## The misprinted words -/

section
variable {i : Instruction}

/-- Neither marked nor the line of an instruction. -/
def Lost (i : Instruction) : Prop :=
  ¬ Marked (instructionText i) ∧ ¬ Reassembles (instructionText i) (ofInstruction i)

/-- A line that is refused. -/
theorem lost_of_refused {tok : Token} {cond : Option (Name conditionNames)} {texts : List String}
    {tokens : List Token} (htext : instructionText i = condLine tok cond texts) (htok : IsOp tok)
    (ht : ∀ s ∈ texts, ';' ∉ s.toList)
    (hs : ∀ a, (separated texts).toList.head? = some a → isSolid a = true)
    (hlex : lexText (separated texts).toList = .ok tokens)
    (hno : ∀ acts, ¬ Parses (tok :: (condToks cond ++ .space :: tokens)) acts) : Lost i := by
  refine ⟨?_, ?_⟩
  · rw [htext]
    exact not_marked htok ht
  · rintro ⟨tokens', acts, b0, b1, b2, b3, hlex', hacts, -⟩
    rw [htext, lexText_texts htok cond hs hlex] at hlex'
    obtain rfl := Except.ok.inj hlex'
    exact hno acts hacts

theorem lost_always (hi : InWidth i) (hp : i.pfx = pfxDword)
    (hop : i.opcode = Opcode.storeas.code ∨ i.opcode = Opcode.loadas.code)
    (hc : i.condition ≠ Cond.always.code) : Lost i := by
  obtain ⟨tok, htok, hname, htoks⟩ : ∃ tok, IsOp tok ∧ getNameOfOp i.opcode = mnemonic tok ∧
      (tok = .opSStoreas ∨ tok = .opSLoadas) := by
    rcases hop with hop | hop
    · exact ⟨.opSStoreas, ⟨.opSStoreas, by decide, by decide, fun _ _ => rfl⟩, by rw [hop]; rfl,
        .inl rfl⟩
    · exact ⟨.opSLoadas, ⟨.opSLoadas, by decide, by decide, fun _ _ => rfl⟩, by rw [hop]; rfl,
        .inr rfl⟩
  obtain ⟨d, hd, -⟩ := reg32_of hi.destination
  have hargs : operandsText i = separated ([Operand.reg32 d].map Operand.text) := by
    rw [operandsText_dword hp, decodeDwordPrefixOps]
    rcases hop with hop | hop <;> rw [hop, Opcode.ofByte_code] <;> simp only [hd] <;> rfl
  obtain ⟨cond, hcode, hcond⟩ := cond_of hi.condition
  cases cond with
  | none => exact absurd hcode.symm hc
  | some c =>
    refine lost_of_refused (text_eq hname hcond hargs (Nat.le_of_ble_eq_true rfl)) htok ?_
      (separated_solid _) (lexText_operands _) fun acts => not_parses_always htoks
    intro s hs
    obtain rfl := List.mem_singleton.1 hs
    exact operand_semicolon _

theorem na_semicolon {o : Operand} {texts : List String} (h : ∀ s ∈ texts, s = "N/A" ∨ s = o.text) :
    ∀ s ∈ texts, ';' ∉ s.toList := by
  intro s hs
  rcases h s hs with rfl | rfl
  · decide
  · exact operand_semicolon o

theorem na_length {o : Operand} {texts : List String} (h : ∀ s ∈ texts, s = "N/A" ∨ s = o.text) :
    ∀ s ∈ texts, s.length ≤ 14 := by
  intro s hs
  rcases h s hs with rfl | rfl
  · decide
  · exact operand_length o

theorem text_movtc (hi : InWidth i) (hp : i.pfx = pfxDword) (hop : i.opcode = Opcode.movtc.code)
    (h8 : 8 ≤ i.operandA.toNat) : ∃ cond b, instructionText i
      = condLine (.opFmtVIC ⟨"MOVTC", by decide⟩) cond ["N/A", (Operand.reg32 b).text] := by
  obtain ⟨b, hb, -⟩ := reg32_of hi.operandB
  obtain ⟨cond, -, hcond⟩ := cond_of hi.condition
  have hname : getNameOfOp i.opcode = mnemonic (.opFmtVIC ⟨"MOVTC", by decide⟩) := by
    rw [hop]
    rfl
  have hargs : operandsText i = separated ["N/A", (Operand.reg32 b).text] := by
    rw [operandsText_dword hp, decodeDwordPrefixOps, hop, Opcode.ofByte_code]
    simp only [creg_none hi.operandA h8, hb]
    rfl
  have hmem : ∀ s ∈ ["N/A", (Operand.reg32 b).text], s = "N/A" ∨ s = (Operand.reg32 b).text := by
    simp only [List.mem_cons, List.not_mem_nil, or_false, imp_self, implies_true]
  exact ⟨cond, b, instructionText_eq hname hcond hargs (mnemonic_length _) (condText_length cond)
    (Nat.le_of_ble_eq_true rfl) (na_length hmem)⟩

theorem lost_movtc (hi : InWidth i) (hp : i.pfx = pfxDword) (hop : i.opcode = Opcode.movtc.code)
    (h8 : 8 ≤ i.operandA.toNat) : Lost i := by
  obtain ⟨cond, b, htext⟩ := text_movtc hi hp hop h8
  have hmem : ∀ s ∈ ["N/A", (Operand.reg32 b).text], s = "N/A" ∨ s = (Operand.reg32 b).text := by
    simp only [List.mem_cons, List.not_mem_nil, or_false, imp_self, implies_true]
  refine lost_of_refused htext
    (isOp_named (i := .opFmtVIC) (by decide) rfl rfl (fun _ => rfl) _) (na_semicolon hmem) ?_
    (lexText_na_left _) fun acts => not_parses_movtc
  rw [toList_separated]
  rintro a ⟨⟩
  rfl

theorem text_movfc (hi : InWidth i) (hp : i.pfx = pfxDword)
    (hop : i.opcode = Opcode.movfc.code ∨ i.opcode = Opcode.xchgc.code)
    (h8 : 8 ≤ i.operandB.toNat) : ∃ tok cond a, IsOp tok ∧
      ((∃ op, tok = .opFmtVIC op) ∨ tok = .opSXchgc) ∧
      instructionText i = condLine tok cond [(Operand.reg32 a).text, "N/A"] := by
  obtain ⟨tok, htok, hname, htoks⟩ : ∃ tok, IsOp tok ∧ getNameOfOp i.opcode = mnemonic tok ∧
      ((∃ op, tok = .opFmtVIC op) ∨ tok = .opSXchgc) := by
    rcases hop with hop | hop
    · exact ⟨.opFmtVIC ⟨"MOVFC", by decide⟩,
        isOp_named (i := .opFmtVIC) (by decide) rfl rfl (fun _ => rfl) _, by rw [hop]; rfl,
        .inl ⟨_, rfl⟩⟩
    · exact ⟨.opSXchgc, ⟨.opSXchgc, by decide, by decide, fun _ _ => rfl⟩, by rw [hop]; rfl,
        .inr rfl⟩
  obtain ⟨a, ha, -⟩ := reg32_of hi.operandA
  obtain ⟨cond, -, hcond⟩ := cond_of hi.condition
  have hargs : operandsText i = separated [(Operand.reg32 a).text, "N/A"] := by
    rw [operandsText_dword hp, decodeDwordPrefixOps]
    rcases hop with hop | hop <;> rw [hop, Opcode.ofByte_code] <;>
      simp only [creg_none hi.operandB h8, ha] <;> rfl
  have hmem : ∀ s ∈ [(Operand.reg32 a).text, "N/A"], s = "N/A" ∨ s = (Operand.reg32 a).text := by
    intro s hs
    simp only [List.mem_cons, List.not_mem_nil, or_false] at hs
    exact hs.symm
  exact ⟨tok, cond, a, htok, htoks, instructionText_eq hname hcond hargs (mnemonic_length _)
    (condText_length cond) (Nat.le_of_ble_eq_true rfl) (na_length hmem)⟩

theorem lost_movfc (hi : InWidth i) (hp : i.pfx = pfxDword)
    (hop : i.opcode = Opcode.movfc.code ∨ i.opcode = Opcode.xchgc.code)
    (h8 : 8 ≤ i.operandB.toNat) : Lost i := by
  obtain ⟨tok, cond, a, htok, htoks, htext⟩ := text_movfc hi hp hop h8
  have hmem : ∀ s ∈ [(Operand.reg32 a).text, "N/A"], s = "N/A" ∨ s = (Operand.reg32 a).text := by
    intro s hs
    simp only [List.mem_cons, List.not_mem_nil, or_false] at hs
    exact hs.symm
  refine lost_of_refused htext htok (na_semicolon hmem) ?_ (lexText_na_right _)
    fun acts => not_parses_movfc htoks
  rw [toList_separated]
  exact operand_solid _

/-- A line that is the line of another call. -/
theorem lost_of_call {tok : Token} {cond : Option (Name conditionNames)} {args : List Operand}
    {c : EmitCall} (hop : getNameOfOp i.opcode = mnemonic tok)
    (hcond : getNameOfCond i.condition = condText cond) (htok : IsOp tok)
    (hargs : operandsText i = separated (args.map Operand.text)) (hn : args.length ≤ 3)
    (hparse : Parses (instrTokens tok cond args) [.call c]) (hr : InRange c)
    (hno : ∀ f, Encodes f c → ¬ SameUse (ofInstruction i) f) : Lost i := by
  refine ⟨?_, fun h => ?_⟩
  · rw [text_eq hop hcond hargs hn]
    refine not_marked htok fun s hs => ?_
    obtain ⟨o, -, rfl⟩ := List.mem_map.1 hs
    exact operand_semicolon o
  · obtain ⟨f, hf, hsame⟩ := h.fields hop hcond htok hargs hn hparse hr
    exact hno f hf hsame

theorem word_eq {a b : Byte} (h : (a.setWidth 16 : Word) = b.setWidth 16) : a = b := by
  have := congrArg (BitVec.setWidth 8) h
  rwa [BitVec.setWidth_setWidth_of_le _ (by decide), BitVec.setWidth_setWidth_of_le _ (by decide),
    BitVec.setWidth_eq, BitVec.setWidth_eq] at this

theorem lost_xchgc (hi : InWidth i) (hp : i.pfx = pfxDword) (hop : i.opcode = Opcode.xchgc.code)
    (hc : i.condition ≠ Cond.always.code) (hb : i.operandB ≠ 0) : Lost i := by
  by_cases h8 : i.operandB.toNat < 8
  · obtain ⟨a, ha, ha'⟩ := reg32_of hi.operandA
    obtain ⟨b, hb', -⟩ := creg_of h8
    obtain ⟨cond, hcode, hcond⟩ := cond_of hi.condition
    cases cond with
    | none => exact absurd hcode.symm hc
    | some c =>
      have hname : getNameOfOp i.opcode = mnemonic .opSXchgc := by
        rw [hop]
        rfl
      have hargs : operandsText i = separated ([Operand.reg32 a, .creg b].map Operand.text) := by
        rw [operandsText_dword hp, decodeDwordPrefixOps, hop, Opcode.ofByte_code]
        simp only [ha, hb']
        rfl
      have hzero : getReg8ForName b = 0 := getReg8ForName_creg b
      have hr : InRange (.fmtVI pfxDword (condCode (some c)) Opcode.xchgc.code (getRegForName a)
          (getReg8ForName b)) := by
        refine ⟨⟨by decide, condCode_lt _, by decide⟩, ?_, ?_⟩
        · rw [ha']
          exact hi.operandA
        · rw [hzero]
          decide
      refine lost_of_call hname hcond ⟨.opSXchgc, by decide, by decide, fun _ _ => rfl⟩ hargs
        (Nat.le_of_ble_eq_true rfl) (Parses.line rfl) hr fun f hf hsame => ?_
      obtain ⟨⟨hfp, hfc, hfo⟩, -, hfb⟩ := hf
      have hops := hsame.operands
      rw [Fields.operands, Fields.operands, hfo, show (ofInstruction i).opcode = _ from hop,
        Opcode.ofByte_code] at hops
      have hopb : (i.operandB.setWidth 16 : Word) = f.opb.setWidth 16 :=
        (List.cons.inj (List.cons.inj hops).2).1
      rw [hfb, hzero] at hopb
      exact hb (word_eq hopb)
  · exact lost_movfc hi hp (.inr hop) (Nat.le_of_not_lt h8)

theorem lost_loadrd (hi : InWidth i) (hp : i.pfx = pfxWord) (hop : i.opcode = Opcode.loadrd.code)
    (hc : i.condition ≠ Cond.always.code) (h : ¬ (i.destination = 0 ∧ i.operandB = 0)) :
    Lost i := by
  obtain ⟨d, hd, -⟩ := reg16_of hi.destination
  obtain ⟨a, ha, ha'⟩ := reg32_of hi.operandA
  obtain ⟨b, hb, -⟩ := reg32_of hi.operandB
  obtain ⟨cond, hcode, hcond⟩ := cond_of hi.condition
  cases cond with
  | none => exact absurd hcode.symm hc
  | some c =>
    have hname : getNameOfOp i.opcode = mnemonic .opSLoadrd := by
      rw [hop]
      rfl
    have hargs : operandsText i
        = separated ([Operand.reg16 d, .reg32 a, .reg32 b].map Operand.text) := by
      rw [operandsText_word hp, decodeWordPrefixOps, hop, Opcode.ofByte_code]
      simp only [hd, ha, hb]
      exact (separated_three _ _ _).symm
    have hd0 : getReg8ForName d = 0 := getReg8ForName_reg16 d
    have hb0 : getReg16ForName b = 0 := getReg16ForName_reg32 b
    have hr : InRange (.fmtII pfxWord (condCode (some c)) Opcode.loadrd.code (getReg8ForName d)
        (getRegForName a) (getReg16ForName b)) := by
      refine ⟨⟨by decide, condCode_lt _, by decide⟩, ?_, ?_, ?_⟩
      · rw [hd0]
        decide
      · rw [ha']
        exact hi.operandA
      · rw [hb0]
        decide
    refine lost_of_call hname hcond ⟨.opSLoadrd, by decide, by decide, fun _ _ => rfl⟩ hargs
      (Nat.le_of_ble_eq_true rfl) (Parses.line rfl) hr fun f hf hsame => ?_
    obtain ⟨⟨hfp, hfc, hfo⟩, hfd, -, hfb⟩ := hf
    have hops := hsame.operands
    rw [Fields.operands, Fields.operands, hfo, show (ofInstruction i).opcode = _ from hop,
      Opcode.ofByte_code] at hops
    obtain ⟨hdst, hrest⟩ := List.cons.inj hops
    have hdst : (i.destination.setWidth 16 : Word) = f.dst.setWidth 16 := hdst
    have hopb : (i.operandB.setWidth 16 : Word) = f.opb.setWidth 16 :=
      (List.cons.inj (List.cons.inj hrest).2).1
    rw [hfd, hd0] at hdst
    rw [hfb, hb0] at hopb
    exact h ⟨word_eq hdst, word_eq hopb⟩

theorem lost (hi : InWidth i) (h : Misprinted (ofInstruction i)) : Lost i := by
  cases h with
  | always hp hop hc => exact lost_always hi hp hop hc
  | xchgc hp hop hc hb => exact lost_xchgc hi hp hop hc hb
  | loadrd hp hop hc h => exact lost_loadrd hi hp hop hc h
  | movtc hp hop h => exact lost_movtc hi hp hop h
  | movfc hp hop h => exact lost_movfc hi hp hop h

end

/-! ## Every word -/

/-- **Assembling undoes disassembling**, of every word that is not misprinted and of no other. -/
theorem reassembles_iff (b0 b1 b2 b3 : Byte) :
    (Marked (vasmdisDisasmInstruction b0 b1 b2 b3) ∨
      Reassembles (vasmdisDisasmInstruction b0 b1 b2 b3) (fieldsOf b0 b1 b2 b3)) ↔
    ¬ Misprinted (fieldsOf b0 b1 b2 b3) := by
  have hi := inWidth b0 b1 b2 b3
  refine ⟨fun h hm => ?_, readBack hi⟩
  obtain ⟨hmarked, hre⟩ := lost hi hm
  exact h.elim hmarked hre

/-- The text for a conditional `XCHGC` of `CR1` is the line of an `XCHGC` of `MR1`. -/
theorem not_reassembles_xchgc :
    ¬ (Marked (vasmdisDisasmInstruction 0x2F#8 0x10#8 0x02#8 0x00#8) ∨
      Reassembles (vasmdisDisasmInstruction 0x2F#8 0x10#8 0x02#8 0x00#8)
        (fieldsOf 0x2F#8 0x10#8 0x02#8 0x00#8)) := by
  obtain ⟨hmarked, hre⟩ := lost_xchgc (inWidth 0x2F#8 0x10#8 0x02#8 0x00#8) (by decide) (by decide)
    (by decide) (by decide)
  exact not_or.2 ⟨hmarked, hre⟩

end E2E
