import Emulathor.Assembler.Proof.Parse
import Emulathor.E2E.PrintedLine
import Emulathor.E2E.Use

/-!
# Reading a printed line back

One lemma for each printed instruction: its line is that of one call, in the instruction's format and
with its own fields (`readsBack_line`). Names are codes again because the tables of the disassembler
and of the assembler are inverse to each other on the codes of registers.
-/

namespace E2E

open Common Lib Cpu Assembler Disassembler

/-! ## What is claimed of a word -/

/-- The fields of four bytes. -/
def fieldsOf (b0 b1 b2 b3 : Byte) : Fields := ofInstruction (vasmdisBytesToInstruction b0 b1 b2 b3)

/-- The text has the marker of an invalid instruction. -/
def Marked (text : String) : Prop := msgInvalidArgs.toList <:+: text.toList

/-- vasm takes the text as the line of one instruction, the same as that of the fields. -/
def Reassembles (text : String) (f : Fields) : Prop :=
  ∃ tokens acts b0 b1 b2 b3, lexText text.toList = .ok tokens ∧ Parses tokens acts ∧
    (∀ t, lineBytes t acts = .ok [b0, b1, b2, b3]) ∧ SameUse f (fieldsOf b0 b1 b2 b3)

/-! ## Names of codes -/

theorem reg32_of {b : Byte} (h : b.toNat < 16) :
    ∃ n : Name reg32Names, getNameOfReg b = n.val ∧ getRegForName n = b := by
  have hall : ∀ k < 16, getNameOfReg (BitVec.ofNat 8 k) ∈ reg32Names ∧
      getRegForName (getNameOfReg (BitVec.ofNat 8 k)) = BitVec.ofNat 8 k := by decide
  obtain ⟨hmem, hcode⟩ := hall b.toNat h
  rw [BitVec.ofNat_toNat, BitVec.setWidth_eq] at hmem hcode
  exact ⟨⟨_, hmem⟩, rfl, hcode⟩

theorem reg16_of {b : Byte} (h : b.toNat < 16) :
    ∃ n : Name reg16Names, getNameOfReg16 b = n.val ∧ getReg16ForName n = b := by
  have hall : ∀ k < 16, getNameOfReg16 (BitVec.ofNat 8 k) ∈ reg16Names ∧
      getReg16ForName (getNameOfReg16 (BitVec.ofNat 8 k)) = BitVec.ofNat 8 k := by decide
  obtain ⟨hmem, hcode⟩ := hall b.toNat h
  rw [BitVec.ofNat_toNat, BitVec.setWidth_eq] at hmem hcode
  exact ⟨⟨_, hmem⟩, rfl, hcode⟩

theorem reg8_of {b : Byte} (h : b.toNat < 16) :
    ∃ n : Name reg8Names, getNameOfReg8 b = n.val ∧ getReg8ForName n = b := by
  have hall : ∀ k < 16, getNameOfReg8 (BitVec.ofNat 8 k) ∈ reg8Names ∧
      getReg8ForName (getNameOfReg8 (BitVec.ofNat 8 k)) = BitVec.ofNat 8 k := by decide
  obtain ⟨hmem, hcode⟩ := hall b.toNat h
  rw [BitVec.ofNat_toNat, BitVec.setWidth_eq] at hmem hcode
  exact ⟨⟨_, hmem⟩, rfl, hcode⟩

theorem creg_of {b : Byte} (h : b.toNat < 8) :
    ∃ n : Name cregNames, getNameOfCreg b = n.val ∧ getCregForName n = b := by
  have hall : ∀ k < 8, getNameOfCreg (BitVec.ofNat 8 k) ∈ cregNames ∧
      getCregForName (getNameOfCreg (BitVec.ofNat 8 k)) = BitVec.ofNat 8 k := by decide
  obtain ⟨hmem, hcode⟩ := hall b.toNat h
  rw [BitVec.ofNat_toNat, BitVec.setWidth_eq] at hmem hcode
  exact ⟨⟨_, hmem⟩, rfl, hcode⟩

/-- The other control registers have no name. -/
theorem creg_none {b : Byte} (h : b.toNat < 16) (h8 : 8 ≤ b.toNat) : getNameOfCreg b = "N/A" := by
  have hall : ∀ k < 16, 8 ≤ k → getNameOfCreg (BitVec.ofNat 8 k) = "N/A" := by decide
  have := hall b.toNat h h8
  rwa [BitVec.ofNat_toNat, BitVec.setWidth_eq] at this

theorem cond_of {k : Byte} (h : k.toNat < 16) :
    ∃ cond : Option (Name conditionNames), condCode cond = k ∧ getNameOfCond k = condText cond := by
  have hall : ∀ k < 16, k ≠ 0 → getNameOfCond (BitVec.ofNat 8 k) ∈ conditionNames ∧
      getCondForName (getNameOfCond (BitVec.ofNat 8 k)) = BitVec.ofNat 8 k := by decide
  by_cases hk : k.toNat = 0
  · obtain rfl : k = 0 := BitVec.eq_of_toNat_eq hk
    exact ⟨none, rfl, by decide⟩
  · obtain ⟨hmem, hcode⟩ := hall k.toNat h hk
    rw [BitVec.ofNat_toNat, BitVec.setWidth_eq] at hmem hcode
    exact ⟨some ⟨_, hmem⟩, hcode, rfl⟩

theorem condText_length (cond : Option (Name conditionNames)) : (condText cond).length ≤ 4 := by
  cases cond with
  | none => decide
  | some c =>
    have : ∀ s ∈ conditionNames, s.length ≤ 4 := by decide
    exact this c c.2

/-- The widths of the fields of four bytes. -/
structure InWidth (i : Instruction) : Prop where
  pfx : i.pfx.toNat < 4
  opcode : i.opcode.toNat < 64
  condition : i.condition.toNat < 16
  destination : i.destination.toNat < 16
  operandA : i.operandA.toNat < 16
  operandB : i.operandB.toNat < 16
  imm12 : i.imm12.toNat < 4096

theorem inWidth (b0 b1 b2 b3 : Byte) : InWidth (vasmdisBytesToInstruction b0 b1 b2 b3) := by
  have hmask (b : Byte) : (b &&& 0x0F#8).toNat < 16 := by
    rw [BitVec.toNat_and]
    exact Nat.lt_of_le_of_lt Nat.and_le_right (by decide)
  have hshift (b : Byte) : (b >>> 4).toNat < 16 := by
    rw [BitVec.toNat_ushiftRight, Nat.shiftRight_eq_div_pow]
    have := b.isLt
    omega
  refine ⟨?_, ?_, hshift b1, hmask b1, hshift b2, hmask b2, ?_⟩
  · show (b0 >>> 6).toNat < 4
    rw [BitVec.toNat_ushiftRight, Nat.shiftRight_eq_div_pow]
    have := b0.isLt
    omega
  · show (b0 &&& 0x3F#8).toNat < 64
    rw [BitVec.toNat_and]
    exact Nat.lt_of_le_of_lt Nat.and_le_right (by decide)
  · have hb := hmask b2
    have hb3 := b3.isLt
    show ((b2 &&& 0x0F#8).setWidth 16 <<< 8 ||| b3.setWidth 16 : Word).toNat < 2 ^ 12
    rw [BitVec.toNat_or, BitVec.toNat_shiftLeft, BitVec.toNat_setWidth, BitVec.toNat_setWidth]
    refine Nat.or_lt_two_pow ?_ (by omega)
    rw [Nat.shiftLeft_eq]
    omega

/-! ## Reading the line back -/

/-- The tokens of a printed line. -/
def instrTokens (tok : Token) (cond : Option (Name conditionNames)) (args : List Operand) :
    List Token := tok :: (condToks cond ++ .space :: operandTokens args)

theorem operand_length (o : Operand) : o.text.length ≤ 14 := by
  rw [← printed_length]
  exact Nat.le_trans (text_length o) (by decide)

/-- The text of an instruction is the line of one call, with the instruction's own fields. -/
def ReadsBack (i : Instruction) : Prop :=
  ∃ tok cond args c, IsOp tok ∧ instructionText i = condLine tok cond (args.map Operand.text) ∧
    Parses (instrTokens tok cond args) [.call c] ∧ InRange c ∧
      ∀ f, Encodes f c → SameUse (ofInstruction i) f

/-- Such a line is reassembled. -/
theorem ReadsBack.reassembles {i : Instruction} (h : ReadsBack i) :
    Reassembles (instructionText i) (ofInstruction i) := by
  obtain ⟨tok, cond, args, c, htok, htext, hparse, hr, hsame⟩ := h
  obtain ⟨b0, b1, b2, b3, hb⟩ := hr.bytes
  refine ⟨_, _, b0, b1, b2, b3, ?_, hparse, fun t => ?_, hsame _ (encodes_of_bytes hr hb)⟩
  · rw [htext]
    exact lexText_condLine htok cond args
  · rw [← hb]
    exact lineBytes_call (by rw [hb]; exact List.cons_ne_nil _ _)

section
variable {i : Instruction} {tok : Token} {cond : Option (Name conditionNames)}
  {args : List Operand} {c : EmitCall}

theorem text_eq (hop : getNameOfOp i.opcode = mnemonic tok)
    (hcond : getNameOfCond i.condition = condText cond)
    (hargs : operandsText i = separated (args.map Operand.text)) (hn : args.length ≤ 3) :
    instructionText i = condLine tok cond (args.map Operand.text) := by
  refine instructionText_eq hop hcond hargs (mnemonic_length tok) (condText_length cond)
    (by rwa [List.length_map]) fun s hs => ?_
  obtain ⟨x, -, rfl⟩ := List.mem_map.1 hs
  exact operand_length x

/-- A line that is one call with the instruction's own fields. -/
theorem readsBack_of (hi : InWidth i) (hop : getNameOfOp i.opcode = mnemonic tok)
    (htok : IsOp tok) (hargs : operandsText i = separated (args.map Operand.text))
    (hn : args.length ≤ 3)
    (hparse : ∀ cond, condCode cond = i.condition → Parses (instrTokens tok cond args) [.call c])
    (hr : InRange c) (hsame : ∀ f, Encodes f c → SameUse (ofInstruction i) f) : ReadsBack i := by
  obtain ⟨cond, hcode, hcond⟩ := cond_of hi.condition
  exact ⟨tok, cond, args, c, htok, text_eq hop hcond hargs hn, hparse cond hcode, hr, hsame⟩

/-- Only to those. -/
theorem Reassembles.fields (hop : getNameOfOp i.opcode = mnemonic tok)
    (hcond : getNameOfCond i.condition = condText cond) (htok : IsOp tok)
    (hargs : operandsText i = separated (args.map Operand.text)) (hn : args.length ≤ 3)
    (hparse : Parses (instrTokens tok cond args) [.call c]) (hr : InRange c)
    (h : Reassembles (instructionText i) (ofInstruction i)) :
    ∃ f, Encodes f c ∧ SameUse (ofInstruction i) f := by
  obtain ⟨tokens, acts, b0, b1, b2, b3, hlex, hacts, hbytes, hsame⟩ := h
  rw [text_eq hop hcond hargs hn, lexText_condLine htok cond args] at hlex
  obtain rfl := Except.ok.inj hlex
  obtain rfl := hacts.unique hparse
  refine ⟨_, encodes_of_bytes hr ?_, hsame⟩
  have hline := hbytes fun _ => none
  have hne : c.bytes ≠ [] := by
    obtain ⟨c0, c1, c2, c3, hc⟩ := hr.bytes
    rw [hc]
    exact List.cons_ne_nil _ _
  rw [lineBytes_call hne] at hline
  exact Except.ok.inj hline

end

/-! ## Lines by format -/

/-- The call that encodes an instruction in a format. -/
def Format.call (i : Instruction) : Format → EmitCall
  | I => .fmtI i.pfx i.condition i.opcode
  | II => .fmtII i.pfx i.condition i.opcode i.destination i.operandA i.operandB
  | III => .fmtIII i.pfx i.condition i.opcode i.destination i.operandA i.imm12
  | IV => .fmtIV i.pfx i.condition i.opcode i.destination i.imm16
  | V => .fmtV i.pfx i.condition i.opcode i.destination
  | VI => .fmtVI i.pfx i.condition i.opcode i.operandA i.operandB
  | VII => .fmtVII i.pfx i.condition i.opcode i.operandA i.imm12
  | VIII => .fmtVIII i.pfx i.condition i.opcode i.imm16

section
variable {i : Instruction} {f : Fields} {F : Format}

theorem Format.inRange (hi : InWidth i) (F : Format) : InRange (F.call i) := by
  have head : HeadInRange i.pfx i.condition i.opcode := ⟨hi.pfx, hi.condition, hi.opcode⟩
  cases F with
  | I => exact head
  | II => exact ⟨head, hi.destination, hi.operandA, hi.operandB⟩
  | III => exact ⟨head, hi.destination, hi.operandA, hi.imm12⟩
  | IV => exact ⟨head, hi.destination⟩
  | V => exact ⟨head, hi.destination⟩
  | VI => exact ⟨head, hi.operandA, hi.operandB⟩
  | VII => exact ⟨head, hi.operandA, hi.imm12⟩
  | VIII => exact head

/-- What is encoded in a format has the format's fields. -/
theorem Format.encodes (h : Encodes f (F.call i)) :
    f.pfx = i.pfx ∧ f.condition = i.condition ∧ f.opcode = i.opcode ∧
      F.operands f = F.operands (ofInstruction i) := by
  cases F with
  | I =>
    obtain ⟨hp, hc, ho⟩ := h
    exact ⟨hp, hc, ho, rfl⟩
  | II =>
    obtain ⟨⟨hp, hc, ho⟩, hd, ha, hb⟩ := h
    exact ⟨hp, hc, ho, by rw [operands, hd, ha, hb]; rfl⟩
  | III =>
    obtain ⟨⟨hp, hc, ho⟩, hd, ha, hk⟩ := h
    exact ⟨hp, hc, ho, by rw [operands, hd, ha, hk]; rfl⟩
  | IV =>
    obtain ⟨⟨hp, hc, ho⟩, hd, hk⟩ := h
    exact ⟨hp, hc, ho, by rw [operands, hd, hk]; rfl⟩
  | V =>
    obtain ⟨⟨hp, hc, ho⟩, hd⟩ := h
    exact ⟨hp, hc, ho, by rw [operands, hd]; rfl⟩
  | VI =>
    obtain ⟨⟨hp, hc, ho⟩, ha, hb⟩ := h
    exact ⟨hp, hc, ho, by rw [operands, ha, hb]; rfl⟩
  | VII =>
    obtain ⟨⟨hp, hc, ho⟩, ha, hk⟩ := h
    exact ⟨hp, hc, ho, by rw [operands, ha, hk]; rfl⟩
  | VIII =>
    obtain ⟨⟨hp, hc, ho⟩, hk⟩ := h
    exact ⟨hp, hc, ho, by rw [operands, hk]; rfl⟩

/-- **A line of one call** in the instruction's format reads back as the instruction. -/
theorem readsBack_format {o : Opcode} (hi : InWidth i) (hop : i.opcode = o.code) (tok : Token)
    (args : List Operand) (hname : getNameOfOp o.code = mnemonic tok) (htok : IsOp tok)
    (hargs : operandsText i = separated (args.map Operand.text)) (hn : args.length ≤ 3)
    (hparse : ∀ cond, condCode cond = i.condition →
      Parses (instrTokens tok cond args) [.call ((formatOf o i.pfx).call i)]) : ReadsBack i := by
  refine readsBack_of hi (by rw [hop, hname]) htok hargs hn hparse (Format.inRange hi _)
    fun f hf => ?_
  obtain ⟨hp, hc, ho, hops⟩ := Format.encodes hf
  refine ⟨ho.symm, hp.symm, hc.symm, ?_⟩
  have hopf : f.opcode = o.code := ho.trans hop
  have hopi : (ofInstruction i).opcode = o.code := hop
  have hpi : (ofInstruction i).pfx = i.pfx := rfl
  rw [Fields.operands, Fields.operands, hopf, hopi, Opcode.ofByte_code, hp, hpi]
  exact hops.symm

end

/-! ## Instruction by instruction -/

theorem op_of {o : Opcode} (names : List String) (ops : List Opcode)
    (h : ∀ o ∈ ops, getNameOfOp o.code ∈ names ∧ getOpForName (getNameOfOp o.code) = o.code)
    (ho : o ∈ ops) : ∃ n : Name names, getOpForName n = o.code ∧ getNameOfOp o.code = n.val :=
  ⟨⟨_, (h o ho).1⟩, (h o ho).2, rfl⟩

section
variable {o : Opcode} {pfx : Byte}

theorem formatOf_II (ho : o ∈ formatII) (hp : pfx ≠ pfxImm) : formatOf o pfx = .II := by
  cases o with
  | add | and | div | or | mod | mul | sar | sdiv | shl | shr | smul | sub | xor => exact if_neg hp
  | _ => exact absurd ho (by decide)

theorem formatOf_III (ho : o ∈ formatII) : formatOf o pfxImm = .III := by
  cases o with
  | add | and | div | or | mod | mul | sar | sdiv | shl | shr | smul | sub | xor => rfl
  | _ => exact absurd ho (by decide)

theorem formatOf_IV (ho : o ∈ formatIV) : formatOf o pfx = .IV := by
  cases o with
  | loadma | storema => rfl
  | _ => exact absurd ho (by decide)

theorem formatOf_V (ho : o ∈ formatV) (hp : pfx ≠ pfxImm) : formatOf o pfx = .V := by
  cases o with
  | call | jmp | test => exact if_neg hp
  | _ => exact absurd ho (by decide)

theorem formatOf_VI (ho : o ∈ formatVI) (hp : pfx ≠ pfxImm) : formatOf o pfx = .VI := by
  cases o with
  | in_ | not | out | xchg => rfl
  | cmp => exact if_neg hp
  | _ => exact absurd ho (by decide)

theorem formatOf_VIII (ho : o ∈ formatV ++ formatVIII) : formatOf o pfxImm = .VIII := by
  cases o with
  | call | jmp | test | fail | int => rfl
  | _ => exact absurd ho (by decide)

end

/-- The line, its call as a function of the condition. -/
theorem readsBack_line {i : Instruction} {o : Opcode} (hi : InWidth i) (hop : i.opcode = o.code)
    (tok : Token) (args : List Operand) (c : Byte → EmitCall)
    (hname : getNameOfOp o.code = mnemonic tok) (htok : IsOp tok)
    (hargs : operandsText i = separated (args.map Operand.text)) (hn : args.length ≤ 3)
    (hexp : ∀ cond, condCode cond = i.condition →
      exp (instrTokens tok cond args) = some [.call (c (condCode cond))])
    (hc : c i.condition = (formatOf o i.pfx).call i) :
    ReadsBack i :=
  readsBack_format hi hop tok args hname htok hargs hn fun cond hcond =>
    Parses.line (by rw [hexp cond hcond, hcond, hc])

section
variable {i : Instruction} {o : Opcode}

theorem dword_fmtI (hi : InWidth i) (hop : i.opcode = o.code) (hp : i.pfx = pfxDword)
    (ho : o ∈ formatI) : ReadsBack i := by
  obtain ⟨op, hcode, hname⟩ := op_of opFmtINames formatI (by decide) ho
  refine readsBack_format hi hop (.opFmtI op) [] hname
    (isOp_named (i := .opFmtI) (by decide) rfl rfl (fun _ => rfl) op)
    (by rw [operandsText_dword hp, decodeDword_fmtI ho hop]; rfl) (by decide) fun cond hc => ?_
  -- the blanks behind the mnemonic are a line of their own
  refine ⟨[.opFmtI op :: condToks cond, [.space]], ?_, ?_⟩
  · rw [List.flatten_cons, List.flatten_cons, List.flatten_nil]
    rfl
  · have hexp : exp (.opFmtI op :: condToks cond)
        = some [.call (.fmtI pfxDword (condCode cond) (getOpForName op))] := by
      cases cond <;> rfl
    have hformat : formatOf o i.pfx = .I := by
      cases o with
      | iret | stop => rfl
      | _ => exact absurd ho (by decide)
    rw [exps, hexp, hcode, hformat, Format.call, hp, hc, hop]
    · rfl
    · exact List.cons_ne_nil _ _

theorem dword_fmtII (hi : InWidth i) (hop : i.opcode = o.code) (hp : i.pfx = pfxDword)
    (ho : o ∈ formatII) : ReadsBack i := by
  obtain ⟨op, hcode, hname⟩ := op_of opFmtIINames formatII (by decide) ho
  obtain ⟨d, hd, hd'⟩ := reg32_of hi.destination
  obtain ⟨a, ha, ha'⟩ := reg32_of hi.operandA
  obtain ⟨b, hb, hb'⟩ := reg32_of hi.operandB
  refine readsBack_line hi hop (.opFmtII op) [.reg32 d, .reg32 a, .reg32 b]
    (fun k => .fmtII pfxDword k (getOpForName op) (getRegForName d) (getRegForName a)
      (getRegForName b)) hname
    (isOp_named (i := .opFmtII) (by decide) rfl rfl (fun _ => rfl) op) ?_
    (Nat.le_of_ble_eq_true rfl) (fun cond _ => by cases cond <;> rfl) ?_
  · rw [operandsText_dword hp, decodeDword_fmtII ho hop, hd, ha, hb]
    rfl
  · rw [hcode, hd', ha', hb', hp, formatOf_II ho (by decide), Format.call, hp, hop]

theorem dword_fmtV (hi : InWidth i) (hop : i.opcode = o.code) (hp : i.pfx = pfxDword)
    (ho : o ∈ formatV) : ReadsBack i := by
  obtain ⟨op, hcode, hname⟩ := op_of opFmtVNames formatV (by decide) ho
  obtain ⟨d, hd, hd'⟩ := reg32_of hi.destination
  refine readsBack_line hi hop (.opFmtV op) [.reg32 d]
    (fun k => .fmtV pfxDword k (getOpForName op) (getRegForName d)) hname
    (isOp_named (i := .opFmtV) (by decide) rfl rfl (fun _ => rfl) op) ?_
    (Nat.le_of_ble_eq_true rfl) (fun cond _ => by cases cond <;> rfl) ?_
  · rw [operandsText_dword hp, decodeDword_fmtV ho hop, hd]
    rfl
  · rw [hcode, hd', hp, formatOf_V ho (by decide), Format.call, hp, hop]

theorem dword_fmtVI (hi : InWidth i) (hop : i.opcode = o.code) (hp : i.pfx = pfxDword)
    (ho : o ∈ formatVI) : ReadsBack i := by
  obtain ⟨op, hcode, hname⟩ := op_of opFmtVINames formatVI (by decide) ho
  obtain ⟨a, ha, ha'⟩ := reg32_of hi.operandA
  obtain ⟨b, hb, hb'⟩ := reg32_of hi.operandB
  refine readsBack_line hi hop (.opFmtVI op) [.reg32 a, .reg32 b]
    (fun k => .fmtVI pfxDword k (getOpForName op) (getRegForName a) (getRegForName b)) hname
    (isOp_named (i := .opFmtVI) (by decide) rfl rfl (fun _ => rfl) op) ?_
    (Nat.le_of_ble_eq_true rfl) (fun cond _ => by cases cond <;> rfl) ?_
  · rw [operandsText_dword hp, decodeDword_fmtVI ho hop, ha, hb]
    rfl
  · rw [hcode, ha', hb', hp, formatOf_VI ho (by decide), Format.call, hp, hop]

theorem imm_fmtIII (hi : InWidth i) (hop : i.opcode = o.code) (hp : i.pfx = pfxImm)
    (ho : o ∈ formatII) : ReadsBack i := by
  obtain ⟨op, hcode, hname⟩ := op_of opFmtIINames formatII (by decide) ho
  obtain ⟨d, hd, hd'⟩ := reg32_of hi.destination
  obtain ⟨a, ha, ha'⟩ := reg32_of hi.operandA
  refine readsBack_line hi hop (.opFmtII op) [.reg32 d, .reg32 a, .imm i.imm12]
    (fun k => .fmtIII pfxImm k (getOpForName op) (getRegForName d) (getRegForName a) i.imm12)
    hname (isOp_named (i := .opFmtII) (by decide) rfl rfl (fun _ => rfl) op) ?_
    (Nat.le_of_ble_eq_true rfl)
    (fun cond _ => by cases cond <;> exact congrArg some (checked hi.imm12)) ?_
  · rw [operandsText_imm hp, decodeImmediate_fmtIII ho hop, hd, ha]
    rfl
  · rw [hcode, hd', ha', hp, formatOf_III ho, Format.call, hp, hop]

theorem imm_fmtIV (hi : InWidth i) (hop : i.opcode = o.code) (hp : i.pfx = pfxImm)
    (ho : o ∈ formatIV) : ReadsBack i := by
  obtain ⟨op, hcode, hname⟩ := op_of opFmtIVNames formatIV (by decide) ho
  obtain ⟨d, hd, hd'⟩ := reg32_of hi.destination
  refine readsBack_line hi hop (.opFmtIV op) [.reg32 d, .imm i.imm16]
    (fun k => .fmtIV pfxImm k (getOpForName op) (getRegForName d) i.imm16) hname
    (isOp_named (i := .opFmtIV) (by decide) rfl rfl (fun _ => rfl) op) ?_
    (Nat.le_of_ble_eq_true rfl) (fun cond _ => by cases cond <;> rfl) ?_
  · rw [operandsText_imm hp, decodeImmediate_fmtIV ho hop, hd]
    rfl
  · rw [hcode, hd', hp, formatOf_IV ho, Format.call, hp, hop]

theorem imm_cmp (hi : InWidth i) (hop : i.opcode = Opcode.cmp.code)
    (hp : i.pfx = pfxImm) : ReadsBack i := by
  obtain ⟨a, ha, ha'⟩ := reg32_of hi.operandA
  refine readsBack_line hi hop (.opFmtVI ⟨"CMP", by decide⟩)
    [.reg32 a, .imm i.imm12]
    (fun k => .fmtVII pfxImm k Opcode.cmp.code (getRegForName a) i.imm12) rfl
    (isOp_named (i := .opFmtVI) (by decide) rfl rfl (fun _ => rfl) _) ?_
    (Nat.le_of_ble_eq_true rfl)
    (fun cond _ => by cases cond <;> exact congrArg some (checked hi.imm12)) ?_
  · rw [operandsText_imm hp, decodeImmediatePrefixOps, hop, Opcode.ofByte_code]
    simp only [ha]
    rfl
  · rw [ha', hp, formatOf, if_pos rfl, Format.call, hp, hop]

/-- Format VIII has two tokens with mnemonics. -/
theorem imm_fmtVIII (hi : InWidth i) (hop : i.opcode = o.code) (hp : i.pfx = pfxImm)
    (ho : o ∈ formatV ++ formatVIII) : ReadsBack i := by
  have htext : operandsText i = separated ([Operand.imm i.imm16].map Operand.text) := by
    rw [operandsText_imm hp, decodeImmediate_fmtVIII ho hop]
    rfl
  rcases List.mem_append.1 ho with ho' | ho'
  · obtain ⟨op, hcode, hname⟩ := op_of opFmtVNames formatV (by decide) ho'
    refine readsBack_line hi hop (.opFmtV op) [.imm i.imm16]
      (fun k => .fmtVIII pfxImm k (getOpForName op) i.imm16) hname
      (isOp_named (i := .opFmtV) (by decide) rfl rfl (fun _ => rfl) op) htext
      (Nat.le_of_ble_eq_true rfl) (fun cond _ => by cases cond <;> rfl) ?_
    rw [hcode, hp, formatOf_VIII ho, Format.call, hp, hop]
  · obtain ⟨op, hcode, hname⟩ := op_of opFmtVIIINames formatVIII (by decide) ho'
    refine readsBack_line hi hop (.opFmtVIII op) [.imm i.imm16]
      (fun k => .fmtVIII pfxImm k (getOpForName op) i.imm16) hname
      (isOp_named (i := .opFmtVIII) (by decide) rfl rfl (fun _ => rfl) op) htext
      (Nat.le_of_ble_eq_true rfl) (fun cond _ => by cases cond <;> rfl) ?_
    rw [hcode, hp, formatOf_VIII ho, Format.call, hp, hop]

theorem dword_cmpxchg (hi : InWidth i) (hop : i.opcode = Opcode.cmpxchg.code)
    (hp : i.pfx = pfxDword) : ReadsBack i := by
  obtain ⟨d, hd, hd'⟩ := reg32_of hi.destination
  obtain ⟨a, ha, ha'⟩ := reg32_of hi.operandA
  obtain ⟨b, hb, hb'⟩ := reg32_of hi.operandB
  refine readsBack_line hi hop .opSCmpxchg [.reg32 d, .reg32 a, .reg32 b]
    (fun k => .fmtII pfxDword k Opcode.cmpxchg.code (getRegForName d) (getRegForName a)
      (getRegForName b)) rfl
    ⟨.opSCmpxchg, by decide, by decide, fun _ _ => rfl⟩ ?_ (Nat.le_of_ble_eq_true rfl)
    (fun cond _ => by cases cond <;> rfl) ?_
  · rw [operandsText_dword hp, decodeDwordPrefixOps, hop, Opcode.ofByte_code]
    simp only [hd, ha, hb]
    exact (separated_three _ _ _).symm
  · rw [hd', ha', hb', hp, show formatOf .cmpxchg pfxDword = .II from rfl, Format.call, hp, hop]

theorem dword_loadrd (hi : InWidth i) (hop : i.opcode = Opcode.loadrd.code)
    (hp : i.pfx = pfxDword) : ReadsBack i := by
  obtain ⟨d, hd, hd'⟩ := reg32_of hi.destination
  obtain ⟨a, ha, ha'⟩ := reg32_of hi.operandA
  obtain ⟨b, hb, hb'⟩ := reg32_of hi.operandB
  refine readsBack_line hi hop .opSLoadrd [.reg32 d, .reg32 a, .reg32 b]
    (fun k => .fmtII pfxDword k Opcode.loadrd.code (getRegForName d) (getRegForName a)
      (getRegForName b)) rfl
    ⟨.opSLoadrd, by decide, by decide, fun _ _ => rfl⟩ ?_ (Nat.le_of_ble_eq_true rfl)
    (fun cond _ => by cases cond <;> rfl) ?_
  · rw [operandsText_dword hp, decodeDwordPrefixOps, hop, Opcode.ofByte_code]
    simp only [hd, ha, hb]
    exact (separated_three _ _ _).symm
  · rw [hd', ha', hb', hp, show formatOf .loadrd pfxDword = .II from rfl, Format.call, hp, hop]

theorem dword_storerd (hi : InWidth i) (hop : i.opcode = Opcode.storerd.code)
    (hp : i.pfx = pfxDword) : ReadsBack i := by
  obtain ⟨d, hd, hd'⟩ := reg32_of hi.destination
  obtain ⟨a, ha, ha'⟩ := reg32_of hi.operandA
  obtain ⟨b, hb, hb'⟩ := reg32_of hi.operandB
  refine readsBack_line hi hop .opSStorerd [.reg32 d, .reg32 a, .reg32 b]
    (fun k => .fmtII pfxDword k Opcode.storerd.code (getRegForName d) (getRegForName a)
      (getRegForName b)) rfl
    ⟨.opSStorerd, by decide, by decide, fun _ _ => rfl⟩ ?_ (Nat.le_of_ble_eq_true rfl)
    (fun cond _ => by cases cond <;> rfl) ?_
  · rw [operandsText_dword hp, decodeDwordPrefixOps, hop, Opcode.ofByte_code]
    simp only [hd, ha, hb]
    exact (separated_three _ _ _).symm
  · rw [hd', ha', hb', hp, show formatOf .storerd pfxDword = .II from rfl, Format.call, hp, hop]

theorem dword_mov (hi : InWidth i) (hop : i.opcode = Opcode.mov.code)
    (hp : i.pfx = pfxDword) : ReadsBack i := by
  obtain ⟨a, ha, ha'⟩ := reg32_of hi.operandA
  obtain ⟨b, hb, hb'⟩ := reg32_of hi.operandB
  refine readsBack_line hi hop .opSMov [.reg32 a, .reg32 b]
    (fun k => .fmtVI pfxDword k Opcode.mov.code (getRegForName a) (getRegForName b)) rfl
    ⟨.opSMov, by decide, by decide, fun _ _ => rfl⟩ ?_ (Nat.le_of_ble_eq_true rfl)
    (fun cond _ => by cases cond <;> rfl) ?_
  · rw [operandsText_dword hp, decodeDwordPrefixOps, hop, Opcode.ofByte_code]
    simp only [ha, hb]
    rfl
  · rw [ha', hb', hp, show formatOf .mov pfxDword = .VI from rfl, Format.call, hp, hop]

theorem dword_loadid (hi : InWidth i) (hop : i.opcode = Opcode.loadid.code)
    (hp : i.pfx = pfxDword) : ReadsBack i := by
  obtain ⟨d, hd, hd'⟩ := reg32_of hi.destination
  obtain ⟨a, ha, ha'⟩ := reg32_of hi.operandA
  refine readsBack_line hi hop .opSLoadid [.reg32 d, .reg32 a, .imm i.imm12]
    (fun k => .fmtIII pfxDword k Opcode.loadid.code (getRegForName d) (getRegForName a)
      i.imm12) rfl
    ⟨.opSLoadid, by decide, by decide, fun _ _ => rfl⟩ ?_ (Nat.le_of_ble_eq_true rfl)
    (fun cond _ => by cases cond <;> exact congrArg some (checked hi.imm12)) ?_
  · rw [operandsText_dword hp, decodeDwordPrefixOps, hop, Opcode.ofByte_code]
    simp only [hd, ha]
    exact (separated_three _ _ _).symm
  · rw [hd', ha', hp, show formatOf .loadid pfxDword = .III from rfl, Format.call, hp, hop]

theorem dword_storeid (hi : InWidth i) (hop : i.opcode = Opcode.storeid.code)
    (hp : i.pfx = pfxDword) : ReadsBack i := by
  obtain ⟨d, hd, hd'⟩ := reg32_of hi.destination
  obtain ⟨a, ha, ha'⟩ := reg32_of hi.operandA
  refine readsBack_line hi hop .opSStoreid [.reg32 d, .reg32 a, .imm i.imm12]
    (fun k => .fmtIII pfxDword k Opcode.storeid.code (getRegForName d) (getRegForName a)
      i.imm12) rfl
    ⟨.opSStoreid, by decide, by decide, fun _ _ => rfl⟩ ?_ (Nat.le_of_ble_eq_true rfl)
    (fun cond _ => by cases cond <;> exact congrArg some (checked hi.imm12)) ?_
  · rw [operandsText_dword hp, decodeDwordPrefixOps, hop, Opcode.ofByte_code]
    simp only [hd, ha]
    exact (separated_three _ _ _).symm
  · rw [hd', ha', hp, show formatOf .storeid pfxDword = .III from rfl, Format.call, hp, hop]

theorem dword_movtc (hi : InWidth i) (hop : i.opcode = Opcode.movtc.code) (hp : i.pfx = pfxDword)
    (h8 : i.operandA.toNat < 8) : ReadsBack i := by
  obtain ⟨a, ha, ha'⟩ := creg_of h8
  obtain ⟨b, hb, hb'⟩ := reg32_of hi.operandB
  refine readsBack_line hi hop (.opFmtVIC ⟨"MOVTC", by decide⟩) [.creg a, .reg32 b]
    (fun k => .fmtVI pfxDword k Opcode.movtc.code (getCregForName a) (getRegForName b)) rfl
    (isOp_named (i := .opFmtVIC) (by decide) rfl rfl (fun _ => rfl) _) ?_
    (Nat.le_of_ble_eq_true rfl) (fun cond _ => by cases cond <;> rfl) ?_
  · rw [operandsText_dword hp, decodeDwordPrefixOps, hop, Opcode.ofByte_code]
    simp only [ha, hb]
    rfl
  · rw [ha', hb', hp, show formatOf .movtc pfxDword = .VI from rfl, Format.call, hp, hop]

theorem dword_movfc (hi : InWidth i) (hop : i.opcode = Opcode.movfc.code) (hp : i.pfx = pfxDword)
    (h8 : i.operandB.toNat < 8) : ReadsBack i := by
  obtain ⟨a, ha, ha'⟩ := reg32_of hi.operandA
  obtain ⟨b, hb, hb'⟩ := creg_of h8
  refine readsBack_line hi hop (.opFmtVIC ⟨"MOVFC", by decide⟩) [.reg32 a, .creg b]
    (fun k => .fmtVI pfxDword k Opcode.movfc.code (getRegForName a) (getCregForName b)) rfl
    (isOp_named (i := .opFmtVIC) (by decide) rfl rfl (fun _ => rfl) _) ?_
    (Nat.le_of_ble_eq_true rfl) (fun cond _ => by cases cond <;> rfl) ?_
  · rw [operandsText_dword hp, decodeDwordPrefixOps, hop, Opcode.ofByte_code]
    simp only [ha, hb]
    rfl
  · rw [ha', hb', hp, show formatOf .movfc pfxDword = .VI from rfl, Format.call, hp, hop]

theorem word_loadi (hi : InWidth i) (hop : i.opcode = Opcode.loadi.code)
    (hp : i.pfx = pfxWord) : ReadsBack i := by
  obtain ⟨d, hd, hd'⟩ := reg16_of hi.destination
  refine readsBack_line hi hop .opSLoadi [.reg16 d, .imm i.imm16]
    (fun k => .fmtIV pfxWord k Opcode.loadi.code (getReg16ForName d) i.imm16) rfl
    ⟨.opSLoadi, by decide, by decide, fun _ _ => rfl⟩ ?_ (Nat.le_of_ble_eq_true rfl)
    (fun cond _ => by cases cond <;> rfl) ?_
  · rw [operandsText_word hp, decodeWordPrefixOps, hop, Opcode.ofByte_code]
    simp only [hd]
    rfl
  · rw [hd', hp, show formatOf .loadi pfxWord = .IV from rfl, Format.call, hp, hop]

theorem word_loadid (hi : InWidth i) (hop : i.opcode = Opcode.loadid.code)
    (hp : i.pfx = pfxWord) : ReadsBack i := by
  obtain ⟨d, hd, hd'⟩ := reg16_of hi.destination
  obtain ⟨a, ha, ha'⟩ := reg32_of hi.operandA
  refine readsBack_line hi hop .opSLoadid [.reg16 d, .reg32 a, .imm i.imm12]
    (fun k => .fmtIII pfxWord k Opcode.loadid.code (getReg16ForName d) (getRegForName a)
      i.imm12) rfl
    ⟨.opSLoadid, by decide, by decide, fun _ _ => rfl⟩ ?_ (Nat.le_of_ble_eq_true rfl)
    (fun cond _ => by cases cond <;> exact congrArg some (checked hi.imm12)) ?_
  · rw [operandsText_word hp, decodeWordPrefixOps, hop, Opcode.ofByte_code]
    simp only [hd, ha]
    exact (separated_three _ _ _).symm
  · rw [hd', ha', hp, show formatOf .loadid pfxWord = .III from rfl, Format.call, hp, hop]

theorem word_mov (hi : InWidth i) (hop : i.opcode = Opcode.mov.code)
    (hp : i.pfx = pfxWord) : ReadsBack i := by
  obtain ⟨a, ha, ha'⟩ := reg16_of hi.operandA
  obtain ⟨b, hb, hb'⟩ := reg16_of hi.operandB
  refine readsBack_line hi hop .opSMov [.reg16 a, .reg16 b]
    (fun k => .fmtVI pfxWord k Opcode.mov.code (getReg16ForName a) (getReg16ForName b)) rfl
    ⟨.opSMov, by decide, by decide, fun _ _ => rfl⟩ ?_ (Nat.le_of_ble_eq_true rfl)
    (fun cond _ => by cases cond <;> rfl) ?_
  · rw [operandsText_word hp, decodeWordPrefixOps, hop, Opcode.ofByte_code]
    simp only [ha, hb]
    rfl
  · rw [ha', hb', hp, show formatOf .mov pfxWord = .VI from rfl, Format.call, hp, hop]

theorem word_sex (hi : InWidth i) (hop : i.opcode = Opcode.sex.code)
    (hp : i.pfx = pfxWord) : ReadsBack i := by
  obtain ⟨a, ha, ha'⟩ := reg32_of hi.operandA
  obtain ⟨b, hb, hb'⟩ := reg16_of hi.operandB
  refine readsBack_line hi hop .opSSex [.reg32 a, .reg16 b]
    (fun k => .fmtVI pfxWord k Opcode.sex.code (getRegForName a) (getReg16ForName b)) rfl
    ⟨.opSSex, by decide, by decide, fun _ _ => rfl⟩ ?_ (Nat.le_of_ble_eq_true rfl)
    (fun cond _ => by cases cond <;> rfl) ?_
  · rw [operandsText_word hp, decodeWordPrefixOps, hop, Opcode.ofByte_code]
    simp only [ha, hb]
    rfl
  · rw [ha', hb', hp, show formatOf .sex pfxWord = .VI from rfl, Format.call, hp, hop]

theorem word_storeid (hi : InWidth i) (hop : i.opcode = Opcode.storeid.code)
    (hp : i.pfx = pfxWord) : ReadsBack i := by
  obtain ⟨d, hd, hd'⟩ := reg32_of hi.destination
  obtain ⟨a, ha, ha'⟩ := reg16_of hi.operandA
  refine readsBack_line hi hop .opSStoreid [.reg32 d, .reg16 a, .imm i.imm12]
    (fun k => .fmtIII pfxWord k Opcode.storeid.code (getRegForName d) (getReg16ForName a)
      i.imm12) rfl
    ⟨.opSStoreid, by decide, by decide, fun _ _ => rfl⟩ ?_ (Nat.le_of_ble_eq_true rfl)
    (fun cond _ => by cases cond <;> exact congrArg some (checked hi.imm12)) ?_
  · rw [operandsText_word hp, decodeWordPrefixOps, hop, Opcode.ofByte_code]
    simp only [hd, ha]
    exact (separated_three _ _ _).symm
  · rw [hd', ha', hp, show formatOf .storeid pfxWord = .III from rfl, Format.call, hp, hop]

theorem word_storerd (hi : InWidth i) (hop : i.opcode = Opcode.storerd.code)
    (hp : i.pfx = pfxWord) : ReadsBack i := by
  obtain ⟨d, hd, hd'⟩ := reg32_of hi.destination
  obtain ⟨a, ha, ha'⟩ := reg16_of hi.operandA
  obtain ⟨b, hb, hb'⟩ := reg32_of hi.operandB
  refine readsBack_line hi hop .opSStorerd [.reg32 d, .reg16 a, .reg32 b]
    (fun k => .fmtII pfxWord k Opcode.storerd.code (getRegForName d) (getReg16ForName a)
      (getRegForName b)) rfl
    ⟨.opSStorerd, by decide, by decide, fun _ _ => rfl⟩ ?_ (Nat.le_of_ble_eq_true rfl)
    (fun cond _ => by cases cond <;> rfl) ?_
  · rw [operandsText_word hp, decodeWordPrefixOps, hop, Opcode.ofByte_code]
    simp only [hd, ha, hb]
    exact (separated_three _ _ _).symm
  · rw [hd', ha', hb', hp, show formatOf .storerd pfxWord = .II from rfl, Format.call, hp, hop]

theorem byte_loadi (hi : InWidth i) (hop : i.opcode = Opcode.loadi.code)
    (hp : i.pfx = pfxByte) : ReadsBack i := by
  obtain ⟨d, hd, hd'⟩ := reg8_of hi.destination
  refine readsBack_line hi hop .opSLoadi [.reg8 d, .imm i.imm16]
    (fun k => .fmtIV pfxByte k Opcode.loadi.code (getReg8ForName d) i.imm16) rfl
    ⟨.opSLoadi, by decide, by decide, fun _ _ => rfl⟩ ?_ (Nat.le_of_ble_eq_true rfl)
    (fun cond _ => by cases cond <;> rfl) ?_
  · rw [operandsText_byte hp, decodeBytePrefixOps, hop, Opcode.ofByte_code]
    simp only [hd]
    rfl
  · rw [hd', hp, show formatOf .loadi pfxByte = .IV from rfl, Format.call, hp, hop]

theorem byte_loadid (hi : InWidth i) (hop : i.opcode = Opcode.loadid.code)
    (hp : i.pfx = pfxByte) : ReadsBack i := by
  obtain ⟨d, hd, hd'⟩ := reg8_of hi.destination
  obtain ⟨a, ha, ha'⟩ := reg32_of hi.operandA
  refine readsBack_line hi hop .opSLoadid [.reg8 d, .reg32 a, .imm i.imm12]
    (fun k => .fmtIII pfxByte k Opcode.loadid.code (getReg8ForName d) (getRegForName a)
      i.imm12) rfl
    ⟨.opSLoadid, by decide, by decide, fun _ _ => rfl⟩ ?_ (Nat.le_of_ble_eq_true rfl)
    (fun cond _ => by cases cond <;> exact congrArg some (checked hi.imm12)) ?_
  · rw [operandsText_byte hp, decodeBytePrefixOps, hop, Opcode.ofByte_code]
    simp only [hd, ha]
    exact (separated_three _ _ _).symm
  · rw [hd', ha', hp, show formatOf .loadid pfxByte = .III from rfl, Format.call, hp, hop]

theorem byte_loadrd (hi : InWidth i) (hop : i.opcode = Opcode.loadrd.code)
    (hp : i.pfx = pfxByte) : ReadsBack i := by
  obtain ⟨d, hd, hd'⟩ := reg8_of hi.destination
  obtain ⟨a, ha, ha'⟩ := reg32_of hi.operandA
  obtain ⟨b, hb, hb'⟩ := reg32_of hi.operandB
  refine readsBack_line hi hop .opSLoadrd [.reg8 d, .reg32 a, .reg32 b]
    (fun k => .fmtII pfxByte k Opcode.loadrd.code (getReg8ForName d) (getRegForName a)
      (getRegForName b)) rfl
    ⟨.opSLoadrd, by decide, by decide, fun _ _ => rfl⟩ ?_ (Nat.le_of_ble_eq_true rfl)
    (fun cond _ => by cases cond <;> rfl) ?_
  · rw [operandsText_byte hp, decodeBytePrefixOps, hop, Opcode.ofByte_code]
    simp only [hd, ha, hb]
    exact (separated_three _ _ _).symm
  · rw [hd', ha', hb', hp, show formatOf .loadrd pfxByte = .II from rfl, Format.call, hp, hop]

theorem byte_mov (hi : InWidth i) (hop : i.opcode = Opcode.mov.code)
    (hp : i.pfx = pfxByte) : ReadsBack i := by
  obtain ⟨a, ha, ha'⟩ := reg8_of hi.operandA
  obtain ⟨b, hb, hb'⟩ := reg8_of hi.operandB
  refine readsBack_line hi hop .opSMov [.reg8 a, .reg8 b]
    (fun k => .fmtVI pfxByte k Opcode.mov.code (getReg8ForName a) (getReg8ForName b)) rfl
    ⟨.opSMov, by decide, by decide, fun _ _ => rfl⟩ ?_ (Nat.le_of_ble_eq_true rfl)
    (fun cond _ => by cases cond <;> rfl) ?_
  · rw [operandsText_byte hp, decodeBytePrefixOps, hop, Opcode.ofByte_code]
    simp only [ha, hb]
    rfl
  · rw [ha', hb', hp, show formatOf .mov pfxByte = .VI from rfl, Format.call, hp, hop]

theorem byte_sex (hi : InWidth i) (hop : i.opcode = Opcode.sex.code)
    (hp : i.pfx = pfxByte) : ReadsBack i := by
  obtain ⟨a, ha, ha'⟩ := reg32_of hi.operandA
  obtain ⟨b, hb, hb'⟩ := reg8_of hi.operandB
  refine readsBack_line hi hop .opSSex [.reg32 a, .reg8 b]
    (fun k => .fmtVI pfxByte k Opcode.sex.code (getRegForName a) (getReg8ForName b)) rfl
    ⟨.opSSex, by decide, by decide, fun _ _ => rfl⟩ ?_ (Nat.le_of_ble_eq_true rfl)
    (fun cond _ => by cases cond <;> rfl) ?_
  · rw [operandsText_byte hp, decodeBytePrefixOps, hop, Opcode.ofByte_code]
    simp only [ha, hb]
    rfl
  · rw [ha', hb', hp, show formatOf .sex pfxByte = .VI from rfl, Format.call, hp, hop]

theorem byte_storeid (hi : InWidth i) (hop : i.opcode = Opcode.storeid.code)
    (hp : i.pfx = pfxByte) : ReadsBack i := by
  obtain ⟨d, hd, hd'⟩ := reg32_of hi.destination
  obtain ⟨a, ha, ha'⟩ := reg8_of hi.operandA
  refine readsBack_line hi hop .opSStoreid [.reg32 d, .reg8 a, .imm i.imm12]
    (fun k => .fmtIII pfxByte k Opcode.storeid.code (getRegForName d) (getReg8ForName a)
      i.imm12) rfl
    ⟨.opSStoreid, by decide, by decide, fun _ _ => rfl⟩ ?_ (Nat.le_of_ble_eq_true rfl)
    (fun cond _ => by cases cond <;> exact congrArg some (checked hi.imm12)) ?_
  · rw [operandsText_byte hp, decodeBytePrefixOps, hop, Opcode.ofByte_code]
    simp only [hd, ha]
    exact (separated_three _ _ _).symm
  · rw [hd', ha', hp, show formatOf .storeid pfxByte = .III from rfl, Format.call, hp, hop]

theorem byte_storerd (hi : InWidth i) (hop : i.opcode = Opcode.storerd.code)
    (hp : i.pfx = pfxByte) : ReadsBack i := by
  obtain ⟨d, hd, hd'⟩ := reg32_of hi.destination
  obtain ⟨a, ha, ha'⟩ := reg8_of hi.operandA
  obtain ⟨b, hb, hb'⟩ := reg32_of hi.operandB
  refine readsBack_line hi hop .opSStorerd [.reg32 d, .reg8 a, .reg32 b]
    (fun k => .fmtII pfxByte k Opcode.storerd.code (getRegForName d) (getReg8ForName a)
      (getRegForName b)) rfl
    ⟨.opSStorerd, by decide, by decide, fun _ _ => rfl⟩ ?_ (Nat.le_of_ble_eq_true rfl)
    (fun cond _ => by cases cond <;> rfl) ?_
  · rw [operandsText_byte hp, decodeBytePrefixOps, hop, Opcode.ofByte_code]
    simp only [hd, ha, hb]
    exact (separated_three _ _ _).symm
  · rw [hd', ha', hb', hp, show formatOf .storerd pfxByte = .II from rfl, Format.call, hp, hop]

/-! ## Instructions with a conditional production that is missing or different -/

theorem condCode_some (c : Name conditionNames) : condCode (some c) ≠ Cond.always.code := by
  have : ∀ s ∈ conditionNames, getCondForName s ≠ Cond.always.code := by decide
  exact this c c.2

theorem word_loadrd (hi : InWidth i) (hop : i.opcode = Opcode.loadrd.code) (hp : i.pfx = pfxWord)
    (hc : i.condition = Cond.always.code ∨ i.destination = 0 ∧ i.operandB = 0) : ReadsBack i := by
  obtain ⟨d, hd, hd'⟩ := reg16_of hi.destination
  obtain ⟨a, ha, ha'⟩ := reg32_of hi.operandA
  obtain ⟨b, hb, hb'⟩ := reg32_of hi.operandB
  refine readsBack_line hi hop .opSLoadrd [.reg16 d, .reg32 a, .reg32 b]
    (fun k => .fmtII pfxWord k Opcode.loadrd.code (getReg16ForName d) (getRegForName a)
      (getRegForName b)) rfl
    ⟨.opSLoadrd, by decide, by decide, fun _ _ => rfl⟩ ?_ (Nat.le_of_ble_eq_true rfl)
    (fun cond hcond => ?_) ?_
  · rw [operandsText_word hp, decodeWordPrefixOps, hop, Opcode.ofByte_code]
    simp only [hd, ha, hb]
    exact (separated_three _ _ _).symm
  · cases cond with
    | none => rfl
    | some c =>
      obtain ⟨hd0, hb0⟩ := hc.resolve_left fun h => condCode_some c (hcond.trans h)
      have hexp : exp (instrTokens .opSLoadrd (some c) [.reg16 d, .reg32 a, .reg32 b])
          = some [.call (.fmtII pfxWord (getCondForName c) Opcode.loadrd.code (getReg8ForName d)
            (getRegForName a) (getReg16ForName b))] := rfl
      rw [hexp, getReg8ForName_reg16, getReg16ForName_reg32, hd', hb', hd0, hb0]
      rfl
  · rw [hd', ha', hb', hp, show formatOf .loadrd pfxWord = .II from rfl, Format.call, hp, hop]

theorem dword_xchgc (hi : InWidth i) (hop : i.opcode = Opcode.xchgc.code) (hp : i.pfx = pfxDword)
    (h8 : i.operandB.toNat < 8) (hc : i.condition = Cond.always.code ∨ i.operandB = 0) :
    ReadsBack i := by
  obtain ⟨a, ha, ha'⟩ := reg32_of hi.operandA
  obtain ⟨b, hb, hb'⟩ := creg_of h8
  refine readsBack_line hi hop .opSXchgc [.reg32 a, .creg b]
    (fun k => .fmtVI pfxDword k Opcode.xchgc.code (getRegForName a) (getCregForName b)) rfl
    ⟨.opSXchgc, by decide, by decide, fun _ _ => rfl⟩ ?_ (Nat.le_of_ble_eq_true rfl)
    (fun cond hcond => ?_) ?_
  · rw [operandsText_dword hp, decodeDwordPrefixOps, hop, Opcode.ofByte_code]
    simp only [ha, hb]
    rfl
  · cases cond with
    | none => rfl
    | some c =>
      have hb0 := hc.resolve_left fun h => condCode_some c (hcond.trans h)
      have hexp : exp (instrTokens .opSXchgc (some c) [.reg32 a, .creg b])
          = some [.call (.fmtVI pfxDword (getCondForName c) Opcode.xchgc.code (getRegForName a)
            (getReg8ForName b))] := rfl
      rw [hexp, getReg8ForName_creg, hb', hb0]
      rfl
  · rw [ha', hb', hp, show formatOf .xchgc pfxDword = .VI from rfl, Format.call, hp, hop]

/-- The two without a conditional production. -/
theorem dword_as {tok : Token} (hi : InWidth i) (hop : i.opcode = o.code) (hp : i.pfx = pfxDword)
    (ho : o = .storeas ∧ tok = .opSStoreas ∨ o = .loadas ∧ tok = .opSLoadas)
    (hc : i.condition = Cond.always.code) : ReadsBack i := by
  obtain ⟨d, hd, hd'⟩ := reg32_of hi.destination
  have hnone (cond : Option (Name conditionNames)) (h : condCode cond = i.condition) :
      cond = none := by
    cases cond with
    | none => rfl
    | some c => exact absurd (h.trans hc) (condCode_some c)
  obtain ⟨rfl, rfl⟩ | ⟨rfl, rfl⟩ := ho
  · refine readsBack_line hi hop .opSStoreas [.reg32 d]
      (fun k => .fmtV pfxDword k Opcode.storeas.code (getRegForName d)) rfl
      ⟨.opSStoreas, by decide, by decide, fun _ _ => rfl⟩ ?_ (Nat.le_of_ble_eq_true rfl)
      (fun cond h => by rw [hnone cond h]; rfl) ?_
    · rw [operandsText_dword hp, decodeDwordPrefixOps, hop, Opcode.ofByte_code]
      simp only [hd]
      rfl
    · rw [hd', hp, show formatOf .storeas pfxDword = .V from rfl, Format.call, hp, hop]
  · refine readsBack_line hi hop .opSLoadas [.reg32 d]
      (fun k => .fmtV pfxDword k Opcode.loadas.code (getRegForName d)) rfl
      ⟨.opSLoadas, by decide, by decide, fun _ _ => rfl⟩ ?_ (Nat.le_of_ble_eq_true rfl)
      (fun cond h => by rw [hnone cond h]; rfl) ?_
    · rw [operandsText_dword hp, decodeDwordPrefixOps, hop, Opcode.ofByte_code]
      simp only [hd]
      rfl
    · rw [hd', hp, show formatOf .loadas pfxDword = .V from rfl, Format.call, hp, hop]

/-! ## The marker -/

theorem getNameOfOp_length (b : Byte) : (getNameOfOp b).length ≤ 7 := by
  have htable : ∀ p ∈ oplkupbuf, ∀ name, p.2 = some name → name.length ≤ 7 := by decide
  unfold getNameOfOp nameOf
  split
  · next p name h => exact htable _ (List.mem_of_find?_eq_some h) _ rfl
  · decide
  · decide

theorem marked_of (hi : InWidth i) (h : operandsText i = msgInvalidArgs) :
    Marked (instructionText i) := by
  obtain ⟨cond, -, hcond⟩ := cond_of hi.condition
  have hone : operandsText i = separated [msgInvalidArgs] := h
  have htext := instructionText_eq rfl hcond hone (getNameOfOp_length _)
    (condText_length cond) (by decide) (by decide)
  rw [Marked, htext, String.toList_append]
  exact (List.suffix_append _ _).isInfix

end

end E2E
