import Emulathor.Disassembler.Proof.Text
import Emulathor.E2E.EncodeDecode

/-!
# Disassembling undoes assembling

`disasm_iff`: for every line with documented operands the disassembler prints, for the four bytes the
line is assembled to, the line's mnemonic and operands in their order, exactly when no operand is
`ST2`, `ST3` or `ST4`. In the table of control registers these three have the code of `ST1`, so
`ST1` is what is printed for them (`Operand.printed`); every other name's code has that name again.
-/

namespace E2E

open Common Lib Assembler Disassembler

/-! ## Lines -/

inductive Operand
  | reg32 (name : Name reg32Names)
  | reg16 (name : Name reg16Names)
  | reg8 (name : Name reg8Names)
  | creg (name : Name cregNames)
  | imm (val : Word)

namespace Operand

def token : Operand → Token
  | reg32 name => .reg32 name
  | reg16 name => .reg16 name
  | reg8 name => .reg8 name
  | creg name => .creg name
  | imm val => .int val

/-- The operand as written, an immediate as four digits. -/
def text : Operand → String
  | reg32 name => name
  | reg16 name => name
  | reg8 name => name
  | creg name => name
  | imm val => hex4 val

/-- The control registers with the code of `ST1`. -/
def aliases : List String := ["ST2", "ST3", "ST4"]

/-- The operand as the disassembler prints it. -/
def printed : Operand → String
  | creg name => if name.val ∈ aliases then "ST1" else name
  | o => o.text

end Operand

/-- The tokens of a line. -/
def lineTokens (o : Token) : List Operand → List Token
  | [] => [o]
  | args => o :: .space :: (args.map Operand.token).intersperse .comma

/-- The mnemonic of an instruction's token. -/
def mnemonic : Token → String
  | .opFmtI op => op
  | .opFmtII op => op
  | .opFmtIV op => op
  | .opFmtV op => op
  | .opFmtVI op => op
  | .opFmtVIC op => op
  | .opFmtVIII op => op
  | .opSCmpxchg => "CMPXCHG"
  | .opSLoadi => "LOADI"
  | .opSLoadid => "LOADID"
  | .opSLoadrd => "LOADRD"
  | .opSMov => "MOV"
  | .opSSex => "SEX"
  | .opSStoreid => "STOREID"
  | .opSStorerd => "STORERD"
  | .opSXchgc => "XCHGC"
  | .opSLoadas => "LOADAS"
  | .opSStoreas => "STOREAS"
  | _ => ""

/-- The text of a line, given its operands' texts. -/
def lineText (o : Token) (texts : List String) : String := mnemonic o ++ "\t\t" ++ separated texts

/-- The documented operands of each mnemonic, and `MOD` with an immediate, which is not. -/
inductive Documented : Token → List Operand → Prop
  | fmtI (op) : Documented (.opFmtI op) []
  | fmtII (op dst a b) : Documented (.opFmtII op) [.reg32 dst, .reg32 a, .reg32 b]
  | fmtIII (op dst a) {k : Word} (h : k.toNat < 4096) :
    Documented (.opFmtII op) [.reg32 dst, .reg32 a, .imm k]
  | fmtIV (op dst k) : Documented (.opFmtIV op) [.reg32 dst, .imm k]
  | fmtV (op dst) : Documented (.opFmtV op) [.reg32 dst]
  | fmtVIofV (op k) : Documented (.opFmtV op) [.imm k]
  | fmtVI (op a b) : Documented (.opFmtVI op) [.reg32 a, .reg32 b]
  | cmp (a) {k : Word} (h : k.toNat < 4096) :
    Documented (.opFmtVI ⟨"CMP", by decide⟩) [.reg32 a, .imm k]
  | movtc (a b) : Documented (.opFmtVIC ⟨"MOVTC", by decide⟩) [.creg a, .reg32 b]
  | movfc (a b) : Documented (.opFmtVIC ⟨"MOVFC", by decide⟩) [.reg32 a, .creg b]
  | fmtVIII (op k) : Documented (.opFmtVIII op) [.imm k]
  | cmpxchg (dst a b) : Documented .opSCmpxchg [.reg32 dst, .reg32 a, .reg32 b]
  | loadi8 (dst k) : Documented .opSLoadi [.reg8 dst, .imm k]
  | loadi16 (dst k) : Documented .opSLoadi [.reg16 dst, .imm k]
  | loadid32 (dst a) {k : Word} (h : k.toNat < 4096) :
    Documented .opSLoadid [.reg32 dst, .reg32 a, .imm k]
  | loadid16 (dst a) {k : Word} (h : k.toNat < 4096) :
    Documented .opSLoadid [.reg16 dst, .reg32 a, .imm k]
  | loadid8 (dst a) {k : Word} (h : k.toNat < 4096) :
    Documented .opSLoadid [.reg8 dst, .reg32 a, .imm k]
  | loadrd32 (dst a b) : Documented .opSLoadrd [.reg32 dst, .reg32 a, .reg32 b]
  | loadrd16 (dst a b) : Documented .opSLoadrd [.reg16 dst, .reg32 a, .reg32 b]
  | loadrd8 (dst a b) : Documented .opSLoadrd [.reg8 dst, .reg32 a, .reg32 b]
  | mov32 (a b) : Documented .opSMov [.reg32 a, .reg32 b]
  | mov16 (a b) : Documented .opSMov [.reg16 a, .reg16 b]
  | mov8 (a b) : Documented .opSMov [.reg8 a, .reg8 b]
  | sex16 (a b) : Documented .opSSex [.reg32 a, .reg16 b]
  | sex8 (a b) : Documented .opSSex [.reg32 a, .reg8 b]
  | storeid32 (dst a) {k : Word} (h : k.toNat < 4096) :
    Documented .opSStoreid [.reg32 dst, .reg32 a, .imm k]
  | storeid16 (dst a) {k : Word} (h : k.toNat < 4096) :
    Documented .opSStoreid [.reg32 dst, .reg16 a, .imm k]
  | storeid8 (dst a) {k : Word} (h : k.toNat < 4096) :
    Documented .opSStoreid [.reg32 dst, .reg8 a, .imm k]
  | storerd32 (dst a b) : Documented .opSStorerd [.reg32 dst, .reg32 a, .reg32 b]
  | storerd16 (dst a b) : Documented .opSStorerd [.reg32 dst, .reg16 a, .reg32 b]
  | storerd8 (dst a b) : Documented .opSStorerd [.reg32 dst, .reg8 a, .reg32 b]
  | xchgc (a b) : Documented .opSXchgc [.reg32 a, .creg b]
  | storeas (dst) : Documented .opSStoreas [.reg32 dst]
  | loadas (dst) : Documented .opSLoadas [.reg32 dst]

/-- The line assembles to four bytes, for which the disassembler prints `text`. -/
def Prints (toks : List Token) (text : String) : Prop :=
  ∃ acts b0 b1 b2 b3, exp toks = some acts ∧
    (∀ t, lineBytes t acts = .ok [b0, b1, b2, b3]) ∧ vasmdisDisasmInstruction b0 b1 b2 b3 = text

/-! ## Names -/

theorem getNameOfReg_name (n : Name reg32Names) : getNameOfReg (getRegForName n) = n.val := by
  have : ∀ s ∈ reg32Names, getNameOfReg (getRegForName s) = s := by decide
  exact this n n.2

theorem getNameOfReg16_name (n : Name reg16Names) : getNameOfReg16 (getReg16ForName n) = n.val := by
  have : ∀ s ∈ reg16Names, getNameOfReg16 (getReg16ForName s) = s := by decide
  exact this n n.2

theorem getNameOfReg8_name (n : Name reg8Names) : getNameOfReg8 (getReg8ForName n) = n.val := by
  have : ∀ s ∈ reg8Names, getNameOfReg8 (getReg8ForName s) = s := by decide
  exact this n n.2

/-- Three names of the table of control registers have the code of `ST1`. -/
theorem getNameOfCreg_name (n : Name cregNames) :
    getNameOfCreg (getCregForName n) = (Operand.creg n).printed := by
  have : ∀ s ∈ cregNames,
      getNameOfCreg (getCregForName s) = if s ∈ Operand.aliases then "ST1" else s := by decide
  exact this n n.2

/-- The opcodes of a format's mnemonics. -/
theorem opcode_of_mem {names : List String} (ops : List Opcode)
    (h : ∀ s ∈ names, ∃ o ∈ ops, getOpForName s = o.code ∧ getNameOfOp o.code = s)
    (n : Name names) : ∃ o ∈ ops, getOpForName n = o.code ∧ getNameOfOp o.code = n.val := h n n.2

theorem text_length (o : Operand) : o.printed.length ≤ 6 := by
  cases o with
  | reg32 n =>
    have : ∀ s ∈ reg32Names, s.length ≤ 6 := by decide
    exact this n n.2
  | reg16 n =>
    have : ∀ s ∈ reg16Names, s.length ≤ 6 := by decide
    exact this n n.2
  | reg8 n =>
    have : ∀ s ∈ reg8Names, s.length ≤ 6 := by decide
    exact this n n.2
  | creg n =>
    have : ∀ s ∈ cregNames, (if s ∈ Operand.aliases then "ST1" else s).length ≤ 6 := by decide
    exact this n n.2
  | imm k =>
    show (hex4 k).length ≤ 6
    rw [hex4, String.length_append, String.length_ofList, String.length_ofList]
    exact Nat.le_refl 6

/-! ## Texts by format -/

def formatI : List Opcode := [.iret, .stop]

def formatII : List Opcode :=
  [.add, .and, .div, .or, .mod, .mul, .sar, .sdiv, .shl, .shr, .smul, .sub, .xor]

def formatIV : List Opcode := [.loadma, .storema]
def formatV : List Opcode := [.call, .jmp, .test]
def formatVI : List Opcode := [.cmp, .in_, .not, .out, .xchg]
def formatVIII : List Opcode := [.fail, .int]

section
variable {i : Instruction} {o : Opcode}

theorem decodeDword_fmtI (h : o ∈ formatI) (hi : i.opcode = o.code) :
    decodeDwordPrefixOps i = separated [] := by
  rw [decodeDwordPrefixOps, hi, Opcode.ofByte_code]
  cases o with
  | iret | stop => rfl
  | _ => exact absurd h (by decide)

theorem decodeDword_fmtII (h : o ∈ formatII) (hi : i.opcode = o.code) :
    decodeDwordPrefixOps i = separated [getNameOfReg i.destination, getNameOfReg i.operandA,
      getNameOfReg i.operandB] := by
  rw [decodeDwordPrefixOps, hi, Opcode.ofByte_code, separated_three]
  cases o with
  | add | and | div | or | mod | mul | sar | sdiv | shl | shr | smul | sub | xor => rfl
  | _ => exact absurd h (by decide)

theorem decodeImmediate_fmtIII (h : o ∈ formatII) (hi : i.opcode = o.code) :
    decodeImmediatePrefixOps i = separated [getNameOfReg i.destination, getNameOfReg i.operandA,
      hex4 i.imm12] := by
  rw [decodeImmediatePrefixOps, hi, Opcode.ofByte_code, separated_three]
  cases o with
  | add | and | div | or | mod | mul | sar | sdiv | shl | shr | smul | sub | xor => rfl
  | _ => exact absurd h (by decide)

theorem decodeImmediate_fmtIV (h : o ∈ formatIV) (hi : i.opcode = o.code) :
    decodeImmediatePrefixOps i = separated [getNameOfReg i.destination, hex4 i.imm16] := by
  rw [decodeImmediatePrefixOps, hi, Opcode.ofByte_code]
  cases o with
  | loadma | storema => rfl
  | _ => exact absurd h (by decide)

theorem decodeDword_fmtV (h : o ∈ formatV) (hi : i.opcode = o.code) :
    decodeDwordPrefixOps i = separated [getNameOfReg i.destination] := by
  rw [decodeDwordPrefixOps, hi, Opcode.ofByte_code]
  cases o with
  | call | jmp | test => rfl
  | _ => exact absurd h (by decide)

theorem decodeDword_fmtVI (h : o ∈ formatVI) (hi : i.opcode = o.code) :
    decodeDwordPrefixOps i = separated [getNameOfReg i.operandA, getNameOfReg i.operandB] := by
  rw [decodeDwordPrefixOps, hi, Opcode.ofByte_code]
  cases o with
  | cmp | in_ | not | out | xchg => rfl
  | _ => exact absurd h (by decide)

theorem decodeImmediate_fmtVIII (h : o ∈ formatV ++ formatVIII)
    (hi : i.opcode = o.code) : decodeImmediatePrefixOps i = separated [hex4 i.imm16] := by
  rw [decodeImmediatePrefixOps, hi, Opcode.ofByte_code]
  cases o with
  | call | fail | int | jmp | test => rfl
  | _ => exact absurd h (by decide)

end

/-! ## The lines printed -/

theorem Documented.length {tok : Token} {args : List Operand} (h : Documented tok args) :
    args.length ≤ 3 := by
  cases h <;> simp

theorem mnemonic_length (tok : Token) : (mnemonic tok).length ≤ 7 := by
  have short {names : List String} (h : ∀ s ∈ names, s.length ≤ 7) (n : Name names) :
      n.val.length ≤ 7 := h n n.2
  cases tok with
  | opFmtI op => exact short (by decide) op
  | opFmtII op => exact short (by decide) op
  | opFmtIV op => exact short (by decide) op
  | opFmtV op => exact short (by decide) op
  | opFmtVI op => exact short (by decide) op
  | opFmtVIC op => exact short (by decide) op
  | opFmtVIII op => exact short (by decide) op
  | opSCmpxchg | opSLoadi | opSLoadid | opSLoadrd | opSMov | opSSex | opSStoreid | opSStorerd
  | opSXchgc | opSLoadas | opSStoreas => decide
  | _ => exact Nat.zero_le 7

section
variable {toks : List Token} {tok : Token} {args : List Operand} {o : Opcode}
  {pfx op dst a b : Byte} {k : Word}

/-- A line of one call is printed as what its fields say. -/
theorem prints_call {c : EmitCall} (hexp : exp toks = some [.call c]) (hr : InRange c)
    (hn : args.length ≤ 3)
    (h : ∀ i : Instruction, Encodes (ofInstruction i) c → getNameOfOp i.opcode = mnemonic tok ∧
      i.condition = cAlways ∧ operandsText i = separated (args.map Operand.printed)) :
    Prints toks (lineText tok (args.map Operand.printed)) := by
  obtain ⟨b0, b1, b2, b3, hb⟩ := hr.bytes
  obtain ⟨hop, hcond, hargs⟩ := h _ (encodes_of_bytes hr hb)
  refine ⟨_, b0, b1, b2, b3, hexp, fun t => ?_, ?_⟩
  · rw [← hb]
    exact lineBytes_call (by rw [hb]; exact List.cons_ne_nil _ _)
  · have hname : getNameOfCond (vasmdisBytesToInstruction b0 b1 b2 b3).condition = "" := by
      rw [hcond]
      rfl
    have htext := instructionText_eq hop hname hargs (mnemonic_length tok) (by decide)
      (by rwa [List.length_map]) fun s hs => by
        obtain ⟨x, -, rfl⟩ := List.mem_map.1 hs
        exact Nat.le_trans (text_length x) (by decide)
    rwa [String.append_empty, ← disasm_eq_text] at htext

theorem prints_fmtII (hexp : exp toks = some [.call (.fmtII pfx cAlways op dst a b)])
    (hop : op = o.code) (hname : getNameOfOp o.code = mnemonic tok) (hp : pfx.toNat < 4) (hd : dst.toNat < 16)
    (ha : a.toNat < 16) (hb : b.toNat < 16) (hn : args.length ≤ 3)
    (h : ∀ i : Instruction, i.pfx = pfx → i.opcode = o.code → i.destination = dst →
      i.operandA = a → i.operandB = b → operandsText i = separated (args.map Operand.printed)) :
    Prints toks (lineText tok (args.map Operand.printed)) := by
  subst hop
  refine prints_call hexp ⟨⟨hp, by decide, o.code_lt⟩, hd, ha, hb⟩ hn fun i hi => ?_
  obtain ⟨⟨hpi, hci, hoi⟩, hdi, hai, hbi⟩ := hi
  exact ⟨by rw [show i.opcode = o.code from hoi, hname], hci, h i hpi hoi hdi hai hbi⟩

theorem prints_fmtIII (hexp : exp toks = some [.call (.fmtIII pfx cAlways op dst a k)])
    (hop : op = o.code) (hname : getNameOfOp o.code = mnemonic tok) (hp : pfx.toNat < 4) (hd : dst.toNat < 16)
    (ha : a.toNat < 16) (hk : k.toNat < 4096) (hn : args.length ≤ 3)
    (h : ∀ i : Instruction, i.pfx = pfx → i.opcode = o.code → i.destination = dst →
      i.operandA = a → i.imm12 = k → operandsText i = separated (args.map Operand.printed)) :
    Prints toks (lineText tok (args.map Operand.printed)) := by
  subst hop
  refine prints_call hexp ⟨⟨hp, by decide, o.code_lt⟩, hd, ha, hk⟩ hn fun i hi => ?_
  obtain ⟨⟨hpi, hci, hoi⟩, hdi, hai, hki⟩ := hi
  exact ⟨by rw [show i.opcode = o.code from hoi, hname], hci, h i hpi hoi hdi hai hki⟩

theorem prints_fmtIV (hexp : exp toks = some [.call (.fmtIV pfx cAlways op dst k)])
    (hop : op = o.code) (hname : getNameOfOp o.code = mnemonic tok) (hp : pfx.toNat < 4) (hd : dst.toNat < 16)
    (hn : args.length ≤ 3)
    (h : ∀ i : Instruction, i.pfx = pfx → i.opcode = o.code → i.destination = dst →
      i.imm16 = k → operandsText i = separated (args.map Operand.printed)) :
    Prints toks (lineText tok (args.map Operand.printed)) := by
  subst hop
  refine prints_call hexp ⟨⟨hp, by decide, o.code_lt⟩, hd⟩ hn fun i hi => ?_
  obtain ⟨⟨hpi, hci, hoi⟩, hdi, hki⟩ := hi
  exact ⟨by rw [show i.opcode = o.code from hoi, hname], hci, h i hpi hoi hdi hki⟩

theorem prints_fmtV (hexp : exp toks = some [.call (.fmtV pfx cAlways op dst)])
    (hop : op = o.code) (hname : getNameOfOp o.code = mnemonic tok) (hp : pfx.toNat < 4) (hd : dst.toNat < 16)
    (hn : args.length ≤ 3)
    (h : ∀ i : Instruction, i.pfx = pfx → i.opcode = o.code → i.destination = dst →
      operandsText i = separated (args.map Operand.printed)) :
    Prints toks (lineText tok (args.map Operand.printed)) := by
  subst hop
  refine prints_call hexp ⟨⟨hp, by decide, o.code_lt⟩, hd⟩ hn fun i hi => ?_
  obtain ⟨⟨hpi, hci, hoi⟩, hdi⟩ := hi
  exact ⟨by rw [show i.opcode = o.code from hoi, hname], hci, h i hpi hoi hdi⟩

theorem prints_fmtVI (hexp : exp toks = some [.call (.fmtVI pfx cAlways op a b)])
    (hop : op = o.code) (hname : getNameOfOp o.code = mnemonic tok) (hp : pfx.toNat < 4) (ha : a.toNat < 16)
    (hb : b.toNat < 16) (hn : args.length ≤ 3)
    (h : ∀ i : Instruction, i.pfx = pfx → i.opcode = o.code → i.operandA = a →
      i.operandB = b → operandsText i = separated (args.map Operand.printed)) :
    Prints toks (lineText tok (args.map Operand.printed)) := by
  subst hop
  refine prints_call hexp ⟨⟨hp, by decide, o.code_lt⟩, ha, hb⟩ hn fun i hi => ?_
  obtain ⟨⟨hpi, hci, hoi⟩, hai, hbi⟩ := hi
  exact ⟨by rw [show i.opcode = o.code from hoi, hname], hci, h i hpi hoi hai hbi⟩

theorem prints_fmtVIII (hexp : exp toks = some [.call (.fmtVIII pfx cAlways op k)])
    (hop : op = o.code) (hname : getNameOfOp o.code = mnemonic tok) (hp : pfx.toNat < 4) (hn : args.length ≤ 3)
    (h : ∀ i : Instruction, i.pfx = pfx → i.opcode = o.code → i.imm16 = k →
      operandsText i = separated (args.map Operand.printed)) :
    Prints toks (lineText tok (args.map Operand.printed)) := by
  subst hop
  refine prints_call hexp ⟨hp, by decide, o.code_lt⟩ hn fun i hi => ?_
  obtain ⟨⟨hpi, hci, hoi⟩, hki⟩ := hi
  exact ⟨by rw [show i.opcode = o.code from hoi, hname], hci, h i hpi hoi hki⟩

end

/-- **What is printed** for a documented line. -/
theorem prints_documented {tok : Token} {args : List Operand} (h : Documented tok args) :
    Prints (lineTokens tok args) (lineText tok (args.map Operand.printed)) := by
  have hn := h.length
  have hr := getRegForName_lt
  have hr16 := getReg16ForName_lt
  have hr8 := getReg8ForName_lt
  have hcr := getCregForName_lt
  cases h with
  | fmtI op =>
    obtain ⟨o, ho, hcode, hname⟩ := opcode_of_mem formatI (by decide) op
    refine prints_call rfl ⟨by decide, by decide, getOpForName_lt _⟩ hn fun i hi => ?_
    obtain ⟨hp, hc, hop⟩ := hi
    have hop' : i.opcode = o.code := hop.trans hcode
    exact ⟨by rw [hop', hname]; rfl, hc, by rw [operandsText_dword hp, decodeDword_fmtI ho hop']; rfl⟩
  | fmtII op dst a b =>
    obtain ⟨o, ho, hcode, hname⟩ := opcode_of_mem formatII (by decide) op
    refine prints_fmtII rfl hcode hname (by decide) (hr _) (hr _) (hr _) hn fun i hp hop hd ha hb => ?_
    rw [operandsText_dword hp, decodeDword_fmtII ho hop, hd, ha, hb]
    simp only [getNameOfReg_name]
    rfl
  | fmtIII op dst a hk =>
    obtain ⟨o, ho, hcode, hname⟩ := opcode_of_mem formatII (by decide) op
    refine prints_fmtIII (congrArg some (checked hk)) hcode hname (by decide) (hr _) (hr _) hk hn fun i hp hop hd ha hi => ?_
    rw [operandsText_imm hp, decodeImmediate_fmtIII ho hop, hd, ha, hi]
    simp only [getNameOfReg_name]
    rfl
  | fmtIV op dst k =>
    obtain ⟨o, ho, hcode, hname⟩ := opcode_of_mem formatIV (by decide) op
    refine prints_fmtIV rfl hcode hname (by decide) (hr _) hn fun i hp hop hd hi => ?_
    rw [operandsText_imm hp, decodeImmediate_fmtIV ho hop, hd, hi, getNameOfReg_name]
    rfl
  | fmtV op dst =>
    obtain ⟨o, ho, hcode, hname⟩ := opcode_of_mem formatV (by decide) op
    refine prints_fmtV rfl hcode hname (by decide) (hr _) hn fun i hp hop hd => ?_
    rw [operandsText_dword hp, decodeDword_fmtV ho hop, hd, getNameOfReg_name]
    rfl
  | fmtVIofV op k =>
    obtain ⟨o, ho, hcode, hname⟩ := opcode_of_mem formatV (by decide) op
    refine prints_fmtVIII rfl hcode hname (by decide) hn fun i hp hop hi => ?_
    rw [operandsText_imm hp, decodeImmediate_fmtVIII (List.mem_append_left _ ho) hop, hi]
    rfl
  | fmtVI op a b =>
    obtain ⟨o, ho, hcode, hname⟩ := opcode_of_mem formatVI (by decide) op
    refine prints_fmtVI rfl hcode hname (by decide) (hr _) (hr _) hn fun i hp hop ha hb => ?_
    rw [operandsText_dword hp, decodeDword_fmtVI ho hop, ha, hb]
    simp only [getNameOfReg_name]
    rfl
  | cmp a hk =>
    refine prints_call (congrArg some (checked hk)) ⟨⟨by decide, by decide, by decide⟩, hr _, hk⟩ hn
      fun i hi => ?_
    obtain ⟨⟨hp, hc, hop⟩, ha, hk'⟩ := hi
    have hop' : i.opcode = Opcode.cmp.code := hop
    refine ⟨by rw [hop']; rfl, hc, ?_⟩
    rw [operandsText_imm hp, decodeImmediatePrefixOps, hop', Opcode.ofByte_code,
      show i.operandA = _ from ha, show i.imm12 = _ from hk', getNameOfReg_name]
    rfl
  | fmtVIII op k =>
    obtain ⟨o, ho, hcode, hname⟩ := opcode_of_mem formatVIII (by decide) op
    refine prints_fmtVIII rfl hcode hname (by decide) hn fun i hp hop hi => ?_
    rw [operandsText_imm hp, decodeImmediate_fmtVIII (List.mem_append_right _ ho) hop, hi]
    rfl
  | cmpxchg dst a b =>
    refine prints_fmtII rfl rfl rfl (by decide) (hr _) (hr _) (hr _) hn
      fun i hp hop hd ha hb => ?_
    rw [operandsText_dword hp, decodeDwordPrefixOps, hop, Opcode.ofByte_code]
    simp only [hd, ha, hb, getNameOfReg_name]
    exact (separated_three _ _ _).symm
  | loadi8 dst k =>
    refine prints_fmtIV rfl rfl rfl (by decide) (hr8 _) hn
      fun i hp hop hd hi => ?_
    rw [operandsText_byte hp, decodeBytePrefixOps, hop, Opcode.ofByte_code]
    simp only [hd, hi, getNameOfReg8_name]
    rfl
  | loadi16 dst k =>
    refine prints_fmtIV rfl rfl rfl (by decide) (hr16 _) hn
      fun i hp hop hd hi => ?_
    rw [operandsText_word hp, decodeWordPrefixOps, hop, Opcode.ofByte_code]
    simp only [hd, hi, getNameOfReg16_name]
    rfl
  | loadid32 dst a hk =>
    refine prints_fmtIII (congrArg some (checked hk)) rfl rfl (by decide) (hr _) (hr _) hk hn
      fun i hp hop hd ha hi => ?_
    rw [operandsText_dword hp, decodeDwordPrefixOps, hop, Opcode.ofByte_code]
    simp only [hd, ha, hi, getNameOfReg_name]
    exact (separated_three _ _ _).symm
  | loadid16 dst a hk =>
    refine prints_fmtIII (congrArg some (checked hk)) rfl rfl (by decide) (hr16 _) (hr _) hk hn
      fun i hp hop hd ha hi => ?_
    rw [operandsText_word hp, decodeWordPrefixOps, hop, Opcode.ofByte_code]
    simp only [hd, ha, hi, getNameOfReg16_name, getNameOfReg_name]
    exact (separated_three _ _ _).symm
  | loadid8 dst a hk =>
    refine prints_fmtIII (congrArg some (checked hk)) rfl rfl (by decide) (hr8 _) (hr _) hk hn
      fun i hp hop hd ha hi => ?_
    rw [operandsText_byte hp, decodeBytePrefixOps, hop, Opcode.ofByte_code]
    simp only [hd, ha, hi, getNameOfReg8_name, getNameOfReg_name]
    exact (separated_three _ _ _).symm
  | loadrd32 dst a b =>
    refine prints_fmtII rfl rfl rfl (by decide) (hr _) (hr _) (hr _) hn
      fun i hp hop hd ha hb => ?_
    rw [operandsText_dword hp, decodeDwordPrefixOps, hop, Opcode.ofByte_code]
    simp only [hd, ha, hb, getNameOfReg_name]
    exact (separated_three _ _ _).symm
  | loadrd16 dst a b =>
    refine prints_fmtII rfl rfl rfl (by decide) (hr16 _) (hr _) (hr _) hn
      fun i hp hop hd ha hb => ?_
    rw [operandsText_word hp, decodeWordPrefixOps, hop, Opcode.ofByte_code]
    simp only [hd, ha, hb, getNameOfReg16_name, getNameOfReg_name]
    exact (separated_three _ _ _).symm
  | loadrd8 dst a b =>
    refine prints_fmtII rfl rfl rfl (by decide) (hr8 _) (hr _) (hr _) hn
      fun i hp hop hd ha hb => ?_
    rw [operandsText_byte hp, decodeBytePrefixOps, hop, Opcode.ofByte_code]
    simp only [hd, ha, hb, getNameOfReg8_name, getNameOfReg_name]
    exact (separated_three _ _ _).symm
  | mov32 a b =>
    refine prints_fmtVI rfl (show getOpForName "MOV" = Opcode.mov.code by decide) rfl (by decide) (hr _) (hr _) hn
      fun i hp hop ha hb => ?_
    rw [operandsText_dword hp, decodeDwordPrefixOps, hop, Opcode.ofByte_code]
    simp only [ha, hb, getNameOfReg_name]
    rfl
  | mov16 a b =>
    refine prints_fmtVI rfl (show getOpForName "MOV" = Opcode.mov.code by decide) rfl (by decide) (hr16 _) (hr16 _) hn
      fun i hp hop ha hb => ?_
    rw [operandsText_word hp, decodeWordPrefixOps, hop, Opcode.ofByte_code]
    simp only [ha, hb, getNameOfReg16_name]
    rfl
  | mov8 a b =>
    refine prints_fmtVI rfl (show getOpForName "MOV" = Opcode.mov.code by decide) rfl (by decide) (hr8 _) (hr8 _) hn
      fun i hp hop ha hb => ?_
    rw [operandsText_byte hp, decodeBytePrefixOps, hop, Opcode.ofByte_code]
    simp only [ha, hb, getNameOfReg8_name]
    rfl
  | sex16 a b =>
    refine prints_fmtVI rfl rfl rfl (by decide) (hr _) (hr16 _) hn
      fun i hp hop ha hb => ?_
    rw [operandsText_word hp, decodeWordPrefixOps, hop, Opcode.ofByte_code]
    simp only [ha, hb, getNameOfReg16_name, getNameOfReg_name]
    rfl
  | sex8 a b =>
    refine prints_fmtVI rfl rfl rfl (by decide) (hr _) (hr8 _) hn
      fun i hp hop ha hb => ?_
    rw [operandsText_byte hp, decodeBytePrefixOps, hop, Opcode.ofByte_code]
    simp only [ha, hb, getNameOfReg8_name, getNameOfReg_name]
    rfl
  | storeid32 dst a hk =>
    refine prints_fmtIII (congrArg some (checked hk)) rfl rfl (by decide) (hr _) (hr _) hk hn
      fun i hp hop hd ha hi => ?_
    rw [operandsText_dword hp, decodeDwordPrefixOps, hop, Opcode.ofByte_code]
    simp only [hd, ha, hi, getNameOfReg_name]
    exact (separated_three _ _ _).symm
  | storeid16 dst a hk =>
    refine prints_fmtIII (congrArg some (checked hk)) rfl rfl (by decide) (hr _) (hr16 _) hk hn
      fun i hp hop hd ha hi => ?_
    rw [operandsText_word hp, decodeWordPrefixOps, hop, Opcode.ofByte_code]
    simp only [hd, ha, hi, getNameOfReg16_name, getNameOfReg_name]
    exact (separated_three _ _ _).symm
  | storeid8 dst a hk =>
    refine prints_fmtIII (congrArg some (checked hk)) rfl rfl (by decide) (hr _) (hr8 _) hk hn
      fun i hp hop hd ha hi => ?_
    rw [operandsText_byte hp, decodeBytePrefixOps, hop, Opcode.ofByte_code]
    simp only [hd, ha, hi, getNameOfReg8_name, getNameOfReg_name]
    exact (separated_three _ _ _).symm
  | storerd32 dst a b =>
    refine prints_fmtII rfl rfl rfl (by decide) (hr _) (hr _) (hr _) hn
      fun i hp hop hd ha hb => ?_
    rw [operandsText_dword hp, decodeDwordPrefixOps, hop, Opcode.ofByte_code]
    simp only [hd, ha, hb, getNameOfReg_name]
    exact (separated_three _ _ _).symm
  | storerd16 dst a b =>
    refine prints_fmtII rfl rfl rfl (by decide) (hr _) (hr16 _) (hr _) hn
      fun i hp hop hd ha hb => ?_
    rw [operandsText_word hp, decodeWordPrefixOps, hop, Opcode.ofByte_code]
    simp only [hd, ha, hb, getNameOfReg16_name, getNameOfReg_name]
    exact (separated_three _ _ _).symm
  | storerd8 dst a b =>
    refine prints_fmtII rfl rfl rfl (by decide) (hr _) (hr8 _) (hr _) hn
      fun i hp hop hd ha hb => ?_
    rw [operandsText_byte hp, decodeBytePrefixOps, hop, Opcode.ofByte_code]
    simp only [hd, ha, hb, getNameOfReg8_name, getNameOfReg_name]
    exact (separated_three _ _ _).symm
  | movtc a b =>
    refine prints_fmtVI rfl (show getOpForName "MOVTC" = Opcode.movtc.code by decide) rfl (by decide) (hcr _) (hr _) hn
      fun i hp hop ha hb => ?_
    rw [operandsText_dword hp, decodeDwordPrefixOps, hop, Opcode.ofByte_code]
    simp only [ha, hb, getNameOfCreg_name, getNameOfReg_name]
    rfl
  | movfc a b =>
    refine prints_fmtVI rfl (show getOpForName "MOVFC" = Opcode.movfc.code by decide) rfl (by decide) (hr _) (hcr _) hn
      fun i hp hop ha hb => ?_
    rw [operandsText_dword hp, decodeDwordPrefixOps, hop, Opcode.ofByte_code]
    simp only [ha, hb, getNameOfCreg_name, getNameOfReg_name]
    rfl
  | xchgc a b =>
    refine prints_fmtVI rfl rfl rfl (by decide) (hr _) (hcr _) hn
      fun i hp hop ha hb => ?_
    rw [operandsText_dword hp, decodeDwordPrefixOps, hop, Opcode.ofByte_code]
    simp only [ha, hb, getNameOfCreg_name, getNameOfReg_name]
    rfl
  | storeas dst =>
    refine prints_fmtV rfl rfl rfl (by decide) (hr _) hn
      fun i hp hop hd => ?_
    rw [operandsText_dword hp, decodeDwordPrefixOps, hop, Opcode.ofByte_code]
    simp only [hd, getNameOfReg_name]
    rfl
  | loadas dst =>
    refine prints_fmtV rfl rfl rfl (by decide) (hr _) hn
      fun i hp hop hd => ?_
    rw [operandsText_dword hp, decodeDwordPrefixOps, hop, Opcode.ofByte_code]
    simp only [hd, getNameOfReg_name]
    rfl

/-! ## The operands read back -/

theorem Prints.unique {toks : List Token} {text text' : String} (h : Prints toks text)
    (h' : Prints toks text') : text = text' := by
  obtain ⟨acts, b0, b1, b2, b3, hexp, hbytes, rfl⟩ := h
  obtain ⟨acts', c0, c1, c2, c3, hexp', hbytes', rfl⟩ := h'
  cases hexp.symm.trans hexp'
  cases (hbytes fun _ => none).symm.trans (hbytes' fun _ => none)
  rfl

theorem printed_length (o : Operand) : o.printed.length = o.text.length := by
  cases o with
  | creg n =>
    have : ∀ s ∈ cregNames,
        (if s ∈ Operand.aliases then "ST1" else s).length = s.length := by decide
    exact this n n.2
  | _ => rfl

theorem printed_eq_text_iff (o : Operand) :
    o.printed = o.text ↔ ∀ n, o = .creg n → n.val ∉ Operand.aliases := by
  cases o with
  | creg n =>
    have hname : ∀ s ∈ cregNames,
        (if s ∈ Operand.aliases then "ST1" else s) = s ↔ s ∉ Operand.aliases := by decide
    refine (hname n n.2).trans ⟨fun h m hm => ?_, fun h => h n rfl⟩
    cases hm
    exact h
  | _ => exact iff_of_true rfl fun _ hn => nomatch hn

/-- **Disassembling undoes assembling** for the lines without `ST2`, `ST3` and `ST4`. -/
theorem disasm_iff {tok : Token} {args : List Operand} (h : Documented tok args) :
    Prints (lineTokens tok args) (lineText tok (args.map Operand.text)) ↔
      ∀ n, Operand.creg n ∈ args → n.val ∉ Operand.aliases := by
  have hprinted := prints_documented h
  constructor
  · intro htext n hn
    have hline := (String.append_right_inj _).1 (hprinted.unique htext)
    have hop := separated_map_inj printed_length hline (.creg n) hn
    exact (printed_eq_text_iff _).1 hop n rfl
  · intro hno
    have hmap : args.map Operand.printed = args.map Operand.text :=
      List.map_congr_left fun o ho =>
        (printed_eq_text_iff o).2 fun n hn => hno n (by rwa [← hn])
    rwa [hmap] at hprinted

/-- `MOVTC ST2,R0`. -/
def movtcArgs : List Operand := [.creg ⟨"ST2", by decide⟩, .reg32 nameR0]

/-- `MOVTC ST2,R0` is not printed as it is written, `MOVTC ST1,R0` is. -/
theorem disasm_iff_movtc :
    ¬ Prints (lineTokens (.opFmtVIC ⟨"MOVTC", by decide⟩) movtcArgs)
      (lineText (.opFmtVIC ⟨"MOVTC", by decide⟩) (movtcArgs.map Operand.text)) ∧
    Prints (lineTokens (.opFmtVIC ⟨"MOVTC", by decide⟩) [.creg ⟨"ST1", by decide⟩, .reg32 nameR0])
      (lineText (.opFmtVIC ⟨"MOVTC", by decide⟩)
        ([Operand.creg ⟨"ST1", by decide⟩, .reg32 nameR0].map Operand.text)) := by
  refine ⟨fun hprints => ?_, (disasm_iff (.movtc _ _)).2 fun n hn => ?_⟩
  · exact absurd (List.mem_cons_self ..) ((disasm_iff (.movtc _ _)).1 hprints _ (.head _))
  · obtain hn | hn := List.mem_cons.1 hn
    · cases hn
      decide
    · cases List.mem_singleton.1 hn

/-- `MOVTC ST2,R0` is printed as `MOVTC ST1,R0`. -/
theorem not_prints_movtc :
    ¬ ∀ (tok : Token) (args : List Operand), Documented tok args →
      Prints (lineTokens tok args) (lineText tok (args.map Operand.text)) := by
  intro h
  have hdoc : Documented (.opFmtVIC ⟨"MOVTC", by decide⟩) movtcArgs := .movtc _ _
  have htext := (prints_documented hdoc).unique (h _ _ hdoc)
  exact absurd htext (by decide)

end E2E
