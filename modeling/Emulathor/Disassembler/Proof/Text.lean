import Emulathor.Disassembler.LibVasmdis

/-!
# Texts and names

A text of names and immediates is far shorter than the buffers it is printed to, so neither
`snprintf` cuts anything off: what is printed is the mnemonic, the condition and the operands
(`instructionText_eq`).
-/

namespace Disassembler

open Common

theorem snprintf_eq {n : Nat} {s : String} (h : s.length < n) : snprintf n s = s := by
  have hlen : s.toList.length ≤ n - 1 := by
    rw [String.length_toList]
    omega
  rw [snprintf, List.take_of_length_le hlen, String.ofList_toList]

/-! ## Operands -/

/-- Operands as they are written. -/
def separated : List String → String
  | [] => ""
  | [a] => a
  | a :: rest => a ++ ",\t" ++ separated rest

theorem separated_three (a b c : String) : separated [a, b, c] = fmtRegRegReg a b c := by
  simp only [separated, fmtRegRegReg, String.append_assoc]

theorem separated_length : ∀ {texts : List String}, (∀ s ∈ texts, s.length ≤ 14) →
    (separated texts).length ≤ 16 * texts.length
  | [], _ => by decide
  | [a], h => by
    have ha := h a (.head _)
    show a.length ≤ 16 * 1
    omega
  | a :: b :: rest, h => by
    have ha := h a (.head _)
    have hrest := separated_length fun s hm => h s (.tail _ hm)
    have hsep : (",\t" : String).length = 2 := by decide
    rw [separated, String.length_append, String.length_append, hsep]
    · simp only [List.length_cons] at hrest ⊢
      omega
    · exact List.cons_ne_nil _ _

theorem append_inj_left {s s' t t' : String} (h : s ++ t = s' ++ t') (hl : s.length = s'.length) :
    s = s' ∧ t = t' := by
  have hlist := congrArg String.toList h
  rw [String.toList_append, String.toList_append] at hlist
  obtain ⟨hs, ht⟩ := List.append_inj hlist (by rwa [String.length_toList, String.length_toList])
  exact ⟨String.toList_injective hs, String.toList_injective ht⟩

/-- Texts of the same lengths are read back from the line. -/
theorem separated_map_inj {α : Type} {f g : α → String} (hlen : ∀ x, (f x).length = (g x).length) :
    ∀ {l : List α}, separated (l.map f) = separated (l.map g) → ∀ x ∈ l, f x = g x
  | [], _, _, hx => nomatch hx
  | [a], h, x, hx => by
    obtain rfl := List.mem_singleton.1 hx
    exact h
  | a :: b :: rest, h, x, hx => by
    have happ : f a ++ ",\t" ++ separated ((b :: rest).map f)
        = g a ++ ",\t" ++ separated ((b :: rest).map g) := h
    rw [String.append_assoc, String.append_assoc] at happ
    obtain ⟨ha, htail⟩ := append_inj_left happ (hlen a)
    rcases List.mem_cons.1 hx with rfl | hx
    · exact ha
    · exact separated_map_inj hlen ((String.append_right_inj _).1 htail) x hx

/-! ## The whole text -/

/-- The operands, before they are put in their buffer. -/
def operandsText (i : Instruction) : String :=
  if i.pfx = pfxDword then decodeDwordPrefixOps i
  else if i.pfx = pfxWord then decodeWordPrefixOps i
  else if i.pfx = pfxByte then decodeBytePrefixOps i
  else if i.pfx = pfxImm then decodeImmediatePrefixOps i
  else ""

theorem operandsText_dword {i : Instruction} (h : i.pfx = pfxDword) :
    operandsText i = decodeDwordPrefixOps i := if_pos h

theorem operandsText_word {i : Instruction} (h : i.pfx = pfxWord) :
    operandsText i = decodeWordPrefixOps i := by
  rw [operandsText, h]
  rfl

theorem operandsText_byte {i : Instruction} (h : i.pfx = pfxByte) :
    operandsText i = decodeBytePrefixOps i := by
  rw [operandsText, h]
  rfl

theorem operandsText_imm {i : Instruction} (h : i.pfx = pfxImm) :
    operandsText i = decodeImmediatePrefixOps i := by
  rw [operandsText, h]
  rfl

/-- The opcodes that are printed with operands behind a prefix. -/
def printedOps (pfx : Byte) : List Opcode :=
  if pfx = pfxDword then
    [.stop, .iret, .add, .and, .div, .or, .mod, .mul, .sar, .sdiv, .shl, .shr, .smul, .sub, .xor,
      .loadrd, .storerd, .cmpxchg, .call, .jmp, .test, .loadas, .storeas, .cmp, .in_, .not, .out,
      .xchg, .mov, .loadid, .storeid, .movtc, .xchgc, .movfc]
  else if pfx = pfxWord ∨ pfx = pfxByte then
    [.loadi, .loadid, .loadrd, .mov, .sex, .storeid, .storerd]
  else if pfx = pfxImm then
    [.add, .and, .div, .or, .mod, .mul, .sar, .sdiv, .shl, .shr, .smul, .sub, .xor, .cmp, .call,
      .fail, .int, .jmp, .test, .loadma, .storema]
  else []

/-- An instruction that is printed with operands. -/
def Printed (i : Instruction) : Prop := ∃ o ∈ printedOps i.pfx, i.opcode = o.code

/-- The text of four bytes is that of the instruction they are cut into. -/
def instructionText (i : Instruction) : String :=
  snprintf instructionBufferSize
    (getNameOfOp i.opcode ++ getNameOfCond i.condition ++ "\t\t" ++ decodeInstructionArguments i)

theorem disasm_eq_text (b0 b1 b2 b3 : Byte) :
    vasmdisDisasmInstruction b0 b1 b2 b3 = instructionText (vasmdisBytesToInstruction b0 b1 b2 b3) :=
  rfl

/-- **The text of an instruction** whose operands are few and short. -/
theorem instructionText_eq {i : Instruction} {mnemonic cond : String} {texts : List String}
    (hop : getNameOfOp i.opcode = mnemonic) (hcond : getNameOfCond i.condition = cond)
    (hargs : operandsText i = separated texts) (hm : mnemonic.length ≤ 7) (hc : cond.length ≤ 4)
    (hn : texts.length ≤ 3) (hlen : ∀ s ∈ texts, s.length ≤ 14) :
    instructionText i = mnemonic ++ cond ++ "\t\t" ++ separated texts := by
  have hshort := separated_length hlen
  have htab : ("\t\t" : String).length = 2 := by decide
  have hbuf : decodeInstructionArguments i = separated texts := by
    rw [show decodeInstructionArguments _ = snprintf argumentBufferSize (operandsText _) from rfl,
      hargs]
    refine snprintf_eq ?_
    rw [argumentBufferSize]
    omega
  rw [instructionText, hop, hcond, hbuf]
  refine snprintf_eq ?_
  rw [String.length_append, String.length_append, String.length_append, htab, instructionBufferSize]
  omega

end Disassembler
