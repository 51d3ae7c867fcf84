import Emulathor.E2E.VdisRoundTrip

/-!
# The text of an image

The disassembler prints of a word what the CPU uses of it, and nothing else (`text_congr`). An image of
readable words is disassembled to a file that is assembled to one image, the same instructions without
what no instruction uses, whose file is the same again (`vdis_stable`); so two images have the same
file exactly if they are the same instructions (`vdis_file_iff`).
-/

namespace E2E

open Common Lib Cpu Assembler Disassembler

/-! ## The fields a text shows -/

section
variable {i i' : Instruction} {o : Opcode}

theorem decodeDword_congr (ho : Opcode.ofByte i.opcode = some o) (hop : i.opcode = i'.opcode)
    (h : (formatOf o pfxDword).Agree i i') :
    decodeDwordPrefixOps i = decodeDwordPrefixOps i' := by
  rw [decodeDwordPrefixOps, decodeDwordPrefixOps, ← hop, ho]
  cases o with
  | add | and | div | or | mod | mul | sar | sdiv | shl | shr | smul | sub | xor | loadrd | storerd
  | cmpxchg =>
    have h : Format.II.Agree i i' := h
    simp only [h.1, h.2.1, h.2.2]
  | call | jmp | test | loadas | storeas =>
    exact congrArg (fun b => fmtReg (getNameOfReg b)) h
  | cmp | in_ | not | out | xchg | mov | movtc | xchgc | movfc =>
    have h : Format.VI.Agree i i' := h
    simp only [h.1, h.2]
  | loadid | storeid =>
    have h : Format.III.Agree i i' := h
    simp only [h.1, h.2.1, h.2.2]
  | _ => rfl

theorem decodeWord_congr (ho : Opcode.ofByte i.opcode = some o) (hop : i.opcode = i'.opcode)
    (h : (formatOf o pfxWord).Agree i i') :
    decodeWordPrefixOps i = decodeWordPrefixOps i' := by
  rw [decodeWordPrefixOps, decodeWordPrefixOps, ← hop, ho]
  cases o with
  | loadi =>
    have h : Format.IV.Agree i i' := h
    simp only [h.1, h.2]
  | loadid | storeid =>
    have h : Format.III.Agree i i' := h
    simp only [h.1, h.2.1, h.2.2]
  | loadrd | storerd =>
    have h : Format.II.Agree i i' := h
    simp only [h.1, h.2.1, h.2.2]
  | mov | sex =>
    have h : Format.VI.Agree i i' := h
    simp only [h.1, h.2]
  | _ => rfl

theorem decodeByte_congr (ho : Opcode.ofByte i.opcode = some o) (hop : i.opcode = i'.opcode)
    (h : (formatOf o pfxByte).Agree i i') :
    decodeBytePrefixOps i = decodeBytePrefixOps i' := by
  rw [decodeBytePrefixOps, decodeBytePrefixOps, ← hop, ho]
  cases o with
  | loadi =>
    have h : Format.IV.Agree i i' := h
    simp only [h.1, h.2]
  | loadid | storeid =>
    have h : Format.III.Agree i i' := h
    simp only [h.1, h.2.1, h.2.2]
  | loadrd | storerd =>
    have h : Format.II.Agree i i' := h
    simp only [h.1, h.2.1, h.2.2]
  | mov | sex =>
    have h : Format.VI.Agree i i' := h
    simp only [h.1, h.2]
  | _ => rfl

theorem decodeImmediate_congr (ho : Opcode.ofByte i.opcode = some o) (hop : i.opcode = i'.opcode)
    (h : (formatOf o pfxImm).Agree i i') :
    decodeImmediatePrefixOps i = decodeImmediatePrefixOps i' := by
  rw [decodeImmediatePrefixOps, decodeImmediatePrefixOps, ← hop, ho]
  cases o with
  | add | and | div | or | mod | mul | sar | sdiv | shl | shr | smul | sub | xor =>
    have h : Format.III.Agree i i' := h
    simp only [h.1, h.2.1, h.2.2]
  | cmp =>
    have h : Format.VII.Agree i i' := h
    simp only [h.1, h.2]
  | call | fail | int | jmp | test =>
    exact congrArg fmtImm16 h
  | loadma | storema =>
    have h : Format.IV.Agree i i' := h
    simp only [h.1, h.2]
  | _ => rfl

/-- The operands used are the same. -/
theorem SameUse.agree (h : SameUse (ofInstruction i) (ofInstruction i'))
    (ho : Opcode.ofByte i.opcode = some o) : (formatOf o i.pfx).Agree i i' := by
  have hop : i.opcode = i'.opcode := h.opcode
  have hp : i.pfx = i'.pfx := h.pfx
  have hops := h.operands
  rw [Fields.operands, Fields.operands, show (ofInstruction i).opcode = i.opcode from rfl,
    show (ofInstruction i').opcode = i'.opcode from rfl, ← hop, ho] at hops
  refine Format.agree ?_
  rw [show (ofInstruction i).pfx = i.pfx from rfl, show (ofInstruction i').pfx = i'.pfx from rfl,
    ← hp] at hops
  exact hops

/-- **Words of the same meaning** have the same text. -/
theorem text_congr (hi : InWidth i) (h : SameUse (ofInstruction i) (ofInstruction i')) :
    instructionText i = instructionText i' := by
  have hop : i.opcode = i'.opcode := h.opcode
  have hp : i.pfx = i'.pfx := h.pfx
  have hc : i.condition = i'.condition := h.condition
  have hargs : operandsText i = operandsText i' := by
    cases ho : Opcode.ofByte i.opcode with
    | none =>
      have ho' : Opcode.ofByte i'.opcode = none := hop ▸ ho
      rw [operandsText, operandsText, ← hp, decodeDwordPrefixOps, decodeDwordPrefixOps,
        decodeWordPrefixOps, decodeWordPrefixOps, decodeBytePrefixOps, decodeBytePrefixOps,
        decodeImmediatePrefixOps, decodeImmediatePrefixOps, ho, ho']
    | some o =>
      have hagree := h.agree ho
      rcases hi.pfx_cases with h | h | h | h <;> rw [h] at hagree
      · rw [operandsText_dword h, operandsText_dword (hp ▸ h), decodeDword_congr ho hop hagree]
      · rw [operandsText_word h, operandsText_word (hp ▸ h), decodeWord_congr ho hop hagree]
      · rw [operandsText_byte h, operandsText_byte (hp ▸ h), decodeByte_congr ho hop hagree]
      · rw [operandsText_imm h, operandsText_imm (hp ▸ h), decodeImmediate_congr ho hop hagree]
  show snprintf _ (getNameOfOp i.opcode ++ getNameOfCond i.condition ++ "\t\t"
    ++ snprintf argumentBufferSize (operandsText i)) = _
  rw [hop, hc, hargs]
  rfl

/-- And they are misprinted together. -/
theorem misprinted_congr (h : SameUse (ofInstruction i) (ofInstruction i'))
    (hm : Misprinted (ofInstruction i')) : Misprinted (ofInstruction i) := by
  have hop : i.opcode = i'.opcode := h.opcode
  have hp : i.pfx = i'.pfx := h.pfx
  have hc : i.condition = i'.condition := h.condition
  have hagree {o : Opcode} {F : Format} (ho : i'.opcode = o.code) (hF : formatOf o i'.pfx = F) :
      F.Agree i i' := by
    have := h.agree (show Opcode.ofByte i.opcode = some o by rw [hop, ho, Opcode.ofByte_code])
    rwa [hp, hF] at this
  cases hm with
  | always hp' hop' hc' =>
    refine .always (hp.trans hp') ?_ ?_
    · exact hop'.imp hop.trans hop.trans
    · exact fun h => hc' (hc.symm.trans h)
  | xchgc hp' hop' hc' hb =>
    obtain ⟨-, hB⟩ : Format.VI.Agree i i' := hagree hop' rfl
    refine .xchgc (hp.trans hp') (hop.trans hop') (fun h => hc' (hc.symm.trans h)) ?_
    exact fun h => hb (hB.symm.trans h)
  | loadrd hp' hop' hc' hno =>
    obtain ⟨hd, -, hB⟩ : Format.II.Agree i i' := hagree hop' rfl
    refine .loadrd (hp.trans hp') (hop.trans hop') (fun h => hc' (hc.symm.trans h)) ?_
    exact fun h => hno ⟨hd.symm.trans h.1, hB.symm.trans h.2⟩
  | movtc hp' hop' h8 =>
    obtain ⟨hA, -⟩ : Format.VI.Agree i i' := hagree hop' rfl
    refine .movtc (hp.trans hp') (hop.trans hop') ?_
    show 8 ≤ i.operandA.toNat
    rw [hA]
    exact h8
  | movfc hp' hop' h8 =>
    have hB : i.operandB = i'.operandB := by
      rcases hop' with hop' | hop'
      · exact (show Format.VI.Agree i i' from hagree hop' rfl).2
      · exact (show Format.VI.Agree i i' from hagree hop' rfl).2
    refine .movfc (hp.trans hp') (hop'.imp hop.trans hop.trans) ?_
    show 8 ≤ i.operandB.toNat
    rw [hB]
    exact h8

end

/-! ## Readable words -/

/-- The word's text is the line of an instruction, the same as the word. -/
def Readable (i : Instruction) : Prop := Disassembler.Printed i ∧ ¬ Misprinted (ofInstruction i)

instance : DecidablePred Readable := fun i =>
  have : Decidable (Disassembler.Printed i) :=
    inferInstanceAs (Decidable (∃ o ∈ printedOps i.pfx, i.opcode = o.code))
  inferInstanceAs (Decidable (_ ∧ _))

theorem SameUse.symm {f f' : Fields} (h : SameUse f f') : SameUse f' f :=
  ⟨h.opcode.symm, h.pfx.symm, h.condition.symm, h.operands.symm⟩

theorem SameUse.trans {f f' f'' : Fields} (h : SameUse f f') (h' : SameUse f' f'') : SameUse f f'' :=
  ⟨h.opcode.trans h'.opcode, h.pfx.trans h'.pfx, h.condition.trans h'.condition,
    h.operands.trans h'.operands⟩

/-- The word's instruction. -/
def wordIns : List Byte → Instruction
  | [b0, b1, b2, b3] => vasmdisBytesToInstruction b0 b1 b2 b3
  | _ => vasmdisBytesToInstruction 0 0 0 0

section
variable {i : Instruction} {w : List Byte} {c : EmitCall}

theorem wordText_eq (hw : w.length = 4) : wordText w = instructionText (wordIns w) := by
  match w, hw with
  | [b0, b1, b2, b3], _ => rfl

theorem inWidth_word (w : List Byte) : InWidth (wordIns w) := by
  unfold wordIns
  split
  · exact inWidth _ _ _ _
  · exact inWidth 0 0 0 0

/-- An instruction's own word. -/
theorem encodes_word (hr : InRange c) : Encodes (ofInstruction (wordIns c.bytes)) c := by
  obtain ⟨b0, b1, b2, b3, hb⟩ := hr.bytes
  rw [hb]
  exact encodes_of_bytes hr hb

/-- What is not misprinted has its control registers named. -/
theorem cregNamed_of_readable (h : Readable i) (henc : Encodes (ofInstruction i) c) :
    CregNamed c := by
  obtain ⟨⟨o, ho, hop⟩, hno⟩ := h
  cases c with
  | fmtVI pfx cond op a b =>
    obtain ⟨⟨-, -, rfl⟩, rfl, rfl⟩ := henc
    refine ⟨fun hmovtc => Nat.lt_of_not_le fun h8 => hno ?_,
      fun hmovfc => Nat.lt_of_not_le fun h8 => hno ?_⟩
    · have hmovtc : i.opcode = Opcode.movtc.code := hmovtc
      obtain rfl := Opcode.code_inj.1 (hop.symm.trans hmovtc)
      exact .movtc (pfx_of_creg (.inl rfl) ho) hmovtc h8
    · have hmovfc : i.opcode = Opcode.movfc.code ∨ i.opcode = Opcode.xchgc.code := hmovfc
      refine .movfc (pfx_of_creg (o := o) (.inr ?_) ho) hmovfc h8
      exact hmovfc.imp (fun h => Opcode.code_inj.1 (hop.symm.trans h))
        fun h => Opcode.code_inj.1 (hop.symm.trans h)
  | _ => trivial

theorem Readable.congr {i' : Instruction} (h : Readable i)
    (hs : SameUse (ofInstruction i) (ofInstruction i')) : Readable i' := by
  obtain ⟨⟨o, ho, hop⟩, hno⟩ := h
  have hop' : i.opcode = i'.opcode := hs.opcode
  have hp : i.pfx = i'.pfx := hs.pfx
  exact ⟨⟨o, hp ▸ ho, hop'.symm.trans hop⟩, fun hm => hno (misprinted_congr hs hm)⟩

/-- **A readable word** is an instruction that vasm emits, with the same text. -/
theorem readable_call (hw : w.length = 4) (h : Readable (wordIns w)) :
    ∃ c, EmittedIns c ∧ CregNamed c ∧ lineOf c = wordText w ∧
      SameUse (ofInstruction (wordIns w)) (ofInstruction (wordIns c.bytes)) := by
  obtain ⟨tok, cond, args, c, htok, htext, hparse, hr, hsame⟩ := readsBack (inWidth_word w) h.1 h.2
  have hemit : EmittedIns c := by
    obtain ⟨lines, -, hlines⟩ := hparse
    have hstraight : ∀ s ∈ [Statement.call c], s.Straight := fun s hs => by
      obtain rfl := List.mem_singleton.1 hs
      trivial
    have hcall : EmittedCall c := exps_emitted hlines hstraight _ (.head _)
    exact hcall.ins hr
  have henc := encodes_word hr
  have hs := hsame _ henc
  refine ⟨c, hemit, cregNamed_of_readable (h.congr hs) henc, ?_, hs⟩
  rw [lineOf, wordText_eq hr.length, wordText_eq hw, text_congr (inWidth_word w) hs]

end

/-! ## Images -/

/-- The words of an image. -/
def words (img : List Byte) : List (List Byte) :=
  (List.range (img.length / 4)).map fun j => (img.drop (4 * j)).take 4

/-- The words are the same instruction. -/
def SameWord (w w' : List Byte) : Prop :=
  SameUse (ofInstruction (wordIns w)) (ofInstruction (wordIns w'))

instance (w w' : List Byte) : Decidable (SameWord w w') := inferInstanceAs (Decidable (SameUse _ _))

/-- Word by word the same instructions. -/
def SameWords (img img' : List Byte) : Prop :=
  List.Forall₂ SameWord (words img) (words img')

instance (img img' : List Byte) : Decidable (SameWords img img') :=
  inferInstanceAs (Decidable (List.Forall₂ _ _ _))

theorem words_cons {w : List Byte} (hw : w.length = 4) (rest : List Byte) :
    words (w ++ rest) = w :: words rest := by
  have hlen : (w ++ rest).length / 4 = rest.length / 4 + 1 := by
    rw [List.length_append, hw]
    omega
  rw [words, hlen, List.range_succ_eq_map, List.map_cons, List.map_map, Nat.mul_zero, List.drop_zero,
    List.take_left' hw, words]
  congr 1
  refine List.map_congr_left fun j _ => ?_
  rw [Function.comp_apply, show 4 * j.succ = w.length + 4 * j by rw [hw]; omega, List.drop_append,
    List.drop_eq_nil_of_le (Nat.le_add_right _ _), List.nil_append, Nat.add_sub_cancel_left]

theorem words_flatten {ws : List (List Byte)} (hw : ∀ w ∈ ws, w.length = 4) :
    words ws.flatten = ws := by
  induction ws with
  | nil => rfl
  | cons w ws ih =>
    obtain ⟨hw, hws⟩ := List.forall_mem_cons.1 hw
    rw [List.flatten_cons, words_cons hw, ih hws]

/-- A whole number of words is its words. -/
theorem exists_words {img : List Byte} (hdvd : img.length % 4 = 0) :
    ∃ ws : List (List Byte), (∀ w ∈ ws, w.length = 4) ∧ ws.flatten = img := by
  generalize hn : img.length / 4 = n
  induction n generalizing img with
  | zero => exact ⟨[], List.forall_mem_nil _, (List.length_eq_zero_iff.1 (by omega)).symm⟩
  | succ n ih =>
    obtain ⟨ws, hws, hflat⟩ := @ih (img.drop 4) (by rw [List.length_drop]; omega)
      (by rw [List.length_drop]; omega)
    refine ⟨img.take 4 :: ws, List.forall_mem_cons.2 ⟨?_, hws⟩, ?_⟩
    · rw [List.length_take]
      omega
    · rw [List.flatten_cons, hflat, List.take_append_drop]

section
variable {ws : List (List Byte)}

theorem readable_calls (hw : ∀ w ∈ ws, w.length = 4) (h : ∀ w ∈ ws, Readable (wordIns w)) :
    ∃ cs : List EmitCall, (∀ c ∈ cs, EmittedIns c ∧ CregNamed c) ∧
      cs.map lineOf = ws.map wordText ∧
      List.Forall₂ SameWord ws (cs.map EmitCall.bytes) := by
  induction ws with
  | nil => exact ⟨[], List.forall_mem_nil _, rfl, .nil⟩
  | cons w ws ih =>
    obtain ⟨hw, hws⟩ := List.forall_mem_cons.1 hw
    obtain ⟨h, hs⟩ := List.forall_mem_cons.1 h
    obtain ⟨c, hc, hn, hline, hsame⟩ := readable_call hw h
    obtain ⟨cs, hcs, hlines, hall⟩ := ih hws hs
    refine ⟨c :: cs, List.forall_mem_cons.2 ⟨⟨hc, hn⟩, hcs⟩, ?_, .cons hsame hall⟩
    rw [List.map_cons, List.map_cons, hline, hlines]

end

/-- **The file of an image** of readable words is that of one other image, the same instructions,
which it is assembled to. -/
theorem vdis_stable {size : Dword} {fixedSize : Bool} {img : List Byte}
    (hdvd : img.length % 4 = 0) (hne : img ≠ [])
    (hroom : WordRoom size fixedSize img.length)
    (hread : ∀ w ∈ words img, Readable (wordIns w)) :
    ∃ img' k s k' s', SameWords img img' ∧
      iterate (vdisIteration img) k vdisInit = .ok (.ret () s) ∧
      iterate (vdisIteration img') k' vdisInit = .ok (.ret () s') ∧ s'.file = s.file ∧
      ∀ heap x, AssemblesTo size fixedSize heap (fileText s) x ↔ x = img' := by
  obtain ⟨ws, hw, rfl⟩ := exists_words hdvd
  rw [words_flatten hw] at hread
  obtain ⟨cs, hcs, hlines, hsame⟩ := readable_calls hw hread
  have hr : ∀ c ∈ cs, InRange c := fun c hc => (hcs c hc).1.inRange
  have hbytes : ∀ w ∈ cs.map EmitCall.bytes, w.length = 4 :=
    List.forall_mem_map.2 fun c hc => (hr c hc).length
  have hcount : cs.length = ws.length := by
    have := congrArg List.length hlines
    rwa [List.length_map, List.length_map] at this
  have hlen := length_words hw
  have hlt := hroom.lt
  obtain ⟨k, s, hrun, hfile⟩ := vdis_words hw (by omega)
  obtain ⟨k', s', hrun', hfile'⟩ := vdis_lines hr (by omega)
  refine ⟨cs.flatMap EmitCall.bytes, k, s, k', s', ?_, hrun, hrun', ?_, fun heap x => ?_⟩
  · rw [SameWords, words_flatten hw, List.flatMap_def, words_flatten hbytes]
    exact hsame
  · rw [hfile', hfile, hlines]
  · rw [assemblesTo_file (fun c hc => (hcs c hc).1) ?_ (by rwa [hcount, ← hlen])
      (hfile.trans hlines.symm)]
    · exact and_iff_left fun c hc => (hcs c hc).2
    · intro hnil
      rw [hnil] at hcount
      exact hne (by rw [List.length_eq_zero_iff.1 hcount.symm]; rfl)

/-- `ADD R1,R2,R3`, `LOADIIZ R1L,0x1234`, `CMP R1,R2` and `STOP`, with bits set that they do not
use. -/
def carelessWords : List Byte :=
  [0x2A, 0x01, 0x23, 0xFF, 0x46, 0x12, 0x34, 0x12, 0x18, 0x07, 0x12, 0x99, 0x00, 0x07, 0xAB, 0xCD]

theorem vdis_stable_careless : ∃ img' k s k' s', SameWords carelessWords img' ∧
    iterate (vdisIteration carelessWords) k vdisInit = .ok (.ret () s) ∧
    iterate (vdisIteration img') k' vdisInit = .ok (.ret () s') ∧ s'.file = s.file ∧
    ∀ heap x, AssemblesTo 0 false heap (fileText s) x ↔ x = img' :=
  vdis_stable (by decide) (List.cons_ne_nil _ _) (by decide) (by decide)

/-! ## Files -/

section
variable {ws ws' : List (List Byte)}

theorem map_wordText_congr (hw : ∀ w ∈ ws, w.length = 4) (hw' : ∀ w ∈ ws', w.length = 4)
    (h : List.Forall₂ SameWord ws ws') : ws.map wordText = ws'.map wordText := by
  induction h with
  | nil => rfl
  | @cons w w' ws ws' hs _ ih =>
    obtain ⟨hw, hws⟩ := List.forall_mem_cons.1 hw
    obtain ⟨hw', hws'⟩ := List.forall_mem_cons.1 hw'
    rw [List.map_cons, List.map_cons, ih hws hws', wordText_eq hw, wordText_eq hw',
      text_congr (inWidth_word w) hs]

theorem sameUse_join {vs : List (List Byte)} (h : List.Forall₂ SameWord ws vs)
    (h' : List.Forall₂ SameWord ws' vs) : List.Forall₂ SameWord ws ws' := by
  induction h generalizing ws' with
  | nil =>
    cases h'
    exact .nil
  | cons hs _ ih =>
    cases h' with
    | cons hs' hall => exact .cons (hs.trans hs'.symm) (ih hall)

theorem fileText_ne_nil {s : VdisState} (h : s.file ≠ []) : fileText s ≠ [] := by
  obtain ⟨line, lines, hlines⟩ := List.exists_cons_of_ne_nil h
  rw [fileText, hlines, List.flatMap_cons]
  simp

/-- Lines of readable words that are the same text. -/
theorem words_of_fileText {s s' : VdisState} (hw : ∀ w ∈ ws, w.length = 4)
    (hw' : ∀ w ∈ ws', w.length = 4) (hlt : 4 * ws.length < 2 ^ 32) (hlt' : 4 * ws'.length < 2 ^ 32)
    (hread : ∀ w ∈ ws, Readable (wordIns w)) (hread' : ∀ w ∈ ws', Readable (wordIns w))
    (hfile : s.file = ws.map wordText) (hfile' : s'.file = ws'.map wordText)
    (htext : fileText s = fileText s') :
    List.Forall₂ SameWord ws ws' := by
  obtain ⟨cs, hcs, hlines, hsame⟩ := readable_calls hw hread
  obtain ⟨cs', hcs', hlines', hsame'⟩ := readable_calls hw' hread'
  have hcount : cs.length = ws.length := by
    have := congrArg List.length hlines
    rwa [List.length_map, List.length_map] at this
  have hcount' : cs'.length = ws'.length := by
    have := congrArg List.length hlines'
    rwa [List.length_map, List.length_map] at this
  -- the text is assembled to both
  let size : Dword := BitVec.ofNat 32 (4 * max cs.length cs'.length)
  have hsize : size.toNat = 4 * max cs.length cs'.length := by
    show (BitVec.ofNat 32 (4 * max cs.length cs'.length)).toNat = _
    rw [BitVec.toNat_ofNat, Nat.mod_eq_of_lt (by omega)]
  have hbytes : cs.flatMap EmitCall.bytes = cs'.flatMap EmitCall.bytes := by
    by_cases hnil : cs = []
    · have hnil' : cs' = [] := by
        by_contra hne
        refine fileText_ne_nil (s := s') ?_ ?_
        · rw [hfile', ← hlines']
          exact fun h => hne (List.map_eq_nil_iff.1 h)
        · rw [← htext, fileText, hfile, ← hlines, hnil]
          rfl
      rw [hnil, hnil']
    · have hnil' : cs' ≠ [] := by
        intro hnil'
        refine fileText_ne_nil (s := s) ?_ ?_
        · rw [hfile, ← hlines]
          exact fun h => hnil (List.map_eq_nil_iff.1 h)
        · rw [htext, fileText, hfile', ← hlines', hnil']
          rfl
      have hle : 4 * cs.length ≤ size.toNat := by omega
      have hle' : 4 * cs'.length ≤ size.toNat := by omega
      have hasm := (@assemblesTo_file cs size true (fun c hc => (hcs c hc).1) hnil hle s
        (hfile.trans hlines.symm) (fun _ => 0) _).2 ⟨rfl, fun c hc => (hcs c hc).2⟩
      rw [htext] at hasm
      exact ((@assemblesTo_file cs' size true (fun c hc => (hcs' c hc).1) hnil' hle' s'
        (hfile'.trans hlines'.symm) (fun _ => 0) _).1 hasm).1
  have hword (cs : List EmitCall) (hcs : ∀ c ∈ cs, EmittedIns c ∧ CregNamed c) :
      words (cs.flatMap EmitCall.bytes) = cs.map EmitCall.bytes := by
    rw [List.flatMap_def, words_flatten (List.forall_mem_map.2 fun c hc => (hcs c hc).1.inRange.length)]
  have hmap := congrArg words hbytes
  rw [hword cs hcs, hword cs' hcs'] at hmap
  rw [hmap] at hsame
  exact sameUse_join hsame hsame'

end

/-- **Two images of readable words** have the same file exactly if they are the same instructions. -/
theorem vdis_file_iff {img img' : List Byte} (hdvd : img.length % 4 = 0)
    (hdvd' : img'.length % 4 = 0) (hlt : img.length < 2 ^ 32) (hlt' : img'.length < 2 ^ 32)
    (hread : ∀ w ∈ words img, Readable (wordIns w))
    (hread' : ∀ w ∈ words img', Readable (wordIns w)) :
    ∃ k s k' s', iterate (vdisIteration img) k vdisInit = .ok (.ret () s) ∧
      iterate (vdisIteration img') k' vdisInit = .ok (.ret () s') ∧
      (fileText s = fileText s' ↔ SameWords img img') := by
  obtain ⟨ws, hw, rfl⟩ := exists_words hdvd
  obtain ⟨ws', hw', rfl⟩ := exists_words hdvd'
  rw [length_words hw] at hlt
  rw [length_words hw'] at hlt'
  rw [words_flatten hw] at hread
  rw [words_flatten hw'] at hread'
  obtain ⟨k, s, hrun, hfile⟩ := vdis_words hw hlt
  obtain ⟨k', s', hrun', hfile'⟩ := vdis_words hw' hlt'
  refine ⟨k, s, k', s', hrun, hrun', ?_⟩
  rw [SameWords, words_flatten hw, words_flatten hw']
  constructor
  · exact words_of_fileText hw hw' hlt hlt' hread hread' hfile hfile'
  · intro h
    rw [fileText, fileText, hfile, hfile', map_wordText_congr hw hw' h]

/-- The same words without those bits. -/
def carefulWords : List Byte :=
  [0x2A, 0x01, 0x23, 0x00, 0x46, 0x12, 0x34, 0x12, 0x18, 0x00, 0x12, 0x00, 0x00, 0x00, 0x00, 0x00]

theorem vdis_file_iff_careless : ∃ k s k' s',
    iterate (vdisIteration carelessWords) k vdisInit = .ok (.ret () s) ∧
      iterate (vdisIteration carefulWords) k' vdisInit = .ok (.ret () s') ∧
      fileText s = fileText s' := by
  obtain ⟨k, s, k', s', hrun, hrun', hiff⟩ := @vdis_file_iff carelessWords carefulWords rfl rfl
    (by decide) (by decide) (by decide) (by decide)
  exact ⟨k, s, k', s', hrun, hrun', hiff.2 (by decide)⟩

end E2E
