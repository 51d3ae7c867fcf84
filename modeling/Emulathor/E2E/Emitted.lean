import Emulathor.Assembler.Proof.Line
import Emulathor.Assembler.Proof.References
import Emulathor.Disassembler.Proof.Text
import Emulathor.E2E.Use

/-!
# What vasm emits

Every instruction that a line which does not abort emits is in range, and in the format that the CPU
reads its opcode in (`exps_emitted`). So the CPU, which looks at the operands of that format only,
executes of its bytes what the line asks for, whatever the fields that the format leaves out
(`dispatch_insOf`). And it is one that vdis prints (`Printed`).
-/

namespace E2E

open Common Lib Cpu Assembler Disassembler

/-! ## Formats -/

/-- The format of an opcode that is printed with operands behind the prefix. -/
def formatIn (pfx opcode : Byte) : Option Format :=
  (Opcode.ofByte opcode).bind fun o => if o ∈ printedOps pfx then some (formatOf o pfx) else none

/-- The instruction is in its opcode's format. -/
@[simp] def Formatted : EmitCall → Prop
  | .fmtI pfx _ opcode => formatIn pfx opcode = some .I
  | .fmtII pfx _ opcode _ _ _ => formatIn pfx opcode = some .II
  | .fmtIII pfx _ opcode _ _ _ => formatIn pfx opcode = some .III
  | .fmtIV pfx _ opcode _ _ => formatIn pfx opcode = some .IV
  | .fmtV pfx _ opcode _ => formatIn pfx opcode = some .V
  | .fmtVI pfx _ opcode _ _ => formatIn pfx opcode = some .VI
  | .fmtVII pfx _ opcode _ _ => formatIn pfx opcode = some .VII
  | .fmtVIII pfx _ opcode _ => formatIn pfx opcode = some .VIII
  | .byte _ | .labelRef _ _ _ => False

/-- Codes that a conditional production looks up in the tables of other registers are zero, and what
has no conditional production is unconditional. -/
@[simp] def LookedUp : EmitCall → Prop
  | .fmtII pfx condition opcode dst _ b => pfx = pfxWord → opcode = Opcode.loadrd.code →
    condition ≠ cAlways → dst = 0 ∧ b = 0
  | .fmtV _ condition opcode _ => opcode = Opcode.storeas.code ∨ opcode = Opcode.loadas.code →
    condition = cAlways
  | .fmtVI _ condition opcode _ b => opcode = Opcode.xchgc.code → condition ≠ cAlways → b = 0
  | _ => True

/-- An instruction is in range and in its format, a reference in range. -/
@[simp] def EmittedCall : EmitCall → Prop
  | .byte _ => True
  | .labelRef _ reg cond => reg.toNat ≤ 7 ∧ cond.toNat < 16
  | c => InRange c ∧ Formatted c ∧ LookedUp c

@[simp] def EmittedStatement : Statement → Prop
  | .call c => EmittedCall c
  | _ => True

@[simp] def Emitted (acts : Action) : Prop := ∀ s ∈ acts, EmittedStatement s

section
variable {rest : List Token} {acts acts' : Action} {op : String}

theorem Emitted.append (h : Emitted acts) (h' : Emitted acts') : Emitted (acts ++ acts') :=
  fun s hm => (List.mem_append.1 hm).elim (h s) (h' s)

theorem Emitted.check (h : Emitted acts) {p : Prop} [Decidable p] {msg : String} :
    Emitted ((if p then [.yyerror msg] else []) ++ acts) := by
  split
  · exact Emitted.append (fun s hm => List.mem_singleton.1 hm ▸ trivial) h
  · exact h

/-! ## The codes -/

theorem Opcode.code_inj {o o' : Opcode} : o.code = o'.code ↔ o = o' :=
  ⟨fun h => Option.some.inj (by rw [← Opcode.ofByte_code o, h, Opcode.ofByte_code]), congrArg _⟩

theorem codes_lt : (∀ n, (getRegForName n).toNat < 16) ∧ (∀ n, (getReg16ForName n).toNat < 16) ∧
    (∀ n, (getReg8ForName n).toNat < 16) ∧ (∀ n, (getCregForName n).toNat < 16) ∧
    (∀ n, (getCondForName n).toNat < 16) ∧ (∀ n, (getOpForName n).toNat < 64) ∧
    (∀ o : Opcode, o.code.toNat < 64) ∧ cAlways.toNat < 16 ∧ pfxDword.toNat < 4 ∧
    pfxWord.toNat < 4 ∧ pfxByte.toNat < 4 ∧ pfxImm.toNat < 4 ∧ pfxDword ≠ pfxWord ∧
    pfxByte ≠ pfxWord :=
  ⟨getRegForName_lt, getReg16ForName_lt, getReg8ForName_lt, getCregForName_lt, getCondForName_lt,
    getOpForName_lt, Opcode.code_lt, cAlways_lt, by decide, by decide, by decide, by decide, by decide,
    by decide⟩

theorem formatIn_code {pfx : Byte} {o : Opcode} (h : o ∈ printedOps pfx) :
    formatIn pfx o.code = some (formatOf o pfx) := by
  rw [formatIn, Opcode.ofByte_code, Option.bind_some, if_pos h]

deriving instance DecidableEq for Format

theorem format_opFmtI (h : op ∈ opFmtINames) : formatIn pfxDword (getOpForName op) = some .I := by
  have : ∀ op ∈ opFmtINames, formatIn pfxDword (getOpForName op) = some .I := by decide
  exact this op h

theorem format_opFmtII (h : op ∈ opFmtIINames) :
    formatIn pfxDword (getOpForName op) = some .II ∧
      formatIn pfxImm (getOpForName op) = some .III := by
  have : ∀ op ∈ opFmtIINames, formatIn pfxDword (getOpForName op) = some .II ∧
      formatIn pfxImm (getOpForName op) = some .III := by decide
  exact this op h

theorem format_opFmtIV (h : op ∈ opFmtIVNames) :
    formatIn pfxImm (getOpForName op) = some .IV := by
  have : ∀ op ∈ opFmtIVNames, formatIn pfxImm (getOpForName op) = some .IV := by decide
  exact this op h

theorem format_opFmtV (h : op ∈ opFmtVNames) : formatIn pfxDword (getOpForName op) = some .V ∧
    formatIn pfxImm (getOpForName op) = some .VIII ∧
    getOpForName op ≠ Opcode.storeas.code ∧ getOpForName op ≠ Opcode.loadas.code := by
  have : ∀ op ∈ opFmtVNames, formatIn pfxDword (getOpForName op) = some .V ∧
      formatIn pfxImm (getOpForName op) = some .VIII ∧
      getOpForName op ≠ Opcode.storeas.code ∧ getOpForName op ≠ Opcode.loadas.code := by decide
  exact this op h

theorem format_opFmtVI (h : op ∈ opFmtVINames) : formatIn pfxDword (getOpForName op) = some .VI ∧
    getOpForName op ≠ Opcode.xchgc.code := by
  have : ∀ op ∈ opFmtVINames, formatIn pfxDword (getOpForName op) = some .VI ∧
      getOpForName op ≠ Opcode.xchgc.code := by decide
  exact this op h

theorem format_opFmtVIC (h : op ∈ opFmtVICNames) : formatIn pfxDword (getOpForName op) = some .VI ∧
    getOpForName op ≠ Opcode.xchgc.code := by
  have : ∀ op ∈ opFmtVICNames, formatIn pfxDword (getOpForName op) = some .VI ∧
      getOpForName op ≠ Opcode.xchgc.code := by decide
  exact this op h

theorem format_opFmtVIII (h : op ∈ opFmtVIIINames) :
    formatIn pfxImm (getOpForName op) = some .VIII := by
  have : ∀ op ∈ opFmtVIIINames, formatIn pfxImm (getOpForName op) = some .VIII := by decide
  exact this op h

theorem format_cmp : formatIn pfxImm (getOpForName "CMP") = some .VII := by decide

/-! ## Checks that passed -/

theorem straight_of_append (hs : ∀ s ∈ acts ++ acts', s.Straight) : ∀ s ∈ acts', s.Straight :=
  fun s hm => hs s (List.mem_append_right _ hm)

/-- A check that does not abort. -/
theorem not_of_straight {p : Prop} [Decidable p] {msg : String}
    (hs : ∀ s ∈ (if p then [Statement.yyerror msg] else []) ++ acts, s.Straight) : ¬ p := by
  intro hp
  rw [if_pos hp] at hs
  exact hs _ (.head _)

theorem imm12_of_straight {k : Word} (hs : ∀ s ∈ checkIfValid12Bit k ++ acts, s.Straight) :
    k.toNat < 4096 := by
  have hzero : k &&& 0xF000#16 = 0 := by simpa using not_of_straight hs
  by_contra hk
  have hlt := k.isLt
  obtain ⟨i, hi, hbit⟩ := Nat.exists_ge_and_testBit_of_ge_two_pow (n := 12) (Nat.not_lt.1 hk)
  have hi16 : i < 16 := by
    by_contra hge
    rw [Nat.testBit_lt_two_pow (Nat.lt_of_lt_of_le hlt (Nat.pow_le_pow_right (by decide) (by omega)))]
      at hbit
    cases hbit
  have hmask : ∀ i < 16, 12 ≤ i → (0xF000#16).getLsbD i = true := by decide
  have := congrArg (·.getLsbD i) hzero
  simp only [BitVec.getLsbD_and, hmask i hi16 hi, Bool.and_true] at this
  rw [BitVec.getLsbD, hbit] at this
  simp at this

/-! ## Productions -/

theorem expFmtI_emitted (hop : op ∈ opFmtINames) (h : expFmtI op rest = some acts) :
    Emitted acts := by
  have hfmt := format_opFmtI hop
  unfold expFmtI at h
  split at h <;> cases h <;>
    simp [InRange, HeadInRange, codes_lt, hfmt]

theorem expFmtII_emitted (hop : op ∈ opFmtIINames) (h : expFmtII op rest = some acts)
    (hs : ∀ s ∈ acts, s.Straight) : Emitted acts := by
  obtain ⟨hregs, himm⟩ := format_opFmtII hop
  unfold expFmtII at h
  split at h <;> cases h
  · simp [InRange, HeadInRange, codes_lt, hregs]
  · simp [InRange, HeadInRange, codes_lt, hregs]
  · have hk := imm12_of_straight hs
    refine .check ?_
    simp [InRange, HeadInRange, codes_lt, himm, hk]
  · have hk := imm12_of_straight hs
    refine .check ?_
    simp [InRange, HeadInRange, codes_lt, himm, hk]

theorem expFmtIV_emitted (hop : op ∈ opFmtIVNames) (h : expFmtIV op rest = some acts) :
    Emitted acts := by
  have hfmt := format_opFmtIV hop
  unfold expFmtIV at h
  split at h <;> cases h <;>
    simp [InRange, HeadInRange, codes_lt, hfmt]

theorem expFmtV_emitted (hop : op ∈ opFmtVNames) (h : expFmtV op rest = some acts) :
    Emitted acts := by
  obtain ⟨hreg, himm, hnot⟩ := format_opFmtV hop
  unfold expFmtV at h
  split at h <;> cases h <;>
    simp [InRange, HeadInRange, codes_lt, hreg, himm, hnot]

/-- Only `CMP` gets to its immediate. -/
theorem expFmtVI_emitted (hop : op ∈ opFmtVINames) (h : expFmtVI op rest = some acts)
    (hs : ∀ s ∈ acts, s.Straight) : Emitted acts := by
  have hfmt := format_opFmtVI hop
  unfold expFmtVI at h
  split at h <;> cases h
  · simp [InRange, HeadInRange, codes_lt, hfmt]
  · simp [InRange, HeadInRange, codes_lt, hfmt]
  · rw [List.append_assoc] at hs ⊢
    obtain rfl : op = "CMP" := not_not.1 (not_of_straight hs)
    have hk := imm12_of_straight (straight_of_append hs)
    refine .check (.check ?_)
    simp [InRange, HeadInRange, codes_lt, format_cmp, hk]
  · rw [List.append_assoc] at hs ⊢
    obtain rfl : op = "CMP" := not_not.1 (not_of_straight hs)
    have hk := imm12_of_straight (straight_of_append hs)
    refine .check (.check ?_)
    simp [InRange, HeadInRange, codes_lt, format_cmp, hk]

theorem expFmtVIC_emitted (hop : op ∈ opFmtVICNames) (h : expFmtVIC op rest = some acts) :
    Emitted acts := by
  have hfmt := format_opFmtVIC hop
  unfold expFmtVIC at h
  split at h <;> cases h <;>
    simp [InRange, HeadInRange, codes_lt, hfmt]

theorem expFmtVIII_emitted (hop : op ∈ opFmtVIIINames) (h : expFmtVIII op rest = some acts) :
    Emitted acts := by
  have hfmt := format_opFmtVIII hop
  unfold expFmtVIII at h
  split at h <;> cases h <;>
    simp [InRange, HeadInRange, codes_lt, hfmt]

theorem expCmpxchg_emitted (h : expCmpxchg rest = some acts) : Emitted acts := by
  have hfmt : formatIn pfxDword Opcode.cmpxchg.code = some .II := formatIn_code (by decide)
  unfold expCmpxchg at h
  split at h <;> cases h <;>
    simp [InRange, HeadInRange, codes_lt, Opcode.code_inj, hfmt]

theorem expLoadi_emitted (h : expLoadi rest = some acts) : Emitted acts := by
  have hfmt : ∀ pfx ∈ [pfxWord, pfxByte], formatIn pfx Opcode.loadi.code = some .IV := by decide
  unfold expLoadi at h
  split at h <;> cases h <;>
    simp [InRange, HeadInRange, codes_lt, hfmt]

theorem expLoadid_emitted (h : expLoadid rest = some acts) (hs : ∀ s ∈ acts, s.Straight) :
    Emitted acts := by
  have hfmt : ∀ pfx ∈ [pfxDword, pfxWord, pfxByte], formatIn pfx Opcode.loadid.code = some .III := by
    decide
  unfold expLoadid at h
  split at h <;> cases h <;>
  · have hk := imm12_of_straight hs
    refine .check ?_
    simp [InRange, HeadInRange, codes_lt, hfmt, hk]

theorem expLoadrd_emitted (h : expLoadrd rest = some acts) : Emitted acts := by
  have hzero := And.intro getReg8ForName_reg16 getReg16ForName_reg32
  have hfmt : ∀ pfx ∈ [pfxDword, pfxWord, pfxByte], formatIn pfx Opcode.loadrd.code = some .II := by
    decide
  unfold expLoadrd at h
  split at h <;> cases h <;>
    simp [InRange, HeadInRange, codes_lt, hfmt, hzero]

theorem expMov_emitted (h : expMov rest = some acts) : Emitted acts := by
  have hfmt : ∀ pfx ∈ [pfxDword, pfxWord, pfxByte], formatIn pfx (getOpForName "MOV") = some .VI := by
    decide
  have hnot : getOpForName "MOV" ≠ Opcode.xchgc.code := by decide
  unfold expMov at h
  split at h <;> cases h <;>
    simp [InRange, HeadInRange, codes_lt, hfmt, hnot]

theorem expSex_emitted (h : expSex rest = some acts) : Emitted acts := by
  have hfmt : ∀ pfx ∈ [pfxWord, pfxByte], formatIn pfx Opcode.sex.code = some .VI := by decide
  unfold expSex at h
  split at h <;> cases h <;>
    simp [InRange, HeadInRange, codes_lt, Opcode.code_inj, hfmt]

theorem expStoreid_emitted (h : expStoreid rest = some acts) (hs : ∀ s ∈ acts, s.Straight) :
    Emitted acts := by
  have hfmt : ∀ pfx ∈ [pfxDword, pfxWord, pfxByte], formatIn pfx Opcode.storeid.code = some .III := by
    decide
  unfold expStoreid at h
  split at h <;> cases h <;>
  · have hk := imm12_of_straight hs
    refine .check ?_
    simp [InRange, HeadInRange, codes_lt, hfmt, hk]

theorem expStorerd_emitted (h : expStorerd rest = some acts) : Emitted acts := by
  have hfmt : ∀ pfx ∈ [pfxDword, pfxWord, pfxByte], formatIn pfx Opcode.storerd.code = some .II := by
    decide
  unfold expStorerd at h
  split at h <;> cases h <;>
    simp [InRange, HeadInRange, codes_lt, Opcode.code_inj, hfmt]

theorem expXchgc_emitted (h : expXchgc rest = some acts) : Emitted acts := by
  have hfmt : formatIn pfxDword Opcode.xchgc.code = some .VI := formatIn_code (by decide)
  unfold expXchgc at h
  split at h <;> cases h <;>
    simp [InRange, HeadInRange, codes_lt, hfmt, getReg8ForName_creg]

theorem expStoreas_emitted (h : expStoreas rest = some acts) : Emitted acts := by
  have hfmt : formatIn pfxDword Opcode.storeas.code = some .V := formatIn_code (by decide)
  unfold expStoreas at h
  split at h <;> cases h
  simp [InRange, HeadInRange, codes_lt, Opcode.code_inj, hfmt]

theorem expLoadas_emitted (h : expLoadas rest = some acts) : Emitted acts := by
  have hfmt : formatIn pfxDword Opcode.loadas.code = some .V := formatIn_code (by decide)
  unfold expLoadas at h
  split at h <;> cases h
  simp [InRange, HeadInRange, codes_lt, Opcode.code_inj, hfmt]

theorem expPush_emitted (h : expPush rest = some acts) : Emitted acts := by
  have hfmt : formatIn pfxImm Opcode.storema.code = some .IV := formatIn_code (by decide)
  unfold expPush at h
  split at h <;> cases h <;>
    simp [InRange, HeadInRange, codes_lt, hfmt]

theorem expPop_emitted (h : expPop rest = some acts) : Emitted acts := by
  have hfmt : formatIn pfxImm Opcode.loadma.code = some .IV := formatIn_code (by decide)
  unfold expPop at h
  split at h <;> cases h <;>
    simp [InRange, HeadInRange, codes_lt, hfmt]

/-- A `LOADI` pair into the word registers of one up to `R7`. -/
theorem loadHalves_emitted {reg cond : Byte} {val : Dword} (hreg : ¬ reg > cpuRegR7)
    (hcond : cond.toNat < 16) :
    Emitted [.call (.fmtIV pfxWord cond Opcode.loadi.code (reg * 2) (lwordFromDword val)),
      .call (.fmtIV pfxWord cond Opcode.loadi.code (reg * 2 + 1) (hwordFromDword val))] := by
  obtain ⟨hlo, hhi⟩ := double_lt (Nat.lt_succ_of_le (Nat.not_lt.1 hreg))
  have hhead : HeadInRange pfxWord cond Opcode.loadi.code := ⟨by decide, hcond, by decide⟩
  have hfmt : formatIn pfxWord Opcode.loadi.code = some .IV := formatIn_code (by decide)
  exact List.forall_mem_cons.2 ⟨⟨⟨hhead, hlo⟩, hfmt, trivial⟩,
    List.forall_mem_singleton.2 ⟨⟨hhead, hhi⟩, hfmt, trivial⟩⟩

/-- The exchange around it, if there is one. -/
theorem exchange_emitted {p : Prop} [Decidable p] {reg cond : Byte} (hreg : reg.toNat < 16)
    (hcond : cond.toNat < 16) : Emitted
      (if p then [.call (.fmtVI pfxDword cond Opcode.xchg.code cpuRegR7 reg)] else []) := by
  have hfmt : formatIn pfxDword Opcode.xchg.code = some .VI := formatIn_code (by decide)
  split
  · simp [InRange, HeadInRange, codes_lt, Opcode.code_inj, hfmt, hcond, hreg]
    decide
  · exact List.forall_mem_nil _

theorem expLoad32_emitted (h : expLoad32 rest = some acts) : Emitted acts := by
  have hpair (r : Name reg32Names) (val : Dword) {cond : Byte} (hcond : cond.toNat < 16) :
      let reg := if getRegForName r > cpuRegR7 then cpuRegR7 * 2 else getRegForName r * 2
      Emitted [.call (.fmtIV pfxWord cond Opcode.loadi.code reg (lwordFromDword val)),
        .call (.fmtIV pfxWord cond Opcode.loadi.code (reg + 1) (hwordFromDword val))] := by
    dsimp only
    split
    · exact loadHalves_emitted (by decide) hcond
    · next hle => exact loadHalves_emitted hle hcond
  unfold expLoad32 at h
  split at h <;> cases h
  · next r val =>
    have hx := exchange_emitted (p := getRegForName r > cpuRegR7) (getRegForName_lt r) cAlways_lt
    exact (hx.append (hpair r val cAlways_lt)).append hx
  · next c r val =>
    have hx := exchange_emitted (p := getRegForName r > cpuRegR7) (getRegForName_lt r)
      (getCondForName_lt c)
    exact (hx.append (hpair r val (getCondForName_lt c))).append hx

/-- A reference behind its register check. -/
theorem checkIfR7_emitted {reg cond : Byte} {name msg : String}
    (hs : ∀ s ∈ checkIfR7 reg msg ++ .call (.labelRef name reg cond) :: acts, s.Straight)
    (hcond : cond.toNat < 16) (hrest : Emitted acts) :
    Emitted (checkIfR7 reg msg ++ .call (.labelRef name reg cond) :: acts) := by
  have hreg : ¬ reg > cpuRegR7 := not_of_straight hs
  refine .check ?_
  exact List.forall_mem_cons.2 ⟨⟨Nat.not_lt.1 hreg, hcond⟩, hrest⟩

theorem expLoadadr_emitted (h : expLoadadr rest = some acts) (hs : ∀ s ∈ acts, s.Straight) :
    Emitted acts := by
  unfold expLoadadr at h
  split at h <;> cases h
  · exact checkIfR7_emitted hs cAlways_lt (List.forall_mem_nil _)
  · exact checkIfR7_emitted hs (getCondForName_lt _) (List.forall_mem_nil _)

theorem expLdcall_emitted (h : expLdcall rest = some acts) (hs : ∀ s ∈ acts, s.Straight) :
    Emitted acts := by
  have hfmt : formatIn pfxDword Opcode.call.code = some .V := formatIn_code (by decide)
  unfold expLdcall at h
  split at h <;> cases h
  · refine checkIfR7_emitted hs cAlways_lt ?_
    simp [InRange, HeadInRange, codes_lt, Opcode.code_inj, hfmt]
  · refine checkIfR7_emitted hs (getCondForName_lt _) ?_
    simp [InRange, HeadInRange, codes_lt, Opcode.code_inj, hfmt]

theorem expLdjmp_emitted (h : expLdjmp rest = some acts) (hs : ∀ s ∈ acts, s.Straight) :
    Emitted acts := by
  have hfmt : formatIn pfxDword Opcode.jmp.code = some .V := formatIn_code (by decide)
  unfold expLdjmp at h
  split at h <;> cases h
  · refine checkIfR7_emitted hs cAlways_lt ?_
    simp [InRange, HeadInRange, codes_lt, Opcode.code_inj, hfmt]
  · refine checkIfR7_emitted hs (getCondForName_lt _) ?_
    simp [InRange, HeadInRange, codes_lt, Opcode.code_inj, hfmt]

theorem expBytes_emitted (h : expBytes rest = some acts) : Emitted acts := by
  fun_induction expBytes rest generalizing acts with
  | case1 => cases h; exact List.forall_mem_nil _
  | case2 rest ih => exact ih h
  | case3 rest ih => exact ih h
  | case4 i1 rest ih =>
    cases hb : expBytes rest with
    | none => rw [hb] at h; cases h
    | some as =>
      rw [hb] at h
      cases h
      refine .check ?_
      exact List.forall_mem_cons.2 ⟨trivial, ih hb⟩
  | case5 => cases h

end

/-- **A line** that does not abort emits instructions in range and in their format. -/
theorem exp_emitted {toks : List Token} {acts : Action} (h : exp toks = some acts)
    (hs : ∀ s ∈ acts, s.Straight) : Emitted acts := by
  unfold exp at h
  split at h
  · cases h; exact List.forall_mem_nil _
  · cases h; exact List.forall_mem_nil _
  · exact expFmtI_emitted (Subtype.prop _) h
  · exact expFmtII_emitted (Subtype.prop _) h hs
  · exact expFmtIV_emitted (Subtype.prop _) h
  · exact expFmtV_emitted (Subtype.prop _) h
  · exact expFmtVI_emitted (Subtype.prop _) h hs
  · exact expFmtVIC_emitted (Subtype.prop _) h
  · exact expFmtVIII_emitted (Subtype.prop _) h
  · exact expCmpxchg_emitted h
  · exact expLoadi_emitted h
  · exact expLoadid_emitted h hs
  · exact expLoadrd_emitted h
  · exact expMov_emitted h
  · exact expSex_emitted h
  · exact expStoreid_emitted h hs
  · exact expStorerd_emitted h
  · exact expXchgc_emitted h
  · exact expStoreas_emitted h
  · exact expLoadas_emitted h
  · exact expLoadadr_emitted h hs
  · exact expLdcall_emitted h hs
  · exact expLdjmp_emitted h hs
  · exact expPush_emitted h
  · exact expPop_emitted h
  · exact expLoad32_emitted h
  · cases h; simp
  · cases h; simp
  · cases h; simp
  · cases h
    refine .check ?_
    simp
  · cases h; simp
  · cases h; simp
  · cases h; simp
  · split at h
    · cases h
    · exact expBytes_emitted h
  · cases h

/-- And so does a program. -/
theorem exps_emitted {lines : List (List Token)} {ss : List Statement} (h : exps lines = some ss)
    (hs : ∀ s ∈ ss, s.Straight) : Emitted ss := by
  fun_induction exps lines generalizing ss with
  | case1 => cases h
  | case2 toks => exact exp_emitted h hs
  | case3 toks rest _ ih =>
    obtain ⟨acts, hacts, h⟩ := Option.bind_eq_some_iff.1 h
    obtain ⟨acts', hacts', h⟩ := Option.bind_eq_some_iff.1 h
    cases h
    exact (exp_emitted hacts fun s hm => hs s (List.mem_append_left _ hm)).append
      (ih hacts' fun s hm => hs s (List.mem_append_right _ hm))

end E2E
