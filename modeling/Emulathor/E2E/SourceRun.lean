import Emulathor.Assembler.Proof.Parse
import Emulathor.Assembler.Lexer
import Emulathor.Cpu.Proof.RunFrame
import Emulathor.Cpu.Proof.Returns
import Emulathor.E2E.LabelLoad
import Emulathor.E2E.Source

/-!
# From the text to the run

A loaded image runs as its program's statements say. As long as the program's instructions lie in memory as
assembled (`HasCode`), each of its calls is one round of the loop, or two for a label's address
(`source_simulates`); and they do from the loading on, since a step that overwrites one goes wrong.
So of a program that does not go wrong the emulator returns, faults and runs on exactly as the
program does (`source_run`).
-/

namespace E2E

open Common Lib Cpu Assembler

/-! ## Places -/

/-- A call is placed behind the bytes of the statements in front of it. -/
theorem mem_placed {ss : List Statement} : ∀ {p q : Nat} {c : EmitCall}, (q, c) ∈ placed p ss →
    ∃ pre post, ss = pre ++ .call c :: post ∧ q = p + widthOf pre := by
  induction ss with
  | nil => intro p q c h; cases h
  | cons s ss ih =>
    intro p q c h
    -- the statement in front of the rest
    have hrest {p' : Nat} (h : (q, c) ∈ placed p' ss) (hp : p' = p + s.width) :
        ∃ pre post, s :: ss = pre ++ .call c :: post ∧ q = p + widthOf pre := by
      obtain ⟨pre, post, rfl, rfl⟩ := ih h
      refine ⟨s :: pre, post, rfl, ?_⟩
      rw [widthOf_cons, hp, Nat.add_assoc]
    cases s with
    | call d =>
      rcases List.mem_cons.1 h with heq | h
      · cases heq
        exact ⟨[], ss, rfl, rfl⟩
      · exact hrest h rfl
    | _ => exact hrest h rfl

theorem mem_placed_of_callAt {ss : List Statement} {pos : Dword} {c : EmitCall}
    (h : callAt ss pos = some c) : (pos.toNat, c) ∈ placed instructionsStartOffset ss := by
  obtain ⟨⟨q, d⟩, hfind, rfl⟩ := Option.map_eq_some_iff.1 h
  have hq : q = pos.toNat := by simpa using List.find?_some hfind
  exact hq ▸ List.mem_of_find?_eq_some hfind

/-! ## The program in memory -/

/-- The program's instructions lie where they are placed, as assembled. -/
structure HasCode (t : String → Option Dword) (ss : List Statement) (e : EmulatorContext) :
    Prop where
  fits : instructionsStartOffset + widthOf ss ≤ e.memorySize.toNat
  code : ∀ pc ∈ placed instructionsStartOffset ss, IsCode pc.2 → ∀ i < pc.2.width,
    (pc.2.image t)[i]? = some (e.memory (BitVec.ofNat 32 (pc.1 + i)))

section
variable {t : String → Option Dword} {ss : List Statement} {e e' : EmulatorContext} {c : EmitCall}

/-- The call at the position. -/
theorem HasCode.holds (h : HasCode t ss e) (hc : callAt ss e.pos = some c) (hcode : IsCode c) :
    Holds e (c.image t) := by
  have hm := mem_placed_of_callAt hc
  obtain ⟨pre, post, rfl, hq⟩ := mem_placed hm
  have hfits := h.fits
  rw [widthOf_append, widthOf_cons] at hfits
  have hlen := c.image_length t
  constructor
  · unfold EmulatorContext.InBlock
    rw [hlen, hq]
    simp only [Statement.width] at hfits
    omega
  · intro i hi
    have hbyte := h.code _ hm hcode i (by rw [← hlen]; exact hi)
    have ha : e.pos + BitVec.ofNat 32 i = BitVec.ofNat 32 (e.pos.toNat + i) := by
      rw [BitVec.ofNat_add, BitVec.ofNat_toNat, BitVec.setWidth_eq]
    rw [ha]
    rw [List.getElem?_eq_getElem hi] at hbyte
    exact (Option.some.inj hbyte).symm

/-- A step that overwrites no instruction. -/
theorem HasCode.keep (h : HasCode t ss e) (hk : CodeKept ss e.memory e'.memory)
    (hsize : e'.memorySize = e.memorySize) : HasCode t ss e' where
  fits := by rw [hsize]; exact h.fits
  code pc hpc hcode i hi := by rw [hk pc hpc hcode i hi]; exact h.code pc hpc hcode i hi

/-! ## Steps -/

theorem dispatchIns_memorySize {ins : InstructionContext} {f : Cpu.Flow}
    (h : dispatchIns ins e = .ok f) : f.state.memorySize = e.memorySize := by
  unfold dispatchIns at h
  split at h
  · exact (executeIns_ok h).memorySize
  · cases h
    rfl

/-- The round at a call that is neither data nor a label's address. -/
theorem call_round (h : HasCode t ss e) (hc : callAt ss e.pos = some c) (hr : InRange c)
    (hf : Formatted c) : cpuIteration e = dispatchIns (insOf c) e.fetched := by
  have himage : c.image t = c.bytes ∧ IsCode c := by
    cases c with
    | byte b => exact hr.elim
    | labelRef name reg cond => exact hr.elim
    | _ => exact ⟨rfl, trivial⟩
  have hh := h.holds hc himage.2
  rw [himage.1, ← List.append_nil c.bytes] at hh
  obtain ⟨hround, henc⟩ := hh.round hr
  rw [hround]
  exact dispatch_insOf hr hf henc (decodeBytes_opb ..) _

/-- The two rounds of a label's address. -/
theorem label_rounds {name : String} {reg cond : Byte} (h : HasCode t ss e)
    (hc : callAt ss e.pos = some (.labelRef name reg cond)) (hreg : reg.toNat ≤ 7)
    (hcond : cond.toNat < 16) :
    iterate cpuIteration 2 e = .ok (.next (loadLabel ((t name).getD 0) reg cond e)) := by
  obtain ⟨hlo, hhi⟩ := double_lt (Nat.lt_succ_of_le hreg)
  have hregs : (reg * 2).toNat = 2 * reg.toNat ∧ (reg * 2 + 1).toNat = 2 * reg.toNat + 1 := by
    rw [BitVec.toNat_add, BitVec.toNat_mul, show (2 : Byte).toNat = 2 from rfl,
      show (1 : Byte).toNat = 1 from rfl]
    omega
  have hn : (regOperand reg).val = reg.toNat := Nat.mod_eq_of_lt (by omega)
  have hh := h.holds hc trivial
  rw [EmitCall.image, loadiPair,
    ← List.append_nil (fmtIV _ _ _ (reg * 2 + 1) (hwordFromDword ((t name).getD 0)))] at hh
  obtain ⟨hround1, hh1⟩ := (regCall_loadi hcond hlo).round_eq hh
  obtain ⟨hround2, -⟩ := (regCall_loadi hcond hhi).round_eq hh1
  rw [iterate_next hround1, iterate_next hround2]
  have hpair : stepRegs cond (cpuSetWordReg ⟨(reg * 2 + 1).toNat, hhi⟩
        (hwordFromDword ((t name).getD 0)))
      (stepRegs cond (cpuSetWordReg ⟨(reg * 2).toNat, hlo⟩ (lwordFromDword ((t name).getD 0))) e.regs)
      = stepRegs cond (Function.update · (regOperand reg) ((t name).getD 0)) e.regs :=
    stepRegs_loadi (by rw [hn]; exact hregs.1) (by rw [hn]; exact hregs.2)
  have hpos : e.pos + 4 + 4 = e.pos + 8 := BitVec.add_assoc ..
  have hcount : e.instructionCount + 1 + 1 = e.instructionCount + 2 := BitVec.add_assoc ..
  show Except.ok (Lib.Flow.next (_ : EmulatorContext)) = .ok (.next (_ : EmulatorContext))
  simp only [EmulatorContext.fetched, loadLabel, hpair, hpos, hcount]

/-- The machines are in the same state, and the program is in memory. -/
def Running (t : String → Option Dword) (ss : List Statement) (a e : EmulatorContext) : Prop :=
  a = e ∧ HasCode t ss e

/-- **The emulator simulates the program.** -/
theorem source_simulates (hss : Emitted ss) :
    Simulates (sourceStep t ss) cpuIteration (Running t ss) Eq := by
  rintro e _ ⟨rfl, hcode⟩
  unfold sourceStep
  cases hc : callAt ss e.pos with
  | none => exact ⟨0, trivial⟩
  | some c =>
    obtain ⟨pre, post, hpre, -⟩ := mem_placed (mem_placed_of_callAt hc)
    have hcall : EmittedCall c := hss (.call c) (hpre ▸ List.mem_append_right _ (.head _))
    -- an instruction, one round
    have hins (hr : InRange c) (hf : Formatted c) :
        ∃ n, Matches (Running t ss) Eq (callStep ss c e) (iterate cpuIteration (n + 1) e) := by
      refine ⟨0, ?_⟩
      rw [iterate_succ rfl, call_round hcode hc hr hf, callStep]
      cases hd : dispatchIns (insOf c) e.fetched with
      | error fault => rfl
      | ok f =>
        by_cases hk : CodeKept ss e.memory f.state.memory
        · have hsize : f.state.memorySize = e.fetched.memorySize := dispatchIns_memorySize hd
          have hkeep := hcode.keep hk hsize
          simp only [hk, ↓reduceIte]
          cases f with
          | next e' => exact ⟨rfl, hkeep⟩
          | ret r e' => exact ⟨rfl, rfl⟩
        · simp only [hk, ↓reduceIte]
          trivial
    cases c with
    | byte b => exact ⟨0, trivial⟩
    | labelRef name reg cond =>
      refine ⟨1, ?_⟩
      rw [label_rounds hcode hc hcall.1 hcall.2]
      exact ⟨rfl, hcode.keep (fun _ _ _ _ _ => rfl) rfl⟩
    | _ => exact hins hcall.1 hcall.2.1

/-! ## Loading -/

/-- A program loaded is in memory. -/
theorem hasCode_of_load {ectx e0 : EmulatorContext}
    (hload : emuLoadImg (ss.flatMap (Statement.image t)) ectx = .ok e0) : HasCode t ss e0 := by
  obtain ⟨hfits, hbytes⟩ := emuLoadImg_ok hload
  refine ⟨by rwa [image_length] at hfits, fun pc hpc _ i hi => ?_⟩
  obtain ⟨q, c⟩ := pc
  obtain ⟨pre, post, rfl, rfl⟩ := mem_placed hpc
  have hi : i < c.width := hi
  have hlt : widthOf pre + i < ((pre ++ .call c :: post).flatMap (Statement.image t)).length := by
    rw [image_length, widthOf_append, widthOf_cons]
    simp only [Statement.width]
    omega
  have hget := image_at t pre (.call c) post i hi
  rw [List.getElem?_eq_getElem hlt] at hget
  rw [Nat.add_assoc, hbytes _ hlt, hget]
  rfl

end

/-! ## Runs -/

section
variable {toks : List Token} {ss : List Statement} {size : Dword} {fixedSize : Bool}
  {heap : Nat → Byte} {img : List Byte} {ectx e0 : EmulatorContext}

/-- **The emulator runs a program as its statements say.** From the image of a program that does not go
wrong it returns a result, in a state, exactly if the program does, it stops with a fault exactly if
the program does, and it runs on exactly if the program does. The program is one that the growing
buffer has room for. -/
theorem source_run (hparse : Parses toks ss) (hs : ∀ s ∈ ss, s.Straight)
    (hlt : widthOf ss + dynamicBufferSize ≤ 2 ^ 32)
    (hasm : assemble size fixedSize heap ss = .ok img) (hload : emuLoadImg img ectx = .ok e0)
    (hw : NeverWrong (sourceStep (labelTable ss) ss) e0) :
    (∀ r s, (∃ n, cpuExecute n e0 false = .ok (some (r, s))) ↔
      ∃ n, iterate (sourceStep (labelTable ss) ss) n e0 = .ok (.ret r s)) ∧
    (∀ fault, (∃ n, cpuExecute n e0 false = .error fault) ↔
      ∃ n, iterate (sourceStep (labelTable ss) ss) n e0 = .error (some fault)) ∧
    ((∀ n, cpuExecute n e0 false = .ok none) ↔
      ∀ n, ∃ s, iterate (sourceStep (labelTable ss) ss) n e0 = .ok (.next s)) := by
  obtain ⟨lines, -, hexps⟩ := hparse
  have hcode : HasCode (labelTable ss) ss e0 := by
    rcases @assemble_roomy size fixedSize heap ss hs (roomy_of_assemble hs hlt hasm) with
      ⟨-, himg⟩ | ⟨-, msg, herr⟩
    · cases himg.symm.trans hasm
      exact hasCode_of_load hload
    · rw [herr] at hasm
      cases hasm
  have hsim := source_simulates (t := labelTable ss) (exps_emitted hexps hs)
  have hret (r : Int) (s : EmulatorContext) : (∃ n, cpuExecute n e0 false = .ok (some (r, s))) ↔
      ∃ n, iterate (sourceStep (labelTable ss) ss) n e0 = .ok (.ret r s) := by
    simp only [cpuExecute_some]
    rw [hsim.ret_iff ⟨rfl, hcode⟩ hw (fun a s s' h h' => h.symm.trans h')]
    simp
  have herr (fault : Cpu.Fault) : (∃ n, cpuExecute n e0 false = .error fault) ↔
      ∃ n, iterate (sourceStep (labelTable ss) ss) n e0 = .error (some fault) := by
    simp only [cpuExecute_error]
    exact hsim.error_iff ⟨rfl, hcode⟩ hw
  refine ⟨hret, herr, ?_⟩
  constructor
  · intro hon n
    rcases hf : iterate (sourceStep (labelTable ss) ss) n e0 with (_ | fault) | ⟨s | ⟨r, s⟩⟩
    · exact absurd hf (hw n)
    · obtain ⟨m, hm⟩ := (herr fault).2 ⟨n, hf⟩
      rw [hon m] at hm
      cases hm
    · exact ⟨s, rfl⟩
    · obtain ⟨m, hm⟩ := (hret r s).2 ⟨n, hf⟩
      rw [hon m] at hm
      cases hm
  · intro hon n
    rcases hx : cpuExecute n e0 false with fault | ⟨_ | ⟨r, s⟩⟩
    · obtain ⟨m, hm⟩ := (herr fault).1 ⟨n, hx⟩
      obtain ⟨s, hs⟩ := hon m
      rw [hs] at hm
      cases hm
    · rfl
    · obtain ⟨m, hm⟩ := (hret r s).1 ⟨n, hx⟩
      obtain ⟨s', hs'⟩ := hon m
      rw [hs'] at hm
      cases hm

end

/-- `LDJMP R0,_MAIN`, a byte, the label `_MAIN` and `FAIL 3`. -/
def ldjmpLines : List (List Token) :=
  [[.opPseudoLdjmp, .space, .reg32 nameR0, .comma, .ident "_MAIN"], [.endl],
    [.directiveByte, .int 0x65], [.endl], [.directiveLabel, .ident "_MAIN"], [.endl],
    [.opFmtVIII ⟨"FAIL", by decide⟩, .space, .int 3]]

def ldjmpStatements : List Statement :=
  [.call (.labelRef "_MAIN" 0 cAlways), .call (.fmtV pfxDword cAlways Opcode.jmp.code 0),
    .call (.byte 0x65), .label "_MAIN", .call (.fmtVIII pfxImm cAlways Opcode.fail.code 3)]

set_option maxRecDepth 10000 in
theorem source_run_ldjmp : ∃ img e0 s,
    assemble 64 true (fun _ => 0) ldjmpStatements = .ok img ∧
      emuLoadImg img (emuInit (fun _ => 0) fun _ => 0) = .ok e0 ∧
      ∃ n, cpuExecute n e0 false = .ok (some (3, s)) := by
  have hasm : assemble 64 true (fun _ => 0) ldjmpStatements = .ok
      (ldjmpStatements.flatMap (Statement.image (labelTable ldjmpStatements))) := by rfl
  obtain ⟨e0, hload⟩ : ∃ e0, emuLoadImg
      (ldjmpStatements.flatMap (Statement.image (labelTable ldjmpStatements)))
      (emuInit (fun _ => 0) fun _ => 0) = .ok e0 := ⟨_, rfl⟩
  have hrun : ∃ s, iterate (sourceStep (labelTable ldjmpStatements) ldjmpStatements) 3 e0
      = .ok (.ret 3 s) := by
    cases hload
    exact ⟨_, rfl⟩
  obtain ⟨s, hs⟩ := hrun
  have hparse : Parses ldjmpLines.flatten ldjmpStatements := ⟨ldjmpLines, rfl, rfl⟩
  obtain ⟨hret, -, -⟩ := source_run hparse (by decide) (by decide) hasm hload (neverWrong_of_ret hs)
  exact ⟨_, e0, s, hasm, hload, (hret 3 s).2 ⟨3, hs⟩⟩

end E2E
