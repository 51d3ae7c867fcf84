import Emulathor.Assembler.Proof.Growth
import Emulathor.E2E.EncodeDecode

/-!
# Lines in memory

A line of instructions is `Assembled` to their bytes. Where a line's bytes lie at the position
(`Holds`), the next round executes its first instruction (`Holds.round`), and the rest of the line
lies at the position then (`Holds.next`).
-/

namespace E2E

open Common Lib Cpu Assembler

/-- The line is assembled to these bytes, whatever labels there are. -/
def Assembled (toks : List Token) (bs : List Byte) : Prop :=
  ∃ acts, exp toks = some acts ∧ ∀ t, lineBytes t acts = .ok bs

/-- The bytes lie at the position, inside memory. -/
def Holds (e : EmulatorContext) (bs : List Byte) : Prop :=
  e.InBlock e.pos bs.length ∧
    ∀ i (hi : i < bs.length), e.memory (e.pos + BitVec.ofNat 32 i) = bs[i]

instance (e : EmulatorContext) (bs : List Byte) : Decidable (Holds e bs) :=
  inferInstanceAs (Decidable (_ ∧ _))

/-! ## Assembling -/

theorem Assembled.unique {toks : List Token} {bs bs' : List Byte} (h : Assembled toks bs)
    (h' : Assembled toks bs') : bs = bs' := by
  obtain ⟨acts, hexp, hbytes⟩ := h
  obtain ⟨acts', hexp', hbytes'⟩ := h'
  cases hexp.symm.trans hexp'
  cases (hbytes fun _ => none).symm.trans (hbytes' fun _ => none)
  rfl

section
variable {cs : List EmitCall} (hr : ∀ c ∈ cs, InRange c)
include hr

theorem width_inRange : ∀ c ∈ callsOf (cs.map .call), c.width = 4 := by
  induction cs with
  | nil => exact List.forall_mem_nil _
  | cons c cs ih =>
    obtain ⟨b1, b2, b3, b4, hb⟩ := (hr c (.head _)).bytes
    refine List.forall_mem_cons.2 ⟨?_, ih fun c hc => hr c (.tail _ hc)⟩
    rw [EmitCall.width_eq (by simp [hb]), hb]
    rfl

theorem widthOf_inRange : widthOf (cs.map .call) = 4 * cs.length := by
  induction cs with
  | nil => rfl
  | cons c cs ih =>
    have hw : c.width = 4 := width_inRange hr c (.head _)
    rw [List.map_cons, widthOf_cons, ih fun c hc => hr c (.tail _ hc), List.length_cons]
    show c.width + _ = _
    omega

theorem length_inRange : (cs.flatMap EmitCall.bytes).length = 4 * cs.length := by
  induction cs with
  | nil => rfl
  | cons c cs ih =>
    obtain ⟨b1, b2, b3, b4, hb⟩ := (hr c (.head _)).bytes
    rw [List.flatMap_cons, List.length_append, ih fun c hc => hr c (.tail _ hc), hb,
      List.length_cons]
    simp only [List.length_cons, List.length_nil]
    omega

theorem refNames_inRange : refNames (cs.map .call) = [] := by
  induction cs with
  | nil => rfl
  | cons c cs ih =>
    have hc := hr c (.head _)
    cases c with
    | labelRef name reg cond => exact hc.elim
    | _ => exact ih fun c hc => hr c (.tail _ hc)

theorem image_inRange (t : String → Option Dword) :
    (cs.map .call).flatMap (Statement.image t) = cs.flatMap EmitCall.bytes := by
  rw [List.flatMap_map]
  refine List.flatMap_congr fun c hc => ?_
  have hrange := hr c hc
  cases c with
  | labelRef name reg cond => exact hrange.elim
  | _ => rfl

/-- The image of calls. -/
theorem assemble_calls {size : Dword} {fixedSize : Bool} {heap : Nat → Byte}
    (hroom : Roomy size fixedSize (cs.map .call)) :
    assemble size fixedSize heap (cs.map .call) = .ok (cs.flatMap EmitCall.bytes) := by
  have hcalls : Calls (cs.map Statement.call) := by
    intro s hs
    obtain ⟨c, -, rfl⟩ := List.mem_map.1 hs
    exact ⟨c, rfl⟩
  have hstraight : ∀ s ∈ cs.map Statement.call, s.Straight := by
    intro s hs
    obtain ⟨c, rfl⟩ := hcalls s hs
    trivial
  have hresolvable : Resolvable (cs.map .call) := by
    rw [Resolvable, hcalls.labelNames, refNames_inRange hr]
    exact ⟨.nil, List.forall_mem_nil _⟩
  rcases @assemble_roomy size fixedSize heap _ hstraight hroom with ⟨-, himg⟩ | ⟨hnot, -⟩
  · rw [himg, image_inRange hr]
  · exact absurd hresolvable hnot

/-- A line of up to sixteen instructions. -/
theorem assembled_calls {toks : List Token} (h : exp toks = some (cs.map .call))
    (hn : cs.length ≤ 16) : Assembled toks (cs.flatMap EmitCall.bytes) := by
  refine ⟨_, h, fun t => ?_⟩
  have hcalls : Calls (cs.map Statement.call) := by
    intro s hs
    obtain ⟨c, -, rfl⟩ := List.mem_map.1 hs
    exact ⟨c, rfl⟩
  have hw := widthOf_inRange hr
  rcases @lineBytes_calls t _ hcalls (by omega) with ⟨-, h⟩ | ⟨h, -⟩
  · rw [h, image_inRange hr]
  · rw [refNames_inRange hr] at h
    exact absurd (List.forall_mem_nil _) h

end

/-- A line of one instruction. -/
theorem assembled_call {toks : List Token} {c : EmitCall} (h : exp toks = some [.call c])
    (hr : InRange c) : Assembled toks c.bytes := by
  have hcalls : ∀ d ∈ [c], InRange d := fun d hd => List.mem_singleton.1 hd ▸ hr
  have := assembled_calls hcalls h (Nat.le_add_left 1 15)
  rwa [List.flatMap_singleton] at this

/-! ## Executing -/

section
variable {e e' : EmulatorContext} {c : EmitCall} {rest : List Byte}

/-- The round executes the instruction the bytes encode. -/
theorem Holds.round (h : Holds e (c.bytes ++ rest)) (hr : InRange c) :
    cpuIteration e = dispatchIns (insAt e.memory e.pos) e.fetched ∧
      Encodes (ofContext (insAt e.memory e.pos)) c := by
  obtain ⟨b1, b2, b3, b4, hb⟩ := hr.bytes
  obtain ⟨hin, hmem⟩ := h
  rw [hb] at hin hmem
  simp only [List.cons_append, List.nil_append, List.length_cons] at hin hmem
  have h0 : e.memory (e.pos + 0#32) = b1 := hmem 0 (by omega)
  have h1 : e.memory (e.pos + 1) = b2 := hmem 1 (by omega)
  have h2 : e.memory (e.pos + 2) = b3 := hmem 2 (by omega)
  have h3 : e.memory (e.pos + 3) = b4 := hmem 3 (by omega)
  rw [BitVec.add_zero] at h0
  refine ⟨cpuIteration_ok ?_, ?_⟩
  · unfold EmulatorContext.InBlock at hin ⊢
    omega
  · rw [insAt, h0, h1, h2, h3, ofContext_decodeBytes]
    exact encodes_of_bytes hr hb

/-- Behind an instruction comes the rest of the line. -/
theorem Holds.next (h : Holds e (c.bytes ++ rest)) (hr : InRange c) (hmem : e'.memory = e.memory)
    (hsize : e'.memorySize = e.memorySize) (hpos : e'.pos = e.pos + 4) : Holds e' rest := by
  obtain ⟨b1, b2, b3, b4, hb⟩ := hr.bytes
  obtain ⟨hin, hbytes⟩ := h
  have hlen : (c.bytes ++ rest).length = rest.length + 4 := by simp [hb]
  have hlt := e.memorySize.isLt
  unfold EmulatorContext.InBlock at hin
  constructor
  · have hp : (e.pos + 4).toNat = e.pos.toNat + 4 := toNat_add_ofNat (k := 4) (by omega)
    unfold EmulatorContext.InBlock
    rw [hpos, hsize, hp]
    omega
  · intro i hi
    have hbyte := hbytes (4 + i) (by omega)
    rw [hmem, hpos, BitVec.add_assoc, show (4 : Dword) = BitVec.ofNat 32 4 from rfl,
      ← BitVec.ofNat_add, hbyte, List.getElem_append_right (by simp [hb])]
    simp [hb]

end

/-- Bytes outside memory do not matter. -/
theorem Holds.congr {e : EmulatorContext} {bs : List Byte} {m : Dword → Byte}
    (h : Holds { e with memory := m } bs) (hm : ∀ i < e.memorySize, e.memory i = m i) :
    Holds e bs := by
  obtain ⟨hin, hbytes⟩ := h
  refine ⟨hin, fun i hi => ?_⟩
  rw [hm _ (inBlock_lt hin hi)]
  exact hbytes i hi

/-! ## Instructions that change registers only -/

/-- The call's instruction, under condition `cond`, changes the registers by `f`. -/
structure RegCall (cond : Byte) (c : EmitCall) (f : (Fin 16 → Dword) → Fin 16 → Dword) : Prop where
  inRange : InRange c
  condition : ∀ {ins : InstructionContext}, Encodes (ofContext ins) c → ins.condition = cond
  exec : ∀ {ins : InstructionContext} {e : EmulatorContext}, Encodes (ofContext ins) c →
    executeIns ins e = .ok (.next { e with regs := f e.regs })

/-- The registers after an instruction that changes them by `f` if its condition passes. -/
def stepRegs (cond : Byte) (f : (Fin 16 → Dword) → Fin 16 → Dword) (regs : Fin 16 → Dword) :
    Fin 16 → Dword :=
  if condPasses cond (regs cpuRegFlgs) then f regs else regs

theorem stepRegs_always (f : (Fin 16 → Dword) → Fin 16 → Dword) (regs : Fin 16 → Dword) :
    stepRegs cAlways f regs = f regs := rfl

section
variable {cond : Byte} {rest : List Byte}

theorem RegCall.round_eq {c : EmitCall} {f : (Fin 16 → Dword) → Fin 16 → Dword}
    {e : EmulatorContext} (h : RegCall cond c f) (hh : Holds e (c.bytes ++ rest)) :
    cpuIteration e = .ok (.next { e.fetched with regs := stepRegs cond f e.regs }) ∧
      Holds { e.fetched with regs := stepRegs cond f e.regs } rest := by
  obtain ⟨hround, henc⟩ := hh.round h.inRange
  refine ⟨?_, hh.next h.inRange rfl rfl rfl⟩
  rw [dispatchIns, h.condition henc, EmulatorContext.fetched_regs, h.exec henc] at hround
  rw [hround, stepRegs]
  split <;> rfl

theorem RegCall.round {c : EmitCall} {f : (Fin 16 → Dword) → Fin 16 → Dword}
    {e : EmulatorContext} (h : RegCall cond c f) (hh : Holds e (c.bytes ++ rest)) :
    ∃ e', cpuIteration e = .ok (.next e') ∧ Holds e' rest ∧ e'.regs = stepRegs cond f e.regs ∧
      e'.memory = e.memory ∧ e'.memorySize = e.memorySize ∧ e'.pos = e.pos + 4 := by
  obtain ⟨hround, hh'⟩ := h.round_eq hh
  exact ⟨_, hround, hh', rfl, rfl, rfl, rfl⟩

/-- Executing the calls, where their bytes lie at the position, changes the registers by `f`. -/
def RegRun (cs : List EmitCall) (f : (Fin 16 → Dword) → Fin 16 → Dword) : Prop :=
  ∀ (e : EmulatorContext) (rest : List Byte), Holds e (cs.flatMap EmitCall.bytes ++ rest) →
    ∃ e', iterate cpuIteration cs.length e = .ok (.next e') ∧ Holds e' rest ∧ e'.regs = f e.regs ∧
      e'.memory = e.memory ∧ e'.memorySize = e.memorySize

theorem RegCall.run {c : EmitCall} {f : (Fin 16 → Dword) → Fin 16 → Dword}
    (h : RegCall cond c f) : RegRun [c] (stepRegs cond f) := by
  intro e rest hh
  rw [List.flatMap_singleton] at hh
  obtain ⟨e', hround, hh', hregs, hmem, hsize, -⟩ := h.round hh
  exact ⟨e', iterate_next hround, hh', hregs, hmem, hsize⟩

theorem RegRun.append {cs ds : List EmitCall} {f g : (Fin 16 → Dword) → Fin 16 → Dword}
    (hf : RegRun cs f) (hg : RegRun ds g) : RegRun (cs ++ ds) (g ∘ f) := by
  intro e rest hh
  rw [List.flatMap_append, List.append_assoc] at hh
  obtain ⟨e1, hrun1, hh1, hregs1, hmem1, hsize1⟩ := hf e _ hh
  obtain ⟨e2, hrun2, hh2, hregs2, hmem2, hsize2⟩ := hg e1 _ hh1
  refine ⟨e2, ?_, hh2, ?_, hmem2.trans hmem1, hsize2.trans hsize1⟩
  · rw [List.length_append, iterate_add hrun1, hrun2]
  · rw [hregs2, hregs1]
    rfl

end

end E2E
