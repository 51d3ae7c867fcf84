import Emulathor.Cpu.Proof.ByteArray
import Emulathor.Cpu.Proof.Ports

/-!
# What a step may change

`effects` says of each opcode what its instruction may change: bytes of memory, control registers,
the port, the position, the registers it names as written operands, and flags besides. A round of
the loop changes nothing else (`step_frame`); one whose condition does not hold, or whose opcode is
none of the `switch`'s, only advances the position and counts.
-/

namespace Cpu

open Common Lib

/-- What an instruction may change. -/
structure Effects where
  mem : Dword → Prop := fun _ => False
  creg : Fin 16 → Prop := fun _ => False
  port : Prop := False
  jump : Prop := False
  reg : Fin 16 → Prop := fun _ => False
  flags : Dword := 0

/-- The dword register a register of the prefix's size is in. -/
def dwordRegOf (pfx : Byte) (r : Fin 16) : Fin 16 :=
  if pfx = pfxWord then wordRegOf r else if pfx = pfxByte then byteRegOf r else r

/-- The bytes a prefix moves, at `addr`. -/
def moveSpan (pfx : Byte) (addr : Int) (i : Dword) : Prop :=
  addr ≤ i.toNat ∧ i.toNat < addr + moveSize pfx

/-- The bytes of the dwords `STOREMA` stores from `t` down. -/
def rangeSpan (t : Dword) (n : Nat) (i : Dword) : Prop :=
  t.toNat + 4 ≤ i.toNat + 4 * n ∧ i.toNat < t.toNat + 4

def effects (ins : InstructionContext) (e : EmulatorContext) : Effects :=
  match Opcode.ofByte ins.opcode with
  | some .add | some .sub => { reg := (· = ins.dst), flags := flgsC ||| flgsO }
  | some .mul | some .shl | some .shr | some .sar => { reg := (· = ins.dst), flags := flgsC }
  | some .smul => { reg := (· = ins.dst), flags := flgsO }
  | some .sdiv => { reg := fun r => operandB ins e ≠ 0 ∧ r = ins.dst, flags := flgsO }
  | some .div => { reg := fun r => operandB ins e ≠ 0 ∧ r = ins.dst }
  | some .mod => { reg := fun r => e.regs ins.opb ≠ 0 ∧ r = ins.dst }
  | some .and | some .or | some .xor => { reg := (· = ins.dst) }
  | some .cmp => { flags := flgsZ ||| flgsC ||| flgsS }
  | some .test => { flags := flgsZ ||| flgsS ||| flgsP ||| flgsE }
  | some .cmpxchg =>
    if ins.pfx = pfxDword then
      { mem := InSpan (e.regs ins.dst) 4
        reg := fun r => dwordAt e.memory (e.regs ins.dst) ≠ e.regs ins.opa ∧ r = ins.opa
        flags := flgsZ }
    else {}
  | some .not | some .sex | some .in_ | some .movfc => { reg := (· = ins.opa) }
  | some .mov => { reg := (· = dwordRegOf ins.pfx ins.opa) }
  | some .loadid =>
    { reg := fun r => (moveSize ins.pfx ≠ 0 ∧ (e.regs ins.opa).toNat + ins.imm12.toNat ≤ dwordMax) ∧
        r = dwordRegOf ins.pfx ins.dst }
  | some .loadrd =>
    { reg := fun r => (moveSize ins.pfx ≠ 0 ∧
          ¬ (((e.regs ins.opa).toNat : Int) + (e.regs ins.opb).toInt > dwordMax ∨
            ((e.regs ins.opa).toNat : Int) + (e.regs ins.opb).toInt < 0)) ∧
        r = dwordRegOf ins.pfx ins.dst }
  | some .loadi =>
    { reg := (· = if ins.pfx = pfxByte then byteRegOf ins.dst else wordRegOf ins.dst) }
  | some .loadma =>
    { reg := fun r => r = ins.dst ∨ (regstartOf ins).val ≤ r.val ∧ r.val ≤ (regendOf ins).val }
  | some .storema =>
    { mem := rangeSpan (e.regs ins.dst) ((regendOf ins).val + 1 - (regstartOf ins).val)
      reg := (· = ins.dst) }
  | some .storeid => { mem := moveSpan ins.pfx ((e.regs ins.dst).toNat + ins.imm12.toNat : Int) }
  | some .storerd =>
    { mem := moveSpan ins.pfx ((e.regs ins.dst).toNat + (e.regs ins.opb).toInt) }
  | some .movtc => { creg := (· = ins.opa) }
  | some .xchgc => { creg := (· = ins.opb), reg := (· = ins.opa) }
  | some .xchg => { reg := fun r => r = ins.opa ∨ r = ins.opb }
  | some .out => { port := True }
  | some .jmp => { jump := True }
  | some .call => { jump := True, reg := (· = cpuRegRc) }
  | some .stop | some .fail | some .iret | some .int | some .storeas | some .loadas | none => {}

/-- `e'` differs from `e` by these effects only. -/
structure Confined (w : Effects) (e e' : EmulatorContext) : Prop where
  memory : ∀ i, ¬ w.mem i → e'.memory i = e.memory i
  memorySize : e'.memorySize = e.memorySize
  cregs : ∀ r, ¬ w.creg r → e'.cregs r = e.cregs r
  ports : e'.ports = e.ports
  latch : ¬ w.port → e'.latch = e.latch
  pos : ¬ w.jump → e'.pos = e.pos
  instructionCount : e'.instructionCount = e.instructionCount
  regs : ∀ r, r ≠ cpuRegFlgs → ¬ w.reg r → e'.regs r = e.regs r
  flags : ¬ w.reg cpuRegFlgs → e'.regs cpuRegFlgs &&& ~~~w.flags = e.regs cpuRegFlgs &&& ~~~w.flags

namespace Confined

variable {w : Effects} {e e' : EmulatorContext}

theorem refl : Confined w e e where
  memory _ _ := rfl
  memorySize := rfl
  cregs _ _ := rfl
  ports := rfl
  latch _ := rfl
  pos _ := rfl
  instructionCount := rfl
  regs _ _ _ := rfl
  flags _ := rfl

/-- Registers that may be written are. -/
theorem setRegs {regs : Fin 16 → Dword} (h : Confined w e e')
    (hr : ∀ r, ¬ w.reg r → regs r = e'.regs r) : Confined w e { e' with regs := regs } :=
  { h with
    regs := fun r hne hw => (hr r hw).trans (h.regs r hne hw)
    flags := fun hw => by rw [← h.flags hw, ← hr _ hw] }

theorem setReg {r : Fin 16} {v : Dword} (h : Confined w e e') (hr : w.reg r) :
    Confined w e (e'.setReg r v) := by
  refine h.setRegs fun s hs => Function.update_of_ne ?_ ..
  rintro rfl
  exact hs hr

theorem setFlag {f : Dword} {b : Bool} (h : Confined w e e') (hf : f &&& ~~~w.flags = 0) :
    Confined w e (e'.setFlag f b) :=
  { h with
    regs := fun r hne hw => (e'.setFlag_other r f b hne).trans (h.regs r hne hw)
    flags := fun hw => by
      rw [← h.flags hw, EmulatorContext.setFlag, EmulatorContext.setReg_same]
      cases b with
      | true => exact or_and_disjoint hf
      | false => exact and_not_and_disjoint hf }

theorem setCreg {r : Fin 16} {v : Dword} (h : Confined w e e') (hr : w.creg r) :
    Confined w e (e'.setCreg r v) := by
  refine { h with cregs := fun s hs => (Function.update_of_ne ?_ ..).trans (h.cregs s hs) }
  rintro rfl
  exact hs hr

theorem setMemory {m : Dword → Byte} (h : Confined w e e') (hm : ∀ i, ¬ w.mem i → m i = e'.memory i) :
    Confined w e { e' with memory := m } :=
  { h with memory := fun i hi => (hm i hi).trans (h.memory i hi) }

theorem setPos {p : Dword} (h : Confined w e e') (hj : w.jump) : Confined w e { e' with pos := p } :=
  { h with pos := fun hn => absurd hj hn }

end Confined

/-! ## Instructions -/

section
variable {ins : InstructionContext} {e : EmulatorContext} {w : Effects}

/-- A result, then overflow and carry. -/
theorem sum_confined {v : Dword} {o c : Bool} (hr : w.reg ins.dst) (ho : flgsO &&& ~~~w.flags = 0)
    (hc : flgsC &&& ~~~w.flags = 0) :
    Confined w e (((e.setReg ins.dst v).setFlag flgsO o).setFlag flgsC c) :=
  ((Confined.refl.setReg hr).setFlag ho).setFlag hc

/-- The carry, then a result. -/
theorem carry_confined {v : Dword} {c : Bool} (hr : w.reg ins.dst) (hc : flgsC &&& ~~~w.flags = 0) :
    Confined w e ((e.setFlag flgsC c).setReg ins.dst v) :=
  (Confined.refl.setFlag hc).setReg hr

theorem insDiv_confined (hr : operandB ins e ≠ 0 → w.reg ins.dst) : Confined w e (insDiv ins e) := by
  unfold insDiv
  by_cases hb : operandB ins e = 0
  · simp only [hb, ↓reduceIte]
    exact .refl
  · simp only [hb, ↓reduceIte]
    exact Confined.refl.setReg (hr hb)

theorem insMod_confined (hr : e.regs ins.opb ≠ 0 → w.reg ins.dst) : Confined w e (insMod ins e) := by
  unfold insMod
  by_cases hb : e.regs ins.opb = 0
  · simp only [hb, ↓reduceIte]
    exact .refl
  · simp only [hb, ↓reduceIte]
    exact Confined.refl.setReg (hr hb)

theorem insSdiv_confined (hr : operandB ins e ≠ 0 → w.reg ins.dst) (hf : flgsO &&& ~~~w.flags = 0) :
    Confined w e (insSdiv ins e) := by
  unfold insSdiv
  by_cases hb : operandB ins e = 0
  · simp only [hb, ↓reduceIte]
    exact .refl
  simp only [hb, ↓reduceIte]
  split
  · exact (Confined.refl.setFlag hf).setReg (hr hb)
  · exact (Confined.refl.setFlag hf).setReg (hr hb)

/-- A word register written. -/
theorem setWordReg_confined {r : Fin 16} {v : Word} (hr : w.reg (wordRegOf r)) :
    Confined w e { e with regs := cpuSetWordReg r v e.regs } := by
  refine Confined.refl.setRegs fun s hs => Function.update_of_ne ?_ ..
  rintro rfl
  exact hs hr

/-- A byte register written. -/
theorem setByteReg_confined {r : Fin 16} {v : Byte} (hr : w.reg (byteRegOf r)) :
    Confined w e { e with regs := cpuSetByteReg r v e.regs } := by
  refine Confined.refl.setRegs fun s hs => Function.update_of_ne ?_ ..
  rintro rfl
  exact hs hr

theorem insLoadi_confined
    (hr : w.reg (if ins.pfx = pfxByte then byteRegOf ins.dst else wordRegOf ins.dst)) :
    Confined w e (insLoadi ins e) := by
  unfold insLoadi
  by_cases hb : ins.pfx = pfxByte
  · rw [if_pos hb] at hr ⊢
    exact setByteReg_confined hr
  · rw [if_neg hb] at hr ⊢
    exact setWordReg_confined hr

theorem insMov_confined (hr : w.reg (dwordRegOf ins.pfx ins.opa)) : Confined w e (insMov ins e) := by
  unfold insMov
  unfold dwordRegOf at hr
  by_cases hw : ins.pfx = pfxWord
  · have hi : ¬ pfxWord = pfxImm := by decide
    have hd : ¬ pfxWord = pfxDword := by decide
    simp only [hw, hi, hd, ↓reduceIte] at hr ⊢
    exact setWordReg_confined hr
  by_cases hb : ins.pfx = pfxByte
  · have hi : ¬ pfxByte = pfxImm := by decide
    have hd : ¬ pfxByte = pfxDword := by decide
    have hw' : ¬ pfxByte = pfxWord := by decide
    simp only [hb, hi, hd, hw', ↓reduceIte] at hr ⊢
    exact setByteReg_confined hr
  simp only [hw, hb, ↓reduceIte] at hr ⊢
  split
  · exact Confined.refl.setReg hr
  split
  · exact Confined.refl.setReg hr
  · exact .refl

theorem loadAt_confined {addr : Dword} (h : e.MoveInBlock ins.pfx addr)
    (hr : moveSize ins.pfx ≠ 0 → w.reg (dwordRegOf ins.pfx ins.dst)) :
    ∃ e', loadAt ins e addr = .ok e' ∧ Confined w e e' := by
  unfold loadAt
  unfold EmulatorContext.MoveInBlock at h
  unfold moveSize dwordRegOf at hr
  by_cases hd : ins.pfx = pfxDword
  · have hw : ¬ pfxDword = pfxWord := by decide
    have hb : ¬ pfxDword = pfxByte := by decide
    simp only [hd, hw, hb, ↓reduceIte] at h hr ⊢
    exact ⟨_, by rw [memGetDwordP_ok h]; rfl, Confined.refl.setReg (hr (by decide))⟩
  by_cases hw : ins.pfx = pfxWord
  · have hd' : ¬ pfxWord = pfxDword := by decide
    simp only [hw, hd', ↓reduceIte] at h hr ⊢
    exact ⟨_, by rw [memGetWordP_ok h]; rfl, setWordReg_confined (hr (by decide))⟩
  by_cases hb : ins.pfx = pfxByte
  · have hd' : ¬ pfxByte = pfxDword := by decide
    have hw' : ¬ pfxByte = pfxWord := by decide
    simp only [hb, hd', hw', ↓reduceIte] at h hr ⊢
    exact ⟨_, by rw [memGetByteP_ok h]; rfl, setByteReg_confined (hr (by decide))⟩
  · simp only [hd, hw, hb, ↓reduceIte]
    exact ⟨e, rfl, .refl⟩

theorem storeAt_confined {addr : Dword} {a : Int} (h : e.MoveInBlock ins.pfx addr)
    (ha : (addr.toNat : Int) = a) (hm : ∀ i, moveSpan ins.pfx a i → w.mem i) :
    ∃ e', storeAt ins e addr = .ok e' ∧ Confined w e e' := by
  obtain ⟨m, hstore, hbytes⟩ := storeAt_copies h
  refine ⟨_, hstore, Confined.refl.setMemory fun i hi => ?_⟩
  have hout : ¬ moveSpan ins.pfx a i := fun hs => hi (hm i hs)
  unfold moveSpan at hout
  rw [hbytes, overlay_out (by rw [slice_length]; omega), EmulatorContext.bytes, BitVec.ofNat_toNat,
    BitVec.setWidth_eq]

theorem insLoadid_confined (h : e.ImmAccess (e.regs ins.opa) ins)
    (hr : moveSize ins.pfx ≠ 0 ∧ (e.regs ins.opa).toNat + ins.imm12.toNat ≤ dwordMax →
      w.reg (dwordRegOf ins.pfx ins.dst)) : ∃ e', insLoadid ins e = .ok e' ∧ Confined w e e' := by
  unfold insLoadid
  by_cases hg : (e.regs ins.opa).toNat + ins.imm12.toNat > dwordMax
  · rw [if_pos hg]
    exact ⟨e, rfl, .refl⟩
  · rw [if_neg hg]
    exact loadAt_confined (h (Nat.not_lt.1 hg)) fun hs => hr ⟨hs, Nat.not_lt.1 hg⟩

theorem insLoadrd_confined (h : e.RegAccess (e.regs ins.opa) ins)
    (hr : moveSize ins.pfx ≠ 0 ∧
        ¬ (((e.regs ins.opa).toNat : Int) + (e.regs ins.opb).toInt > dwordMax ∨
          ((e.regs ins.opa).toNat : Int) + (e.regs ins.opb).toInt < 0) →
      w.reg (dwordRegOf ins.pfx ins.dst)) : ∃ e', insLoadrd ins e = .ok e' ∧ Confined w e e' := by
  unfold insLoadrd
  by_cases hg : ((e.regs ins.opa).toNat : Int) + (e.regs ins.opb).toInt > dwordMax ∨
      ((e.regs ins.opa).toNat : Int) + (e.regs ins.opb).toInt < 0
  · rw [if_pos hg]
    exact ⟨e, rfl, .refl⟩
  · rw [if_neg hg]
    exact loadAt_confined (h hg) fun hs => hr ⟨hs, hg⟩

theorem insStoreid_confined (h : e.ImmAccess (e.regs ins.dst) ins)
    (hm : ∀ i, moveSpan ins.pfx ((e.regs ins.dst).toNat + ins.imm12.toNat : Int) i → w.mem i) :
    ∃ e', insStoreid ins e = .ok e' ∧ Confined w e e' := by
  unfold insStoreid
  by_cases hg : (e.regs ins.dst).toNat + ins.imm12.toNat > dwordMax
  · rw [if_pos hg]
    exact ⟨e, rfl, .refl⟩
  · rw [if_neg hg]
    exact storeAt_confined (h (Nat.not_lt.1 hg)) (by rw [immAddr_toNat hg, Int.natCast_add]) hm

theorem insStorerd_confined (h : e.RegAccess (e.regs ins.dst) ins)
    (hm : ∀ i, moveSpan ins.pfx ((e.regs ins.dst).toNat + (e.regs ins.opb).toInt) i → w.mem i) :
    ∃ e', insStorerd ins e = .ok e' ∧ Confined w e e' := by
  unfold insStorerd
  by_cases hg : ((e.regs ins.dst).toNat : Int) + (e.regs ins.opb).toInt > dwordMax ∨
      ((e.regs ins.dst).toNat : Int) + (e.regs ins.opb).toInt < 0
  · rw [if_pos hg]
    exact ⟨e, rfl, .refl⟩
  · rw [if_neg hg]
    exact storeAt_confined (h hg) (regAddr_toNat hg) hm

theorem insLoadma_confined
    (h : e.PopBlock (e.regs ins.dst) ((regendOf ins).val + 1 - (regstartOf ins).val))
    (hd : w.reg ins.dst)
    (hr : ∀ r : Fin 16, (regstartOf ins).val ≤ r.val ∧ r.val ≤ (regendOf ins).val → w.reg r) :
    ∃ e', insLoadma ins e = .ok e' ∧ Confined w e e' := by
  refine ⟨_, insLoadma_ok h, (Confined.setRegs .refl fun r hnr => ?_).setReg hd⟩
  exact if_neg fun hin => hnr (hr r hin)

theorem insStorema_confined
    (h : e.PushBlock (e.regs ins.dst) ((regendOf ins).val + 1 - (regstartOf ins).val))
    (hd : w.reg ins.dst) (hm : ∀ i,
      rangeSpan (e.regs ins.dst) ((regendOf ins).val + 1 - (regstartOf ins).val) i → w.mem i) :
    ∃ e', insStorema ins e = .ok e' ∧ Confined w e e' := by
  refine ⟨_, insStorema_ok h, (Confined.setMemory .refl fun i hi => ?_).setReg hd⟩
  have hout : ¬ rangeSpan (e.regs ins.dst) (rangeLength (regstartOf ins) (regendOf ins)) i :=
    fun hs => hi (hm i hs)
  have hsize := e.memorySize.isLt
  show pushDwords _ _ _ i = _
  by_cases h0 : rangeLength (regstartOf ins) (regendOf ins) = 0
  · rw [h0]
    rfl
  obtain ⟨hlow, hin⟩ := h h0
  unfold EmulatorContext.InBlock at hin
  unfold rangeSpan at hout
  refine pushDwords_outside ?_ (by omega) ?_
  · rw [regVals_length]
    exact hlow
  · rw [regVals_length]
    omega

theorem insCmpxchg_confined (h : ins.pfx = pfxDword → e.InBlock (e.regs ins.dst) 4)
    (hm : ins.pfx = pfxDword → ∀ i, InSpan (e.regs ins.dst) 4 i → w.mem i)
    (hr : ins.pfx = pfxDword → dwordAt e.memory (e.regs ins.dst) ≠ e.regs ins.opa →
      w.reg ins.opa)
    (hf : ins.pfx = pfxDword → flgsZ &&& ~~~w.flags = 0) :
    ∃ e', insCmpxchg ins e = .ok e' ∧ Confined w e e' := by
  unfold insCmpxchg
  by_cases hd : ins.pfx = pfxDword
  · have hin := h hd
    have hsize := e.memorySize.isLt
    simp only [hd, ↓reduceIte]
    rw [memGetDwordP_ok hin, ok_bind]
    simp only
    split
    case isTrue heq =>
      refine ⟨_, by rw [memWriteDwordP_ok hin]; rfl,
        (Confined.setMemory .refl fun i hi => ?_).setFlag (hf hd)⟩
      refine writeN_outside ?_ fun hs => hi (hm hd i hs)
      unfold EmulatorContext.InBlock at hin
      show _ + 4 ≤ _
      omega
    case isFalse hne => exact ⟨_, rfl, (Confined.refl.setReg (hr hd hne)).setFlag (hf hd)⟩
  · simp only [hd, ↓reduceIte]
    exact ⟨e, rfl, .refl⟩

theorem insIn_confined (h : (e.regs ins.opb).toNat % 256 < 128) (hr : w.reg ins.opa) :
    ∃ e', insIn ins e = .ok e' ∧ Confined w e e' := by
  have hno : ((e.regs ins.opb).setWidth 8).toNat < 128 := by rwa [BitVec.toNat_setWidth]
  rw [insIn_eq, pioRead_ok hno]
  cases hp : e.ports ⟨_, hno⟩ with
  | none => exact ⟨_, rfl, Confined.refl.setReg hr⟩
  | some hndl => cases hndl; exact ⟨_, rfl, Confined.refl.setReg hr⟩

theorem insOut_confined (hp : w.port) : ∃ e', insOut ins e = .ok e' ∧ Confined w e e' := by
  have hno : ((e.regs ins.opa &&& 0x7F#32).setWidth 8).toNat < 128 := by
    have hmask : (0x7F#32).toNat = 2 ^ 7 - 1 := by decide
    rw [BitVec.toNat_setWidth, BitVec.toNat_and, hmask, Nat.and_two_pow_sub_one_eq_mod]
    omega
  rw [insOut, pioWrite_ok hno]
  cases e.ports ⟨_, hno⟩ with
  | none => exact ⟨_, rfl, .refl⟩
  | some hndl =>
    cases hndl
    exact ⟨_, rfl, { Confined.refl with latch := fun hn => absurd hp hn }⟩

/-- A `.next` of what an instruction leaves. -/
theorem confined_next {x : Except Fault EmulatorContext} (h : ∃ e', x = .ok e' ∧ Confined w e e') :
    ∃ f : Flow, .next <$> x = .ok f ∧ Confined w e f.state := by
  obtain ⟨e', rfl, hw⟩ := h
  exact ⟨_, rfl, hw⟩

theorem insJmp_confined (hj : w.jump) : Confined w e (insJmp ins e) := by
  unfold insJmp
  split
  · exact Confined.refl.setPos hj
  · exact Confined.refl.setPos hj

theorem insCall_confined (hr : w.reg cpuRegRc) (hj : w.jump) : Confined w e (insCall ins e) := by
  unfold insCall
  simp only
  split
  · exact (Confined.refl.setReg hr).setPos hj
  · exact (Confined.refl.setReg hr).setPos hj

theorem insXchg_confined (ha : w.reg ins.opa) (hb : w.reg ins.opb) : Confined w e (insXchg ins e) :=
  (Confined.refl.setReg ha).setReg hb

theorem insCmp_confined (hz : flgsZ &&& ~~~w.flags = 0) (hc : flgsC &&& ~~~w.flags = 0)
    (hs : flgsS &&& ~~~w.flags = 0) : Confined w e (insCmp ins e) :=
  ((Confined.refl.setFlag hz).setFlag hc).setFlag hs

theorem insTest_confined (hz : flgsZ &&& ~~~w.flags = 0) (hs : flgsS &&& ~~~w.flags = 0)
    (he : flgsE &&& ~~~w.flags = 0) (hp : flgsP &&& ~~~w.flags = 0) : Confined w e (insTest ins e) :=
  (((Confined.refl.setFlag hz).setFlag hs).setFlag he).setFlag hp

/-- **An instruction** has its effects only. -/
theorem executeIns_confined (h : e.AccessInRange ins)
    (hin : ins.opcode = Opcode.in_.code → (e.regs ins.opb).toNat % 256 < 128) :
    ∃ f, executeIns ins e = .ok f ∧ Confined (effects ins e) e f.state := by
  have hc : flgsC &&& ~~~flgsC = 0 := by decide
  have ho : flgsO &&& ~~~flgsO = 0 := by decide
  have hcCO : flgsC &&& ~~~(flgsC ||| flgsO) = 0 := by decide
  have hoCO : flgsO &&& ~~~(flgsC ||| flgsO) = 0 := by decide
  unfold EmulatorContext.AccessInRange at h
  unfold effects executeIns
  cases hop : Opcode.ofByte ins.opcode with
  | none => exact ⟨_, rfl, .refl⟩
  | some o =>
    rw [hop] at h
    cases o with
    | add | sub => exact ⟨_, rfl, sum_confined rfl hoCO hcCO⟩
    | mul | shl | shr | sar => exact ⟨_, rfl, carry_confined rfl hc⟩
    | smul => exact ⟨_, rfl, (Confined.refl.setReg rfl).setFlag ho⟩
    | sdiv => exact ⟨_, rfl, insSdiv_confined (fun hb => ⟨hb, rfl⟩) ho⟩
    | and | or | xor => exact ⟨_, rfl, Confined.refl.setReg rfl⟩
    | div => exact ⟨_, rfl, insDiv_confined fun hb => ⟨hb, rfl⟩⟩
    | mod => exact ⟨_, rfl, insMod_confined fun hb => ⟨hb, rfl⟩⟩
    | cmp =>
      have hz : flgsZ &&& ~~~(flgsZ ||| flgsC ||| flgsS) = 0 := by decide
      have hc : flgsC &&& ~~~(flgsZ ||| flgsC ||| flgsS) = 0 := by decide
      have hs : flgsS &&& ~~~(flgsZ ||| flgsC ||| flgsS) = 0 := by decide
      exact ⟨_, rfl, insCmp_confined hz hc hs⟩
    | test =>
      have hz : flgsZ &&& ~~~(flgsZ ||| flgsS ||| flgsP ||| flgsE) = 0 := by decide
      have hs : flgsS &&& ~~~(flgsZ ||| flgsS ||| flgsP ||| flgsE) = 0 := by decide
      have he : flgsE &&& ~~~(flgsZ ||| flgsS ||| flgsP ||| flgsE) = 0 := by decide
      have hp : flgsP &&& ~~~(flgsZ ||| flgsS ||| flgsP ||| flgsE) = 0 := by decide
      exact ⟨_, rfl, insTest_confined hz hs he hp⟩
    | not | sex | movfc => exact ⟨_, rfl, Confined.refl.setReg rfl⟩
    | in_ => exact confined_next (insIn_confined (hin (Opcode.code_of_ofByte hop).symm) rfl)
    | mov => exact ⟨_, rfl, insMov_confined rfl⟩
    | loadi => exact ⟨_, rfl, insLoadi_confined rfl⟩
    | loadid => exact confined_next (insLoadid_confined h fun hg => ⟨hg, rfl⟩)
    | loadrd => exact confined_next (insLoadrd_confined h fun hg => ⟨hg, rfl⟩)
    | loadma => exact confined_next (insLoadma_confined h (.inl rfl) fun r hr => .inr hr)
    | storema => exact confined_next (insStorema_confined h rfl fun i hi => hi)
    | storeid => exact confined_next (insStoreid_confined h fun i hi => hi)
    | storerd => exact confined_next (insStorerd_confined h fun i hi => hi)
    | cmpxchg =>
      refine confined_next (insCmpxchg_confined h ?_ ?_ ?_)
      · intro hd i hi
        simpa only [hd, ↓reduceIte] using hi
      · intro hd hne
        simp only [hd, ↓reduceIte]
        exact ⟨hne, trivial⟩
      · intro hd
        simp only [hd, ↓reduceIte]
        decide
    | movtc => exact ⟨_, rfl, Confined.refl.setCreg rfl⟩
    | xchgc => exact ⟨_, rfl, (Confined.refl.setReg rfl).setCreg rfl⟩
    | xchg => exact ⟨_, rfl, insXchg_confined (.inl rfl) (.inr rfl)⟩
    | out => exact confined_next (insOut_confined trivial)
    | jmp => exact ⟨_, rfl, insJmp_confined trivial⟩
    | call => exact ⟨_, rfl, insCall_confined rfl trivial⟩
    | stop | fail | iret | int | storeas | loadas => exact ⟨_, rfl, .refl⟩

end

/-- **A step** has the effects of its instruction only, and none if that is not executed. -/
theorem step_frame {e : EmulatorContext} (h : e.InRange)
    (hin : condPasses (insAt e.memory e.pos).condition (e.regs cpuRegFlgs) →
      (insAt e.memory e.pos).opcode = Opcode.in_.code →
      (e.regs (insAt e.memory e.pos).opb).toNat % 256 < 128) :
    ∃ f, cpuIteration e = .ok f ∧ Confined (effects (insAt e.memory e.pos) e) e.fetched f.state ∧
      (condPasses (insAt e.memory e.pos).condition (e.regs cpuRegFlgs) = false ∨
        Opcode.ofByte (insAt e.memory e.pos).opcode = none → f.state = e.fetched) := by
  obtain ⟨hpos, hacc⟩ := h
  rw [cpuIteration_ok hpos, dispatchIns, EmulatorContext.fetched_regs]
  by_cases hc : condPasses (insAt e.memory e.pos).condition (e.regs cpuRegFlgs)
  · rw [if_pos hc]
    obtain ⟨f, hf, hw⟩ := executeIns_confined (e := e.fetched) (hacc hc) (hin hc)
    refine ⟨f, hf, hw, fun hskip => ?_⟩
    have hnone := hskip.resolve_left (by rw [hc]; decide)
    rw [executeIns, hnone] at hf
    cases hf
    rfl
  · rw [if_neg hc]
    exact ⟨_, rfl, .refl, fun _ => rfl⟩

/-- `IN R0,R1` in memory, `R1` is 5. -/
def inState : EmulatorContext :=
  { emuInit (fun r => if r = 1 then 5 else 0) fun _ => 0 with
    memory := fun i => [0x19#8, 0x00, 0x01, 0x00].getD i.toNat 0 }

theorem step_frame_in : inState.InRange ∧
    ∃ f, cpuIteration inState = .ok f ∧
      Confined (effects (insAt inState.memory inState.pos) inState) inState.fetched f.state ∧
      (condPasses (insAt inState.memory inState.pos).condition (inState.regs cpuRegFlgs) = false ∨
        Opcode.ofByte (insAt inState.memory inState.pos).opcode = none →
          f.state = inState.fetched) :=
  ⟨by decide, step_frame (by decide) (by decide)⟩

end Cpu
