import Emulathor.Cpu.Emulator
import Emulathor.Cpu.Proof.ByteArray
import Emulathor.Cpu.Proof.Compare

/-!
# Immediate and register displacement

`LOADID` and `STOREID` add an unsigned immediate to the base, `LOADRD` and `STORERD` a signed
register, each with a guard of its own. `displacement`: where the register holds the immediate they
do the same; and a register displacement moves the bytes at the exact sum (`Direction.Accessed`), or
none if that is no address.
-/

namespace Cpu

open Common Lib

/-- Loads and stores. -/
inductive Direction
  | load | store

namespace Direction

/-- The instruction with an immediate displacement. -/
def id : Direction → Opcode
  | load => .loadid
  | store => .storeid

/-- The instruction with a displacement in a register. -/
def rd : Direction → Opcode
  | load => .loadrd
  | store => .storerd

/-- The base register. -/
def base (ins : InstructionContext) : Direction → Fin 16
  | load => ins.opa
  | store => ins.dst

/-- The access to memory at an address. -/
def access (ins : InstructionContext) (e : EmulatorContext) (addr : Dword) :
    Direction → Except Fault EmulatorContext
  | load => loadAt ins e addr
  | store => storeAt ins e addr

/-- The bytes of the prefix's size at `addr` moved, and nothing else: a load lays them over the bytes
of its destination, a store those of its operand over memory. -/
def Accessed (ins : InstructionContext) (e e' : EmulatorContext) (addr : Nat) : Direction → Prop
  | load => ∃ regs, e' = { e with regs } ∧ ∀ j < 64, regBytes regs j
      = overlay (regBytes e.regs) (moveSize ins.pfx * ins.dst.val)
        (slice e.bytes addr (moveSize ins.pfx)) j
  | store => ∃ memory, e' = { e with memory } ∧ ∀ i : Dword, memory i
      = overlay e.bytes addr
        (slice (regBytes e.regs) (moveSize ins.pfx * ins.opa.val) (moveSize ins.pfx)) i.toNat

/-- The exact sum of base and displacement of the instruction with a register. -/
def sum (ins : InstructionContext) (e : EmulatorContext) (d : Direction) : Int :=
  (e.regs (d.base ins)).toNat + (e.regs ins.opb).toInt

end Direction

section
variable {d : Direction} {ins : InstructionContext} {e : EmulatorContext}

/-- The instruction with an immediate: guarded off, or an access at the sum. -/
theorem executeIns_id (hop : ins.opcode = d.id.code) :
    executeIns ins e = .next <$>
      if (e.regs (d.base ins)).toNat + ins.imm12.toNat > dwordMax then .ok e
      else d.access ins e (e.regs (d.base ins) + ins.imm12.setWidth 32) := by
  rw [executeIns, hop, Opcode.ofByte_code]
  cases d <;> rfl

/-- The instruction with a register. -/
theorem executeIns_rd (hop : ins.opcode = d.rd.code) :
    executeIns ins e = .next <$>
      if d.sum ins e > dwordMax ∨ d.sum ins e < 0 then .ok e
      else d.access ins e (e.regs (d.base ins) + e.regs ins.opb) := by
  rw [executeIns, hop, Opcode.ofByte_code]
  cases d <;> rfl

/-- An access takes prefix, destination and first operand from the instruction. -/
theorem access_congr {ins' : InstructionContext} {addr : Dword} (hpfx : ins.pfx = ins'.pfx)
    (hdst : ins.dst = ins'.dst) (hopa : ins.opa = ins'.opa) :
    d.access ins e addr = d.access ins' e addr := by
  cases d with
  | load => simp only [Direction.access, loadAt, hpfx, hdst]
  | store => simp only [Direction.access, storeAt, hpfx, hopa]

/-- An immediate in a register is not negative. -/
theorem toInt_setWidth_word (w : Word) : (w.setWidth 32 : Dword).toInt = w.toNat := by
  have hw := w.isLt
  have hnat : (w.setWidth 32 : Dword).toNat = w.toNat := BitVec.toNat_setWidth_of_le (by decide)
  rw [BitVec.toInt_eq_toNat_of_lt (by omega), hnat]

/-- Both forms of an instruction, where the register holds the immediate. -/
theorem executeIns_id_rd {ins' : InstructionContext} (hop : ins.opcode = d.id.code)
    (hop' : ins'.opcode = d.rd.code) (hpfx : ins.pfx = ins'.pfx) (hdst : ins.dst = ins'.dst)
    (hopa : ins.opa = ins'.opa) (hreg : e.regs ins'.opb = ins.imm12.setWidth 32) :
    executeIns ins e = executeIns ins' e := by
  have hbase : d.base ins = d.base ins' := by
    cases d with
    | load => exact hopa
    | store => exact hdst
  have hguard : (e.regs (d.base ins')).toNat + ins.imm12.toNat > dwordMax ↔
      d.sum ins' e > dwordMax ∨ d.sum ins' e < 0 := by
    rw [Direction.sum, hreg, toInt_setWidth_word]
    omega
  rw [executeIns_id hop, executeIns_rd hop', hreg, hbase]
  simp only [hguard, access_congr hpfx hdst hopa]

/-- A sum out of range is guarded off. -/
theorem executeIns_rd_out (hop : ins.opcode = d.rd.code)
    (hout : d.sum ins e < 0 ∨ 2 ^ 32 ≤ d.sum ins e) : executeIns ins e = .ok (.next e) := by
  have hmax : (dwordMax : Int) = 2 ^ 32 - 1 := rfl
  rw [executeIns_rd hop, if_pos (by omega)]
  rfl

/-- A sum in range is the address. -/
theorem executeIns_rd_in (hop : ins.opcode = d.rd.code) (hge : 0 ≤ d.sum ins e)
    (hlt : d.sum ins e < 2 ^ 32) :
    ∃ addr : Dword, (addr.toNat : Int) = d.sum ins e ∧
      executeIns ins e = .next <$> d.access ins e addr := by
  have hmax : (dwordMax : Int) = 2 ^ 32 - 1 := rfl
  have hguard : ¬ (d.sum ins e > dwordMax ∨ d.sum ins e < 0) := by omega
  refine ⟨_, regAddr_toNat hguard, ?_⟩
  rw [executeIns_rd hop, if_neg hguard]

/-- An access inside memory moves its bytes. -/
theorem access_ok {addr : Dword} (h : addr.toNat + moveSize ins.pfx ≤ e.memorySize.toNat) :
    ∃ e', d.access ins e addr = .ok e' ∧ d.Accessed ins e e' addr.toNat := by
  cases d with
  | load =>
    obtain ⟨regs, hload, hregs⟩ := loadAt_copies (moveInBlock_of_le h)
    exact ⟨_, hload, regs, rfl, hregs⟩
  | store =>
    obtain ⟨m, hstore, hm⟩ := storeAt_copies (moveInBlock_of_le h)
    exact ⟨_, hstore, m, rfl, hm⟩

/-- One that is not inside faults. -/
theorem access_out {addr : Dword} (hn : 0 < moveSize ins.pfx)
    (h : e.memorySize.toNat < addr.toNat + moveSize ins.pfx) :
    OutOfBlock e.memorySize (d.access ins e addr) := by
  have hout : ¬ e.MoveInBlock ins.pfx addr := fun hin => by
    rcases moveInBlock_iff.1 hin with hzero | hle
    · omega
    · omega
  cases d with
  | load => exact loadAt_faults.2 hout
  | store => exact storeAt_faults.2 hout

end

/-- **Displacements.** An immediate and a register that holds it lead to the same; and a register
displacement to the bytes at the exact sum, or nowhere if that is no address. -/
theorem displacement :
    (∀ (d : Direction) (ins ins' : InstructionContext) (e : EmulatorContext),
      ins.opcode = d.id.code → ins'.opcode = d.rd.code → ins.condition = ins'.condition →
      ins.pfx = ins'.pfx → ins.dst = ins'.dst → ins.opa = ins'.opa →
      e.regs ins'.opb = ins.imm12.setWidth 32 → dispatchIns ins e = dispatchIns ins' e) ∧
    ∀ (d : Direction) (ins : InstructionContext) (e : EmulatorContext), e.InBlock e.pos 4 →
      Passes e → insAt e.memory e.pos = ins → ins.opcode = d.rd.code →
      (d.sum ins e < 0 ∨ 2 ^ 32 ≤ d.sum ins e → cpuIteration e = .ok (.next e.fetched)) ∧
      (0 ≤ d.sum ins e → d.sum ins e < 2 ^ 32 →
        (d.sum ins e + moveSize ins.pfx ≤ e.memorySize.toNat →
          ∃ e', cpuIteration e = .ok (.next e') ∧
            d.Accessed ins e.fetched e' (d.sum ins e).toNat) ∧
        (0 < moveSize ins.pfx → e.memorySize.toNat < d.sum ins e + moveSize ins.pfx →
          OutOfBlock e.memorySize (cpuIteration e))) := by
  refine ⟨fun d ins ins' e hop hop' hcond hpfx hdst hopa hreg => ?_,
    fun d ins e hin hpass hins hop => ?_⟩
  · rw [dispatchIns, dispatchIns, hcond, executeIns_id_rd hop hop' hpfx hdst hopa hreg]
  · subst hins
    rcases round_cases hin with ⟨-, hround⟩ | ⟨hnot, -⟩
    case inr => exact absurd hpass hnot
    rw [hround]
    refine ⟨fun hout => executeIns_rd_out (e := e.fetched) hop hout, fun hge hlt => ?_⟩
    obtain ⟨addr, haddr, hexec⟩ := executeIns_rd_in (e := e.fetched) hop hge hlt
    have haddr : (addr.toNat : Int) = d.sum (insAt e.memory e.pos) e := haddr
    rw [hexec]
    refine ⟨fun hfit => ?_, fun hn hout => ?_⟩
    · have hfit :
          addr.toNat + moveSize (insAt e.memory e.pos).pfx ≤ e.fetched.memorySize.toNat := by
        rw [EmulatorContext.fetched_memorySize]
        omega
      obtain ⟨e', hok, hmoved⟩ := access_ok (d := d) hfit
      rw [hok, ← haddr, Int.toNat_natCast]
      exact ⟨e', rfl, hmoved⟩
    · refine (access_out (e := e.fetched) hn ?_).map _
      rw [EmulatorContext.fetched_memorySize]
      omega

/-- A state with `code` in memory. -/
def codeState (code : List Byte) (regs : Fin 16 → Dword) : EmulatorContext :=
  { emuInit regs fun _ => 0 with memory := fun i => code.getD i.toNat 0 }

/-- `LOADRD R1,R0,R2`, `R0` is 0xFFFFFFFE and `R2` is 4. -/
def loadrdState : EmulatorContext :=
  codeState [0x27#8, 0x01, 0x02, 0x00] fun r => [0xFFFFFFFE#32, 0, 4].getD r.val 0

/-- `LOADID R1,R0,4` and `LOADRD R1,R0,R2`. -/
def loadidIns : InstructionContext := decodeBytes 0x26 0x01 0x00 0x04
def loadrdIns : InstructionContext := decodeBytes 0x27 0x01 0x02 0x00

/-- `LOADRD R1H,R0,R2` and a word, `R0` is 8 and `R2` is -4. -/
def loadrdWordState : EmulatorContext :=
  codeState [0x67#8, 0x03, 0x02, 0x00, 0xCD, 0xAB] fun r => [8#32, 0, -4].getD r.val 0

/-- `STORERD R0,R2,R1LH`, `R0` is 0x100, `R1` is 0x1234 and `R2` is 7. -/
def storerdState : EmulatorContext :=
  codeState [0xA9#8, 0x00, 0x52, 0x00] fun r => [0x100#32, 0x1234, 7].getD r.val 0

theorem displacement_loadrd :
    dispatchIns loadidIns loadrdState = dispatchIns loadrdIns loadrdState ∧
    cpuIteration loadrdState = .ok (.next loadrdState.fetched) ∧
    (∃ regs, cpuIteration loadrdWordState = .ok (.next { loadrdWordState.fetched with regs }) ∧
      ∀ j < 64, regBytes regs j = overlay (regBytes loadrdWordState.regs) 6 [0xCD#8, 0xAB#8] j) ∧
    ∃ memory, cpuIteration storerdState = .ok (.next { storerdState.fetched with memory }) ∧
      ∀ i : Dword, memory i = overlay storerdState.bytes 0x107 [0x12#8] i.toNat := by
  obtain ⟨hsame, hsum⟩ := displacement
  refine ⟨hsame .load loadidIns loadrdIns loadrdState rfl rfl rfl rfl rfl rfl (by decide),
    (hsum .load loadrdIns loadrdState (by decide) rfl rfl rfl).1 (.inr (by decide)), ?_, ?_⟩
  · obtain ⟨e', hround, regs, rfl, hregs⟩ :=
      ((hsum .load _ loadrdWordState (by decide) rfl rfl rfl).2 (by decide) (by decide)).1 (by decide)
    exact ⟨regs, hround, hregs⟩
  · obtain ⟨e', hround, m, rfl, hm⟩ :=
      ((hsum .store _ storerdState (by decide) rfl rfl rfl).2 (by decide) (by decide)).1 (by decide)
    exact ⟨m, hround, hm⟩

end Cpu
