import Mathlib.Data.List.Induction
import Emulathor.Cpu.Emulator
import Emulathor.Cpu.Proof.Fetch

/-!
# Port I/O

`ins_out` masks the port number with 0x7F, `ins_in` masks the number of the register that holds it
and cuts the port number to a byte only. `ports_iff`: in a sequence of `IN` and `OUT` each goes to
the port its number is modulo 128, and `IN` from the latch reads what was last written to it, exactly
when no `IN` has a number whose byte is above 127.
-/

namespace Cpu

open Common Lib

/-- The port `pio_init` installs the latch at. -/
def latchPort : Fin 128 := ⟨0, Nat.zero_lt_succ _⟩

/-- An `IN` or `OUT`. -/
structure Access extends Issue where
  opcode : ins.opcode = Opcode.in_.code ∨ ins.opcode = Opcode.out.code

namespace Access

variable (a : Access)

def Reads : Prop := a.ins.opcode = Opcode.in_.code

instance decidableReads : Decidable a.Reads := inferInstanceAs (Decidable (_ = _))

/-- The value of the register that holds the port number. -/
def port : Dword := if a.Reads then a.regs a.ins.opb else a.regs a.ins.opa

/-- The port it is to go to. -/
def portNo : Fin 128 := ⟨a.port.toNat % 128, Nat.mod_lt _ (by decide)⟩

theorem exec_in (e : EmulatorContext) (h : a.Reads) :
    a.exec e = insIn a.ins { e with regs := a.regs } := by
  have ho : a.ins.opcode = Opcode.in_.code := h
  exact Issue.exec_next (by rw [executeIns, ho, Opcode.ofByte_code])

theorem exec_out (e : EmulatorContext) (h : ¬ a.Reads) :
    a.exec e = insOut a.ins { e with regs := a.regs } :=
  Issue.exec_next (by rw [executeIns, a.opcode.resolve_left h, Opcode.ofByte_code])

/-- What it does if it goes to port `p`. -/
def through (p : Fin 128) (e : EmulatorContext) : EmulatorContext :=
  let e := { e with regs := a.regs }
  if a.Reads then
    match e.ports p with
    | none => e.setReg a.ins.opa (BitVec.ofNat 32 p.val)
    | some hndl => (hndl.call true 0 e).2.setReg a.ins.opa (hndl.call true 0 e).1
  else
    match e.ports p with
    | none => e
    | some hndl => (hndl.call false (a.regs a.ins.opb) e).2

/-- It writes to the latch. -/
def Latches : Prop := ¬ a.Reads ∧ a.portNo = latchPort

instance decidableLatches : Decidable a.Latches := inferInstanceAs (Decidable (_ ∧ _))

end Access

/-- The value last written to the latch, 0 before any. -/
def lastOut (as : List Access) : Dword :=
  ((as.filter fun a => a.Latches).getLast?.map fun a => a.regs a.ins.opb).getD 0

/-- What a sequence of accesses is to do from `e`. -/
structure PortIo (e : EmulatorContext) (as : List Access) : Prop where
  resolves : ∀ a ∈ as, ∀ e, a.exec e = .ok (a.through a.portNo e)
  reads : ∀ pre a post, as = pre ++ a :: post → a.Reads → a.portNo = latchPort →
    ∃ e1 e2, run (·.exec) pre e = .ok e1 ∧ a.exec e1 = .ok e2 ∧
      e2.regs = Function.update a.regs a.ins.opa (lastOut pre)

/-- The state `pio_init` leaves. -/
def pioStart (e : EmulatorContext) : EmulatorContext :=
  pioInit { e with ports := fun _ => none, latch := 0 }

/-! ## One access -/

section
variable {a : Access} {e : EmulatorContext}

theorem pioRead_ok {no : Byte} (h : no.toNat < 128) : pioRead no e = .ok
    (match e.ports ⟨no.toNat, h⟩ with
    | none => (no.setWidth 32, e)
    | some hndl => hndl.call true 0 e) := by
  rw [pioRead, portAt, dif_pos h]
  show (match e.ports ⟨no.toNat, h⟩ with | none => _ | some hndl => _) = _
  cases e.ports ⟨no.toNat, h⟩ <;> rfl

theorem pioWrite_ok {no : Byte} {data : Dword} (h : no.toNat < 128) : pioWrite no data e = .ok
    (match e.ports ⟨no.toNat, h⟩ with
    | none => e
    | some hndl => (hndl.call false data e).2) := by
  rw [pioWrite, portAt, dif_pos h]
  show (match e.ports ⟨no.toNat, h⟩ with | none => _ | some hndl => _) = _
  cases e.ports ⟨no.toNat, h⟩ <;> rfl

theorem pioRead_error {no : Byte} (h : ¬ no.toNat < 128) : pioRead no e = .error (.port no) := by
  rw [pioRead, portAt, dif_neg h]
  rfl

/-- The mask on the register number does nothing. -/
theorem insIn_eq (ins : InstructionContext) : insIn ins e = (do
    let (data, e) ← pioRead ((e.regs ins.opb).setWidth 8) e
    return e.setReg ins.opa data) := by
  have hmask : ∀ r : Fin 16, r.val &&& 0x7F = r.val := by decide
  simp only [insIn, hmask]

theorem Access.exec_through (h : ¬ a.Reads) : a.exec e = .ok (a.through a.portNo e) := by
  have hno : ((a.regs a.ins.opa &&& 0x7F#32).setWidth 8).toNat = a.portNo.val := by
    have hmask : (0x7F#32).toNat = 2 ^ 7 - 1 := by decide
    rw [BitVec.toNat_setWidth, BitVec.toNat_and, hmask, Nat.and_two_pow_sub_one_eq_mod]
    simp only [portNo, port, h, ↓reduceIte]
    omega
  rw [a.exec_out e h, insOut, pioWrite_ok (by rw [hno]; exact a.portNo.isLt)]
  simp only [hno, through, h, ↓reduceIte, Fin.eta]

/-- **`IN`** goes to its port if the byte of its number is a port number. -/
theorem Access.exec_in_iff (h : a.Reads) :
    (∀ e, a.exec e = .ok (a.through a.portNo e)) ↔ a.port.toNat % 256 < 128 := by
  have hport : a.port = a.regs a.ins.opb := if_pos h
  have hbyte : ((a.regs a.ins.opb).setWidth 8).toNat = a.port.toNat % 256 := by
    rw [BitVec.toNat_setWidth, hport]
  have hexec (e : EmulatorContext) : a.exec e = (do
      let (data, e) ← pioRead ((a.regs a.ins.opb).setWidth 8) { e with regs := a.regs }
      return e.setReg a.ins.opa data) := by
    rw [a.exec_in e h, insIn_eq]
  constructor
  · intro hall
    by_contra hlt
    have herr := (hexec (emuInit a.regs a.regs)).symm.trans (hall _)
    rw [pioRead_error (by rw [hbyte]; exact hlt)] at herr
    cases herr
  · intro hlt e
    have hno : ((a.regs a.ins.opb).setWidth 8).toNat = a.portNo.val := by
      rw [hbyte]
      show _ = a.port.toNat % 128
      omega
    have hwide : ((a.regs a.ins.opb).setWidth 8).setWidth 32 = BitVec.ofNat 32 a.portNo.val := by
      rw [← hno, BitVec.ofNat_toNat]
    rw [hexec, pioRead_ok (by rw [hno]; exact a.portNo.isLt)]
    simp only [hno, hwide, through, h, ↓reduceIte, Fin.eta]
    cases e.ports a.portNo <;> rfl

/-- An access goes to its port unless it reads and the byte of its number is no port number. -/
theorem Access.exec_iff :
    (∀ e, a.exec e = .ok (a.through a.portNo e)) ↔ (a.Reads → a.port.toNat % 256 < 128) := by
  by_cases h : a.Reads
  · simp only [exec_in_iff h, h, true_implies]
  · simp only [exec_through h, h, implies_true, false_implies]

theorem Access.through_ports (p : Fin 128) : (a.through p e).ports = e.ports := by
  unfold through
  cases hp : e.ports p with
  | none => by_cases h : a.Reads <;> simp [h, hp]
  | some hndl => cases hndl; by_cases h : a.Reads <;> simp [h, hp, PortHandler.call, pioNull]

end

/-! ## Sequences -/

theorem lastOut_append (as : List Access) (a : Access) :
    lastOut (as ++ [a]) = if a.Latches then a.regs a.ins.opb else lastOut as := by
  by_cases h : a.Latches
  · simp [lastOut, List.filter_append, h]
  · simp [lastOut, List.filter_append, h]

/-- Only the latch has a handler, and the latch holds `v`. -/
def LatchHolds (v : Dword) (e : EmulatorContext) : Prop :=
  (∀ p, e.ports p = if p = latchPort then some .pioNull else none) ∧ e.latch = v

/-- An access keeps the latch's value up to date. -/
theorem latchHolds_through {as : List Access} {a : Access} {e : EmulatorContext}
    (h : LatchHolds (lastOut as) e) :
    LatchHolds (lastOut (as ++ [a])) (a.through a.portNo e) := by
  refine ⟨fun p => by rw [a.through_ports]; exact h.1 p, ?_⟩
  have hp := h.1 a.portNo
  rw [lastOut_append]
  by_cases hr : a.Reads
  · have hl : ¬ a.Latches := fun hl => hl.1 hr
    rw [if_neg hl, ← h.2]
    by_cases h0 : a.portNo = latchPort
    · rw [h0, if_pos rfl] at hp
      simp only [Access.through, hr, ↓reduceIte, h0, hp]
      rfl
    · simp only [Access.through, hr, ↓reduceIte, hp, h0]
      rfl
  · by_cases h0 : a.portNo = latchPort
    · have hl : a.Latches := ⟨hr, h0⟩
      rw [h0, if_pos rfl] at hp
      simp only [Access.through, hr, ↓reduceIte, h0, hp, hl]
      rfl
    · have hl : ¬ a.Latches := fun hl => h0 hl.2
      simp only [Access.through, hr, ↓reduceIte, hp, h0, hl]
      exact h.2

theorem pioStart_latchHolds (e : EmulatorContext) : LatchHolds (lastOut []) (pioStart e) :=
  ⟨fun _ => Function.update_apply .., rfl⟩

/-- A run of accesses that go to their ports. -/
theorem run_latchHolds {as : List Access}
    (h : ∀ a ∈ as, ∀ e, a.exec e = .ok (a.through a.portNo e)) (e : EmulatorContext) :
    ∃ e', run (·.exec) as (pioStart e) = .ok e' ∧ LatchHolds (lastOut as) e' := by
  induction as using List.reverseRecOn with
  | nil => exact ⟨_, rfl, pioStart_latchHolds e⟩
  | append_singleton as a ih =>
    obtain ⟨e1, hrun, hlatch⟩ := ih fun b hb => h b (List.mem_append_left _ hb)
    refine ⟨a.through a.portNo e1, ?_, latchHolds_through hlatch⟩
    rw [run_append, hrun]
    show run (·.exec) [a] e1 = _
    rw [run_singleton, h a (List.mem_append_right _ (.head _))]

/-- **Port I/O.** -/
theorem ports_iff (e : EmulatorContext) (as : List Access) :
    PortIo (pioStart e) as ↔ ∀ a ∈ as, a.Reads → a.port.toNat % 256 < 128 := by
  constructor
  · exact fun h a ha => Access.exec_iff.1 (h.resolves a ha)
  · intro h
    have hexec (a : Access) (ha : a ∈ as) := Access.exec_iff.2 (h a ha)
    refine ⟨hexec, ?_⟩
    rintro pre a post rfl hr h0
    obtain ⟨e1, hrun, hports, hlatch⟩ :=
      run_latchHolds (fun b hb => hexec b (List.mem_append_left _ hb)) e
    refine ⟨e1, _, hrun, hexec a (List.mem_append_right _ (.head _)) e1, ?_⟩
    simp only [Access.through, hr, ↓reduceIte, hports, h0, PortHandler.call, pioNull]
    rw [hlatch]
    rfl

/-- `IN R0,R1`, where `R1` is 128. -/
def in128 : Access where
  ins := { opcode := Opcode.in_.code, dst := 0, opa := 0, opb := 1, imm12 := 0, imm16 := 0,
           pfx := pfxDword, condition := Cond.always.code }
  regs := fun r => if r = 1 then 128 else 0
  opcode := .inl rfl

/-- It is no access to port 0. -/
theorem not_portIo_in128 : ¬ ∀ (e : EmulatorContext) (as : List Access), PortIo (pioStart e) as := by
  intro h
  let e : EmulatorContext := emuInit (fun _ => 0) fun _ => 0
  have hres := (h e [in128]).resolves in128 (.head _) e
  rw [show in128.exec e = .error (.port 128) from rfl] at hres
  cases hres

end Cpu
