import Emulathor.Cpu.Proof.ByteArray

/-!
# Byte, word and dword registers

The registers of all three sizes are views of one array of 64 bytes (`Width.byteAt_get`), and a
write to one of them lays its bytes over the array (`RegWrite.regBytes_perform`). So after any
writes, in any mix of sizes, a register of any size is composed of the bytes last written at its
positions, and a write changes no other register it does not overlap (`sub_registers`).
-/

namespace Cpu

open Common Lib

/-! ## Views -/

/-- The sizes of registers: `R0LL`, `R0L` and `R0`. -/
inductive Width
  | byte | word | dword
  deriving DecidableEq, Repr

namespace Width

/-- In bytes. -/
def size : Width → Nat
  | byte => 1
  | word => 2
  | dword => 4

/-- The register `r` of this size. -/
def get (w : Width) (r : Fin 16) (regs : Fin 16 → Dword) : BitVec (8 * w.size) :=
  match w with
  | byte => cpuGetByteReg r regs
  | word => cpuGetWordReg r regs
  | dword => regs r

/-- A write to it. -/
def set (w : Width) (r : Fin 16) (v : BitVec (8 * w.size)) (regs : Fin 16 → Dword) :
    Fin 16 → Dword :=
  match w with
  | byte => cpuSetByteReg r v regs
  | word => cpuSetWordReg r v regs
  | dword => Function.update regs r v

end Width

/-- A write to a register of any size. -/
structure RegWrite where
  width : Width
  reg : Fin 16
  val : BitVec (8 * width.size)

namespace RegWrite

variable (x : RegWrite)

def perform (regs : Fin 16 → Dword) : Fin 16 → Dword := x.width.set x.reg x.val regs

/-- The position of its lowest byte among the bytes of the registers. -/
def start : Nat := x.width.size * x.reg.val

/-- Its bytes, and where they are written. -/
def cells : Nat × List Byte := (x.start, slice (byteAt x.val) 0 x.width.size)

/-- Whether the byte at position `j` is one of those written. -/
def Names (j : Nat) : Prop := x.start ≤ j ∧ j < x.start + x.width.size

end RegWrite

/-- The writes, one after the other. -/
def performAll : List RegWrite → (Fin 16 → Dword) → Fin 16 → Dword
  | [], regs => regs
  | x :: xs, regs => performAll xs (x.perform regs)

/-- What the last of the writes to the byte at position `j` put there, or what it was before. -/
def lastByte (regs : Fin 16 → Dword) (xs : List RegWrite) (j : Nat) : Byte :=
  (lastWriter (xs.map RegWrite.cells) j).getD (regBytes regs j)

section
variable {regs : Fin 16 → Dword} {r : Fin 16} {j : Nat}

/-- A register's bytes. -/
theorem Width.byteAt_get {w : Width} {k : Nat} (hk : k < w.size) :
    byteAt (w.get r regs) k = regBytes regs (w.size * r.val + k) := by
  cases w with
  | byte =>
    obtain rfl := Nat.lt_one_iff.1 hk
    rw [show Width.byte.size * r.val + 0 = r.val from Nat.one_mul _, ← byteReg_eq]
    exact byteAt_self (cpuGetByteReg r regs)
  | word => exact byteAt_wordReg hk
  | dword => exact byteAt_dwordReg hk

/-- A register is composed of its bytes. -/
theorem Width.get_eq (w : Width) : w.get r regs
    = littleEndian (8 * w.size) (slice (regBytes regs) (w.size * r.val) w.size) := by
  have hslice : slice (regBytes regs) (w.size * r.val) w.size
      = (List.range w.size).map (byteAt (w.get r regs)) :=
    List.map_congr_left fun k hk => (Width.byteAt_get (List.mem_range.1 hk)).symm
  rw [hslice, littleEndian_byteAt _ (Nat.le_refl _)]

/-- Registers with the same bytes are the same. -/
theorem Width.get_congr {w : Width} {regs' : Fin 16 → Dword}
    (h : ∀ k < w.size, regBytes regs (w.size * r.val + k) = regBytes regs' (w.size * r.val + k)) :
    w.get r regs = w.get r regs' := by
  rw [w.get_eq, w.get_eq, slice_congr h]

theorem Width.end_le (w : Width) (r : Fin 16) : w.size * r.val + w.size ≤ 64 := by
  have hr := r.isLt
  cases w with
  | byte => show 1 * r.val + 1 ≤ 64; omega
  | word => show 2 * r.val + 2 ≤ 64; omega
  | dword => show 4 * r.val + 4 ≤ 64; omega

/-! ## Writes -/

/-- A write lays its bytes over those of the registers. -/
theorem RegWrite.regBytes_perform (x : RegWrite) (hj : j < 64) :
    regBytes (x.perform regs) j
      = overlay (regBytes regs) x.start (slice (byteAt x.val) 0 x.width.size) j := by
  obtain ⟨w, r, v⟩ := x
  cases w with
  | byte =>
    have hcells (b : Byte) : overlay (regBytes regs) r.val [b] j
        = overlay (regBytes regs) (1 * r.val) (slice (byteAt b) 0 1) j := by
      rw [slice_byteAt_byte, Nat.one_mul]
    exact (regBytes_setByteReg hj).trans (hcells v)
  | word => exact regBytes_setWordReg hj
  | dword => exact regBytes_setReg hj

/-- What a write names gets its bytes, and the rest is as it was. -/
theorem RegWrite.regBytes_names (x : RegWrite) (hj : j < 64) :
    (x.Names j → regBytes (x.perform regs) j = byteAt x.val (j - x.start)) ∧
      (¬ x.Names j → regBytes (x.perform regs) j = regBytes regs j) := by
  have hlen : (slice (byteAt x.val) 0 x.width.size).length = x.width.size := slice_length ..
  rw [x.regBytes_perform hj]
  refine ⟨fun ⟨hge, hlt⟩ => ?_, fun hout => ?_⟩
  · obtain ⟨k, rfl⟩ := Nat.exists_eq_add_of_le hge
    rw [overlay_in (by omega), Nat.add_sub_cancel_left]
    simp [slice]
  · unfold RegWrite.Names at hout
    exact overlay_out (by omega)

/-- A write is read back. -/
theorem RegWrite.get_perform (x : RegWrite) : x.width.get x.reg (x.perform regs) = x.val := by
  have hend := x.width.end_le x.reg
  have hslice : slice (regBytes (x.perform regs)) (x.width.size * x.reg.val) x.width.size
      = (List.range x.width.size).map (byteAt x.val) := by
    refine List.map_congr_left fun k hk => ?_
    have hk := List.mem_range.1 hk
    have hnames : x.Names (x.width.size * x.reg.val + k) := by
      unfold RegWrite.Names RegWrite.start
      omega
    rw [(x.regBytes_names (by omega)).1 hnames, RegWrite.start, Nat.add_sub_cancel_left]
  rw [x.width.get_eq, hslice, littleEndian_byteAt _ (Nat.le_refl _)]

/-- A register of any size the write does not overlap is as it was. -/
theorem RegWrite.get_perform_apart (x : RegWrite) {w : Width}
    (h : ∀ k < w.size, ¬ x.Names (w.size * r.val + k)) :
    w.get r (x.perform regs) = w.get r regs := by
  have hend := w.end_le r
  exact Width.get_congr fun k hk => (x.regBytes_names (by omega)).2 (h k hk)

/-- The writes together. -/
theorem regBytes_performAll (xs : List RegWrite) (hj : j < 64) :
    regBytes (performAll xs regs) j = lastByte regs xs j := by
  induction xs generalizing regs with
  | nil => rfl
  | cons x xs ih =>
    rw [performAll, ih, lastByte, lastByte, x.regBytes_perform hj, List.map_cons, lastWriter]
    rw [show overlay (regBytes regs) x.start (slice (byteAt x.val) 0 x.width.size) j
      = (cell x.cells j).getD (regBytes regs j) from overlay_eq_cell _ x.cells j]
    cases lastWriter (xs.map RegWrite.cells) j with
    | none => rfl
    | some b => rfl

end

/-- **Registers of all sizes are views of one byte array**: after any writes each is composed of the
bytes last written at its positions; a further write puts its bytes in its own positions, is read
back, and leaves every other byte and every register of any size it does not overlap. -/
theorem sub_registers (regs : Fin 16 → Dword) (xs : List RegWrite) :
    (∀ (w : Width) (r : Fin 16), w.get r (performAll xs regs)
      = littleEndian (8 * w.size) (slice (lastByte regs xs) (w.size * r.val) w.size)) ∧
    ∀ x : RegWrite, x.width.get x.reg (x.perform (performAll xs regs)) = x.val ∧
      (∀ j < 64, (x.Names j →
          regBytes (x.perform (performAll xs regs)) j = byteAt x.val (j - x.start)) ∧
        (¬ x.Names j →
          regBytes (x.perform (performAll xs regs)) j = regBytes (performAll xs regs) j)) ∧
      ∀ (w : Width) (r : Fin 16), (∀ k < w.size, ¬ x.Names (w.size * r.val + k)) →
        w.get r (x.perform (performAll xs regs)) = w.get r (performAll xs regs) := by
  refine ⟨fun w r => ?_, fun x => ⟨x.get_perform, fun j hj => x.regBytes_names hj,
    fun w r hapart => x.get_perform_apart hapart⟩⟩
  have hend := w.end_le r
  rw [w.get_eq, slice_congr fun k hk => regBytes_performAll xs (by omega)]

/-! ## Instructions -/

/-- The prefix of the instructions on registers of this size. -/
def Width.pfx : Width → Byte
  | byte => pfxByte
  | word => pfxWord
  | dword => pfxDword

section
variable {ins : InstructionContext} {e : EmulatorContext}

/-- `MOV` writes what it reads of a register of the same size. -/
theorem insMov_perform {w : Width} (h : ins.pfx = w.pfx) : insMov ins e
    = { e with regs := RegWrite.perform ⟨w, ins.opa, w.get ins.opb e.regs⟩ e.regs } := by
  rw [insMov, h]
  cases w <;> rfl

/-- **`MOV`** copies a register of any size and changes none it does not overlap. -/
theorem insMov_copies {w : Width} (h : ins.pfx = w.pfx) :
    w.get ins.opa (insMov ins e).regs = w.get ins.opb e.regs ∧
      ∀ (w' : Width) (r : Fin 16), w'.size * r.val + w'.size ≤ w.size * ins.opa.val ∨
        w.size * ins.opa.val + w.size ≤ w'.size * r.val →
        w'.get r (insMov ins e).regs = w'.get r e.regs := by
  let x : RegWrite := ⟨w, ins.opa, w.get ins.opb e.regs⟩
  rw [insMov_perform h]
  refine ⟨x.get_perform, fun w' r hapart => x.get_perform_apart fun k hk ⟨hge, hlt⟩ => ?_⟩
  have hge : w.size * ins.opa.val ≤ w'.size * r.val + k := hge
  have hlt : w'.size * r.val + k < w.size * ins.opa.val + w.size := hlt
  omega

/-- `LOADI` writes the immediate, or the low byte of it. -/
theorem insLoadi_perform : insLoadi ins e
    = { e with regs := RegWrite.perform (if ins.pfx = pfxByte
        then ⟨.byte, ins.dst, ins.imm16.setWidth 8⟩ else ⟨.word, ins.dst, ins.imm16⟩) e.regs } := by
  rw [insLoadi, setWidth_and_mask _ _ (by decide)]
  split <;> rfl

end

end Cpu
