import Emulathor.Cpu.Decode
import Emulathor.Cpu.Pio

/-!
# The instructions

The `ins_*` functions of `cpu/cpu.c` and the helpers they call, in the source's order. An
instruction that touches neither memory nor a port is a function of the state; the others may
fault. The inline assembly of `ins_add`, `ins_sub` and `ins_smul` is x86's `addl`, `subl` and
`imull` with the carry and overflow flags they set.
-/

namespace Cpu

open Common

/-! ## Byte and word registers

The source shifts `int`s, two's complement on the host. -/

/-- The dword register a byte register is in. -/
def byteRegOf (reg : Fin 16) : Fin 16 := ⟨reg.val / 4, by omega⟩

/-- The dword register a word register is in. -/
def wordRegOf (reg : Fin 16) : Fin 16 := ⟨reg.val / 2, by omega⟩

def cpuGetByteReg (reg : Fin 16) (regs : Fin 16 → Dword) : Byte :=
  let i := regs (byteRegOf reg)
  let i := (i >>> (reg.val % 4 * 8)) &&& 0xFF#32
  i.setWidth 8

def cpuSetByteReg (reg : Fin 16) (val : Byte) (regs : Fin 16 → Dword) : Fin 16 → Dword :=
  let i := regs (byteRegOf reg)
  let i := i &&& ~~~(0xFF#32 <<< (reg.val % 4 * 8))
  let i := i ||| (val.setWidth 32 <<< (reg.val % 4 * 8))
  Function.update regs (byteRegOf reg) i

def cpuGetWordReg (reg : Fin 16) (regs : Fin 16 → Dword) : Word :=
  let i := regs (wordRegOf reg)
  let i := (i >>> (reg.val % 2 * 16)) &&& 0xFFFF#32
  i.setWidth 16

def cpuSetWordReg (reg : Fin 16) (val : Word) (regs : Fin 16 → Dword) : Fin 16 → Dword :=
  let i := regs (wordRegOf reg)
  let i := i &&& ~~~(0xFFFF#32 <<< (reg.val % 2 * 16))
  let i := i ||| (val.setWidth 32 <<< (reg.val % 2 * 16))
  Function.update regs (wordRegOf reg) i

/-! ## The stack helpers -/

/-- The stack register and the state after the push, `none` on failure. -/
def cpuPushDword (reg val : Dword) (ectx : EmulatorContext) :
    Except Fault (Option (Dword × EmulatorContext)) := do
  match ← memWriteDwordP val reg ectx with
  | none => return none
  | some ectx => return some (reg - 4, ectx)

/-- The stack register after the pop and the value popped, `none` on failure. -/
def cpuPopDword (reg : Dword) (ectx : EmulatorContext) : Except Fault (Option (Dword × Dword)) := do
  match ← memGetDwordP (reg + 4) ectx with
  | none => return none
  | some val => return some (reg + 4, val)

/-! ## Instructions -/

section
variable (ins : InstructionContext) (ectx : EmulatorContext)

/-- The second operand of the arithmetic instructions. -/
def operandB : Dword :=
  if ins.pfx = pfxImm then ins.imm12.setWidth 32 else ectx.regs ins.opb

def insAdd : EmulatorContext :=
  let a := ectx.regs ins.opa
  let b := operandB ins ectx
  -- addl, seto, setc
  let o := BitVec.saddOverflow a b
  let c := BitVec.uaddOverflow a b
  ((ectx.setReg ins.dst (a + b)).setFlag flgsO o).setFlag flgsC c

def insAnd : EmulatorContext :=
  ectx.setReg ins.dst (ectx.regs ins.opa &&& operandB ins ectx)

def insCall : EmulatorContext :=
  let ectx := ectx.setReg cpuRegRc ectx.pos
  if ins.pfx = pfxImm then { ectx with pos := ectx.pos + ins.imm16.signExtend 32 }
  else { ectx with pos := ectx.regs ins.dst }

def insCmp : EmulatorContext :=
  let a := ectx.regs ins.opa
  let b := operandB ins ectx
  ((ectx.setFlag flgsZ (a = b)).setFlag flgsC (a < b)).setFlag flgsS (a.toInt < b.toInt)

def insCmpxchg : Except Fault EmulatorContext := do
  let dest := ectx.regs ins.dst
  if ins.pfx = pfxDword then
    match ← memGetDwordP dest ectx with
    | none => return ectx
    | some memValue =>
      let a := ectx.regs ins.opa
      let b := ectx.regs ins.opb
      if memValue = a then
        match ← memWriteDwordP b dest ectx with
        | none => return ectx
        | some ectx => return ectx.setFlag flgsZ true
      else
        return (ectx.setReg ins.opa memValue).setFlag flgsZ false
  else
    return ectx

def insDiv : EmulatorContext :=
  let b := operandB ins ectx
  if b = 0 then ectx
  else ectx.setReg ins.dst (ectx.regs ins.opa / b)

def insIn : Except Fault EmulatorContext := do
  -- the mask `0x7F` is on the register number
  let reg : Fin 16 := ⟨ins.opb.val &&& 0x7F, Nat.lt_of_le_of_lt Nat.and_le_left ins.opb.isLt⟩
  let (data, ectx) ← pioRead ((ectx.regs reg).setWidth 8) ectx
  return ectx.setReg ins.opa data

def insJmp : EmulatorContext :=
  if ins.pfx = pfxImm then { ectx with pos := ectx.pos + ins.imm16.signExtend 32 }
  else { ectx with pos := ectx.regs ins.dst }

def insLoadi : EmulatorContext :=
  if ins.pfx = pfxByte then
    { ectx with regs := cpuSetByteReg ins.dst ((ins.imm16 &&& 0x00FF#16).setWidth 8) ectx.regs }
  else
    { ectx with regs := cpuSetWordReg ins.dst ins.imm16 ectx.regs }

/-- The load of `LOADID` and `LOADRD`, at an address in range. -/
def loadAt (addr : Dword) : Except Fault EmulatorContext := do
  if ins.pfx = pfxDword then
    match ← memGetDwordP addr ectx with
    | none => return ectx
    | some data => return ectx.setReg ins.dst data
  else if ins.pfx = pfxWord then
    match ← memGetWordP addr ectx with
    | none => return ectx
    | some data => return { ectx with regs := cpuSetWordReg ins.dst data ectx.regs }
  else if ins.pfx = pfxByte then
    match ← memGetByteP addr ectx with
    | none => return ectx
    | some data => return { ectx with regs := cpuSetByteReg ins.dst data ectx.regs }
  else
    return ectx

/-- The store of `STOREID` and `STORERD`, at an address in range. -/
def storeAt (addr : Dword) : Except Fault EmulatorContext := do
  if ins.pfx = pfxDword then
    match ← memWriteDwordP (ectx.regs ins.opa) addr ectx with
    | none => return ectx
    | some ectx => return ectx
  else if ins.pfx = pfxByte then
    match ← memWriteByteP (cpuGetByteReg ins.opa ectx.regs) addr ectx with
    | none => return ectx
    | some ectx => return ectx
  else if ins.pfx = pfxWord then
    match ← memWriteWordP (cpuGetWordReg ins.opa ectx.regs) addr ectx with
    | none => return ectx
    | some ectx => return ectx
  else
    return ectx

def insLoadid : Except Fault EmulatorContext :=
  if (ectx.regs ins.opa).toNat + ins.imm12.toNat > dwordMax then .ok ectx
  else loadAt ins ectx (ectx.regs ins.opa + ins.imm12.setWidth 32)

end

/-- `LOADMA`'s loop: whether every pop succeeded, `temp` and the state at its end. The counter
`regp` is a byte that stops at `regstart`, so it never passes zero. -/
def loadmaLoop (regstart : Fin 16) (regp : Byte) (hp : regp.toNat < 16) (temp : Dword)
    (ectx : EmulatorContext) : Except Fault (Bool × Dword × EmulatorContext) :=
  if hs : regstart.val ≤ regp.toNat then do
    match ← cpuPopDword temp ectx with
    | none => return (false, temp, ectx)
    | some (temp, val) =>
      let ectx := ectx.setReg ⟨regp.toNat, hp⟩ val
      if hb : regp.toNat = regstart.val then
        return (true, temp, ectx)
      else
        loadmaLoop regstart (regp - 1#8)
          (by rw [BitVec.toNat_sub]; simp only [BitVec.toNat_ofNat]; omega) temp ectx
  else return (true, temp, ectx)
termination_by regp.toNat
decreasing_by
  rw [BitVec.toNat_sub]
  simp only [BitVec.toNat_ofNat]
  omega

/-- `STOREMA`'s loop: whether every push succeeded, `temp` and the state at its end. -/
def storemaLoop (regend : Fin 16) (regp : Byte) (temp : Dword) (ectx : EmulatorContext) :
    Except Fault (Bool × Dword × EmulatorContext) :=
  if he : regp.toNat ≤ regend.val then do
    match ← cpuPushDword temp (ectx.regs ⟨regp.toNat, by omega⟩) ectx with
    | none => return (false, temp, ectx)
    | some (temp, ectx) => storemaLoop regend (regp + 1#8) temp ectx
  else return (true, temp, ectx)
termination_by 16 - regp.toNat
decreasing_by
  rw [BitVec.toNat_add]
  simp only [BitVec.toNat_ofNat]
  omega

/-- `TEST`'s loop: the number of set bits among the low `n`. -/
def countBits : Nat → Dword → Nat
  | 0, _ => 0
  | n + 1, val => (if val &&& 1#32 ≠ 0 then 1 else 0) + countBits n (val >>> 1)

section
variable (ins : InstructionContext) (ectx : EmulatorContext)

/-- The register range of `LOADMA` and `STOREMA`: the nibbles of the immediate's low byte. -/
def regstartOf : Fin 16 := hiNibble ((ins.imm16 &&& 0x00FF#16).setWidth 8)
def regendOf : Fin 16 := loNibble ((ins.imm16 &&& 0x00FF#16).setWidth 8)

def insLoadma : Except Fault EmulatorContext := do
  let sp := ectx.regs ins.dst
  let regend := regendOf ins
  let (success, temp, ectx) ←
    loadmaLoop (regstartOf ins) (BitVec.ofNat 8 regend.val)
      (by rw [BitVec.toNat_ofNat]; omega) sp ectx
  if success then return ectx.setReg ins.dst temp
  else return ectx.setReg ins.dst sp -- restore

def insLoadrd : Except Fault EmulatorContext :=
  let opa : Int := (ectx.regs ins.opa).toNat
  let ofs := (ectx.regs ins.opb).toInt
  if opa + ofs > dwordMax ∨ opa + ofs < 0 then .ok ectx
  else loadAt ins ectx (ectx.regs ins.opa + ectx.regs ins.opb)

def insMod : EmulatorContext :=
  let modulo := ectx.regs ins.opb
  let value := ectx.regs ins.opa
  if modulo = 0 then ectx
  else ectx.setReg ins.dst (value % modulo)

def insMov : EmulatorContext :=
  if ins.pfx = pfxImm then ectx.setReg ins.opa (ins.imm12.setWidth 32)
  else if ins.pfx = pfxDword then ectx.setReg ins.opa (ectx.regs ins.opb)
  else if ins.pfx = pfxWord then
    { ectx with regs := cpuSetWordReg ins.opa (cpuGetWordReg ins.opb ectx.regs) ectx.regs }
  else if ins.pfx = pfxByte then
    { ectx with regs := cpuSetByteReg ins.opa (cpuGetByteReg ins.opb ectx.regs) ectx.regs }
  else ectx

def insMovfc : EmulatorContext := ectx.setReg ins.opa (ectx.cregs ins.opb)

def insMovtc : EmulatorContext := ectx.setCreg ins.opa (ectx.regs ins.opb)

def insMul : EmulatorContext :=
  let b := operandB ins ectx
  let res : Qword := (ectx.regs ins.opa).setWidth 64 * b.setWidth 64
  (ectx.setFlag flgsC (res.toNat > dwordMax)).setReg ins.dst (res.setWidth 32)

def insNot : EmulatorContext := ectx.setReg ins.opa (~~~(ectx.regs ins.opb))

def insOr : EmulatorContext :=
  ectx.setReg ins.dst (ectx.regs ins.opa ||| operandB ins ectx)

def insOut : Except Fault EmulatorContext :=
  pioWrite ((ectx.regs ins.opa &&& 0x7F#32).setWidth 8) (ectx.regs ins.opb) ectx

def insSar : EmulatorContext :=
  let a := ectx.regs ins.opa
  let b := operandB ins ectx % 32
  (ectx.setFlag flgsC (a &&& 1#32 ≠ 0)).setReg ins.dst (a.sshiftRight b.toNat)

def insSex : EmulatorContext :=
  let value := ectx.regs ins.opa
  let unmaskedValue := ectx.regs ins.opb
  let value :=
    if ins.pfx = pfxByte then
      let maskedValue := unmaskedValue &&& 0x000000FF#32
      if maskedValue &&& 0x00000080#32 ≠ 0 then 0xFFFFFF00#32 ||| maskedValue else maskedValue
    else if ins.pfx = pfxWord then
      let maskedValue := unmaskedValue &&& 0x0000FFFF#32
      if maskedValue &&& 0x00008000#32 ≠ 0 then 0xFFFF0000#32 ||| maskedValue else maskedValue
    else value
  ectx.setReg ins.opa value

def insSdiv : EmulatorContext :=
  let a := ectx.regs ins.opa
  let b := operandB ins ectx
  if b = 0 then ectx
  else
    let r := a.toInt.tdiv b.toInt
    if r > 2147483647 ∨ r < -2147483648 then -- overflow
      (ectx.setFlag flgsO true).setReg ins.dst 0
    else
      (ectx.setFlag flgsO false).setReg ins.dst (BitVec.ofInt 32 r)

def insShl : EmulatorContext :=
  let a := ectx.regs ins.opa
  let b := operandB ins ectx % 32
  (ectx.setFlag flgsC (a &&& 0x80000000#32 ≠ 0)).setReg ins.dst (a <<< b.toNat)

def insShr : EmulatorContext :=
  let a := ectx.regs ins.opa
  let b := operandB ins ectx % 32
  (ectx.setFlag flgsC (a &&& 1#32 ≠ 0)).setReg ins.dst (a >>> b.toNat)

def insSmul : EmulatorContext :=
  let a := ectx.regs ins.opa
  let b := operandB ins ectx
  -- imull, seto
  let o := BitVec.smulOverflow a b
  (ectx.setReg ins.dst (a * b)).setFlag flgsO o

def insSub : EmulatorContext :=
  let a := ectx.regs ins.opa
  let b := operandB ins ectx
  -- subl, seto, setc
  let o := BitVec.ssubOverflow a b
  let c := BitVec.usubOverflow a b
  ((ectx.setReg ins.dst (a - b)).setFlag flgsO o).setFlag flgsC c

def insStoreid : Except Fault EmulatorContext :=
  if (ectx.regs ins.dst).toNat + ins.imm12.toNat > dwordMax then .ok ectx
  else storeAt ins ectx (ectx.regs ins.dst + ins.imm12.setWidth 32)

def insStorema : Except Fault EmulatorContext := do
  let sp := ectx.regs ins.dst
  let (success, temp, ectx) ←
    storemaLoop (regendOf ins) (BitVec.ofNat 8 (regstartOf ins).val) sp ectx
  if success then return ectx.setReg ins.dst temp
  else return ectx.setReg ins.dst sp

def insStorerd : Except Fault EmulatorContext :=
  let dst : Int := (ectx.regs ins.dst).toNat
  let ofs := (ectx.regs ins.opb).toInt
  if dst + ofs > dwordMax ∨ dst + ofs < 0 then .ok ectx
  else storeAt ins ectx (ectx.regs ins.dst + ectx.regs ins.opb)

def insTest : EmulatorContext :=
  let val := if ins.pfx = pfxImm then ins.imm16.setWidth 32 else ectx.regs ins.dst
  let ectx := ectx.setFlag flgsZ (val = 0)
  let ectx := ectx.setFlag flgsS (val &&& 0x80000000#32 ≠ 0)
  let ectx := ectx.setFlag flgsE (val &&& 0x00000001#32 = 0)
  ectx.setFlag flgsP (countBits 32 val % 2 = 1)

def insXchg : EmulatorContext :=
  let temp := ectx.regs ins.opa
  (ectx.setReg ins.opa (ectx.regs ins.opb)).setReg ins.opb temp

def insXchgc : EmulatorContext :=
  let temp := ectx.regs ins.opa
  (ectx.setReg ins.opa (ectx.cregs ins.opb)).setCreg ins.opb temp

def insXor : EmulatorContext :=
  ectx.setReg ins.dst (ectx.regs ins.opa ^^^ operandB ins ectx)

end

end Cpu
