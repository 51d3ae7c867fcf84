import Emulathor.Common.Types

/-!
# Registers, opcodes, prefixes, conditions

The constants of `common/rawdefs.h`. Opcodes and condition codes are enumerations with their codes
(`Opcode.code`, `Cond.code`); `ofByte` is the constant with a given code, if there is one.
-/

namespace Common

/-! ## Control registers -/

def cpuCregMr1 : Byte := 0x00#8
def cpuCregMr2 : Byte := 0x01#8
def cpuCregMr3 : Byte := 0x05#8
def cpuCregMr4 : Byte := 0x06#8
def cpuCregCr1 : Byte := 0x02#8
def cpuCregCr2 : Byte := 0x03#8
def cpuCregSsp : Byte := 0x04#8
def cpuCregSt1 : Byte := 0x07#8

def cr1PrivMode : Dword := 0x02#32

/-! ## Flags -/

def flgsZ : Dword := 0x01#32
def flgsC : Dword := 0x02#32
def flgsO : Dword := 0x04#32
def flgsP : Dword := 0x08#32
def flgsS : Dword := 0x10#32
def flgsE : Dword := 0x20#32

/-! ## Registers with a role of their own -/

def cpuRegR7 : Byte := 0x07#8

def cpuRegRc : Fin 16 := 0x0C
def cpuRegSp : Fin 16 := 0x0E
def cpuRegFlgs : Fin 16 := 0x0F

/-! ## Opcodes -/

inductive Opcode
  | stop | fail | iret | loadi | storema | loadma | int | jmp | call | storeas | loadas | smul
  | sdiv | not | sex | mod | test | cmp | in_ | mov | cmpxchg | movtc | movfc | sar | xchg | and
  | or | xor | shl | shr | loadid | loadrd | storeid | storerd | add | sub | mul | div | out | xchgc
  deriving DecidableEq, Repr

namespace Opcode

def code : Opcode → Byte
  | stop => 0x00#8
  | fail => 0x01#8
  | iret => 0x04#8
  | loadi => 0x06#8
  | storema => 0x08#8
  | loadma => 0x09#8
  | int => 0x0A#8
  | jmp => 0x0B#8
  | call => 0x0C#8
  | storeas => 0x0D#8
  | loadas => 0x0E#8
  | smul => 0x10#8
  | sdiv => 0x11#8
  | not => 0x12#8
  | sex => 0x14#8
  | mod => 0x15#8
  | test => 0x16#8
  | cmp => 0x18#8
  | in_ => 0x19#8
  | mov => 0x1A#8
  | cmpxchg => 0x1B#8
  | movtc => 0x1D#8
  | movfc => 0x1E#8
  | sar => 0x1F#8
  | xchg => 0x20#8
  | and => 0x21#8
  | or => 0x22#8
  | xor => 0x23#8
  | shl => 0x24#8
  | shr => 0x25#8
  | loadid => 0x26#8
  | loadrd => 0x27#8
  | storeid => 0x28#8
  | storerd => 0x29#8
  | add => 0x2A#8
  | sub => 0x2B#8
  | mul => 0x2C#8
  | div => 0x2D#8
  | out => 0x2E#8
  | xchgc => 0x2F#8

def all : List Opcode :=
  [stop, fail, iret, loadi, storema, loadma, int, jmp, call, storeas, loadas, smul, sdiv, not, sex,
    mod, test, cmp, in_, mov, cmpxchg, movtc, movfc, sar, xchg, and, or, xor, shl, shr, loadid,
    loadrd, storeid, storerd, add, sub, mul, div, out, xchgc]

def ofByte (b : Byte) : Option Opcode := all.find? fun o => o.code == b

@[simp] theorem ofByte_code (o : Opcode) : ofByte o.code = some o := by cases o <;> rfl

theorem code_of_ofByte {b : Byte} {o : Opcode} (h : ofByte b = some o) : o.code = b := by
  simpa using List.find?_some h

theorem code_lt (o : Opcode) : o.code.toNat < 64 := by cases o <;> decide

end Opcode

/-! ## Prefixes -/

def pfxDword : Byte := 0x00#8
def pfxWord : Byte := 0x01#8
def pfxByte : Byte := 0x02#8
def pfxImm : Byte := 0x03#8

/-! ## Conditions -/

inductive Cond
  | always | iz | nz | is | ns | io | no | ip | np | izis | izic | nzns | nznc | ic | nc | nf
  deriving DecidableEq, Repr

namespace Cond

def code : Cond → Byte
  | always => 0x00#8
  | iz => 0x01#8
  | nz => 0x02#8
  | is => 0x03#8
  | ns => 0x04#8
  | io => 0x05#8
  | no => 0x06#8
  | ip => 0x07#8
  | np => 0x08#8
  | izis => 0x09#8
  | izic => 0x0A#8
  | nzns => 0x0B#8
  | nznc => 0x0C#8
  | ic => 0x0D#8
  | nc => 0x0E#8
  | nf => 0x0F#8

def all : List Cond :=
  [always, iz, nz, is, ns, io, no, ip, np, izis, izic, nzns, nznc, ic, nc, nf]

def ofByte (b : Byte) : Option Cond := all.find? fun c => c.code == b

@[simp] theorem ofByte_code (c : Cond) : ofByte c.code = some c := by cases c <;> rfl

theorem code_lt (c : Cond) : c.code.toNat < 16 := by cases c <;> decide

end Cond

end Common
