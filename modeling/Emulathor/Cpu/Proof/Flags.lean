import Emulathor.Cpu.Execute
import Emulathor.Lib.Bits

/-!
# The flags

A flag is a bit of `FLGS` (`EmulatorContext.flag`). Setting one gives it its value and leaves all
others alone.
-/

namespace Cpu

open Common Lib

namespace EmulatorContext

variable (e : EmulatorContext)

/-- Whether the flag with this mask is set. -/
def flag (f : Dword) : Bool := e.regs cpuRegFlgs &&& f ≠ 0

/-- Setting a flag gives it the value. -/
theorem flag_setFlag {f : Dword} (hf : f ≠ 0) (b : Bool) : (e.setFlag f b).flag f = b := by
  rw [flag, setFlag, setReg_same]
  cases b with
  | false => simp [BitVec.and_assoc]
  | true =>
    have habsorb : (e.regs cpuRegFlgs ||| f) &&& f = f := by
      apply BitVec.eq_of_getLsbD_eq
      intro i hi
      rw [BitVec.getLsbD_and, BitVec.getLsbD_or]
      cases f.getLsbD i with
      | false => exact Bool.and_false _
      | true => rw [Bool.or_true, Bool.and_self]
    simpa [habsorb] using hf

/-- Setting a flag leaves the bits of a mask without it alone. -/
theorem setFlag_and {f g : Dword} (h : f &&& g = 0) (b : Bool) :
    (e.setFlag f b).regs cpuRegFlgs &&& g = e.regs cpuRegFlgs &&& g := by
  rw [setFlag, setReg_same]
  cases b with
  | false => exact and_not_and_disjoint h
  | true => exact or_and_disjoint h

theorem flag_setFlag_other {f g : Dword} (h : f &&& g = 0) (b : Bool) :
    (e.setFlag f b).flag g = e.flag g := by
  rw [flag, setFlag_and e h, flag]

theorem flag_setReg {r : Fin 16} (h : r ≠ cpuRegFlgs) (v f : Dword) :
    (e.setReg r v).flag f = e.flag f := by
  rw [flag, setReg_other _ _ _ _ h.symm, flag]

end EmulatorContext

end Cpu
