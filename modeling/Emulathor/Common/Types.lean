import Emulathor.Lib.Bits

/-!
# Machine integers and the byte/word macros

The fixed-width types of `common/types.h` and the macros of `common/macros.h` that take dwords and
words apart and put them together. A macro's result is truncated to the byte or word it is
assigned to.
-/

namespace Common

open Lib

abbrev Byte := BitVec 8
abbrev Word := BitVec 16
abbrev Dword := BitVec 32
abbrev Qword := BitVec 64

def dwordMax : Nat := 0xFFFFFFFF

/-- There are 16 registers. -/
instance registers_neZero : NeZero 16 := ⟨by decide⟩

def hhbyteFromDword (x : Dword) : Byte := (x >>> 24).setWidth 8
def hlbyteFromDword (x : Dword) : Byte := ((x >>> 16) &&& 0xFF#32).setWidth 8
def lhbyteFromDword (x : Dword) : Byte := ((x >>> 8) &&& 0xFF#32).setWidth 8
def llbyteFromDword (x : Dword) : Byte := (x &&& 0xFF#32).setWidth 8

def lwordFromDword (x : Dword) : Word := (x &&& 0xFFFF#32).setWidth 16
def hwordFromDword (x : Dword) : Word := ((x >>> 16) &&& 0xFFFF#32).setWidth 16

def hbyteFromWord (x : Word) : Byte := ((x >>> 8) &&& 0xFF#16).setWidth 8
def lbyteFromWord (x : Word) : Byte := (x &&& 0xFF#16).setWidth 8

def wordFromBytes (hi lo : Byte) : Word := (hi.setWidth 16 <<< 8) ||| lo.setWidth 16

def dwordFromBytes (uh ul lh ll : Byte) : Dword :=
  (uh.setWidth 32 <<< 24) ||| (ul.setWidth 32 <<< 16) ||| (lh.setWidth 32 <<< 8) ||| ll.setWidth 32

/-! ## The macros undo each other -/

section
variable (uh ul lh ll : Byte)

@[simp] theorem hhbyte_dwordFromBytes : hhbyteFromDword (dwordFromBytes uh ul lh ll) = uh :=
  join4_uh uh ul lh ll

@[simp] theorem hlbyte_dwordFromBytes : hlbyteFromDword (dwordFromBytes uh ul lh ll) = ul := by
  rw [hlbyteFromDword, setWidth_and_mask _ _ (by decide)]
  exact join4_ul uh ul lh ll

@[simp] theorem lhbyte_dwordFromBytes : lhbyteFromDword (dwordFromBytes uh ul lh ll) = lh := by
  rw [lhbyteFromDword, setWidth_and_mask _ _ (by decide)]
  exact join4_lh uh ul lh ll

@[simp] theorem llbyte_dwordFromBytes : llbyteFromDword (dwordFromBytes uh ul lh ll) = ll := by
  rw [llbyteFromDword, setWidth_and_mask _ _ (by decide)]
  exact join4_ll uh ul lh ll

end

@[simp] theorem dwordFromBytes_bytes (x : Dword) :
    dwordFromBytes (hhbyteFromDword x) (hlbyteFromDword x) (lhbyteFromDword x) (llbyteFromDword x)
      = x := by
  simp only [hlbyteFromDword, lhbyteFromDword, llbyteFromDword]
  rw [setWidth_and_mask _ _ (by decide), setWidth_and_mask _ _ (by decide),
    setWidth_and_mask _ _ (by decide)]
  exact join4_split x

@[simp] theorem wordFromBytes_bytes (x : Word) :
    wordFromBytes (hbyteFromWord x) (lbyteFromWord x) = x := by
  simp only [hbyteFromWord, lbyteFromWord]
  rw [setWidth_and_mask _ _ (by decide), setWidth_and_mask _ _ (by decide)]
  exact join2_split x

end Common
