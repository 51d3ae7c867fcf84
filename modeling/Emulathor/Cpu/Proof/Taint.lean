import Emulathor.Lib.Taint
import Emulathor.Lib.Bits
import Emulathor.Cpu.Proof.Ports
import Emulathor.Cpu.Proof.Memory

/-!
# Tainted state

Which places of the machine's state a value lies in (`Loc`), down to the bits of a register, what an
instruction decides by (`decides`) and what it makes of the taint (`taintIns`). States `Agree` that
are the same outside the taint; this module says what the accesses of the instructions make of that.
-/

namespace Cpu

open Common Lib

/-- A place of the state. -/
inductive Loc
  | mem (i : Dword)
  | reg (r : Fin 16) (b : Fin 32)
  | creg (r : Fin 16)
  | latch
  deriving DecidableEq

/-- The states hold the same there. -/
def Loc.Same (e e' : EmulatorContext) : Loc → Prop
  | mem i => e.memory i = e'.memory i
  | reg r b => (e.regs r).getLsbD b = (e'.regs r).getLsbD b
  | creg r => e.cregs r = e'.cregs r
  | latch => e.latch = e'.latch

/-- The states are the same outside the taint. -/
structure Agree (D : Taint Loc) (e e' : EmulatorContext) : Prop where
  same : ∀ l, D l = false → l.Same e e'
  memorySize : e.memorySize = e'.memorySize
  pos : e.pos = e'.pos
  instructionCount : e.instructionCount = e'.instructionCount
  ports : e.ports = e'.ports

/-! ## Places -/

/-- The bits of a register under a mask. -/
def regBits (r : Fin 16) (m : Dword) : List Loc :=
  ((List.finRange 32).filter fun b : Fin 32 => m.getLsbD b).map (Loc.reg r)

def wholeReg (r : Fin 16) : List Loc := regBits r 0xFFFFFFFF#32

def flagBits (f : Dword) : List Loc := regBits cpuRegFlgs f

def memBytes (a : Dword) (n : Nat) : List Loc :=
  (List.range n).map fun k => Loc.mem (a + BitVec.ofNat 32 k)

def wordBits (r : Fin 16) : List Loc := regBits (wordRegOf r) (0xFFFF#32 <<< (r.val % 2 * 16))

def byteBits (r : Fin 16) : List Loc := regBits (byteRegOf r) (0xFF#32 <<< (r.val % 4 * 8))

/-- The register the prefix makes of a register number. -/
def prefixedBits (pfx : Byte) (r : Fin 16) : List Loc :=
  if pfx = pfxDword then wholeReg r
  else if pfx = pfxWord then wordBits r
  else if pfx = pfxByte then byteBits r
  else []

theorem mem_regBits {r s : Fin 16} {m : Dword} {b : Fin 32} :
    Loc.reg s b ∈ regBits r m ↔ s = r ∧ m.getLsbD b = true := by
  simp only [regBits, List.mem_map, List.mem_filter, List.mem_finRange, true_and, Loc.reg.injEq]
  constructor
  · rintro ⟨b', hb, rfl, rfl⟩
    exact ⟨rfl, hb⟩
  · rintro ⟨rfl, hb⟩
    exact ⟨b, hb, rfl, rfl⟩

/-- Only bits of the register. -/
theorem reg_of_mem {r : Fin 16} {m : Dword} {l : Loc} (h : l ∈ regBits r m) : ∃ b, l = .reg r b := by
  obtain ⟨b, -, rfl⟩ := List.mem_map.1 h
  exact ⟨b, rfl⟩

theorem mem_memBytes {a : Dword} {n k : Nat} (h : k < n) :
    Loc.mem (a + BitVec.ofNat 32 k) ∈ memBytes a n :=
  List.mem_map.2 ⟨k, List.mem_range.2 h, rfl⟩

/-! ## What agreeing states read -/

section
variable {D : Taint Loc} {e e' : EmulatorContext} (h : Agree D e e')
include h

/-- The bits under a mask. -/
theorem Agree.and_mask {r : Fin 16} {m : Dword} (hc : D.clean (regBits r m) = true) :
    e.regs r &&& m = e'.regs r &&& m := by
  refine BitVec.eq_of_getLsbD_eq fun i hi => ?_
  rw [BitVec.getLsbD_and, BitVec.getLsbD_and]
  cases hm : m.getLsbD i with
  | false => rw [Bool.and_false, Bool.and_false]
  | true =>
    have hs : (Loc.reg r ⟨i, hi⟩).Same e e' :=
      h.same _ (Taint.clean_iff.1 hc _ (mem_regBits.2 ⟨rfl, hm⟩))
    rw [Bool.and_true, Bool.and_true]
    exact hs

theorem Agree.reg {r : Fin 16} (hc : D.clean (wholeReg r) = true) : e.regs r = e'.regs r := by
  have hmask (x : Dword) : x &&& 0xFFFFFFFF#32 = x := BitVec.and_allOnes
  have := h.and_mask hc
  rwa [hmask, hmask] at this

theorem Agree.creg {r : Fin 16} (hc : D.clean [Loc.creg r] = true) : e.cregs r = e'.cregs r :=
  h.same (.creg r) (Taint.clean_iff.1 hc _ (List.mem_singleton.2 rfl))

theorem Agree.latch (hc : D.clean [Loc.latch] = true) : e.latch = e'.latch :=
  h.same .latch (Taint.clean_iff.1 hc _ (List.mem_singleton.2 rfl))

theorem Agree.memory {a : Dword} {n k : Nat} (hc : D.clean (memBytes a n) = true) (hk : k < n) :
    e.memory (a + BitVec.ofNat 32 k) = e'.memory (a + BitVec.ofNat 32 k) :=
  h.same (.mem _) (Taint.clean_iff.1 hc _ (mem_memBytes hk))

theorem Agree.wordReg {r : Fin 16} (hc : D.clean (wordBits r) = true) :
    cpuGetWordReg r e.regs = cpuGetWordReg r e'.regs := by
  have hm := h.and_mask hc
  simp only [cpuGetWordReg, ushiftRight_and, hm]

theorem Agree.byteReg {r : Fin 16} (hc : D.clean (byteBits r) = true) :
    cpuGetByteReg r e.regs = cpuGetByteReg r e'.regs := by
  have hm := h.and_mask hc
  simp only [cpuGetByteReg, ushiftRight_and, hm]

/-- What both read, the same if it is clean. -/
def Read {β : Type} (clean : Bool) (o o' : Option β) : Prop :=
  ∃ v v', o = some v ∧ o' = some v' ∧ (clean = true → v = v')

theorem Agree.readAt (i : Dword) :
    Alike Eq (fun b b' => D (.mem i) = false → b = b') (e.readAt i) (e'.readAt i) := by
  unfold EmulatorContext.readAt
  rw [h.memorySize]
  by_cases hi : i < e'.memorySize
  · rw [if_pos hi, if_pos hi]
    exact h.same (.mem i)
  · rw [if_neg hi, if_neg hi]
    rfl

theorem Agree.memGetByteP (a : Dword) :
    Alike Eq (Read (D.clean (memBytes a 1))) (memGetByteP a e) (memGetByteP a e') := by
  refine (h.readAt a).bind fun b b' hb => ⟨b, b', rfl, rfl, fun hc => hb ?_⟩
  rw [← BitVec.add_zero a]
  exact Taint.clean_iff.1 hc _ (mem_memBytes (by decide))

theorem Agree.memGetWordP (a : Dword) :
    Alike Eq (Read (D.clean (memBytes a 2))) (memGetWordP a e) (memGetWordP a e') := by
  refine (h.readAt _).bind fun b b' hb => (h.readAt _).bind fun c c' hc => ⟨_, _, rfl, rfl, ?_⟩
  intro hclean
  have hin {k : Nat} (hk : k < 2) := Taint.clean_iff.1 hclean _ (@mem_memBytes a 2 k hk)
  rw [hb (hin (k := 0) (by decide)), hc (hin (k := 1) (by decide))]

theorem Agree.memGetDwordP (a : Dword) :
    Alike Eq (Read (D.clean (memBytes a 4))) (memGetDwordP a e) (memGetDwordP a e') := by
  refine (h.readAt _).bind fun b0 b0' h0 => (h.readAt _).bind fun b1 b1' h1 =>
    (h.readAt _).bind fun b2 b2' h2 => (h.readAt _).bind fun b3 b3' h3 => ⟨_, _, rfl, rfl, ?_⟩
  intro hclean
  have hin {k : Nat} (hk : k < 4) := Taint.clean_iff.1 hclean _ (@mem_memBytes a 4 k hk)
  rw [h0 (hin (k := 0) (by decide)), h1 (hin (k := 1) (by decide)),
    h2 (hin (k := 2) (by decide)), h3 (hin (k := 3) (by decide))]

/-! ## What they agree on after a write -/

section
variable {t : Bool}

/-- Places written, with the same unless the taint says otherwise, and places left alone. -/
theorem Agree.put {f f' : EmulatorContext} {ls : List Loc}
    (hin : t = false → ∀ l ∈ ls, l.Same f f') (hout : ∀ l ∉ ls, l.Same e e' → l.Same f f') :
    ∀ l, D.put t ls l = false → l.Same f f' := by
  intro l hl
  rcases Taint.of_put hl with ⟨hmem, ht⟩ | ⟨hmem, hd⟩
  · exact hin ht l hmem
  · exact hout l hmem (h.same l hd)

/-- The bits of a register under the mask are written. -/
theorem Agree.putBits {r : Fin 16} {m v v' : Dword} (hin : t = false → v &&& m = v' &&& m)
    (hv : v &&& ~~~m = e.regs r &&& ~~~m) (hv' : v' &&& ~~~m = e'.regs r &&& ~~~m) :
    Agree (D.put t (regBits r m)) (e.setReg r v) (e'.setReg r v') := by
  refine { h with same := h.put (fun ht l hl => ?_) fun l hl hs => ?_ }
  · obtain ⟨b, rfl⟩ := reg_of_mem hl
    have hm := (mem_regBits.1 hl).2
    have hbit := congrArg (·.getLsbD b) (hin ht)
    simp only [BitVec.getLsbD_and, hm, Bool.and_true] at hbit
    simpa [Loc.Same] using hbit
  · cases l with
    | reg s b =>
      by_cases hsr : s = r
      · subst hsr
        have hm : m.getLsbD b = false := by
          simpa [mem_regBits] using hl
        have hbit (x y : Dword) (hxy : x &&& ~~~m = y &&& ~~~m) : x.getLsbD b = y.getLsbD b := by
          have := congrArg (·.getLsbD b) hxy
          simpa only [BitVec.getLsbD_and, BitVec.getLsbD_not, b.isLt, hm, decide_true,
            Bool.not_false, Bool.and_true] using this
        show ((e.setReg s v).regs s).getLsbD b = ((e'.setReg s v').regs s).getLsbD b
        rw [EmulatorContext.setReg_same, EmulatorContext.setReg_same, hbit _ _ hv, hbit _ _ hv']
        exact hs
      · show ((e.setReg r v).regs s).getLsbD b = ((e'.setReg r v').regs s).getLsbD b
        rw [EmulatorContext.setReg_other _ _ _ _ hsr, EmulatorContext.setReg_other _ _ _ _ hsr]
        exact hs
    | _ => exact hs

theorem Agree.setReg {r : Fin 16} {v v' : Dword} (hv : t = false → v = v') :
    Agree (D.put t (wholeReg r)) (e.setReg r v) (e'.setReg r v') := by
  have hnone (x y : Dword) : x &&& ~~~0xFFFFFFFF#32 = y &&& ~~~0xFFFFFFFF#32 := by
    rw [show ~~~0xFFFFFFFF#32 = 0#32 from rfl, BitVec.and_zero, BitVec.and_zero]
  exact h.putBits (fun ht => by rw [hv ht]) (hnone ..) (hnone ..)

theorem Agree.setFlag {f : Dword} {b b' : Bool} (hb : t = false → b = b') :
    Agree (D.put t (flagBits f)) (e.setFlag f b) (e'.setFlag f b') := by
  have hself : f &&& ~~~f = 0 := BitVec.and_not_self f
  have hout (x : Dword) (b : Bool) :
      (if b then x ||| f else x &&& ~~~f) &&& ~~~f = x &&& ~~~f := by
    cases b with
    | true => exact or_and_disjoint hself
    | false => exact and_not_and_disjoint hself
  refine h.putBits (fun ht => ?_) (hout ..) (hout ..)
  rw [hb ht]
  cases b' with
  | true =>
    rw [if_pos rfl, if_pos rfl, or_and_mask, or_and_mask]
  | false =>
    have hclear (x : Dword) : (x &&& ~~~f) &&& f = 0 := by
      rw [BitVec.and_assoc, BitVec.and_comm (~~~f), hself]
      exact BitVec.and_zero
    rw [if_neg Bool.false_ne_true, if_neg Bool.false_ne_true, hclear, hclear]

theorem Agree.setWordReg {r : Fin 16} {v v' : Word} (hv : t = false → v = v') :
    Agree (D.put t (wordBits r)) { e with regs := cpuSetWordReg r v e.regs }
      { e' with regs := cpuSetWordReg r v' e'.regs } := by
  have hmask : ∀ i < 16, (0xFFFF#32).getLsbD i = true := by decide
  refine h.putBits (fun ht => ?_) (insert_and_not_mask (shifted_and_not_mask hmask))
    (insert_and_not_mask (shifted_and_not_mask hmask))
  rw [hv ht, insert_and_mask, insert_and_mask]

theorem Agree.setByteReg {r : Fin 16} {v v' : Byte} (hv : t = false → v = v') :
    Agree (D.put t (byteBits r)) { e with regs := cpuSetByteReg r v e.regs }
      { e' with regs := cpuSetByteReg r v' e'.regs } := by
  have hmask : ∀ i < 8, (0xFF#32).getLsbD i = true := by decide
  refine h.putBits (fun ht => ?_) (insert_and_not_mask (shifted_and_not_mask hmask))
    (insert_and_not_mask (shifted_and_not_mask hmask))
  rw [hv ht, insert_and_mask, insert_and_mask]

theorem Agree.setCreg {r : Fin 16} {v v' : Dword} (hv : t = false → v = v') :
    Agree (D.put t [.creg r]) (e.setCreg r v) (e'.setCreg r v') := by
  refine { h with same := h.put (fun ht l hl => ?_) fun l hl hs => ?_ }
  · rw [List.mem_singleton.1 hl, hv ht]
    simp [Loc.Same, EmulatorContext.setCreg]
  · cases l with
    | creg s =>
      have hsr : s ≠ r := by simpa using hl
      simpa [Loc.Same, EmulatorContext.setCreg, hsr] using hs
    | _ => exact hs

theorem Agree.setLatch {v v' : Dword} (hv : t = false → v = v') :
    Agree (D.put t [.latch]) { e with latch := v } { e' with latch := v' } := by
  refine { h with same := h.put (fun ht l hl => ?_) fun l hl hs => ?_ }
  · rw [List.mem_singleton.1 hl, hv ht]
    rfl
  · cases l with
    | latch => exact absurd (List.mem_singleton.2 rfl) hl
    | _ => exact hs

theorem Agree.setPos (p : Dword) : Agree D { e with pos := p } { e' with pos := p } :=
  { h with same := fun l hl => by cases l <;> exact h.same _ hl, pos := rfl }

theorem Agree.writeAt {i : Dword} {b b' : Byte} (hb : t = false → b = b') :
    Alike Eq (Agree (D.put t [.mem i])) (e.writeAt i b) (e'.writeAt i b') := by
  unfold EmulatorContext.writeAt
  by_cases hi : i < e.memorySize
  · rw [if_pos hi, if_pos (h.memorySize ▸ hi)]
    refine { h with same := h.put (fun ht l hl => ?_) fun l hl hs => ?_ }
    · rw [List.mem_singleton.1 hl, hb ht]
      simp [Loc.Same]
    · cases l with
      | mem j =>
        have hj : j ≠ i := by simpa using hl
        simpa [Loc.Same, hj] using hs
      | _ => exact hs
  · rw [if_neg hi, if_neg (h.memorySize ▸ hi)]
    rfl

/-- Both wrote, and agree then. -/
def Wrote (D : Taint Loc) (o o' : Option EmulatorContext) : Prop :=
  ∃ f f', o = some f ∧ o' = some f' ∧ Agree D f f'

theorem Agree.memWriteByteP {a : Dword} {b b' : Byte} (hb : t = false → b = b') :
    Alike Eq (Wrote (D.put t (memBytes a 1))) (memWriteByteP b a e) (memWriteByteP b' a e') := by
  refine (h.writeAt hb).bind fun f f' hf => ⟨f, f', rfl, rfl, ?_⟩
  rwa [show memBytes a 1 = [.mem a] by simp [memBytes]]

theorem Agree.memWriteWordP {a : Dword} {w w' : Word} (hw : t = false → w = w') :
    Alike Eq (Wrote (D.put t (memBytes a 2))) (memWriteWordP w a e) (memWriteWordP w' a e') := by
  refine (h.writeAt fun ht => by rw [hw ht]).bind fun f f' hf =>
    (hf.writeAt fun ht => by rw [hw ht]).bind fun g g' hg => ⟨g, g', rfl, rfl, ?_⟩
  rw [show memBytes a 2 = [.mem (a + 0), .mem (a + 1)] from rfl, Taint.put_cons]
  exact hg

theorem Agree.memWriteDwordP {a : Dword} {d d' : Dword} (hd : t = false → d = d') :
    Alike Eq (Wrote (D.put t (memBytes a 4))) (memWriteDwordP d a e) (memWriteDwordP d' a e') := by
  refine (h.writeAt fun ht => by rw [hd ht]).bind fun f1 f1' h1 =>
    (h1.writeAt fun ht => by rw [hd ht]).bind fun f2 f2' h2 =>
      (h2.writeAt fun ht => by rw [hd ht]).bind fun f3 f3' h3 =>
        (h3.writeAt fun ht => by rw [hd ht]).bind fun f4 f4' h4 => ⟨f4, f4', rfl, rfl, ?_⟩
  rw [show memBytes a 4 = [.mem (a + 0), .mem (a + 1), .mem (a + 2), .mem (a + 3)] from rfl,
    Taint.put_cons, Taint.put_cons, Taint.put_cons]
  exact h4

end

end

end Cpu
