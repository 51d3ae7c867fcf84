import Emulathor.Lib.Mem
import Emulathor.Lib.Run
import Emulathor.Cpu.Memory

/-!
# What an access does

One lemma for each `mem_*` function: inside the block it reads the little-endian value
(`wordAt`, `dwordAt`) or writes the value's bytes (`Lib.writeN`) and returns 1; else it faults at an
index outside the block (`OutOfBlock`). No access returns 0.
-/

namespace Cpu

open Common Lib

/-- The `n` bytes at `addr` lie inside the memory block. -/
def EmulatorContext.InBlock (e : EmulatorContext) (addr : Dword) (n : Nat) : Prop :=
  addr.toNat + n ≤ e.memorySize.toNat

instance (e : EmulatorContext) (addr : Dword) (n : Nat) : Decidable (e.InBlock addr n) :=
  inferInstanceAs (Decidable (_ ≤ _))

/-- The access faulted, at an index outside a block of `size` bytes. -/
def OutOfBlock {α : Type} (size : Dword) (x : Except Fault α) : Prop :=
  ∃ i, ¬ i < size ∧ x = .error (.memory i)

theorem OutOfBlock.bind {α β : Type} {size : Dword} {x : Except Fault α}
    (h : OutOfBlock size x) (f : α → Except Fault β) : OutOfBlock size (x >>= f) := by
  obtain ⟨i, hi, rfl⟩ := h
  exact ⟨i, hi, rfl⟩

theorem OutOfBlock.map {α β : Type} {size : Dword} {x : Except Fault α}
    (h : OutOfBlock size x) (f : α → β) : OutOfBlock size (f <$> x) := by
  obtain ⟨i, hi, rfl⟩ := h
  exact ⟨i, hi, rfl⟩

/-- The word at `a`. -/
def wordAt (m : Dword → Byte) (a : Dword) : Word := wordFromBytes (m (a + 1)) (m a)

/-- The dword at `a`. -/
def dwordAt (m : Dword → Byte) (a : Dword) : Dword :=
  dwordFromBytes (m (a + 3)) (m (a + 2)) (m (a + 1)) (m a)

/-- The bytes of a dword, in the order they are stored in. -/
def dwordBytes (d : Dword) : List Byte :=
  [llbyteFromDword d, lhbyteFromDword d, hlbyteFromDword d, hhbyteFromDword d]

/-- The bytes of a word, in the order they are stored in. -/
def wordBytes (w : Word) : List Byte := [lbyteFromWord w, hbyteFromWord w]

variable {e : EmulatorContext} {addr : Dword}

/-! ## Single bytes -/

theorem readAt_ok (h : addr < e.memorySize) : e.readAt addr = .ok (e.memory addr) := if_pos h

theorem readAt_out (h : ¬ addr < e.memorySize) : OutOfBlock e.memorySize (e.readAt addr) :=
  ⟨addr, h, if_neg h⟩

theorem writeAt_ok {b : Byte} (h : addr < e.memorySize) :
    e.writeAt addr b = .ok { e with memory := Function.update e.memory addr b } := if_pos h

theorem writeAt_out {b : Byte} (h : ¬ addr < e.memorySize) :
    OutOfBlock e.memorySize (e.writeAt addr b) :=
  ⟨addr, h, if_neg h⟩

/-- The same in a state whose memory has been written. -/
theorem writeAt_again_ok {m : Dword → Byte} {b : Byte} (h : addr < e.memorySize) :
    { e with memory := m }.writeAt addr b = .ok { e with memory := Function.update m addr b } :=
  if_pos h

theorem writeAt_again_out {m : Dword → Byte} {b : Byte} (h : ¬ addr < e.memorySize) :
    OutOfBlock e.memorySize ({ e with memory := m }.writeAt addr b) :=
  ⟨addr, h, if_neg h⟩

/-- The indices of an access inside the block. -/
theorem inBlock_lt {n k : Nat} (h : e.InBlock addr n) (hk : k < n) :
    addr + BitVec.ofNat 32 k < e.memorySize := by
  have hs := e.memorySize.isLt
  unfold EmulatorContext.InBlock at h
  rw [BitVec.lt_def, toNat_add_ofNat (by omega)]
  omega

/-- An access whose indices are all inside the block is inside it: they do not wrap around. -/
theorem inBlock_of_lt {n : Nat} (hn : n ≤ 4) (h : ∀ k < n, addr + BitVec.ofNat 32 k < e.memorySize)
    (hpos : 0 < n) : e.InBlock addr n := by
  have hs := e.memorySize.isLt
  unfold EmulatorContext.InBlock
  by_contra hc
  -- the first index that is not below the size
  have h0 := h 0 hpos
  simp only [BitVec.lt_def, BitVec.toNat_add, BitVec.toNat_ofNat] at h h0
  have hk := h (e.memorySize.toNat - addr.toNat) (by omega)
  rw [Nat.mod_eq_of_lt (show e.memorySize.toNat - addr.toNat < 2 ^ 32 by omega),
    show addr.toNat + (e.memorySize.toNat - addr.toNat) = e.memorySize.toNat by omega,
    Nat.mod_eq_of_lt hs] at hk
  exact Nat.lt_irrefl _ hk

/-! ## Reads -/

theorem memGetByteP_ok (h : e.InBlock addr 1) : memGetByteP addr e = .ok (some (e.memory addr)) := by
  have h0 : addr < e.memorySize := by simpa using inBlock_lt h (k := 0) (by omega)
  simp [memGetByteP, readAt_ok h0]

theorem memGetByteP_out (h : ¬ e.InBlock addr 1) : OutOfBlock e.memorySize (memGetByteP addr e) := by
  refine (readAt_out fun hc => h ?_).bind _
  refine inBlock_of_lt (by omega) (fun k hk => ?_) (by omega)
  obtain rfl : k = 0 := by omega
  simpa using hc

theorem memGetWordP_ok (h : e.InBlock addr 2) :
    memGetWordP addr e = .ok (some (wordAt e.memory addr)) := by
  have h0 : addr + 0 < e.memorySize := inBlock_lt h (k := 0) (by omega)
  have h1 : addr + 1 < e.memorySize := inBlock_lt h (k := 1) (by omega)
  rw [memGetWordP, readAt_ok h0, ok_bind, readAt_ok h1]
  simp [wordAt]

theorem memGetWordP_out (h : ¬ e.InBlock addr 2) : OutOfBlock e.memorySize (memGetWordP addr e) := by
  unfold memGetWordP
  by_cases h0 : addr + 0 < e.memorySize
  · rw [readAt_ok h0, ok_bind]
    refine (readAt_out fun h1 => h ?_).bind _
    refine inBlock_of_lt (by omega) (fun k hk => ?_) (by omega)
    match k, hk with
    | 0, _ => exact h0
    | 1, _ => exact h1
  · exact (readAt_out h0).bind _

theorem memGetDwordP_ok (h : e.InBlock addr 4) :
    memGetDwordP addr e = .ok (some (dwordAt e.memory addr)) := by
  have h0 : addr + 0 < e.memorySize := inBlock_lt h (k := 0) (by omega)
  have h1 : addr + 1 < e.memorySize := inBlock_lt h (k := 1) (by omega)
  have h2 : addr + 2 < e.memorySize := inBlock_lt h (k := 2) (by omega)
  have h3 : addr + 3 < e.memorySize := inBlock_lt h (k := 3) (by omega)
  rw [memGetDwordP, readAt_ok h0, ok_bind, readAt_ok h1, ok_bind, readAt_ok h2, ok_bind,
    readAt_ok h3]
  simp [dwordAt]

theorem memGetDwordP_out (h : ¬ e.InBlock addr 4) : OutOfBlock e.memorySize (memGetDwordP addr e) := by
  unfold memGetDwordP
  by_cases h0 : addr + 0 < e.memorySize
  · rw [readAt_ok h0, ok_bind]
    by_cases h1 : addr + 1 < e.memorySize
    · rw [readAt_ok h1, ok_bind]
      by_cases h2 : addr + 2 < e.memorySize
      · rw [readAt_ok h2, ok_bind]
        refine (readAt_out fun h3 => h ?_).bind _
        refine inBlock_of_lt (by omega) (fun k hk => ?_) (by omega)
        match k, hk with
        | 0, _ => exact h0
        | 1, _ => exact h1
        | 2, _ => exact h2
        | 3, _ => exact h3
      · exact (readAt_out h2).bind _
    · exact (readAt_out h1).bind _
  · exact (readAt_out h0).bind _

/-! ## Writes -/

theorem memWriteByteP_ok {b : Byte} (h : e.InBlock addr 1) :
    memWriteByteP b addr e = .ok (some { e with memory := writeN e.memory addr [b] }) := by
  have h0 : addr < e.memorySize := by simpa using inBlock_lt h (k := 0) (by omega)
  simp [memWriteByteP, writeN, writeAt_ok h0]

theorem memWriteByteP_out {b : Byte} (h : ¬ e.InBlock addr 1) :
    OutOfBlock e.memorySize (memWriteByteP b addr e) := by
  refine (writeAt_out fun hc => h ?_).bind _
  refine inBlock_of_lt (by omega) (fun k hk => ?_) (by omega)
  obtain rfl : k = 0 := by omega
  simpa using hc

theorem memWriteWordP_ok {w : Word} (h : e.InBlock addr 2) :
    memWriteWordP w addr e =
      .ok (some { e with memory := writeN e.memory addr (wordBytes w) }) := by
  have h0 : addr + 0 < e.memorySize := inBlock_lt h (k := 0) (by omega)
  have h1 : addr + 1 < e.memorySize := inBlock_lt h (k := 1) (by omega)
  rw [memWriteWordP, writeAt_ok h0, ok_bind, writeAt_again_ok h1]
  simp [writeN, wordBytes]

theorem memWriteWordP_out {w : Word} (h : ¬ e.InBlock addr 2) :
    OutOfBlock e.memorySize (memWriteWordP w addr e) := by
  unfold memWriteWordP
  by_cases h0 : addr + 0 < e.memorySize
  · rw [writeAt_ok h0, ok_bind]
    refine (writeAt_again_out fun h1 => h ?_).bind _
    refine inBlock_of_lt (by omega) (fun k hk => ?_) (by omega)
    match k, hk with
    | 0, _ => exact h0
    | 1, _ => exact h1
  · exact (writeAt_out h0).bind _

theorem memWriteDwordP_ok {d : Dword} (h : e.InBlock addr 4) :
    memWriteDwordP d addr e =
      .ok (some { e with memory := writeN e.memory addr (dwordBytes d) }) := by
  have h0 : addr + 0 < e.memorySize := inBlock_lt h (k := 0) (by omega)
  have h1 : addr + 1 < e.memorySize := inBlock_lt h (k := 1) (by omega)
  have h2 : addr + 2 < e.memorySize := inBlock_lt h (k := 2) (by omega)
  have h3 : addr + 3 < e.memorySize := inBlock_lt h (k := 3) (by omega)
  rw [memWriteDwordP, writeAt_ok h0, ok_bind, writeAt_again_ok h1, ok_bind, writeAt_again_ok h2, ok_bind,
    writeAt_again_ok h3]
  simp [writeN, dwordBytes, BitVec.add_assoc]

theorem memWriteDwordP_out {d : Dword} (h : ¬ e.InBlock addr 4) :
    OutOfBlock e.memorySize (memWriteDwordP d addr e) := by
  unfold memWriteDwordP
  by_cases h0 : addr + 0 < e.memorySize
  · rw [writeAt_ok h0, ok_bind]
    by_cases h1 : addr + 1 < e.memorySize
    · rw [writeAt_again_ok h1, ok_bind]
      by_cases h2 : addr + 2 < e.memorySize
      · rw [writeAt_again_ok h2, ok_bind]
        refine (writeAt_again_out fun h3 => h ?_).bind _
        refine inBlock_of_lt (by omega) (fun k hk => ?_) (by omega)
        match k, hk with
        | 0, _ => exact h0
        | 1, _ => exact h1
        | 2, _ => exact h2
        | 3, _ => exact h3
      · exact (writeAt_again_out h2).bind _
    · exact (writeAt_again_out h1).bind _
  · exact (writeAt_out h0).bind _

/-- A dword depends on its four bytes only. -/
theorem dwordAt_congr {m m' : Dword → Byte} {a : Dword} (h : a.toNat + 4 ≤ 2 ^ 32)
    (hm : ∀ i, InSpan a 4 i → m' i = m i) : dwordAt m' a = dwordAt m a := by
  have hk : ∀ k < 4, m' (a + BitVec.ofNat 32 k) = m (a + BitVec.ofNat 32 k) := by
    intro k hk
    have ha : (a + BitVec.ofNat 32 k).toNat = a.toNat + k := toNat_add_ofNat (by omega)
    exact hm _ ⟨by omega, by omega⟩
  have h0 : m' (a + 0#32) = m (a + 0#32) := hk 0 (by decide)
  have h1 : m' (a + 1) = m (a + 1) := hk 1 (by decide)
  have h2 : m' (a + 2) = m (a + 2) := hk 2 (by decide)
  have h3 : m' (a + 3) = m (a + 3) := hk 3 (by decide)
  rw [BitVec.add_zero] at h0
  rw [dwordAt, h0, h1, h2, h3, dwordAt]

end Cpu
