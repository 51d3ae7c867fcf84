import Emulathor.Lib.Overlay
import Emulathor.Cpu.Proof.Safety

/-!
# Memory as one byte array

The register file is an array of 64 bytes as memory is one of `memory_size`: the register `r` of a
size of `n` bytes is bytes `n * r` up (`regBytes`). A store lays the bytes of its register over
memory, a load those at its address over the register file (`storeAt_copies`, `loadAt_copies`). So
after any stores a load gets the byte last stored at each address (`load_after_stores`).
-/

namespace Cpu

open Common Lib

/-! ## Register bytes -/

/-- The bytes of the registers, from the low byte of `R0` up. -/
def regBytes (regs : Fin 16 → Dword) (j : Nat) : Byte := byteAt (regs (Fin.ofNat 16 (j / 4))) (j % 4)

section
variable {regs : Fin 16 → Dword} {r : Fin 16} {k j : Nat}

theorem byteAt_dwordReg (hk : k < 4) : byteAt (regs r) k = regBytes regs (4 * r.val + k) := by
  have hr : Fin.ofNat 16 ((4 * r.val + k) / 4) = r := Fin.ext (by
    show (4 * r.val + k) / 4 % 16 = r.val
    omega)
  rw [regBytes, hr, show (4 * r.val + k) % 4 = k by omega]

theorem byteAt_wordReg (hk : k < 2) :
    byteAt (cpuGetWordReg r regs) k = regBytes regs (2 * r.val + k) := by
  have hr : Fin.ofNat 16 ((2 * r.val + k) / 4) = wordRegOf r := Fin.ext (by
    show (2 * r.val + k) / 4 % 16 = r.val / 2
    omega)
  have hfield := byteAt_field (x := regs (wordRegOf r)) (m := 0xFFFF#32) (v := 16) (n := 2)
    (s := 2 * (r.val % 2)) (by decide) rfl hk
  rw [regBytes, hr, show (2 * r.val + k) % 4 = 2 * (r.val % 2) + k by omega, ← hfield, cpuGetWordReg,
    show r.val % 2 * 16 = 8 * (2 * (r.val % 2)) by omega]

theorem byteReg_eq : cpuGetByteReg r regs = regBytes regs r.val := by
  have hr : Fin.ofNat 16 (r.val / 4) = byteRegOf r := Fin.ext (by
    show r.val / 4 % 16 = r.val / 4
    omega)
  rw [regBytes, hr, cpuGetByteReg, setWidth_and_mask _ _ (by decide), byteAt,
    show r.val % 4 * 8 = 8 * (r.val % 4) by omega]

/-- A register's bytes taken from `bs`. -/
theorem regBytes_update {d : Dword} {bs : Nat → Byte} {s n : Nat} (hs : s + n ≤ 4)
    (hd : ∀ k < 4, byteAt d k = if s ≤ k ∧ k < s + n then bs (k - s) else byteAt (regs r) k)
    (hj : j < 64) :
    regBytes (Function.update regs r d) j
      = overlay (regBytes regs) (4 * r.val + s) (slice bs 0 n) j := by
  have hlen : (slice bs 0 n).length = n := slice_length ..
  by_cases hr : j / 4 = r.val
  · have hreg : Fin.ofNat 16 (j / 4) = r := Fin.ext (by
      show j / 4 % 16 = r.val
      omega)
    rw [regBytes, hreg, Function.update_self, hd _ (by omega)]
    by_cases hin : s ≤ j % 4 ∧ j % 4 < s + n
    · obtain ⟨k, hk⟩ : ∃ k, j = 4 * r.val + s + k := ⟨j % 4 - s, by omega⟩
      rw [if_pos hin, hk, overlay_in (by omega)]
      simp only [slice, List.getElem_map, List.getElem_range, Nat.zero_add]
      congr 1
      omega
    · rw [if_neg hin, overlay_out (by omega), regBytes, hreg]
  · have hreg : Fin.ofNat 16 (j / 4) ≠ r := fun h => hr (by
      rw [← h]
      show j / 4 = j / 4 % 16
      omega)
    rw [regBytes, Function.update_of_ne hreg, overlay_out (by omega), regBytes]

theorem regBytes_setWordReg {w : Word} (hj : j < 64) :
    regBytes (cpuSetWordReg r w regs) j
      = overlay (regBytes regs) (2 * r.val) (slice (byteAt w) 0 2) j := by
  have hset := @regBytes_update regs (wordRegOf r) j _ (byteAt w) (2 * (r.val % 2)) 2 (by omega)
    (fun k hk => byteAt_insert (x := regs (wordRegOf r)) (m := 0xFFFF#32) (y := w) (n := 2)
      (by decide) rfl (by omega)) hj
  have hs : 8 * (2 * (r.val % 2)) = r.val % 2 * 16 := by omega
  have hp : 4 * (wordRegOf r).val + 2 * (r.val % 2) = 2 * r.val := by
    show 4 * (r.val / 2) + 2 * (r.val % 2) = 2 * r.val
    omega
  rwa [hs, hp] at hset

theorem slice_byteAt_byte (b : Byte) : slice (byteAt b) 0 1 = [b] := by
  simp [slice, byteAt_self]

theorem regBytes_setByteReg {b : Byte} (hj : j < 64) :
    regBytes (cpuSetByteReg r b regs) j = overlay (regBytes regs) r.val [b] j := by
  have hset := @regBytes_update regs (byteRegOf r) j _ (byteAt b) (r.val % 4) 1 (by omega)
    (fun k hk => byteAt_insert (x := regs (byteRegOf r)) (m := 0xFF#32) (y := b) (n := 1)
      (by decide) rfl (by omega)) hj
  have hs : 8 * (r.val % 4) = r.val % 4 * 8 := by omega
  have hp : 4 * (byteRegOf r).val + r.val % 4 = r.val := by
    show 4 * (r.val / 4) + r.val % 4 = r.val
    omega
  rwa [hs, hp, slice_byteAt_byte] at hset

theorem regBytes_setReg {d : Dword} (hj : j < 64) :
    regBytes (Function.update regs r d) j
      = overlay (regBytes regs) (4 * r.val) (slice (byteAt d) 0 4) j :=
  regBytes_update (s := 0) (Nat.le_refl 4) (fun k hk => by rw [if_pos ⟨Nat.zero_le k, by omega⟩]; rfl) hj

end

/-! ## What a store writes and a load reads -/

/-- The bytes a prefix moves. -/
def moveSize (pfx : Byte) : Nat :=
  if pfx = pfxDword then 4 else if pfx = pfxWord then 2 else if pfx = pfxByte then 1 else 0

/-- The bytes of memory. -/
def EmulatorContext.bytes (e : EmulatorContext) (i : Nat) : Byte := e.memory (BitVec.ofNat 32 i)

theorem moveInBlock_iff {e : EmulatorContext} {pfx : Byte} {addr : Dword} :
    e.MoveInBlock pfx addr ↔
      moveSize pfx = 0 ∨ addr.toNat + moveSize pfx ≤ e.memorySize.toNat := by
  unfold moveSize EmulatorContext.MoveInBlock
  by_cases hd : pfx = pfxDword
  · rw [if_pos hd, if_pos hd]
    exact (or_iff_right nofun).symm
  rw [if_neg hd, if_neg hd]
  by_cases hw : pfx = pfxWord
  · rw [if_pos hw, if_pos hw]
    exact (or_iff_right nofun).symm
  rw [if_neg hw, if_neg hw]
  by_cases hb : pfx = pfxByte
  · rw [if_pos hb, if_pos hb]
    exact (or_iff_right nofun).symm
  · rw [if_neg hb, if_neg hb]
    exact iff_of_true trivial (.inl rfl)

theorem moveInBlock_of_le {e : EmulatorContext} {pfx : Byte} {addr : Dword}
    (h : addr.toNat + moveSize pfx ≤ e.memorySize.toNat) : e.MoveInBlock pfx addr :=
  moveInBlock_iff.2 (.inr h)

theorem dwordBytes_eq (d : Dword) : dwordBytes d = slice (byteAt d) 0 4 := by
  simp only [dwordBytes, llbyteFromDword, lhbyteFromDword, hlbyteFromDword, hhbyteFromDword]
  rw [setWidth_and_mask _ _ (by decide), setWidth_and_mask _ _ (by decide),
    setWidth_and_mask _ _ (by decide)]
  rfl

theorem wordBytes_eq (w : Word) : wordBytes w = slice (byteAt w) 0 2 := by
  simp only [wordBytes, lbyteFromWord, hbyteFromWord]
  rw [setWidth_and_mask _ _ (by decide), setWidth_and_mask _ _ (by decide)]
  rfl

section
variable {e : EmulatorContext} {ins : InstructionContext} {addr : Dword}

theorem byteAt_dwordAt {k : Nat} (hk : k < 4) (h : addr.toNat + 4 ≤ 2 ^ 32) :
    byteAt (dwordAt e.memory addr) k = e.bytes (addr.toNat + k) := by
  obtain ⟨h0, h1, h2, h3⟩ := byteAt_join4 (e.memory (addr + 3)) (e.memory (addr + 2))
    (e.memory (addr + 1)) (e.memory addr)
  have hb : e.bytes (addr.toNat + k) = e.memory (addr + BitVec.ofNat 32 k) := by
    rw [EmulatorContext.bytes, ← toNat_add_ofNat (by omega), BitVec.ofNat_toNat, BitVec.setWidth_eq]
  rw [hb]
  match k, hk with
  | 0, _ => rw [BitVec.add_zero]; exact h0
  | 1, _ => exact h1
  | 2, _ => exact h2
  | 3, _ => exact h3

theorem byteAt_wordAt {k : Nat} (hk : k < 2) (h : addr.toNat + 2 ≤ 2 ^ 32) :
    byteAt (wordAt e.memory addr) k = e.bytes (addr.toNat + k) := by
  obtain ⟨h0, h1⟩ := byteAt_join2 (e.memory (addr + 1)) (e.memory addr)
  have hb : e.bytes (addr.toNat + k) = e.memory (addr + BitVec.ofNat 32 k) := by
    rw [EmulatorContext.bytes, ← toNat_add_ofNat (by omega), BitVec.ofNat_toNat, BitVec.setWidth_eq]
  rw [hb]
  match k, hk with
  | 0, _ => rw [BitVec.add_zero]; exact h0
  | 1, _ => exact h1

/-- **A store** lays the bytes of its register over memory. -/
theorem storeAt_copies (h : e.MoveInBlock ins.pfx addr) :
    ∃ m, storeAt ins e addr = .ok { e with memory := m } ∧ ∀ i : Dword, m i = overlay e.bytes addr.toNat
      (slice (regBytes e.regs) (moveSize ins.pfx * ins.opa.val) (moveSize ins.pfx)) i.toNat := by
  have hsize := e.memorySize.isLt
  unfold EmulatorContext.MoveInBlock at h
  unfold storeAt moveSize
  by_cases hd : ins.pfx = pfxDword
  · simp only [hd, ↓reduceIte] at h ⊢
    have hfit : addr.toNat + 4 ≤ 2 ^ 32 := by
      unfold EmulatorContext.InBlock at h
      omega
    have hslice : slice (byteAt (e.regs ins.opa)) 0 4 = slice (regBytes e.regs) (4 * ins.opa.val) 4 :=
      slice_congr fun k hk => by rw [Nat.zero_add, byteAt_dwordReg hk]
    refine ⟨_, by rw [memWriteDwordP_ok h]; rfl, fun i => ?_⟩
    rw [writeN_overlay (by exact hfit), dwordBytes_eq, hslice]
    rfl
  by_cases hw : ins.pfx = pfxWord
  · have hb : ¬ pfxWord = pfxByte := by decide
    have hd' : ¬ pfxWord = pfxDword := by decide
    simp only [hw, hd', hb, ↓reduceIte] at h ⊢
    have hfit : addr.toNat + 2 ≤ 2 ^ 32 := by
      unfold EmulatorContext.InBlock at h
      omega
    have hslice : slice (byteAt (cpuGetWordReg ins.opa e.regs)) 0 2
        = slice (regBytes e.regs) (2 * ins.opa.val) 2 :=
      slice_congr fun k hk => by rw [Nat.zero_add, byteAt_wordReg hk]
    refine ⟨_, by rw [memWriteWordP_ok h]; rfl, fun i => ?_⟩
    rw [writeN_overlay (by exact hfit), wordBytes_eq, hslice]
    rfl
  by_cases hb : ins.pfx = pfxByte
  · have hd' : ¬ pfxByte = pfxDword := by decide
    have hw' : ¬ pfxByte = pfxWord := by decide
    simp only [hb, hd', hw', ↓reduceIte] at h ⊢
    have hfit : addr.toNat + 1 ≤ 2 ^ 32 := by
      unfold EmulatorContext.InBlock at h
      omega
    refine ⟨_, by rw [memWriteByteP_ok h]; rfl, fun i => ?_⟩
    rw [writeN_overlay (by exact hfit), byteReg_eq]
    simp only [slice, List.range_one, List.map_cons, List.map_nil, Nat.one_mul, Nat.add_zero]
    rfl
  · simp only [hd, hw, hb, ↓reduceIte]
    exact ⟨e.memory, rfl, fun i => by simp [slice, overlay_nil, EmulatorContext.bytes]⟩

/-- **A load** lays the bytes at its address over the registers. -/
theorem loadAt_copies (h : e.MoveInBlock ins.pfx addr) :
    ∃ regs, loadAt ins e addr = .ok { e with regs := regs } ∧ ∀ j < 64, regBytes regs j
      = overlay (regBytes e.regs) (moveSize ins.pfx * ins.dst.val)
        (slice e.bytes addr.toNat (moveSize ins.pfx)) j := by
  have hsize := e.memorySize.isLt
  unfold EmulatorContext.MoveInBlock at h
  unfold loadAt moveSize
  by_cases hd : ins.pfx = pfxDword
  · simp only [hd, ↓reduceIte] at h ⊢
    have hfit : addr.toNat + 4 ≤ 2 ^ 32 := by
      unfold EmulatorContext.InBlock at h
      omega
    refine ⟨_, by rw [memGetDwordP_ok h]; rfl, fun j hj => ?_⟩
    have hslice : slice (byteAt (dwordAt e.memory addr)) 0 4 = slice e.bytes addr.toNat 4 :=
      slice_congr fun k hk => by rw [Nat.zero_add, byteAt_dwordAt hk hfit]
    rw [regBytes_setReg hj, hslice]
  by_cases hw : ins.pfx = pfxWord
  · have hd' : ¬ pfxWord = pfxDword := by decide
    simp only [hw, hd', ↓reduceIte] at h ⊢
    have hfit : addr.toNat + 2 ≤ 2 ^ 32 := by
      unfold EmulatorContext.InBlock at h
      omega
    refine ⟨_, by rw [memGetWordP_ok h]; rfl, fun j hj => ?_⟩
    have hslice : slice (byteAt (wordAt e.memory addr)) 0 2 = slice e.bytes addr.toNat 2 :=
      slice_congr fun k hk => by rw [Nat.zero_add, byteAt_wordAt hk hfit]
    rw [regBytes_setWordReg hj, hslice]
  by_cases hb : ins.pfx = pfxByte
  · have hd' : ¬ pfxByte = pfxDword := by decide
    have hw' : ¬ pfxByte = pfxWord := by decide
    simp only [hb, hd', hw', ↓reduceIte] at h ⊢
    refine ⟨_, by rw [memGetByteP_ok h]; rfl, fun j hj => ?_⟩
    rw [regBytes_setByteReg hj]
    simp [slice, EmulatorContext.bytes]
  · simp only [hd, hw, hb, ↓reduceIte]
    exact ⟨e.regs, rfl, fun j hj => by simp [slice, overlay_nil]⟩

end

/-! ## Stores and a load -/

/-- A `STOREID` or `STORERD`. -/
structure Store extends Issue where
  opcode : ins.opcode = Opcode.storeid.code ∨ ins.opcode = Opcode.storerd.code

/-- A `LOADID` or `LOADRD`. -/
structure Load extends Issue where
  opcode : ins.opcode = Opcode.loadid.code ∨ ins.opcode = Opcode.loadrd.code

/-- The bytes it moves. -/
def Issue.size (i : Issue) : Nat := moveSize i.ins.pfx

/-- Where a store accesses memory. -/
def Store.addr (s : Store) : Int :=
  (s.regs s.ins.dst).toNat + (if s.ins.opcode = Opcode.storeid.code then (s.ins.imm12.toNat : Int)
    else (s.regs s.ins.opb).toInt)

/-- Where a load accesses memory. -/
def Load.addr (l : Load) : Int :=
  (l.regs l.ins.opa).toNat + (if l.ins.opcode = Opcode.loadid.code then (l.ins.imm12.toNat : Int)
    else (l.regs l.ins.opb).toInt)

/-- The span of `n` bytes at `addr` lies inside a memory of `size` bytes. -/
def SpanIn (size : Dword) (addr : Int) (n : Nat) : Prop := 0 ≤ addr ∧ addr + n ≤ size.toNat

instance decidableSpanIn (size : Dword) (addr : Int) (n : Nat) : Decidable (SpanIn size addr n) :=
  inferInstanceAs (Decidable (_ ∧ _))

/-- Where a store writes what: the bytes of the register it names. -/
def Store.write (s : Store) : Nat × List Byte :=
  (s.addr.toNat, slice (regBytes s.regs) (s.size * s.ins.opa.val) s.size)

/-- The byte last stored at `i`, the one that was there if none was. -/
def lastStored (e : EmulatorContext) (ss : List Store) (i : Nat) : Byte :=
  (lastWriter (ss.map Store.write) i).getD (e.bytes i)

section
variable {e : EmulatorContext} {base ofs : Dword} {imm : Word} {n : Nat}

/-- An immediate offset that is not guarded off does not wrap around. -/
theorem immAddr_toNat (h : ¬ base.toNat + imm.toNat > dwordMax) :
    (base + imm.setWidth 32).toNat = base.toNat + imm.toNat := by
  have hmax : dwordMax = 2 ^ 32 - 1 := rfl
  rw [BitVec.toNat_add, BitVec.toNat_setWidth, Nat.mod_eq_of_lt (show imm.toNat < 2 ^ 32 by omega),
    Nat.mod_eq_of_lt (by omega)]

/-- Nor does a register offset. -/
theorem regAddr_toNat
    (h : ¬ ((base.toNat : Int) + ofs.toInt > dwordMax ∨ (base.toNat : Int) + ofs.toInt < 0)) :
    ((base + ofs).toNat : Int) = base.toNat + ofs.toInt := by
  have hmax : dwordMax = 2 ^ 32 - 1 := rfl
  have hbase := base.isLt
  have hofs := ofs.isLt
  rw [BitVec.toInt_eq_toNat_cond] at h ⊢
  rw [BitVec.toNat_add]
  split at h <;> omega

/-- A span in memory is not guarded off. -/
theorem SpanIn.guard {a : Int} (h : SpanIn e.memorySize a n) : ¬ (a > dwordMax ∨ a < 0) := by
  have hsize := e.memorySize.isLt
  have hmax : dwordMax = 2 ^ 32 - 1 := rfl
  unfold SpanIn at h
  omega

theorem Issue.exec_storeid {i : Issue} (h : i.ins.opcode = Opcode.storeid.code) :
    i.exec e = insStoreid i.ins { e with regs := i.regs } :=
  exec_next (by rw [executeIns, h, Opcode.ofByte_code])

theorem Issue.exec_storerd {i : Issue} (h : i.ins.opcode = Opcode.storerd.code) :
    i.exec e = insStorerd i.ins { e with regs := i.regs } :=
  exec_next (by rw [executeIns, h, Opcode.ofByte_code])

theorem Issue.exec_loadid {i : Issue} (h : i.ins.opcode = Opcode.loadid.code) :
    i.exec e = insLoadid i.ins { e with regs := i.regs } :=
  exec_next (by rw [executeIns, h, Opcode.ofByte_code])

theorem Issue.exec_loadrd {i : Issue} (h : i.ins.opcode = Opcode.loadrd.code) :
    i.exec e = insLoadrd i.ins { e with regs := i.regs } :=
  exec_next (by rw [executeIns, h, Opcode.ofByte_code])

/-- The store is made, at its address. -/
theorem Store.exec_eq {s : Store} (h : SpanIn e.memorySize s.addr s.size) :
    ∃ a : Dword, a.toNat = s.addr.toNat ∧
      s.exec e = storeAt s.ins { e with regs := s.regs } a := by
  rcases s.opcode with ho | ho
  · simp only [addr, ho, ↓reduceIte] at h ⊢
    have hguard : ¬ (s.regs s.ins.dst).toNat + s.ins.imm12.toNat > dwordMax := by
      have := h.guard
      omega
    refine ⟨_, immAddr_toNat hguard, ?_⟩
    rw [Issue.exec_storeid ho, insStoreid, if_neg hguard]
  · have hnot : ¬ Opcode.storerd.code = Opcode.storeid.code := by decide
    simp only [addr, ho, hnot, ↓reduceIte] at h ⊢
    refine ⟨s.regs s.ins.dst + s.regs s.ins.opb, by rw [← regAddr_toNat h.guard]; rfl, ?_⟩
    rw [Issue.exec_storerd ho, insStorerd, if_neg h.guard]

/-- The load is made, at its address. -/
theorem Load.exec_eq {l : Load} (h : SpanIn e.memorySize l.addr l.size) :
    ∃ a : Dword, a.toNat = l.addr.toNat ∧
      l.exec e = loadAt l.ins { e with regs := l.regs } a := by
  rcases l.opcode with ho | ho
  · simp only [addr, ho, ↓reduceIte] at h ⊢
    have hguard : ¬ (l.regs l.ins.opa).toNat + l.ins.imm12.toNat > dwordMax := by
      have := h.guard
      omega
    refine ⟨_, immAddr_toNat hguard, ?_⟩
    rw [Issue.exec_loadid ho, insLoadid, if_neg hguard]
  · have hnot : ¬ Opcode.loadrd.code = Opcode.loadid.code := by decide
    simp only [addr, ho, hnot, ↓reduceIte] at h ⊢
    refine ⟨l.regs l.ins.opa + l.regs l.ins.opb, by rw [← regAddr_toNat h.guard]; rfl, ?_⟩
    rw [Issue.exec_loadrd ho, insLoadrd, if_neg h.guard]

/-- A store in memory. -/
theorem Store.exec_copies {s : Store} (h : SpanIn e.memorySize s.addr s.size) :
    ∃ m, s.exec e = .ok { e with memory := m, regs := s.regs } ∧
      ∀ i : Dword, m i = overlay e.bytes s.write.1 s.write.2 i.toNat := by
  obtain ⟨a, ha, hexec⟩ := s.exec_eq h
  have hin : a.toNat + moveSize s.ins.pfx ≤ e.memorySize.toNat := by
    unfold SpanIn Issue.size at h
    omega
  obtain ⟨m, hm, hbytes⟩ := storeAt_copies (e := { e with regs := s.regs }) (moveInBlock_of_le hin)
  refine ⟨m, hexec.trans hm, fun i => ?_⟩
  rw [hbytes, ha]
  rfl

/-- A load from memory. -/
theorem Load.exec_copies {l : Load} (h : SpanIn e.memorySize l.addr l.size) :
    ∃ regs, l.exec e = .ok { e with regs := regs } ∧ ∀ j < 64, regBytes regs j
      = overlay (regBytes l.regs) (l.size * l.ins.dst.val) (slice e.bytes l.addr.toNat l.size) j := by
  obtain ⟨a, ha, hexec⟩ := l.exec_eq h
  have hin : a.toNat + moveSize l.ins.pfx ≤ e.memorySize.toNat := by
    unfold SpanIn Issue.size at h
    omega
  obtain ⟨regs, hregs, hbytes⟩ :=
    loadAt_copies (e := { e with regs := l.regs }) (moveInBlock_of_le hin)
  refine ⟨regs, hexec.trans hregs, fun j hj => ?_⟩
  rw [hbytes j hj, ha]
  rfl

end

/-- Stores in memory lay their writes over it, in order. -/
theorem run_stores {ss : List Store} : ∀ {e : EmulatorContext},
    (∀ s ∈ ss, SpanIn e.memorySize s.addr s.size) →
    ∃ e', run (·.exec) ss e = .ok e' ∧ e'.memorySize = e.memorySize ∧
      ∀ i : Dword, e'.memory i = overlayAll e.bytes (ss.map Store.write) i.toNat := by
  induction ss with
  | nil => exact fun _ => ⟨_, rfl, rfl, fun i => by simp [overlayAll, EmulatorContext.bytes]⟩
  | cons s ss ih =>
    intro e h
    obtain ⟨m, hexec, hm⟩ := s.exec_copies (h s (.head _))
    obtain ⟨e', hrun, hsize, hmem⟩ := ih (e := { e with memory := m, regs := s.regs })
      fun t ht => h t (.tail _ ht)
    refine ⟨e', ?_, hsize, fun i => ?_⟩
    · show run (fun s : Store => s.exec) (s :: ss) e = _
      rw [run_cons (a := s) hexec, hrun]
    · have hbytes : EmulatorContext.bytes { e with memory := m, regs := s.regs } i.toNat
          = overlay e.bytes s.write.1 s.write.2 i.toNat := by
        rw [← hm, EmulatorContext.bytes, BitVec.ofNat_toNat, BitVec.setWidth_eq]
      rw [hmem, List.map_cons, overlayAll, overlayAll_apply, overlayAll_apply, hbytes]

/-- **A load after stores** puts the bytes last stored at its addresses in the register it names, and
changes no other byte of the registers and nothing else. -/
theorem load_after_stores (e : EmulatorContext) (ss : List Store) (l : Load)
    (hs : ∀ s ∈ ss, SpanIn e.memorySize s.addr s.size) (hl : SpanIn e.memorySize l.addr l.size) :
    ∃ e1 regs, run (·.exec) ss e = .ok e1 ∧ l.exec e1 = .ok { e1 with regs := regs } ∧
      ∀ j < 64, regBytes regs j = overlay (regBytes l.regs) (l.size * l.ins.dst.val)
        (slice (lastStored e ss) l.addr.toNat l.size) j := by
  obtain ⟨e1, hrun, hsize, hmem⟩ := run_stores hs
  obtain ⟨regs, hexec, hregs⟩ := l.exec_copies (e := e1) (by rwa [hsize])
  refine ⟨e1, regs, hrun, hexec, fun j hj => ?_⟩
  have hlt := e.memorySize.isLt
  have hslice : slice e1.bytes l.addr.toNat l.size = slice (lastStored e ss) l.addr.toNat l.size := by
    refine slice_congr fun k hk => ?_
    have hk32 : (BitVec.ofNat 32 (l.addr.toNat + k)).toNat = l.addr.toNat + k := by
      unfold SpanIn at hl
      rw [BitVec.toNat_ofNat, Nat.mod_eq_of_lt (by omega)]
    rw [EmulatorContext.bytes, hmem, hk32, overlayAll_apply, lastStored]
  rw [hregs j hj, hslice]

/-- `STOREID R1,0x100,R0`, `STORERD R1,R2,R0LL` with `R2` 0x101 and `LOADRD R0H,R1,R2`, where `R0` is
0x11223344, then 0x55, then 0. -/
def overlapStores : List Store :=
  [{ ins := { opcode := Opcode.storeid.code, dst := 1, opa := 0, opb := 1, imm12 := 0x100, imm16 := 0,
              pfx := pfxDword, condition := Cond.always.code }
     regs := fun r => if r = 0 then 0x11223344 else 0
     opcode := .inl rfl },
    { ins := { opcode := Opcode.storerd.code, dst := 1, opa := 0, opb := 2, imm12 := 0, imm16 := 0,
               pfx := pfxByte, condition := Cond.always.code }
      regs := fun r => if r = 0 then 0x55 else if r = 2 then 0x101 else 0
      opcode := .inr rfl }]

def overlapLoad : Load where
  ins := { opcode := Opcode.loadrd.code, dst := 1, opa := 1, opb := 2, imm12 := 0, imm16 := 0,
           pfx := pfxWord, condition := Cond.always.code }
  regs := fun r => if r = 2 then 0x101 else 0
  opcode := .inr rfl

theorem load_after_stores_overlap :
    ∃ e1 regs, run (·.exec) overlapStores (emuInit (fun _ => 0) fun _ => 0) = .ok e1 ∧
      overlapLoad.exec e1 = .ok { e1 with regs := regs } ∧
      ∀ j < 64, regBytes regs j = overlay (regBytes overlapLoad.regs) 2 [0x55#8, 0x22#8] j :=
  load_after_stores (emuInit (fun _ => 0) fun _ => 0) overlapStores overlapLoad
    (by decide) (by decide)

end Cpu
