import Emulathor.Lib.Stack
import Emulathor.Cpu.Ins
import Emulathor.Cpu.Proof.Memory

/-!
# The loops of `LOADMA` and `STOREMA`

In closed form: `STOREMA`'s loop pushes the registers of its range in ascending order
(`storemaLoop_ok`, `Lib.pushAll`), `LOADMA`'s pops them in descending order (`loadmaLoop_ok`,
`popRegs`). Both run to the end of the range when the block they touch lies inside memory, and fault
when it does not (`storemaLoop_out`, `loadmaLoop_out`).
-/

namespace Cpu

open Common Lib

/-- The values of `n` registers from number `s` up. -/
def regVals (regs : Fin 16 → Dword) : Nat → Nat → List Dword
  | _, 0 => []
  | s, n + 1 => regs (Fin.ofNat 16 s) :: regVals regs (s + 1) n

theorem regVals_length (regs : Fin 16 → Dword) :
    ∀ s n, (regVals regs s n).length = n
  | _, 0 => rfl
  | s, n + 1 => by rw [regVals, List.length_cons, regVals_length regs (s + 1) n]

theorem regVals_getElem (regs : Fin 16 → Dword) :
    ∀ {s n j : Nat} (h : j < (regVals regs s n).length),
      (regVals regs s n)[j] = regs (Fin.ofNat 16 (s + j))
  | _, 0, _, h => by simp [regVals] at h
  | s, n + 1, 0, _ => by simp [regVals]
  | s, n + 1, j + 1, h => by
    have h' : j < (regVals regs (s + 1) n).length := by
      rw [regVals_length] at h ⊢; omega
    simp only [regVals, List.getElem_cons_succ]
    rw [regVals_getElem regs h', Nat.add_assoc, Nat.add_comm 1 j]

/-- The address an entry further down or up. -/
theorem sub_four_sub (t : Dword) (n : Nat) :
    t - 4 - BitVec.ofNat 32 (4 * n) = t - BitVec.ofNat 32 (4 * (n + 1)) := by
  rw [BitVec.sub_sub, Nat.mul_succ, Nat.add_comm, BitVec.ofNat_add]
  rfl

theorem add_four_add (t : Dword) (n : Nat) :
    t + 4 + BitVec.ofNat 32 (4 * n) = t + BitVec.ofNat 32 (4 * (n + 1)) := by
  rw [BitVec.add_assoc, Nat.mul_succ, Nat.add_comm, BitVec.ofNat_add]
  rfl

/-! ## Pushing -/

/-- `n` dwords from `t` downwards lie inside memory. -/
def EmulatorContext.PushBlock (e : EmulatorContext) (t : Dword) (n : Nat) : Prop :=
  n ≠ 0 → 4 * n ≤ t.toNat + 4 ∧ e.InBlock t 4

instance (e : EmulatorContext) (t : Dword) (n : Nat) : Decidable (e.PushBlock t n) :=
  inferInstanceAs (Decidable (_ → _))

/-- Memory after pushing dwords from `t` downwards. -/
def pushDwords (m : Dword → Byte) (t : Dword) (vs : List Dword) : Dword → Byte :=
  pushAll 4 m t (vs.map dwordBytes)

theorem dwordBytes_map_length {vs : List Dword} : ∀ c ∈ vs.map dwordBytes, c.length = 4 := by
  intro c hc
  obtain ⟨d, -, rfl⟩ := List.mem_map.1 hc
  rfl

theorem pushDwords_outside {m : Dword → Byte} {t i : Dword} {vs : List Dword}
    (hlow : 4 * vs.length ≤ t.toNat + 4) (hup : t.toNat + 4 ≤ 2 ^ 32)
    (h : t.toNat + 4 ≤ i.toNat ∨ i.toNat + 4 * vs.length < t.toNat + 4) :
    pushDwords m t vs i = m i := by
  refine pushAll_outside dwordBytes_map_length ?_ hup ?_ <;> rw [List.length_map] <;> assumption

/-- The `j`-th dword pushed. -/
theorem dwordAt_pushDwords {m : Dword → Byte} {t : Dword} {vs : List Dword} {j : Nat}
    (hlow : 4 * vs.length ≤ t.toNat + 4) (hup : t.toNat + 4 ≤ 2 ^ 32) (hj : j < vs.length) :
    dwordAt (pushDwords m t vs) (t - BitVec.ofNat 32 (4 * j)) = vs[j] := by
  have get : ∀ l (hl : l < 4), pushDwords m t vs (t - BitVec.ofNat 32 (4 * j) + BitVec.ofNat 32 l)
      = (dwordBytes vs[j]).get ⟨l, hl⟩ := by
    intro l hl
    have hj' : j < (vs.map dwordBytes).length := by rwa [List.length_map]
    have hl' : l < (vs.map dwordBytes)[j].length := by simpa [dwordBytes] using hl
    have := pushAll_get (m := m) (t := t) dwordBytes_map_length (by rwa [List.length_map]) hup hj' hl'
    rw [pushDwords, this]
    simp only [List.getElem_map]
    rfl
  have h0 := get 0 (by decide)
  rw [BitVec.add_zero] at h0
  have h1 : pushDwords m t vs (t - BitVec.ofNat 32 (4 * j) + 1) = _ := get 1 (by decide)
  have h2 : pushDwords m t vs (t - BitVec.ofNat 32 (4 * j) + 2) = _ := get 2 (by decide)
  have h3 : pushDwords m t vs (t - BitVec.ofNat 32 (4 * j) + 3) = _ := get 3 (by decide)
  rw [dwordAt, h0, h1, h2, h3]
  exact dwordFromBytes_bytes _

theorem cpuPushDword_ok {t v : Dword} {e : EmulatorContext} (h : e.InBlock t 4) :
    cpuPushDword t v e = .ok (some (t - 4, { e with memory := writeN e.memory t (dwordBytes v) })) := by
  rw [cpuPushDword, memWriteDwordP_ok h]
  rfl

theorem cpuPushDword_out {t v : Dword} {e : EmulatorContext} (h : ¬ e.InBlock t 4) :
    OutOfBlock e.memorySize (cpuPushDword t v e) :=
  (memWriteDwordP_out h).bind _

/-- One more register to push. -/
theorem PushBlock_succ {e : EmulatorContext} {t : Dword} {n : Nat} (h : e.InBlock t 4)
    (m : Dword → Byte) :
    e.PushBlock t (n + 2) ↔ { e with memory := m }.PushBlock (t - 4) (n + 1) := by
  have hs := e.memorySize.isLt
  have ht := t.isLt
  unfold EmulatorContext.PushBlock EmulatorContext.InBlock at *
  by_cases h4 : 4 ≤ t.toNat
  · have : (t - 4).toNat = t.toNat - 4 := toNat_sub_ofNat h4
    constructor <;> intro hp _ <;> have := hp (by omega) <;> simp only at * <;> omega
  · -- the next entry would wrap around
    have : (t - 4).toNat = 2 ^ 32 - 4 + t.toNat := by
      rw [BitVec.toNat_sub, show (4 : Dword).toNat = 4 from rfl]
      omega
    constructor <;> intro hp _ <;> have := hp (by omega) <;> simp only at * <;> omega

/-- **`STOREMA`'s loop** over the `n` registers from `regp` up. -/
theorem storemaLoop_ok {regend : Fin 16} : ∀ {n : Nat} {regp : Byte} {t : Dword}
    {e : EmulatorContext}, regp.toNat + n = max regp.toNat (regend.val + 1) → e.PushBlock t n →
    storemaLoop regend regp t e = .ok (true, t - BitVec.ofNat 32 (4 * n),
      { e with memory := pushDwords e.memory t (regVals e.regs regp.toNat n) })
  | 0, regp, t, e, hn, _ => by
    rw [storemaLoop, dif_neg (by omega), Nat.mul_zero, BitVec.sub_zero]
    rfl
  | n + 1, regp, t, e, hn, hb => by
    have hend := regend.isLt
    obtain ⟨hlow, hin⟩ := hb (by omega)
    have hnext : (regp + 1#8).toNat = regp.toNat + 1 := toNat_add_ofNat (by omega)
    have hreg : (⟨regp.toNat, by omega⟩ : Fin 16) = Fin.ofNat 16 regp.toNat :=
      Fin.ext (Nat.mod_eq_of_lt (by omega)).symm
    have hblock : { e with memory := writeN e.memory t (dwordBytes (e.regs (Fin.ofNat 16 regp.toNat))) }
        |>.PushBlock (t - 4) n := by
      cases n with
      | zero => intro h; exact absurd rfl h
      | succ n => exact (PushBlock_succ hin _).1 hb
    rw [storemaLoop, dif_pos (by omega), hreg, cpuPushDword_ok hin, ok_bind]
    show storemaLoop regend (regp + 1#8) (t - 4) _ = _
    rw [storemaLoop_ok (by omega) hblock, hnext, sub_four_sub]
    rfl

/-- A range that does not fit makes the loop fault. -/
theorem storemaLoop_out {regend : Fin 16} : ∀ {n : Nat} {regp : Byte} {t : Dword}
    {e : EmulatorContext}, regp.toNat + n = max regp.toNat (regend.val + 1) → ¬ e.PushBlock t n →
    OutOfBlock e.memorySize (storemaLoop regend regp t e)
  | 0, _, _, _, _, hb => absurd (fun h => absurd rfl h) hb
  | n + 1, regp, t, e, hn, hb => by
    have hend := regend.isLt
    have hnext : (regp + 1#8).toNat = regp.toNat + 1 := toNat_add_ofNat (by omega)
    rw [storemaLoop, dif_pos (by omega)]
    by_cases hin : e.InBlock t 4
    · rw [cpuPushDword_ok hin, ok_bind]
      cases n with
      | zero => exact absurd (fun _ => ⟨by omega, hin⟩) hb
      | succ n =>
        have hrest : (regp + 1#8).toNat + (n + 1) = max (regp + 1#8).toNat (regend.val + 1) := by
          omega
        generalize writeN e.memory t _ = m
        have hout : ¬ { e with memory := m }.PushBlock (t - 4) (n + 1) :=
          fun h => hb ((PushBlock_succ hin m).2 h)
        exact storemaLoop_out hrest hout
    · exact (cpuPushDword_out hin).bind _

/-! ## Popping -/

/-- `n` dwords from above `t` upwards lie inside memory. -/
def EmulatorContext.PopBlock (e : EmulatorContext) (t : Dword) (n : Nat) : Prop :=
  n ≠ 0 → e.InBlock (t + 4) (4 * n)

instance (e : EmulatorContext) (t : Dword) (n : Nat) : Decidable (e.PopBlock t n) :=
  inferInstanceAs (Decidable (_ → _))

/-- The registers after popping into the registers from `p` down to `s`. -/
def popRegs (m : Dword → Byte) (t : Dword) (s p : Nat) (regs : Fin 16 → Dword) : Fin 16 → Dword :=
  fun r => if s ≤ r.val ∧ r.val ≤ p then dwordAt m (t + BitVec.ofNat 32 (4 * (p + 1 - r.val)))
    else regs r

theorem popRegs_succ (m : Dword → Byte) (t : Dword) {s p : Nat} (hp : p + 1 < 16) (hs : s ≤ p)
    (regs : Fin 16 → Dword) :
    popRegs m (t + 4) s p (Function.update regs ⟨p + 1, hp⟩ (dwordAt m (t + 4)))
      = popRegs m t s (p + 1) regs := by
  funext r
  unfold popRegs
  by_cases hr : r.val = p + 1
  · have : r = ⟨p + 1, hp⟩ := Fin.ext hr
    subst this
    rw [if_neg (by simp), if_pos ⟨by simp; omega, by simp⟩, Function.update_self]
    simp
  · have hne : r ≠ ⟨p + 1, hp⟩ := fun h => hr (by rw [h])
    rw [Function.update_of_ne hne]
    by_cases hin : s ≤ r.val ∧ r.val ≤ p
    · have hsucc : p + 1 - r.val + 1 = p + 1 + 1 - r.val := by omega
      rw [if_pos hin, if_pos ⟨hin.1, by omega⟩, add_four_add, hsucc]
    · rw [if_neg hin, if_neg (by omega)]

theorem popRegs_single (m : Dword → Byte) (t : Dword) (r : Fin 16) (regs : Fin 16 → Dword) :
    popRegs m t r.val r.val regs = Function.update regs r (dwordAt m (t + 4)) := by
  funext r'
  unfold popRegs
  by_cases hr : r' = r
  · subst hr
    rw [if_pos ⟨Nat.le_refl _, Nat.le_refl _⟩, Function.update_self, Nat.add_sub_cancel_left]
    rfl
  · have : r'.val ≠ r.val := fun h => hr (Fin.ext h)
    rw [if_neg (by omega), Function.update_of_ne hr]

theorem cpuPopDword_ok {t : Dword} {e : EmulatorContext} (h : e.InBlock (t + 4) 4) :
    cpuPopDword t e = .ok (some (t + 4, dwordAt e.memory (t + 4))) := by
  rw [cpuPopDword, memGetDwordP_ok h]
  rfl

theorem cpuPopDword_out {t : Dword} {e : EmulatorContext} (h : ¬ e.InBlock (t + 4) 4) :
    OutOfBlock e.memorySize (cpuPopDword t e) :=
  (memGetDwordP_out h).bind _

theorem PopBlock_succ {e : EmulatorContext} {t : Dword} {n : Nat} (h : e.InBlock (t + 4) 4) :
    e.PopBlock t (n + 2) ↔ e.PopBlock (t + 4) (n + 1) := by
  have hs := e.memorySize.isLt
  unfold EmulatorContext.PopBlock EmulatorContext.InBlock at *
  by_cases h8 : (t + 4).toNat + 4 < 2 ^ 32
  · have : (t + 4 + 4).toNat = (t + 4).toNat + 4 := toNat_add_ofNat h8
    constructor <;> intro hp _ <;> have hp := hp (by omega) <;> omega
  · omega

/-- **`LOADMA`'s loop** over the `n` registers from `regp` down. -/
theorem loadmaLoop_ok {regstart : Fin 16} : ∀ {n : Nat} {regp : Byte} {hp : regp.toNat < 16}
    {t : Dword} {e : EmulatorContext}, n = regp.toNat + 1 - regstart.val → e.PopBlock t n →
    loadmaLoop regstart regp hp t e = .ok (true, t + BitVec.ofNat 32 (4 * n),
      { e with regs := popRegs e.memory t regstart.val regp.toNat e.regs })
  | 0, regp, hp, t, e, hn, _ => by
    have hregs : popRegs e.memory t regstart.val regp.toNat e.regs = e.regs := by
      funext r
      exact if_neg (by omega)
    rw [loadmaLoop, dif_neg (by omega), hregs, Nat.mul_zero, BitVec.add_zero]
    rfl
  | n + 1, regp, hp, t, e, hn, hb => by
    have hin : e.InBlock (t + 4) 4 := by
      have := hb (by omega)
      unfold EmulatorContext.InBlock at *
      omega
    rw [loadmaLoop, dif_pos (by omega), cpuPopDword_ok hin, ok_bind]
    by_cases hlast : regp.toNat = regstart.val
    · obtain rfl : n = 0 := by omega
      have hregs : popRegs e.memory t regstart.val regp.toNat e.regs
          = Function.update e.regs ⟨regp.toNat, hp⟩ (dwordAt e.memory (t + 4)) := by
        rw [← hlast]
        exact popRegs_single e.memory t ⟨regp.toNat, hp⟩ e.regs
      rw [hregs]
      simp only [hlast, ↓reduceDIte]
      rfl
    · have hprev : (regp - 1#8).toNat = regp.toNat - 1 := toNat_sub_ofNat (by omega)
      obtain ⟨m, rfl⟩ : ∃ m, n = m + 1 := ⟨n - 1, by omega⟩
      simp only [hlast, ↓reduceDIte]
      have hcount : m + 1 = (regp - 1#8).toNat + 1 - regstart.val := by omega
      have hrest : (e.setReg ⟨regp.toNat, hp⟩ (dwordAt e.memory (t + 4))).PopBlock (t + 4) (m + 1) :=
        (PopBlock_succ hin).1 hb
      rw [loadmaLoop_ok hcount hrest]
      obtain ⟨p, hp'⟩ : ∃ p, regp.toNat = p + 1 := ⟨regp.toNat - 1, by omega⟩
      have hregs := popRegs_succ e.memory t (s := regstart.val) (p := p) (by omega) (by omega) e.regs
      rw [add_four_add, hprev]
      simp only [hp', Nat.add_sub_cancel]
      rw [← hregs]
      rfl

/-- A range that does not fit makes the loop fault. -/
theorem loadmaLoop_out {regstart : Fin 16} : ∀ {n : Nat} {regp : Byte} {hp : regp.toNat < 16}
    {t : Dword} {e : EmulatorContext}, n = regp.toNat + 1 - regstart.val → ¬ e.PopBlock t n →
    OutOfBlock e.memorySize (loadmaLoop regstart regp hp t e)
  | 0, _, _, _, _, _, hb => absurd (fun h => absurd rfl h) hb
  | n + 1, regp, hp, t, e, hn, hb => by
    rw [loadmaLoop, dif_pos (by omega)]
    by_cases hin : e.InBlock (t + 4) 4
    · rw [cpuPopDword_ok hin, ok_bind]
      by_cases hlast : regp.toNat = regstart.val
      · obtain rfl : n = 0 := by omega
        exact absurd (fun _ => by simpa using hin) hb
      · have hprev : (regp - 1#8).toNat = regp.toNat - 1 := toNat_sub_ofNat (by omega)
        obtain ⟨m, rfl⟩ : ∃ m, n = m + 1 := ⟨n - 1, by omega⟩
        simp only [hlast, ↓reduceDIte]
        exact loadmaLoop_out (n := m + 1) (e := e.setReg _ _) (by omega)
          fun h => hb ((PopBlock_succ hin).2 h)
    · exact (cpuPopDword_out hin).bind _

/-! ## The instructions -/

/-- The registers of a range, from `s` to `t`. -/
def rangeLength (s t : Fin 16) : Nat := t.val + 1 - s.val

section
variable {ins : InstructionContext} {e : EmulatorContext}

theorem toNat_regNumber (r : Fin 16) : (BitVec.ofNat 8 r.val).toNat = r.val := by
  rw [BitVec.toNat_ofNat]
  omega

theorem storema_count (s t : Fin 16) : (BitVec.ofNat 8 s.val).toNat + rangeLength s t
    = max (BitVec.ofNat 8 s.val).toNat (t.val + 1) := by
  rw [toNat_regNumber, rangeLength]
  omega

theorem loadma_count (s t : Fin 16) :
    rangeLength s t = (BitVec.ofNat 8 t.val).toNat + 1 - s.val := by
  rw [toNat_regNumber]
  rfl

theorem insStorema_ok
    (h : e.PushBlock (e.regs ins.dst) (rangeLength (regstartOf ins) (regendOf ins))) :
    insStorema ins e = .ok ({ e with
      memory := pushDwords e.memory (e.regs ins.dst)
        (regVals e.regs (regstartOf ins).val (rangeLength (regstartOf ins) (regendOf ins))) }.setReg
      ins.dst
      (e.regs ins.dst - BitVec.ofNat 32 (4 * rangeLength (regstartOf ins) (regendOf ins)))) := by
  rw [insStorema, storemaLoop_ok (storema_count _ _) h, toNat_regNumber]
  rfl

theorem insStorema_out
    (h : ¬ e.PushBlock (e.regs ins.dst) (rangeLength (regstartOf ins) (regendOf ins))) :
    OutOfBlock e.memorySize (insStorema ins e) :=
  (storemaLoop_out (storema_count _ _) h).bind _

theorem insLoadma_ok
    (h : e.PopBlock (e.regs ins.dst) (rangeLength (regstartOf ins) (regendOf ins))) :
    insLoadma ins e = .ok ({ e with
      regs := popRegs e.memory (e.regs ins.dst) (regstartOf ins).val (regendOf ins).val
        e.regs }.setReg ins.dst
      (e.regs ins.dst + BitVec.ofNat 32 (4 * rangeLength (regstartOf ins) (regendOf ins)))) := by
  rw [insLoadma, loadmaLoop_ok (loadma_count _ _) h, toNat_regNumber]
  rfl

theorem insLoadma_out
    (h : ¬ e.PopBlock (e.regs ins.dst) (rangeLength (regstartOf ins) (regendOf ins))) :
    OutOfBlock e.memorySize (insLoadma ins e) :=
  (loadmaLoop_out (loadma_count _ _) h).bind _

end

end Cpu
