import Emulathor.E2E.StackDiscipline
import Emulathor.E2E.X86Code

/-!
# x86tov

A line on registers becomes one VA instruction. `translated` is what that does to the x86 state: the
operands of a move and a multiplication have changed places, and a push stores before it decrements.
The x86 line does the same exactly if it is `Kept`, and `x86tov_related` is about runs of such lines.
The lines in memory are refused by vasm.
-/

namespace E2E

open Common Lib Cpu Assembler
open X86 (Reg State Line storeDword ReadsAs source)

/-! ## Related states -/

/-- The register `translate_reg` names. -/
def vaReg (r : Reg) : Fin 16 := regOf (vaName r)

/-- The VA state holds the registers and, as far as it has memory, the memory of the x86 state. -/
structure Related (s : State) (e : EmulatorContext) : Prop where
  regs : ∀ r, e.regs (vaReg r) = s.regs r
  memory : ∀ i < e.memorySize, e.memory i = s.memory i

theorem vaReg_inj {r r' : Reg} (h : vaReg r = vaReg r') : r = r' := by
  cases r <;> cases r' <;> first | rfl | exact absurd h (by decide)

theorem vaReg_flgs (r : Reg) : vaReg r ≠ cpuRegFlgs := by cases r <;> decide

/-- An update of a register's VA register. -/
theorem update_vaReg {f : Fin 16 → Dword} {g : Reg → Dword} (h : ∀ r, f (vaReg r) = g r) (r' : Reg)
    (v : Dword) (r : Reg) :
    Function.update f (vaReg r') v (vaReg r) = Function.update g r' v r := by
  by_cases hr : r = r'
  · rw [hr, Function.update_self, Function.update_self]
  · rw [Function.update_of_ne hr, Function.update_of_ne fun he => hr (vaReg_inj he), h r]

/-! ## Stores -/

/-- The bytes at the address, as far as they are inside memory, are those of the dword. -/
def HoldsDword (size : Dword) (m : Dword → Byte) (a v : Dword) : Prop :=
  ∀ k < 4, a + BitVec.ofNat 32 k < size → m (a + BitVec.ofNat 32 k) = (v >>> (8 * k)).setWidth 8

instance holdsDword_decidable (size : Dword) (m : Dword → Byte) (a v : Dword) :
    Decidable (HoldsDword size m a v) :=
  inferInstanceAs (Decidable (∀ k < 4, _ → _))

section
variable {size a v : Dword} {m : Dword → Byte}

theorem holdsDword_iff : HoldsDword size m a v ↔
    ∀ i < size, (i - a).toNat < 4 → m i = (v >>> (8 * (i - a).toNat)).setWidth 8 := by
  constructor
  · intro h i hi hin
    have haddr : a + BitVec.ofNat 32 (i - a).toNat = i := by
      rw [BitVec.ofNat_toNat, BitVec.setWidth_eq, BitVec.add_comm, BitVec.sub_add_cancel]
    have hbyte := h (i - a).toNat hin
    rw [haddr] at hbyte
    exact hbyte hi
  · intro h k hk hi
    have hsub : (a + BitVec.ofNat 32 k - a).toNat = k := by
      rw [BitVec.add_comm, BitVec.add_sub_cancel, BitVec.toNat_ofNat]
      omega
    have hbyte := h _ hi
    rw [hsub] at hbyte
    exact hbyte hk

theorem storeDword_of_holds (h : HoldsDword size m a v) :
    ∀ i < size, storeDword m a v i = m i := by
  intro i hi
  unfold storeDword
  split
  · next hin => exact (holdsDword_iff.1 h i hi hin).symm
  · rfl

/-- Two dwords one below the other do not overlap. -/
theorem below_disjoint {i : Dword} (hi : (i - a).toNat < 4) : ¬ (i - (a - 4)).toNat < 4 := by
  bv_omega

/-- A store and one below it leave the same only if both change nothing. -/
theorem holds_of_storeDword
    (h : ∀ i < size, storeDword m (a - 4) v i = storeDword m a v i) :
    HoldsDword size m a v ∧ HoldsDword size m (a - 4) v := by
  rw [holdsDword_iff, holdsDword_iff]
  constructor
  · intro i hi hin
    have heq := h i hi
    rwa [storeDword, if_neg (below_disjoint hin), storeDword, if_pos hin] at heq
  · intro i hi hin
    have heq := (h i hi).symm
    rwa [storeDword, if_neg fun ha => below_disjoint ha hin, storeDword, if_pos hin] at heq

theorem dwordBytes_get {k : Nat} (hk : k < (dwordBytes v).length) :
    (dwordBytes v)[k] = (v >>> (8 * k)).setWidth 8 := by
  have h4 : k < 4 := hk
  match k, h4 with
  | 0, _ => exact setWidth_and_mask v 0xFF#32 (by decide)
  | 1, _ => exact setWidth_and_mask (v >>> 8) 0xFF#32 (by decide)
  | 2, _ => exact setWidth_and_mask (v >>> 16) 0xFF#32 (by decide)
  | 3, _ => rfl

/-- What the VA's store writes. -/
theorem writeN_storeDword (ha : a.toNat + 4 ≤ 2 ^ 32) (i : Dword) :
    writeN m a (dwordBytes v) i = storeDword m a v i := by
  unfold storeDword
  split
  · next hin =>
    have hi : a + BitVec.ofNat 32 (i - a).toNat = i := by
      rw [BitVec.ofNat_toNat, BitVec.setWidth_eq, BitVec.add_comm, BitVec.sub_add_cancel]
    have hlt : (i - a).toNat < (dwordBytes v).length := hin
    rw [← dwordBytes_get hlt, ← writeN_get ha hlt, hi]
  · next hout =>
    refine writeN_outside ha fun hin => hout ?_
    obtain ⟨hlow, hhigh⟩ := hin
    have hsub := BitVec.toNat_sub_of_le (x := i) (y := a) hlow
    have hlen : (dwordBytes v).length = 4 := rfl
    omega

end

/-! ## What a line does -/

/-- What the VA instruction for a line does to the x86 state. -/
def translated (s : State) : Line → State
  | .movl src dst => { s with regs := Function.update s.regs src (s.regs dst) }
  | .imull src dst => { s with regs := Function.update s.regs src (s.regs src * s.regs dst) }
  | .pushl src =>
    { regs := Function.update s.regs .esp (s.regs .esp - 4)
      memory := storeDword s.memory (s.regs .esp) (s.regs src) }
  | .movlStore _ _ _ | .movlLoad _ _ _ => s -- never runs

/-- A push stores inside memory. -/
def Fits (size : Dword) (s : State) : Line → Prop
  | .pushl _ => (s.regs .esp).toNat + 4 ≤ size.toNat
  | _ => True

/-- The line does the same with its operands in each other's place, and a push finds the register in
both places it may store it at. -/
def Kept (size : Dword) (s : State) : Line → Prop
  | .movl src dst => s.regs src = s.regs dst
  | .imull src dst => src = dst ∨
    s.regs dst * s.regs src = s.regs dst ∧ s.regs dst * s.regs src = s.regs src
  | .pushl src => (s.regs .esp).toNat + 4 ≤ size.toNat ∧
    HoldsDword size s.memory (s.regs .esp) (s.regs src) ∧
    HoldsDword size s.memory (s.regs .esp - 4) (s.regs src)
  | .movlStore _ _ _ | .movlLoad _ _ _ => False

/-- The states are the same as far as there is memory. -/
structure Same (size : Dword) (s s' : State) : Prop where
  regs : s.regs = s'.regs
  memory : ∀ i < size, s.memory i = s'.memory i

section
variable {size : Dword} {s : State} {x : Line}

theorem Kept.onRegisters (h : Kept size s x) : OnRegisters x := by
  cases x with
  | movl | imull | pushl => trivial
  | movlStore | movlLoad => exact h.elim

theorem Kept.fits (h : Kept size s x) : Fits size s x := by
  cases x with
  | pushl => exact h.1
  | movl | imull | movlStore | movlLoad => trivial

/-- A line is kept if the VA instruction does what it does. -/
theorem same_iff (hx : OnRegisters x) (hfit : Fits size s x) :
    Same size (x.exec s) (translated s x) ↔ Kept size s x := by
  cases x with
  | movl src dst =>
    by_cases hr : dst = src
    · subst hr
      exact ⟨fun _ => rfl, fun _ => ⟨rfl, fun _ _ => rfl⟩⟩
    · have hiff : Function.update s.regs dst (s.regs src) = Function.update s.regs src (s.regs dst) ↔
          s.regs src = s.regs dst := (update_swap hr).trans ⟨And.left, fun h => ⟨h, h.symm⟩⟩
      exact ⟨fun h => hiff.1 h.regs, fun h => ⟨hiff.2 h, fun _ _ => rfl⟩⟩
  | imull src dst =>
    by_cases hr : dst = src
    · subst hr
      exact ⟨fun _ => .inl rfl, fun _ => ⟨rfl, fun _ _ => rfl⟩⟩
    · have hiff : Function.update s.regs dst (s.regs dst * s.regs src)
            = Function.update s.regs src (s.regs src * s.regs dst) ↔
          s.regs dst * s.regs src = s.regs dst ∧ s.regs dst * s.regs src = s.regs src := by
        rw [BitVec.mul_comm (s.regs src), update_swap hr]
      exact ⟨fun h => .inr (hiff.1 h.regs),
        fun h => ⟨hiff.2 (h.resolve_left (Ne.symm hr)), fun _ _ => rfl⟩⟩
  | pushl src =>
    constructor
    · intro h
      exact ⟨hfit, holds_of_storeDword h.memory⟩
    · rintro ⟨-, hat, hbelow⟩
      refine ⟨rfl, fun i hi => ?_⟩
      exact (storeDword_of_holds hbelow i hi).trans (storeDword_of_holds hat i hi).symm
  | movlStore | movlLoad => exact hx.elim

theorem Kept.same (h : Kept size s x) : Same size (x.exec s) (translated s x) :=
  (same_iff h.onRegisters h.fits).2 h

/-- A line that is kept leaves memory. -/
theorem Kept.memory (h : Kept size s x) : ∀ i < size, (translated s x).memory i = s.memory i := by
  cases x with
  | pushl => exact storeDword_of_holds h.2.1
  | movl | imull => exact fun _ _ => rfl
  | movlStore | movlLoad => exact h.elim

end

/-! ## What its instruction does -/

section
variable {s : State} {e : EmulatorContext} {x : Line} {c : EmitCall} {rest : List Byte}

theorem Related.of_same {s' : State} (h : Related s e) (hs : Same e.memorySize s' s) :
    Related s' e :=
  ⟨fun r => (h.regs r).trans (congrFun hs.regs r).symm,
    fun i hi => (h.memory i hi).trans (hs.memory i hi).symm⟩

theorem Related.same {s' : State} (h : Related s e) (h' : Related s' e) : Same e.memorySize s' s :=
  ⟨funext fun r => (h'.regs r).symm.trans (h.regs r),
    fun i hi => (h'.memory i hi).symm.trans (h.memory i hi)⟩

theorem regCall_mov (a b : Name reg32Names) : RegCall cAlways
    (.fmtVI pfxDword cAlways Opcode.mov.code (getRegForName a) (getRegForName b))
    (fun regs => Function.update regs (regOf a) (regs (regOf b))) := by
  refine ⟨⟨⟨by decide, by decide, by decide⟩, getRegForName_lt a, getRegForName_lt b⟩,
    fun h => h.1.2.1, fun {ins e} h => ?_⟩
  obtain ⟨⟨hp, -, ho⟩, ha, hb⟩ := h
  have hp' : ins.pfx = pfxDword := hp
  rw [executeIns, show ins.opcode = Opcode.mov.code from ho, Opcode.ofByte_code]
  simp only [insMov, hp', show ¬ pfxDword = pfxImm by decide, ↓reduceIte, eq_regOf ha, eq_regOf hb]
  rfl

/-- What `MUL d,a,b` does to the registers. -/
def mulRegs (d a b : Fin 16) (regs : Fin 16 → Dword) : Fin 16 → Dword :=
  let c : Bool := ((regs a).setWidth 64 * (regs b).setWidth 64 : Qword).toNat > dwordMax
  Function.update
    (Function.update regs cpuRegFlgs
      (if c then regs cpuRegFlgs ||| flgsC else regs cpuRegFlgs &&& ~~~flgsC))
    d (regs a * regs b)

theorem regCall_mul (d a b : Name reg32Names) : RegCall cAlways
    (.fmtII pfxDword cAlways (getOpForName "MUL") (getRegForName d) (getRegForName a)
      (getRegForName b)) (mulRegs (regOf d) (regOf a) (regOf b)) := by
  refine ⟨⟨⟨by decide, by decide, by decide⟩, getRegForName_lt d, getRegForName_lt a,
    getRegForName_lt b⟩, fun h => h.1.2.1, fun {ins e} h => ?_⟩
  obtain ⟨⟨hp, -, ho⟩, hd, ha, hb⟩ := h
  have hp' : ins.pfx = pfxDword := hp
  have hmul (v w : Dword) : (v.setWidth 64 * w.setWidth 64 : Qword).setWidth 32 = v * w := by
    rw [BitVec.setWidth_mul _ _ (by decide), BitVec.setWidth_setWidth_of_le _ (by decide),
      BitVec.setWidth_setWidth_of_le _ (by decide), BitVec.setWidth_eq, BitVec.setWidth_eq]
  rw [executeIns, show ins.opcode = Opcode.mul.code from ho, Opcode.ofByte_code]
  simp only [insMul, operandB, hp', show ¬ pfxDword = pfxImm by decide, ↓reduceIte, eq_regOf hd,
    eq_regOf ha, eq_regOf hb, hmul]
  rfl

/-- The push stores at the old stack pointer if there is room for a dword. -/
theorem push_round (h : Related s e) {src : Reg} (hc : lineCall (.pushl src) = some c)
    (hh : Holds e (c.bytes ++ rest)) :
    if (s.regs .esp).toNat + 4 ≤ e.memorySize.toNat then
      ∃ e', cpuIteration e = .ok (.next e') ∧ Related (translated s (.pushl src)) e' ∧
        e'.memorySize = e.memorySize ∧ e'.pos = e.pos + 4
    else ∃ fault, cpuIteration e = .error fault := by
  obtain ⟨c', hc', -, hr⟩ := exp_vaLine (x := .pushl src) trivial
  cases hc
  cases hc'
  obtain ⟨hround, henc⟩ := hh.round hr
  have hstacks := stacks_of_encodes henc
  have hpass : condPasses (insAt e.memory e.pos).condition (e.regs cpuRegFlgs) = true := by
    rw [show (insAt e.memory e.pos).condition = cAlways from henc.1.2.1]
    rfl
  have hnext : NextIs .storema cpuRegSp (vaReg src) (vaReg src) e :=
    ⟨hstacks.opcode, hstacks.dst, hstacks.regstart, hstacks.regend, hpass⟩
  have hlen : rangeLength (vaReg src) (vaReg src) = 1 := Nat.add_sub_cancel_left ..
  have hsp : e.regs cpuRegSp = s.regs .esp := h.regs .esp
  have hblock : e.PushBlock (e.regs cpuRegSp) 1 ↔
      (s.regs .esp).toNat + 4 ≤ e.memorySize.toNat := by
    rw [hsp]
    exact ⟨fun hb => (hb Nat.one_ne_zero).2, fun hb _ => ⟨Nat.le_add_left .., hb⟩⟩
  have hin : e.InBlock e.pos 4 := by
    obtain ⟨b1, b2, b3, b4, hb⟩ := hr.bytes
    have hle := hh.1
    unfold EmulatorContext.InBlock at hle ⊢
    rw [List.length_append, hb] at hle
    exact Nat.le_trans (Nat.add_le_add_left (Nat.le_add_right 4 _) _) hle
  split
  · next hfit =>
    refine ⟨_, (hnext.storema hin (hlen ▸ hblock.2 hfit)).round, ⟨fun r => ?_, fun i hi => ?_⟩,
      rfl, rfl⟩
    · show Function.update e.regs cpuRegSp (e.regs cpuRegSp - _) (vaReg r) = _
      rw [hlen, hsp]
      exact update_vaReg h.regs .esp _ r
    · show pushDwords e.memory (e.regs cpuRegSp) (regVals e.regs _ _) i = _
      have hreg : e.regs (Fin.ofNat 16 (vaReg src).val) = s.regs src := by
        rw [← h.regs src]
        exact congrArg e.regs (Fin.ext (Nat.mod_eq_of_lt (vaReg src).isLt))
      rw [hlen, hsp, regVals, hreg]
      show writeN e.memory _ (dwordBytes _) i = storeDword s.memory _ _ i
      rw [writeN_storeDword (by omega), storeDword, storeDword, h.memory i hi]
  · next hfit =>
    obtain ⟨i, -, hi⟩ := hnext.storema_out hin (mt (hlen ▸ hblock).1 hfit)
    exact ⟨.memory i, hi⟩

/-- **The instruction for a line** does what `translated` does. -/
theorem translated_round (h : Related s e) (hc : lineCall x = some c)
    (hh : Holds e (c.bytes ++ rest)) (hfit : Fits e.memorySize s x) :
    ∃ e', cpuIteration e = .ok (.next e') ∧ Related (translated s x) e' ∧
      e'.memorySize = e.memorySize ∧ e'.pos = e.pos + 4 := by
  cases x with
  | movl src dst =>
    cases hc
    obtain ⟨e', hround, -, hregs, hmem, hsize, hpos⟩ := (regCall_mov _ _).round hh
    refine ⟨e', hround, ⟨fun r => ?_, fun i hi => ?_⟩, hsize, hpos⟩
    · rw [hregs, stepRegs_always]
      show Function.update e.regs (vaReg src) (e.regs (vaReg dst)) _ = _
      rw [h.regs dst]
      exact update_vaReg h.regs src _ r
    · rw [hmem]
      exact h.memory i (hsize ▸ hi)
  | imull src dst =>
    cases hc
    obtain ⟨e', hround, -, hregs, hmem, hsize, hpos⟩ := (regCall_mul _ _ _).round hh
    refine ⟨e', hround, ⟨fun r => ?_, fun i hi => ?_⟩, hsize, hpos⟩
    · rw [hregs, stepRegs_always]
      show Function.update (Function.update e.regs cpuRegFlgs _) (vaReg src)
        (e.regs (vaReg src) * e.regs (vaReg dst)) _ = _
      rw [h.regs src, h.regs dst]
      refine update_vaReg (fun r => ?_) src _ r
      rw [Function.update_of_ne (vaReg_flgs r), h.regs r]
    · rw [hmem]
      exact h.memory i (hsize ▸ hi)
  | pushl src =>
    have hpush := push_round h hc hh
    rwa [if_pos (show (s.regs .esp).toNat + 4 ≤ e.memorySize.toNat from hfit)] at hpush
  | movlStore | movlLoad => cases hc

/-- **A kept line** leads to related states, and the next line's code. -/
theorem kept_round (h : Related s e) (hk : Kept e.memorySize s x) (hc : lineCall x = some c)
    (hh : Holds e (c.bytes ++ rest)) :
    ∃ e', cpuIteration e = .ok (.next e') ∧ Related (x.exec s) e' ∧ Holds e' rest ∧
      e'.memorySize = e.memorySize := by
  obtain ⟨c', hc', -, hr⟩ := exp_vaLine hk.onRegisters
  cases hc.symm.trans hc'
  obtain ⟨e', hround, hrel, hsize, hpos⟩ := translated_round h hc hh hk.fits
  refine ⟨e', hround, hrel.of_same (hsize ▸ hk.same), ?_, hsize⟩
  have hnext : Holds { e' with memory := e.memory } rest := hh.next hr rfl hsize hpos
  refine hnext.congr fun i hi => ?_
  rw [hrel.memory i hi, hk.memory i (hsize ▸ hi), h.memory i (hsize ▸ hi)]

/-- **Only a kept line** leads to related states. -/
theorem related_round_iff (h : Related s e) (hc : lineCall x = some c)
    (hh : Holds e (c.bytes ++ rest)) (hx : OnRegisters x) :
    (∃ e', cpuIteration e = .ok (.next e') ∧ Related (x.exec s) e') ↔ Kept e.memorySize s x := by
  constructor
  · rintro ⟨e', hround, hrel⟩
    by_cases hfit : Fits e.memorySize s x
    · obtain ⟨e1, hround1, hrel1, hsize, -⟩ := translated_round h hc hh hfit
      cases hround.symm.trans hround1
      exact (same_iff hx hfit).1 (hsize ▸ hrel1.same hrel)
    · cases x with
      | pushl src =>
        have hpush := push_round h hc hh
        rw [if_neg (show ¬ (s.regs .esp).toNat + 4 ≤ e.memorySize.toNat from hfit)] at hpush
        obtain ⟨fault, herror⟩ := hpush
        cases hround.symm.trans herror
      | movl | imull | movlStore | movlLoad => exact absurd trivial hfit
  · intro hk
    obtain ⟨e', hround, hrel, -, -⟩ := kept_round h hk hc hh
    exact ⟨e', hround, hrel⟩

end

/-! ## Runs -/

/-- Every line is kept where the run has got to. -/
def KeptRun (size : Dword) : State → List Line → Prop
  | _, [] => True
  | s, x :: xs => Kept size s x ∧ KeptRun size (x.exec s) xs

theorem KeptRun.onRegisters {size : Dword} {xs : List Line} : ∀ {s : State}, KeptRun size s xs →
    ∀ x ∈ xs, OnRegisters x := by
  induction xs with
  | nil => exact fun _ => nofun
  | cons x xs ih => exact fun h => List.forall_mem_cons.2 ⟨h.1.onRegisters, ih h.2⟩

/-- **A kept run** goes on in related states. -/
theorem kept_run {xs : List Line} : ∀ {s : State} {e : EmulatorContext} {n : Nat}, Related s e →
    KeptRun e.memorySize s xs → Holds e (codeOf xs) → n ≤ xs.length →
    ∃ e', iterate cpuIteration n e = .ok (.next e') ∧ Related (X86.exec s (xs.take n)) e' := by
  induction xs with
  | nil =>
    intro s e n h _ _ hn
    obtain rfl := Nat.le_zero.1 hn
    exact ⟨e, rfl, h⟩
  | cons x xs ih =>
    intro s e n h hk hh hn
    cases n with
    | zero => exact ⟨e, rfl, h⟩
    | succ n =>
      obtain ⟨c, hc, -, -⟩ := exp_vaLine hk.1.onRegisters
      rw [codeOf, List.filterMap_cons_some hc, List.flatMap_cons] at hh
      obtain ⟨e1, hround, hrel, hh1, hsize⟩ := kept_round h hk.1 hc hh
      obtain ⟨e', hrun, hrel'⟩ := ih hrel (hsize ▸ hk.2) hh1 (Nat.le_of_succ_le_succ hn)
      exact ⟨e', by rw [iterate_next hround, hrun], hrel'⟩

theorem codeOf_length {xs : List Line} (hx : ∀ x ∈ xs, OnRegisters x) :
    (codeOf xs).length = 4 * xs.length := by
  induction xs with
  | nil => rfl
  | cons x xs ih =>
    obtain ⟨c, hc, -, hr⟩ := exp_vaLine (hx x (.head _))
    obtain ⟨b1, b2, b3, b4, hb⟩ := hr.bytes
    rw [codeOf, List.filterMap_cons_some hc, List.flatMap_cons, List.length_append, hb, ← codeOf,
      ih fun x hm => hx x (.tail _ hm), List.length_cons, List.length_cons]
    simp only [List.length_cons, List.length_nil]
    omega

/-- The code runs from any state related to `s` to one related to the x86 result. -/
def Preserves (behind : Nat → List Char) (xs : List Line) : Prop :=
  ∃ img, Code behind xs img ∧ ∀ s e, Related s e → Holds e img →
    ∃ e', iterate cpuIteration (img.length / 4) e = .ok (.next e') ∧ Related (X86.exec s xs) e'

section
variable {behind : Nat → List Char}

/-- The code of a program that lies in memory. -/
theorem Code.eq_codeOf {xs : List Line} {img : List Byte} {e : EmulatorContext}
    (hx : ∀ x ∈ xs, OnRegisters x) (hne : xs ≠ []) (h : Code behind xs img) (hh : Holds e img) :
    img = codeOf xs := by
  have hlt := e.memorySize.isLt
  have hle := hh.1
  unfold EmulatorContext.InBlock at hle
  exact h.unique (by omega) (code_exists hne hx)

theorem Code.ne_nil {img : List Byte} : ¬ Code behind [] img := by
  rintro ⟨out, tokens, acts, ⟨lines, hlines, hout⟩, -⟩
  have hnil : lines.flatten = [] := by
    rw [hlines, source, List.flatMap_nil, X86tov.lexemes, scan_nil]
    rfl
  cases lines with
  | nil => cases hout
  | cons line lines =>
    have haccepts := X86tov.exps_accepts hout line (.head _)
    rw [(List.append_eq_nil_iff.1 hnil).1] at haccepts
    cases haccepts

/-- **x86tov.** -/
theorem x86tov_related (behind : Nat → List Char) :
    -- vasm accepts what is printed
    ((∀ n, '\n' ∉ behind n) → ∀ xs, (∃ img, Code behind xs img) ↔
      xs ≠ [] ∧ ∀ x ∈ xs, OnRegisters x) ∧
    -- a run whose lines are all kept
    (∀ xs s e, xs ≠ [] → Related s e → KeptRun e.memorySize s xs →
      ∃ img, Code behind xs img ∧ img.length = 4 * xs.length ∧ (Holds e img →
        ∀ n ≤ xs.length, ∃ e', iterate cpuIteration n e = .ok (.next e') ∧
          Related (X86.exec s (xs.take n)) e')) ∧
    -- a line that is not kept
    ((∀ n, '\n' ∉ behind n) → ∀ x s e img, Code behind [x] img → Related s e → Holds e img →
      ((∃ e', iterate cpuIteration (img.length / 4) e = .ok (.next e') ∧
        Related (X86.exec s [x]) e') ↔ Kept e.memorySize s x)) := by
  refine ⟨fun hb xs => ⟨?_, ?_⟩, ?_, ?_⟩
  · rintro ⟨img, h⟩
    refine ⟨?_, h.onRegisters hb⟩
    rintro rfl
    exact Code.ne_nil h
  · rintro ⟨hne, hx⟩
    exact ⟨_, code_exists hne hx⟩
  · intro xs s e hne h hk
    have hx := hk.onRegisters
    exact ⟨_, code_exists hne hx, codeOf_length hx, fun hh n hn => kept_run h hk hh hn⟩
  · intro hb x s e img hcode h hh
    have hall := hcode.onRegisters hb
    have hx := hall x (.head _)
    obtain rfl := hcode.eq_codeOf hall (List.cons_ne_nil _ _) hh
    obtain ⟨c, hc, -, -⟩ := exp_vaLine hx
    have hlen : (codeOf [x]).length / 4 = 1 := by
      rw [codeOf_length hall, Nat.mul_div_cancel_left _ (by decide)]
      rfl
    rw [hlen, iterate_succ (show iterate cpuIteration 0 e = .ok (.next e) from rfl)]
    rw [codeOf, List.filterMap_cons_some hc, List.flatMap_cons] at hh
    exact related_round_iff h hc hh hx

end

/-- An x86 state related to the VA state. -/
def x86Of (e : EmulatorContext) : State := ⟨fun r => e.regs (vaReg r), e.memory⟩

theorem related_x86Of (e : EmulatorContext) : Related (x86Of e) e := ⟨fun _ => rfl, fun _ _ => rfl⟩

def keptLines : List Line := [.movl .eax .ebx, .imull .eax .ebx, .pushl .ecx]

/-- The code of `keptLines` at the start of memory, 1 in `R0` and `R1`. -/
def keptState : EmulatorContext :=
  { emuInit (fun r => if r = 0 ∨ r = 1 then 1 else 0) fun _ => 0 with
    memory := fun i => (codeOf keptLines).getD i.toNat 0 }

theorem x86tov_related_kept : ∃ img, Code (fun _ => []) keptLines img ∧
    (∀ n ≤ 3, ∃ e', iterate cpuIteration n keptState = .ok (.next e') ∧
      Related (X86.exec (x86Of keptState) (keptLines.take n)) e') ∧
    ¬ (∃ img, Code (fun _ => []) [Line.movlLoad 4 .ebp .eax] img) ∧
    ∃ img, Code (fun _ => []) [Line.movl .eax .ebx] img ∧
      ∃ e', iterate cpuIteration (img.length / 4) keptState = .ok (.next e') ∧
        Related (X86.exec (x86Of keptState) [Line.movl .eax .ebx]) e' := by
  obtain ⟨haccept, hrun, hline⟩ := x86tov_related fun _ => []
  have hb : ∀ n : Nat, '\n' ∉ (fun _ => [] : Nat → List Char) n := fun _ => List.not_mem_nil
  have hrel := related_x86Of keptState
  have hmovl : (x86Of keptState).regs .eax = (x86Of keptState).regs .ebx := by decide
  have hkept : KeptRun keptState.memorySize (x86Of keptState) keptLines :=
    ⟨hmovl, .inr ⟨by decide, by decide⟩, ⟨by decide, by decide, by decide⟩, trivial⟩
  obtain ⟨img, hcode, -, hiter⟩ := hrun keptLines _ _ (List.cons_ne_nil _ _) hrel hkept
  have hx : ∀ x ∈ [Line.movl .eax .ebx], OnRegisters x := fun x hm => by
    rw [List.mem_singleton.1 hm]
    trivial
  obtain rfl := (code_exists (List.cons_ne_nil _ _) hkept.onRegisters).unique (by decide) hcode
  have hcode1 := @code_exists (fun _ => []) _ (List.cons_ne_nil _ _) hx
  refine ⟨_, hcode, hiter (by decide), fun hload => ?_, _, hcode1, ?_⟩
  · exact ((haccept hb _).1 hload).2 _ (.head _)
  · exact (hline hb _ _ _ _ hcode1 hrel (by decide)).2 hkept.1

/-- `mov r0, r1` does not move `%eax` to `%ebx`. -/
def movlState : EmulatorContext :=
  { emuInit (fun r => if r = 0 then 1 else 0) fun _ => 0 with
    memory := fun i => (codeOf [.movl .eax .ebx]).getD i.toNat 0 }

theorem not_preserves_movl :
    ¬ ∀ (behind : Nat → List Char) (xs : List Line), xs ≠ [] → Preserves behind xs := by
  intro h
  obtain ⟨img, hcode, hrun⟩ := h (fun _ => []) [.movl .eax .ebx] (List.cons_ne_nil _ _)
  have hx : ∀ x ∈ [Line.movl .eax .ebx], OnRegisters x := by
    intro x hx
    rw [List.mem_singleton.1 hx]
    trivial
  obtain rfl := (code_exists (List.cons_ne_nil _ _) hx).unique (by decide) hcode
  have hholds : Holds movlState (codeOf [.movl .eax .ebx]) := by decide
  obtain ⟨e', hiter, hrel⟩ := hrun _ _ (related_x86Of movlState) hholds
  have hlen : (codeOf [.movl .eax .ebx]).length / 4 = 1 := by decide
  rw [hlen, iterate_succ (show iterate cpuIteration 0 movlState = .ok (.next movlState) from rfl)]
    at hiter
  have hkept : Kept movlState.memorySize (x86Of movlState) (.movl .eax .ebx) :=
    (@related_round_iff _ _ (.movl .eax .ebx) _ [] (related_x86Of movlState) rfl hholds trivial).1
      ⟨e', hiter, hrel⟩
  have hne : movlState.regs (vaReg .eax) ≠ movlState.regs (vaReg .ebx) := by decide
  exact hne hkept

end E2E
