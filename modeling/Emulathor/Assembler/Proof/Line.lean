import Emulathor.Assembler.Grammar
import Emulathor.Assembler.Proof.Straight

/-!
# One line

The bytes a line emits, under given label addresses: the image of its action alone (`lineBytes`).
For a line of calls they are the calls' bytes, or the line aborts for an undefined label
(`lineBytes_calls`). Register and condition codes fit the fields they go to (`codeFor_lt`).
-/

namespace Assembler

open Common Lib

/-- The image of an action in a buffer of its own, with the labels `t`. -/
def lineBytes (t : String → Option Dword) (acts : Action) : Except Stop (List Byte) :=
  imageOf acts { emitCreateContext 64 true (fun _ => 0) with labels := t }

/-- An action of calls only. -/
def Calls (acts : Action) : Prop := ∀ s ∈ acts, ∃ c, s = .call c

section
variable {t : String → Option Dword} {acts : Action}

theorem Calls.straight (h : Calls acts) : ∀ s ∈ acts, s.Straight := by
  intro s hm
  obtain ⟨c, rfl⟩ := h s hm
  trivial

theorem Calls.labelNames (h : Calls acts) : labelNames acts = [] := by
  induction acts with
  | nil => rfl
  | cons s ss ih =>
    obtain ⟨c, rfl⟩ := h s (.head _)
    exact ih fun s hm => h s (.tail _ hm)

theorem Calls.defs (h : Calls acts) : ∀ {k : Cursor}, along Statement.defs k acts = [] := by
  induction acts with
  | nil => intro k; rfl
  | cons s ss ih =>
    intro k
    obtain ⟨c, rfl⟩ := h s (.head _)
    exact ih fun s hm => h s (.tail _ hm)

/-- **A line of calls.** -/
theorem lineBytes_calls (h : Calls acts) (hfit : widthOf acts ≤ 64) :
    ((∀ name ∈ refNames acts, (t name).isSome) ∧
      lineBytes t acts = .ok (acts.flatMap (Statement.image t))) ∨
    (¬ (∀ name ∈ refNames acts, (t name).isSome) ∧
      ∃ msg, lineBytes t acts = .error (.yyerror msg)) := by
  let k : Cursor := { pos := 0, offset := 0 }
  let ctx : EmitContext := { emitCreateContext 64 true (fun _ => 0) with labels := t }
  have hasm : Assembles ctx.size.toNat k ctx.labels acts ↔ ∀ name ∈ refNames acts, (t name).isSome := by
    have hall : AllAccepted ctx.size.toNat k ctx.labels acts := by
      rw [allAccepted_iff h.straight (by rw [show k.pos = 0 from rfl, Nat.zero_add]; exact hfit),
        h.labelNames]
      exact ⟨List.nodup_nil, nofun⟩
    rw [Assembles, h.defs, ← @refs_names acts k, List.forall_mem_map]
    exact and_iff_right hall
  have hsz : Sized ctx := ⟨rfl, Nat.zero_le _⟩
  have hk : AtCursor k ctx := ⟨rfl, rfl⟩
  rcases imageOf_straight hsz hk rfl ⟨rfl, rfl⟩ h.straight hfit with ⟨ha, himg⟩ | ⟨ha, himg⟩
  · rw [h.defs] at himg
    exact .inl ⟨hasm.1 ha, himg⟩
  · exact .inr ⟨fun hr => ha (hasm.2 hr), himg⟩

/-- A line of one call that is no label reference. -/
theorem lineBytes_call {c : EmitCall} (hc : c.bytes ≠ []) :
    lineBytes t [.call c] = .ok c.bytes := by
  have hcalls : Calls [.call c] := fun s hm => ⟨c, List.mem_singleton.1 hm⟩
  have himage : c.image t = c.bytes := by
    cases c with
    | labelRef name reg cond => exact absurd rfl hc
    | _ => rfl
  have hrefs : refNames [.call c] = [] := by
    cases c with
    | labelRef name reg cond => exact absurd rfl hc
    | _ => rfl
  have hw : widthOf [.call c] ≤ 64 := by
    have := c.width_le
    show c.width + 0 ≤ 64
    omega
  rcases @lineBytes_calls t _ hcalls hw with ⟨-, h⟩ | ⟨h, -⟩
  · rw [h]
    simp [Statement.image, himage]
  · rw [hrefs] at h
    exact absurd (List.forall_mem_nil _) h

end

/-! ## Codes -/

theorem codeFor_lt {buf : LookupBuf} {dflt : Byte} {b : Nat} (hd : dflt.toNat < b)
    (hbuf : ∀ p ∈ buf, p.1.toNat < b) (name : String) : (codeFor buf dflt name).toNat < b := by
  unfold codeFor
  cases h : buf.find? fun p => p.2 == some name with
  | none => exact hd
  | some p => exact hbuf p (List.mem_of_find?_eq_some h)

section
variable (name : String)

theorem getRegForName_lt : (getRegForName name).toNat < 16 := codeFor_lt (by decide) (by decide) name
theorem getReg16ForName_lt : (getReg16ForName name).toNat < 16 :=
  codeFor_lt (by decide) (by decide) name
theorem getReg8ForName_lt : (getReg8ForName name).toNat < 16 :=
  codeFor_lt (by decide) (by decide) name
theorem getCregForName_lt : (getCregForName name).toNat < 16 :=
  codeFor_lt (by decide) (by decide) name
theorem getOpForName_lt : (getOpForName name).toNat < 64 := codeFor_lt (by decide) (by decide) name

theorem getCondForName_lt : (getCondForName name).toNat < 16 := by
  have pick {p : Prop} [Decidable p] {c : Cond} {b : Byte} (hb : b.toNat < 16) :
      (if p then c.code else b).toNat < 16 := by
    split
    · exact c.code_lt
    · exact hb
  unfold getCondForName
  iterate 15 refine pick ?_
  exact Cond.always.code_lt

end

/-- A name of another register class has code zero. -/
theorem getReg8ForName_reg16 (n : Name reg16Names) : getReg8ForName n = 0 := by
  have : ∀ s ∈ reg16Names, getReg8ForName s = 0 := by decide
  exact this n n.2

theorem getReg16ForName_reg32 (n : Name reg32Names) : getReg16ForName n = 0 := by
  have : ∀ s ∈ reg32Names, getReg16ForName s = 0 := by decide
  exact this n n.2

theorem getReg8ForName_creg (n : Name cregNames) : getReg8ForName n = 0 := by
  have : ∀ s ∈ cregNames, getReg8ForName s = 0 := by decide
  exact this n n.2

theorem getRegForName_eq_zero (n : Name reg32Names) : getRegForName n = 0 ↔ n.val = "R0" := by
  have : ∀ s ∈ reg32Names, getRegForName s = 0 ↔ s = "R0" := by decide
  exact this n n.2

theorem getReg16ForName_eq_zero (n : Name reg16Names) : getReg16ForName n = 0 ↔ n.val = "R0L" := by
  have : ∀ s ∈ reg16Names, getReg16ForName s = 0 ↔ s = "R0L" := by decide
  exact this n n.2

theorem getCregForName_eq_zero (n : Name cregNames) : getCregForName n = 0 ↔ n.val = "MR1" := by
  have : ∀ s ∈ cregNames, getCregForName s = 0 ↔ s = "MR1" := by decide
  exact this n n.2

/-- The word registers of a dword register. -/
theorem double_lt {reg : Byte} (h : reg.toNat < 8) :
    (reg * 2).toNat < 16 ∧ (reg * 2 + 1).toNat < 16 := by
  rw [BitVec.toNat_add, BitVec.toNat_mul, show (2 : Byte).toNat = 2 from rfl,
    show (1 : Byte).toNat = 1 from rfl]
  omega

end Assembler
