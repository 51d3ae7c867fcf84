import Emulathor.Assembler.Proof.Line

/-!
# The references of a program

The label references of a line that does not abort go to `R0` to `R7` (`exp_refs`): the three
pseudo-instructions that make one check their register first. So do those of a whole program
(`exps_refs`).
-/

namespace Assembler

open Common Lib

/-- A reference's register has halves, its condition is a nibble. -/
def Statement.RefInRange : Statement → Prop
  | .call (.labelRef _ reg cond) => reg.toNat ≤ 7 ∧ cond.toNat < 16
  | _ => True

def RefsInRange (acts : Action) : Prop := ∀ s ∈ acts, s.RefInRange

section
variable {rest : List Token} {acts acts' : Action} {op : String}

theorem RefsInRange.single {s : Statement} (h : s.RefInRange) : RefsInRange [s] :=
  fun _ hm => List.mem_singleton.1 hm ▸ h

theorem RefsInRange.cons {s : Statement} (h : s.RefInRange) (h' : RefsInRange acts) :
    RefsInRange (s :: acts) := List.forall_mem_cons.2 ⟨h, h'⟩

theorem RefsInRange.append (h : RefsInRange acts) (h' : RefsInRange acts') :
    RefsInRange (acts ++ acts') := fun s hm => (List.mem_append.1 hm).elim (h s) (h' s)

theorem RefsInRange.check (h : RefsInRange acts) {p : Prop} [Decidable p] {msg : String} :
    RefsInRange ((if p then [.yyerror msg] else []) ++ acts) := by
  split
  · exact RefsInRange.append (.single trivial) h
  · exact h

/-! ## Productions without references -/

theorem expFmtI_refs (h : expFmtI op rest = some acts) : RefsInRange acts := by
  unfold expFmtI at h
  split at h <;> cases h <;> exact .single trivial

theorem expFmtII_refs (h : expFmtII op rest = some acts) : RefsInRange acts := by
  unfold expFmtII at h
  split at h <;> cases h
  · exact .single trivial
  · exact .single trivial
  · refine .check ?_
    exact .single trivial
  · refine .check ?_
    exact .single trivial

theorem expFmtIV_refs (h : expFmtIV op rest = some acts) : RefsInRange acts := by
  unfold expFmtIV at h
  split at h <;> cases h <;> exact .single trivial

theorem expFmtV_refs (h : expFmtV op rest = some acts) : RefsInRange acts := by
  unfold expFmtV at h
  split at h <;> cases h <;> exact .single trivial

theorem expFmtVI_refs (h : expFmtVI op rest = some acts) : RefsInRange acts := by
  unfold expFmtVI at h
  split at h <;> cases h
  · exact .single trivial
  · exact .single trivial
  · rw [List.append_assoc]
    refine .check (.check ?_)
    exact .single trivial
  · rw [List.append_assoc]
    refine .check (.check ?_)
    exact .single trivial

theorem expFmtVIC_refs (h : expFmtVIC op rest = some acts) : RefsInRange acts := by
  unfold expFmtVIC at h
  split at h <;> cases h <;> exact .single trivial

theorem expFmtVIII_refs (h : expFmtVIII op rest = some acts) : RefsInRange acts := by
  unfold expFmtVIII at h
  split at h <;> cases h <;> exact .single trivial

theorem expCmpxchg_refs (h : expCmpxchg rest = some acts) : RefsInRange acts := by
  unfold expCmpxchg at h
  split at h <;> cases h <;> exact .single trivial

theorem expLoadi_refs (h : expLoadi rest = some acts) : RefsInRange acts := by
  unfold expLoadi at h
  split at h <;> cases h <;> exact .single trivial

theorem expLoadid_refs (h : expLoadid rest = some acts) : RefsInRange acts := by
  unfold expLoadid at h
  split at h <;> cases h <;>
  · refine .check ?_
    exact .single trivial

theorem expLoadrd_refs (h : expLoadrd rest = some acts) : RefsInRange acts := by
  unfold expLoadrd at h
  split at h <;> cases h <;> exact .single trivial

theorem expMov_refs (h : expMov rest = some acts) : RefsInRange acts := by
  unfold expMov at h
  split at h <;> cases h <;> exact .single trivial

theorem expSex_refs (h : expSex rest = some acts) : RefsInRange acts := by
  unfold expSex at h
  split at h <;> cases h <;> exact .single trivial

theorem expStoreid_refs (h : expStoreid rest = some acts) : RefsInRange acts := by
  unfold expStoreid at h
  split at h <;> cases h <;>
  · refine .check ?_
    exact .single trivial

theorem expStorerd_refs (h : expStorerd rest = some acts) : RefsInRange acts := by
  unfold expStorerd at h
  split at h <;> cases h <;> exact .single trivial

theorem expXchgc_refs (h : expXchgc rest = some acts) : RefsInRange acts := by
  unfold expXchgc at h
  split at h <;> cases h <;> exact .single trivial

theorem expStoreas_refs (h : expStoreas rest = some acts) : RefsInRange acts := by
  unfold expStoreas at h
  split at h <;> cases h
  exact .single trivial

theorem expLoadas_refs (h : expLoadas rest = some acts) : RefsInRange acts := by
  unfold expLoadas at h
  split at h <;> cases h
  exact .single trivial

theorem expPush_refs (h : expPush rest = some acts) : RefsInRange acts := by
  unfold expPush at h
  split at h <;> cases h <;> exact .single trivial

theorem expPop_refs (h : expPop rest = some acts) : RefsInRange acts := by
  unfold expPop at h
  split at h <;> cases h <;> exact .single trivial

theorem expLoad32_refs (h : expLoad32 rest = some acts) : RefsInRange acts := by
  unfold expLoad32 at h
  split at h <;> cases h <;> split <;> simp [RefsInRange, Statement.RefInRange]

theorem expBytes_refs {acts : Action} (h : expBytes rest = some acts) : RefsInRange acts := by
  fun_induction expBytes rest generalizing acts with
  | case1 => cases h; nofun
  | case2 rest ih => exact ih h
  | case3 rest ih => exact ih h
  | case4 i1 rest ih =>
    cases hb : expBytes rest with
    | none => rw [hb] at h; cases h
    | some as =>
      rw [hb] at h
      cases h
      refine .check ?_
      exact .cons trivial (ih hb)
  | case5 => cases h

/-! ## The pseudo-instructions with a reference -/

/-- A reference behind its register check, in range unless the check aborts. -/
theorem checkIfR7_refs {reg cond : Byte} {name msg : String}
    (hs : ∀ s ∈ checkIfR7 reg msg ++ .call (.labelRef name reg cond) :: acts, s.Straight)
    (hcond : cond.toNat < 16) (hrest : RefsInRange acts) :
    RefsInRange (checkIfR7 reg msg ++ .call (.labelRef name reg cond) :: acts) := by
  unfold checkIfR7 at hs ⊢
  split at hs
  · exact (hs (.yyerror msg) (.head _)).elim
  · next hle =>
    rw [if_neg hle, List.nil_append]
    exact .cons ⟨Nat.not_lt.1 hle, hcond⟩ hrest

theorem cAlways_lt : cAlways.toNat < 16 := by decide

theorem expLoadadr_refs (h : expLoadadr rest = some acts) (hs : ∀ s ∈ acts, s.Straight) :
    RefsInRange acts := by
  unfold expLoadadr at h
  split at h <;> cases h
  · exact checkIfR7_refs hs cAlways_lt nofun
  · exact checkIfR7_refs hs (getCondForName_lt _) nofun

theorem expLdcall_refs (h : expLdcall rest = some acts) (hs : ∀ s ∈ acts, s.Straight) :
    RefsInRange acts := by
  unfold expLdcall at h
  split at h <;> cases h
  · exact checkIfR7_refs hs cAlways_lt (.single trivial)
  · exact checkIfR7_refs hs (getCondForName_lt _) (.single trivial)

theorem expLdjmp_refs (h : expLdjmp rest = some acts) (hs : ∀ s ∈ acts, s.Straight) :
    RefsInRange acts := by
  unfold expLdjmp at h
  split at h <;> cases h
  · exact checkIfR7_refs hs cAlways_lt (.single trivial)
  · exact checkIfR7_refs hs (getCondForName_lt _) (.single trivial)

end

/-! ## Programs -/

/-- **The references of a line** that does not abort are in range. -/
theorem exp_refs {toks : List Token} {acts : Action} (h : exp toks = some acts)
    (hs : ∀ s ∈ acts, s.Straight) : RefsInRange acts := by
  unfold exp at h
  split at h
  · cases h; nofun
  · cases h; nofun
  · exact expFmtI_refs h
  · exact expFmtII_refs h
  · exact expFmtIV_refs h
  · exact expFmtV_refs h
  · exact expFmtVI_refs h
  · exact expFmtVIC_refs h
  · exact expFmtVIII_refs h
  · exact expCmpxchg_refs h
  · exact expLoadi_refs h
  · exact expLoadid_refs h
  · exact expLoadrd_refs h
  · exact expMov_refs h
  · exact expSex_refs h
  · exact expStoreid_refs h
  · exact expStorerd_refs h
  · exact expXchgc_refs h
  · exact expStoreas_refs h
  · exact expLoadas_refs h
  · exact expLoadadr_refs h hs
  · exact expLdcall_refs h hs
  · exact expLdjmp_refs h hs
  · exact expPush_refs h
  · exact expPop_refs h
  · exact expLoad32_refs h
  · cases h; exact .single trivial
  · cases h; exact .single trivial
  · cases h; exact .single trivial
  · cases h
    refine .check ?_
    exact .single trivial
  · cases h
    exact .cons trivial (.single trivial)
  · cases h
    simp [RefsInRange, Statement.RefInRange]
  · cases h; exact .single trivial
  · split at h
    · cases h
    · exact expBytes_refs h
  · cases h

theorem exps_refs {lines : List (List Token)} {ss : List Statement} (h : exps lines = some ss)
    (hs : ∀ s ∈ ss, s.Straight) : RefsInRange ss := by
  fun_induction exps lines generalizing ss with
  | case1 => cases h
  | case2 toks => exact exp_refs h hs
  | case3 toks rest _ ih =>
    obtain ⟨acts, hacts, h⟩ := Option.bind_eq_some_iff.1 h
    obtain ⟨acts', hacts', h⟩ := Option.bind_eq_some_iff.1 h
    cases h
    exact (exp_refs hacts fun s hm => hs s (List.mem_append_left _ hm)).append
      (ih hacts' fun s hm => hs s (List.mem_append_right _ hm))

end Assembler
