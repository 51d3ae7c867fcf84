import Emulathor.Assembler.Proof.Line

/-!
# Conditional and unconditional forms

`exp_condition_iff`: the form of a line with `CONDITION` emits the bytes of the form without, the
condition's code in the upper half of each instruction's second byte (`setCond`), for every
production but two: conditional `LOADRD` into a word register and conditional `XCHGC` look operands
up in the wrong register table, so there the forms agree only where the operands' codes are zero
(`Agreeing`).

All other pairs are `Matched`: the calls of one are those of the other with the condition replaced.
-/

namespace Assembler

open Common Lib

/-! ## The condition replaced -/

def EmitCall.withCond (k : Byte) : EmitCall → EmitCall
  | .byte b => .byte b
  | .fmtI pfx _ opcode => .fmtI pfx k opcode
  | .fmtII pfx _ opcode dst a b => .fmtII pfx k opcode dst a b
  | .fmtIII pfx _ opcode dst a imm12 => .fmtIII pfx k opcode dst a imm12
  | .fmtIV pfx _ opcode dst imm16 => .fmtIV pfx k opcode dst imm16
  | .fmtV pfx _ opcode dst => .fmtV pfx k opcode dst
  | .fmtVI pfx _ opcode a b => .fmtVI pfx k opcode a b
  | .fmtVII pfx _ opcode a imm12 => .fmtVII pfx k opcode a imm12
  | .fmtVIII pfx _ opcode imm16 => .fmtVIII pfx k opcode imm16
  | .labelRef name reg _ => .labelRef name reg k

def Statement.withCond (k : Byte) : Statement → Statement
  | .call c => .call (c.withCond k)
  | s => s

/-- An instruction executed always, its destination in range. -/
def EmitCall.Always : EmitCall → Prop
  | .byte _ => False
  | .fmtI _ condition _ | .fmtVI _ condition _ _ _ | .fmtVII _ condition _ _ _
  | .fmtVIII _ condition _ _ => condition = cAlways
  | .fmtII _ condition _ dst _ _ | .fmtIII _ condition _ dst _ _ | .fmtIV _ condition _ dst _
  | .fmtV _ condition _ dst => condition = cAlways ∧ dst.toNat < 16
  | .labelRef _ reg cond => cond = cAlways ∧ reg.toNat < 8

/-- The high nibble of the second byte of each instruction set to `k`. -/
def setCond (k : Byte) : List Byte → List Byte
  | b1 :: b2 :: b3 :: b4 :: bs =>
    b1 :: ((k <<< 4) ||| (b2 &&& 0x0F#8)) :: b3 :: b4 :: setCond k bs
  | bs => bs

theorem setCond_append (k : Byte) (bs : List Byte) :
    ∀ as : List Byte, as.length % 4 = 0 → setCond k (as ++ bs) = setCond k as ++ setCond k bs
  | [], _ => rfl
  | [_], h => absurd h (by simp)
  | [_, _], h => absurd h (by simp)
  | [_, _, _], h => absurd h (by simp)
  | a1 :: a2 :: a3 :: a4 :: as, h => by
    have h' : as.length % 4 = 0 := by simpa [Nat.add_assoc] using h
    simp only [List.cons_append, setCond, setCond_append k bs as h']

/-- The low nibble of a packed byte. -/
theorem nibble_lo {a b : Byte} (hb : b.toNat < 16) : ((a <<< 4) ||| b) &&& 0x0F#8 = b :=
  pack_lo (k := 4) hb (by decide)

/-- Two packed bytes are equal nibble by nibble. -/
theorem nibbles_inj {a b a' b' : Byte} (ha : a.toNat < 16) (hb : b.toNat < 16)
    (ha' : a'.toNat < 16) (hb' : b'.toNat < 16) :
    (a <<< 4) ||| b = (a' <<< 4) ||| b' ↔ a = a' ∧ b = b' := by
  constructor
  · intro h
    refine ⟨?_, by rw [← nibble_lo (a := a) hb, h, nibble_lo hb']⟩
    have hhi : ((a <<< 4) ||| b) >>> 4 = a := pack_hi (k := 4) (by decide) ha hb
    rw [← hhi, h]
    exact pack_hi (k := 4) (by decide) ha' hb'
  · rintro ⟨rfl, rfl⟩
    rfl

theorem secondByte {k dst : Byte} (hdst : dst.toNat < 16) :
    (k <<< 4) ||| (((cAlways <<< 4) ||| dst) &&& 0x0F#8) = (k <<< 4) ||| dst := by
  rw [nibble_lo hdst]

theorem EmitCall.Always.image {c : EmitCall} (h : c.Always) (k : Byte)
    (t : String → Option Dword) : (c.withCond k).image t = setCond k (c.image t) := by
  have hzero : (0x00#8 : Byte).toNat < 16 := by decide
  cases c with
  | byte b => exact h.elim
  | labelRef name reg cond =>
    obtain ⟨rfl, hreg⟩ := h
    obtain ⟨hlo, hhi⟩ := double_lt hreg
    simp only [withCond, EmitCall.image, loadiPair, Assembler.fmtIV, List.cons_append, List.nil_append,
      setCond, secondByte hlo, secondByte hhi]
  | fmtI pfx condition opcode | fmtVI pfx condition opcode a b | fmtVII pfx condition opcode a imm12
  | fmtVIII pfx condition opcode imm16 =>
    obtain rfl : condition = cAlways := h
    simp only [withCond, EmitCall.image, bytes, Assembler.fmtI, Assembler.fmtVI, Assembler.fmtVII,
      Assembler.fmtVIII, setCond, secondByte hzero]
  | fmtII pfx condition opcode dst a b | fmtIII pfx condition opcode dst a imm12
  | fmtIV pfx condition opcode dst imm16 | fmtV pfx condition opcode dst =>
    obtain ⟨rfl, hdst⟩ := h
    simp only [withCond, EmitCall.image, bytes, Assembler.fmtII, Assembler.fmtIII, Assembler.fmtIV,
      Assembler.fmtV, setCond, secondByte hdst]

theorem EmitCall.Always.length {c : EmitCall} (h : c.Always) (t : String → Option Dword) :
    (c.image t).length % 4 = 0 := by
  rw [c.image_length]
  cases c with
  | byte b => exact h.elim
  | _ => simp [width]

/-! ## Matched actions -/

/-- Every call of the action is an instruction executed always. -/
def AllAlways (acts : Action) : Prop := ∀ s ∈ acts, ∃ c : EmitCall, s = .call c ∧ c.Always

/-- Both actions abort with the same message, or the calls of the second are those of the first with
condition `k`. -/
def Matched (k : Byte) (acts acts' : Action) : Prop :=
  (∃ msg rest rest', acts = .yyerror msg :: rest ∧ acts' = .yyerror msg :: rest') ∨
  (AllAlways acts ∧ widthOf acts ≤ 64 ∧ acts' = acts.map (Statement.withCond k))

/-- The bytes of the second are those of the first with condition `k`, if neither aborts; and
neither aborts alone. -/
def SameBut (k : Byte) : Except Stop (List Byte) → Except Stop (List Byte) → Prop
  | .ok bs, .ok bs' => bs' = setCond k bs
  | .error _, .error _ => True
  | _, _ => False

section
variable {k : Byte} {acts acts' : Action}

theorem AllAlways.calls (h : AllAlways acts) : Calls acts := fun s hm => by
  obtain ⟨c, rfl, -⟩ := h s hm
  exact ⟨c, rfl⟩

theorem withCond_width (c : EmitCall) : (c.withCond k).width = c.width := by cases c <;> rfl

theorem withCond_calls (h : AllAlways acts) : Calls (acts.map (Statement.withCond k)) := by
  intro s hm
  obtain ⟨s', hm', rfl⟩ := List.mem_map.1 hm
  obtain ⟨c, rfl, -⟩ := h s' hm'
  exact ⟨_, rfl⟩

theorem withCond_widthOf (h : AllAlways acts) :
    widthOf (acts.map (Statement.withCond k)) = widthOf acts := by
  induction acts with
  | nil => rfl
  | cons s ss ih =>
    obtain ⟨c, rfl, -⟩ := h s (.head _)
    rw [List.map_cons, widthOf_cons, widthOf_cons, ih fun s hm => h s (.tail _ hm)]
    exact congrArg (· + widthOf ss) (withCond_width c)

theorem withCond_refNames (h : AllAlways acts) :
    refNames (acts.map (Statement.withCond k)) = refNames acts := by
  induction acts with
  | nil => rfl
  | cons s ss ih =>
    obtain ⟨c, rfl, -⟩ := h s (.head _)
    have ih' := ih fun s hm => h s (.tail _ hm)
    cases c with
    | labelRef name reg cond => exact congrArg (name :: ·) ih'
    | _ => exact ih'

theorem withCond_image (h : AllAlways acts) (t : String → Option Dword) :
    (acts.map (Statement.withCond k)).flatMap (Statement.image t)
      = setCond k (acts.flatMap (Statement.image t)) := by
  induction acts with
  | nil => rfl
  | cons s ss ih =>
    obtain ⟨c, rfl, hc⟩ := h s (.head _)
    have happ : setCond k (c.image t ++ ss.flatMap (Statement.image t))
        = setCond k (c.image t) ++ setCond k (ss.flatMap (Statement.image t)) :=
      setCond_append k _ _ (hc.length t)
    rw [List.map_cons, List.flatMap_cons, List.flatMap_cons, ih fun s hm => h s (.tail _ hm)]
    exact (congrArg (· ++ _) (hc.image k t)).trans happ.symm

/-- **Matched actions** emit the same bytes but for the condition. -/
theorem Matched.sameBut (h : Matched k acts acts') (t : String → Option Dword) :
    SameBut k (lineBytes t acts) (lineBytes t acts') := by
  rcases h with ⟨msg, rest, rest', rfl, rfl⟩ | ⟨hall, hw, rfl⟩
  · trivial
  · rcases @lineBytes_calls t acts hall.calls hw with ⟨hdef, h⟩ | ⟨hdef, msg, h⟩ <;>
    rcases @lineBytes_calls t _ (withCond_calls (k := k) hall) (by rw [withCond_widthOf hall]; exact hw)
      with ⟨hdef', h'⟩ | ⟨hdef', msg', h'⟩ <;>
    rw [withCond_refNames hall] at hdef' <;> rw [h, h']
    · exact withCond_image hall t
    · exact absurd hdef hdef'
    · exact absurd hdef' hdef
    · trivial

theorem Matched.single {c : EmitCall} (hc : c.Always) : Matched k [.call c] [.call (c.withCond k)] := by
  refine .inr ⟨fun s hm => ⟨c, List.mem_singleton.1 hm, hc⟩, ?_, rfl⟩
  have := c.width_le
  show c.width + 0 ≤ 64
  omega

/-- Checks in front of matched actions. -/
theorem Matched.check (h : Matched k acts acts') {p : Prop} [Decidable p] {msg : String} :
    Matched k ((if p then [.yyerror msg] else []) ++ acts) ((if p then [.yyerror msg] else []) ++ acts')
    := by
  split
  · exact .inl ⟨msg, acts, acts', rfl, rfl⟩
  · exact h

end

/-! ## The productions -/

section
open Token Statement

variable {c : Name conditionNames} {rest : List Token} {acts acts' : Action} {op : String}

theorem expFmtI_matched (h : expFmtI op rest = some acts)
    (h' : expFmtI op (condition c :: rest) = some acts') :
    Matched (getCondForName c) acts acts' := by
  unfold expFmtI at h
  split at h <;> cases h <;> cases h'
  exact .single rfl

theorem expFmtII_matched (h : expFmtII op rest = some acts)
    (h' : expFmtII op (condition c :: rest) = some acts') :
    Matched (getCondForName c) acts acts' := by
  unfold expFmtII at h
  split at h <;> cases h <;> cases h'
  · exact .single ⟨rfl, getRegForName_lt _⟩
  · refine Matched.check ?_
    exact .single ⟨rfl, getRegForName_lt _⟩

theorem expFmtIV_matched (h : expFmtIV op rest = some acts)
    (h' : expFmtIV op (condition c :: rest) = some acts') :
    Matched (getCondForName c) acts acts' := by
  unfold expFmtIV at h
  split at h <;> cases h <;> cases h'
  exact .single ⟨rfl, getRegForName_lt _⟩

theorem expFmtV_matched (h : expFmtV op rest = some acts)
    (h' : expFmtV op (condition c :: rest) = some acts') :
    Matched (getCondForName c) acts acts' := by
  unfold expFmtV at h
  split at h <;> cases h <;> cases h'
  · exact .single ⟨rfl, getRegForName_lt _⟩
  · exact .single rfl

theorem expFmtVI_matched (h : expFmtVI op rest = some acts)
    (h' : expFmtVI op (condition c :: rest) = some acts') :
    Matched (getCondForName c) acts acts' := by
  unfold expFmtVI at h
  split at h <;> cases h <;> cases h'
  · exact .single rfl
  · rw [List.append_assoc, List.append_assoc]
    refine Matched.check (Matched.check ?_)
    exact .single rfl

theorem expFmtVIC_matched (h : expFmtVIC op rest = some acts)
    (h' : expFmtVIC op (condition c :: rest) = some acts') :
    Matched (getCondForName c) acts acts' := by
  unfold expFmtVIC at h
  split at h <;> cases h <;> cases h' <;> exact .single rfl

theorem expFmtVIII_matched (h : expFmtVIII op rest = some acts)
    (h' : expFmtVIII op (condition c :: rest) = some acts') :
    Matched (getCondForName c) acts acts' := by
  unfold expFmtVIII at h
  split at h <;> cases h <;> cases h'
  exact .single rfl

theorem expCmpxchg_matched (h : expCmpxchg rest = some acts)
    (h' : expCmpxchg (condition c :: rest) = some acts') :
    Matched (getCondForName c) acts acts' := by
  unfold expCmpxchg at h
  split at h <;> cases h <;> cases h'
  exact .single ⟨rfl, getRegForName_lt _⟩

theorem expLoadi_matched (h : expLoadi rest = some acts)
    (h' : expLoadi (condition c :: rest) = some acts') :
    Matched (getCondForName c) acts acts' := by
  unfold expLoadi at h
  split at h <;> cases h <;> cases h'
  · exact .single ⟨rfl, getReg8ForName_lt _⟩
  · exact .single ⟨rfl, getReg16ForName_lt _⟩

theorem expLoadid_matched (h : expLoadid rest = some acts)
    (h' : expLoadid (condition c :: rest) = some acts') :
    Matched (getCondForName c) acts acts' := by
  unfold expLoadid at h
  split at h <;> cases h <;> cases h' <;> refine Matched.check ?_
  · exact .single ⟨rfl, getRegForName_lt _⟩
  · exact .single ⟨rfl, getReg8ForName_lt _⟩
  · exact .single ⟨rfl, getReg16ForName_lt _⟩

theorem expMov_matched (h : expMov rest = some acts)
    (h' : expMov (condition c :: rest) = some acts') :
    Matched (getCondForName c) acts acts' := by
  unfold expMov at h
  split at h <;> cases h <;> cases h' <;> exact .single rfl

theorem expSex_matched (h : expSex rest = some acts)
    (h' : expSex (condition c :: rest) = some acts') :
    Matched (getCondForName c) acts acts' := by
  unfold expSex at h
  split at h <;> cases h <;> cases h' <;> exact .single rfl

theorem expStoreid_matched (h : expStoreid rest = some acts)
    (h' : expStoreid (condition c :: rest) = some acts') :
    Matched (getCondForName c) acts acts' := by
  unfold expStoreid at h
  split at h <;> cases h <;> cases h' <;> refine Matched.check ?_ <;>
    exact .single ⟨rfl, getRegForName_lt _⟩

theorem expStorerd_matched (h : expStorerd rest = some acts)
    (h' : expStorerd (condition c :: rest) = some acts') :
    Matched (getCondForName c) acts acts' := by
  unfold expStorerd at h
  split at h <;> cases h <;> cases h' <;> exact .single ⟨rfl, getRegForName_lt _⟩

/-! ## The pseudo-instructions -/

/-- A label reference below a register check, and calls behind it. -/
theorem matched_ref {name msg : String} {reg : Byte} {calls : Action}
    (hw : widthOf calls ≤ 56) (hcalls : AllAlways calls) :
    Matched (getCondForName c)
      (checkIfR7 reg msg ++ (.call (.labelRef name reg cAlways) :: calls))
      (checkIfR7 reg msg ++ (.call (.labelRef name reg (getCondForName c))
        :: calls.map (Statement.withCond (getCondForName c)))) := by
  unfold checkIfR7
  split
  · exact .inl ⟨msg, _, _, rfl, rfl⟩
  · next hle =>
    have hreg : reg.toNat < 8 := by
      rw [gt_iff_lt, BitVec.lt_def] at hle
      have : cpuRegR7.toNat = 7 := rfl
      omega
    refine .inr ⟨fun s hm => ?_, ?_, rfl⟩
    · rcases List.mem_cons.1 hm with rfl | hm
      · exact ⟨_, rfl, rfl, hreg⟩
      · exact hcalls s hm
    · show 8 + widthOf calls ≤ 64
      omega

theorem expLoadadr_matched (h : expLoadadr rest = some acts)
    (h' : expLoadadr (condition c :: rest) = some acts') :
    Matched (getCondForName c) acts acts' := by
  unfold expLoadadr at h
  split at h <;> cases h <;> cases h'
  exact matched_ref (by decide) nofun

/-- A single call behind the label reference. -/
theorem matched_ref_call {name msg : String} {reg : Byte} {e : EmitCall} (he : e.Always) :
    Matched (getCondForName c)
      (checkIfR7 reg msg ++ [.call (.labelRef name reg cAlways), .call e])
      (checkIfR7 reg msg ++ [.call (.labelRef name reg (getCondForName c)),
        .call (e.withCond (getCondForName c))]) := by
  have hw : widthOf [.call e] ≤ 56 := by
    have := e.width_le
    show e.width + 0 ≤ 56
    omega
  exact matched_ref hw fun _ hm => ⟨e, List.mem_singleton.1 hm, he⟩

theorem expLdcall_matched (h : expLdcall rest = some acts)
    (h' : expLdcall (condition c :: rest) = some acts') :
    Matched (getCondForName c) acts acts' := by
  unfold expLdcall at h
  split at h <;> cases h <;> cases h'
  exact matched_ref_call ⟨rfl, getRegForName_lt _⟩

theorem expLdjmp_matched (h : expLdjmp rest = some acts)
    (h' : expLdjmp (condition c :: rest) = some acts') :
    Matched (getCondForName c) acts acts' := by
  unfold expLdjmp at h
  split at h <;> cases h <;> cases h'
  exact matched_ref_call ⟨rfl, getRegForName_lt _⟩

theorem expPush_matched (h : expPush rest = some acts)
    (h' : expPush (condition c :: rest) = some acts') :
    Matched (getCondForName c) acts acts' := by
  unfold expPush at h
  split at h <;> cases h <;> cases h'
  exact .single ⟨rfl, getRegForName_lt _⟩

theorem expPop_matched (h : expPop rest = some acts)
    (h' : expPop (condition c :: rest) = some acts') :
    Matched (getCondForName c) acts acts' := by
  unfold expPop at h
  split at h <;> cases h <;> cases h'
  exact .single ⟨rfl, getRegForName_lt _⟩

theorem expLoad32_matched (h : expLoad32 rest = some acts)
    (h' : expLoad32 (condition c :: rest) = some acts') :
    Matched (getCondForName c) acts acts' := by
  unfold expLoad32 at h
  split at h <;> cases h <;> cases h'
  next r3 val =>
  by_cases hhigh : getRegForName r3 > cpuRegR7
  · simp only [hhigh, ↓reduceIte]
    refine .inr ⟨?_, by simp [widthOf, Statement.width, EmitCall.width], rfl⟩
    simp only [AllAlways, List.cons_append, List.nil_append, List.forall_mem_cons]
    exact ⟨⟨_, rfl, rfl⟩, ⟨_, rfl, rfl, by decide⟩, ⟨_, rfl, rfl, by decide⟩, ⟨_, rfl, rfl⟩, List.forall_mem_nil _⟩
  · have hreg : (getRegForName r3).toNat < 8 := by
      rw [gt_iff_lt, BitVec.lt_def] at hhigh
      have : cpuRegR7.toNat = 7 := rfl
      omega
    obtain ⟨hlo, hhi⟩ := double_lt hreg
    simp only [hhigh, ↓reduceIte]
    refine .inr ⟨?_, by simp [widthOf, Statement.width, EmitCall.width], rfl⟩
    simp only [AllAlways, List.nil_append, List.append_nil, List.forall_mem_cons]
    exact ⟨⟨_, rfl, rfl, hlo⟩, ⟨_, rfl, rfl, hhi⟩, List.forall_mem_nil _⟩

/-! ## The two that differ -/

variable {t : String → Option Dword} {k : Byte}

/-- Two format II lines with different operands. -/
theorem sameBut_fmtII {pfx opcode dst a b dst' b' : Byte} (hk : k.toNat < 16) (hd : dst.toNat < 16)
    (ha : a.toNat < 16) (hb : b.toNat < 16) (hd' : dst'.toNat < 16) (hb' : b'.toNat < 16) :
    SameBut k (lineBytes t [.call (.fmtII pfx cAlways opcode dst a b)])
      (lineBytes t [.call (.fmtII pfx k opcode dst' a b')]) ↔ dst' = dst ∧ b' = b := by
  have hline (k dst b : Byte) : lineBytes t [.call (.fmtII pfx k opcode dst a b)]
      = .ok (fmtII pfx k opcode dst a b) := lineBytes_call (List.cons_ne_nil _ _)
  rw [hline, hline]
  simp only [SameBut, fmtII, setCond, secondByte hd, List.cons.injEq, true_and,
    and_true, nibbles_inj hk hd' hk hd, nibbles_inj ha hb' ha hb]

/-- Two format VI lines with different second operands. -/
theorem sameBut_fmtVI {pfx opcode a b b' : Byte} (ha : a.toNat < 16) (hb : b.toNat < 16)
    (hb' : b'.toNat < 16) :
    SameBut k (lineBytes t [.call (.fmtVI pfx cAlways opcode a b)])
      (lineBytes t [.call (.fmtVI pfx k opcode a b')]) ↔ b' = b := by
  have hline (k b : Byte) : lineBytes t [.call (.fmtVI pfx k opcode a b)]
      = .ok (fmtVI pfx k opcode a b) := lineBytes_call (List.cons_ne_nil _ _)
  have hzero : (0x00#8 : Byte).toNat < 16 := by decide
  rw [hline, hline]
  simp only [SameBut, fmtVI, setCond, secondByte hzero, List.cons.injEq, true_and,
    and_true, nibbles_inj ha hb' ha hb]

/-- The lines whose two forms agree: all but `LOADRD` into a word register other than
`LOADRD R0L, x, R0`, and `XCHGC` with a control register other than `MR1`. -/
def Agreeing : Token → List Token → Prop
  | opSLoadrd, [space, reg16 r3, comma, reg32 _, comma, reg32 r7] => r3.val = "R0L" ∧ r7.val = "R0"
  | opSXchgc, [space, reg32 _, comma, creg r5] => r5.val = "MR1"
  | _, _ => True

theorem expLoadrd_sameBut_iff (h : expLoadrd rest = some acts)
    (h' : expLoadrd (condition c :: rest) = some acts') :
    SameBut (getCondForName c) (lineBytes t acts) (lineBytes t acts') ↔ Agreeing opSLoadrd rest := by
  unfold expLoadrd at h
  split at h <;> cases h <;> cases h'
  · refine iff_of_true (Matched.sameBut ?_ t) trivial
    exact .single ⟨rfl, getRegForName_lt _⟩
  · refine iff_of_true (Matched.sameBut ?_ t) trivial
    exact .single ⟨rfl, getReg8ForName_lt _⟩
  · next r3 r5 r7 =>
    rw [sameBut_fmtII (getCondForName_lt _) (getReg16ForName_lt _) (getRegForName_lt _)
        (getRegForName_lt _) (getReg8ForName_lt _) (getReg16ForName_lt _), getReg8ForName_reg16,
      getReg16ForName_reg32, @eq_comm Byte 0, @eq_comm Byte 0, getReg16ForName_eq_zero,
      getRegForName_eq_zero]
    rfl

theorem expXchgc_sameBut_iff (h : expXchgc rest = some acts)
    (h' : expXchgc (condition c :: rest) = some acts') :
    SameBut (getCondForName c) (lineBytes t acts) (lineBytes t acts') ↔ Agreeing opSXchgc rest := by
  unfold expXchgc at h
  split at h <;> cases h <;> cases h'
  next r3 r5 =>
  rw [sameBut_fmtVI (getRegForName_lt _) (getCregForName_lt _) (getReg8ForName_lt _),
    getReg8ForName_creg, @eq_comm Byte 0, getCregForName_eq_zero]
  rfl

/-- **Conditional and unconditional forms** of a line emit the same bytes but for the condition
exactly when the line is `Agreeing`. -/
theorem exp_condition_iff {o : Token} (h : exp (o :: rest) = some acts)
    (h' : exp (o :: condition c :: rest) = some acts') :
    (∀ t, SameBut (getCondForName c) (lineBytes t acts) (lineBytes t acts')) ↔ Agreeing o rest := by
  have matched (ha : Agreeing o rest) (hm : Matched (getCondForName c) acts acts') :
      (∀ t, SameBut (getCondForName c) (lineBytes t acts) (lineBytes t acts')) ↔ Agreeing o rest :=
    iff_of_true hm.sameBut ha
  cases o with
  | opFmtI op => exact matched trivial (expFmtI_matched h h')
  | opFmtII op => exact matched trivial (expFmtII_matched h h')
  | opFmtIV op => exact matched trivial (expFmtIV_matched h h')
  | opFmtV op => exact matched trivial (expFmtV_matched h h')
  | opFmtVI op => exact matched trivial (expFmtVI_matched h h')
  | opFmtVIC op => exact matched trivial (expFmtVIC_matched h h')
  | opFmtVIII op => exact matched trivial (expFmtVIII_matched h h')
  | opSCmpxchg => exact matched trivial (expCmpxchg_matched h h')
  | opSLoadi => exact matched trivial (expLoadi_matched h h')
  | opSLoadid => exact matched trivial (expLoadid_matched h h')
  | opSLoadrd =>
    exact ⟨fun ht => (expLoadrd_sameBut_iff h h').1 (ht fun _ => none),
      fun ha t => (expLoadrd_sameBut_iff h h').2 ha⟩
  | opSMov => exact matched trivial (expMov_matched h h')
  | opSSex => exact matched trivial (expSex_matched h h')
  | opSStoreid => exact matched trivial (expStoreid_matched h h')
  | opSStorerd => exact matched trivial (expStorerd_matched h h')
  | opSXchgc =>
    exact ⟨fun ht => (expXchgc_sameBut_iff h h').1 (ht fun _ => none),
      fun ha t => (expXchgc_sameBut_iff h h').2 ha⟩
  | opPseudoLoadadr => exact matched trivial (expLoadadr_matched h h')
  | opPseudoLdcall => exact matched trivial (expLdcall_matched h h')
  | opPseudoLdjmp => exact matched trivial (expLdjmp_matched h h')
  | opPseudoPush => exact matched trivial (expPush_matched h h')
  | opPseudoPop => exact matched trivial (expPop_matched h h')
  | opPseudoLoad32 => exact matched trivial (expLoad32_matched h h')
  | directiveBytes => cases rest <;> simp [exp, expBytes] at h'
  | _ => cases h'

/-- `LOADID R2LH,R1,5` agrees with `LOADIDIZ R2LH,R1,5`, `LOADRD R1H,R2,R3` not with
`LOADRDIZ R1H,R2,R3`. -/
theorem exp_condition_iff_loads :
    (∃ acts acts',
      exp [opSLoadid, space, reg8 ⟨"R2LH", by decide⟩, comma, reg32 ⟨"R1", by decide⟩, comma, int 5]
        = some acts ∧
      exp [opSLoadid, condition ⟨"IZ", by decide⟩, space, reg8 ⟨"R2LH", by decide⟩, comma,
        reg32 ⟨"R1", by decide⟩, comma, int 5] = some acts' ∧
      ∀ t, SameBut (getCondForName "IZ") (lineBytes t acts) (lineBytes t acts')) ∧
    ∃ acts acts',
      exp [opSLoadrd, space, reg16 ⟨"R1H", by decide⟩, comma, reg32 ⟨"R2", by decide⟩, comma,
        reg32 ⟨"R3", by decide⟩] = some acts ∧
      exp [opSLoadrd, condition ⟨"IZ", by decide⟩, space, reg16 ⟨"R1H", by decide⟩, comma,
        reg32 ⟨"R2", by decide⟩, comma, reg32 ⟨"R3", by decide⟩] = some acts' ∧
      ∃ t, ¬ SameBut (getCondForName "IZ") (lineBytes t acts) (lineBytes t acts') := by
  constructor
  · have hiff := @exp_condition_iff ⟨"IZ", by decide⟩ [space, reg8 ⟨"R2LH", by decide⟩, comma,
      reg32 ⟨"R1", by decide⟩, comma, int 5] _ _ opSLoadid rfl rfl
    exact ⟨_, _, rfl, rfl, hiff.2 trivial⟩
  · have hiff := @exp_condition_iff ⟨"IZ", by decide⟩ [space, reg16 ⟨"R1H", by decide⟩, comma,
      reg32 ⟨"R2", by decide⟩, comma, reg32 ⟨"R3", by decide⟩] _ _ opSLoadrd rfl rfl
    refine ⟨_, _, rfl, rfl, not_forall.1 fun hsame => ?_⟩
    obtain ⟨hname, -⟩ := hiff.1 hsame
    exact absurd hname (by decide)

/-- `XCHGC R0,CR1` and `XCHGCIZ R0,CR1`. -/
theorem not_sameBut_xchgc :
    ¬ ∀ (o : Token) (rest : List Token) (c : Name conditionNames) (acts acts' : Action),
      exp (o :: rest) = some acts → exp (o :: condition c :: rest) = some acts' →
      ∀ t, SameBut (getCondForName c) (lineBytes t acts) (lineBytes t acts') := by
  intro h
  let rest : List Token := [space, reg32 ⟨"R0", by decide⟩, comma, creg ⟨"CR1", by decide⟩]
  have hsame := h opSXchgc rest ⟨"IZ", by decide⟩ _ _ rfl rfl fun _ => none
  have hname : "CR1" = "MR1" := (@expXchgc_sameBut_iff ⟨"IZ", by decide⟩ rest _ _ _ rfl rfl).1 hsame
  exact absurd hname (by decide)

end

end Assembler
