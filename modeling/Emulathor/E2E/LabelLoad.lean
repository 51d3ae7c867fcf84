import Emulathor.Assembler.Proof.References
import Emulathor.Cpu.Proof.Loadi
import Emulathor.E2E.EncodeDecode

/-!
# Labels, from the reference to the register

`label_resolution`: a program of bytes, instructions, labels and references in a buffer large enough
for it assembles exactly when no label is defined twice and every referenced one is defined. Then
each reference's eight bytes decode to the `LOADI` pair of the label's address, all other bytes are
those emitted, and the pair, executed from the loaded image, leaves in the register the memory
address of the byte behind the label.
-/

namespace E2E

open Common Lib Cpu Assembler

/-- The instruction at index `i` of an image. -/
def insInImage (img : List Byte) (i : Nat) : InstructionContext :=
  decodeBytes (img.getD i 0) (img.getD (i + 1) 0) (img.getD (i + 2) 0) (img.getD (i + 3) 0)

/-- The address of a label in front of which `pre` stands: its position plus the offset there. -/
def labelAddress (pre : List Statement) : Dword :=
  BitVec.ofNat 32 (widthOf pre) + (cursorAfter start pre).offset

/-- The eight bytes at index `p` are the `LOADI` pair of `val` into the register's halves. -/
def ResolvesTo (img : List Byte) (p : Nat) (reg cond : Byte) (val : Dword) : Prop :=
  ∀ lo hi : Fin 16, lo.val = 2 * reg.toNat → hi.val = 2 * reg.toNat + 1 →
    LoadsWord (insInImage img p) cond lo (lwordFromDword val) ∧
      LoadsWord (insInImage img (p + 4)) cond hi (hwordFromDword val)

/-! ## Calls in the image -/

/-- The bytes of the call behind `pre`. -/
theorem image_at (t : String → Option Dword) (pre : List Statement) (s : Statement)
    (post : List Statement) (i : Nat) (hi : i < s.width) :
    ((pre ++ s :: post).flatMap (Statement.image t))[widthOf pre + i]? = (s.image t)[i]? := by
  rw [List.flatMap_append, List.flatMap_cons, ← image_length t pre,
    List.getElem?_append_right (Nat.le_add_right ..), Nat.add_sub_cancel_left,
    List.getElem?_append_left (by rw [s.image_length]; exact hi)]

/-- A `LOADI` emitted decodes as such. -/
theorem loadsWord_of_bytes {cond reg : Byte} {w : Word} {r : Fin 16} {b1 b2 b3 b4 : Byte}
    (hcond : cond.toNat < 16) (hr : r.val = reg.toNat)
    (hb : fmtIV pfxWord cond Opcode.loadi.code reg w = [b1, b2, b3, b4]) :
    LoadsWord (decodeBytes b1 b2 b3 b4) cond r w := by
  have hrange : InRange (.fmtIV pfxWord cond Opcode.loadi.code reg w) :=
    ⟨⟨by decide, hcond, by decide⟩, by omega⟩
  obtain ⟨⟨hp, hc, ho⟩, hd, hi⟩ := encodes_of_bytes hrange hb
  rw [← ofContext_decodeBytes] at hp hc ho hd hi
  refine ⟨ho, hp, hc, Fin.ext ?_, hi⟩
  have hdst : BitVec.ofNat 8 (decodeBytes b1 b2 b3 b4).dst.val = reg := hd
  have := congrArg BitVec.toNat hdst
  rw [BitVec.toNat_ofNat, Nat.mod_eq_of_lt (by omega)] at this
  omega

/-- The eight bytes of a reference. -/
theorem resolvesTo_of_image {img : List Byte} {p : Nat} {reg cond : Byte} {val : Dword}
    (hcond : cond.toNat < 16) (himg : ∀ i < 8, img[p + i]? = (loadiPair reg cond val)[i]?) :
    ResolvesTo img p reg cond val := by
  intro lo hi hlo hhi
  have hget (i : Nat) (h : i < 8) : img.getD (p + i) 0 = (loadiPair reg cond val).getD i 0 := by
    rw [List.getD_eq_getElem?_getD, himg i h, List.getD_eq_getElem?_getD]
  have hregs : (reg * 2).toNat = 2 * reg.toNat ∧ (reg * 2 + 1).toNat = 2 * reg.toNat + 1 := by
    rw [BitVec.toNat_add, BitVec.toNat_mul, show (2 : Byte).toNat = 2 from rfl,
      show (1 : Byte).toNat = 1 from rfl]
    omega
  constructor
  · refine loadsWord_of_bytes hcond (hlo.trans hregs.1.symm) ?_
    rw [show img.getD p 0 = _ from hget 0 (by decide), hget 1 (by decide), hget 2 (by decide),
      hget 3 (by decide)]
    rfl
  · refine loadsWord_of_bytes hcond (hhi.trans hregs.2.symm) ?_
    rw [show img.getD (p + 4) 0 = _ from hget 4 (by decide),
      show img.getD (p + 4 + 1) 0 = _ from hget 5 (by decide),
      show img.getD (p + 4 + 2) 0 = _ from hget 6 (by decide),
      show img.getD (p + 4 + 3) 0 = _ from hget 7 (by decide)]
    rfl

/-! ## The pair in memory -/

/-- The instructions of a loaded image, where memory has not changed. -/
theorem insAt_loaded {img : List Byte} {ectx e0 e : EmulatorContext} {p : Nat}
    (hload : emuLoadImg img ectx = .ok e0) (hp : p + 4 ≤ img.length)
    (hmem : ∀ i < 4, e.memory (BitVec.ofNat 32 (instructionsStartOffset + (p + i)))
      = e0.memory (BitVec.ofNat 32 (instructionsStartOffset + (p + i)))) :
    insAt e.memory (BitVec.ofNat 32 (instructionsStartOffset + p)) = insInImage img p := by
  have hbyte (i : Nat) (hi : i < 4) :
      e.memory (BitVec.ofNat 32 (instructionsStartOffset + p) + BitVec.ofNat 32 i)
        = img.getD (p + i) 0 := by
    rw [← BitVec.ofNat_add, Nat.add_assoc, hmem i hi, (emuLoadImg_ok hload).2 (p + i) (by omega),
      List.getD_eq_getElem?_getD, List.getElem?_eq_getElem (by omega)]
    rfl
  have h0 := hbyte 0 (by decide)
  rw [show BitVec.ofNat 32 (instructionsStartOffset + p) + BitVec.ofNat 32 0 = _ from
    BitVec.add_zero _] at h0
  rw [insAt, insInImage, h0]
  congr 1
  · exact hbyte 1 (by decide)
  · exact hbyte 2 (by decide)
  · exact hbyte 3 (by decide)

/-- A reference's pair, executed from the loaded image, leaves the value in the register. -/
theorem pair_loads {img : List Byte} {ectx e0 e : EmulatorContext} {p : Nat} {reg cond : Byte}
    {val : Dword} {n : Fin 16} (hload : emuLoadImg img ectx = .ok e0) (hp : p + 8 ≤ img.length)
    (hres : ResolvesTo img p reg cond val) (hreg : reg.toNat ≤ 7) (hn : n.val = reg.toNat)
    (hpos : e.pos = BitVec.ofNat 32 (instructionsStartOffset + p))
    (hsize : e.memorySize = e0.memorySize)
    (hmem : ∀ i < 8, e.memory (e.pos + BitVec.ofNat 32 i) = e0.memory (e.pos + BitVec.ofNat 32 i))
    (hc : condPasses cond (e.regs cpuRegFlgs)) :
    ∃ e', iterate cpuIteration 2 e = .ok (.next e') ∧ e'.regs n = val := by
  obtain ⟨hfit, -⟩ := emuLoadImg_ok hload
  have hlt := e0.memorySize.isLt
  have hmem' (i : Nat) (hi : i < 8) : e.memory (BitVec.ofNat 32 (instructionsStartOffset + (p + i)))
      = e0.memory (BitVec.ofNat 32 (instructionsStartOffset + (p + i))) := by
    rw [← Nat.add_assoc, BitVec.ofNat_add, ← hpos]
    exact hmem i hi
  obtain ⟨hlo, hhi⟩ := hres ⟨2 * reg.toNat, by omega⟩ ⟨2 * reg.toNat + 1, by omega⟩ rfl rfl
  have hin : e.InBlock e.pos 8 := by
    unfold EmulatorContext.InBlock
    rw [hpos, hsize, BitVec.toNat_ofNat, Nat.mod_eq_of_lt (by omega)]
    omega
  have hpos4 : e.pos + 4 = BitVec.ofNat 32 (instructionsStartOffset + (p + 4)) := by
    rw [hpos, ← Nat.add_assoc, BitVec.ofNat_add _ 4]
    rfl
  rw [← insAt_loaded (e := e) hload (by omega) fun i hi => hmem' i (by omega), ← hpos] at hlo
  have h4 (i : Nat) (hi : i < 4) :
      e.memory (BitVec.ofNat 32 (instructionsStartOffset + (p + 4 + i)))
        = e0.memory (BitVec.ofNat 32 (instructionsStartOffset + (p + 4 + i))) := by
    rw [Nat.add_assoc p]
    exact hmem' (4 + i) (by omega)
  rw [← insAt_loaded (e := e) hload (by omega) h4, ← hpos4] at hhi
  have hflgs : n ≠ cpuRegFlgs := by
    rintro rfl
    have : cpuRegFlgs.val = 15 := rfl
    omega
  obtain ⟨e', hrun, hregs, -⟩ :=
    loadi_pair (n := n) (by simp only [hn]) (by simp only [hn]) hflgs hin hlo hhi hc
  exact ⟨e', hrun, by rw [hregs, Function.update_self]⟩

/-! ## Programs -/

/-- Without `.offset` the default is in force. -/
theorem cursorAfter_offset : ∀ {pre : List Statement} {k : Cursor}, (∀ o, .offset o ∉ pre) →
    (cursorAfter k pre).offset = k.offset
  | [], _, _ => rfl
  | s :: pre, k, h => by
    show (cursorAfter (s.next k) pre).offset = _
    rw [cursorAfter_offset fun o hm => h o (.tail _ hm)]
    cases s with
    | offset o => exact absurd (.head _) (h o)
    | _ => rfl

theorem labelAddress_default {pre : List Statement} (h : ∀ o, .offset o ∉ pre) :
    labelAddress pre = BitVec.ofNat 32 (instructionsStartOffset + widthOf pre) := by
  rw [labelAddress, cursorAfter_offset h, Nat.add_comm, BitVec.ofNat_add]
  rfl

section
variable {ss : List Statement} {size : Dword} {fixedSize : Bool} {heap : Nat → Byte}

/-- **The labels** alone decide whether a straight program that fits assembles. -/
theorem assemble_aborts_iff (hs : ∀ s ∈ ss, s.Straight)
    (hfit : widthOf ss ≤ (bufferSize size fixedSize).toNat) :
    (∃ msg, assemble size fixedSize heap ss = .error (.yyerror msg)) ↔
      ¬ (labelNames ss).Nodup ∨ ∃ name ∈ refNames ss, name ∉ labelNames ss := by
  have hres : ¬ Resolvable ss ↔
      ¬ (labelNames ss).Nodup ∨ ∃ name ∈ refNames ss, name ∉ labelNames ss := by
    rw [Resolvable, not_and_or]
    simp only [not_forall, exists_prop]
  rcases @assemble_straight size fixedSize heap ss hs hfit with ⟨hr, himg⟩ | ⟨hr, herr⟩
  · rw [← hres, himg]
    refine iff_of_false ?_ (not_not_intro hr)
    rintro ⟨msg, h⟩
    cases h
  · exact iff_of_true herr (hres.1 hr)

/-- The image of a straight program that assembles, call by call. -/
theorem image_calls (hs : ∀ s ∈ ss, s.Straight) (hrefs : RefsInRange ss) (hr : Resolvable ss) :
    (∀ pre c post, ss = pre ++ .call c :: post → c.bytes ≠ [] → ∀ i < c.width,
      (ss.flatMap (Statement.image (labelTable ss)))[widthOf pre + i]? = c.bytes[i]?) ∧
    ∀ pre name reg cond post dpre dpost, ss = pre ++ .call (.labelRef name reg cond) :: post →
      ss = dpre ++ .label name :: dpost →
      ResolvesTo (ss.flatMap (Statement.image (labelTable ss))) (widthOf pre) reg cond
        (labelAddress dpre) := by
  constructor
  · rintro pre c post hss hc i hi
    have himage : c.image (labelTable ss) = c.bytes := by
      cases c with
      | labelRef name reg cond => exact absurd rfl hc
      | _ => rfl
    rw [← himage]
    have := image_at (labelTable ss) pre (.call c) post i hi
    rwa [← hss] at this
  · intro pre name reg cond post dpre dpost hss hdef
    have hslot : Statement.RefInRange (.call (.labelRef name reg cond)) :=
      hrefs _ (hss ▸ List.mem_append_right _ (.head _))
    have hval : labelTable ss name = some (labelAddress dpre) := by
      rw [hdef]
      exact labelTable_eq (fun s hm => hs s (hdef ▸ List.mem_append_left _ hm)) (hdef ▸ hr.1)
    refine resolvesTo_of_image hslot.2 fun i hi => ?_
    have := image_at (labelTable ss) pre (.call (.labelRef name reg cond)) post i hi
    rw [← hss] at this
    rw [this, Statement.image, EmitCall.image, hval]
    rfl

/-- **Label resolution**, for a program of bytes, instructions, labels, references and offsets. -/
theorem label_resolution {lines : List (List Token)} (hparse : exps lines = some ss)
    (hs : ∀ s ∈ ss, s.Straight) (hfit : widthOf ss ≤ (bufferSize size fixedSize).toNat) :
    ((∃ msg, assemble size fixedSize heap ss = .error (.yyerror msg)) ↔
      ¬ (labelNames ss).Nodup ∨ ∃ name ∈ refNames ss, name ∉ labelNames ss) ∧
    (Resolvable ss → ∃ img, assemble size fixedSize heap ss = .ok img ∧ img.length = widthOf ss ∧
      -- every byte outside the reserved slots
      (∀ pre c post, ss = pre ++ .call c :: post → c.bytes ≠ [] → ∀ i < c.width,
        img[widthOf pre + i]? = c.bytes[i]?) ∧
      -- every slot
      ∀ pre name reg cond post dpre dpost, ss = pre ++ .call (.labelRef name reg cond) :: post →
        ss = dpre ++ .label name :: dpost →
        ResolvesTo img (widthOf pre) reg cond (labelAddress dpre) ∧
        -- and what it does when executed
        ((∀ o, .offset o ∉ dpre) → ∀ ectx e0 e, emuLoadImg img ectx = .ok e0 →
          e.pos = BitVec.ofNat 32 (instructionsStartOffset + widthOf pre) →
          e.memorySize = e0.memorySize →
          (∀ i < 8, e.memory (e.pos + BitVec.ofNat 32 i) = e0.memory (e.pos + BitVec.ofNat 32 i)) →
          condPasses cond (e.regs cpuRegFlgs) → ∀ n : Fin 16, n.val = reg.toNat →
          ∃ e', iterate cpuIteration 2 e = .ok (.next e') ∧
            (e'.regs n).toNat = instructionsStartOffset + widthOf dpre ∧
            ∀ b, img[widthOf dpre]? = some b → e0.memory (e'.regs n) = b)) := by
  have hrefs := exps_refs hparse hs
  refine ⟨assemble_aborts_iff hs hfit, fun hr => ?_⟩
  obtain ⟨hcalls, hslots⟩ := image_calls hs hrefs hr
  rcases @assemble_straight size fixedSize heap ss hs hfit with ⟨-, himg⟩ | ⟨hnot, -⟩
  swap
  · exact absurd hr hnot
  have hlen : (ss.flatMap (Statement.image (labelTable ss))).length = widthOf ss := image_length _ ss
  refine ⟨_, himg, hlen, hcalls, ?_⟩
  intro pre name reg cond post dpre dpost hss hdef
  have hres := hslots pre name reg cond post dpre dpost hss hdef
  refine ⟨hres, fun hno ectx e0 e hload hpos hsize hmem hc n hn => ?_⟩
  obtain ⟨hreg, -⟩ : Statement.RefInRange (.call (.labelRef name reg cond)) :=
    hrefs _ (hss ▸ List.mem_append_right _ (.head _))
  have hp : widthOf pre + 8 ≤ (ss.flatMap (Statement.image (labelTable ss))).length := by
    rw [hlen, hss, widthOf_append, widthOf_cons]
    show widthOf pre + 8 ≤ widthOf pre + (8 + widthOf post)
    omega
  obtain ⟨e', hrun, hval⟩ := pair_loads hload hp hres hreg hn hpos hsize hmem hc
  obtain ⟨hfits, hbytes⟩ := emuLoadImg_ok hload
  have hd : widthOf dpre ≤ widthOf ss := by
    rw [hdef, widthOf_append]
    omega
  have hlt := e0.memorySize.isLt
  rw [labelAddress_default hno] at hval
  refine ⟨e', hrun, ?_, fun b hb => ?_⟩
  · rw [hval, BitVec.toNat_ofNat, Nat.mod_eq_of_lt (by omega)]
  · obtain ⟨hi, rfl⟩ := List.getElem?_eq_some_iff.1 hb
    rw [hval]
    exact hbytes _ hi

end

/-- `LOADADR R1,_X`, the label `_X` and the byte behind it. -/
def loadadrLines : List (List Token) :=
  [[.opPseudoLoadadr, .space, .reg32 nameR1, .comma, .ident "_X"], [.endl],
    [.directiveLabel, .ident "_X"], [.endl], [.directiveByte, .int 0x2A]]

theorem label_resolution_loadadr :
    ∃ ss img, exps loadadrLines = some ss ∧ assemble 16 true (fun _ => 0) ss = .ok img ∧
      ResolvesTo img 0 1 cAlways 0x1008 ∧
      ∀ ectx e0, emuLoadImg img ectx = .ok e0 → e0.pos = 0x1000 →
        ∃ e', iterate cpuIteration 2 e0 = .ok (.next e') ∧ (e'.regs 1).toNat = 0x1008 := by
  let pre : List Statement := [.call (.labelRef "_X" 1 cAlways)]
  let post : List Statement := [.label "_X", .call (.byte 0x2A)]
  obtain ⟨-, h⟩ := @label_resolution (pre ++ post) 16 true (fun _ => 0) loadadrLines rfl
    (by decide) (by decide)
  obtain ⟨img, himg, -, -, hslots⟩ := h (by decide)
  obtain ⟨hres, hexec⟩ :=
    hslots [] "_X" 1 cAlways post pre [.call (.byte 0x2A)] rfl rfl
  refine ⟨_, img, rfl, himg, hres, fun ectx e0 hload hpos => ?_⟩
  obtain ⟨e', hrun, hreg, -⟩ := hexec (by simp [pre]) ectx e0 e0 hload hpos rfl (fun _ _ => rfl) rfl 1 rfl
  exact ⟨e', hrun, hreg⟩

end E2E
