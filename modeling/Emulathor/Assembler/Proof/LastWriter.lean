import Emulathor.Assembler.Proof.Layout

/-!
# The image is the last-writer map

`assemble_lastWriter`: on a fixed buffer, as long as no request reaches beyond 2^32, the assembler
aborts or writes a file as long as the program reaches whose bytes are those of the layout: of the
last label reference reserving the index, else of the last emission there, else zero.
-/

namespace Assembler

open Common Lib

/-- The cursor `main` starts at: the default offset. -/
def start : Cursor := { pos := 0, offset := 4096 }

/-- No position plus request width exceeds 2^32. -/
def NoWrap (ss : List Statement) : Prop := ∀ n ∈ along Statement.ends start ss, n ≤ 2 ^ 32

instance (ss : List Statement) : Decidable (NoWrap ss) := inferInstanceAs (Decidable (∀ _ ∈ _, _))

/-- The calls of an accepted program fit. -/
theorem AllAccepted.ends_le {size : Nat} : ∀ {ss : List Statement} {k : Cursor}
    {t : String → Option Dword}, AllAccepted size k t ss →
    ∀ n ∈ along Statement.ends k ss, n ≤ size
  | [], _, _, _, n, hn => by cases hn
  | s :: ss, k, t, ⟨ha, hall⟩, n, hn => by
    rcases List.mem_append.1 hn with hn | hn
    · cases s with
      | call c =>
        obtain rfl := List.mem_singleton.1 hn
        exact ha
      | _ => cases hn
    · exact hall.ends_le n hn

/-- **The last-writer map.** -/
theorem assemble_lastWriter (size : Dword) (heap : Nat → Byte) {ss : List Statement}
    (hs : ∀ s ∈ ss, s.NoAlign) (hw : NoWrap ss) :
    (∃ msg, assemble size true heap ss = .error (.yyerror msg)) ∨
    ∃ img, assemble size true heap ss = .ok img ∧ img.length = reach start ss ∧
      ∀ i, i < img.length → img[i]? = some (laidByte start (fun _ => none) ss 0 i) := by
  have hsz : Sized { emitCreateContext size true heap with offset := 4096 } :=
    ⟨rfl, Nat.zero_le _⟩
  rcases imageOf_laid hsz ⟨rfl, rfl⟩ ⟨rfl, rfl⟩ hs hw with ⟨⟨hall, -⟩, img, himg, hlen, hbytes⟩ | ⟨-, h⟩
  · refine .inr ⟨img, himg, hlen, fun i hi => ?_⟩
    rw [hlen] at hi
    -- within the buffer, which starts out zero
    have hi' : i < size.toNat := Nat.lt_of_lt_of_le hi (reach_le hall.ends_le)
    rw [hbytes i hi]
    simp only [emitCreateContext, if_pos hi']
  · exact .inl h

/-- A backward move over an instruction and a reference to a label defined behind both. -/
def overwritten : List Statement :=
  [.call (.labelRef "_END" 0x01 Cond.always.code), .call (.fmtI pfxDword Cond.always.code 0x01),
    .at_ 6, .call (.byte 0x2A), .at_ 9, .call (.byte 0x2B), .at_ 14, .label "_END"]

/-- The two loads of the label are whole, and the instruction has lost its second byte. -/
theorem assemble_lastWriter_overwritten :
    assemble 16 true (fun _ => 0) overwritten
      = .ok [0x46, 0x02, 0x0E, 0x10, 0x46, 0x03, 0x00, 0x00, 0x01, 0x2B, 0x00, 0x00] := by
  rcases @assemble_lastWriter 16 (fun _ => 0) overwritten (by decide) (by decide) with
    ⟨msg, hmsg⟩ | ⟨img, himg, hlen, hbytes⟩
  · cases hmsg
  have hreach : reach start overwritten = 12 := by decide
  rw [hreach] at hlen
  rw [himg]
  refine congrArg Except.ok (List.ext_getElem? fun i => ?_)
  by_cases hi : i < 12
  · rw [hbytes i (by omega)]
    revert i
    decide
  · rw [List.getElem?_eq_none (by omega), List.getElem?_eq_none (by simpa using hi)]

end Assembler
