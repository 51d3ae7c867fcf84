import Mathlib.Data.List.MinMax
import Mathlib.Order.Nat
import Emulathor.Assembler.Image
import Emulathor.Lib.Overlay

/-!
# The layout of a program

What a list of statements is meant to lay out, read off it without a context: at which position each
byte is emitted, where label references reserve room, what address each label gets, how far the
program reaches. A `Cursor` is the position and offset a statement stands at; `along` collects what
the statements give at their cursors.
-/

namespace Assembler

open Common Lib

structure Cursor where
  pos : Nat
  offset : Dword

/-- The reference a call records at position `pos`. -/
def EmitCall.refs (pos : Dword) : EmitCall → List LabelRef
  | .labelRef name reg cond => [{ name, pos, reg, cond }]
  | _ => []

namespace Statement

variable (k : Cursor)

/-- The cursor of the next statement. -/
def next : Statement → Cursor
  | call c => { k with pos := k.pos + c.width }
  | at_ pos => { k with pos := pos.toNat }
  | offset o => { k with offset := o }
  | label _ | align _ _ | yyerror _ => k

/-- The bytes emitted, with their position. -/
def writes : Statement → List (Nat × List Byte)
  | call c => [(k.pos, c.bytes)]
  | _ => []

/-- The label references. -/
def refs : Statement → List LabelRef
  | call c => c.refs (BitVec.ofNat 32 k.pos)
  | _ => []

/-- The labels defined, with their address. -/
def defs : Statement → List (String × Dword)
  | label name => [(name, BitVec.ofNat 32 k.pos + k.offset)]
  | _ => []

/-- The positions behind emissions and reservations. -/
def ends : Statement → List Nat
  | call c => [k.pos + c.width]
  | _ => []

end Statement

/-- What `f` gives for each statement at its cursor. -/
def along {α : Type} (f : Cursor → Statement → List α) : Cursor → List Statement → List α
  | _, [] => []
  | k, s :: ss => f k s ++ along f (s.next k) ss

/-- The largest position reached by an emission or reservation. -/
def reach (k : Cursor) (ss : List Statement) : Nat := (along Statement.ends k ss).foldr max 0

/-- A label table with further definitions. -/
def defineAll (t : String → Option Dword) : List (String × Dword) → String → Option Dword
  | [] => t
  | d :: ds => defineAll (Function.update t d.1 (some d.2)) ds

/-- What a label reference becomes: `LOADI` of the low and of the high word of `val`. -/
def loadiPair (reg cond : Byte) (val : Dword) : List Byte :=
  fmtIV pfxWord cond Opcode.loadi.code (reg * 2) (lwordFromDword val)
    ++ fmtIV pfxWord cond Opcode.loadi.code (reg * 2 + 1) (hwordFromDword val)

/-- The write that resolves a reference under the label table `t`. -/
def resolvedWrite (t : String → Option Dword) (lr : LabelRef) : Nat × List Byte :=
  (lr.pos.toNat, loadiPair lr.reg lr.cond ((t lr.name).getD 0))

/-- The byte the layout has at position `i`: of the last reference reserving it, else of the last
emission there, else `old`. -/
def laidByte (k : Cursor) (t : String → Option Dword) (ss : List Statement) (old : Byte) (i : Nat) :
    Byte :=
  let t' := defineAll t (along Statement.defs k ss)
  (lastWriter ((along Statement.refs k ss).map (resolvedWrite t')) i).getD
    ((lastWriter (along Statement.writes k ss) i).getD old)

/-! ## Along a program -/

section
variable {k : Cursor} {ss : List Statement}

theorem le_reach {n : Nat} (h : n ∈ along Statement.ends k ss) : n ≤ reach k ss :=
  List.le_max_of_le' 0 h (Nat.le_refl n)

theorem reach_le {b : Nat} (h : ∀ n ∈ along Statement.ends k ss, n ≤ b) : reach k ss ≤ b :=
  List.max_le_of_forall_le _ b h

theorem reach_cons (s : Statement) :
    reach k (s :: ss) = max (reach k [s]) (reach (s.next k) ss) := by
  refine Nat.le_antisymm (reach_le fun n hn => ?_) (Nat.max_le.2 ⟨reach_le fun n hn => ?_,
    reach_le fun n hn => le_reach (List.mem_append_right _ hn)⟩)
  · rcases List.mem_append.1 hn with hn | hn
    · exact Nat.le_trans (le_reach (List.mem_append_left _ hn)) (Nat.le_max_left ..)
    · exact Nat.le_trans (le_reach hn) (Nat.le_max_right ..)
  · rw [along, along, List.append_nil] at hn
    exact le_reach (List.mem_append_left _ hn)

/-- A reference is recorded where it reserves eight bytes. -/
theorem refs_ends {lr : LabelRef} (h : lr ∈ along Statement.refs k ss) :
    ∃ p, lr.pos = BitVec.ofNat 32 p ∧ p + 8 ∈ along Statement.ends k ss := by
  induction ss generalizing k with
  | nil => cases h
  | cons s ss ih =>
    rcases List.mem_append.1 h with h | h
    · cases s with
      | call c =>
        cases c with
        | labelRef name reg cond =>
          obtain rfl := List.mem_singleton.1 h
          exact ⟨k.pos, rfl, .head _⟩
        | _ => cases h
      | _ => cases h
    · obtain ⟨p, hp, hend⟩ := ih h
      exact ⟨p, hp, List.mem_append_right _ hend⟩

theorem defineAll_append (t : String → Option Dword) (ds es : List (String × Dword)) :
    defineAll t (ds ++ es) = defineAll (defineAll t ds) es := by
  induction ds generalizing t with
  | nil => rfl
  | cons d ds ih => exact ih _

end

end Assembler
