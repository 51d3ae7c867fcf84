import Mathlib.Data.List.GetD
import Emulathor.Lib.Mem

/-!
# Writes and their last writer

A write is a position and the cells written from there up; `overlayAll f ws` makes the writes `ws`
on `f`, in order. What a position holds afterwards is what the last write over it put there
(`overlayAll_apply`, `lastWriter`).
-/

namespace Lib

variable {β : Type}

/-- `bs` laid over `f` from `p` up. -/
def overlay (f : Nat → β) (p : Nat) (bs : List β) : Nat → β :=
  fun i => if p ≤ i then bs.getD (i - p) (f i) else f i

theorem overlay_nil (f : Nat → β) (p : Nat) : overlay f p [] = f := by
  funext i
  simp [overlay]

/-- The first cell of a write taken off. -/
theorem overlay_cons (f : Nat → β) (p : Nat) (b : β) (bs : List β) :
    overlay (Function.update f p b) (p + 1) bs = overlay f p (b :: bs) := by
  funext i
  unfold overlay
  rcases Nat.lt_trichotomy i p with h | rfl | h
  · rw [if_neg (by omega), if_neg (by omega), Function.update_of_ne (by omega)]
  · rw [if_neg (by omega), if_pos (Nat.le_refl _), Function.update_self, Nat.sub_self]
    rfl
  · obtain ⟨k, rfl⟩ : ∃ k, i = p + (k + 1) := ⟨i - p - 1, by omega⟩
    rw [if_pos (by omega), if_pos (by omega), Function.update_of_ne (by omega),
      show p + (k + 1) - (p + 1) = k by omega, show p + (k + 1) - p = k + 1 by omega]
    rfl

theorem overlay_in {f : Nat → β} {p k : Nat} {bs : List β} (hk : k < bs.length) :
    overlay f p bs (p + k) = bs[k] := by
  rw [overlay, if_pos (by omega), Nat.add_sub_cancel_left, List.getD_eq_getElem _ _ hk]

theorem overlay_out {f : Nat → β} {p i : Nat} {bs : List β} (hi : i < p ∨ p + bs.length ≤ i) :
    overlay f p bs i = f i := by
  unfold overlay
  split
  · exact List.getD_eq_default _ _ (by omega)
  · rfl

/-- Two writes side by side are one. -/
theorem overlay_overlay (f : Nat → β) (p : Nat) (as bs : List β) :
    overlay (overlay f p as) (p + as.length) bs = overlay f p (as ++ bs) := by
  induction as generalizing f p with
  | nil => simp [overlay_nil]
  | cons a as ih =>
    rw [List.length_cons, show p + (as.length + 1) = p + 1 + as.length by omega, ← overlay_cons,
      ih, overlay_cons]
    rfl

/-- A write to a memory, by the numbers of its addresses. -/
theorem writeN_overlay {w : Nat} {m : BitVec w → β} {a : BitVec w} {bs : List β}
    (h : a.toNat + bs.length ≤ 2 ^ w) (i : BitVec w) :
    writeN m a bs i = overlay (fun k => m (BitVec.ofNat w k)) a.toNat bs i.toNat := by
  by_cases hi : InSpan a bs.length i
  · obtain ⟨k, hk⟩ : ∃ k, i.toNat = a.toNat + k := ⟨i.toNat - a.toNat, by have := hi.1; omega⟩
    have hlt : k < bs.length := by have := hi.2; omega
    have hadd : i = a + BitVec.ofNat w k := by
      apply BitVec.eq_of_toNat_eq
      rw [toNat_add_ofNat (by omega), hk]
    rw [hk, overlay_in hlt, hadd, writeN_get h hlt]
  · rw [writeN_outside h hi, overlay_out]
    · simp only [BitVec.ofNat_toNat, BitVec.setWidth_eq]
    · unfold InSpan at hi
      omega

/-- The `n` cells from `p` up. -/
def slice (f : Nat → β) (p n : Nat) : List β := (List.range n).map fun k => f (p + k)

@[simp] theorem slice_length (f : Nat → β) (p n : Nat) : (slice f p n).length = n := by
  simp [slice]

theorem slice_congr {f g : Nat → β} {p q n : Nat} (h : ∀ k < n, f (p + k) = g (q + k)) :
    slice f p n = slice g q n := by
  simp only [slice, List.map_inj_left, List.mem_range]
  exact h

/-! ## The last writer -/

/-- What the write puts at position `i`. -/
def cell (w : Nat × List β) (i : Nat) : Option β := if w.1 ≤ i then w.2[i - w.1]? else none

/-- What the last of the writes over position `i` puts there. -/
def lastWriter : List (Nat × List β) → Nat → Option β
  | [], _ => none
  | w :: ws, i => (lastWriter ws i).or (cell w i)

def overlayAll (f : Nat → β) : List (Nat × List β) → Nat → β
  | [] => f
  | w :: ws => overlayAll (overlay f w.1 w.2) ws

theorem overlay_eq_cell (f : Nat → β) (w : Nat × List β) (i : Nat) :
    overlay f w.1 w.2 i = (cell w i).getD (f i) := by
  unfold overlay cell
  split <;> simp [List.getD]

/-- **After the writes every position holds what its last writer put there.** -/
theorem overlayAll_apply : ∀ (ws : List (Nat × List β)) (f : Nat → β) (i : Nat),
    overlayAll f ws i = (lastWriter ws i).getD (f i)
  | [], _, _ => rfl
  | w :: ws, f, i => by
    rw [overlayAll, overlayAll_apply ws, overlay_eq_cell, lastWriter]
    cases lastWriter ws i with
    | none => rfl
    | some b => rfl

theorem overlayAll_append (f : Nat → β) (ws vs : List (Nat × List β)) :
    overlayAll f (ws ++ vs) = overlayAll (overlayAll f ws) vs := by
  induction ws generalizing f with
  | nil => rfl
  | cons w ws ih => exact ih _

end Lib
