import Emulathor.Lib.Mem
import Emulathor.Disassembler.Vdis

/-!
# Disassembling an image

The loop of vdis steps by four bytes and reads four, whatever is left of the image; and its position
has 32 bits. `vdis_iff`: it ends, reads the image only and disassembles each of its instructions once,
in order, exactly when the image consists of instructions and is shorter than 2^32.
-/

namespace Disassembler

open Common Lib

/-- The loop ends; it has passed on bytes of the image only, and each complete group of four bytes
once, in order. -/
def Disassembles (contents : List Byte) : Prop :=
  ∃ k s, iterate (vdisIteration contents) k vdisInit = .ok (.ret () s) ∧
    (∀ pos ∈ s.calls, ∀ i < 4, pos.toNat + i < contents.length) ∧
    (s.calls.filter fun pos => pos.toNat + 4 ≤ contents.length).map BitVec.toNat
      = (List.range (contents.length / 4)).map (4 * ·) ∧
    s.calls.mapM (disasmAt contents) = .ok s.file

section
variable {contents : List Byte}

/-! ## One round -/

theorem filedata_ok {i : Nat} (h : i < contents.length) : filedata contents i = .ok contents[i] := by
  unfold filedata
  rw [List.getElem?_append_left h, List.getElem?_eq_getElem h]

/-- A call inside the image. -/
theorem disasmAt_ok {pos : Dword} (h : pos.toNat + 4 ≤ contents.length) :
    ∃ line, disasmAt contents pos = .ok line := by
  unfold disasmAt
  rw [filedata_ok (show pos.toNat < contents.length by omega),
    filedata_ok (show pos.toNat + 1 < contents.length by omega),
    filedata_ok (show pos.toNat + 2 < contents.length by omega),
    filedata_ok (show pos.toNat + 3 < contents.length by omega)]
  exact ⟨_, rfl⟩

/-- A round that does not return makes a call. -/
theorem vdisIteration_next {s s' : VdisState} (h : vdisIteration contents s = .ok (.next s')) :
    s'.calls = s.calls ++ [s.pos] := by
  unfold vdisIteration at h
  split at h
  · obtain ⟨line, -, h⟩ := bind_eq_ok.1 h
    cases h
    rfl
  · cases h

theorem vdisIteration_ret {s s' : VdisState} (h : vdisIteration contents s = .ok (.ret () s')) :
    contents.length ≤ s.pos.toNat ∧ s' = s := by
  unfold vdisIteration at h
  split at h
  · obtain ⟨line, -, h⟩ := bind_eq_ok.1 h
    cases h
  · cases h
    exact ⟨by omega, rfl⟩

/-- The calls made stay on record. -/
theorem mem_calls {pos : Dword} {k : Nat} {s : VdisState} {f : Flow VdisState Unit}
    (hs : pos ∈ s.calls) (h : iterate (vdisIteration contents) k s = .ok f) :
    pos ∈ f.state.calls := by
  refine iterate_inv (I := fun s => pos ∈ s.calls) (fun s f hs hf => ?_) hs h
  cases f with
  | next s' =>
    show pos ∈ s'.calls
    rw [vdisIteration_next hf]
    exact List.mem_append_left _ hs
  | ret r s' =>
    obtain ⟨-, rfl⟩ := vdisIteration_ret hf
    exact hs

/-! ## The loop -/

/-- The state after `k` rounds inside the image. -/
structure AfterRounds (contents : List Byte) (k : Nat) (s : VdisState) : Prop where
  pos : s.pos.toNat = 4 * k
  calls : s.calls.map BitVec.toNat = (List.range k).map (4 * ·)
  file : s.calls.mapM (disasmAt contents) = .ok s.file

theorem afterRounds_init : AfterRounds contents 0 vdisInit := ⟨rfl, rfl, rfl⟩

theorem AfterRounds.step {k : Nat} {s : VdisState} (h : AfterRounds contents k s)
    (hin : 4 * k + 4 ≤ contents.length) (hlt : 4 * k + 4 < 2 ^ 32) :
    ∃ s', vdisIteration contents s = .ok (.next s') ∧ AfterRounds contents (k + 1) s' := by
  have hpos := h.pos
  obtain ⟨line, hline⟩ := disasmAt_ok (show s.pos.toNat + 4 ≤ contents.length by omega)
  refine ⟨{ pos := s.pos + 4, calls := s.calls ++ [s.pos], file := s.file ++ [line] }, ?_, ?_, ?_, ?_⟩
  · rw [vdisIteration, if_pos (by omega), hline]
    rfl
  · show (s.pos + BitVec.ofNat 32 4).toNat = _
    rw [toNat_add_ofNat (by omega), hpos]
    rfl
  · rw [List.map_append, h.calls, List.range_succ, List.map_append, List.map_singleton, hpos]
    rfl
  · rw [List.mapM_append, h.file, ok_bind, List.mapM_cons, hline]
    rfl

/-- **Rounds inside the image.** -/
theorem iterate_vdis : ∀ {k : Nat}, 4 * k ≤ contents.length → 4 * k < 2 ^ 32 →
    ∃ s, iterate (vdisIteration contents) k vdisInit = .ok (.next s) ∧ AfterRounds contents k s
  | 0, _, _ => ⟨vdisInit, rfl, afterRounds_init⟩
  | k + 1, hin, hlt => by
    obtain ⟨s, hrun, hs⟩ := iterate_vdis (k := k) (by omega) (by omega)
    obtain ⟨s', hstep, hs'⟩ := hs.step (by omega) (by omega)
    exact ⟨s', iterate_succ_next.2 ⟨s, hrun, hstep⟩, hs'⟩

/-- An image of instructions, shorter than 2^32. -/
theorem disassembles_of_dvd (hdvd : contents.length % 4 = 0) (hlt : contents.length < 2 ^ 32) :
    Disassembles contents := by
  obtain ⟨s, hrun, hs⟩ := iterate_vdis (show 4 * (contents.length / 4) ≤ contents.length by omega)
    (by omega)
  have hend : vdisIteration contents s = .ok (.ret () s) := by
    have hpos := hs.pos
    exact if_neg (by omega)
  have hcalls : ∀ pos ∈ s.calls, pos.toNat + 4 ≤ contents.length := by
    intro pos hpos
    have hmem : pos.toNat ∈ (List.range (contents.length / 4)).map (4 * ·) :=
      hs.calls ▸ List.mem_map_of_mem hpos
    obtain ⟨j, hj, heq⟩ := List.mem_map.1 hmem
    have := List.mem_range.1 hj
    omega
  refine ⟨contents.length / 4 + 1, s, ?_, fun pos hpos i hi => ?_, ?_, hs.file⟩
  · rw [iterate_succ hrun, hend]
  · have := hcalls pos hpos
    omega
  · rw [List.filter_eq_self.2 fun pos hpos => decide_eq_true (hcalls pos hpos), hs.calls]

/-- What is behind the last group is passed on with it, and a position of 32 bits does not reach the
end of a longer image. -/
theorem Disassembles.dvd (h : Disassembles contents) :
    contents.length % 4 = 0 ∧ contents.length < 2 ^ 32 := by
  obtain ⟨n, s, hrun, hinside, -⟩ := h
  obtain ⟨m, -, s1, hrun1, hret⟩ := exists_of_iterate_ret hrun
  have hend := (vdisIteration_ret hret).1
  have hlt : contents.length < 2 ^ 32 := Nat.lt_of_le_of_lt hend s1.pos.isLt
  refine ⟨?_, hlt⟩
  by_contra hmod
  obtain ⟨sk, hrunk, hsk⟩ := iterate_vdis (show 4 * (contents.length / 4) ≤ contents.length by omega)
    (by omega)
  have hpos := hsk.pos
  by_cases hn : n ≤ contents.length / 4
  · obtain ⟨sn, hrunn, -⟩ := iterate_vdis (show 4 * n ≤ contents.length by omega) (by omega)
    rw [hrunn] at hrun
    cases hrun
  · -- the round behind the last group calls with what is left
    obtain ⟨j, rfl⟩ : ∃ j, n = contents.length / 4 + (j + 1) :=
      ⟨n - contents.length / 4 - 1, by omega⟩
    rw [iterate_add hrunk] at hrun
    obtain ⟨f, hstep, hrest⟩ := bind_eq_ok.1 hrun
    cases f with
    | ret r s' =>
      have := (vdisIteration_ret hstep).1
      omega
    | next s' =>
      have hcall : sk.pos ∈ s'.calls := by
        rw [vdisIteration_next hstep]
        exact List.mem_append_right _ (.head _)
      have := hinside sk.pos (mem_calls hcall hrest) 3 (by omega)
      omega

end

/-- **vdis** disassembles an image, and reads nothing else, exactly when it consists of instructions
and its length has 32 bits. -/
theorem vdis_iff (contents : List Byte) :
    Disassembles contents ↔ contents.length % 4 = 0 ∧ contents.length < 2 ^ 32 :=
  ⟨Disassembles.dvd, fun h => disassembles_of_dvd h.1 h.2⟩

/-- An image of a single byte. -/
theorem not_disassembles_byte : ¬ ∀ contents : List Byte, Disassembles contents := by
  intro h
  have := (h [0x2A]).dvd.1
  cases this

end Disassembler
