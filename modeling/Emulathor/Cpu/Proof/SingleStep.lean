import Emulathor.Cpu.Execute

/-!
# Single-stepping is running

`single_step`: `n` calls of `cpu_execute(ectx, 1)` do what the first `n` rounds of one call of
`cpu_execute(ectx, 0)` do. Each of them returns -1 as long as the long call runs on, and the call
whose round ends it returns its result, which is never -1: it is zero or the zero-extended immediate
of a `FAIL` (`cpuIteration_ret`).
-/

namespace Cpu

open Common Lib

/-- A call of `cpu_execute(ectx, 1)`: what it returns and the state it leaves. -/
def singleStep (ectx : EmulatorContext) : Except Fault (Int × EmulatorContext) := do
  match ← cpuExecute 1 ectx true with
  | some res => return res
  | none => return (-1, ectx) -- not reached

/-- `n` calls: what they return, in order, and the state they lead to. -/
def stepCalls : Nat → EmulatorContext → Except Fault (List Int × EmulatorContext)
  | 0, ectx => return ([], ectx)
  | n + 1, ectx => do
    let (r, ectx) ← singleStep ectx
    let (rs, ectx) ← stepCalls n ectx
    return (r :: rs, ectx)

section
variable {e s : EmulatorContext} {r : Int} {n : Nat}

/-! ## Return values -/

theorem executeIns_ret {ins : InstructionContext} (h : executeIns ins e = .ok (.ret r s)) :
    0 ≤ r := by
  have next {x : Except Fault EmulatorContext} : Flow.next <$> x ≠ .ok (.ret r s) := by
    cases x <;> simp
  unfold executeIns at h
  generalize Opcode.ofByte ins.opcode = op at h
  cases op with
  | none => cases h
  | some o =>
    cases o with
    | fail =>
      cases h
      exact Int.natCast_nonneg _
    | stop =>
      cases h
      exact Int.le_refl 0
    | cmpxchg | in_ | loadid | loadma | loadrd | out | storeid | storema | storerd =>
      exact absurd h next
    | _ => cases h

/-- A round that ends the loop does not return -1. -/
theorem cpuIteration_ret (h : cpuIteration e = .ok (.ret r s)) : r ≠ -1 := by
  obtain ⟨⟨ins, e1⟩, -, h⟩ := bind_eq_ok.1 h
  cases ins with
  | none => cases h
  | some ins =>
    have hr : 0 ≤ r := by
      simp only [dispatchIns] at h
      split at h
      · exact executeIns_ret h
      · cases h
    omega

/-! ## One call -/

theorem singleStep_next (h : cpuIteration e = .ok (.next s)) : singleStep e = .ok (-1, s) := by
  simp [singleStep, cpuExecute, h]

theorem singleStep_ret (h : cpuIteration e = .ok (.ret r s)) : singleStep e = .ok (r, s) := by
  simp [singleStep, cpuExecute, h]

theorem singleStep_error {i : Fault} (h : cpuIteration e = .error i) :
    singleStep e = .error i := by
  simp [singleStep, cpuExecute, h]

/-- A stepping call never gets to a second round. -/
theorem cpuExecute_step : cpuExecute (n + 1) e true = some <$> singleStep e := by
  cases h : cpuIteration e with
  | error i => simp [singleStep, cpuExecute, h]
  | ok f => cases f <;> simp [singleStep, cpuExecute, h]

/-- A running call returns when a round does. -/
theorem cpuExecute_run : cpuExecute n e false = (fun
    | .next _ => none
    | .ret r s => some (r, s)) <$> iterate cpuIteration n e := by
  induction n generalizing e with
  | zero => rfl
  | succ n ih =>
    cases h : cpuIteration e with
    | error i => simp [cpuExecute, iterate, h]
    | ok f =>
      cases f with
      | next s => simp [cpuExecute, iterate, h, ih]
      | ret r s => simp [cpuExecute, iterate, h]

theorem cpuExecute_none : cpuExecute n e false = .ok none ↔
    ∃ s, iterate cpuIteration n e = .ok (.next s) := by
  rw [cpuExecute_run]
  cases iterate cpuIteration n e with
  | error i => simp
  | ok f => cases f <;> simp

theorem cpuExecute_some : cpuExecute n e false = .ok (some (r, s)) ↔
    iterate cpuIteration n e = .ok (.ret r s) := by
  rw [cpuExecute_run]
  cases iterate cpuIteration n e with
  | error i => simp
  | ok f => cases f <;> simp

/-! ## Calls in sequence -/

theorem stepCalls_cons {rs : List Int} : stepCalls (n + 1) e = .ok (r :: rs, s) ↔
    ∃ m, singleStep e = .ok (r, m) ∧ stepCalls n m = .ok (rs, s) := by
  rw [stepCalls]
  constructor
  · intro h
    obtain ⟨⟨r', m⟩, hm, h⟩ := bind_eq_ok.1 h
    obtain ⟨⟨rs', s'⟩, hs, h⟩ := bind_eq_ok.1 h
    cases h
    exact ⟨m, hm, hs⟩
  · rintro ⟨m, hm, hs⟩
    simp [hm, hs]

/-- The last call taken apart. -/
theorem stepCalls_succ : stepCalls (n + 1) e = .ok (List.replicate n (-1) ++ [r], s) ↔
    ∃ m, stepCalls n e = .ok (List.replicate n (-1), m) ∧ singleStep m = .ok (r, s) := by
  induction n generalizing e with
  | zero =>
    rw [List.replicate_zero, List.nil_append, stepCalls_cons]
    simp [stepCalls]
  | succ n ih =>
    rw [List.replicate_succ, List.cons_append, stepCalls_cons]
    constructor
    · rintro ⟨m, hm, h⟩
      obtain ⟨m', hm', h⟩ := ih.1 h
      exact ⟨m', stepCalls_cons.2 ⟨m, hm, hm'⟩, h⟩
    · rintro ⟨m', hm', h⟩
      obtain ⟨m, hm, hm'⟩ := stepCalls_cons.1 hm'
      exact ⟨m, hm, ih.2 ⟨m', hm', h⟩⟩

/-- As long as the rounds go on, so do the calls, each returning -1. -/
theorem stepCalls_running : stepCalls n e = .ok (List.replicate n (-1), s) ↔
    iterate cpuIteration n e = .ok (.next s) := by
  induction n generalizing s with
  | zero => simp [stepCalls, iterate]
  | succ n ih =>
    rw [List.replicate_succ', stepCalls_succ, iterate_succ_next]
    simp only [ih]
    refine exists_congr fun m => and_congr_right fun _ => ⟨fun h => ?_, singleStep_next⟩
    cases hm : cpuIteration m with
    | error i =>
      rw [singleStep_error hm] at h
      cases h
    | ok f =>
      cases f with
      | next s' =>
        rw [singleStep_next hm] at h
        cases h
        rfl
      | ret r s' =>
        rw [singleStep_ret hm] at h
        cases h
        exact absurd rfl (cpuIteration_ret hm)

/-- The call whose round ends the loop returns its result. -/
theorem stepCalls_returned (hr : r ≠ -1) :
    stepCalls (n + 1) e = .ok (List.replicate n (-1) ++ [r], s) ↔
      ∃ m, iterate cpuIteration n e = .ok (.next m) ∧ cpuIteration m = .ok (.ret r s) := by
  simp only [stepCalls_succ, stepCalls_running]
  refine exists_congr fun m => and_congr_right fun _ => ⟨fun h => ?_, singleStep_ret⟩
  cases hm : cpuIteration m with
  | error i =>
    rw [singleStep_error hm] at h
    cases h
  | ok f =>
    cases f with
    | next s' =>
      rw [singleStep_next hm] at h
      cases h
      exact absurd rfl hr
    | ret r' s' =>
      rw [singleStep_ret hm] at h
      cases h
      rfl

/-! ## Both loops -/

/-- **Single-stepping is running.** The first `n` rounds of a running call go on exactly when `n`
stepping calls return -1, and lead to the same state; round `n + 1` of a running call returns `r`
exactly when the stepping call after `n` that return -1 does, and `r` is not -1. -/
theorem single_step (e : EmulatorContext) (n : Nat) :
    (∀ s, (cpuExecute n e false = .ok none ∧ iterate cpuIteration n e = .ok (.next s)) ↔
      stepCalls n e = .ok (List.replicate n (-1), s)) ∧
    ∀ r s, (cpuExecute n e false = .ok none ∧ cpuExecute (n + 1) e false = .ok (some (r, s))) ↔
      r ≠ -1 ∧ stepCalls (n + 1) e = .ok (List.replicate n (-1) ++ [r], s) := by
  constructor
  · intro s
    rw [stepCalls_running, cpuExecute_none]
    exact ⟨And.right, fun h => ⟨⟨s, h⟩, h⟩⟩
  · intro r s
    rw [cpuExecute_none, cpuExecute_some]
    constructor
    · rintro ⟨⟨m, hm⟩, h⟩
      rw [iterate_succ hm] at h
      exact ⟨cpuIteration_ret h, (stepCalls_returned (cpuIteration_ret h)).2 ⟨m, hm, h⟩⟩
    · rintro ⟨hr, h⟩
      obtain ⟨m, hm, h⟩ := (stepCalls_returned hr).1 h
      exact ⟨⟨m, hm⟩, by rw [iterate_succ hm, h]⟩

end

end Cpu
