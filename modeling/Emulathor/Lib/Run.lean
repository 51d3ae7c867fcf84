import Mathlib.Algebra.Order.Ring.Nat

/-!
# Runs that may stop

Two kinds of run over a state that a step may refuse to continue from (`Except.error`):

* `iterate step n`: a machine takes `n` steps, unless one of them returns (`Flow.ret`).
* `run exec as`: a script's actions are executed in order.

A run stops with an error exactly when it gets to a step that does (`iterate_error_iff`,
`run_error_iff`), which turns a statement about all runs into one about the steps they take; what
every step keeps, a run keeps (`run_inv`). Two scripts whose actions are `Alike` run alike
(`Alike.run`).
-/

namespace Lib

variable {σ ε ρ α : Type}

theorem bind_eq_ok {β γ : Type} {x : Except ε β} {f : β → Except ε γ} {c : γ} :
    x >>= f = .ok c ↔ ∃ b, x = .ok b ∧ f b = .ok c := by
  cases x with
  | error e =>
    constructor
    · intro h; cases h
    · rintro ⟨_, h, -⟩; cases h
  | ok b =>
    constructor
    · intro h; exact ⟨b, rfl, h⟩
    · rintro ⟨_, h, h'⟩; cases h; exact h'

theorem bind_eq_error {β γ : Type} {x : Except ε β} {f : β → Except ε γ} {e : ε} :
    x >>= f = .error e ↔ x = .error e ∨ ∃ b, x = .ok b ∧ f b = .error e := by
  cases x with
  | error e' =>
    constructor
    · intro h; cases h; exact .inl rfl
    · rintro (h | ⟨_, h, -⟩) <;> cases h; rfl
  | ok b =>
    constructor
    · intro h; exact .inr ⟨b, rfl, h⟩
    · rintro (h | ⟨_, h, h'⟩) <;> cases h; exact h'

@[simp] theorem ok_bind {β γ : Type} (b : β) (f : β → Except ε γ) :
    (Except.ok b >>= f : Except ε γ) = f b := rfl

@[simp] theorem error_bind {β γ : Type} (e : ε) (f : β → Except ε γ) :
    (Except.error e >>= f : Except ε γ) = .error e := rfl

@[simp] theorem pure_eq_ok {β : Type} (b : β) : (pure b : Except ε β) = .ok b := rfl

@[simp] theorem map_ok {β γ : Type} (f : β → γ) (b : β) :
    (f <$> (Except.ok b : Except ε β)) = .ok (f b) := rfl

@[simp] theorem map_error {β γ : Type} (f : β → γ) (e : ε) :
    (f <$> (Except.error e : Except ε β)) = .error e := rfl

theorem map_eq_error {β γ : Type} {f : β → γ} {x : Except ε β} {e : ε} :
    f <$> x = .error e ↔ x = .error e := by
  cases x <;> simp

/-! ## Machines -/

/-- What a step leads to: the next state, or the end with a result. -/
inductive Flow (σ ρ : Type)
  | next (s : σ)
  | ret (r : ρ) (s : σ)

def Flow.state {σ ρ : Type} : Flow σ ρ → σ
  | next s | ret _ s => s

section
variable (step : σ → Except ε (Flow σ ρ))

/-- `n` steps, fewer if one of them returns. -/
def iterate : Nat → σ → Except ε (Flow σ ρ)
  | 0, s => .ok (.next s)
  | n + 1, s => do
    match ← step s with
    | .next s => iterate n s
    | .ret r s => return .ret r s

variable {step}

theorem iterate_next {n : Nat} {s s' : σ} (h : step s = .ok (.next s')) :
    iterate step (n + 1) s = iterate step n s' := by
  simp [iterate, h]

/-- The step after a run. -/
theorem iterate_add {m n : Nat} {s s' : σ} (h : iterate step m s = .ok (.next s')) :
    iterate step (m + n) s = iterate step n s' := by
  induction m generalizing s with
  | zero =>
    simp only [iterate, Except.ok.injEq, Flow.next.injEq] at h
    rw [h, Nat.zero_add]
  | succ m ih =>
    rw [Nat.add_right_comm]
    cases hf : step s with
    | error e => simp [iterate, hf] at h
    | ok f =>
      cases f with
      | ret r => simp [iterate, hf] at h
      | next s1 =>
        rw [iterate_next hf] at h ⊢
        exact ih h

theorem iterate_succ {n : Nat} {s m : σ} (h : iterate step n s = .ok (.next m)) :
    iterate step (n + 1) s = step m := by
  induction n generalizing s with
  | zero =>
    cases h
    cases hm : step m with
    | error e => simp [iterate, hm]
    | ok f => cases f <;> simp [iterate, hm]
  | succ n ih =>
    obtain ⟨f, hf, h⟩ := bind_eq_ok.1 h
    cases f with
    | next s1 => rw [iterate_next hf, ih h]
    | ret r s1 => cases h

/-- The last step of a run taken apart. -/
theorem iterate_succ_next {n : Nat} {s s' : σ} :
    iterate step (n + 1) s = .ok (.next s') ↔
      ∃ m, iterate step n s = .ok (.next m) ∧ step m = .ok (.next s') := by
  induction n generalizing s with
  | zero =>
    constructor
    · intro h
      obtain ⟨f, hf, h⟩ := bind_eq_ok.1 h
      cases f with
      | next m =>
        simp only [iterate, Except.ok.injEq, Flow.next.injEq] at h
        exact ⟨s, rfl, by rw [hf, h]⟩
      | ret r m => simp at h
    · rintro ⟨m, hm, h⟩
      simp only [iterate, Except.ok.injEq, Flow.next.injEq] at hm
      subst hm
      simp [iterate, h]
  | succ n ih =>
    constructor
    · intro h
      obtain ⟨f, hf, h⟩ := bind_eq_ok.1 h
      cases f with
      | next s1 =>
        obtain ⟨m, hm, hs⟩ := ih.1 h
        exact ⟨m, by rw [iterate_next hf]; exact hm, hs⟩
      | ret r m => simp at h
    · rintro ⟨m, hm, hs⟩
      obtain ⟨f, hf, hm⟩ := bind_eq_ok.1 hm
      cases f with
      | next s1 => rw [iterate_next hf]; exact ih.2 ⟨m, hm, hs⟩
      | ret r m => simp at hm

/-- **A run stops with `e` exactly when it gets to a state whose step stops with `e`.** -/
theorem iterate_error_iff {n : Nat} {s : σ} {e : ε} :
    iterate step n s = .error e ↔
      ∃ k < n, ∃ s', iterate step k s = .ok (.next s') ∧ step s' = .error e := by
  induction n generalizing s with
  | zero => simp [iterate]
  | succ n ih =>
    constructor
    · intro h
      rcases bind_eq_error.1 h with h | ⟨f, hf, h⟩
      · exact ⟨0, by omega, s, rfl, h⟩
      · cases f with
        | next s1 =>
          obtain ⟨k, hk, s', hs', he⟩ := ih.1 h
          exact ⟨k + 1, by omega, s', by rw [iterate_next hf]; exact hs', he⟩
        | ret r m => simp at h
    · rintro ⟨k, hk, s', hs', he⟩
      cases k with
      | zero =>
        simp only [iterate, Except.ok.injEq, Flow.next.injEq] at hs'
        subst hs'
        simp [iterate, he]
      | succ k =>
        obtain ⟨f, hf, hs'⟩ := bind_eq_ok.1 hs'
        cases f with
        | next s1 =>
          rw [iterate_next hf]
          exact ih.2 ⟨k, by omega, s', hs', he⟩
        | ret r m => simp at hs'

/-- What every step keeps, a run keeps. -/
theorem iterate_inv {I : σ → Prop} (hI : ∀ s f, I s → step s = .ok f → I f.state) {n : Nat} {s : σ}
    {f : Flow σ ρ} (hs : I s) (h : iterate step n s = .ok f) : I f.state := by
  induction n generalizing s with
  | zero =>
    cases h
    exact hs
  | succ n ih =>
    obtain ⟨g, hg, h⟩ := bind_eq_ok.1 h
    have hkeep := hI s g hs hg
    cases g with
    | next s1 => exact ih hkeep h
    | ret r s1 =>
      cases h
      exact hkeep

/-- What no step that a run gets to changes, the run does not change. -/
theorem iterate_keeps {β : Type} {g : σ → β} {n : Nat} {s : σ} {f : Flow σ ρ}
    (h : iterate step n s = .ok f)
    (hstep : ∀ k < n, ∀ s1, iterate step k s = .ok (.next s1) → ∀ f1, step s1 = .ok f1 →
      g f1.state = g s1) : g f.state = g s := by
  induction n generalizing s with
  | zero =>
    cases h
    rfl
  | succ n ih =>
    obtain ⟨f1, hf1, h⟩ := bind_eq_ok.1 h
    have hfirst := hstep 0 (by omega) s rfl f1 hf1
    cases f1 with
    | next s1 =>
      refine (ih h fun k hk s2 hs2 => ?_).trans hfirst
      exact hstep (k + 1) (by omega) s2 (by rw [iterate_next hf1]; exact hs2)
    | ret r s1 =>
      cases h
      exact hfirst

/-- A run returns from one of its steps. -/
theorem exists_of_iterate_ret {n : Nat} {s s' : σ} {r : ρ} (h : iterate step n s = .ok (.ret r s')) :
    ∃ k < n, ∃ s1, iterate step k s = .ok (.next s1) ∧ step s1 = .ok (.ret r s') := by
  induction n generalizing s with
  | zero => cases h
  | succ n ih =>
    obtain ⟨g, hg, h⟩ := bind_eq_ok.1 h
    cases g with
    | next s1 =>
      obtain ⟨k, hk, s2, hs2, hret⟩ := ih h
      exact ⟨k + 1, by omega, s2, by rw [iterate_next hg]; exact hs2, hret⟩
    | ret r' s1 =>
      cases h
      exact ⟨0, by omega, s, rfl, hg⟩

end

/-! ## Scripts -/

section
variable (exec : α → σ → Except ε σ)

/-- The actions of a script, in order. -/
def run : List α → σ → Except ε σ
  | [], s => .ok s
  | a :: as, s => do
    let s ← exec a s
    run as s

/-- The run of `as` from `s` gets to the action `a`, in state `s'`. -/
def Reached (as : List α) (s : σ) (a : α) (s' : σ) : Prop :=
  ∃ pre post, as = pre ++ a :: post ∧ run exec pre s = .ok s'

variable {exec}

theorem run_cons {a : α} {as : List α} {s s' : σ} (h : exec a s = .ok s') :
    run exec (a :: as) s = run exec as s' := by
  simp [run, h]

theorem run_append (as bs : List α) (s : σ) :
    run exec (as ++ bs) s = run exec as s >>= run exec bs := by
  induction as generalizing s with
  | nil => rfl
  | cons a as ih =>
    cases h : exec a s with
    | error e => simp [run, h]
    | ok s' => simp [run, h, ih]

theorem run_singleton (a : α) (s : σ) : run exec [a] s = exec a s := by
  cases h : exec a s <;> simp [run, h]

theorem Reached.mem {as : List α} {s s' : σ} {a : α} (h : Reached exec as s a s') : a ∈ as := by
  obtain ⟨pre, post, rfl, -⟩ := h
  exact List.mem_append_right _ (.head _)

theorem reached_cons {a b : α} {as : List α} {s s' : σ} :
    Reached exec (b :: as) s a s' ↔
      (a = b ∧ s' = s) ∨ ∃ s1, exec b s = .ok s1 ∧ Reached exec as s1 a s' := by
  constructor
  · rintro ⟨pre, post, h, hr⟩
    cases pre with
    | nil =>
      simp only [List.nil_append, List.cons.injEq] at h
      simp only [run, Except.ok.injEq] at hr
      exact .inl ⟨h.1.symm, hr.symm⟩
    | cons c pre =>
      simp only [List.cons_append, List.cons.injEq] at h
      obtain ⟨rfl, rfl⟩ := h
      obtain ⟨s1, h1, hr⟩ := bind_eq_ok.1 hr
      exact .inr ⟨s1, h1, pre, post, rfl, hr⟩
  · rintro (⟨rfl, rfl⟩ | ⟨s1, h1, pre, post, rfl, hr⟩)
    · exact ⟨[], as, rfl, rfl⟩
    · exact ⟨b :: pre, post, rfl, by rw [run_cons h1]; exact hr⟩

/-- **A script stops with `e` exactly when it gets to an action that stops with `e`.** -/
theorem run_error_iff {as : List α} {s : σ} {e : ε} :
    run exec as s = .error e ↔ ∃ a s', Reached exec as s a s' ∧ exec a s' = .error e := by
  induction as generalizing s with
  | nil =>
    constructor
    · intro h; cases h
    · rintro ⟨a, s', ⟨pre, post, h, -⟩, -⟩
      simp at h
  | cons b as ih =>
    constructor
    · intro h
      rcases bind_eq_error.1 h with h | ⟨s1, h1, h⟩
      · exact ⟨b, s, reached_cons.2 (.inl ⟨rfl, rfl⟩), h⟩
      · obtain ⟨a, s', hr, he⟩ := ih.1 h
        exact ⟨a, s', reached_cons.2 (.inr ⟨s1, h1, hr⟩), he⟩
    · rintro ⟨a, s', hr, he⟩
      rcases reached_cons.1 hr with ⟨rfl, rfl⟩ | ⟨s1, h1, hr⟩
      · simp [run, he]
      · rw [run_cons h1]
        exact ih.2 ⟨a, s', hr, he⟩

/-- What every action of a script keeps, its run keeps. -/
theorem run_inv {I : σ → Prop} {as : List α}
    (hI : ∀ a ∈ as, ∀ s s', I s → exec a s = .ok s' → I s') {s s' : σ} (hs : I s)
    (h : run exec as s = .ok s') : I s' := by
  induction as generalizing s with
  | nil =>
    simp only [run, Except.ok.injEq] at h
    exact h ▸ hs
  | cons a as ih =>
    obtain ⟨s1, h1, h⟩ := bind_eq_ok.1 h
    exact ih (fun b hb => hI b (.tail _ hb)) (hI a (.head _) s s1 hs h1) h

/-- What every action keeps holds wherever the script gets to. -/
theorem reached_inv {I : σ → Prop} {as : List α}
    (hI : ∀ a ∈ as, ∀ s s', I s → exec a s = .ok s' → I s') {s s' : σ} {a : α} (hs : I s)
    (h : Reached exec as s a s') : I s' := by
  obtain ⟨pre, post, rfl, hr⟩ := h
  exact run_inv (fun b hb => hI b (List.mem_append_left _ hb)) hs hr

end

/-! ## Two computations alike -/

section
variable {σ' τ τ' ε' : Type}

/-- Both end, in results that `R` relates, or both stop, with errors that `E` relates. -/
def Alike (E : ε → ε' → Prop) (R : σ → σ' → Prop) : Except ε σ → Except ε' σ' → Prop
  | .ok s, .ok s' => R s s'
  | .error e, .error e' => E e e'
  | _, _ => False

variable {E : ε → ε' → Prop} {R : σ → σ' → Prop} {Q : τ → τ' → Prop}

theorem Alike.bind {x : Except ε σ} {y : Except ε' σ'} (h : Alike E R x y)
    {f : σ → Except ε τ} {g : σ' → Except ε' τ'} (hf : ∀ s s', R s s' → Alike E Q (f s) (g s')) :
    Alike E Q (x >>= f) (y >>= g) := by
  rcases x with e | s <;> rcases y with e' | s'
  · exact h
  · exact h.elim
  · exact h.elim
  · exact hf s s' h

theorem Alike.of_error {e : ε} {y : Except ε' σ'} (h : Alike E R (.error e) y) :
    ∃ e', y = .error e' ∧ E e e' := by
  rcases y with e' | s'
  · exact ⟨e', rfl, h⟩
  · exact h.elim

/-- Scripts whose actions are alike run alike. -/
theorem Alike.run {β : Type} {exec : α → σ → Except ε σ} {exec' : β → σ' → Except ε' σ'}
    {as : List α} {bs : List β}
    (h : List.Forall₂ (fun a b => ∀ s s', R s s' → Alike E R (exec a s) (exec' b s')) as bs)
    {s : σ} {s' : σ'} (hR : R s s') : Alike E R (Lib.run exec as s) (Lib.run exec' bs s') := by
  induction h generalizing s s' with
  | nil => exact hR
  | cons hab _ ih => exact (hab s s' hR).bind fun s1 s1' => ih

end

end Lib
