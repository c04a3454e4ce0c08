import Mathlib.Data.List.Infix

/-!
# Transition systems with histories

A system of concurrent parties as a step function: `step s a = none` when
action `a` is not possible in state `s`, `some (.error e)` when it is possible
and fails with `e`, `some (.ok s')` when it leads to `s'`. `Run tr s` says that the
successful actions `tr`, in order, lead from an initial state to `s`.

Invariants relate a state to the history that led to it (`Run.invariant`), so
that ghost quantities ("the blocks written since …") are functions of the
history and not part of the state. `exec` runs a list of actions; a concrete
run is found by evaluating it.
-/

/-- A labelled transition system over states `σ`, with actions `α` and failures `ε`. -/
structure Lts (σ α ε : Type) where
  init : σ → Prop
  step : σ → α → Option (Except ε σ)

namespace Lts

variable {σ α ε : Type} {M : Lts σ α ε}

/-- `M.Run tr s`: the actions `tr` lead from an initial state to `s`. -/
inductive Run (M : Lts σ α ε) : List α → σ → Prop where
  | start {s : σ} (hInit : M.init s) : Run M [] s
  | step {tr : List α} {s s' : σ} {a : α} (hRun : Run M tr s)
      (hStep : M.step s a = some (.ok s')) : Run M (tr ++ [a]) s'

/-- A relation between history and state that holds initially and is kept by every
step holds along every run. -/
theorem Run.invariant {I : List α → σ → Prop} (hInit : ∀ s, M.init s → I [] s)
    (hStep : ∀ tr s a s', M.Run tr s → I tr s → M.step s a = some (.ok s') → I (tr ++ [a]) s')
    {tr : List α} {s : σ} (h : M.Run tr s) : I tr s := by
  induction h with
  | start h => exact hInit _ h
  | step hRun hs ih => exact hStep _ _ _ _ hRun ih hs

/-- The step in the middle of a run. -/
theorem Run.split {tr post : List α} {a : α} {s : σ} (h : M.Run (tr ++ a :: post) s) :
    ∃ s₁ s₂, M.Run tr s₁ ∧ M.step s₁ a = some (.ok s₂) := by
  generalize hAll : tr ++ a :: post = all at h
  induction h generalizing post with
  | start _ => simp at hAll
  | step hRun hStep ih =>
    rcases List.eq_nil_or_concat post with rfl | ⟨post', a', rfl⟩
    · obtain ⟨rfl, hLast⟩ := List.append_inj' hAll rfl
      obtain rfl := List.singleton_inj.mp hLast
      exact ⟨_, _, hRun, hStep⟩
    · rw [List.concat_eq_append, ← List.cons_append, ← List.append_assoc] at hAll
      exact ih (List.append_inj' hAll rfl).1

/-- A history leads to one state only. -/
theorem Run.unique (hInit : ∀ s s', M.init s → M.init s' → s = s') {tr : List α} {s s' : σ} (h : M.Run tr s)
    (h' : M.Run tr s') : s = s' := by
  induction h generalizing s' with
  | start hs =>
    generalize hNil : ([] : List α) = tr at h'
    cases h' with
    | start hs' => exact hInit _ _ hs hs'
    | step => simp at hNil
  | @step tr s s₁ a hRun hStep ih =>
    generalize hAll : tr ++ [a] = all at h'
    cases h' with
    | start => simp at hAll
    | step hRun' hStep' =>
      obtain ⟨rfl, hLast⟩ := List.append_inj' hAll rfl
      obtain rfl := List.singleton_inj.mp hLast
      obtain rfl := ih hRun'
      rw [hStep] at hStep'
      cases hStep'
      rfl

/-- Step number `k` of the history makes `P` true. -/
def Enters (M : Lts σ α ε) (P : σ → Prop) (tr : List α) (k : Nat) : Prop :=
  ∃ pre a post s s', tr = pre ++ a :: post ∧ pre.length = k ∧ M.Run pre s ∧ M.step s a = some (.ok s') ∧ ¬ P s ∧ P s'

theorem Enters.lt {P : σ → Prop} {tr : List α} {k : Nat} (h : M.Enters P tr k) : k < tr.length := by
  obtain ⟨pre, a, post, s, s', rfl, rfl, -⟩ := h
  rw [List.length_append, List.length_cons]
  omega

theorem Enters.append {P : σ → Prop} {tr : List α} {k : Nat} (h : M.Enters P tr k) (a : α) : M.Enters P (tr ++ [a]) k := by
  obtain ⟨pre, b, post, s, s', rfl, hRest⟩ := h
  exact ⟨pre, b, post ++ [a], s, s', by rw [List.append_assoc, List.cons_append], hRest⟩

theorem Run.enters {P : σ → Prop} {tr : List α} {s s' : σ} {a : α} (h : M.Run tr s) (hStep : M.step s a = some (.ok s'))
    (hNot : ¬ P s) (hP : P s') : M.Enters P (tr ++ [a]) tr.length :=
  ⟨tr, a, [], s, s', rfl, rfl, h, hStep, hNot, hP⟩

/-- It was made true before, or by the last step. -/
theorem Enters.cases (hInit : ∀ s s', M.init s → M.init s' → s = s') {P : σ → Prop} {tr : List α} {s s' : σ} {a : α} {k : Nat}
    (h : M.Enters P (tr ++ [a]) k) (hRun : M.Run tr s) (hStep : M.step s a = some (.ok s')) :
    M.Enters P tr k ∨ ¬ P s ∧ P s' := by
  obtain ⟨pre, b, post, s₁, s₂, hEq, hk, hPre, hStep', hNot, hP⟩ := h
  rcases List.eq_nil_or_concat post with rfl | ⟨post', a', rfl⟩
  · obtain ⟨rfl, hLast⟩ := List.append_inj' hEq rfl
    obtain rfl := List.singleton_inj.mp hLast
    obtain rfl := hRun.unique hInit hPre
    rw [hStep] at hStep'
    cases hStep'
    exact .inr ⟨hNot, hP⟩
  · rw [List.concat_eq_append, ← List.cons_append, ← List.append_assoc] at hEq
    exact .inl ⟨pre, b, post', s₁, s₂, (List.append_inj' hEq rfl).1, hk, hPre, hStep', hNot, hP⟩

/-- `M.RunIf C tr s`: a run in which each action `a` is taken in a state `s` with `C s a`. -/
inductive RunIf (M : Lts σ α ε) (C : σ → α → Prop) : List α → σ → Prop where
  | start {s : σ} (hInit : M.init s) : RunIf M C [] s
  | step {tr : List α} {s s' : σ} {a : α} (hRun : RunIf M C tr s) (hIf : C s a)
      (hStep : M.step s a = some (.ok s')) : RunIf M C (tr ++ [a]) s'

theorem RunIf.run {C : σ → α → Prop} {tr : List α} {s : σ} (h : M.RunIf C tr s) : M.Run tr s := by
  induction h with
  | start h => exact .start h
  | step _ _ hs ih => exact ih.step hs

theorem Run.runIf {C : σ → α → Prop} {tr : List α} {s : σ} (h : M.Run tr s) (hC : ∀ s, ∀ a ∈ tr, C s a) : M.RunIf C tr s := by
  induction h with
  | start h => exact .start h
  | @step tr s s' a _ hs ih =>
    have hPre : ∀ s, ∀ b ∈ tr, C s b := fun s b hb => hC s b (List.mem_append_left _ hb)
    exact (ih hPre).step (hC s a (by simp)) hs

/-- An invariant of the runs whose actions meet a condition. -/
theorem RunIf.invariant {C : σ → α → Prop} {I : List α → σ → Prop} (hInit : ∀ s, M.init s → I [] s)
    (hStep : ∀ tr s a s', M.RunIf C tr s → I tr s → C s a → M.step s a = some (.ok s') →
      I (tr ++ [a]) s')
    {tr : List α} {s : σ} (h : M.RunIf C tr s) : I tr s := by
  induction h with
  | start h => exact hInit _ h
  | step hRun hIf hs ih => exact hStep _ _ _ _ hRun ih hIf hs

/-- Run the actions `as` from `s`; `none` when one of them is not possible or fails. -/
def exec (M : Lts σ α ε) (s : σ) : List α → Option σ
  | [] => some s
  | a :: as =>
    match M.step s a with
    | some (.ok s') => exec M s' as
    | _ => none

theorem run_of_exec {pre as : List α} {s s' : σ} (h : M.Run pre s)
    (hExec : M.exec s as = some s') : M.Run (pre ++ as) s' := by
  induction as generalizing pre s with
  | nil =>
    cases hExec
    rwa [List.append_nil]
  | cons a as ih =>
    rw [exec] at hExec
    split at hExec
    · rename_i s₁ hs
      have := ih (h.step hs) hExec
      rwa [List.append_assoc] at this
    · cases hExec

end Lts
