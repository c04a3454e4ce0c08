import Xv6.Fs.Mkfs
import Xv6.Sys.Model

/-!
# xv6 — a small machine

A machine with few pages, started on an image that `mkfs` made: what happens in its runs can be computed.
-/

namespace Xv6.Sys

open Vm (Layout PGSIZE PHYSTOP)

/-- The kernel leaves a hundred pages. -/
def smallLayout : Layout where
  kend := PHYSTOP - 100 * PGSIZE
  trampoline := PHYSTOP - 101 * PGSIZE
  base := by decide
  aligned := by decide
  inKernel := by decide
  fits := by decide

def smallMem : Vm.Mem where
  freelist := (allPages smallLayout).drop NPROC
  page _ _ := 0

/-- The small machine on the image `d`, when its first process is ready. -/
def start (d : Disk) : Option State :=
  (boot smallLayout d smallMem [] ((allPages smallLayout).take NPROC)).toOption

theorem start_init {d : Disk} {s : State} (h : start d = some s) : (sysLts smallLayout d).init s := by
  refine ⟨smallMem, [], (allPages smallLayout).take NPROC, by decide +kernel, ?_, ?_⟩
  · show ((allPages smallLayout).drop NPROC ++ [] ++ (allPages smallLayout).take NPROC).Perm _
    rw [List.append_nil]
    exact List.perm_append_comm.trans (List.Perm.of_eq (List.take_append_drop ..))
  · unfold start at h
    cases hBoot : boot smallLayout d smallMem [] ((allPages smallLayout).take NPROC) with
    | ok s' =>
      rw [hBoot] at h
      exact congrArg Except.ok (Option.some.inj h)
    | error e =>
      rw [hBoot] at h
      cases h

/-- The state after the steps `acts` on the disk that `mkfs` makes of `files`. -/
def after (files : List (List UInt8 × List UInt8)) (acts : List Act) : Option State := do
  let d ← Mkfs.main files
  let s ← start d
  (sysLts smallLayout d).exec s acts

theorem after_run {files : List (List UInt8 × List UInt8)} {acts : List Act} {s : State}
    (h : after files acts = some s) :
    ∃ d, Mkfs.main files = some d ∧ (sysLts smallLayout d).Run acts s := by
  obtain ⟨d, hd, h⟩ := Option.bind_eq_some_iff.mp h
  obtain ⟨s₀, h₀, hExec⟩ := Option.bind_eq_some_iff.mp h
  exact ⟨d, hd, Lts.run_of_exec (.start (start_init h₀)) hExec⟩

/-- What a function does, computed. -/
theorem exists_of_any {σ ε α : Type} {m : Hoare.Prog σ ε α} {s : σ} {P : α × σ → Bool} (h : (m s).toOption.any P = true) :
    ∃ a s', m s = .ok (a, s') ∧ P (a, s') = true := by
  obtain ⟨r, hr, hP⟩ := (Option.any_eq_true ..).mp h
  refine ⟨r.1, r.2, ?_, hP⟩
  cases hm : m s with
  | ok x =>
    rw [hm] at hr
    exact congrArg Except.ok (Option.some.inj hr)
  | error e =>
    rw [hm] at hr
    cases hr

/-- What it does after the steps `acts`. -/
theorem after_call {α : Type} {files : List (List UInt8 × List UInt8)} {acts : List Act} {m : S α}
    {P : State → α × State → Bool} (h : (after files acts).any (fun s => (m s).toOption.any (P s)) = true) :
    ∃ d s a s', (sysLts smallLayout d).Run acts s ∧ m s = .ok (a, s') ∧ P s (a, s') = true := by
  obtain ⟨s, hs, hCall⟩ := (Option.any_eq_true ..).mp h
  obtain ⟨a, s', hm, hP⟩ := exists_of_any hCall
  obtain ⟨d, -, hRun⟩ := after_run hs
  exact ⟨d, s, a, s', hRun, hm, hP⟩

end Xv6.Sys
