import Xv6.Sys.Calls
import Xv6.Vm.Map

/-!
# xv6 — processes do not reach each other's memory

A process that writes to its pages, calls `sbrk`, `fork` or `exec`, or enters the kernel uses its own pages and those on the
free list; the pages of the others are left as they are, however many such steps are taken (`isolation`). All page tables are
what `walk` and its callers need (`pagetable_wellFormed`).
-/

namespace Xv6.Sys

open Hoare Finset
open Vm (Layout Pte pool own npages)

variable {L : Layout} {s s' : State} {d : Disk} {tr : List Act} {p q : Nat} {H : Nat → Multiset Nat} {hf : Multiset Nat}
  {hi : Multiset Fs.Hand} {he : Multiset (Nat × Bool)}

/-- What process `p` does with memory. -/
inductive Act.Uses (p : Nat) : Act → Prop where
  | store (va : BitVec 64) (g : Vm.Page → Vm.Page) : Uses p (.store p va g)
  | trap (g : Vm.Page → Vm.Page) : Uses p (.trap p g)
  | sbrk (n : BitVec 32) : Uses p (.call p (.sbrk n))
  | fork : Uses p (.call p .fork)
  | exec (path : Option (List UInt8)) (args : Nat → Arg) : Uses p (.call p (.exec path args))

/-- From `s` to `s'` process `q` and its memory stay as they are. -/
structure Apart (q : Nat) (s s' : State) : Prop where
  proc  : s'.proc q = s.proc q
  image : SameImage q s s'

theorem Apart.refl (q : Nat) (s : State) : Apart q s s := ⟨rfl, fun _ _ => rfl, fun _ _ => rfl⟩

theorem Apart.trans {s'' : State} (h : Apart q s s') (h' : Apart q s' s'') : Apart q s s'' where
  proc := h'.proc.trans h.proc
  image := ⟨fun v hv => (h'.image.pte v hv).trans (h.image.pte v hv), fun v hv => (h'.image.page v hv).trans (h.image.page v hv)⟩

/-- Process `p` takes and frees pages, and writes to its own. -/
theorem Kernel.others {B : Multiset Nat} (h : Kernel L H hf hi he s) (hp : p < NPROC) (hq : q < NPROC) (hne : q ≠ p)
    (hState : (s.proc q).state ≠ .unused) (hMoves : pool.Moves (H p) B s.mem s'.mem) (hProc : s'.proc q = s.proc q) :
    Apart q s s' := by
  obtain ⟨pt, tf, A, f, hOwner, hHq, hValid⟩ := h.owner hq hState
  obtain ⟨P, hMem⟩ := h.memory
  refine ⟨hProc, hOwner.kept hValid hProc fun x hx => ?_⟩
  exact hMoves.cell_eq (hMem.split hp).nodup (mem_rest hq hne (hHq ▸ hx))

theorem step_apart (h : Inv False L s) (hq : q < NPROC) (hne : q ≠ p) (hState : (s.proc q).state ≠ .unused) {a : Act}
    (ha : a.Uses p) (hStep : step L s a = some (.ok s')) : Apart q s s' := by
  obtain ⟨H, hKernel⟩ := h.kernel
  have hReady : s.Ready p := by
    cases ha <;> exact (Option.ite_none_right_eq_some.mp hStep).1
  obtain ⟨k, hCwd⟩ := hKernel.cwd hReady.1 hReady.2.1
  obtain ⟨pt, tf, A, f, hOwner, hHp, hValid⟩ := hKernel.owner hReady.1 (by rw [hReady.2.1]; exact Life.noConfusion)
  obtain ⟨P, hMem⟩ := hKernel.memory
  have hOthers : ∀ {B : Multiset Nat} {s₁ : State}, pool.Moves (A + own f (Ico 0 (npages (s.proc p).sz)) + {tf}) B s.mem s₁.mem →
      s₁.proc q = s.proc q → Apart q s s₁ := fun hMoves => hKernel.others hReady.1 hq hne hState (hHp ▸ hMoves)
  have hTaken : ∀ {B : Multiset Nat} {s₁ : State}, pool.Moves 0 B s.mem s₁.mem → s₁.proc q = s.proc q → Apart q s s₁ := by
    intro B s₁ hMoves
    have hAll := hMoves.add_left (H p)
    rw [add_zero] at hAll
    exact hKernel.others hReady.1 hq hne hState hAll
  -- whoever was in use is not the child
  have hNew : ∀ {r : Nat}, (s.proc r).state = .unused → q ≠ r := fun hFree hEq => hState (hEq ▸ hFree)
  cases ha with
  | store va g =>
    refine (result (F := Fault) ?_ (Option.ite_none_right_eq_some.mp hStep).2).1 s' rfl
    rw [userStore, wp_bind, wp_proc, hOwner.pagetable, wp_bind, wp_deref, wp_bind, wp_vm]
    refine Vm.wp_walkaddr_user hOwner.tree ?_
    rw [wp_when]
    refine ⟨fun hMapped => ?_, fun _ => .refl q s⟩
    cases hw : Vm.userPte f (va.toNat / Vm.PGSIZE) with
    | none =>
      rw [hw] at hMapped
      exact absurd rfl hMapped
    | some w =>
      rw [wp_vm, Vm.wp_store]
      have hImage := hOwner.space.image hOwner.tree hValid.left
      refine hOthers (Vm.moves_store ?_) rfl
      exact Multiset.mem_add.mpr (.inl (Multiset.mem_add.mpr (.inr (hImage.within _ _ hw))))
  | trap g =>
    refine (result (F := Fault) ?_ (Option.ite_none_right_eq_some.mp hStep).2).1 s' rfl
    rw [saveRegs, wp_bind, wp_proc, hOwner.trapframe, wp_bind, wp_deref, wp_vm, Vm.wp_store]
    exact hOthers (Vm.moves_store (Multiset.mem_add.mpr (.inr (Multiset.mem_singleton_self tf)))) rfl
  | sbrk n =>
    refine (result (F := Fault) ?_ (Option.ite_none_right_eq_some.mp hStep).2).1 s' rfl
    rw [Call.run, sysSbrk, wp_bind, wp_proc, wp_bind]
    refine wp_growproc hOwner hValid.left (fun m' A' hRes => ?_) fun m' A' f' hRes => ?_
    · rw [if_pos (by decide), wp_pure]
      exact hOthers (hRes.moves.add {tf}) rfl
    · rw [if_neg (by decide), wp_pure]
      exact hOthers (hRes.moves.add {tf}) (upd_of_ne hne)
  | fork =>
    refine (result (F := Fault) ?_ (Option.ite_none_right_eq_some.mp hStep).2).1 s' rfl
    rw [Call.run, sysFork, wp_bind]
    refine wp_fork hOwner hCwd hValid (fun r hr hFree => (hMem.idle hr hFree).1)
      (fun fd hfd f hFile => (hKernel.counts.ofFd hReady.1 hfd hFile).2) (fun _ => wp_pure.mpr (.refl q s))
      (fun r m' hr hFree hMoves => wp_pure.mpr ?_) fun r npt ntf A' f' m' hr hFree hChild => ?_
    · exact hTaken hMoves (upd_of_ne (hNew hFree))
    · rw [wp_bind, wp_proc, wp_pure]
      exact hTaken hChild.moves (upd_of_ne (hNew hFree))
  | exec path args =>
    refine (result (F := Fault) ?_ (Option.ite_none_right_eq_some.mp hStep).2).1 s' rfl
    refine wp_sysExec (Φ := fun c => Counts 0 0 0 { s with core := c }) (G := fun _ => True) hOwner hCwd
      (by rwa [add_comm]) hKernel.counts (fun path' _ => hKernel.counts.opened hReady.1 hCwd path')
      (fun c' m' _ hMoves => hTaken hMoves rfl)
      fun path' argv c' m' Got elf img pt' n sp A' f' ustack _ _ _ _ _ hRep => ?_
    have hMoves := hRep.moves
    rw [add_comm] at hMoves
    exact hOthers hMoves (upd_of_ne hne)

/-- However long only other processes use memory, that of process `q` stays as it is. -/
theorem isolation (h : (sysLts L d).Run tr s) (hq : q < NPROC) (hState : (s.proc q).state ≠ .unused) {as : List Act}
    (hOther : ∀ a ∈ as, ∃ p, p ≠ q ∧ a.Uses p) (hExec : (sysLts L d).exec s as = some s') : Apart q s s' := by
  induction as generalizing tr s with
  | nil =>
    cases hExec
    exact .refl q _
  | cons a as ih =>
    obtain ⟨p, hne, ha⟩ := hOther a List.mem_cons_self
    rw [Lts.exec] at hExec
    split at hExec
    · next s₁ hStep =>
      have hFirst := step_apart (run_inv h) hq hne.symm hState ha hStep
      have hUsed : (s₁.proc q).state ≠ .unused := by
        rw [hFirst.proc]
        exact hState
      exact hFirst.trans (ih (h.step hStep) hUsed (fun b hb => hOther b (List.mem_cons_of_mem a hb)) hExec)
    · cases hExec

/-- The child clears its memory and asks for more; its parent does not notice. -/
def childRun : List Act := [.store 1 0 fun _ => Vm.zeroPage, .call 1 (.sbrk 4096)]

theorem isolation_childRun : ∃ d s s', (sysLts smallLayout d).Run pipeRun s ∧ (sysLts smallLayout d).exec s childRun = some s' ∧
    Apart 0 s s' := by
  have hRun : (after [] pipeRun).any (fun s => (s.proc 0).state = .runnable ∧
      ((sysLts smallLayout s.core.disk).exec s childRun).isSome) = true := by decide +kernel
  obtain ⟨s, hs, hAll⟩ := (Option.any_eq_true ..).mp hRun
  obtain ⟨hState, hNext⟩ := of_decide_eq_true hAll
  obtain ⟨s', hExec⟩ := Option.isSome_iff_exists.mp hNext
  obtain ⟨d, -, hReach⟩ := after_run hs
  -- a step does not depend on what was on the disk at the start
  have hExec : (sysLts smallLayout d).exec s childRun = some s' := hExec
  refine ⟨d, s, s', hReach, hExec, isolation hReach (by decide) ?_ (fun a ha => ?_) hExec⟩
  · rw [hState]
    exact Life.noConfusion
  · obtain rfl | rfl : a = _ ∨ a = _ := by simpa [childRun] using ha
    · exact ⟨1, by decide, .store ..⟩
    · exact ⟨1, by decide, .sbrk ..⟩

/-- In every run the page table of a process that is in use is well formed. -/
theorem pagetable_wellFormed (h : (sysLts L d).Run tr s) (hp : p < NPROC) (hState : (s.proc p).state ≠ .unused) :
    ∃ pt, (s.proc p).pagetable = some pt ∧ Vm.WellFormed s.mem pt := by
  obtain ⟨H, hKernel⟩ := (run_inv h).kernel
  obtain ⟨pt, tf, A, f, hOwner, -, hValid⟩ := hKernel.owner hp hState
  exact ⟨pt, hOwner.pagetable, hOwner.tree.wellFormed hValid.left.left⟩

theorem pagetable_wellFormed_pipeRun : ∃ d s, (sysLts smallLayout d).Run pipeRun s ∧
    ∃ pt, (s.proc 1).pagetable = some pt ∧ Vm.WellFormed s.mem pt := by
  obtain ⟨d, s, hRun, hState, -⟩ := pipeRun_state
  exact ⟨d, s, hRun, pagetable_wellFormed hRun (by decide) (by rw [hState]; exact Life.noConfusion)⟩

end Xv6.Sys
