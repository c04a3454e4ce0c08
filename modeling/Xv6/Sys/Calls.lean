import Xv6.Sys.View
import Xv6.Vm.Copy

/-!
# xv6 — user memory, `sbrk`, `kill`, `fork` and `exec` in every run

What these calls do in a state that some run leads to, told by what can be looked up in the states before and after.

* `copy_exact`: `copyin` and `copyout` reach the user memory of a process and nothing else.
* `growproc_exact`: the size changes by exactly `n`, or nothing changes; unless `n` would make the size negative.
* `kill_exact`: `kill` marks the process that was asked for and no other, and new processes start clean; unless somebody
  kills the process 0, which is what all free entries of the table are called.
* `fork_copies`: the child is a copy with pages of its own, or there is none and nothing has changed.
* `exec_all_or_nothing`: the old image is there as it was, or all of it has been freed.
* `exec_stack`: where the arguments of a new program are.
-/

namespace Xv6.Sys

open Hoare Finset
open Vm (Layout Mem Page Pte PgTable Space Valid pool own npages umem userPte zeroPage VTRAPFRAME VTRAMPOLINE PGSIZE PGROUNDUP)

variable {L : Layout} {s s' : State} {d : Disk} {tr : List Act} {p pt tf v : Nat} {A : Multiset Nat} {f : Nat → Option Pte}

/-! ## Views of a state -/

/-- The entry that process `p` has for virtual page `v`. -/
def State.pte (s : State) (p v : Nat) : Option Pte := (s.proc p).pagetable.bind fun pt => Vm.lookup s.mem pt v

/-- The page there. -/
def State.page (s : State) (p v : Nat) : Option Page := (s.pte p v).map fun w => s.mem.page w.pa

theorem Owner.pte (h : Owner L s.mem (s.proc p) pt tf A f) (hv : v < 512 ^ 3) : s.pte p v = f v := by
  rw [State.pte, h.pagetable, Option.bind_some, h.tree.lookup hv]

theorem Owner.page (h : Owner L s.mem (s.proc p) pt tf A f) (hv : v < 512 ^ 3) :
    s.page p v = (f v).map fun w => s.mem.page w.pa := by
  rw [State.page, h.pte hv]

/-- From `s` to `s'` the memory and the trapframe of process `p` stay as they are. -/
structure SameImage (p : Nat) (s s' : State) : Prop where
  pte  : ∀ v < 512 ^ 3, s'.pte p v = s.pte p v
  page : ∀ v < VTRAMPOLINE, s'.page p v = s.page p v

theorem Owner.same {A' : Multiset Nat} {pt' : Nat} (h : Owner L s.mem (s.proc p) pt tf A f)
    (h' : Owner L s'.mem (s'.proc p) pt' tf A' f) (hTf : Vm.PageOk L tf)
    (hPages : ∀ u w, u < npages (s.proc p).sz → f u = some w → s'.mem.page w.pa = s.mem.page w.pa)
    (hRegs : s'.mem.page tf = s.mem.page tf) : SameImage p s s' where
  pte v hv := by rw [h.pte hv, h'.pte hv]
  page v hv := by
    have hTop := Vm.vtrapframe_eq
    have hTr := Vm.vtrampoline_eq
    rw [h.page (by omega), h'.page (by omega)]
    cases hw : f v with
    | none => rfl
    | some w =>
      suffices hPage : s'.mem.page w.pa = s.mem.page w.pa from congrArg some hPage
      by_cases hUser : v < VTRAPFRAME
      · exact hPages v w ((h.space.user v hUser).mp (Option.isSome_of_eq_some hw)) hw
      · obtain rfl : v = VTRAPFRAME := by omega
        obtain rfl := Option.some.inj (h.space.trapframe.symm.trans hw)
        rw [Vm.PA2PTE_pa hTf.aligned hTf.lt, hRegs]

/-- The pages of process `p` are left as they are. -/
theorem Owner.kept (h : Owner L s.mem (s.proc p) pt tf A f)
    (hValid : Valid L (A + own f (Ico 0 (npages (s.proc p).sz)) + {tf}) s.mem) (hProc : s'.proc p = s.proc p)
    (hKept : ∀ x ∈ A + own f (Ico 0 (npages (s.proc p).sz)) + {tf}, s'.mem.page x = s.mem.page x) : SameImage p s s' := by
  have h' : Owner L s'.mem (s'.proc p) pt tf A f := by
    rw [hProc]
    exact h.congr fun x hx => hKept x (Multiset.mem_add.mpr (.inl (Multiset.mem_add.mpr (.inl hx))))
  refine h.same h' (hValid.ok_of_mem (by simp)) (fun u w hu hw => hKept w.pa ?_) (hKept tf ?_)
  · exact Multiset.mem_add.mpr (.inl (Multiset.mem_add.mpr (.inr (Vm.mem_own (mem_Ico.mpr ⟨Nat.zero_le u, hu⟩) hw))))
  · exact Multiset.mem_add.mpr (.inr (Multiset.mem_singleton_self tf))

/-- A call that takes pages from the free list, and does not change process `p`. -/
theorem Owner.untouched {B : Multiset Nat} (h : Owner L s.mem (s.proc p) pt tf A f)
    (hValid : Valid L (A + own f (Ico 0 (npages (s.proc p).sz)) + {tf}) s.mem) (hProc : s'.proc p = s.proc p)
    (hMoves : pool.Moves 0 B s.mem s'.mem) : SameImage p s s' :=
  h.kept hValid hProc fun _ hx => hMoves.cell_eq (by rw [zero_add]; exact hValid.nodup) hx

/-! ## copyin and copyout -/

/-- In every run, for the page table of a process: `copyout` and `copyin` succeed exactly if users can access the whole range, as
a range of integers, so that none that passes the last address does. `copyout` writes the bytes of `src` to where the page table
maps the range and writes nothing else; `copyin` writes at most `len` bytes to `dst` and no memory of the process, and reads what
`copyout` has written. -/
theorem copy_exact (h : (sysLts L d).Run tr s) (hp : p < NPROC) (hState : (s.proc p).state ≠ .unused)
    (hTable : (s.proc p).pagetable = some pt) (va : Nat) :
    (∀ src, ∃ r m', Vm.copyout pt va src s.mem = .ok (r, m') ∧ (r = true ↔ Vm.UserRange s.mem pt va src.length) ∧
      Vm.Written pt va src.length s.mem m' ∧
      (r = true → (∀ j < src.length, (Vm.place s.mem pt (va + j)).map m'.deref = src[j]?) ∧
        Vm.copyin pt va src.length m' = .ok ((true, src), m'))) ∧
    ∀ len, ∃ r l, Vm.copyin pt va len s.mem = .ok ((r, l), s.mem) ∧ (r = true ↔ Vm.UserRange s.mem pt va len) ∧
      l.length ≤ len ∧ (∀ j < l.length, (Vm.place s.mem pt (va + j)).map s.mem.deref = l[j]?) ∧
      (r = true → l.length = len) := by
  obtain ⟨H, hKernel⟩ := (run_inv h).kernel
  obtain ⟨pt', tf, A, f, hOwner, -, hValid⟩ := hKernel.owner hp hState
  obtain rfl := Option.some.inj (hTable.symm.trans hOwner.pagetable)
  have hImage := hOwner.space.image hOwner.tree hValid.left
  exact ⟨Vm.copyout_image hImage va, Vm.copyin_image hImage va⟩

theorem start_state : ∃ d s, (sysLts smallLayout d).Run [] s ∧ (s.proc 0).state = .runnable ∧ (s.proc 0).sz = 4096 := by
  have hRun : (after [] []).any (fun s => (s.proc 0).state = .runnable ∧ (s.proc 0).sz = 4096) = true := by decide +kernel
  obtain ⟨s, hs, hState⟩ := (Option.any_eq_true ..).mp hRun
  obtain ⟨d, -, hReach⟩ := after_run hs
  exact ⟨d, s, hReach, of_decide_eq_true hState⟩

/-- Something is written at the start of the memory of the first process. -/
theorem copy_exact_start : ∃ d s pt, (sysLts smallLayout d).Run [] s ∧ (s.proc 0).pagetable = some pt ∧
    ∃ r m', Vm.copyout pt 0 [1, 2, 3] s.mem = .ok (r, m') ∧ (r = true ↔ Vm.UserRange s.mem pt 0 3) ∧
      Vm.Written pt 0 3 s.mem m' := by
  obtain ⟨d, s, hRun, hState, -⟩ := start_state
  have hUsed : (s.proc 0).state ≠ .unused := by
    rw [hState]
    exact nofun
  obtain ⟨H, hKernel⟩ := (run_inv hRun).kernel
  obtain ⟨pt, tf, A, f, hOwner, -⟩ := hKernel.owner (by decide) hUsed
  obtain ⟨r, m', hCopy, hIff, hWritten, -⟩ := (copy_exact hRun (by decide) hUsed hOwner.pagetable 0).1 [1, 2, 3]
  exact ⟨d, s, pt, hRun, hOwner.pagetable, r, m', hCopy, hIff, hWritten⟩

/-! ## sbrk -/

/-- Process `p` has another size: pages below both sizes are as they were, new ones are zero, and there are no others. -/
structure Grown (p : Nat) (s s' : State) : Prop where
  below : ∀ v, v * PGSIZE < min (s.proc p).sz (s'.proc p).sz → s'.pte p v = s.pte p v ∧ s'.page p v = s.page p v
  fresh : ∀ v < VTRAPFRAME, s.pte p v = none → ∀ w, s'.pte p v = some w → s'.mem.page w.pa = zeroPage
  above : ∀ v < VTRAPFRAME, PGROUNDUP (s'.proc p).sz ≤ v * PGSIZE → s'.pte p v = none

theorem Resized.grown {sz' : Nat} {m' : Mem} {A' : Multiset Nat} {f' : Nat → Option Pte}
    (hOwner : Owner L s.mem (s.proc p) pt tf A f) (h : Resized L s p pt tf A f sz' m' A' f') :
    Grown p s { s with mem := m', proc := upd s.proc p { s.proc p with sz := sz' } } := by
  generalize hs' : ({ s with mem := m', proc := upd s.proc p { s.proc p with sz := sz' } } : State) = s'
  have hSz : (s'.proc p).sz = sz' := by rw [← hs']; exact congrArg Proc.sz (upd_self ..)
  have hMem : s'.mem = m' := by rw [← hs']
  have hNew : Owner L s'.mem (s'.proc p) pt tf A' f' := by
    rw [← hs']
    dsimp only
    rw [upd_self]
    exact h.owner
  have hTop := Vm.vtrapframe_eq
  have hN := Vm.npages_limit
  have hOldLe := hOwner.space.le
  have hNewLe := hNew.space.le
  refine ⟨fun v hv => ?_, fun v hv hNone w hw => ?_, fun v hv hHigh => ?_⟩
  · rw [hSz, lt_min_iff] at hv
    have hOld : v < npages (s.proc p).sz := (Vm.lt_npages hOwner.size).mpr hv.1
    have hLow : v < npages sz' := (Vm.lt_npages (hSz ▸ hNew.size)).mpr hv.2
    have hMap := h.map v hOld hLow
    rw [hOwner.page (by omega), hNew.page (by omega), hOwner.pte (by omega), hNew.pte (by omega), hMap]
    refine ⟨rfl, ?_⟩
    cases hw : f v with
    | none => rfl
    | some w => exact congrArg some (hMem ▸ h.kept v w hOld hLow hw)
  · rw [hOwner.pte (by omega)] at hNone
    rw [hNew.pte (by omega)] at hw
    have hOut : ¬ v < npages (s.proc p).sz := fun hIn => by
      have hSome := (hOwner.space.user v hv).mpr hIn
      rw [hNone] at hSome
      cases hSome
    have hIn : v < npages sz' := hSz ▸ (hNew.space.user v hv).mp (Option.isSome_of_eq_some hw)
    obtain ⟨w', hw', -, hZero⟩ := (h.fresh v (by omega) hIn).entry
    obtain rfl := Option.some.inj (hw.symm.trans hw')
    rw [hMem, hZero]
  · rw [Vm.pgroundup_eq] at hHigh
    have hOut : npages (s'.proc p).sz ≤ v := Nat.le_of_mul_le_mul_right hHigh (by decide)
    rw [hNew.pte (by omega)]
    by_contra hSome
    have hIn := (hNew.space.user v hv).mp (Option.ne_none_iff_isSome.mp hSome)
    omega

/-- A process that nothing has happened to yet. -/
structure Proc.Clean (pr : Proc) : Prop where
  killed : pr.killed = false
  chan   : pr.chan = none
  xstate : pr.xstate = 0
  parent : pr.parent = none
  sz     : pr.sz = 0
  ofile  : ∀ fd < NOFILE, pr.ofile fd = none
  cwd    : pr.cwd = none

theorem Proc.Tidy.clean {pr : Proc} {pid : BitVec 32} (h : pr.Tidy True) (hState : pr.state = .unused)
    (hImg : pr.img = ⟨0, none, none⟩) : (pr.allocated pid tf pt).Clean where
  killed := h.killed trivial hState
  chan := (h.free hState).2.1
  xstate := (h.free hState).2.2.1
  parent := (h.free hState).2.2.2
  sz := congrArg Img.sz hImg
  ofile := (h.gone (.inl hState)).1
  cwd := (h.gone (.inl hState)).2

/-- In every run in which nobody kills the process 0: `kill` of another pid returns 0 exactly when a process has that pid,
and marks this process and wakes it up; otherwise it returns -1 and does nothing. And the entry that `allocproc` returns is
clean. -/
theorem kill_exact (pid : BitVec 32) (h : (sysLts L d).RunIf (fun _ a => a.Civil) tr s) (hPid : pid ≠ 0) :
    (∃ r s', kill pid s = .ok (r, s') ∧
      (r = 0 ↔ ∃ q < NPROC, (s.proc q).state ≠ .unused ∧ (s.proc q).pid = pid) ∧
      (r = 0 → ∃ q < NPROC, (s.proc q).state ≠ .unused ∧ (s.proc q).pid = pid ∧
        s' = { s with proc := upd s.proc q (s.proc q).doomed }) ∧
      (r ≠ 0 → r = -1 ∧ s' = s)) ∧
    ∃ r s', allocproc L s = .ok (r, s') ∧ ∀ q, r = some q → (s'.proc q).Clean := by
  have hInv := runIf_inv h
  have hUsed : ∀ q < NPROC, (s.proc q).pid = pid → (s.proc q).state ≠ .unused := fun q hq hEq hFree =>
    hPid (hEq ▸ ((hInv.tidy q hq).free hFree).1)
  constructor
  · refine (wp_kill (fun hNone => ?_) fun q hq hEq => ?_).total
    · refine ⟨⟨nofun, fun hSome => ?_⟩, nofun, fun _ => ⟨rfl, rfl⟩⟩
      obtain ⟨q, hq, -, hEq⟩ := hSome
      exact absurd hEq (hNone q hq)
    · have hTarget := hUsed q hq hEq
      exact ⟨⟨fun _ => ⟨q, hq, hTarget, hEq⟩, fun _ => rfl⟩, fun _ => ⟨q, hq, hTarget, hEq, rfl⟩, fun hBad => absurd rfl hBad⟩
  · obtain ⟨H, hKernel⟩ := hInv.kernel
    obtain ⟨P, hMem⟩ := hKernel.memory
    refine (wp_allocproc hMem.valid.zero (fun q hq hState => (hMem.idle hq hState).1) (fun _ => nofun)
      (fun _ _ _ _ _ => nofun) fun q pt tf A f m' hq hState _ _ _ q' hq' => ?_).total
    obtain rfl := Option.some.inj hq'
    dsimp only
    rw [upd_self]
    exact (hInv.tidy q hq).clean hState (hMem.idle hq hState).1

/-- The first process is the only one, and has the pid 1. -/
theorem kill_exact_start : ∃ d s, (sysLts smallLayout d).Run [] s ∧
    (∃ s', kill 1 s = .ok (0, s')) ∧ ∃ s', kill 2 s = .ok (-1, s') := by
  have hRun : (after [] []).any (fun s => (s.proc 0).state ≠ .unused ∧ (s.proc 0).pid = 1 ∧
      ∀ q < NPROC, (s.proc q).pid ≠ 2) = true := by decide +kernel
  obtain ⟨s, hs, hState⟩ := (Option.any_eq_true ..).mp hRun
  obtain ⟨hUsed, hPid, hOther⟩ := of_decide_eq_true hState
  obtain ⟨d, -, hReach⟩ := after_run hs
  have hIf : (sysLts smallLayout d).RunIf (fun _ a => a.Civil) [] s := by
    generalize hTr : ([] : List Act) = tr at hReach
    cases hReach with
    | start hInit => exact .start hInit
    | step => simp at hTr
  obtain ⟨⟨r, s₁, hKill, hZero, -⟩, -⟩ := kill_exact 1 hIf (by decide)
  obtain ⟨⟨r', s₂, hKill', hZero', -, hNone⟩, -⟩ := kill_exact 2 hIf (by decide)
  have hr : r = 0 := hZero.mpr ⟨0, by decide, hUsed, hPid⟩
  have hr' : r' = -1 := (hNone fun hBad => by
    obtain ⟨q, hq, -, hEq⟩ := hZero'.mp hBad
    exact hOther q hq hEq).1
  exact ⟨d, s, hReach, ⟨s₁, hr ▸ hKill⟩, s₂, hr' ▸ hKill'⟩

/-- The first process kills the process 0: there is none, but the call returns 0, and the next process that is made has been
killed before it starts. -/
theorem kill_zero : ∃ d s s' s'' q, (sysLts smallLayout d).Run [] s ∧ kill 0 s = .ok (0, s') ∧
    (∀ q < NPROC, (s.proc q).state ≠ .unused → (s.proc q).pid ≠ 0) ∧
    allocproc smallLayout s' = .ok (some q, s'') ∧ (s''.proc q).killed = true := by
  have hCall : (after [] []).any (fun s => (kill 0 s).toOption.any fun r =>
      decide (r.1 = 0 ∧ ∀ q < NPROC, (s.proc q).state ≠ .unused → (s.proc q).pid ≠ 0) &&
        (allocproc smallLayout r.2).toOption.any fun t => t.1 = some 1 ∧ (t.2.proc 1).killed = true) = true := by
    decide +kernel
  obtain ⟨d, s, r, s', hRun, hKill, hRes⟩ := after_call hCall
  rw [Bool.and_eq_true, decide_eq_true_eq] at hRes
  obtain ⟨⟨rfl, hPids⟩, hAlloc⟩ := hRes
  obtain ⟨q, s'', hNew, hDead⟩ := exists_of_any hAlloc
  obtain ⟨rfl, hDead⟩ := of_decide_eq_true hDead
  exact ⟨d, s, s', s'', 1, hRun, hKill, hPids, hNew, hDead⟩

/-! ## fork -/

/-- In `s'` the process `q` is a copy of the process `p` of `s`. -/
structure Forked (p q : Nat) (s s' : State) : Prop where
  slot   : q < NPROC ∧ (s.proc q).state = .unused ∧ (s'.proc q).state = .runnable
  sz     : (s'.proc q).sz = (s.proc p).sz
  pages  : ∀ v, v * PGSIZE < (s.proc p).sz → ∃ w w', s.pte p v = some w ∧ s'.pte q v = some w' ∧ w'.flags = w.flags ∧
    s'.mem.page w'.pa = s.mem.page w.pa ∧ w'.pa ∈ s.mem.freelist ∧ w.pa ∉ s.mem.freelist
  regs   : ∃ tf tf', (s.proc p).trapframe = some tf ∧ (s'.proc q).trapframe = some tf' ∧
    ByteBuf.field (s'.mem.page tf') Reg.a0.offset 8 = 0 ∧
    ∀ i < TRAPFRAMESIZE, i < Reg.a0.offset ∨ Reg.a0.offset + 8 ≤ i →
      ByteBuf.peek (s'.mem.page tf') i = ByteBuf.peek (s.mem.page tf) i
  ofile  : ∀ fd < NOFILE, (s'.proc q).ofile fd = (s.proc p).ofile fd
  files  : ∀ f, s'.ftable f =
    { s.ftable f with ref := (s.ftable f).ref + #{fd ∈ range NOFILE | (s.proc p).ofile fd = some f} }
  cwd    : ∃ k, (s.proc p).cwd = some k ∧ (s'.proc q).cwd = some k ∧ s'.core =
    { s.core with itable := upd s.core.itable k { s.core.itable k with ref := (s.core.itable k).ref + 1 } }
  others : ∀ r, r ≠ q → s'.proc r = s.proc r
  parent : SameImage p s s'

/-- From `s` to `s'` a `fork` of process `p` has failed. -/
structure Unforked (p : Nat) (s s' : State) : Prop where
  parent : s'.proc p = s.proc p
  image  : SameImage p s s'
  ftable : s'.ftable = s.ftable
  core   : s'.core = s.core
  slot   : ∀ q, s'.proc q = s.proc q ∨
    (s.proc q).state = .unused ∧ ∃ name, s'.proc q = { s.proc q with killed := false, name := name }
  free   : s'.mem.freelist.Perm s.mem.freelist

theorem peek_childRegs {b parent : Page} {i : Nat} (hi : i < TRAPFRAMESIZE)
    (hOther : i < Reg.a0.offset ∨ Reg.a0.offset + 8 ≤ i) :
    ByteBuf.peek (childRegs b parent) i = ByteBuf.peek parent i := by
  rw [childRegs, ByteBuf.setField, ByteBuf.peek_poke_outside hOther,
    ByteBuf.peek_poke, Nat.sub_zero, if_pos ⟨Nat.zero_le i, by omega, hi.trans (by decide)⟩]

theorem Proc.count_files (pr : Proc) (f : Nat) :
    (openFiles pr.ofile).count f = #{fd ∈ range NOFILE | pr.ofile fd = some f} := by
  rw [← Multiset.coe_count, openFiles_coe, Proc.files, count_total, card_filter]
  exact sum_congr rfl fun fd _ => count_ofOption _ _

theorem Proc.Tidy.freed {pr : Proc} {κ : Prop} (h : pr.Tidy κ) (hState : pr.state = .unused) (hImg : pr.img = ⟨0, none, none⟩) :
    ∃ name, pr.freed = { pr with killed := false, name := name } := by
  obtain ⟨hPid, hChan, hStatus, hParent⟩ := h.free hState
  have hSz : pr.sz = 0 := congrArg Img.sz hImg
  have hPt : pr.pagetable = none := congrArg Img.pagetable hImg
  have hTf : pr.trapframe = none := congrArg Img.trapframe hImg
  refine ⟨pr.freed.name, ?_⟩
  rw [Proc.freed, hPid, hChan, hStatus, hParent, hState, hSz, hPt, hTf]

theorem freelist_perm {m m' : Mem} (h : pool.Moves 0 0 m m') : m'.freelist.Perm m.freelist := by
  have hFree := h.conserve
  rw [add_zero, add_zero] at hFree
  exact Multiset.coe_eq_coe.mp hFree

/-- The pages of a child were free, those of its parent were not. -/
theorem ChildOf.pages {npt ntf : Nat} {A' : Multiset Nat} {f' : Nat → Option Pte} {m' : Mem}
    (h : ChildOf L s p tf f npt ntf A' f' m')
    (hValid : Valid L (A + own f (Ico 0 (npages (s.proc p).sz)) + {tf}) s.mem) (hv : v < npages (s.proc p).sz) :
    ∃ w w', f v = some w ∧ f' v = some w' ∧ w'.flags = w.flags ∧ m'.page w'.pa = s.mem.page w.pa ∧
      w'.pa ∈ s.mem.freelist ∧ w.pa ∉ s.mem.freelist := by
  obtain ⟨w, w', hw, hw', hFlags, hPage⟩ := (h.copied v hv).entry
  have hIn : v ∈ Ico 0 (npages (s.proc p).sz) := mem_Ico.mpr ⟨Nat.zero_le v, hv⟩
  refine ⟨w, w', hw, hw', hFlags, hPage, ?_, fun hFree => ?_⟩
  · have hTaken := h.moves.conserve
    rw [add_zero] at hTaken
    have hMem : w'.pa ∈ pool.free s.mem := by
      rw [← hTaken]
      exact Multiset.mem_add.mpr (.inr (Multiset.mem_add.mpr (.inl (Multiset.mem_add.mpr (.inr (Vm.mem_own hIn hw'))))))
    exact hMem
  · refine Multiset.disjoint_left.mp (Multiset.nodup_add.mp hValid.nodup).2.2 hFree ?_
    exact Multiset.mem_add.mpr (.inl (Multiset.mem_add.mpr (.inr (Vm.mem_own hIn hw))))

/-- In every run, `fork` makes a copy of a running process that has its own pages and shares files and directory, or it makes
none and changes nothing but the next pid. -/
theorem fork_copies (h : (sysLts L d).Run tr s) (hp : p < NPROC) (hState : (s.proc p).state = .runnable) :
    ∃ r s', fork L p s = .ok (r, s') ∧ match r with
      | some q => Forked p q s s'
      | none => Unforked p s s' := by
  have hInv := run_inv h
  obtain ⟨H, hKernel⟩ := hInv.kernel
  obtain ⟨k, hCwd⟩ := hKernel.cwd hp hState
  obtain ⟨pt, tf, A, f, hOwner, -, hValid⟩ := hKernel.owner hp (by rw [hState]; exact nofun)
  obtain ⟨P, hMem⟩ := hKernel.memory
  refine (wp_fork hOwner hCwd hValid (fun q hq hFree => (hMem.idle hq hFree).1)
    (fun fd hfd f hFile => (hKernel.counts.ofFd hp hfd hFile).2) (fun _ => ?_) (fun q m' hq hFree hMoves => ?_)
    fun q npt ntf A' f' m' hq hFree hChild => ?_).total
  · exact ⟨rfl, ⟨fun _ _ => rfl, fun _ _ => rfl⟩, rfl, rfl, fun _ => .inl rfl, .refl _⟩
  · have hne : p ≠ q := by
      rintro rfl
      rw [hState] at hFree
      cases hFree
    have hSame : upd s.proc q (s.proc q).freed p = s.proc p := upd_of_ne hne
    refine ⟨hSame, hOwner.untouched hValid hSame hMoves, rfl, rfl, fun r => ?_, freelist_perm hMoves⟩
    by_cases hr : r = q
    · dsimp only
      rw [hr, upd_self]
      exact .inr ⟨hFree, (hInv.tidy q hq).freed hFree (hMem.idle hq hFree).1⟩
    · exact .inl (upd_of_ne hr)
  · have hne : p ≠ q := by
      rintro rfl
      rw [hState] at hFree
      cases hFree
    have hSame : (s.forked p q npt ntf k m').proc p = s.proc p := upd_of_ne hne
    have hNew : (s.forked p q npt ntf k m').proc q = _ := upd_self ..
    obtain ⟨b, hRegs⟩ := hChild.regs
    have hGone := (hInv.tidy q hq).gone (.inl hFree)
    have hCopy : Owner L m' ((s.forked p q npt ntf k m').proc q) npt ntf A' f' := by
      rw [hNew]
      exact ⟨rfl, rfl, hOwner.size, hChild.tree, hChild.space⟩
    refine ⟨⟨hq, hFree, ?_⟩, ?_, fun v hv => ?_, ⟨tf, ntf, hOwner.trapframe, ?_, ?_, fun i hi hOther => ?_⟩, fun fd hfd => ?_,
      fun f => ?_, ⟨k, hCwd, ?_, rfl⟩, fun r hr => upd_of_ne hr, hOwner.untouched hValid hSame hChild.moves⟩
    · rw [hNew]
    · rw [hNew]
    · have hLt : v < npages (s.proc p).sz := (Vm.lt_npages hOwner.size).mpr hv
      have hTop : v < 512 ^ 3 := by
        have hN := Vm.npages_limit
        have hLe := hOwner.space.le
        omega
      rw [hOwner.pte hTop, hCopy.pte hTop]
      exact hChild.pages hValid hLt
    · rw [hNew]
    · show ByteBuf.field (m'.page ntf) _ _ = 0
      rw [hRegs, childRegs, ByteBuf.field_setField_same (by decide), Nat.zero_mod]
    · show ByteBuf.peek (m'.page ntf) i = _
      rw [hRegs, peek_childRegs hi hOther]
    · rw [hNew]
      dsimp only
      rw [if_pos (List.mem_range.mpr hfd), hGone.1 fd hfd, Option.or_none]
    · rw [← Proc.count_files]
      rfl
    · rw [hNew]

/-- The first process forks. -/
theorem fork_copies_start : ∃ d s, (sysLts smallLayout d).Run [] s ∧ ∃ r s', fork smallLayout 0 s = .ok (r, s') ∧
    match r with
    | some q => Forked 0 q s s'
    | none => Unforked 0 s s' := by
  obtain ⟨d, s, hRun, hState, -⟩ := start_state
  exact ⟨d, s, hRun, fork_copies hRun (by decide) hState⟩

/-! ## exec -/

/-- The pages of the page table of process `p`, and the user pages in it. -/
def State.image (s : State) (p : Nat) : Multiset Nat :=
  (s.proc p).pagetable.elim 0 fun pt => Vm.tables s.mem pt + own (Vm.lookup s.mem pt) (range VTRAPFRAME)

theorem Owner.image (h : Owner L s.mem (s.proc p) pt tf A f) :
    s.image p = A + own f (Ico 0 (npages (s.proc p).sz)) := by
  have hTop := Vm.vtrapframe_eq
  rw [State.image, h.pagetable, Option.elim_some, h.tree.tables, ← Space.own h.space]
  refine congrArg (A + ·) (Vm.own_congr fun v hv => h.tree.lookup ?_)
  have := mem_range.mp hv
  omega

/-- From `s` to `s'` an `exec` of process `p` has failed. -/
structure NotExeced (p : Nat) (s s' : State) : Prop where
  proc  : s'.proc = s.proc
  pages : ∀ x ∈ s.image p, s'.mem.page x = s.mem.page x
  image : SameImage p s s'
  free  : s'.mem.freelist.Perm s.mem.freelist
  refs  : ∀ k < NINODE, (s'.core.itable k).ref = (s.core.itable k).ref
  locks : ∀ k < NINODE, (s'.core.itable k).locked = false
  quiet : s'.outstanding = 0

/-- Between two calls no inode is locked. -/
theorem Counts.unlocked (h : Counts 0 0 0 s) {k : Nat} (hk : k < NINODE) : (s.core.itable k).locked = false := by
  have hLock : (s.core.itable k).locked.toNat = _ := h.inodes.eq (.lock k) hk
  rw [zero_add, Multiset.count_add, count_total, count_total, sum_eq_zero fun f _ => ?_, sum_eq_zero fun q _ => ?_] at hLock
  · exact Bool.toNat_eq_zero.mp hLock
  · cases hCwd : (s.proc q).cwd with
    | none | some => simp [Proc.dir, hCwd]
  · rw [File.inode]
    split
    · simp
    · exact Multiset.count_zero _

/-- From `s` to `s'` process `p` has got another image: its pages were free, and those of the old image are free now. -/
structure Execed (p : Nat) (s s' : State) : Prop where
  taken : s'.image p ≤ (s.mem.freelist : Multiset Nat)
  free  : (s'.mem.freelist : Multiset Nat) + s'.image p = s.mem.freelist + s.image p

/-- In every run, a call of `exec` that fails leaves the process as it was, and nothing else behind; one that succeeds frees
the pages of the old image and takes those of the new one. -/
theorem exec_all_or_nothing {path : Option (List UInt8)} {args : Nat → Arg} {r : Int} (h : (sysLts L d).Run tr s)
    (hReady : s.Ready p) (hExec : sysExec L p path args s = .ok (r, s')) :
    (r = -1 → NotExeced p s s') ∧ (r ≠ -1 → Execed p s s') := by
  have hInv := run_inv h
  obtain ⟨H, hKernel⟩ := hInv.kernel
  obtain ⟨k, hCwd⟩ := hKernel.cwd hReady.1 hReady.2.1
  obtain ⟨pt, tf, A, f, hOwner, -, hValid⟩ := hKernel.owner hReady.1 (by rw [hReady.2.1]; exact nofun)
  suffices hWp : wp Fault (sysExec L p path args) (fun r s' => (r = -1 → NotExeced p s s') ∧ (r ≠ -1 → Execed p s s')) s from
    hWp.ok hExec
  refine wp_sysExec (Φ := fun c => Counts 0 0 0 { s with core := c }) (G := fun _ => True) hOwner hCwd
    (by rwa [add_comm]) hKernel.counts (fun path' _ => hKernel.counts.opened hReady.1 hCwd path')
    (fun c' m' hCounts hMoves => ⟨fun _ => ?_, fun hBad => absurd rfl hBad⟩)
    fun path' argv c' m' Got elf img pt' n sp A' f' ustack _ _ hCounts _ _ hRep => ⟨fun hBad => ?_, fun _ => ?_⟩
  · refine ⟨rfl, fun x hx => ?_, hOwner.untouched hValid rfl hMoves, freelist_perm hMoves, fun j hj => ?_, fun j hj => ?_,
      hInv.quiet⟩
    · rw [hOwner.image] at hx
      exact hMoves.cell_eq (by rw [zero_add]; exact hValid.left.nodup) hx
    · exact (hCounts.inodes.eq (.ref j) hj).trans (hKernel.counts.inodes.eq (.ref j) hj).symm
    · exact hCounts.unlocked hj
  · have : (0 : Int) ≤ argv.length := Int.natCast_nonneg _
    omega
  · generalize hs' : ({ s with core := c', mem := m', proc := upd s.proc p _ } : State) = s'
    have hMem : s'.mem = m' := by rw [← hs']
    have hProc : s'.proc p = (s.proc p).execed pt' ((n + 2) * PGSIZE) path' := by
      rw [← hs']
      exact upd_self ..
    have hNew : Owner L s'.mem (s'.proc p) pt' tf A' f' := by
      rw [hMem, hProc]
      exact hRep.owner hOwner.trapframe
    have hImage : s'.image p = A' + own f' (Ico 0 (n + 2)) := by
      rw [hNew.image, hProc]
      exact congrArg (fun k => A' + own f' (Ico 0 k)) hRep.npages
    have hFree : pool.free m' + (A' + own f' (Ico 0 (n + 2))) + {tf} =
        pool.free s.mem + (A + own f (Ico 0 (npages (s.proc p).sz))) + {tf} := by
      rw [add_assoc, hRep.moves.conserve]
      ac_rfl
    refine ⟨?_, ?_⟩
    · rw [hImage]
      exact hRep.taken
    · rw [hImage, hOwner.image, hMem]
      exact add_right_cancel hFree

/-- A program without segments. -/
def tinyElf : List UInt8 := [0x7F, 0x45, 0x4C, 0x46] ++ List.replicate 60 0

/-- The argument "hi". -/
def tinyArgs (i : Nat) : Arg := if i = 0 then .str [104, 105] else .null

/-- `exec` as far as the commit: is there a new image? -/
def newImage (L : Layout) (p : Nat) (path : List UInt8) (argv : List (List UInt8)) : S Bool := do
  beginOp
  match ← fs (Fs.namei (← deref (← proc p).cwd) path) with
  | none => return false
  | some ip =>
    fs (Fs.ilock ip)
    let elf := (← fs (Fs.readi ip Fs.kernel 0 64)).getD []
    if elf.length ≠ 64 ∨ bytesAt elf 0 4 ≠ ELF_MAGIC then return false
    else
      match ← vm (Vm.proc_pagetable L (← deref (← proc p).trapframe)) with
      | none => return false
      | some pt =>
        match ← loadProgram L ip pt (bytesAt elf 56 2) (bytesAt elf 32 8 % 2 ^ 32) 0 with
        | (true, sz) =>
          fs (Fs.iunlockput ip)
          endOp
          let sz := PGROUNDUP sz
          let sz1 ← vm (Vm.uvmalloc L pt sz (Vm.u64 (sz + 2 * PGSIZE)))
          if sz1 = 0 then return false
          else
            vm (Vm.uvmclear pt (sz1 - 2 * PGSIZE))
            return (← vm (pushStack pt sz1 argv)).isSome
        | (false, _) => return false

/-- No panic of the file system. -/
abbrev NoFault : Panic → Prop := fun e => ¬ Fault e

theorem wp_vm_any {α : Type} {m : Vm.M α} : wp NoFault (vm m) (fun _ _ => True) s :=
  wp_vm.mpr (wp_true.weaken fun _ _ => id)

theorem wp_deref_any {x : Option Nat} : wp NoFault (deref x) (fun _ _ => True) s := by
  cases x with
  | none => exact wp_throw.mpr id
  | some => exact wp_pure.mpr trivial

theorem wp_setReg_any {r : Reg} {x : Nat} : wp NoFault (setReg p r x) (fun _ _ => True) s := by
  rw [setReg, wp_bind, wp_proc, wp_bind]
  exact wp_deref_any.mono fun _ _ _ => wp_vm_any

/-- With a new image, `exec` does not return -1. -/
theorem exec_newImage {path : List UInt8} {argv : List (List UInt8)}
    (h : wp NoFault (newImage L p path argv) (fun b _ => b = true) s) :
    wp NoFault (exec L p path argv) (fun r _ => r = argv.length) s := by
  rw [newImage, wp_bind, wp_beginOp, wp_bind, wp_proc, wp_bind] at h
  rw [exec, wp_bind, wp_beginOp, wp_bind, wp_proc, wp_bind]
  refine h.mono fun cwd s₁ h => ?_
  rw [wp_bind] at h ⊢
  refine h.mono fun ip? s₂ h => ?_
  cases ip? with
  | none => cases wp_pure.mp h
  | some ip =>
    dsimp only at h ⊢
    rw [wp_bind] at h ⊢
    refine h.mono fun _ s₃ h => ?_
    rw [wp_bind] at h ⊢
    refine h.mono fun elf s₄ h => ?_
    rw [wp_ite] at h ⊢
    refine ⟨fun hBad => (by cases wp_pure.mp (h.1 hBad)), fun hElf => ?_⟩
    replace h := h.2 hElf
    rw [wp_bind, wp_proc, wp_bind] at h ⊢
    refine h.mono fun tf s₅ h => ?_
    rw [wp_bind] at h ⊢
    refine h.mono fun pt? s₆ h => ?_
    cases pt? with
    | none => cases wp_pure.mp h
    | some pt =>
      dsimp only at h ⊢
      rw [wp_bind] at h ⊢
      refine h.mono fun res s₇ h => ?_
      obtain ⟨_ | _, sz⟩ := res
      · cases wp_pure.mp h
      · dsimp only at h ⊢
        rw [wp_bind] at h ⊢
        refine h.mono fun _ s₈ h => ?_
        rw [wp_bind, wp_endOp, wp_bind] at h
        rw [wp_bind, wp_endOp, execStack, wp_bind, wp_proc, wp_bind]
        refine h.mono fun sz1 s₉ h => ?_
        rw [wp_ite] at h ⊢
        refine ⟨fun hBad => (by cases wp_pure.mp (h.1 hBad)), fun hSz => ?_⟩
        replace h := h.2 hSz
        rw [wp_bind] at h ⊢
        refine h.mono fun _ s₁₀ h => ?_
        rw [wp_bind] at h ⊢
        refine h.mono fun sp? s₁₁ h => ?_
        cases sp? with
        | none => cases wp_pure.mp h
        | some sp =>
          dsimp only
          rw [wp_bind]
          refine wp_setReg_any.mono fun _ _ _ => ?_
          rw [wp_bind, wp_setProc, wp_bind, wp_proc, wp_bind]
          refine wp_deref_any.mono fun _ _ _ => ?_
          rw [wp_bind, wp_setProc, wp_bind]
          refine wp_setReg_any.mono fun _ _ _ => ?_
          rw [wp_bind]
          refine wp_setReg_any.mono fun _ _ _ => ?_
          rw [wp_bind]
          exact wp_vm_any.mono fun _ _ _ => wp_pure.mpr rfl

theorem sysExec_newImage {path : List UInt8} {args : Nat → Arg} {argv : List (List UInt8)}
    (h : wp NoFault (fetchArgs args MAXARG 0 [] []) (fun r s₁ => r.2 = some argv ∧
      wp NoFault (newImage L p path argv) (fun b _ => b = true) s₁) s) (hPath : argstr (some path) = some path) :
    wp NoFault (sysExec L p (some path) args) (fun r _ => r = argv.length) s := by
  rw [sysExec, hPath]
  dsimp only
  rw [wp_bind]
  refine h.mono fun r s₁ hFetched => ?_
  obtain ⟨hArgv, hImage⟩ := hFetched
  rw [hArgv]
  dsimp only
  rw [wp_bind]
  refine (exec_newImage hImage).mono fun _ s₂ hRet => ?_
  rw [wp_bind]
  exact (wp_forM (fun _ _ => True) (fun _ _ _ _ => wp_vm_any) r.1 trivial).mono fun _ _ _ => wp_pure.mpr hRet

theorem tiny_state : ∃ d s s' s'', (sysLts smallLayout d).Run [] s ∧ s.Ready 0 ∧
    sysExec smallLayout 0 (some [97]) tinyArgs s = .ok (1, s') ∧ sysExec smallLayout 0 (some [98]) tinyArgs s = .ok (-1, s'') := by
  have hCall : (after [([97], tinyElf)] []).any (fun s => (fetchArgs tinyArgs MAXARG 0 [] [] s).toOption.any fun r =>
      decide (s.Ready 0 ∧ r.1.2 = some [[104, 105]]) && (newImage smallLayout 0 [97] [[104, 105]] r.2).toOption.any (·.1) &&
        (sysExec smallLayout 0 (some [98]) tinyArgs s).toOption.any fun t => t.1 = -1) = true := by decide +kernel
  obtain ⟨d, s, r, s₁, hRun, hFetch, hRes⟩ := after_call hCall
  simp only [Bool.and_eq_true, decide_eq_true_eq] at hRes
  obtain ⟨⟨⟨hReady, hArgv⟩, hImage⟩, hOther⟩ := hRes
  obtain ⟨b, s₂, hNew, hb⟩ := exists_of_any hImage
  obtain ⟨r', s'', hExec', hFail⟩ := exists_of_any hOther
  obtain rfl : r' = -1 := of_decide_eq_true hFail
  have hFirst : wp NoFault (sysExec smallLayout 0 (some [97]) tinyArgs) _ s :=
    sysExec_newImage (wp_of_ok hFetch ⟨hArgv, wp_of_ok hNew hb⟩) rfl
  cases hExec : sysExec smallLayout 0 (some [97]) tinyArgs s with
  | error e => exact absurd ((sysExec_inv (run_inv hRun) hReady _ _).error hExec) (hFirst.error hExec)
  | ok t =>
    obtain ⟨t, s'⟩ := t
    obtain rfl : t = 1 := hFirst.ok hExec
    exact ⟨d, s, s', s'', hRun, hReady, hExec, hExec'⟩

/-- The program "a" is there, "b" is not. -/
theorem exec_all_or_nothing_tiny : ∃ d s s' s'', (sysLts smallLayout d).Run [] s ∧
    sysExec smallLayout 0 (some [97]) tinyArgs s = .ok (1, s') ∧ Execed 0 s s' ∧
    sysExec smallLayout 0 (some [98]) tinyArgs s = .ok (-1, s'') ∧ NotExeced 0 s s'' := by
  obtain ⟨d, s, s', s'', hRun, hReady, hOk, hFail⟩ := tiny_state
  exact ⟨d, s, s', s'', hRun, hOk, (exec_all_or_nothing hRun hReady hOk).2 (by decide), hFail,
    (exec_all_or_nothing hRun hReady hFail).1 rfl⟩

theorem Owner.umem (h : Owner L s.mem (s.proc p) pt tf A f) (a : Nat) : umem s.mem (s.pte p) a = umem s.mem f a := by
  have hPte : userPte (s.pte p) (a / PGSIZE) = userPte f (a / PGSIZE) := by
    unfold userPte
    split
    · rw [h.pte (by omega)]
    · rfl
  rw [Vm.umem, Vm.umem, hPte]

/-- Process `p` has the arguments `argv` on its stack: the array of pointers to them at `sp`, and their copies above it. -/
structure ArgStack (s : State) (p sp : Nat) (argv : List (List UInt8)) (ustack : List Nat) : Prop where
  low      : (s.proc p).sz - PGSIZE ≤ sp
  high     : sp < (s.proc p).sz
  aligned  : sp % 16 = 0
  length   : ustack.length = argv.length
  pointers : ∀ (i : Nat) x, (ustack ++ [0])[i]? = some x → BytesAt s.mem (s.pte p) (sp + 8 * i) (leBytes 8 x)
  copies   : ∀ (i a : Nat) t, ustack[i]? = some a → argv[i]? = some t → BytesAt s.mem (s.pte p) a (t ++ [0]) ∧
    sp + 8 * (argv.length + 1) ≤ a ∧ a + (t.length + 1) ≤ (s.proc p).sz
  apart    : ∀ (i j a b : Nat) t, i < j → ustack[i]? = some a → ustack[j]? = some b → argv[j]? = some t → b + (t.length + 1) ≤ a
  /-- the addresses are the ones that integers without bounds give -/
  addrs    : ∀ (i a : Nat) t, ustack[i]? = some a → argv[i]? = some t →
    ∃ b : Nat, ((s.proc p).sz :: ustack)[i]? = some b ∧ (a : Int) = below b (t.length + 1)
  addr     : (sp : Int) = below (ustack.getLastD (s.proc p).sz : Nat) (8 * (argv.length + 1))
  regs     : ∃ tf, (s.proc p).trapframe = some tf ∧ ByteBuf.field (s.mem.page tf) Reg.a1.offset 8 = sp ∧
    ByteBuf.field (s.mem.page tf) Reg.sp.offset 8 = sp

theorem field_startRegs (b : Page) (entry : Nat) {sp : Nat} (hsp : sp < 2 ^ 64) :
    ByteBuf.field (startRegs b entry sp) Reg.a1.offset 8 = sp ∧ ByteBuf.field (startRegs b entry sp) Reg.sp.offset 8 = sp := by
  constructor
  · rw [startRegs, ByteBuf.field_setField_disjoint (by decide), ByteBuf.field_setField_disjoint (by decide),
      ByteBuf.field_setField_same (by decide)]
    exact Nat.mod_eq_of_lt hsp
  · rw [startRegs, ByteBuf.field_setField_same (by decide)]
    exact Nat.mod_eq_of_lt hsp

theorem Stack.args {sp : Nat} {argv : List (List UInt8)} {ustack : List Nat}
    (hOwner : Owner L s.mem (s.proc p) pt tf A f) (h : Stack s.mem f (s.proc p).sz argv sp ustack)
    (hRegs : ByteBuf.field (s.mem.page tf) Reg.a1.offset 8 = sp ∧ ByteBuf.field (s.mem.page tf) Reg.sp.offset 8 = sp) :
    ArgStack s p sp argv ustack := by
  have hHigh := h.high
  replace h : Stack s.mem (s.pte p) (s.proc p).sz argv sp ustack := h.congr hOwner.umem
  refine ⟨h.low, by omega, h.aligned, h.length, h.pointers, fun i a t ha ht => ?_,
    fun i j a b t hij ha hb ht => h.copies.apart hij ha hb ht, fun i a t ha ht => (h.copies.get ha ht).1, h.addr,
    tf, hOwner.trapframe, hRegs⟩
  exact ⟨(h.copies.get ha ht).2, h.below a (List.mem_of_getElem? ha), h.copies.le ha ht⟩

/-- In every run, a call of `exec` that succeeds leaves the arguments on the stack of the new program and returns their number.
There are never more pointers than `ustack` has room for, and no subtraction from an `sp` in the stack page wraps. -/
theorem exec_stack {path : Option (List UInt8)} {args : Nat → Arg} {r : Int} (h : (sysLts L d).Run tr s)
    (hReady : s.Ready p) (hExec : sysExec L p path args s = .ok (r, s')) :
    (r ≠ -1 → ∃ argv sp ustack, Accepted args argv ∧ r = argv.length ∧ ArgStack s' p sp argv ustack) ∧
      ∀ argv, Accepted args argv → argv.length + 1 ≤ MAXARG ∧
        ∀ sz sp n, 2 * PGSIZE ≤ sz → sz < 2 ^ 64 → sz - PGSIZE ≤ sp → sp ≤ sz →
          n = 8 * (argv.length + 1) ∨ (∃ t ∈ argv, n = t.length + 1) → (Vm.u64 (sp + 2 ^ 64 - n) : Int) = sp - n := by
  constructor
  · intro hr
    obtain ⟨H, hKernel⟩ := (run_inv h).kernel
    obtain ⟨k, hCwd⟩ := hKernel.cwd hReady.1 hReady.2.1
    obtain ⟨pt, tf, A, f, hOwner, -, hValid⟩ := hKernel.owner hReady.1 (by rw [hReady.2.1]; exact nofun)
    suffices hWp : wp Fault (sysExec L p path args) (fun r s' => r ≠ -1 →
        ∃ argv sp ustack, Accepted args argv ∧ r = argv.length ∧ ArgStack s' p sp argv ustack) s from hWp.ok hExec hr
    refine wp_sysExec (Φ := fun c => Counts 0 0 0 { s with core := c }) (G := fun _ => True) hOwner hCwd
      (by rwa [add_comm]) hKernel.counts (fun path' _ => hKernel.counts.opened hReady.1 hCwd path')
      (fun c' m' _ _ hBad => absurd rfl hBad)
      fun path' argv c' m' Got elf img pt' n sp A' f' ustack _ hArgs _ _ _ hRep _ => ⟨argv, sp, ustack, hArgs, rfl, ?_⟩
    generalize hs' : ({ s with core := c', mem := m', proc := upd s.proc p _ } : State) = s'
    have hMem : s'.mem = m' := by rw [← hs']
    have hProc : s'.proc p = (s.proc p).execed pt' ((n + 2) * PGSIZE) path' := by
      rw [← hs']
      exact upd_self ..
    have hNew : Owner L s'.mem (s'.proc p) pt' tf A' f' := by
      rw [hMem, hProc]
      exact hRep.owner hOwner.trapframe
    have hStack : Stack s'.mem f' (s'.proc p).sz argv sp ustack := by
      rw [hMem, hProc]
      exact hRep.program.stack
    have hHigh := hStack.high
    have hSize := hNew.size
    refine hStack.args hNew ?_
    rw [hMem, hRep.regs]
    exact field_startRegs _ _ (by omega)
  · intro argv hArgs
    have hCount := hArgs.count
    refine ⟨hCount, fun sz sp n hsz hTop hLow hHigh hn => ?_⟩
    have hFits : n ≤ PGSIZE := by
      rcases hn with rfl | ⟨t, ht, rfl⟩
      · unfold MAXARG at hCount
        unfold PGSIZE
        omega
      · exact hArgs.short t ht
    unfold Vm.u64
    omega

theorem exec_stack_tiny : ∃ d s s', (sysLts smallLayout d).Run [] s ∧
    sysExec smallLayout 0 (some [97]) tinyArgs s = .ok (1, s') ∧ ∃ argv sp ustack, argv.length = 1 ∧ ArgStack s' 0 sp argv ustack := by
  obtain ⟨d, s, s', -, hRun, hReady, hOk, -⟩ := tiny_state
  obtain ⟨argv, sp, ustack, -, hCount, hArgs⟩ := (exec_stack hRun hReady hOk).1 (by decide)
  exact ⟨d, s, s', hRun, hOk, argv, sp, ustack, by omega, hArgs⟩

end Xv6.Sys
