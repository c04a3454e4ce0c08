import Xv6.Sys.Exec
import Xv6.Sys.Fork
import Xv6.Sys.Grow
import Xv6.Sys.Inv

/-!
# xv6 — every run keeps the invariant

The calls that make, change and end processes, the steps between calls, and the start of the system. With those of `Inv`
they are all steps there are, so what `Inv` says holds in every state of every run, and no step of any run fails with a
panic other than those in `Fault` (`Run.inv`, `Run.fault`).
-/

namespace Xv6.Sys

open Hoare Finset
open Vm (Layout Mem Pte PgTable Space Valid pool own npages)

variable {L : Layout} {s s' : State} {κ : Prop} {p q : Nat} {H : Nat → Multiset Nat} {hf : Multiset Nat}
  {hi : Multiset Fs.Hand} {he : Multiset (Nat × Bool)} {m' : Mem}

/-- The file system has changed. -/
theorem Kernel.core {c' : Fs.Core} {hi' : Multiset Fs.Hand} (h : Kernel L H hf hi he s)
    (hCounts : Counts hf hi' he { s with core := c' }) : Kernel L H hf hi' he { s with core := c' } := by
  obtain ⟨⟨P, hMem⟩, -⟩ := h
  exact ⟨⟨P, hMem.holds, hMem.procs, hMem.pipes, hMem.total⟩, hCounts⟩

/-- Free pages are written. -/
theorem Kernel.scratch (h : Kernel L H hf hi he s) (hMoves : pool.Moves 0 0 s.mem m') :
    Kernel L H hf hi he { s with mem := m' } := by
  obtain ⟨⟨P, hMem⟩, hCounts⟩ := h
  have hValid := hMem.valid
  rw [← zero_add (∑ q ∈ range NPROC, H q + _)] at hValid
  refine ⟨⟨P, fun q hq => (hMem.holds q hq).congr fun x hx => ?_, hMem.procs, hMem.pipes, ?_⟩, hCounts.mem m'⟩
  · exact hMoves.cell_eq hValid.nodup (Multiset.mem_add.mpr (.inl (Multiset.mem_sum.mpr ⟨q, mem_range.mpr hq, hx⟩)))
  · have hFree := hMoves.conserve
    rw [add_zero, add_zero] at hFree
    rw [hFree]
    exact hMem.total

/-- The memory of a process that is in use. -/
theorem Kernel.owner (h : Kernel L H hf hi he s) (hp : p < NPROC) (hState : (s.proc p).state ≠ .unused) :
    ∃ pt tf A f, Owner L s.mem (s.proc p) pt tf A f ∧ H p = A + own f (Ico 0 (npages (s.proc p).sz)) + {tf} ∧
      Valid L (A + own f (Ico 0 (npages (s.proc p).sz)) + {tf}) s.mem := by
  obtain ⟨⟨P, hMem⟩, -⟩ := h
  obtain ⟨pt, tf, A, f, hOwner, hHp⟩ := hMem.owner hp hState
  have hValid := (hMem.split hp).left
  rw [hHp] at hValid
  exact ⟨pt, tf, A, f, hOwner, hHp, hValid⟩

/-! ## sbrk -/

theorem Resized.kernel {pt tf sz' : Nat} {A A' : Multiset Nat} {f f' : Nat → Option Pte}
    (h : Resized L s p pt tf A f sz' m' A' f') (hKernel : Kernel L H hf hi he s) (hp : p < NPROC)
    (hHp : H p = A + own f (Ico 0 (npages (s.proc p).sz)) + {tf}) :
    ∃ H', Kernel L H' hf hi he { s with mem := m', proc := upd s.proc p { s.proc p with sz := sz' } } := by
  obtain ⟨P, hMem⟩ := hKernel.memory
  have hOk := hMem.procs p hp
  have hMoves := h.moves.add {tf}
  rw [← hHp] at hMoves
  refine ⟨_, hKernel.step hp ⟨hMoves, ?_, ?_, fun q hq => ?_, rfl, rfl, rfl⟩ ?_⟩
  · dsimp only
    rw [upd_self]
    exact h.owner.holds
  · dsimp only
    rw [upd_self]
    exact ⟨hOk.pagetable, hOk.cwd⟩
  · dsimp only
    rw [upd_of_ne hq]
    exact ⟨rfl, id⟩
  · exact (hKernel.counts.mem m').setProc_same rfl rfl

theorem sysSbrk_inv (h : Inv κ L s) (hReady : s.Ready p) (n : BitVec 32) :
    wp Fault (sysSbrk L p n) (fun _ s' => Inv κ L s') s := by
  obtain ⟨H, hKernel⟩ := h.kernel
  obtain ⟨pt, tf, A, f, hOwner, hHp, hValid⟩ := hKernel.owner hReady.1 (by rw [hReady.2.1]; exact nofun)
  rw [sysSbrk, wp_bind, wp_proc, wp_bind]
  refine wp_growproc hOwner hValid.left (fun m' A' hRes => ?_) fun m' A' f' hRes => ?_
  · obtain ⟨H', h'⟩ := hRes.kernel hKernel hReady.1 hHp
    rw [show ({ s.proc p with sz := (s.proc p).sz } : Proc) = s.proc p from rfl, upd_eta] at h'
    rw [if_pos (by decide), wp_pure]
    exact h.aside h' ⟨rfl, rfl, rfl⟩
  · obtain ⟨H', h'⟩ := hRes.kernel hKernel hReady.1 hHp
    rw [if_neg (by decide), wp_pure]
    refine h.keep (p := p) h' (fun q hq => upd_of_ne hq) ?_ rfl
    simp only [upd_self]
    exact hReady.2.1

/-! ## fork -/

/-- An entry of the process table is given back. -/
theorem Inv.freed (h : Inv κ L s) (hKernel : Kernel L H 0 0 0 s) (hq : q < NPROC)
    (hState : (s.proc q).state = .unused ∨ (s.proc q).state = .zombie) (hMoves : pool.Moves (H q) 0 s.mem m')
    (pid : BitVec 32) :
    Inv κ L { s with mem := m', nextpid := pid, proc := upd s.proc q (s.proc q).freed } where
  kernel := by
    have hLocal : Local L q (H q) 0 s { s with mem := m', proc := upd s.proc q (s.proc q).freed } := by
      refine ⟨hMoves, ?_, ?_, fun r hr => ?_, rfl, rfl, rfl⟩
      · dsimp only
        rw [upd_self]
        exact .idle
      · dsimp only
        rw [upd_self]
        exact ⟨⟨fun _ => rfl, fun _ => rfl⟩, by simp [Proc.freed]⟩
      · dsimp only
        rw [upd_of_ne hr]
        exact ⟨rfl, id⟩
    have hStep := hKernel.step hq hLocal ((hKernel.counts.mem m').setProc_same rfl rfl)
    exact ⟨_, hStep.other pid s.outstanding⟩
  tidy r hr := by
    by_cases hrq : r = q
    · simp only [hrq, upd_self]
      have hGone := (h.tidy q hq).gone hState
      exact ⟨fun _ => hGone, fun _ => ⟨rfl, rfl, rfl, rfl⟩, fun _ _ => rfl, by rintro ⟨⟩⟩
    · simp only [upd_of_ne hrq]
      exact h.tidy r hr
  quiet := h.quiet

/-- The open files as a list and as a multiset. -/
theorem openFiles_coe (pr : Proc) : (openFiles pr.ofile : Multiset Nat) = pr.files := by
  have hRange : ∀ n, (((List.range n).filterMap pr.ofile : List Nat) : Multiset Nat) = total (range n) ofOption pr.ofile := by
    intro n
    induction n with
    | zero => rfl
    | succ n ih =>
      rw [List.range_succ, List.filterMap_append, ← Multiset.coe_add, ih, total, total, sum_range_succ]
      cases hFile : pr.ofile n with
      | none | some => simp [hFile]
  exact hRange NOFILE

theorem Proc.files_none {pr : Proc} (h : ∀ fd < NOFILE, pr.ofile fd = none) : pr.files = 0 := by
  rw [Proc.files, total]
  exact sum_eq_zero fun fd hfd => by rw [h fd (mem_range.mp hfd), ofOption_none]

/-- Child and parent share their files and their directory. -/
theorem Counts.forked {pt tf k : Nat} (h : Counts hf hi he s) (hp : p < NPROC) (hq : q < NPROC)
    (hGone : (∀ fd < NOFILE, (s.proc q).ofile fd = none) ∧ (s.proc q).cwd = none) (hCwd : (s.proc p).cwd = some k) :
    Counts hf hi he (s.forked p q pt tf k m') := by
  have hIn : q ∈ range NPROC := mem_range.mpr hq
  have hNoFiles : (s.proc q).files = 0 := Proc.files_none hGone.1
  have hNoDir : (s.proc q).dir = 0 := by rw [Proc.dir, hGone.2, Fs.ptr_none]
  refine ⟨?_, ?_, ?_, fun f hZero => ?_, h.alive⟩
  · have hFiles : ((s.forked p q pt tf k m').proc q).files = (s.proc p).files := by
      refine total_congr fun fd hfd => ?_
      simp only [State.forked, upd_self]
      rw [if_pos (List.mem_range.mpr (mem_range.mp hfd)), hGone.1 fd (mem_range.mp hfd), Option.or_none]
    simp only [State.forked, upd_self] at hFiles ⊢
    rw [total_put hIn hNoFiles, hFiles, add_left_comm, ← openFiles_coe]
    refine (h.files.add fun f hMem => h.files.valid f ?_).congr fun f _ => ?_
    · rw [openFiles_coe] at hMem
      exact Multiset.mem_add.mpr (.inr (mem_total (mem_range.mpr hp) hMem))
    · rw [Multiset.coe_count]
  · have hTake := h.inodes.take (h.inodes.valid _ (mem_cwd hp hCwd hi))
    have hRefs : Fs.Refs (s.forked p q pt tf k m').core _ := Fs.refs_setRef hTake rfl
    have hSame : total (range NFILE) File.inode (s.forked p q pt tf k m').ftable = total (range NFILE) File.inode s.ftable :=
      total_congr fun _ _ => rfl
    refine hRefs.moved ?_
    rw [hSame]
    simp only [State.forked]
    rw [total_put hIn hNoDir, Proc.dir, Fs.ptr_some]
    ac_rfl
  · have hSame : total (range NFILE) File.ends (s.forked p q pt tf k m').ftable = total (range NFILE) File.ends s.ftable :=
      total_congr fun _ _ => rfl
    rw [hSame]
    exact h.ends.congr fun _ _ => rfl
  · exact h.idle f (Nat.eq_zero_of_add_eq_zero_right hZero)

theorem sysFork_inv (h : Inv κ L s) (hReady : s.Ready p) : wp Fault (sysFork L p) (fun _ s' => Inv κ L s') s := by
  obtain ⟨H, hKernel⟩ := h.kernel
  obtain ⟨k, hCwd⟩ := hKernel.cwd hReady.1 hReady.2.1
  obtain ⟨pt, tf, A, f, hOwner, -, hValid⟩ := hKernel.owner hReady.1 (by simp [hReady.2.1])
  obtain ⟨P, hMem⟩ := hKernel.memory
  rw [sysFork, wp_bind]
  refine wp_fork hOwner hCwd hValid (fun q hq hState => (hMem.idle hq hState).1)
    (fun fd hfd f hFile => (hKernel.counts.ofFd hReady.1 hfd hFile).2) (fun _ => wp_pure.mpr h)
    (fun q m' hq hState hMoves => wp_pure.mpr ?_) fun q npt ntf A' f' m' hq hState hChild => ?_
  · refine h.freed hKernel hq (.inl hState) ?_ _
    rw [(hMem.idle hq hState).2]
    exact hMoves
  · have hGone := (h.tidy q hq).gone (.inl hState)
    rw [wp_bind, wp_proc, wp_pure]
    have hStep : Local L q (H q) (A' + own f' (Ico 0 (npages (s.proc p).sz)) + {ntf}) s (s.forked p q npt ntf k m') := by
      refine ⟨?_, ?_, ?_, fun r hr => ?_, rfl, rfl, rfl⟩
      · rw [(hMem.idle hq hState).2]
        exact hChild.moves
      · simp only [State.forked, upd_self, Proc.img]
        exact .live hOwner.size hChild.tree hChild.space
      · simp only [State.forked, upd_self]
        exact ⟨by simp, by simp⟩
      · dsimp only [State.forked]
        rw [upd_of_ne hr]
        exact ⟨rfl, id⟩
    refine ⟨⟨_, hKernel.step hq hStep (hKernel.counts.forked hReady.1 hq hGone hCwd)⟩, fun r hr => ?_, h.quiet⟩
    by_cases hrq : r = q
    · simp only [State.forked, hrq, upd_self]
      exact .live (.inl rfl)
    · simp only [State.forked, upd_of_ne hrq]
      exact h.tidy r hr

/-! ## exec -/

/-- However little is known of a file: `readi` returns no more bytes than it was asked for. -/
theorem readiLoop_length {k n fuel tot off : Nat} {ok : Nat → Nat → Bool} {c : Fs.Core} :
    wp Fs.T (Fs.readiLoop k ok n fuel tot off) (fun r _ => (r.getD []).length ≤ n - tot) c := by
  induction fuel generalizing tot off c with
  | zero => exact wp_pure.mpr (Nat.zero_le _)
  | succ fuel ih =>
    rw [Fs.readiLoop, wp_ite]
    refine ⟨fun hMore => ?_, fun _ => wp_pure.mpr (Nat.zero_le _)⟩
    rw [wp_bind]
    refine wp_true.mono fun b c₁ _ => ?_
    rw [wp_bind]
    refine wp_true.mono fun bp c₂ _ => ?_
    dsimp only
    rw [wp_ite]
    refine ⟨fun _ => ?_, fun _ => wp_pure.mpr (Nat.zero_le _)⟩
    rw [wp_bind]
    refine ih.mono fun rest c₃ hRest => wp_pure.mpr ?_
    cases rest with
    | none => exact Nat.zero_le _
    | some l =>
      simp only [Option.getD_some, Option.map_some, List.length_append, List.length_map, List.length_range] at hRest ⊢
      omega

theorem readi_length {k off n : Nat} {ok : Nat → Nat → Bool} {c : Fs.Core} :
    wp Fs.T (Fs.readi k ok off n) (fun r _ => (r.getD []).length ≤ n) c := by
  rw [Fs.readi, wp_bind]
  refine wp_true.mono fun ip c₁ _ => ?_
  dsimp only
  rw [wp_ite]
  refine ⟨fun _ => wp_pure.mpr (Nat.zero_le _), fun hRange => ?_⟩
  refine readiLoop_length.mono fun r c₂ hLen => ?_
  split at hLen
  · omega
  · exact hLen

/-- The inode that a path leads to can be locked, read and let go of. -/
theorem Counts.opened {cwd : Nat} (h : Counts 0 0 0 s) (hp : p < NPROC) (hCwd : (s.proc p).cwd = some cwd)
    (path : List UInt8) :
    wp (fun e => Fault (.fs e)) (Fs.namei cwd path)
      (Opened Fault (fun c => Counts 0 0 0 { s with core := c }) fun _ => True) s.core := by
  have hNamei := h.wp_fs_borrow (O := Fs.ptr)
    (Q := fun r s' => Opened Fault (fun c => Counts 0 0 0 { s with core := c }) (fun _ => True) r s'.core)
    (mem_cwd hp hCwd 0) (Fs.held_namei cwd path) fun r c' h' => ?_
  · rwa [Sys.wp_fs] at hNamei
  · cases r with
    | none => exact h'
    | some ip =>
      refine ⟨fun c => Counts 0 (Fs.both ip + 0) 0 { s with core := c }, fun _ n l => l.length ≤ n, trivial,
        ⟨fun c off n hc => ?_, fun _ _ _ hLen => hLen⟩, ?_, fun c hc => ?_⟩
      · have hRead := hc.wp_fs (Q := fun _ s' => Counts 0 (Fs.both ip + 0) 0 { s with core := s'.core })
          (.keeps (.readi ip Fs.kernel off n)) fun _ _ h₁ => h₁
        rw [Sys.wp_fs] at hRead
        exact (hRead.and readi_length).mono fun _ _ h₁ => h₁
      · have hLock := h'.wp_fs (Q := fun _ s' => Counts 0 (Fs.both ip + 0) 0 { s with core := s'.core })
          (Fs.held_ilock ip) fun _ _ h₁ => h₁
        rwa [Sys.wp_fs] at hLock
      · have hPut := hc.wp_fs (Q := fun _ s' => Counts 0 0 0 { s with core := s'.core })
          (Fs.held_iunlockput ip) fun _ _ h₁ => h₁
        rwa [Sys.wp_fs] at hPut

theorem sysExec_inv (h : Inv κ L s) (hReady : s.Ready p) (path : Option (List UInt8)) (args : Nat → Arg) :
    wp Fault (sysExec L p path args) (fun _ s' => Inv κ L s') s := by
  obtain ⟨H, hKernel⟩ := h.kernel
  obtain ⟨k, hCwd⟩ := hKernel.cwd hReady.1 hReady.2.1
  obtain ⟨pt, tf, A, f, hOwner, hHp, hValid⟩ := hKernel.owner hReady.1 (by rw [hReady.2.1]; exact nofun)
  obtain ⟨P, hMem⟩ := hKernel.memory
  refine wp_sysExec (Φ := fun c => Counts 0 0 0 { s with core := c }) (G := fun _ => True) hOwner hCwd
    (by rwa [add_comm]) hKernel.counts (fun path' _ => hKernel.counts.opened hReady.1 hCwd path')
    (fun c' m' hCounts hMoves => ?_) fun path' argv c' m' Got elf img pt' n sp A' f' ustack _ _ hCounts _ _ hRep => ?_
  · exact h.aside ((hKernel.core hCounts).scratch hMoves) ⟨rfl, rfl, rfl⟩
  · have hOk := hMem.procs p hReady.1
    have hNew : Owner L m' ((s.proc p).execed pt' ((n + 2) * Vm.PGSIZE) path') pt' tf A' f' := hRep.owner hOwner.trapframe
    have hHolds := hNew.holds
    rw [show npages ((s.proc p).execed pt' ((n + 2) * Vm.PGSIZE) path').sz = n + 2 from hRep.npages] at hHolds
    have hStep : Local L p (H p) (A' + own f' (Ico 0 (n + 2)) + {tf}) s
        { s with core := c', mem := m', proc := upd s.proc p ((s.proc p).execed pt' ((n + 2) * Vm.PGSIZE) path') } := by
      refine ⟨?_, ?_, ?_, fun q hq => ?_, rfl, rfl, rfl⟩
      · rw [hHp, add_comm]
        exact hRep.moves
      · dsimp only
        rw [upd_self]
        exact hHolds
      · dsimp only
        rw [upd_self]
        exact ⟨⟨fun hBad => absurd (hReady.2.1.symm.trans hBad) (by decide), nofun⟩, hOk.cwd⟩
      · dsimp only
        rw [upd_of_ne hq]
        exact ⟨rfl, id⟩
    have hKernel' := hKernel.step hReady.1 hStep ((hCounts.mem m').setProc_same rfl rfl)
    refine h.keep (p := p) hKernel' (fun q hq => upd_of_ne hq) ?_ rfl
    dsimp only
    rw [upd_self]
    exact hReady.2.1

/-! ## wait -/

theorem sysWait_inv (h : Inv κ L s) (hReady : s.Ready p) (addr : Nat) :
    wp Fault (sysWait L p addr) (fun _ s' => Inv κ L s') s := by
  obtain ⟨H, hKernel⟩ := h.kernel
  rw [sysWait, wp_bind, wait, wp_bind, wp_get]
  split
  · exact wp_pure.mpr (wp_pure.mpr h)
  · rename_i q hFind
    have hq : q < NPROC := List.mem_range.mp (List.mem_of_find?_eq_some hFind)
    obtain ⟨-, hZombie⟩ : (s.proc q).parent = some p ∧ (s.proc q).state = .zombie := by
      simpa using List.find?_some hFind
    -- the child is freed when its status is copied out
    have hDone : ∀ (ok : Bool) m', Kernel L H 0 0 0 { s with mem := m' } →
        wp Fault (if ok then do
            freeproc L q
            return some (s.proc q).pid
          else return none) (fun _ s' => Inv κ L s') { s with mem := m' } := fun ok m' h' => by
      have hInv : Inv κ L { s with mem := m' } := h.aside h' ⟨rfl, rfl, rfl⟩
      rw [wp_ite]
      refine ⟨fun _ => ?_, fun _ => wp_pure.mpr hInv⟩
      obtain ⟨P, hMem⟩ := h'.memory
      rw [wp_bind]
      refine wp_freeproc (hMem.holds q hq) (hMem.split hq).left fun m₂ hMoves => wp_pure.mpr ?_
      exact hInv.freed h' hq (.inr hZombie) hMoves s.nextpid
    dsimp only
    rw [wp_ite]
    refine ⟨fun _ => ?_, fun _ => ?_⟩
    · obtain ⟨pt, hPt⟩ := hKernel.pagetable hReady.1 (by simp [hReady.2.1])
      rw [wp_bind, wp_proc, hPt, wp_bind, wp_deref, wp_bind]
      refine hKernel.copyout hReady.1 hPt fun r m₁ h₁ => (hDone r m₁ h₁).mono fun pid _ hInv => ?_
      cases pid with
      | none | some => exact wp_pure.mpr hInv
    · rw [wp_bind, wp_pure]
      refine (hDone true s.mem hKernel).mono fun pid _ hInv => ?_
      cases pid with
      | none | some => exact wp_pure.mpr hInv

/-! ## exit -/

/-- `fileclose` has nothing to do with processes. -/
theorem wp_fileclose_proc {F : Panic → Prop} {f : Nat} {Q : Unit → State → Prop} (proc' : Nat → Proc)
    (h : wp F (fileclose L f) (fun _ s' => Q () { s' with proc := s.proc }) { s with proc := proc' }) :
    wp F (fileclose L f) Q s := by
  rw [fileclose, wp_bind, wp_file, wp_bind, wp_when] at h ⊢
  refine ⟨fun hBad => wp_throw.mpr (wp_throw.mp (h.1 hBad)), fun hUsed => ?_⟩
  replace h := h.2 hUsed
  rw [wp_ite] at h ⊢
  refine ⟨fun hMore => Sys.wp_setFile.mpr (Sys.wp_setFile.mp (h.1 hMore)), fun hLast => ?_⟩
  replace h := h.2 hLast
  rw [wp_bind, Sys.wp_setFile] at h ⊢
  dsimp only at h
  cases hType : (s.ftable f).type with
  | none =>
    rw [hType] at h
    dsimp only at h ⊢
    rw [wp_pure] at h ⊢
    exact h
  | pipe =>
    rw [hType] at h
    dsimp only at h ⊢
    rw [pipeclose, wp_bind, wp_get] at h ⊢
    cases hPipe : s.pipe (s.ftable f).pipe with
    | none =>
      rw [hPipe] at h
      exact wp_throw.mpr (wp_throw.mp h)
    | some pi =>
      rw [hPipe] at h
      dsimp only at h ⊢
      simp only [wp_ite, wp_bind, wp_setPipe, wp_vm] at h ⊢
      exact h
  | inode | device =>
    rw [hType] at h
    simp only [wp_bind, wp_beginOp, Sys.wp_fs, wp_endOp] at h ⊢
    exact h

/-- A descriptor whose file is closed. -/
theorem Kernel.closeFd {fd f : Nat} {Q : Unit → State → Prop} (h : Kernel L H hf hi he s) (hp : p < NPROC)
    (hfd : fd < NOFILE) (hSome : (s.proc p).ofile fd = some f)
    (hQ : ∀ s', Kernel L H hf hi he (s'.setFd p fd none) → Aside s s' → Q () s') : wp Fault (Sys.fileclose L f) Q s := by
  refine wp_fileclose_proc (s.setFd p fd none).proc ?_
  refine (h.clearFd hp hfd hSome).fileclose fun s' h' hAside => hQ _ ?_ ⟨rfl, hAside.nextpid, hAside.outstanding⟩
  have hSame : ({ s' with proc := s.proc } : State).setFd p fd none = s' := by
    show { s' with proc := (s.setFd p fd none).proc } = s'
    rw [← hAside.proc]
  rwa [hSame]

theorem Kernel.closeLoop {l : List Nat} {Q : Unit → State → Prop} (h : Kernel L H hf hi he s) (hp : p < NPROC)
    (hl : ∀ fd ∈ l, fd < NOFILE)
    (hQ : ∀ s', Kernel L H hf hi he s' → s'.nextpid = s.nextpid → s'.outstanding = s.outstanding →
      s'.proc = upd s.proc p { s.proc p with ofile := fun fd => if fd ∈ l then none else (s.proc p).ofile fd } →
      Q () s') :
    wp Fault (l.forM fun fd => do
      ifPtr ((← proc p).ofile fd) fun f => do
        Sys.fileclose L f
        Sys.setFd p fd none) Q s := by
  induction l generalizing s with
  | nil => exact wp_pure.mpr (hQ s h rfl rfl (by simp))
  | cons fd l ih =>
    rw [List.forM_eq_forM, List.forM_cons, wp_bind, wp_bind, wp_proc]
    refine wp_ifPtr (fun hNone => ?_) fun f hSome => ?_
    · refine ih h (fun fd' hfd' => hl fd' (List.mem_cons_of_mem fd hfd')) fun s' h' hPid hOut hProc => hQ s' h' hPid hOut ?_
      have hSame : (fun x => if x ∈ l then none else (s.proc p).ofile x) =
          fun x => if x ∈ fd :: l then none else (s.proc p).ofile x := by
        funext x
        by_cases hx : x = fd
        · simp [hx, hNone]
        · simp [hx]
      rw [hProc, hSame]
    · rw [wp_bind]
      refine h.closeFd hp (hl fd List.mem_cons_self) hSome fun s₁ h₁ hAside => ?_
      rw [wp_setFd]
      refine ih h₁ (fun fd' hfd' => hl fd' (List.mem_cons_of_mem fd hfd')) fun s' h' hPid hOut hProc =>
        hQ s' h' (hPid.trans hAside.nextpid) (hOut.trans hAside.outstanding) ?_
      have hSame : (fun x => if x ∈ l then none else upd (s.proc p).ofile fd none x) =
          fun x => if x ∈ fd :: l then none else (s.proc p).ofile x := by
        funext x
        by_cases hx : x = fd
        · simp [hx]
        · simp [hx]
      simp only [hProc, State.setFd, hAside.proc, upd_self, upd_upd, hSame]

/-- `pr'` has the memory, the files and the directory of `pr`. -/
structure Proc.Alike (pr pr' : Proc) : Prop where
  img   : pr'.img = pr.img
  ofile : pr'.ofile = pr.ofile
  cwd   : pr'.cwd = pr.cwd
  ok    : pr.Ok → pr'.Ok

/-- Processes are changed, but neither their memory nor what they hold. -/
theorem Kernel.relabel {proc' : Nat → Proc} (h : Kernel L H hf hi he s) (hAlike : ∀ q, (s.proc q).Alike (proc' q)) :
    Kernel L H hf hi he { s with proc := proc' } := by
  obtain ⟨⟨P, hMem⟩, hCounts⟩ := h
  have hFiles : total (range NPROC) Proc.files proc' = total (range NPROC) Proc.files s.proc :=
    total_congr fun q _ => by rw [Proc.files, (hAlike q).ofile, Proc.files]
  have hDir : total (range NPROC) Proc.dir proc' = total (range NPROC) Proc.dir s.proc :=
    total_congr fun q _ => by rw [Proc.dir, (hAlike q).cwd, Proc.dir]
  refine ⟨⟨P, fun q hq => ?_, fun q hq => (hAlike q).ok (hMem.procs q hq), hMem.pipes, hMem.total⟩, ?_⟩
  · dsimp only
    rw [(hAlike q).img]
    exact hMem.holds q hq
  · exact ⟨hCounts.files.moved (by rw [hFiles]), hCounts.inodes.moved (by rw [hDir]), hCounts.ends, hCounts.idle,
      hCounts.alive⟩

/-- The parent of a process when `p` has exited. -/
def Proc.guardian (p : Nat) (pr : Proc) : Option Nat := if pr.parent = some p then some initproc else pr.parent

theorem Proc.reparent (p : Nat) (pr : Proc) :
    (if pr.parent = some p then { pr with parent := some initproc } else pr) = { pr with parent := pr.guardian p } := by
  unfold Proc.guardian
  split
  · rfl
  · rfl

theorem exit_inv (h : Inv κ L s) (hReady : s.Ready p) (status : BitVec 32) :
    wp Fault (exit L p status) (fun _ s' => Inv κ L s') s := by
  obtain ⟨H, hKernel⟩ := h.kernel
  obtain ⟨k, hCwd⟩ := hKernel.cwd hReady.1 hReady.2.1
  rw [exit, wp_bind, wp_when]
  refine ⟨fun _ => wp_throw.mpr trivial, fun _ => ?_⟩
  rw [wp_bind, closeFiles]
  refine hKernel.closeLoop hReady.1 (fun fd => List.mem_range.mp) fun s₁ h₁ hPid hOut hProc => ?_
  have hSelf : s₁.proc p = { s.proc p with
      ofile := fun fd => if fd ∈ List.range NOFILE then none else (s.proc p).ofile fd } := by
    rw [hProc, upd_self]
  have hCwd₁ : (s₁.proc p).cwd = some k := by rw [hSelf, hCwd]
  -- the directory is given up before the process forgets it
  have h₂ : Kernel L H 0 ({.ref k} + 0) 0 { s₁ with
      proc := upd s₁.proc p { s₁.proc p with state := .zombie, xstate := status, cwd := none } } := by
    refine h₁.setProc ?_ (fun hOk => ⟨⟨by simp, fun hNone => ?_⟩, ?_⟩) (h₁.counts.setProc hReady.1 rfl ?_)
    · rfl
    · have hBad := hOk.pagetable.mpr hNone
      rw [hSelf] at hBad
      exact absurd (hReady.2.1.symm.trans hBad) (by decide)
    · rintro (hBad | hBad)
      · cases hBad
      · cases hBad
    · simp [Proc.dir, hCwd₁]
  have hPut := h₂.fs (Q := fun _ s' => Kernel L H 0 0 0 s') (Fs.held_iput k) fun _ c' h' => by rwa [zero_add] at h'
  rw [Sys.wp_fs] at hPut
  rw [wp_bind, wp_beginOp, wp_bind, wp_proc, hCwd₁, wp_bind, wp_deref, wp_bind, Sys.wp_fs]
  refine hPut.mono fun _ c₃ h₃ => ?_
  rw [wp_bind, wp_endOp, wp_bind, wp_modify, wp_setProc]
  dsimp only
  -- what has become of the other processes, and of this one
  simp only [Proc.reparent]
  generalize hNew : upd (fun q => { s₁.proc q with parent := (s₁.proc q).guardian p }) p { s₁.proc p with
    parent := (s₁.proc p).guardian p, state := .zombie, xstate := status, cwd := none } = proc'
  have hp : proc' p = { s₁.proc p with
      parent := (s₁.proc p).guardian p, state := .zombie, xstate := status, cwd := none } := by
    rw [← hNew, upd_self]
  have hq : ∀ q, q ≠ p → proc' q = { s₁.proc q with parent := (s₁.proc q).guardian p } := fun q hne => by
    rw [← hNew, upd_of_ne hne]
  have h₄ : Kernel L H 0 0 0 { s₁ with core := c₃, proc := proc' } := by
    refine h₃.relabel fun q => ?_
    dsimp only
    by_cases hqp : q = p
    · rw [hqp, hp, upd_self]
      exact ⟨rfl, rfl, rfl, fun hOk => ⟨hOk.pagetable, hOk.cwd⟩⟩
    · rw [hq q hqp, upd_of_ne hqp]
      exact ⟨rfl, rfl, rfl, fun hOk => ⟨hOk.pagetable, hOk.cwd⟩⟩
  refine ⟨⟨H, h₄.other s₁.nextpid _⟩, fun q hq' => ?_, ?_⟩
  · dsimp only
    by_cases hqp : q = p
    · rw [hqp, hp, hSelf]
      refine ⟨fun _ => ⟨fun fd hfd => if_pos (List.mem_range.mpr hfd), rfl⟩, by simp, by simp, by simp⟩
    · have hSame : s₁.proc q = s.proc q := by rw [hProc, upd_of_ne hqp]
      have hTidy := h.tidy q hq'
      rw [hq q hqp, hSame]
      refine ⟨hTidy.gone, fun hFree => ?_, hTidy.killed, hTidy.settled⟩
      obtain ⟨hPid', hChan, hStatus, hNone⟩ := hTidy.free hFree
      refine ⟨hPid', hChan, hStatus, ?_⟩
      rw [Proc.guardian, hNone, if_neg (by simp)]
  · show s₁.outstanding + 1 - 1 = 0
    rw [Int.add_sub_cancel, hOut, h.quiet]

/-! ## Other steps -/

/-- One process is changed, but neither its memory nor what it holds. -/
theorem Inv.relabel {pr : Proc} (h : Inv κ L s) (hAlike : (s.proc p).Alike pr) (hTidy : (s.proc p).Tidy κ → pr.Tidy κ) :
    Inv κ L { s with proc := upd s.proc p pr } := by
  obtain ⟨H, hKernel⟩ := h.kernel
  refine ⟨⟨H, hKernel.relabel fun q => ?_⟩, fun q hq => ?_, h.quiet⟩
  · by_cases hqp : q = p
    · rw [hqp, upd_self]
      exact hAlike
    · rw [upd_of_ne hqp]
      exact ⟨rfl, rfl, rfl, id⟩
  · by_cases hqp : q = p
    · subst hqp
      simp only [upd_self]
      exact hTidy (h.tidy q hq)
    · simp only [upd_of_ne hqp]
      exact h.tidy q hq

/-- What `kill` makes of its target. -/
def Proc.doomed (pr : Proc) : Proc :=
  { pr with killed := true, state := if pr.state = .sleeping then .runnable else pr.state }

theorem wp_kill {F : Panic → Prop} {pid : BitVec 32} {Q : Int → State → Prop}
    (hNone : (∀ q < NPROC, (s.proc q).pid ≠ pid) → Q (-1) s)
    (hSome : ∀ q < NPROC, (s.proc q).pid = pid → Q 0 { s with proc := upd s.proc q (s.proc q).doomed }) :
    wp F (kill pid) Q s := by
  rw [kill, wp_bind, wp_get]
  split
  · rename_i hFind
    refine wp_pure.mpr (hNone fun q hq hEq => ?_)
    exact List.find?_eq_none.mp hFind q (List.mem_range.mpr hq) (decide_eq_true hEq)
  · rename_i q hFind
    have hq : q < NPROC := List.mem_range.mp (List.mem_of_find?_eq_some hFind)
    have hQ := hSome q hq (by simpa using List.find?_some hFind)
    rw [Proc.doomed] at hQ
    rw [wp_bind, wp_setProc, wp_bind, wp_proc, wp_bind, wp_when]
    refine ⟨fun hSleeping => ?_, fun hAwake => ?_⟩
    · simp only [upd_self] at hSleeping
      rw [if_pos hSleeping] at hQ
      rw [wp_setProc, wp_pure]
      dsimp only
      rwa [upd_self, upd_upd]
    · simp only [upd_self] at hAwake
      rw [if_neg hAwake] at hQ
      exact wp_pure.mpr hQ

theorem kill_inv (h : Inv κ L s) (pid : BitVec 32) (hPid : κ → pid ≠ 0) :
    wp Fault (kill pid) (fun _ s' => Inv κ L s') s := by
  refine wp_kill (fun _ => h) fun q hq hEq => ?_
  -- an entry that is not in use has the pid 0
  have hUsed : κ → (s.proc q).state ≠ .unused := fun hκ hFree => hPid hκ (hEq ▸ ((h.tidy q hq).free hFree).1)
  rw [Proc.doomed]
  by_cases hSleeping : (s.proc q).state = .sleeping
  · rw [if_pos hSleeping]
    refine h.relabel ⟨rfl, rfl, rfl, fun hOk => ⟨⟨nofun, fun hNone => ?_⟩, fun _ => hOk.cwd (.inr hSleeping)⟩⟩
      fun _ => .live (.inl rfl)
    exact absurd (hSleeping.symm.trans (hOk.pagetable.mpr hNone)) (by decide)
  · rw [if_neg hSleeping]
    refine h.relabel ⟨rfl, rfl, rfl, fun hOk => ⟨hOk.pagetable, hOk.cwd⟩⟩ fun hTidy => ?_
    exact ⟨hTidy.gone, hTidy.free, fun hκ hFree => absurd hFree (hUsed hκ), hTidy.settled⟩

theorem userStore_inv (h : Inv κ L s) (hReady : s.Ready p) (va : Nat) (g : Vm.Page → Vm.Page) :
    wp Fault (userStore p va g) (fun _ s' => Inv κ L s') s := by
  obtain ⟨H, hKernel⟩ := h.kernel
  obtain ⟨pt, hPt⟩ := hKernel.pagetable hReady.1 (by rw [hReady.2.1]; exact nofun)
  obtain ⟨tf, A, f, hOwner, hHp, hImage⟩ := hKernel.image hReady.1 hPt
  rw [userStore, wp_bind, wp_proc, hPt, wp_bind, wp_deref, wp_bind, wp_vm]
  refine Vm.wp_walkaddr_user hOwner.tree ?_
  rw [wp_when]
  refine ⟨fun hMapped => ?_, fun _ => h⟩
  cases hw : Vm.userPte f (va / Vm.PGSIZE) with
  | none =>
    rw [hw] at hMapped
    exact absurd rfl hMapped
  | some w =>
    rw [wp_vm, Vm.wp_store]
    refine h.aside (hKernel.write hReady.1 hOwner hHp ?_) ⟨rfl, rfl, rfl⟩
    exact Vm.moves_store (Multiset.mem_add.mpr (.inl (hImage.within _ _ hw)))

theorem saveRegs_inv (h : Inv κ L s) (hReady : s.Ready p) (g : Vm.Page → Vm.Page) :
    wp Fault (saveRegs p g) (fun _ s' => Inv κ L s') s := by
  obtain ⟨H, hKernel⟩ := h.kernel
  obtain ⟨pt, tf, A, f, hOwner, hHp, -⟩ := hKernel.owner hReady.1 (by rw [hReady.2.1]; exact nofun)
  rw [saveRegs, wp_bind, wp_proc, hOwner.trapframe, wp_bind, wp_deref, wp_vm, Vm.wp_store]
  refine h.aside (hKernel.write hReady.1 hOwner hHp ?_) ⟨rfl, rfl, rfl⟩
  exact Vm.moves_store (Multiset.mem_add.mpr (.inr (Multiset.mem_singleton_self tf)))

theorem wakeup_inv (h : Inv κ L s) (chan : Nat) : wp Fault (wakeup chan) (fun _ s' => Inv κ L s') s := by
  obtain ⟨H, hKernel⟩ := h.kernel
  rw [wakeup, wp_modify]
  refine ⟨⟨H, hKernel.relabel fun q => ?_⟩, fun q hq => ?_, h.quiet⟩
  · unfold Proc.wakeup
    split
    · rename_i hSleeping
      refine ⟨rfl, rfl, rfl, fun hOk => ⟨⟨nofun, fun hNone => ?_⟩, fun _ => hOk.cwd (.inr hSleeping.1)⟩⟩
      exact absurd (hSleeping.1.symm.trans (hOk.pagetable.mpr hNone)) (by decide)
    · exact ⟨rfl, rfl, rfl, id⟩
  · dsimp only
    unfold Proc.wakeup
    split
    · exact .live (.inl rfl)
    · exact h.tidy q hq

/-- A process that runs goes to sleep. -/
theorem sleep_inv (h : Inv κ L s) (hReady : s.Ready p) (chan : Nat) :
    wp Fault (setProc p fun pr => { pr with chan := some chan, state := .sleeping }) (fun _ s' => Inv κ L s') s := by
  rw [wp_setProc]
  refine h.relabel ⟨rfl, rfl, rfl, fun hOk => ⟨⟨nofun, fun hNone => ?_⟩, fun _ => hOk.cwd (.inl hReady.2.1)⟩⟩
    fun _ => .live (.inr rfl)
  exact absurd (hReady.2.1.symm.trans (hOk.pagetable.mpr hNone)) (by decide)

theorem resume_inv (h : Inv κ L s) (hState : (s.proc p).state = .runnable) :
    wp Fault (setProc p fun pr => { pr with chan := none }) (fun _ s' => Inv κ L s') s := by
  rw [wp_setProc]
  exact h.relabel ⟨rfl, rfl, rfl, fun hOk => ⟨hOk.pagetable, hOk.cwd⟩⟩ fun _ => .live (.inl hState)

theorem evict_inv (h : Inv κ L s) (b : Nat) : wp Fault (fs (Fs.evict b)) (fun _ s' => Inv κ L s') s := by
  obtain ⟨H, hKernel⟩ := h.kernel
  exact hKernel.keeps (.evict b) fun _ c' h' => h.aside h' ⟨rfl, rfl, rfl⟩

/-! ## The start -/

/-- The first process. -/
def Proc.first (pid : BitVec 32) (pt tf cwd : Nat) : Proc :=
  { Proc.unused with
    state := .runnable
    pid := pid
    sz := Vm.PGSIZE
    pagetable := some pt
    trapframe := some tf
    cwd := some cwd
    name := safestrcpy Proc.unused.name [105, 110, 105, 116, 99, 111, 100, 101] }

theorem Inv.first {pt tf k : Nat} {A : Multiset Nat} {f : Nat → Option Pte} {c' : Fs.Core} {b : Vm.Page}
    (hMem : Memory L (fun _ => 0) ∅ s) (hCounts : Counts 0 0 0 s) (hFree : ∀ q, s.proc q = Proc.unused)
    (hQuiet : s.outstanding = 0) (hq : q < NPROC) (hTree : PgTable m' pt A f) (hSpace : Space L f 1 tf)
    (hMoves : pool.Moves 0 (A + own f (Ico 0 1) + {tf}) s.mem m')
    (hRefs : Fs.Refs c' ({.ref k} + (total (range NFILE) File.inode s.ftable + total (range NPROC) Proc.dir s.proc))) :
    Inv κ L { s with
      core := c', mem := m'.put tf b, proc := upd s.proc q (Proc.first s.nextpid pt tf k), nextpid := s.nextpid + 1 } := by
  have hKernel : Kernel L (fun _ => 0) 0 0 0 s := ⟨⟨∅, hMem⟩, hCounts⟩
  have hCounts' : Counts 0 {.ref k} 0 { s with core := c' } :=
    ⟨hCounts.files, hRefs, hCounts.ends, hCounts.idle, hCounts.alive⟩
  have hPut : pool.Moves {tf} {tf} m' (m'.put tf b) := Vm.moves_store (Multiset.mem_singleton_self tf)
  have hTree' : PgTable (m'.put tf b) pt A f := by
    refine hTree.moves hPut ((hMoves.valid hMem.valid.zero).part (C := own f (Ico 0 1)) ?_).nodup
    ac_rfl
  have hStep : Local L q 0 (A + own f (Ico 0 1) + {tf}) s { s with
      core := c', mem := m'.put tf b, proc := upd s.proc q (Proc.first s.nextpid pt tf k) } := by
    refine ⟨hMoves.trans (hPut.add_left _), ?_, ?_, fun r hr => ?_, rfl, rfl, rfl⟩
    · have hLive : Holds L (m'.put tf b) ⟨Vm.PGSIZE, some pt, some tf⟩ (A + own f (Ico 0 (npages Vm.PGSIZE)) + {tf}) :=
        .live (by decide) hTree' hSpace
      dsimp only
      rw [upd_self]
      exact hLive
    · dsimp only
      rw [upd_self]
      exact ⟨by simp [Proc.first], by simp [Proc.first]⟩
    · dsimp only
      rw [upd_of_ne hr]
      exact ⟨rfl, id⟩
  have hNew : Counts 0 0 0 { s with
      core := c', mem := m'.put tf b, proc := upd s.proc q (Proc.first s.nextpid pt tf k) } := by
    refine (hCounts'.mem _).setProc hq ?_ ?_
    · rw [hFree]
      rfl
    · rw [hFree]
      rfl
  refine ⟨⟨_, (hKernel.step hq hStep hNew).other (s.nextpid + 1) s.outstanding⟩, fun r hr => ?_, hQuiet⟩
  by_cases hrq : r = q
  · simp only [hrq, upd_self]
    exact .live (.inl rfl)
  · simp only [upd_of_ne hrq, hFree]
    exact ⟨fun _ => ⟨fun _ _ => rfl, rfl⟩, fun _ => ⟨rfl, rfl, rfl, rfl⟩, fun _ _ => rfl, by rintro ⟨⟩⟩

/-- The first process is made in a system where there is nothing yet. -/
theorem userinit_inv (hMem : Memory L (fun _ => 0) ∅ s) (hCounts : Counts 0 0 0 s) (hFree : ∀ q, s.proc q = Proc.unused)
    (hQuiet : s.outstanding = 0) : wp Fault (userinit L) (fun _ s' => Inv κ L s') s := by
  rw [userinit, wp_bind]
  refine wp_allocproc (hMem.valid.zero) (fun q _ _ => by rw [hFree]; rfl) (fun _ => wp_throw.mpr trivial)
    (fun q m' _ _ _ => wp_throw.mpr trivial) fun q pt tf A f m₁ hq _ hTree hSpace hMoves₁ => ?_
  dsimp only
  rw [wp_bind, wp_proc]
  dsimp only
  rw [upd_self, Proc.allocated, wp_bind, wp_deref, wp_bind, wp_vm]
  have hValid₁ := hMoves₁.valid hMem.valid.zero
  refine Vm.wp_uvminit (by decide) hSpace hTree hValid₁.left (fun m₂ => ?_) fun m₂ A₂ f₂ hTree₂ hSpace₂ hMoves₂ => ?_
  · rw [if_neg Bool.false_ne_true]
    exact wp_throw.mpr trivial
  · rw [if_pos rfl, wp_bind, wp_setProc]
    dsimp only
    rw [upd_self, upd_upd, wp_bind, wp_setReg (congrArg Proc.trapframe (upd_self ..)), wp_bind,
      wp_setReg (congrArg Proc.trapframe (upd_self ..)), wp_bind, wp_setProc]
    dsimp only
    rw [upd_self, upd_upd, Vm.Mem.put_put, Fs.namei_slash, wp_bind, Sys.wp_fs, wp_bind]
    refine ((Fs.held_iget ROOTDEV ROOTINO s.core _ hCounts.inodes).mono fun k c₃ hRefs => ?_).weaken fun _ _ => trivial
    rw [wp_pure, wp_setProc]
    dsimp only
    rw [upd_self, upd_upd, hFree]
    exact Inv.first hMem hCounts hFree hQuiet hq hTree₂ hSpace₂ (hMoves₁.trans (hMoves₂.add {tf})) hRefs

theorem boot_inv {d : Disk} {mem : Mem} {ktab kstack : List Nat}
    (hPages : (mem.freelist ++ ktab ++ kstack).Perm (allPages L)) (hBoot : boot L d mem ktab kstack = .ok s) :
    Inv κ L s := by
  unfold boot at hBoot
  simp only at hBoot
  split at hBoot
  · cases hBoot
  · generalize hs₀ : State.mk _ _ _ _ _ _ _ _ _ = s₀ at hBoot
    have hInit : wp Fault (userinit L) (fun _ s' => Inv κ L s') s₀ := by
      subst hs₀
      have hFiles : total (range NPROC) Proc.files (fun _ => Proc.unused) = 0 :=
        sum_eq_zero fun _ _ => Proc.files_none fun _ _ => rfl
      have hDir : total (range NPROC) Proc.dir (fun _ => Proc.unused) = 0 := sum_eq_zero fun _ _ => rfl
      have hInode : total (range NFILE) File.inode (fun _ => File.empty) = 0 := sum_eq_zero fun _ _ => rfl
      have hEnds : total (range NFILE) File.ends (fun _ => File.empty) = 0 := sum_eq_zero fun _ _ => rfl
      refine userinit_inv ⟨fun _ _ => .idle, fun _ _ => ⟨⟨fun _ => rfl, fun _ => rfl⟩, ?_⟩, fun x => ?_, ?_⟩
        ⟨?_, ?_, ?_, fun _ _ => rfl, nofun⟩ (fun _ => rfl) rfl
      · rintro (hBad | hBad)
        · cases hBad
        · cases hBad
      · simp
      · rw [sum_const_zero, empty_val, zero_add, zero_add]
        exact Multiset.coe_eq_coe.mpr (by rwa [← List.append_assoc])
      · rw [hFiles, add_zero]
        exact .nil fun _ _ => rfl
      · rw [hInode, hDir, add_zero, add_zero]
        refine RefCount.nil fun k _ => ?_
        cases k with
        | ref | lock => rfl
      · rw [hEnds, add_zero]
        exact .nil fun _ _ => rfl
    cases hUser : userinit L s₀ with
    | error e =>
      rw [hUser] at hBoot
      cases hBoot
    | ok r =>
      rw [hUser] at hBoot
      cases hBoot
      exact hInit.ok hUser

/-! ## Runs -/

theorem Call.inv (h : Inv κ L s) (hReady : s.Ready p) (c : Call) (hKill : κ → c ≠ .kill 0) :
    wp Fault (c.run L p) (fun _ s' => Inv κ L s') s := by
  cases c with
  | open_ path omode => exact sysOpen_inv h hReady path omode
  | mkdir path => exact sysMkdir_inv h hReady path
  | mknod path major minor => exact sysMknod_inv h hReady path major minor
  | link old new => exact sysLink_inv h hReady old new
  | unlink path => exact sysUnlink_inv h hReady path
  | chdir path => exact sysChdir_inv h hReady path
  | pipe fdarray => exact sysPipe_inv h hReady fdarray.toNat
  | close fd => exact sysClose_inv h hReady fd
  | dup fd => exact sysDup_inv h hReady fd
  | read fd ok n ext => exact sysRead_inv h hReady fd ok n.toNat ext
  | write fd src n ext => exact sysWrite_inv h hReady fd src n.toInt ext
  | fstat fd ok => exact sysFstat_inv h hReady fd ok
  | exec path args => exact sysExec_inv h hReady path args
  | sbrk n => exact sysSbrk_inv h hReady n
  | fork => exact sysFork_inv h hReady
  | wait addr => exact sysWait_inv h hReady addr.toNat
  | exit status =>
    rw [Call.run, wp_bind]
    exact (exit_inv h hReady status).mono fun _ _ h' => wp_pure.mpr h'
  | kill pid => exact kill_inv h pid fun hκ hZero => hKill hκ (hZero ▸ rfl)

/-- A program that has run to its end, or failed. -/
theorem result {α : Type} {F : Panic → Prop} {m : S α} {I : State → Prop} {r : Except Panic State}
    (h : wp F m (fun _ s' => I s') s) (hr : some ((m s).map Prod.snd) = some r) :
    (∀ s', r = .ok s' → I s') ∧ ∀ e, r = .error e → F e := by
  cases Option.some.inj hr
  cases hm : m s with
  | ok x =>
    refine ⟨fun s' hs' => ?_, nofun⟩
    cases hs'
    exact h.ok hm
  | error e =>
    refine ⟨nofun, fun e' he' => ?_⟩
    cases he'
    exact h.error hm

/-- A step keeps the invariant; if it fails, then with one of the panics that are allowed. -/
theorem step_inv {a : Act} {r : Except Panic State} (h : Inv κ L s) (hKill : κ → ∀ p, a ≠ .call p (.kill 0))
    (hStep : step L s a = some r) : (∀ s', r = .ok s' → Inv κ L s') ∧ ∀ e, r = .error e → Fault e := by
  cases a with
  | call p c =>
    simp only [step, Option.ite_none_right_eq_some] at hStep
    exact result (Call.inv h hStep.1 c fun hκ hBad => hKill hκ p (hBad ▸ rfl)) hStep.2
  | store p va f =>
    simp only [step, Option.ite_none_right_eq_some] at hStep
    exact result (userStore_inv h hStep.1 va.toNat f) hStep.2
  | trap p f =>
    simp only [step, Option.ite_none_right_eq_some] at hStep
    exact result (saveRegs_inv h hStep.1 f) hStep.2
  | sleep p chan =>
    simp only [step, Option.ite_none_right_eq_some] at hStep
    exact result (sleep_inv h hStep.1 chan) hStep.2
  | wakeup chan => exact result (wakeup_inv h chan) hStep
  | resume p =>
    simp only [step, Option.ite_none_right_eq_some] at hStep
    exact result (resume_inv h hStep.1.2) hStep.2
  | evict b => exact result (evict_inv h b) hStep

variable {d : Disk} {tr : List Act}

/-- What `Inv` says holds in every state that is reached. -/
theorem run_inv (h : (sysLts L d).Run tr s) : Inv False L s := by
  refine h.invariant (I := fun _ s => Inv False L s) (fun s₀ hInit => ?_) fun _ s₁ a s₂ _ h₁ hStep => ?_
  · obtain ⟨mem, ktab, kstack, -, hPages, hBoot⟩ := hInit
    exact boot_inv hPages hBoot
  · exact (step_inv h₁ False.elim hStep).1 s₂ rfl

/-- No step of a run fails with any other panic than those in `Fault`. -/
theorem run_fault {a : Act} {e : Panic} (h : (sysLts L d).Run tr s) (hStep : step L s a = some (.error e)) : Fault e :=
  (step_inv (run_inv h) False.elim hStep).2 e rfl

/-- Nobody calls `kill(0)`. -/
def Act.Civil (a : Act) : Prop := ∀ p, a ≠ .call p (.kill 0)

/-- Then nothing but a process that is in use is marked as killed. -/
theorem runIf_inv (h : (sysLts L d).RunIf (fun _ a => a.Civil) tr s) : Inv True L s := by
  refine h.invariant (I := fun _ s => Inv True L s) (fun s₀ hInit => ?_) fun _ s₁ a s₂ _ h₁ hCivil hStep => ?_
  · obtain ⟨mem, ktab, kstack, -, hPages, hBoot⟩ := hInit
    exact boot_inv hPages hBoot
  · exact (step_inv h₁ (fun _ => hCivil) hStep).1 s₂ rfl

end Xv6.Sys
