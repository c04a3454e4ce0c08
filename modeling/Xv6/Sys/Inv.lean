import Xv6.Sys.Counts

/-!
# xv6 — calls on files keep the counts

Between two calls every count of the kernel is right, every page has its place, no inode is locked and no transaction is
open (`Inv`). Here are the calls that deal with files and names; they keep this on each of their paths.
-/

namespace Xv6.Sys

open Hoare Finset
open Vm (Layout Image Pte pool own npages)

variable {L : Layout} {s s' : State} {κ : Prop} {p : Nat} {H : Nat → Multiset Nat} {hf : Multiset Nat}
  {hi : Multiset Fs.Hand} {he : Multiset (Nat × Bool)}

/-- An entry of the process table between two calls. If `κ`, entries that are not in use are not marked as killed. -/
structure Proc.Tidy (κ : Prop) (pr : Proc) : Prop where
  gone    : pr.state = .unused ∨ pr.state = .zombie → (∀ fd < NOFILE, pr.ofile fd = none) ∧ pr.cwd = none
  free    : pr.state = .unused → pr.pid = 0 ∧ pr.chan = none ∧ pr.xstate = 0 ∧ pr.parent = none
  killed  : κ → pr.state = .unused → pr.killed = false
  settled : pr.state ≠ .used

structure Inv (κ : Prop) (L : Layout) (s : State) : Prop where
  kernel : ∃ H, Kernel L H 0 0 0 s
  tidy   : ∀ q < NPROC, (s.proc q).Tidy κ
  quiet  : s.outstanding = 0

theorem Proc.Tidy.live {pr : Proc} (h : pr.state = .runnable ∨ pr.state = .sleeping) : pr.Tidy κ where
  gone hState := by rcases h with h | h <;> simp [h] at hState
  free hState := by rcases h with h | h <;> simp [h] at hState
  killed _ hState := by rcases h with h | h <;> simp [h] at hState
  settled := by rcases h with h | h <;> simp [h]

/-- A call that changes no process but its caller, and leaves that one running. -/
theorem Inv.keep (h : Inv κ L s) (hKernel : Kernel L H 0 0 0 s') (hOther : ∀ q, q ≠ p → s'.proc q = s.proc q)
    (hState : (s'.proc p).state = .runnable) (hQuiet : s'.outstanding = s.outstanding) : Inv κ L s' where
  kernel := ⟨H, hKernel⟩
  tidy q hq := by
    by_cases hqp : q = p
    · rw [hqp]
      exact .live (.inl hState)
    · rw [hOther q hqp]
      exact h.tidy q hq
  quiet := hQuiet.trans h.quiet

/-- A call that changes no process. -/
theorem Inv.aside (h : Inv κ L s) (hKernel : Kernel L H 0 0 0 s') (hAside : Aside s s') : Inv κ L s' where
  kernel := ⟨H, hKernel⟩
  tidy q hq := by
    rw [hAside.proc]
    exact h.tidy q hq
  quiet := hAside.outstanding.trans h.quiet

/-- The transaction of a call ends, and the call with it. -/
theorem Inv.ended {r : Int} (h : Inv κ L s) (hKernel : Kernel L H 0 0 0 s') (hOther : ∀ q, q ≠ p → s'.proc q = s.proc q)
    (hState : (s'.proc p).state = .runnable) (hOut : s'.outstanding = s.outstanding + 1) :
    wp Fault (do
      endOp
      return r) (fun _ s'' => Inv κ L s'') s' := by
  rw [wp_bind, wp_endOp, wp_pure]
  exact h.keep (p := p) (hKernel.other s'.nextpid _) hOther hState (by dsimp only; omega)

/-- The current directory of a running process. -/
theorem Kernel.cwd (h : Kernel L H hf hi he s) (hp : p < NPROC) (hState : (s.proc p).state = .runnable) :
    ∃ k, (s.proc p).cwd = some k := by
  obtain ⟨⟨P, hMem⟩, -⟩ := h
  exact Option.ne_none_iff_exists'.mp ((hMem.procs p hp).cwd (.inl hState))

theorem Kernel.pagetable (h : Kernel L H hf hi he s) (hp : p < NPROC) (hState : (s.proc p).state ≠ .unused) :
    ∃ pt, (s.proc p).pagetable = some pt := by
  obtain ⟨⟨P, hMem⟩, -⟩ := h
  exact Option.ne_none_iff_exists'.mp fun hNone => hState ((hMem.procs p hp).pagetable.mpr hNone)

/-- A process is changed, but not its memory. -/
theorem Kernel.setProc {pr : Proc} {hf' : Multiset Nat} {hi' : Multiset Fs.Hand} {he' : Multiset (Nat × Bool)}
    (h : Kernel L H hf hi he s) (hImg : pr.img = (s.proc p).img) (hOk : (s.proc p).Ok → pr.Ok)
    (hCounts : Counts hf' hi' he' { s with proc := upd s.proc p pr }) :
    Kernel L H hf' hi' he' { s with proc := upd s.proc p pr } := by
  obtain ⟨⟨P, hMem⟩, -⟩ := h
  refine ⟨⟨P, fun q hq => ?_, fun q hq => ?_, hMem.pipes, hMem.total⟩, hCounts⟩
  · by_cases hqp : q = p
    · simp only [hqp, upd_self, hImg]
      exact hMem.holds p (hqp ▸ hq)
    · simp only [upd_of_ne hqp]
      exact hMem.holds q hq
  · by_cases hqp : q = p
    · simp only [hqp, upd_self]
      exact hOk (hMem.procs p (hqp ▸ hq))
    · simp only [upd_of_ne hqp]
      exact hMem.procs q hq

theorem Kernel.setFd {fd f : Nat} (h : Kernel L H ({f} + hf) hi he s) (hp : p < NPROC) (hfd : fd < NOFILE)
    (hNone : (s.proc p).ofile fd = none) : Kernel L H hf hi he (s.setFd p fd (some f)) :=
  h.setProc rfl (fun hOk => ⟨hOk.pagetable, hOk.cwd⟩) (h.counts.setFd hp hfd hNone)

theorem Kernel.clearFd {fd f : Nat} (h : Kernel L H hf hi he s) (hp : p < NPROC) (hfd : fd < NOFILE)
    (hSome : (s.proc p).ofile fd = some f) : Kernel L H ({f} + hf) hi he (s.setFd p fd none) :=
  h.setProc rfl (fun hOk => ⟨hOk.pagetable, hOk.cwd⟩) (h.counts.clearFd hp hfd hSome)

/-- Counts do not depend on pages. -/
theorem Counts.mem (h : Counts hf hi he s) (m' : Vm.Mem) : Counts hf hi he { s with mem := m' } :=
  ⟨h.files, h.inodes, h.ends, h.idle, h.alive⟩

/-- A step in which process `p` takes and frees memory. -/
theorem Kernel.step {Hp' hf' : Multiset Nat} {hi' : Multiset Fs.Hand} {he' : Multiset (Nat × Bool)}
    (h : Kernel L H hf hi he s) (hp : p < NPROC) (hStep : Local L p (H p) Hp' s s') (hCounts : Counts hf' hi' he' s') :
    Kernel L (upd H p Hp') hf' hi' he' s' := by
  obtain ⟨⟨P, hMem⟩, -⟩ := h
  exact ⟨⟨P, hMem.step hp hStep⟩, hCounts⟩

/-- The memory of a process that has a page table. -/
theorem Kernel.image {pt : Nat} (h : Kernel L H hf hi he s) (hp : p < NPROC) (hPt : (s.proc p).pagetable = some pt) :
    ∃ tf A f, Owner L s.mem (s.proc p) pt tf A f ∧ H p = A + own f (Ico 0 (npages (s.proc p).sz)) + {tf} ∧
      Image L s.mem pt A (own f (Ico 0 (npages (s.proc p).sz))) f := by
  obtain ⟨⟨P, hMem⟩, -⟩ := h
  obtain ⟨pt', tf, A, f, hOwner, hHp⟩ := (hMem.holds p hp).owner (by rw [hPt]; exact nofun)
  obtain rfl : pt' = pt := Option.some.inj (hOwner.pagetable.symm.trans hPt)
  have hValid := (hMem.split hp).left
  rw [hHp] at hValid
  exact ⟨tf, A, f, hOwner, hHp, hOwner.space.image hOwner.tree hValid.left⟩

/-- Pages of process `p` are written, but not those of its page table. -/
theorem Kernel.write {m' : Vm.Mem} {pt tf : Nat} {A : Multiset Nat} {f : Nat → Option Pte} (h : Kernel L H hf hi he s)
    (hp : p < NPROC) (hOwner : Owner L s.mem (s.proc p) pt tf A f)
    (hHp : H p = A + own f (Ico 0 (npages (s.proc p).sz)) + {tf})
    (hMoves : pool.Moves (own f (Ico 0 (npages (s.proc p).sz)) + {tf}) (own f (Ico 0 (npages (s.proc p).sz)) + {tf}) s.mem m') :
    Kernel L H hf hi he { s with mem := m' } := by
  rw [add_assoc] at hHp
  obtain ⟨P, hMem⟩ := h.memory
  have hValid := (hMem.split hp).left
  rw [hHp, add_comm] at hValid
  have hOwner' : Owner L m' (s.proc p) pt tf A f := hOwner.congr fun x hx => hMoves.cell_eq hValid.nodup hx
  have hHolds := hOwner'.holds
  rw [add_assoc, ← hHp] at hHolds
  have hAll := hMoves.add_left A
  rw [← hHp] at hAll
  have hLocal : Local L p (H p) (H p) s { s with mem := m' } :=
    ⟨hAll, hHolds, hMem.procs p hp, fun q _ => ⟨rfl, id⟩, rfl, rfl, rfl⟩
  have hStep := h.step hp hLocal (h.counts.mem m')
  rwa [upd_eta] at hStep

theorem Kernel.copyout {pt va : Nat} {src : List UInt8} {Q : Bool → State → Prop} (h : Kernel L H hf hi he s)
    (hp : p < NPROC) (hPt : (s.proc p).pagetable = some pt)
    (hQ : ∀ r m', Kernel L H hf hi he { s with mem := m' } → Q r { s with mem := m' }) :
    wp Fault (vm (Vm.copyout pt va src)) Q s := by
  obtain ⟨tf, A, f, hOwner, hHp, hImage⟩ := h.image hp hPt
  rw [wp_vm]
  refine Vm.wp_copyout hImage fun k m' hOut => hQ _ m' (h.write hp hOwner hHp ?_)
  exact (hOut.stored.touched.moves hImage).add {tf}

/-- A file structure is taken. -/
theorem Kernel.filealloc {Q : Option Nat → State → Prop} (h : Kernel L H hf hi he s) (hNone : Q none s)
    (hSome : ∀ f < NFILE, (s.ftable f).ref = 0 → (s.ftable f).type = .none →
      Kernel L H ({f} + hf) hi he (s.setFile f { s.ftable f with ref := 1 }) →
      Q (some f) (s.setFile f { s.ftable f with ref := 1 })) : wp Fault Sys.filealloc Q s := by
  refine wp_filealloc (fun _ => hNone) fun f hf' hZero => hSome f hf' hZero (h.counts.idle f hZero) ?_
  have hDup := h.counts.dup hf'
  rw [hZero] at hDup
  exact h.table hDup

/-! ## Names -/

/-- A call that is one transaction of the file system and uses the current directory. -/
theorem Inv.transaction {m : Nat → Fs.M Int} (h : Inv κ L s) (hReady : s.Ready p)
    (hm : ∀ k, Fs.Held {.ref k} (m k) fun _ => {.ref k}) :
    wp Fault (do
      let k ← deref (← proc p).cwd
      transaction (m k)) (fun _ s' => Inv κ L s') s := by
  obtain ⟨H, hKernel⟩ := h.kernel
  obtain ⟨k, hCwd⟩ := hKernel.cwd hReady.1 hReady.2.1
  rw [wp_bind, wp_proc, hCwd, wp_bind, wp_deref, wp_transaction, ← wp_fs]
  refine hKernel.borrow (O := fun _ => 0) (mem_cwd hReady.1 hCwd 0) ?_ fun _ c' h' => h.aside h' ⟨rfl, rfl, rfl⟩
  simpa using hm k

theorem sysLink_inv (h : Inv κ L s) (hReady : s.Ready p) (old new : Option (List UInt8)) :
    wp Fault (sysLink p old new) (fun _ s' => Inv κ L s') s := by
  rw [sysLink]
  split
  · exact h.transaction hReady fun k => Fs.held_link k _ _
  · exact wp_pure.mpr h

theorem sysUnlink_inv (h : Inv κ L s) (hReady : s.Ready p) (path : Option (List UInt8)) :
    wp Fault (sysUnlink p path) (fun _ s' => Inv κ L s') s := by
  rw [sysUnlink]
  split
  · exact h.transaction hReady fun k => Fs.held_unlink k _
  · exact wp_pure.mpr h

theorem sysMkdir_inv (h : Inv κ L s) (hReady : s.Ready p) (path : Option (List UInt8)) :
    wp Fault (sysMkdir p path) (fun _ s' => Inv κ L s') s := by
  rw [sysMkdir]
  split
  · exact h.transaction hReady fun k => Fs.held_make k _ _ _ _
  · exact wp_pure.mpr h

theorem sysMknod_inv (h : Inv κ L s) (hReady : s.Ready p) (path : Option (List UInt8)) (major minor : BitVec 16) :
    wp Fault (sysMknod p path major minor) (fun _ s' => Inv κ L s') s := by
  rw [sysMknod]
  split
  · exact h.transaction hReady fun k => Fs.held_make k _ _ _ _
  · exact wp_pure.mpr h

theorem sysChdir_inv (h : Inv κ L s) (hReady : s.Ready p) (path : Option (List UInt8)) :
    wp Fault (sysChdir p path) (fun _ s' => Inv κ L s') s := by
  obtain ⟨H, hKernel⟩ := h.kernel
  obtain ⟨k, hCwd⟩ := hKernel.cwd hReady.1 hReady.2.1
  rw [sysChdir]
  split
  · exact wp_pure.mpr h
  · rename_i path' hPath
    rw [wp_bind, wp_proc, hCwd, wp_bind, wp_deref, wp_bind, wp_beginOp, wp_bind]
    refine (hKernel.other s.nextpid (s.outstanding + 1)).borrow (O := Fs.ptr) (mem_cwd hReady.1 hCwd 0)
      (Fs.held_namei k path') fun r c₁ h₁ => ?_
    cases r with
    | none => exact h.ended h₁ (fun _ _ => rfl) hReady.2.1 rfl
    | some ip =>
      rw [wp_bind]
      refine h₁.fs (Fs.held_ilock ip) fun _ c₂ h₂ => ?_
      rw [wp_bind]
      refine h₂.keeps (.inode ip) fun _ c₃ h₃ => ?_
      rw [wp_ite]
      refine ⟨fun _ => ?_, fun _ => ?_⟩
      · rw [wp_bind]
        refine h₃.fs (Fs.held_iunlockput ip) fun _ c₄ h₄ => ?_
        exact h.ended h₄ (fun _ _ => rfl) hReady.2.1 rfl
      · rw [wp_bind]
        rw [add_assoc] at h₃
        refine h₃.fs (Fs.held_iunlock ip) fun _ c₄ h₄ => ?_
        rw [zero_add, add_zero] at h₄
        -- the process holds its new directory from here on
        have h₅ : Kernel L H 0 ({.ref k} + 0) 0 { s with
            core := c₄, outstanding := s.outstanding + 1
            proc := upd s.proc p { s.proc p with cwd := some ip } } :=
          h₄.setProc rfl (fun hOk => ⟨hOk.pagetable, fun _ => nofun⟩)
            (h₄.counts.setProc hReady.1 rfl (by simp [Proc.dir, hCwd, add_comm]))
        have hPut := h₅.fs (Q := fun _ s' => Kernel L H 0 0 0 s') (Fs.held_iput k) fun _ c' h' => h'
        rw [wp_fs] at hPut
        rw [wp_bind, wp_fs]
        refine hPut.mono fun _ c₅ h₆ => ?_
        rw [wp_bind, wp_endOp, wp_bind, wp_setProc, wp_pure]
        refine h.keep (p := p) (h₆.other s.nextpid _) (fun q hq => upd_of_ne hq) ?_ (Int.add_sub_cancel ..)
        simp only [upd_self]
        exact hReady.2.1

/-! ## Descriptors -/

/-- The file structure that `sys_open` makes. -/
def File.opened (ff : File) (din : Dinode) (ip : Nat) (omode : BitVec 32) : File :=
  { (if din.type = T_DEVICE then { ff with type := .device, major := din.major } else { ff with type := .inode, off := 0 } : File) with
    ip := ip
    readable := omode &&& Fs.O_WRONLY = 0
    writable := omode &&& Fs.O_WRONLY ≠ 0 ∨ omode &&& Fs.O_RDWR ≠ 0 }

theorem File.opened_inode (ff : File) (din : Dinode) (ip : Nat) (omode : BitVec 32) :
    (ff.opened din ip omode).inode = {.ref ip} ∧ (ff.opened din ip omode).ends = 0 ∧
      (ff.opened din ip omode).ref = ff.ref := by
  unfold File.opened
  split
  · exact ⟨rfl, rfl, rfl⟩
  · exact ⟨rfl, rfl, rfl⟩

/-- The end of `sys_open`: the file takes over the reference to its inode, which is unlocked. -/
theorem openFile_kernel {f ip : Nat} {omode : BitVec 32} {next : S Int} {Q : Int → State → Prop}
    (h : Kernel L H hf (Fs.both ip + hi) he s) (hf' : f < NFILE) (hUsed : (s.ftable f).ref ≠ 0)
    (hNone : (s.ftable f).type = .none) (hNext : ∀ s', Kernel L H hf hi he s' → Aside s s' → wp Fault next Q s') :
    wp Fault (do
      let din := (← Sys.fs (Fs.inode ip)).din
      setFile f fun ff =>
        if din.type = T_DEVICE then { ff with type := .device, major := din.major }
        else { ff with type := .inode, off := 0 }
      setFile f fun ff => { ff with
        ip := ip
        readable := omode &&& Fs.O_WRONLY = 0
        writable := omode &&& Fs.O_WRONLY ≠ 0 ∨ omode &&& Fs.O_RDWR ≠ 0 }
      when (omode &&& Fs.O_TRUNC ≠ 0 ∧ din.type = T_FILE) (Sys.fs (Fs.itrunc ip))
      Sys.fs (Fs.iunlock ip)
      next) Q s := by
  rw [wp_bind]
  refine h.keeps (.inode ip) fun ino c₁ h₁ => ?_
  rw [wp_bind, Sys.wp_setFile, wp_bind, Sys.wp_setFile]
  dsimp only
  rw [upd_self, upd_upd]
  obtain ⟨hInode, hEnds, hRef⟩ := File.opened_inode (s.ftable f) ino.din ip omode
  have h₂ : Kernel L H hf ({.lock ip} + hi) he { s with
      core := c₁, ftable := upd s.ftable f ((s.ftable f).opened ino.din ip omode) } := by
    refine h₁.table (Counts.become ?_ hf' hRef hUsed hNone)
    rw [hInode, hEnds, zero_add, ← add_assoc, add_comm {_}]
    exact h₁.counts
  rw [wp_bind, wp_when]
  refine ⟨fun _ => ?_, fun _ => ?_⟩
  · refine h₂.keeps (.itrunc ip) fun _ c₃ h₃ => ?_
    rw [wp_bind]
    refine h₃.fs (Fs.held_iunlock ip) fun _ c₄ h₄ => ?_
    rw [zero_add] at h₄
    exact hNext _ h₄ ⟨rfl, rfl, rfl⟩
  · rw [wp_bind]
    refine h₂.fs (Fs.held_iunlock ip) fun _ c₄ h₄ => ?_
    rw [zero_add] at h₄
    exact hNext _ h₄ ⟨rfl, rfl, rfl⟩

theorem sysOpen_inv (h : Inv κ L s) (hReady : s.Ready p) (path : Option (List UInt8)) (omode : BitVec 32) :
    wp Fault (sysOpen L p path omode) (fun _ s' => Inv κ L s') s := by
  obtain ⟨H, hKernel⟩ := h.kernel
  obtain ⟨k, hCwd⟩ := hKernel.cwd hReady.1 hReady.2.1
  rw [sysOpen]
  split
  · exact wp_pure.mpr h
  · rename_i path' hPath
    rw [wp_bind, wp_beginOp, wp_bind, wp_proc, hCwd, wp_bind, wp_deref, wp_bind]
    refine (hKernel.other s.nextpid (s.outstanding + 1)).borrow (O := Fs.locked) (mem_cwd hReady.1 hCwd 0)
      (Fs.held_openInode k path' omode) fun r c₁ h₁ => ?_
    cases r with
    | none => exact h.ended h₁ (fun _ _ => rfl) hReady.2.1 rfl
    | some ip =>
      dsimp only
      rw [wp_bind]
      refine h₁.filealloc ?_ fun f hf _ hType h₂ => ?_
      · rw [wp_bind]
        refine h₁.fs (Fs.held_iunlockput ip) fun _ c₂ h₂ => ?_
        exact h.ended h₂ (fun _ _ => rfl) hReady.2.1 rfl
      · dsimp only
        rw [wp_bind]
        refine wp_fdalloc (fun _ => ?_) fun fd hfd hNone => ?_
        · rw [wp_bind]
          refine h₂.fileclose fun s₃ h₃ hAside => ?_
          rw [wp_bind]
          refine h₃.fs (Fs.held_iunlockput ip) fun _ c₄ h₄ => ?_
          refine h.ended (p := p) h₄ (fun q _ => ?_) ?_ hAside.outstanding
          · exact congrFun hAside.proc q
          · exact (congrArg Proc.state (congrFun hAside.proc p)).trans hReady.2.1
        · refine openFile_kernel (h₂.setFd hReady.1 hfd hNone) hf ?_ ?_ fun s₃ h₃ hAside => ?_
          · simp [State.setFd, State.setFile]
          · simpa [State.setFd, State.setFile] using hType
          · refine h.ended (p := p) h₃ (fun q hq => ?_) ?_ hAside.outstanding
            · exact (congrFun hAside.proc q).trans (upd_of_ne hq)
            · rw [hAside.proc, State.setFd_self]
              exact hReady.2.1

/-! ## Pipes -/

/-- A free page becomes a pipe. -/
theorem Memory.newPipe {P : Finset Nat} {x : Nat} {m' : Vm.Mem} (h : Memory L H P s) (hMoves : pool.Moves 0 {x} s.mem m')
    (hNew : x ∉ P) (pi : Pipe) :
    Memory L H (insert x P) { s with mem := m', pipe := upd s.pipe x (some pi) } := by
  have hValid := h.valid
  refine ⟨fun p hp => (h.holds p hp).congr fun y hy => ?_, h.procs, fun y => ?_, ?_⟩
  · rw [← zero_add (∑ q ∈ range NPROC, H q + _)] at hValid
    exact hMoves.cell_eq hValid.nodup (Multiset.mem_add.mpr (.inl (Multiset.mem_sum.mpr ⟨p, mem_range.mpr hp, hy⟩)))
  · by_cases hy : y = x
    · simp [hy]
    · simp [hy, h.pipes y]
  · have hFree := hMoves.conserve
    rw [add_zero] at hFree
    rw [← h.total, ← hFree, insert_val_of_notMem hNew, ← Multiset.singleton_add]
    ac_rfl

/-- Both its ends are open, and in the hands of who made it. -/
theorem Counts.newPipe {x : Nat} (h : Counts hf hi he s) (hNew : s.pipe x = none) (m' : Vm.Mem) :
    Counts hf hi ({(x, false)} + ({(x, true)} + he))
      { s with mem := m', pipe := upd s.pipe x (some { readopen := true, writeopen := true }) } := by
  have hEnds := (h.ends.take (k := (x, true)) trivial).take (k := (x, false)) trivial
  rw [← add_assoc, ← add_assoc, add_assoc {_}] at hEnds
  refine ⟨h.files, h.inodes, hEnds.congr fun e _ => ?_, h.idle, fun y pi hy => ?_⟩
  · obtain ⟨y, z⟩ := e
    by_cases hy : y = x
    · subst hy
      cases z with
      | true | false => simp [State.ends, hNew]
    · simp [State.ends, hy]
  · by_cases hyx : y = x
    · simp only [hyx, upd_self, Option.some.injEq] at hy
      exact .inl (hy ▸ rfl)
    · simp only [upd_of_ne hyx] at hy
      exact h.alive y pi hy

theorem Kernel.pipealloc {Q : Option (Nat × Nat) → State → Prop} (h : Kernel L H hf hi he s)
    (hNone : ∀ s', Kernel L H hf hi he s' → Aside s s' → Q none s')
    (hSome : ∀ f₀ f₁ s', Kernel L H ({f₀} + ({f₁} + hf)) hi he s' → Aside s s' → Q (some (f₀, f₁)) s') :
    wp Fault (Sys.pipealloc L) Q s := by
  rw [Sys.pipealloc, wp_bind]
  refine h.filealloc (wp_pure.mpr (hNone s h ⟨rfl, rfl, rfl⟩)) fun f₀ hf₀ _ hType₀ h₁ => ?_
  dsimp only
  rw [wp_bind]
  refine h₁.filealloc ?_ fun f₁ hf₁ hZero hType₁ h₂ => ?_
  · rw [wp_bind]
    exact h₁.fileclose fun s' h' hAside => wp_pure.mpr (hNone s' h' ⟨hAside.proc, hAside.nextpid, hAside.outstanding⟩)
  · have hne : f₁ ≠ f₀ := by
      rintro rfl
      simp [State.setFile] at hZero
    dsimp only
    rw [wp_bind, wp_vm]
    rw [add_left_comm] at h₂
    refine Vm.wp_kalloc ?_ fun x m' hMoves hFree => ?_
    · rw [wp_bind]
      refine h₂.fileclose fun s₃ h₃ hAside₃ => ?_
      rw [wp_bind]
      refine h₃.fileclose fun s₄ h₄ hAside₄ => wp_pure.mpr (hNone s₄ h₄ ?_)
      have hAside := hAside₃.trans hAside₄
      exact ⟨hAside.proc, hAside.nextpid, hAside.outstanding⟩
    · obtain ⟨⟨P, hMem⟩, hCounts⟩ := h₂
      have hNew : x ∉ P := fun hx => by
        have hValid := hMem.valid.nodup
        refine Multiset.disjoint_left.mp (Multiset.nodup_add.mp hValid).2.2 hFree ?_
        exact Multiset.mem_add.mpr (.inr (Multiset.mem_add.mpr (.inl hx)))
      have hNo := by_contra fun hSome' => hNew ((hMem.pipes x).mpr hSome')
      have hMem₃ := hMem.newPipe hMoves hNew { readopen := true, writeopen := true }
      have hCounts₃ := hCounts.newPipe hNo m'
      rw [wp_bind, wp_setPipe, wp_bind, Sys.wp_setFile, wp_bind, Sys.wp_setFile, wp_pure]
      refine hSome f₀ f₁ _ ⟨⟨_, hMem₃.holds, hMem₃.procs, hMem₃.pipes, hMem₃.total⟩, ?_⟩ ⟨rfl, rfl, rfl⟩
      refine Counts.become (Counts.become ?_ hf₀ rfl ?_ ?_) hf₁ rfl ?_ ?_
      · simpa [File.inode, File.ends] using hCounts₃
      · simp [State.setFile, hne.symm]
      · simpa [State.setFile, hne.symm] using hType₀
      · simp [State.setFile, hne]
      · simpa [State.setFile, hne] using hType₁

theorem sysPipe_inv (h : Inv κ L s) (hReady : s.Ready p) (fdarray : Nat) :
    wp Fault (sysPipe L p fdarray) (fun _ s' => Inv κ L s') s := by
  obtain ⟨H, hKernel⟩ := h.kernel
  rw [sysPipe, wp_bind]
  refine hKernel.pipealloc (fun s' h' hAside => wp_pure.mpr (h.aside h' hAside)) fun rf wf s₁ h₁ hAside₁ => ?_
  -- both files are closed again
  have hClose : ∀ s₂, Kernel L H ({rf} + ({wf} + 0)) 0 0 s₂ → (∀ q, q ≠ p → s₂.proc q = s.proc q) →
      (s₂.proc p).state = .runnable → s₂.outstanding = s.outstanding →
      wp Fault (do
        fileclose L rf
        fileclose L wf
        return (-1)) (fun (_ : Int) s' => Inv κ L s') s₂ := fun s₂ h₂ hOther hState hQuiet => by
    rw [wp_bind]
    refine h₂.fileclose fun s₃ h₃ hAside₃ => ?_
    rw [wp_bind]
    refine h₃.fileclose fun s₄ h₄ hAside₄ => wp_pure.mpr ?_
    have hAside := hAside₃.trans hAside₄
    refine h.keep (p := p) h₄ (fun q hq => (congrFun hAside.proc q).trans (hOther q hq)) ?_ (hAside.outstanding.trans hQuiet)
    rw [hAside.proc]
    exact hState
  have hState : (s₁.proc p).state = .runnable := by rw [hAside₁.proc, hReady.2.1]
  dsimp only
  rw [wp_bind]
  refine wp_fdalloc (fun _ => ?_) fun fd₀ hfd₀ hNone₀ => ?_
  · exact hClose s₁ h₁ (fun q _ => congrFun hAside₁.proc q) hState hAside₁.outstanding
  · dsimp only
    have h₂ := h₁.setFd hReady.1 hfd₀ hNone₀
    have hFd₀ : ((s₁.setFd p fd₀ (some rf)).proc p).ofile fd₀ = some rf := by simp
    rw [wp_bind]
    refine wp_fdalloc (fun _ => ?_) fun fd₁ hfd₁ hNone₁ => ?_
    · rw [wp_bind, wp_setFd]
      refine hClose _ (h₂.clearFd hReady.1 hfd₀ hFd₀) (fun q hq => ?_) ?_ hAside₁.outstanding
      · simp [State.setFd, hq, hAside₁.proc]
      · simp [hState]
    · have hne : fd₀ ≠ fd₁ := by
        rintro rfl
        rw [hFd₀] at hNone₁
        cases hNone₁
      have h₃ := h₂.setFd hReady.1 hfd₁ hNone₁
      obtain ⟨pt, hPt⟩ := h₃.pagetable hReady.1 (by simp [hState])
      generalize hs₃ : (s₁.setFd p fd₀ (some rf)).setFd p fd₁ (some wf) = s₃ at h₃ hPt
      have hOther₃ : ∀ q, q ≠ p → s₃.proc q = s.proc q := fun q hq => by
        rw [← hs₃]
        simp [State.setFd, hq, hAside₁.proc]
      have hState₃ : (s₃.proc p).state = .runnable := by
        rw [← hs₃]
        simp [hState]
      have hQuiet₃ : s₃.outstanding = s.outstanding := by
        rw [← hs₃]
        exact hAside₁.outstanding
      have hFiles₃ : (s₃.proc p).ofile fd₀ = some rf ∧ (s₃.proc p).ofile fd₁ = some wf := by
        rw [← hs₃]
        simp [hne]
      -- the two descriptors are there, or not, when both numbers are copied out
      have hDone : ∀ (ok : Bool) m', Kernel L H 0 0 0 { s₃ with mem := m' } →
          wp Fault (if ok then return 0
            else do
              setFd p fd₀ none
              setFd p fd₁ none
              fileclose L rf
              fileclose L wf
              return (-1)) (fun (_ : Int) s' => Inv κ L s') { s₃ with mem := m' } := fun ok m' h' => by
        rw [wp_ite]
        refine ⟨fun _ => wp_pure.mpr (h.keep (p := p) h' hOther₃ hState₃ hQuiet₃), fun _ => ?_⟩
        rw [wp_bind, wp_setFd, wp_bind, wp_setFd]
        have h₄ := h'.clearFd hReady.1 hfd₀ hFiles₃.1
        have hFd₁ : ((({ s₃ with mem := m' } : State).setFd p fd₀ none).proc p).ofile fd₁ = some wf := by
          simp [hne.symm, hFiles₃.2]
        have h₅ := h₄.clearFd hReady.1 hfd₁ hFd₁
        rw [add_left_comm] at h₅
        refine hClose _ h₅ (fun q hq => ?_) ?_ hQuiet₃
        · simp [State.setFd, hq, hOther₃]
        · simp [hState₃]
      dsimp only
      rw [wp_bind, wp_proc, hPt, wp_bind, wp_deref, wp_bind]
      refine h₃.copyout hReady.1 hPt fun r m₄ h₄ => ?_
      cases r with
      | false =>
        rw [if_neg Bool.false_ne_true, wp_bind, wp_pure]
        exact hDone false m₄ h₄
      | true =>
        rw [if_pos rfl, wp_bind]
        exact h₄.copyout hReady.1 hPt fun r m₅ h₅ => hDone r m₅ h₅

theorem sysDup_inv (h : Inv κ L s) (hReady : s.Ready p) (fd : Int) :
    wp Fault (sysDup p fd) (fun _ s' => Inv κ L s') s := by
  obtain ⟨H, hKernel⟩ := h.kernel
  rw [sysDup, wp_bind]
  refine wp_argfd (wp_pure.mpr h) fun n hn _ f hFile => ?_
  obtain ⟨hf, hRef⟩ := hKernel.counts.ofFd hReady.1 hn hFile
  dsimp only
  rw [wp_bind]
  refine wp_fdalloc (fun _ => wp_pure.mpr h) fun fd' hfd' hFree => ?_
  dsimp only
  rw [wp_bind, filedup, wp_bind, wp_file, wp_bind, wp_when]
  refine ⟨fun hBad => absurd hBad (by simp only [State.setFd]; omega), fun _ => ?_⟩
  rw [wp_bind, Sys.wp_setFile, wp_pure, wp_pure]
  have hDup := (hKernel.table (hKernel.counts.dup hf)).setFd hReady.1 hfd' hFree
  refine h.keep (p := p) hDup (fun q hq => upd_of_ne hq) ?_ rfl
  simp only [State.setFd, upd_self]
  exact hReady.2.1

theorem sysClose_inv (h : Inv κ L s) (hReady : s.Ready p) (fd : Int) :
    wp Fault (sysClose L p fd) (fun _ s' => Inv κ L s') s := by
  obtain ⟨H, hKernel⟩ := h.kernel
  rw [sysClose, wp_bind]
  refine wp_argfd (wp_pure.mpr h) fun n hn hEq f hFile => ?_
  subst hEq
  rw [wp_bind, wp_setFd, Int.toNat_natCast, wp_bind]
  refine (hKernel.clearFd hReady.1 hn hFile).fileclose fun s' h' hAside => wp_pure.mpr ?_
  refine h.keep (p := p) h' (fun q hq => ?_) ?_ hAside.outstanding
  · rw [hAside.proc]
    exact upd_of_ne hq
  · rw [hAside.proc, State.setFd_self]
    exact hReady.2.1

theorem Kernel.setFile {f : Nat} {g : File → File} (h : Kernel L H hf hi he s)
    (hRef : (g (s.ftable f)).ref = (s.ftable f).ref) (hType : (g (s.ftable f)).type = (s.ftable f).type)
    (hPipe : (g (s.ftable f)).pipe = (s.ftable f).pipe) (hWritable : (g (s.ftable f)).writable = (s.ftable f).writable)
    (hIp : (g (s.ftable f)).ip = (s.ftable f).ip) :
    Kernel L H hf hi he { s with ftable := upd s.ftable f (g (s.ftable f)) } :=
  h.table (h.counts.setFile hRef hType hPipe hWritable hIp)

/-- The inode of an open file is locked. -/
theorem Kernel.lockFile {f : Nat} {Q : Unit → State → Prop} (h : Kernel L H hf hi he s) (hf' : f < NFILE)
    (hType : (s.ftable f).type = .inode ∨ (s.ftable f).type = .device)
    (hQ : ∀ c', Kernel L H hf ({.lock (s.ftable f).ip} + hi) he { s with core := c' } → Q () { s with core := c' }) :
    wp Fault (Sys.fs (Fs.ilock (s.ftable f).ip)) Q s :=
  h.borrow (O := fun _ => {.lock (s.ftable f).ip}) (mem_ip hf' hType hi) (Fs.held_ilock _) fun _ => hQ

theorem sysFstat_inv (h : Inv κ L s) (hReady : s.Ready p) (fd : Int) (ok : Bool) :
    wp Fault (sysFstat p fd ok) (fun _ s' => Inv κ L s') s := by
  obtain ⟨H, hKernel⟩ := h.kernel
  rw [sysFstat, wp_bind]
  refine wp_argfd (wp_pure.mpr h) fun n hn _ f hFile => ?_
  obtain ⟨hf, -⟩ := hKernel.counts.ofFd hReady.1 hn hFile
  dsimp only
  rw [wp_bind, filestat, wp_bind, wp_file, wp_ite]
  refine ⟨fun hType => ?_, fun _ => wp_pure.mpr (wp_pure.mpr h)⟩
  rw [wp_bind]
  refine hKernel.lockFile hf hType fun c₁ h₁ => ?_
  rw [wp_bind]
  refine h₁.keeps (.inode _) fun _ c₂ h₂ => ?_
  rw [wp_bind]
  refine h₂.fs (Fs.held_iunlock _) fun _ c₃ h₃ => wp_pure.mpr (wp_pure.mpr ?_)
  exact h.aside h₃ ⟨rfl, rfl, rfl⟩

theorem sysRead_inv (h : Inv κ L s) (hReady : s.Ready p) (fd : Int) (ok : Nat → Nat → Bool) (n : Nat) (ext : Int) :
    wp Fault (sysRead p fd ok n ext) (fun _ s' => Inv κ L s') s := by
  obtain ⟨H, hKernel⟩ := h.kernel
  rw [sysRead, wp_bind]
  refine wp_argfd (wp_pure.mpr h) fun k hk _ f hFile => ?_
  obtain ⟨hf, -⟩ := hKernel.counts.ofFd hReady.1 hk hFile
  dsimp only
  rw [fileread, wp_bind, wp_file, wp_ite]
  refine ⟨fun _ => wp_pure.mpr h, fun _ => ?_⟩
  cases hType : (s.ftable f).type with
  | pipe | device => exact wp_pure.mpr h
  | none => exact wp_throw.mpr trivial
  | inode =>
    dsimp only
    rw [wp_bind]
    refine hKernel.lockFile hf (.inl hType) fun c₁ h₁ => ?_
    rw [wp_bind]
    refine h₁.keeps (.readi _ _ _ _) fun r c₂ h₂ => ?_
    cases r with
    | none =>
      rw [wp_bind]
      refine h₂.fs (Fs.held_iunlock _) fun _ c₃ h₃ => wp_pure.mpr ?_
      exact h.aside h₃ ⟨rfl, rfl, rfl⟩
    | some l =>
      dsimp only
      rw [wp_bind, Sys.wp_setFile, wp_bind]
      have h₃ := h₂.setFile (f := f) (g := fun ff => { ff with off := ff.off + l.length }) rfl rfl rfl rfl rfl
      refine h₃.fs (Fs.held_iunlock _) fun _ c₄ h₄ => wp_pure.mpr ?_
      exact h.aside h₄ ⟨rfl, rfl, rfl⟩

/-- The loop of `filewrite`. -/
theorem filewriteLoop_inv {f n fuel i : Nat} {src : Nat → Option UInt8} (h : Kernel L H hf hi he s) (hf' : f < NFILE)
    (hType : (s.ftable f).type = .inode) :
    wp Fault (filewriteLoop f src n fuel i) (fun _ s' => Kernel L H hf hi he s' ∧ Aside s s') s := by
  induction fuel generalizing s i with
  | zero => exact wp_pure.mpr ⟨h, rfl, rfl, rfl⟩
  | succ fuel ih =>
    rw [filewriteLoop, wp_ite]
    refine ⟨fun _ => ?_, fun _ => wp_pure.mpr ⟨h, rfl, rfl, rfl⟩⟩
    dsimp only
    rw [wp_bind, wp_beginOp, wp_bind, wp_file, wp_bind]
    refine (h.other s.nextpid (s.outstanding + 1)).lockFile hf' (.inl hType) fun c₁ h₁ => ?_
    rw [wp_bind, wp_file, wp_bind]
    refine h₁.keeps (.writei _ _ _ _) fun r c₂ h₂ => ?_
    rw [wp_bind, Sys.wp_setFile, wp_bind]
    have hOff := h₂.setFile (f := f) (g := fun ff => { ff with off := ff.off + r.getD 0 }) rfl rfl rfl rfl rfl
    refine hOff.fs (Fs.held_iunlock _) fun _ c₃ h₃ => ?_
    rw [zero_add] at h₃
    rw [wp_bind, wp_endOp, wp_ite]
    have h₄ := h₃.other s.nextpid (s.outstanding + 1 - 1)
    have hAside : Aside s { s with
        core := c₃, outstanding := s.outstanding + 1 - 1
        ftable := upd s.ftable f { s.ftable f with off := (s.ftable f).off + r.getD 0 } } :=
      ⟨rfl, rfl, Int.add_sub_cancel ..⟩
    refine ⟨fun _ => ?_, fun _ => wp_pure.mpr ⟨h₄, hAside⟩⟩
    refine (ih h₄ ?_).mono fun _ s' h' => ⟨h'.1, hAside.trans h'.2⟩
    simp only [upd_self]
    exact hType

theorem sysWrite_inv (h : Inv κ L s) (hReady : s.Ready p) (fd : Int) (src : Nat → Option UInt8) (n ext : Int) :
    wp Fault (sysWrite p fd src n ext) (fun _ s' => Inv κ L s') s := by
  obtain ⟨H, hKernel⟩ := h.kernel
  rw [sysWrite, wp_bind]
  refine wp_argfd (wp_pure.mpr h) fun k hk _ f hFile => ?_
  obtain ⟨hf, -⟩ := hKernel.counts.ofFd hReady.1 hk hFile
  dsimp only
  rw [filewrite, wp_bind, wp_file, wp_ite]
  refine ⟨fun _ => wp_pure.mpr h, fun _ => ?_⟩
  cases hType : (s.ftable f).type with
  | pipe | device => exact wp_pure.mpr h
  | none => exact wp_throw.mpr trivial
  | inode =>
    dsimp only
    rw [wp_bind]
    refine (filewriteLoop_inv hKernel hf hType).mono fun i s' h' => wp_pure.mpr ?_
    exact h.aside h'.1 h'.2

end Xv6.Sys
