import Xv6.Fs.Agree
import Xv6.Fs.Ops
import Xv6.Sys.Files
import Xv6.Sys.Start

/-!
# xv6 — calls that fail

A call of `sysfile.c` that returns -1 leaves files, directories, descriptors and reference counts as they were
(`Unchanged`), with one exception: `open` with `O_CREATE` makes the file before it looks for a free entry in the
file table and for a free descriptor.
-/

namespace Xv6.Sys

open Hoare Fs
open Vm (Layout)

variable {F : Panic → Prop} {s s' : State} {L : Layout} {p : Nat} {D : Nat → Dinode} {N : Nat → Node}
  {K : Multiset Ref} {r : Ref}

/-- Any failure is admitted. -/
abbrev Any : Panic → Prop := fun _ => True

/-! ## What does not change -/

/-- The inodes with their contents, the bitmap, the files and current directory of `p` and all reference counts are
the same. -/
structure Unchanged (p : Nat) (s s' : State) : Prop where
  dinode   : ∀ i < s.core.sb.ninodes, dinodeAt s.core.sb s'.core.buf i = dinodeAt s.core.sb s.core.buf i
  content  : ∀ i < s.core.sb.ninodes, (dinodeAt s.core.sb s.core.buf i).type ≠ 0 →
    ∀ o < (dinodeAt s.core.sb s.core.buf i).size.toNat,
      byteAt s.core.sb s'.core.buf i o = byteAt s.core.sb s.core.buf i o
  bitmap   : ∀ b < s.core.sb.size, marked s.core.sb s'.core.buf b = marked s.core.sb s.core.buf b
  ofile    : (s'.proc p).ofile = (s.proc p).ofile
  cwd      : (s'.proc p).cwd = (s.proc p).cwd
  fileRef  : ∀ f, (s'.ftable f).ref = (s.ftable f).ref
  inodeRef : ∀ k, (s'.core.itable k).ref = (s.core.itable k).ref

/-- The state between two calls: the inodes are `N`, without holes, those without a name are in memory; `r` is
the current directory of `p`; file structures that are not in use are `FD_NONE`. -/
structure Sound (p : Nat) (D : Nat → Dinode) (N : Nat → Node) (K : Multiset Ref) (r : Ref) (s : State) : Prop where
  here  : At s.core.sb Set.univ D N K ∅ s.core
  root  : ROOTINO < s.core.sb.ninodes
  dirs  : Dirs s.core.sb N
  holes : ∀ i, (N i).holes = ∅
  mem   : r ∈ K
  cwd   : (s.proc p).cwd = some r.slot
  idle  : ∀ f, (s.ftable f).ref = 0 → (s.ftable f).type = .none

theorem Sound.ready (h : Sound p D N K r s) :
    Ready (fun e => Any (.fs e)) s.core.sb Set.univ K (fun _ => True) D N r s.core where
  lax := ⟨trivial, trivial, trivial, trivial⟩
  root := h.root
  dirs := h.dirs
  firm := .inl fun _ => trivial
  cwd := h.mem
  good := .inl fun _ => trivial
  here := h.here

theorem Sound.room (_ : Sound p D N K r s) : Ok (fun e => Any (.fs e)) (Room (fun _ => True) N) :=
  .inl fun _ => trivial

/-- Nothing was freed, so nothing changed. -/
theorem Sound.failed (h : Sound p D N K r s) (hCore : Failed s.core.sb Set.univ K D N s'.core)
    (hProc : (s'.proc p).ofile = (s.proc p).ofile ∧ (s'.proc p).cwd = (s.proc p).cwd)
    (hFile : ∀ f, (s'.ftable f).ref = (s.ftable f).ref) : Unchanged p s s' := by
  obtain ⟨D', N', hLapse, h'⟩ := hCore
  have hBound := h.here.bound
  rw [hLapse.reaped.eq hBound, hLapse.same hBound] at h'
  refine ⟨fun i hi => (h'.dinode hi).trans (h.here.dinode hi).symm, fun i hi hType o ho => ?_, fun b hb => ?_,
    hProc.1, hProc.2, hFile, fun k => (h'.ref k).trans (h.here.ref k).symm⟩
  · have hSize : o < (N i).size := by
      obtain ⟨v, hRep, -⟩ := h.here
      rw [h.here.dinode hi] at hType ho
      rwa [show (N i).size = _ from (hRep.nodes i hi).size hType (Set.notMem_empty i)]
    have hHole : o / BSIZE ∉ (N i).holes := h.holes i ▸ Set.notMem_empty _
    rw [h'.byte hi hSize hHole, h.here.byte hi hSize hHole]
  · exact Bool.eq_iff_iff.mpr ((h'.marked hb).trans (h.here.marked hb).symm)

theorem Sound.same (h : Sound p D N K r s) (hCore : s'.core = s.core)
    (hProc : (s'.proc p).ofile = (s.proc p).ofile ∧ (s'.proc p).cwd = (s.proc p).cwd)
    (hFile : ∀ f, (s'.ftable f).ref = (s.ftable f).ref) : Unchanged p s s' :=
  h.failed (by rw [hCore]; exact ⟨D, N, .refl K D N, h.here⟩) hProc hFile

/-! ## Calls on names -/

/-- A naming call of the file system. -/
theorem Sound.named (h : Sound p D N K r s) {m : M Int}
    (hm : wp (fun e => Any (.fs e)) m (Named (fun e => Any (.fs e)) s.core.sb Set.univ K (fun _ => True) D N) s.core) :
    wp Any (transaction m) (fun ret s' => ret = -1 → Unchanged p s s') s := by
  rw [wp_transaction]
  refine hm.mono ?_
  rintro ret c' (⟨-, hFailed⟩ | ⟨rfl, -⟩) hRet
  · exact h.failed hFailed ⟨rfl, rfl⟩ fun _ => rfl
  · exact absurd hRet (by decide)

theorem Sound.refl (h : Sound p D N K r s) : Unchanged p s s := h.same rfl ⟨rfl, rfl⟩ fun _ => rfl

theorem sysLink_failed (h : Sound p D N K r s) (old new : Option (List UInt8)) :
    wp Any (sysLink p old new) (fun ret s' => ret = -1 → Unchanged p s s') s := by
  rw [sysLink]
  split
  · rw [wp_bind, wp_proc, h.cwd, wp_bind, wp_deref]
    exact h.named (link_at h.ready h.room _ _)
  · exact wp_pure.mpr fun _ => h.refl

theorem sysUnlink_failed (h : Sound p D N K r s) (path : Option (List UInt8)) :
    wp Any (sysUnlink p path) (fun ret s' => ret = -1 → Unchanged p s s') s := by
  rw [sysUnlink]
  split
  · rw [wp_bind, wp_proc, h.cwd, wp_bind, wp_deref]
    exact h.named (unlink_at h.ready (.inl fun _ => trivial) _)
  · exact wp_pure.mpr fun _ => h.refl

theorem sysMkdir_failed (h : Sound p D N K r s) (path : Option (List UInt8)) :
    wp Any (sysMkdir p path) (fun ret s' => ret = -1 → Unchanged p s s') s := by
  rw [sysMkdir]
  split
  · rw [wp_bind, wp_proc, h.cwd, wp_bind, wp_deref]
    exact h.named (make_at h.ready h.room _ _ _ (by decide) (by decide))
  · exact wp_pure.mpr fun _ => h.refl

theorem sysMknod_failed (h : Sound p D N K r s) (path : Option (List UInt8)) (major minor : BitVec 16) :
    wp Any (sysMknod p path major minor) (fun ret s' => ret = -1 → Unchanged p s s') s := by
  rw [sysMknod]
  split
  · rw [wp_bind, wp_proc, h.cwd, wp_bind, wp_deref]
    exact h.named (make_at h.ready h.room _ _ _ (by decide) (by decide))
  · exact wp_pure.mpr fun _ => h.refl

theorem sysChdir_failed (h : Sound p D N K r s) (path : Option (List UInt8)) :
    wp Any (sysChdir p path) (fun ret s' => ret = -1 → Unchanged p s s') s := by
  rw [sysChdir]
  split
  · exact wp_pure.mpr fun _ => h.refl
  rw [wp_bind, wp_proc, h.cwd, wp_bind, wp_deref, wp_bind, wp_beginOp, wp_bind, wp_fs]
  refine (h.ready.namei _).mono ?_
  rintro _ c₁ ⟨D₁, N₁, hLapse, ⟨rfl, h₁⟩ | ⟨k, i, rfl, h₁, -, -⟩⟩
  · refine wp_bind.mpr (wp_endOp.mpr (wp_pure.mpr fun _ => ?_))
    exact h.failed ⟨D₁, N₁, hLapse, h₁⟩ ⟨rfl, rfl⟩ fun _ => rfl
  show wp Any (do fs (ilock k); _) _ _
  rw [wp_bind, wp_fs]
  refine (lock_at (r := ⟨k, i⟩) h₁ (Multiset.mem_cons_self _ _) fun _ => trivial).mono fun _ c₂ h₂ => ?_
  rw [wp_bind, wp_fs, wp_inode, wp_ite]
  constructor
  · intro _
    rw [wp_bind, wp_fs]
    refine (unlockput_at (r := ⟨k, i⟩) h₂).mono fun _ c' h' => ?_
    refine wp_bind.mpr (wp_endOp.mpr (wp_pure.mpr fun _ => ?_))
    exact h.failed (h'.lapse hLapse) ⟨rfl, rfl⟩ fun _ => rfl
  · intro _
    rw [wp_bind]
    refine wp_true.mono fun _ _ _ => ?_
    rw [wp_bind]
    refine wp_true.mono fun _ _ _ => ?_
    rw [wp_bind]
    refine wp_true.mono fun _ _ _ => ?_
    rw [wp_bind]
    exact wp_true.mono fun _ _ _ => wp_pure.mpr fun hRet => absurd hRet (by decide)

theorem sysDup_failed (h : Sound p D N K r s) (fd : Int) :
    wp Any (sysDup p fd) (fun ret s' => ret = -1 → Unchanged p s s') s := by
  rw [sysDup, wp_bind]
  refine wp_argfd (wp_pure.mpr fun _ => h.refl) fun n _ _ f _ => ?_
  dsimp only
  rw [wp_bind]
  refine wp_fdalloc (fun _ => wp_pure.mpr fun _ => h.refl) fun fd _ _ => ?_
  rw [wp_bind]
  exact wp_true.mono fun _ _ _ => wp_pure.mpr fun hRet => absurd hRet (by omega)

/-! ## open -/

/-- There is a free entry in the file table and a free descriptor. -/
def HasFree (s : State) (p : Nat) : Prop :=
  (∃ f < NFILE, (s.ftable f).ref = 0) ∧ ∃ fd < NOFILE, (s.proc p).ofile fd = none

theorem sysOpen_failed (h : Sound p D N K r s) (path : Option (List UInt8)) {omode : BitVec 32}
    (hFree : omode &&& O_CREATE = 0 ∨ HasFree s p) :
    wp Any (sysOpen L p path omode) (fun ret s' => ret = -1 → Unchanged p s s') s := by
  rw [sysOpen]
  split
  · exact wp_pure.mpr fun _ => h.refl
  rw [wp_bind, wp_beginOp, wp_bind, wp_proc]
  dsimp only
  rw [h.cwd, wp_bind, wp_deref, wp_bind, wp_fs]
  refine (openInode_at h.ready h.room _ omode).mono ?_
  rintro _ c₁ (⟨rfl, h₁⟩ | ⟨k, i, N₁, rfl, -, hGot⟩)
  · exact wp_bind.mpr (wp_endOp.mpr (wp_pure.mpr fun _ => h.failed h₁ ⟨rfl, rfl⟩ fun _ => rfl))
  -- where it goes wrong from here on, the inode was there before
  have hPut : ∀ s₁ : State, s₁.core = c₁ → ¬ HasFree s p →
      ((s₁.proc p).ofile = (s.proc p).ofile ∧ (s₁.proc p).cwd = (s.proc p).cwd) →
      (∀ f, (s₁.ftable f).ref = (s.ftable f).ref) →
      wp Any (do fs (iunlockput k); endOp; return (-1 : Int)) (fun ret s' => ret = -1 → Unchanged p s s') s₁ := by
    intro s₁ hCore hFull hProc hFile
    rcases hGot with ⟨D₁, h₁, hLapse, -⟩ | ⟨hCreate, -⟩
    · rw [wp_bind, wp_fs, hCore]
      refine (unlockput_at (r := ⟨k, i⟩) h₁).mono fun _ c' h' => ?_
      refine wp_bind.mpr (wp_endOp.mpr (wp_pure.mpr fun _ => ?_))
      exact h.failed (h'.lapse hLapse) hProc hFile
    · exact absurd (hFree.resolve_left hCreate) hFull
  dsimp only
  rw [wp_bind]
  refine wp_filealloc (fun hFull => ?_) fun f _ hf => ?_
  · refine hPut _ rfl (fun hHas => ?_) ⟨rfl, rfl⟩ fun _ => rfl
    obtain ⟨f, hf, h0⟩ := hHas.1
    exact hFull f hf h0
  dsimp only
  rw [wp_bind]
  refine wp_fdalloc (fun hFull => ?_) fun fd _ _ => ?_
  · dsimp only
    rw [wp_bind]
    refine (wp_fileclose_last (congrArg File.ref (upd_self ..)) (.inl ?_)).mono ?_
    · exact (congrArg File.type (upd_self ..)).trans (h.idle f hf)
    rintro _ s₂ ⟨hCore, hTable, hProc⟩
    refine hPut s₂ hCore (fun hHas => ?_) (by rw [hProc]; exact ⟨rfl, rfl⟩) fun g => ?_
    · obtain ⟨fd, hfd, h0⟩ := hHas.2
      exact hFull fd hfd h0
    · rw [hTable]
      show (upd (upd s.ftable f _) f (upd s.ftable f _ f).closed g).ref = _
      by_cases hg : g = f
      · rw [hg, upd_self, hf]
        rfl
      · rw [upd_of_ne hg, upd_of_ne hg]
  · dsimp only
    rw [wp_bind]
    refine wp_true.mono fun _ _ _ => ?_
    rw [wp_bind]
    refine wp_true.mono fun _ _ _ => ?_
    rw [wp_bind]
    refine wp_true.mono fun _ _ _ => ?_
    rw [wp_bind]
    refine wp_true.mono fun _ _ _ => ?_
    rw [wp_bind]
    refine wp_true.mono fun _ _ _ => ?_
    rw [wp_bind]
    exact wp_true.mono fun _ _ _ => wp_pure.mpr fun hRet => absurd hRet (by omega)

/-! ## pipe -/

/-- File structures were taken and given back. -/
structure Frame (s s' : State) : Prop where
  core : s'.core = s.core
  proc : s'.proc = s.proc
  ref  : ∀ f, (s'.ftable f).ref = (s.ftable f).ref

/-- Two structures that were taken, with a pipe or without. -/
structure Two (s : State) (f₀ f₁ : Nat) (s₁ : State) : Prop where
  ne    : f₀ ≠ f₁
  free₀ : (s.ftable f₀).ref = 0
  free₁ : (s.ftable f₁).ref = 0
  ref₀  : (s₁.ftable f₀).ref = 1
  ref₁  : (s₁.ftable f₁).ref = 1
  type₀ : (s₁.ftable f₀).type = .none ∨ (s₁.ftable f₀).type = .pipe
  type₁ : (s₁.ftable f₁).type = .none ∨ (s₁.ftable f₁).type = .pipe
  ref   : ∀ f, f ≠ f₀ → f ≠ f₁ → (s₁.ftable f).ref = (s.ftable f).ref

theorem Two.close {f₀ f₁ : Nat} {s₁ : State} (h : Two s f₀ f₁ s₁) {α : Type} {rest : S α} {Q : α → State → Prop}
    (hQ : ∀ s', s'.core = s₁.core → s'.proc = s₁.proc → (∀ f, (s'.ftable f).ref = (s.ftable f).ref) →
      wp Any rest Q s') :
    wp Any (do
      fileclose L f₀
      fileclose L f₁
      rest) Q s₁ := by
  rw [wp_bind]
  refine (wp_fileclose_last h.ref₀ h.type₀).mono ?_
  rintro _ s₂ ⟨hCore₂, hTable₂, hProc₂⟩
  have hOther : s₂.ftable f₁ = s₁.ftable f₁ := by rw [hTable₂, upd_of_ne h.ne.symm]
  rw [wp_bind]
  refine (wp_fileclose_last (by rw [hOther, h.ref₁]) (by rw [hOther]; exact h.type₁)).mono ?_
  rintro _ s₃ ⟨hCore₃, hTable₃, hProc₃⟩
  refine hQ s₃ (hCore₃.trans hCore₂) (hProc₃.trans hProc₂) fun f => ?_
  rw [hTable₃]
  by_cases hf₁ : f = f₁
  · rw [hf₁, upd_self, h.free₁]
    rfl
  · rw [upd_of_ne hf₁, hTable₂]
    by_cases hf₀ : f = f₀
    · rw [hf₀, upd_self, h.free₀]
      rfl
    · rw [upd_of_ne hf₀]
      exact h.ref f hf₀ hf₁

theorem pipealloc_frame (hIdle : ∀ f, (s.ftable f).ref = 0 → (s.ftable f).type = .none) :
    wp Any (pipealloc L) (fun ret s' => ret = none ∧ Frame s s' ∨
      ∃ f₀ f₁, ret = some (f₀, f₁) ∧ s'.core = s.core ∧ s'.proc = s.proc ∧ Two s f₀ f₁ s') s := by
  rw [pipealloc, wp_bind]
  refine wp_filealloc (fun _ => wp_pure.mpr (.inl ⟨rfl, rfl, rfl, fun _ => rfl⟩)) fun f₀ _ hf₀ => ?_
  dsimp only
  rw [wp_bind]
  refine wp_filealloc (fun _ => ?_) fun f₁ _ hf₁ => ?_
  · dsimp only
    rw [wp_bind]
    refine (wp_fileclose_last (congrArg File.ref (upd_self ..)) (.inl ?_)).mono ?_
    · exact (congrArg File.type (upd_self ..)).trans (hIdle f₀ hf₀)
    rintro _ s₂ ⟨hCore, hTable, hProc⟩
    refine wp_pure.mpr (.inl ⟨rfl, hCore, hProc, fun f => ?_⟩)
    rw [hTable]
    show (upd (upd s.ftable f₀ _) f₀ (upd s.ftable f₀ _ f₀).closed f).ref = _
    by_cases hf : f = f₀
    · rw [hf, upd_self, hf₀]
      rfl
    · rw [upd_of_ne hf, upd_of_ne hf]
  have hNe : f₀ ≠ f₁ := by
    rintro rfl
    exact absurd ((congrArg File.ref (upd_self ..)).symm.trans hf₁) Nat.one_ne_zero
  have hf₁' : (s.ftable f₁).ref = 0 := (congrArg File.ref (upd_of_ne hNe.symm)).symm.trans hf₁
  have hSelf₁ : ((s.setFile f₀ { s.ftable f₀ with ref := 1 }).ftable f₁) = s.ftable f₁ := upd_of_ne hNe.symm
  rw [hSelf₁]
  -- both are taken, and the pipe is not there yet
  have hTwo : Two s f₀ f₁ ((s.setFile f₀ { s.ftable f₀ with ref := 1 }).setFile f₁ { s.ftable f₁ with ref := 1 }) :=
    { ne := hNe
      free₀ := hf₀
      free₁ := hf₁'
      ref₀ := congrArg File.ref ((upd_of_ne hNe).trans (upd_self ..))
      ref₁ := congrArg File.ref (upd_self ..)
      type₀ := .inl ((congrArg File.type ((upd_of_ne hNe).trans (upd_self ..))).trans (hIdle f₀ hf₀))
      type₁ := .inl ((congrArg File.type (upd_self ..)).trans (hIdle f₁ hf₁'))
      ref := fun f h₀ h₁ => congrArg File.ref ((upd_of_ne h₁).trans (upd_of_ne h₀)) }
  generalize hs₁ : (s.setFile f₀ { s.ftable f₀ with ref := 1 }).setFile f₁ { s.ftable f₁ with ref := 1 } = s₁ at hTwo
  have hCore : s₁.core = s.core := by rw [← hs₁]; rfl
  have hProc : s₁.proc = s.proc := by rw [← hs₁]; rfl
  dsimp only
  rw [wp_bind, wp_vm]
  refine wp_true.mono fun ret x _ => ?_
  have hTwo' : Two s f₀ f₁ { s₁ with mem := x } := { hTwo with }
  cases ret with
  | none => exact hTwo'.close fun s' hc hp hr => wp_pure.mpr (.inl ⟨rfl, hc.trans hCore, hp.trans hProc, hr⟩)
  | some x =>
    dsimp only
    rw [wp_bind, wp_setPipe, wp_bind, wp_setFile, wp_bind, wp_setFile]
    refine wp_pure.mpr (.inr ⟨f₀, f₁, rfl, hCore, hProc, ?_⟩)
    exact
      { ne := hNe
        free₀ := hf₀
        free₁ := hf₁'
        ref₀ := (congrArg File.ref ((upd_of_ne hNe).trans (upd_self ..))).trans hTwo.ref₀
        ref₁ := (congrArg File.ref ((upd_self ..).trans rfl)).trans
          ((congrArg File.ref (upd_of_ne hNe.symm)).trans hTwo.ref₁)
        type₀ := .inr (congrArg File.type ((upd_of_ne hNe).trans (upd_self ..)))
        type₁ := .inr (congrArg File.type (upd_self ..))
        ref := fun f h₀ h₁ => (congrArg File.ref ((upd_of_ne h₁).trans (upd_of_ne h₀))).trans (hTwo.ref f h₀ h₁) }

theorem sysPipe_failed (h : Sound p D N K r s) (fdarray : Nat) :
    wp Any (sysPipe L p fdarray) (fun ret s' => ret = -1 → Unchanged p s s') s := by
  rw [sysPipe, wp_bind]
  refine (pipealloc_frame h.idle).mono ?_
  rintro _ s₁ (⟨rfl, hFrame⟩ | ⟨f₀, f₁, rfl, hCore, hProc, hTwo⟩)
  · exact wp_pure.mpr fun _ => h.same hFrame.core (by rw [hFrame.proc]; exact ⟨rfl, rfl⟩) hFrame.ref
  -- the files are closed again, and the descriptors are as before
  have hClose : ∀ s₂ : State, s₂.core = s.core → s₂.ftable = s₁.ftable →
      ((s₂.proc p).ofile = (s.proc p).ofile ∧ (s₂.proc p).cwd = (s.proc p).cwd) →
      wp Any (do
        fileclose L f₀
        fileclose L f₁
        return (-1 : Int)) (fun ret s' => ret = -1 → Unchanged p s s') s₂ := by
    intro s₂ hCore₂ hTable hProc₂
    have hTwo₂ : Two s f₀ f₁ s₂ :=
      ⟨hTwo.ne, hTwo.free₀, hTwo.free₁, hTable ▸ hTwo.ref₀, hTable ▸ hTwo.ref₁, hTable ▸ hTwo.type₀,
        hTable ▸ hTwo.type₁, hTable ▸ hTwo.ref⟩
    refine hTwo₂.close fun s' hc hp hr => wp_pure.mpr fun _ => ?_
    exact h.same (hc.trans hCore₂) (by rw [hp]; exact hProc₂) hr
  dsimp only
  rw [wp_bind]
  refine wp_fdalloc (fun _ => hClose s₁ hCore rfl (by rw [hProc]; exact ⟨rfl, rfl⟩)) fun fd₀ _ hfd₀ => ?_
  dsimp only
  rw [wp_bind]
  rw [hProc] at hfd₀
  refine wp_fdalloc (fun _ => ?_) fun fd₁ _ hfd₁ => ?_
  · dsimp only
    rw [wp_bind, wp_setFd]
    refine hClose _ hCore rfl ?_
    rw [State.setFd_self, State.setFd_self, hProc]
    exact ⟨upd_none hfd₀ _, rfl⟩
  · dsimp only
    rw [State.setFd_self, hProc] at hfd₁
    replace hfd₁ : upd (s.proc p).ofile fd₀ (some f₀) fd₁ = none := hfd₁
    have hNe : fd₁ ≠ fd₀ := by
      rintro rfl
      rw [upd_self] at hfd₁
      cases hfd₁
    rw [upd_of_ne hNe] at hfd₁
    -- whatever becomes of the user's memory
    have hEnd : ∀ (ok : Bool) (x : Vm.Mem), wp Any (if ok = true then return 0 else do
          setFd p fd₀ none
          setFd p fd₁ none
          fileclose L f₀
          fileclose L f₁
          return (-1 : Int)) (fun ret s' => ret = -1 → Unchanged p s s')
        { (s₁.setFd p fd₀ (some f₀)).setFd p fd₁ (some f₁) with mem := x } := by
      intro ok x
      rw [wp_ite]
      refine ⟨fun _ => wp_pure.mpr fun hRet => absurd hRet (by decide), fun _ => ?_⟩
      rw [wp_bind, wp_setFd, wp_bind, wp_setFd]
      refine hClose _ hCore rfl ?_
      rw [State.setFd_self, State.setFd_self]
      show upd (upd (((s₁.setFd p fd₀ (some f₀)).setFd p fd₁ (some f₁)).proc p).ofile fd₀ none) fd₁ none = _ ∧
        (((s₁.setFd p fd₀ (some f₀)).setFd p fd₁ (some f₁)).proc p).cwd = _
      rw [State.setFd_self, State.setFd_self, hProc]
      refine ⟨?_, rfl⟩
      show upd (upd (upd (upd (s.proc p).ofile fd₀ (some f₀)) fd₁ (some f₁)) fd₀ none) fd₁ none = _
      rw [upd_comm hNe.symm, upd_upd, upd_comm hNe, upd_none hfd₀, ← hfd₁, upd_eta]
    rw [wp_bind, wp_proc, State.setFd_self, State.setFd_self, hProc, wp_bind]
    cases hpt : (s.proc p).pagetable with
    | none => exact wp_throw.mpr trivial
    | some pt =>
      refine wp_pure.mpr ?_
      rw [wp_bind, wp_vm]
      refine wp_true.mono fun ok₀ x _ => ?_
      rw [wp_ite]
      constructor
      · intro _
        rw [wp_bind, wp_vm]
        exact wp_true.mono fun ok₁ y _ => hEnd ok₁ y
      · intro _
        exact hEnd false x

/-! ## All of them -/

/-- The calls in question; `open` with `O_CREATE` when there is room for the file. -/
def Call.Safe (s : State) (p : Nat) : Call → Prop
  | .open_ _ omode => omode &&& O_CREATE = 0 ∨ HasFree s p
  | .link _ _ | .unlink _ | .mkdir _ | .mknod _ _ _ | .chdir _ | .dup _ | .pipe _ => True
  | _ => False

/-- A process in the root directory of an empty file system. -/
theorem sound_empty : ∃ D N K r s, Sound 0 D N K r s ∧ (s.proc 0).ofile = fun _ => none := by
  obtain ⟨d, hd⟩ := Option.isSome_iff_exists.mp (show (Mkfs.main []).isSome = true by decide +kernel)
  obtain ⟨names, u, D, hNames, -, hAt⟩ := Mkfs.image_at (by decide) hd (by decide)
  have hOut : NINODE ≤ (0 : Multiset Ref).card → False := fun h => absurd h (by decide)
  obtain ⟨k, c, -, hAt, -⟩ := (iget_at (i := ROOTINO) hAt (by decide) hOut).total
  have hSb : c.sb = Mkfs.sb := hAt.sb_eq
  let s : State := {
    core := c
    mem := smallMem
    ftable _ := File.empty
    pipe _ := none
    proc _ := { Proc.unused with cwd := some k }
    nextpid := 1
    outstanding := 0
    ktab := []
    kstack := [] }
  exact ⟨D, _, _, ⟨k, ROOTINO⟩, s, {
    here := hSb ▸ hAt
    root := hSb ▸ by decide
    dirs := hSb ▸ Mkfs.dirs_image (hNames ▸ by decide)
    holes := fun _ => rfl
    mem := Multiset.mem_cons_self _ _
    cwd := rfl
    idle := fun _ _ => rfl }, rfl⟩

end Xv6.Sys
