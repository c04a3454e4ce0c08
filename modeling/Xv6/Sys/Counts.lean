import Xv6.Fs.Refs
import Xv6.Sys.Memory

/-!
# xv6 — references to files, inodes and pipes

Every count of the kernel is the number of pointers there are (`Counts`): those that the tables hold, and those that a call
has in its hands meanwhile. The rules below say how a call moves them: a free file structure is taken, a descriptor is set
or cleared, a file is closed. A pipe's page goes back with its last end, so the last of these is about `Memory` too
(`Kernel`).
-/

namespace Xv6.Sys

open Hoare Finset
open Vm (Layout Valid pool)

variable {f fd k p : Nat} {pr : Proc}

variable {L : Layout} {s s' : State} {α : Type}

/-- The panics of the file system and those that are up to the caller. No other panic can happen. -/
def Fault : Panic → Prop
  | .fs _ | .fileread | .filewrite | .initExiting | .userinit => True
  | _ => False

/-! ## Counts -/

/-- The files that a process has open. -/
def Proc.files (pr : Proc) : Multiset Nat := total (range NOFILE) ofOption pr.ofile

/-- Its current directory. -/
def Proc.dir (pr : Proc) : Multiset Fs.Hand := Fs.ptr pr.cwd

/-- The inode of a file. -/
def File.inode (ff : File) : Multiset Fs.Hand := if ff.type = .inode ∨ ff.type = .device then {.ref ff.ip} else 0

/-- The end of a pipe that a file is; `true` is the end to write to. -/
def File.ends (ff : File) : Multiset (Nat × Bool) := if ff.type = .pipe then {(ff.pipe, ff.writable)} else 0

/-- Whether an end of a pipe is open. -/
def State.ends (s : State) (e : Nat × Bool) : Nat :=
  match s.pipe e.1 with
  | none => 0
  | some pi => (if e.2 then pi.writeopen else pi.readopen).toNat

/-- Besides what is in the tables, a call holds the files `hf`, the pointers to inodes and locks `hi` and the ends of pipes
`he`. -/
structure Counts (hf : Multiset Nat) (hi : Multiset Fs.Hand) (he : Multiset (Nat × Bool)) (s : State) : Prop where
  files  : RefCount (· < NFILE) (fun f => (s.ftable f).ref) (hf + total (range NPROC) Proc.files s.proc)
  inodes : Fs.Refs s.core (hi + (total (range NFILE) File.inode s.ftable + total (range NPROC) Proc.dir s.proc))
  ends   : RefCount (fun _ => True) s.ends (he + total (range NFILE) File.ends s.ftable)
  idle   : ∀ f, (s.ftable f).ref = 0 → (s.ftable f).type = .none
  alive  : ∀ x pi, s.pipe x = some pi → pi.readopen = true ∨ pi.writeopen = true

variable {hf : Multiset Nat} {hi I : Multiset Fs.Hand} {he : Multiset (Nat × Bool)} {O : α → Multiset Fs.Hand} {m : Fs.M α}

/-- A function of the file system. -/
theorem Counts.wp_fs {Q : α → State → Prop} (h : Counts hf (I + hi) he s) (hm : Fs.Held I m O)
    (hQ : ∀ a c', Counts hf (O a + hi) he { s with core := c' } → Q a { s with core := c' }) : wp Fault (fs m) Q s := by
  have hInodes := h.inodes
  rw [add_assoc] at hInodes
  rw [Sys.wp_fs]
  refine ((hm _ _ hInodes).mono fun a c' hRefs => ?_).weaken fun _ _ => trivial
  rw [← add_assoc] at hRefs
  exact hQ a c' ⟨h.files, hRefs, h.ends, h.idle, h.alive⟩

/-- The same when it uses a pointer that is somewhere. -/
theorem Counts.wp_fs_borrow {Q : α → State → Prop} (h : Counts hf hi he s)
    (hMem : Fs.Hand.ref k ∈ hi + (total (range NFILE) File.inode s.ftable + total (range NPROC) Proc.dir s.proc))
    (hm : Fs.Held {.ref k} m fun a => O a + {.ref k})
    (hQ : ∀ a c', Counts hf (O a + hi) he { s with core := c' } → Q a { s with core := c' }) : wp Fault (fs m) Q s := by
  obtain ⟨J, hJ⟩ := Multiset.exists_cons_of_mem hMem
  rw [← Multiset.singleton_add] at hJ
  have hInodes := h.inodes
  rw [hJ] at hInodes
  rw [Sys.wp_fs]
  refine ((hm _ _ hInodes).mono fun a c' hRefs => ?_).weaken fun _ _ => trivial
  rw [add_assoc, ← hJ, ← add_assoc] at hRefs
  exact hQ a c' ⟨h.files, hRefs, h.ends, h.idle, h.alive⟩

theorem mem_total {ι κ β : Type} [DecidableEq ι] {t : Finset ι} {g : β → Multiset κ} {u : ι → β} {i : ι} {x : κ}
    (hi : i ∈ t) (hx : x ∈ g (u i)) : x ∈ total t g u :=
  Multiset.mem_sum.mpr ⟨i, hi, hx⟩

theorem mem_cwd (hp : p < NPROC) (hCwd : (s.proc p).cwd = some k) (hi : Multiset Fs.Hand) :
    Fs.Hand.ref k ∈ hi + (total (range NFILE) File.inode s.ftable + total (range NPROC) Proc.dir s.proc) := by
  refine Multiset.mem_add.mpr (.inr (Multiset.mem_add.mpr (.inr (mem_total (mem_range.mpr hp) ?_))))
  rw [Proc.dir, hCwd]
  exact Multiset.mem_singleton_self _

theorem mem_ip (hf : f < NFILE) (hType : (s.ftable f).type = .inode ∨ (s.ftable f).type = .device)
    (hi : Multiset Fs.Hand) :
    Fs.Hand.ref (s.ftable f).ip ∈ hi + (total (range NFILE) File.inode s.ftable + total (range NPROC) Proc.dir s.proc) := by
  refine Multiset.mem_add.mpr (.inr (Multiset.mem_add.mpr (.inl (mem_total (mem_range.mpr hf) ?_))))
  rw [File.inode, if_pos hType]
  exact Multiset.mem_singleton_self _

/-! ## File structures and descriptors -/

/-- A change of a file structure that has nothing to do with its references. -/
theorem Counts.setFile {ff : File} (h : Counts hf hi he s) (hRef : ff.ref = (s.ftable f).ref)
    (hType : ff.type = (s.ftable f).type) (hPipe : ff.pipe = (s.ftable f).pipe)
    (hWritable : ff.writable = (s.ftable f).writable) (hIp : ff.ip = (s.ftable f).ip) : Counts hf hi he (s.setFile f ff) where
  files := h.files.congr fun g _ => by
    by_cases hg : g = f
    · simp [State.setFile, hg, hRef]
    · simp [State.setFile, hg]
  inodes := by
    have hSame : ff.inode = (s.ftable f).inode := by rw [File.inode, hType, hIp, File.inode]
    have hInodes := h.inodes
    rwa [← total_same hSame] at hInodes
  ends := by
    have hSame : ff.ends = (s.ftable f).ends := by rw [File.ends, hType, hPipe, hWritable, File.ends]
    have hEnds := h.ends
    rwa [← total_same hSame] at hEnds
  idle g hg := by
    by_cases hgf : g = f
    · subst hgf
      simp only [State.setFile, upd_self] at hg ⊢
      rw [hType]
      exact h.idle g (hRef ▸ hg)
    · simp only [State.setFile, upd_of_ne hgf] at hg ⊢
      exact h.idle g hg
  alive := h.alive

/-- One more reference to a file. -/
theorem Counts.dup (h : Counts hf hi he s) (hf' : f < NFILE) :
    Counts ({f} + hf) hi he (s.setFile f { s.ftable f with ref := (s.ftable f).ref + 1 }) where
  files := by
    have hTake := h.files.take hf'
    rw [← add_assoc] at hTake
    refine hTake.congr fun g _ => ?_
    by_cases hg : g = f
    · simp [State.setFile, hg]
    · simp [State.setFile, hg]
  inodes := by
    have hInodes := h.inodes
    rwa [← total_same (v := { s.ftable f with ref := (s.ftable f).ref + 1 }) (k := f) (by rfl)] at hInodes
  ends := by
    have hEnds := h.ends
    rwa [← total_same (v := { s.ftable f with ref := (s.ftable f).ref + 1 }) (k := f) (by rfl)] at hEnds
  idle g hg := by
    by_cases hgf : g = f
    · subst hgf
      simp [State.setFile] at hg
    · simp only [State.setFile, upd_of_ne hgf] at hg ⊢
      exact h.idle g hg
  alive := h.alive

/-- One reference less, but not the last. -/
theorem Counts.drop (h : Counts ({f} + hf) hi he s) (hMore : 1 < (s.ftable f).ref) :
    Counts hf hi he (s.setFile f { s.ftable f with ref := (s.ftable f).ref - 1 }) where
  files := by
    have hFiles := h.files
    rw [add_assoc] at hFiles
    refine hFiles.drop.congr fun g _ => ?_
    by_cases hg : g = f
    · simp [State.setFile, hg]
    · simp [State.setFile, hg]
  inodes := by
    have hInodes := h.inodes
    rwa [← total_same (v := { s.ftable f with ref := (s.ftable f).ref - 1 }) (k := f) (by rfl)] at hInodes
  ends := by
    have hEnds := h.ends
    rwa [← total_same (v := { s.ftable f with ref := (s.ftable f).ref - 1 }) (k := f) (by rfl)] at hEnds
  idle g hg := by
    by_cases hgf : g = f
    · subst hgf
      simp only [State.setFile, upd_self] at hg
      omega
    · simp only [State.setFile, upd_of_ne hgf] at hg ⊢
      exact h.idle g hg
  alive := h.alive

/-- The last reference: what the file held is in the hands of who closes it. -/
theorem Counts.close (h : Counts ({f} + hf) hi he s) (hLast : (s.ftable f).ref = 1) :
    Counts hf ((s.ftable f).inode + hi) ((s.ftable f).ends + he) (s.setFile f (s.ftable f).closed) := by
  have hFiles := h.files
  rw [add_assoc] at hFiles
  have hIn : f ∈ range NFILE := mem_range.mpr hFiles.ok_head
  refine ⟨hFiles.drop.congr fun g _ => ?_, ?_, ?_, fun g hg => ?_, h.alive⟩
  · by_cases hg : g = f
    · simp [State.setFile, hg, hLast, File.closed]
    · simp [State.setFile, hg]
  · refine h.inodes.moved ?_
    rw [← total_take (t := s.ftable) hIn (show (s.ftable f).closed.inode = 0 from rfl)]
    simp only [State.setFile]
    ac_rfl
  · refine RefCount.congr (h.ends.moved ?_) fun _ _ => rfl
    rw [← total_take (t := s.ftable) hIn (show (s.ftable f).closed.ends = 0 from rfl)]
    simp only [State.setFile]
    ac_rfl
  · by_cases hgf : g = f
    · subst hgf
      simp [State.setFile, File.closed]
    · simp only [State.setFile, upd_of_ne hgf] at hg ⊢
      exact h.idle g hg

/-- A file structure that is in use becomes something. -/
theorem Counts.become {ff : File} (h : Counts hf (ff.inode + hi) (ff.ends + he) s) (hf' : f < NFILE)
    (hRef : ff.ref = (s.ftable f).ref) (hUsed : (s.ftable f).ref ≠ 0) (hNone : (s.ftable f).type = .none) :
    Counts hf hi he (s.setFile f ff) := by
  have hIn : f ∈ range NFILE := mem_range.mpr hf'
  have hInode : (s.ftable f).inode = 0 := by simp [File.inode, hNone]
  have hEnds : (s.ftable f).ends = 0 := by simp [File.ends, hNone]
  refine ⟨h.files.congr fun g _ => ?_, h.inodes.moved ?_, RefCount.congr (h.ends.moved ?_) fun _ _ => rfl, fun g hg => ?_,
    h.alive⟩
  · by_cases hg : g = f
    · simp [State.setFile, hg, hRef]
    · simp [State.setFile, hg]
  · simp only [State.setFile, total_put hIn hInode]
    ac_rfl
  · simp only [State.setFile, total_put hIn hEnds]
    ac_rfl
  · by_cases hgf : g = f
    · subst hgf
      simp only [State.setFile, upd_self] at hg
      exact absurd (hRef ▸ hg) hUsed
    · simp only [State.setFile, upd_of_ne hgf] at hg ⊢
      exact h.idle g hg

/-- A process is changed: files and a directory go from the hands to it, or the other way. -/
theorem Counts.setProc {hf' : Multiset Nat} {hi' : Multiset Fs.Hand} (h : Counts hf hi he s)
    (hp : p < NPROC) (hFiles : hf' + pr.files = hf + (s.proc p).files) (hDir : hi' + pr.dir = hi + (s.proc p).dir) :
    Counts hf' hi' he { s with proc := upd s.proc p pr } := by
  have hIn : p ∈ range NPROC := mem_range.mpr hp
  refine ⟨h.files.moved ?_, h.inodes.moved ?_, RefCount.congr h.ends fun _ _ => rfl, h.idle, h.alive⟩
  · rw [total_upd hIn, total_split hIn Proc.files s.proc, ← add_assoc, hFiles, add_assoc]
  · rw [total_upd hIn, total_split hIn Proc.dir s.proc, add_left_comm, ← add_assoc (hi'), hDir]
    ac_rfl

/-- A change of a process that has nothing to do with references. -/
theorem Counts.setProc_same (h : Counts hf hi he s) (hFiles : pr.ofile = (s.proc p).ofile)
    (hDir : pr.cwd = (s.proc p).cwd) : Counts hf hi he { s with proc := upd s.proc p pr } := by
  have hFiles' : pr.files = (s.proc p).files := by rw [Proc.files, hFiles, Proc.files]
  have hDir' : pr.dir = (s.proc p).dir := by rw [Proc.dir, hDir, Proc.dir]
  refine ⟨h.files.moved ?_, h.inodes.moved ?_, RefCount.congr h.ends fun _ _ => rfl, h.idle, h.alive⟩
  · rw [total_same hFiles']
  · rw [total_same hDir']

theorem files_put (hfd : fd < NOFILE) (hNone : pr.ofile fd = none) :
    ({ pr with ofile := upd pr.ofile fd (some f) } : Proc).files = {f} + pr.files :=
  total_put (mem_range.mpr hfd) (by rw [hNone]; rfl)

theorem files_take (hfd : fd < NOFILE) (hSome : pr.ofile fd = some f) :
    {f} + ({ pr with ofile := upd pr.ofile fd none } : Proc).files = pr.files := by
  have hTake := total_take (t := pr.ofile) (mem_range.mpr hfd) (show ofOption (none : Option Nat) = 0 from rfl)
  rwa [hSome] at hTake

/-- A descriptor gets a file. -/
theorem Counts.setFd (h : Counts ({f} + hf) hi he s) (hp : p < NPROC) (hfd : fd < NOFILE)
    (hNone : (s.proc p).ofile fd = none) : Counts hf hi he (s.setFd p fd (some f)) :=
  h.setProc hp (by rw [files_put hfd hNone]; ac_rfl) rfl

/-- A descriptor is cleared. -/
theorem Counts.clearFd (h : Counts hf hi he s) (hp : p < NPROC) (hfd : fd < NOFILE)
    (hSome : (s.proc p).ofile fd = some f) : Counts ({f} + hf) hi he (s.setFd p fd none) :=
  h.setProc hp (by rw [← files_take hfd hSome]; ac_rfl) rfl

/-- The file of a descriptor is in use. -/
theorem Counts.ofFd (h : Counts hf hi he s) (hp : p < NPROC) (hfd : fd < NOFILE)
    (hSome : (s.proc p).ofile fd = some f) : f < NFILE ∧ (s.ftable f).ref ≠ 0 := by
  have hMem : f ∈ total (range NPROC) Proc.files s.proc :=
    mem_total (mem_range.mpr hp) (mem_total (mem_range.mpr hfd) (mem_ofOption.mpr hSome))
  have hIn : f ∈ hf + total (range NPROC) Proc.files s.proc := Multiset.mem_add.mpr (.inr hMem)
  refine ⟨h.files.valid f hIn, fun hZero => ?_⟩
  exact h.files.notMem (h.files.valid f hIn) hZero hIn

/-! ## Pipes -/

/-- The memory that processes hold is `H`, and all counts are right. -/
structure Kernel (L : Layout) (H : Nat → Multiset Nat) (hf : Multiset Nat) (hi : Multiset Fs.Hand)
    (he : Multiset (Nat × Bool)) (s : State) : Prop where
  memory : ∃ P, Memory L H P s
  counts : Counts hf hi he s

/-- No process has changed. -/
structure Aside (s s' : State) : Prop where
  proc        : s'.proc = s.proc
  nextpid     : s'.nextpid = s.nextpid
  outstanding : s'.outstanding = s.outstanding

variable {H : Nat → Multiset Nat}

theorem Aside.trans {s'' : State} (h : Aside s s') (h' : Aside s' s'') : Aside s s'' :=
  ⟨h'.proc.trans h.proc, h'.nextpid.trans h.nextpid, h'.outstanding.trans h.outstanding⟩

/-- The page of a pipe is freed. -/
theorem Memory.freePipe {P : Finset Nat} {x : Nat} {m' : Vm.Mem} (h : Memory L H P s) (hx : x ∈ P)
    (hMoves : pool.Moves {x} 0 s.mem m') : Memory L H (P.erase x) { s with mem := m', pipe := upd s.pipe x none } := by
  have hValid := h.valid
  have hPages : P.val = {x} + (P.erase x).val := by
    rw [← insert_erase hx, insert_val_of_notMem (notMem_erase x P), Multiset.singleton_add, erase_insert (notMem_erase x P)]
  have hTotal := h.total
  rw [hPages] at hValid hTotal
  refine ⟨fun p hp => (h.holds p hp).congr fun y hy => ?_, h.procs, fun y => ?_, ?_⟩
  · have hSplit : Valid L ({x} + (∑ q ∈ range NPROC, H q + ((P.erase x).val + (s.ktab + s.kstack)))) s.mem := by
      refine hValid.part (C := 0) ?_
      rw [add_zero]
      ac_rfl
    refine hMoves.cell_eq hSplit.nodup (Multiset.mem_add.mpr (.inl (Multiset.mem_sum.mpr ⟨p, mem_range.mpr hp, hy⟩)))
  · by_cases hy : y = x
    · simp [hy]
    · simp [hy, h.pipes y]
  · have hFree := hMoves.conserve
    rw [add_zero] at hFree
    rw [hFree, ← hTotal]
    ac_rfl

theorem Kernel.pipeclose {x : Nat} {w : Bool} {Q : Unit → State → Prop} (h : Kernel L H hf hi ({(x, w)} + he) s)
    (hQ : ∀ s', Kernel L H hf hi he s' → Aside s s' → Q () s') : wp Fault (pipeclose L x w) Q s := by
  obtain ⟨⟨P, hMem⟩, hCounts⟩ := h
  have hEnds := hCounts.ends
  rw [add_assoc] at hEnds
  have hOne := hEnds.pos
  rw [Sys.pipeclose, wp_bind, wp_get]
  cases hPipe : s.pipe x with
  | none =>
    rw [State.ends, hPipe] at hOne
    cases hOne
  | some pi =>
    dsimp only
    generalize hPi : (if w = true then { pi with writeopen := false } else { pi with readopen := false } : Pipe) = pi'
    -- one end is closed, the other is as it was
    have hDrop : ∀ (s' : State) (v : Option Pipe), s'.ftable = s.ftable → s'.pipe = upd s.pipe x v →
        (v = none ∧ pi'.readopen = false ∧ pi'.writeopen = false ∨ v = some pi') →
        RefCount (fun _ => True) s'.ends (he + total (range NFILE) File.ends s'.ftable) := fun s' v hTable hNew hv => by
      rw [hTable]
      refine hEnds.drop.congr fun e _ => ?_
      obtain ⟨y, z⟩ := e
      rw [State.ends, hNew]
      by_cases hy : y = x
      · subst hy
        rw [State.ends, hPipe] at hOne
        have hSelf : s.ends (y, w) = 1 := by
          rw [State.ends, hPipe]
          exact le_antisymm (Bool.toNat_le _) hOne
        rw [upd_self, hSelf]
        by_cases hz : z = w
        · rw [hz, upd_self]
          rcases hv with ⟨rfl, -⟩ | rfl
          · rfl
          · rw [← hPi]
            cases w with
            | true | false => rfl
        · rw [upd_of_ne fun hEq => hz (congrArg Prod.snd hEq), State.ends, hPipe]
          have hOther : (if z = true then pi'.writeopen else pi'.readopen) =
              if z = true then pi.writeopen else pi.readopen := by
            rw [← hPi]
            cases w with
            | true => cases z with
              | true => exact absurd rfl hz
              | false => rfl
            | false => cases z with
              | true => rfl
              | false => exact absurd rfl hz
          rcases hv with ⟨rfl, hRead, hWrite⟩ | rfl
          · rw [hRead, hWrite, ite_self] at hOther
            exact (congrArg Bool.toNat hOther)
          · exact congrArg Bool.toNat hOther
      · rw [upd_of_ne hy, upd_of_ne fun hEq => hy (congrArg Prod.fst hEq), State.ends]
    have hx : x ∈ P := (hMem.pipes x).mpr (by simp [hPipe])
    rw [wp_ite]
    refine ⟨fun hBoth => ?_, fun hSome => ?_⟩
    · rw [wp_bind, wp_setPipe, wp_vm]
      refine Vm.wp_kfree (hMem.valid.ok_of_mem ?_) fun m' hMoves => hQ _ ⟨⟨_, hMem.freePipe hx hMoves⟩, ?_⟩ ⟨rfl, rfl, rfl⟩
      · exact Multiset.mem_add.mpr (.inr (Multiset.mem_add.mpr (.inl hx)))
      · refine ⟨hCounts.files, hCounts.inodes, hDrop _ none rfl rfl (.inl ⟨rfl, hBoth⟩), hCounts.idle, fun y pi₁ hy => ?_⟩
        by_cases hyx : y = x
        · simp [hyx] at hy
        · simp only [upd_of_ne hyx] at hy
          exact hCounts.alive y pi₁ hy
    · rw [wp_setPipe]
      refine hQ _ ⟨⟨P, hMem.holds, hMem.procs, fun y => ?_, hMem.total⟩, ?_⟩ ⟨rfl, rfl, rfl⟩
      · by_cases hyx : y = x
        · simp [hyx, hx]
        · simp [hyx, hMem.pipes y]
      · refine ⟨hCounts.files, hCounts.inodes, hDrop _ (some pi') rfl rfl (.inr rfl), hCounts.idle, fun y pi₁ hy => ?_⟩
        by_cases hyx : y = x
        · simp only [hyx, upd_self, Option.some.injEq] at hy
          subst hy
          by_contra hNot
          rw [not_or, Bool.not_eq_true, Bool.not_eq_true] at hNot
          exact hSome hNot
        · simp only [upd_of_ne hyx] at hy
          exact hCounts.alive y pi₁ hy

/-- A function of the file system. -/
theorem Kernel.fs {Q : α → State → Prop} (h : Kernel L H hf (I + hi) he s) (hm : Fs.Held I m O)
    (hQ : ∀ a c', Kernel L H hf (O a + hi) he { s with core := c' } → Q a { s with core := c' }) :
    wp Fault (Sys.fs m) Q s := by
  obtain ⟨⟨P, hMem⟩, hCounts⟩ := h
  exact hCounts.wp_fs hm fun a c' h' => hQ a c' ⟨⟨P, hMem.holds, hMem.procs, hMem.pipes, hMem.total⟩, h'⟩

theorem Kernel.borrow {Q : α → State → Prop} (h : Kernel L H hf hi he s)
    (hMem : Fs.Hand.ref k ∈ hi + (total (range NFILE) File.inode s.ftable + total (range NPROC) Proc.dir s.proc))
    (hm : Fs.Held {.ref k} m fun a => O a + {.ref k})
    (hQ : ∀ a c', Kernel L H hf (O a + hi) he { s with core := c' } → Q a { s with core := c' }) :
    wp Fault (Sys.fs m) Q s := by
  obtain ⟨⟨P, hMemory⟩, hCounts⟩ := h
  exact hCounts.wp_fs_borrow hMem hm fun a c' h' =>
    hQ a c' ⟨⟨P, hMemory.holds, hMemory.procs, hMemory.pipes, hMemory.total⟩, h'⟩

theorem Kernel.keeps {Q : α → State → Prop} (h : Kernel L H hf hi he s) (hm : Fs.Keeps m)
    (hQ : ∀ a c', Kernel L H hf hi he { s with core := c' } → Q a { s with core := c' }) : wp Fault (Sys.fs m) Q s := by
  rw [← zero_add hi] at h
  refine h.fs (.keeps hm) fun a c' h' => hQ a c' ?_
  rwa [zero_add] at h'

/-- Pids and transactions do not matter. -/
theorem Kernel.other (h : Kernel L H hf hi he s) (pid : BitVec 32) (n : Int) :
    Kernel L H hf hi he { s with nextpid := pid, outstanding := n } := by
  obtain ⟨⟨P, hMem⟩, hCounts⟩ := h
  exact ⟨⟨P, hMem.holds, hMem.procs, hMem.pipes, hMem.total⟩,
    ⟨hCounts.files, hCounts.inodes, hCounts.ends, hCounts.idle, hCounts.alive⟩⟩

/-- Changes of the file table are no changes of memory. -/
theorem Kernel.table {ftable : Nat → File} {hf' : Multiset Nat} {hi' : Multiset Fs.Hand} {he' : Multiset (Nat × Bool)}
    (h : Kernel L H hf hi he s) (hCounts : Counts hf' hi' he' { s with ftable := ftable }) :
    Kernel L H hf' hi' he' { s with ftable := ftable } := by
  obtain ⟨⟨P, hMem⟩, -⟩ := h
  exact ⟨⟨P, hMem.holds, hMem.procs, hMem.pipes, hMem.total⟩, hCounts⟩

/-- An inode is let go of. -/
theorem Kernel.iput {Q : Unit → State → Prop} (h : Kernel L H hf ({.ref k} + hi) he s)
    (hQ : ∀ s', Kernel L H hf hi he s' → Aside s s' → Q () s') :
    wp Fault (do
      beginOp
      Sys.fs (Fs.iput k)
      endOp) Q s := by
  rw [wp_bind, wp_beginOp, wp_bind]
  refine (h.other s.nextpid (s.outstanding + 1)).fs (Fs.held_iput k) fun _ c' h' => ?_
  rw [wp_endOp]
  rw [zero_add] at h'
  exact hQ _ (h'.other s.nextpid _) ⟨rfl, rfl, Int.add_sub_cancel ..⟩

/-- A file is closed. -/
theorem Kernel.fileclose {Q : Unit → State → Prop} (h : Kernel L H ({f} + hf) hi he s)
    (hQ : ∀ s', Kernel L H hf hi he s' → Aside s s' → Q () s') : wp Fault (fileclose L f) Q s := by
  have hFiles := h.counts.files
  rw [add_assoc] at hFiles
  have hPos : 0 < (s.ftable f).ref := hFiles.pos
  rw [Sys.fileclose, wp_bind, wp_file, wp_bind, wp_when]
  refine ⟨fun hBad => absurd hBad (by omega), fun _ => ?_⟩
  rw [wp_ite]
  refine ⟨fun hMore => ?_, fun hLast => ?_⟩
  · rw [Sys.wp_setFile]
    exact hQ _ (h.table (h.counts.drop hMore)) ⟨rfl, rfl, rfl⟩
  · rw [wp_bind, Sys.wp_setFile]
    have hKernel : Kernel L H hf ((s.ftable f).inode + hi) ((s.ftable f).ends + he) (s.setFile f (s.ftable f).closed) :=
      h.table (h.counts.close (by omega))
    have hQ' : ∀ s', Kernel L H hf hi he s' → Aside (s.setFile f (s.ftable f).closed) s' → Q () s' :=
      fun s' h' hAside => hQ s' h' ⟨hAside.proc, hAside.nextpid, hAside.outstanding⟩
    rw [File.inode, File.ends] at hKernel
    cases hType : (s.ftable f).type with
    | none =>
      rw [hType, if_neg (by simp), if_neg (by simp), zero_add, zero_add] at hKernel
      exact wp_pure.mpr (hQ _ hKernel ⟨rfl, rfl, rfl⟩)
    | pipe =>
      rw [hType, if_neg (by simp), if_pos rfl, zero_add] at hKernel
      exact hKernel.pipeclose hQ'
    | inode =>
      rw [hType, if_pos (.inl rfl), if_neg (by simp), zero_add] at hKernel
      exact hKernel.iput hQ'
    | device =>
      rw [hType, if_pos (.inr rfl), if_neg (by simp), zero_add] at hKernel
      exact hKernel.iput hQ'

end Xv6.Sys
