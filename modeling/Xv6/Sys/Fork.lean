import Xv6.Sys.Memory

/-!
# xv6 — `fork`

What a successful `fork` has made of the parent (`State.forked`), and that one which fails has only taken a pid.
-/

namespace Xv6.Sys

open Hoare Finset
open Vm (Layout Mem Page Pte PgTable PageOk Space Valid Copied pool own npages)

variable {F : Panic → Prop} {L : Layout} {s s' : State} {p : Nat} {H : Nat → Multiset Nat} {P : Finset Nat}

/-! ## Descriptors -/

/-- The files that a process has open, once for each descriptor. -/
def openFiles (ofile : Nat → Option Nat) : List Nat := (List.range NOFILE).filterMap ofile

/-- The state when entry `np` has got the descriptors `l` of a process. -/
def State.duped (s : State) (ofile : Nat → Option Nat) (np : Nat) (l : List Nat) : State :=
  { s with
    ftable := fun f => { s.ftable f with ref := (s.ftable f).ref + (l.filterMap ofile).count f }
    proc := upd s.proc np { s.proc np with
      ofile := fun fd => if fd ∈ l then (ofile fd).or ((s.proc np).ofile fd) else (s.proc np).ofile fd } }

theorem State.duped_nil (s : State) (ofile : Nat → Option Nat) (np : Nat) : s.duped ofile np [] = s := by
  simp [State.duped]

theorem State.duped_none {ofile : Nat → Option Nat} {np fd : Nat} {l : List Nat} (h : ofile fd = none) :
    s.duped ofile np (fd :: l) = s.duped ofile np l := by
  have hFd : (fun x => if x ∈ fd :: l then (ofile x).or ((s.proc np).ofile x) else (s.proc np).ofile x) =
      fun x => if x ∈ l then (ofile x).or ((s.proc np).ofile x) else (s.proc np).ofile x := by
    funext x
    by_cases hx : x = fd
    · simp [hx, h]
    · simp [hx]
  rw [duped, duped, hFd, List.filterMap_cons_none h]

/-- One more descriptor is taken over, with a reference to its file. -/
theorem State.duped_some {ofile : Nat → Option Nat} {np fd f : Nat} {l : List Nat} (h : ofile fd = some f)
    (hNotMem : fd ∉ l) :
    ((s.setFile f { s.ftable f with ref := (s.ftable f).ref + 1 }).setFd np fd (some f)).duped ofile np l =
      s.duped ofile np (fd :: l) := by
  have hTable : (fun g => { upd s.ftable f { s.ftable f with ref := (s.ftable f).ref + 1 } g with
      ref := (upd s.ftable f { s.ftable f with ref := (s.ftable f).ref + 1 } g).ref + (l.filterMap ofile).count g }) =
      fun g => { s.ftable g with ref := (s.ftable g).ref + ((fd :: l).filterMap ofile).count g } := by
    funext g
    rw [List.filterMap_cons_some h]
    by_cases hg : g = f
    · rw [hg, upd_self, List.count_cons_self]
      simp only [File.mk.injEq, true_and, and_true]
      omega
    · rw [upd_of_ne hg, List.count_cons_of_ne (fun hEq => hg hEq.symm)]
  have hFd : (fun x => if x ∈ l then (ofile x).or (upd (s.proc np).ofile fd (some f) x)
      else upd (s.proc np).ofile fd (some f) x) =
      fun x => if x ∈ fd :: l then (ofile x).or ((s.proc np).ofile x) else (s.proc np).ofile x := by
    funext x
    by_cases hx : x = fd
    · simp [hx, h, hNotMem]
    · simp [hx]
  simp only [duped, setFd, setFile, upd_self, upd_upd, hTable, hFd]

theorem wp_dupLoop {ofile : Nat → Option Nat} {np : Nat} {l : List Nat} (hNodup : l.Nodup)
    (hUsed : ∀ fd ∈ l, ∀ f, ofile fd = some f → (s.ftable f).ref ≠ 0) :
    wp F (l.forM fun fd => ifPtr (ofile fd) fun f => do
      let f ← filedup f
      setFd np fd (some f)) (fun _ s' => s' = s.duped ofile np l) s := by
  induction l generalizing s with
  | nil => exact wp_pure.mpr (s.duped_nil ofile np).symm
  | cons fd l ih =>
    obtain ⟨hNotMem, hNodup⟩ := List.nodup_cons.mp hNodup
    rw [List.forM_eq_forM, List.forM_cons, wp_bind]
    refine wp_ifPtr (fun hNone => ?_) fun f hSome => ?_
    · rw [State.duped_none hNone]
      exact ih hNodup fun fd' hfd' => hUsed fd' (List.mem_cons_of_mem fd hfd')
    · have hRef := hUsed fd List.mem_cons_self f hSome
      rw [wp_bind, filedup, wp_bind, wp_file, wp_bind, wp_when]
      refine ⟨fun hBad => absurd hBad (by omega), fun _ => ?_⟩
      rw [wp_bind, Sys.wp_setFile, wp_pure, wp_setFd, ← State.duped_some hSome hNotMem]
      refine ih hNodup fun fd' hfd' g hg => ?_
      have hOld := hUsed fd' (List.mem_cons_of_mem fd hfd') g hg
      by_cases hgf : g = f
      · simp [State.setFd, State.setFile, hgf]
      · simpa [State.setFd, State.setFile, hgf] using hOld

/-! ## fork -/

/-- The trapframe page of a child, `b` before, with the registers of its parent. -/
def childRegs (b parent : Page) : Page :=
  ByteBuf.setField (ByteBuf.poke b 0 TRAPFRAMESIZE (ByteBuf.peek parent)) Reg.a0.offset 8 0

/-- The state when process `p` has made the child `q` with the page table `pt` and the trapframe `tf`. -/
def State.forked (s : State) (p q pt tf cwd : Nat) (m' : Mem) : State :=
  { s with
    core := { s.core with
      itable := upd s.core.itable cwd { s.core.itable cwd with ref := (s.core.itable cwd).ref + 1 } }
    mem := m'
    ftable := fun f => { s.ftable f with ref := (s.ftable f).ref + (openFiles (s.proc p).ofile).count f }
    proc := upd s.proc q { s.proc q with
      state := .runnable
      pid := s.nextpid
      parent := some p
      sz := (s.proc p).sz
      pagetable := some pt
      trapframe := some tf
      ofile := fun fd =>
        if fd ∈ List.range NOFILE then ((s.proc p).ofile fd).or ((s.proc q).ofile fd) else (s.proc q).ofile fd
      cwd := some cwd
      name := safestrcpy (s.proc q).name (cstring (s.proc p).name) }
    nextpid := s.nextpid + 1 }

/-- A child with a copy of the memory of process `p`. -/
structure ChildOf (L : Layout) (s : State) (p tf : Nat) (f : Nat → Option Pte) (npt ntf : Nat) (A' : Multiset Nat)
    (f' : Nat → Option Pte) (m' : Mem) : Prop where
  tree   : PgTable m' npt A' f'
  space  : Space L f' (npages (s.proc p).sz) ntf
  copied : ∀ u, u < npages (s.proc p).sz → Vm.Copied m' f' s.mem f u
  regs   : ∃ b, m'.page ntf = childRegs b (s.mem.page tf)
  moves  : pool.Moves 0 (A' + own f' (Ico 0 (npages (s.proc p).sz)) + {ntf}) s.mem m'

theorem wp_fork {pt tf cwd : Nat} {A : Multiset Nat} {f : Nat → Option Pte} {Q : Option Nat → State → Prop}
    (h : Owner L s.mem (s.proc p) pt tf A f) (hCwd : (s.proc p).cwd = some cwd)
    (hValid : Valid L (A + own f (Ico 0 (npages (s.proc p).sz)) + {tf}) s.mem)
    (hIdle : ∀ q < NPROC, (s.proc q).state = .unused → (s.proc q).img = ⟨0, none, none⟩)
    (hUsed : ∀ fd < NOFILE, ∀ f, (s.proc p).ofile fd = some f → (s.ftable f).ref ≠ 0)
    (hFull : (∀ q < NPROC, (s.proc q).state ≠ .unused) → Q none s)
    (hFail : ∀ q m', q < NPROC → (s.proc q).state = .unused → pool.Moves 0 0 s.mem m' →
      Q none { s with mem := m', nextpid := s.nextpid + 1, proc := upd s.proc q (s.proc q).freed })
    (hOk : ∀ q npt ntf A' f' m', q < NPROC → (s.proc q).state = .unused → ChildOf L s p tf f npt ntf A' f' m' →
      Q (some q) (s.forked p q npt ntf cwd m')) :
    wp F (fork L p) Q s := by
  have hN := Vm.npages_limit
  have hTop := Vm.vtrapframe_eq
  rw [fork, wp_bind]
  refine wp_allocproc hValid.zero hIdle (fun hAll => wp_pure.mpr (hFull hAll))
    (fun q m' hq hUnused hMoves => wp_pure.mpr (hFail q m' hq hUnused hMoves))
    fun q npt ntf A₁ f₁ m₁ hq hUnused hTree₁ hSpace₁ hMoves₁ => ?_
  have hImg := hIdle q hq hUnused
  have hSz : (s.proc q).sz = 0 := congrArg Img.sz hImg
  have hne : p ≠ q := by
    rintro rfl
    have hBad : (s.proc p).pagetable = none := congrArg Img.pagetable hImg
    rw [h.pagetable] at hBad
    cases hBad
  generalize hX : A + own f (Ico 0 (npages (s.proc p).sz)) + {tf} = X at hValid
  have hHeld₁ := hMoves₁.add X
  rw [zero_add] at hHeld₁
  have hValid₁ := hHeld₁.valid hValid
  have hKept₁ : ∀ x ∈ X, m₁.page x = s.mem.page x := fun x hx =>
    hMoves₁.cell_eq (by rw [zero_add]; exact hValid.nodup) hx
  have hTree : PgTable m₁ pt A f := h.tree.congr (fun x hx => Vm.word_congr (hKept₁ x (by
    rw [← hX]
    exact Multiset.mem_add.mpr (.inl (Multiset.mem_add.mpr (.inl hx)))))) fun _ _ => rfl
  dsimp only
  rw [wp_bind, wp_proc]
  dsimp only
  rw [upd_of_ne hne, h.pagetable, wp_bind, wp_deref, wp_bind, wp_proc]
  dsimp only
  rw [upd_self, Proc.allocated, wp_bind, wp_deref, wp_bind, wp_vm]
  refine Vm.wp_uvmcopy h.size h.space.le hTree (fun u hu => (h.space.user u (by have := h.space.le; omega)).mpr hu) hTree₁
    (fun u hu => ?_) ?_ (fun m₂ A₂ hTree₂ hMoves₂ => ?_) fun m₂ A₂ f₂ hTree₂ hSame hCopied hMoves₂ => ?_
  · by_contra hSome
    have hBad := (hSpace₁.user u (by have := h.space.le; omega)).mp (Option.ne_none_iff_isSome.mp hSome)
    omega
  · refine hValid₁.part (C := {ntf} + {tf}) ?_
    rw [← hX]
    ac_rfl
  · -- what the child has got goes back
    have hMoves₃ := hMoves₂.add {ntf}
    rw [if_neg (by simp), wp_bind]
    refine wp_freeproc (B := A₂ + {ntf}) ?_ ?_ fun m₃ hMoves₄ => wp_pure.mpr ?_
    · dsimp only
      rw [upd_self, Proc.img]
      dsimp only
      rw [hSz]
      have hHolds : Holds L m₂ ⟨0, some npt, some ntf⟩ (A₂ + own f₁ (Ico 0 (npages 0)) + {ntf}) :=
        .live (by omega) hTree₂ hSpace₁
      rwa [show npages 0 = 0 from rfl, Ico_self, Vm.own_empty, add_zero] at hHolds
    · exact ((hMoves₃.add X).valid hValid₁).left
    · dsimp only
      rw [upd_self, upd_upd]
      exact hFail q m₃ hq hUnused (hMoves₁.trans (hMoves₃.trans hMoves₄))
  · replace hMoves₂ : pool.Moves A₁ (A₂ + own f₂ (Ico 0 (npages (s.proc p).sz))) m₁ m₂ := hMoves₂
    have hValid₂ := ((hMoves₂.add {ntf}).add X).valid hValid₁
    have hTf : m₂.page tf = s.mem.page tf := by
      have hMem : tf ∈ X := hX ▸ by simp
      rw [add_assoc] at hValid₁
      rw [← hKept₁ tf hMem]
      exact hMoves₂.cell_eq hValid₁.nodup (Multiset.mem_add.mpr (.inr hMem))
    rw [if_pos rfl, wp_bind, wp_setProc, wp_bind, wp_get, h.trapframe, wp_bind, wp_deref]
    dsimp only
    rw [upd_self, upd_upd, wp_bind, wp_proc]
    dsimp only
    rw [upd_self, wp_bind, wp_deref, wp_bind, wp_vm, Vm.wp_store]
    dsimp only
    rw [wp_bind, setReg, wp_bind, wp_proc]
    dsimp only
    rw [upd_self, wp_bind, wp_deref, wp_vm, Vm.wp_store, Vm.Mem.put_put, Vm.Mem.put_page, upd_self, hTf]
    have hChild : ChildOf L s p tf f npt ntf A₂ f₂ (m₂.put ntf (childRegs (m₂.page ntf) (s.mem.page tf))) := by
      have hNot : ntf ∉ A₂ + own f₂ (Ico 0 (npages (s.proc p).sz)) := fun hMem =>
        Multiset.disjoint_left.mp (Multiset.nodup_add.mp hValid₂.left.held).2.2 hMem (Multiset.mem_singleton_self ntf)
      have hPut : pool.Moves {ntf} {ntf} m₂ (m₂.put ntf (childRegs (m₂.page ntf) (s.mem.page tf))) :=
        Vm.moves_store (Multiset.mem_singleton_self ntf)
      refine ⟨?_, ?_, fun u hu => ?_, ⟨_, upd_self ..⟩, ?_⟩
      · refine hTree₂.congr (fun x hx => Vm.word_congr (upd_of_ne fun hEq => hNot ?_)) fun _ _ => rfl
        exact Multiset.mem_add.mpr (.inl (hEq ▸ hx))
      · refine hSpace₁.grow (Nat.zero_le _) h.space.le (fun u hu => hSame u (by omega)) fun u _ hu => ?_
        obtain ⟨w, w', -, hw', -⟩ := (hCopied u hu).entry
        rw [hw']
        rfl
      · obtain ⟨w, w', hw, hw', hFlags, hPage⟩ := (hCopied u hu).entry
        have hIn : u ∈ Ico 0 (npages (s.proc p).sz) := mem_Ico.mpr ⟨Nat.zero_le u, hu⟩
        refine ⟨w, w', hw, hw', hFlags, ?_⟩
        have hne' : w'.pa ≠ ntf := fun hEq => hNot (hEq ▸ Multiset.mem_add.mpr (.inr (Vm.mem_own hIn hw')))
        rw [Vm.Mem.put_page, upd_of_ne hne']
        refine hPage.trans (hKept₁ w.pa ?_)
        rw [← hX]
        exact Multiset.mem_add.mpr (.inl (Multiset.mem_add.mpr (.inr (Vm.mem_own hIn hw))))
      · exact hMoves₁.trans ((hMoves₂.add {ntf}).trans (hPut.add_left _))
    rw [wp_bind]
    refine (wp_dupLoop List.nodup_range ?_).mono fun _ s₃ hs₃ => ?_
    · exact fun fd hfd => hUsed fd (List.mem_range.mp hfd)
    rw [hs₃, hCwd, wp_bind, wp_deref, wp_bind, wp_fs, Fs.idup, wp_bind, Fs.setInode, wp_modify, wp_pure, wp_bind,
      wp_setProc, wp_pure]
    have hQ := hOk q npt ntf A₂ f₂ _ hq hUnused hChild
    simp only [State.duped, upd_self, upd_upd]
    exact hQ

end Xv6.Sys
