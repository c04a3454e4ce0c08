import Xv6.Sys.Files
import Xv6.Vm.User

/-!
# xv6 — who holds which page

Each page that `kinit` handed out is on the free list, belongs to one process, is a pipe, or was taken when the kernel
started (`Memory`). What a process holds is told by three of its fields (`Img`, `Holds`). A call changes what one process
holds, and takes pages from the free list or gives them back (`Memory.step`); so the specifications below say which pages a
function holds before and after.
-/

namespace Xv6.Sys

open Hoare Finset
open Vm (Layout Mem Page Pte PgTable PageOk Space Valid Image pool own npages PGSIZE PGROUNDUP u64 NPAGES)

variable {F : Panic → Prop} {L : Layout} {s s' s'' : State} {m m' : Mem} {p : Nat}

/-! ## Pages -/

theorem allPages_nodup (L : Layout) : (allPages L).Nodup := by
  refine List.Nodup.map (fun i j h => ?_) List.nodup_range
  unfold PGSIZE at h
  omega

theorem allPages_ok {x : Nat} (h : x ∈ allPages L) : PageOk L x := by
  obtain ⟨i, hi, rfl⟩ := List.mem_map.mp h
  rw [List.mem_range] at hi
  have hFits := L.fits
  unfold PGROUNDUP u64 at *
  unfold Vm.PHYSTOP Vm.KERNBASE PGSIZE at *
  exact ⟨by unfold PGSIZE; omega, by omega, by unfold Vm.PHYSTOP Vm.KERNBASE; omega⟩

/-! ## What a process holds -/

/-- The fields of a process that tell which memory it has. -/
structure Img where
  sz        : Nat
  pagetable : Option Nat
  trapframe : Option Nat

def Proc.img (pr : Proc) : Img := ⟨pr.sz, pr.pagetable, pr.trapframe⟩

/-- The pages of a process: none, or those of its page table, its user pages and its trapframe. -/
inductive Holds (L : Layout) (m : Mem) : Img → Multiset Nat → Prop where
  | idle : Holds L m ⟨0, none, none⟩ 0
  | live {sz pt tf : Nat} {A : Multiset Nat} {f : Nat → Option Pte} (hsz : sz < 2 ^ 63) (hTree : PgTable m pt A f)
      (hSpace : Space L f (npages sz) tf) :
      Holds L m ⟨sz, some pt, some tf⟩ (A + own f (Ico 0 (npages sz)) + {tf})

/-- The process `pr` has the page table `pt`, made of the pages `A`, with the map `f`, and the trapframe `tf`. -/
structure Owner (L : Layout) (m : Mem) (pr : Proc) (pt tf : Nat) (A : Multiset Nat) (f : Nat → Option Pte) : Prop where
  pagetable : pr.pagetable = some pt
  trapframe : pr.trapframe = some tf
  size      : pr.sz < 2 ^ 63
  tree      : PgTable m pt A f
  space     : Space L f (npages pr.sz) tf

variable {pr : Proc} {pt tf : Nat} {A : Multiset Nat} {f : Nat → Option Pte}

theorem Owner.holds (h : Owner L m pr pt tf A f) : Holds L m pr.img (A + own f (Ico 0 (npages pr.sz)) + {tf}) := by
  rw [Proc.img, h.pagetable, h.trapframe]
  exact .live h.size h.tree h.space

theorem Holds.owner {H : Multiset Nat} (h : Holds L m pr.img H) (hSome : pr.pagetable ≠ none) :
    ∃ pt tf A f, Owner L m pr pt tf A f ∧ H = A + own f (Ico 0 (npages pr.sz)) + {tf} := by
  generalize hImg : pr.img = i at h
  cases h with
  | idle => exact absurd (congrArg Img.pagetable hImg) hSome
  | live hsz hTree hSpace =>
    rename_i sz pt tf A f
    have hSz : pr.sz = sz := congrArg Img.sz hImg
    subst hSz
    exact ⟨pt, tf, A, f, ⟨congrArg Img.pagetable hImg, congrArg Img.trapframe hImg, hsz, hTree, hSpace⟩, rfl⟩

/-- Processes are far smaller than `2 ^ 32`. -/
theorem Owner.sz_le (h : Owner L m pr pt tf A f) : pr.sz ≤ 2 ^ 27 := by
  have hLe := h.space.le
  have hN := Vm.npages_limit
  rw [Vm.npages_eq h.size] at hLe
  omega

theorem Owner.congr (h : Owner L m pr pt tf A f) (hSame : ∀ x ∈ A, m'.page x = m.page x) : Owner L m' pr pt tf A f where
  pagetable := h.pagetable
  trapframe := h.trapframe
  size := h.size
  tree := h.tree.congr (fun x hx => Vm.word_congr (hSame x hx)) fun _ _ => rfl
  space := h.space

theorem Holds.congr {i : Img} {H : Multiset Nat} (h : Holds L m i H) (hSame : ∀ x ∈ H, m'.page x = m.page x) :
    Holds L m' i H := by
  cases h with
  | idle => exact .idle
  | live hsz hTree hSpace =>
    refine .live hsz (hTree.congr (fun x hx => Vm.word_congr (hSame x ?_)) fun _ _ => rfl) hSpace
    exact Multiset.mem_add.mpr (.inl (Multiset.mem_add.mpr (.inl hx)))

/-! ## All pages -/

/-- A process has a page table while it is in use, and a current directory until it exits. -/
structure Proc.Ok (pr : Proc) : Prop where
  pagetable : pr.state = .unused ↔ pr.pagetable = none
  cwd       : pr.state = .runnable ∨ pr.state = .sleeping → pr.cwd ≠ none

/-- Process `p` holds the pages `H p`, the pipes are the pages `P`, and each page has one place. -/
structure Memory (L : Layout) (H : Nat → Multiset Nat) (P : Finset Nat) (s : State) : Prop where
  holds : ∀ p < NPROC, Holds L s.mem (s.proc p).img (H p)
  procs : ∀ p < NPROC, (s.proc p).Ok
  pipes : ∀ x, x ∈ P ↔ s.pipe x ≠ none
  total : pool.free s.mem + (∑ p ∈ range NPROC, H p + (P.val + (s.ktab + s.kstack))) = allPages L

variable {H : Nat → Multiset Nat} {P : Finset Nat}

theorem Memory.valid (h : Memory L H P s) :
    Valid L (∑ p ∈ range NPROC, H p + (P.val + (s.ktab + s.kstack))) s.mem where
  nodup := by
    rw [h.total]
    exact allPages_nodup L
  ok x hx := by
    rw [h.total] at hx
    exact allPages_ok hx

/-- What everybody else holds. -/
def rest (H : Nat → Multiset Nat) (P : Finset Nat) (s : State) (p : Nat) : Multiset Nat :=
  ∑ q ∈ (range NPROC).erase p, H q + (P.val + (s.ktab + s.kstack))

theorem sum_split (hp : p < NPROC) (H : Nat → Multiset Nat) :
    ∑ q ∈ range NPROC, H q = H p + ∑ q ∈ (range NPROC).erase p, H q :=
  (add_sum_erase _ _ (mem_range.mpr hp)).symm

theorem Memory.split (h : Memory L H P s) (hp : p < NPROC) : Valid L (H p + rest H P s p) s.mem := by
  have hValid := h.valid
  rwa [sum_split hp, add_assoc] at hValid

theorem mem_rest {q x : Nat} (hq : q < NPROC) (hne : q ≠ p) (hx : x ∈ H q) : x ∈ rest H P s p :=
  Multiset.mem_add.mpr (.inl (Multiset.mem_sum.mpr ⟨q, mem_erase.mpr ⟨hne, mem_range.mpr hq⟩, hx⟩))

/-- A step in which process `p` has the pages `Hp` first and `Hp'` then, and which no other process notices. -/
structure Local (L : Layout) (p : Nat) (Hp Hp' : Multiset Nat) (s s' : State) : Prop where
  moves  : pool.Moves Hp Hp' s.mem s'.mem
  holds  : Holds L s'.mem (s'.proc p).img Hp'
  ok     : (s'.proc p).Ok
  other  : ∀ q, q ≠ p → (s'.proc q).img = (s.proc q).img ∧ ((s.proc q).Ok → (s'.proc q).Ok)
  pipe   : s'.pipe = s.pipe
  ktab   : s'.ktab = s.ktab
  kstack : s'.kstack = s.kstack

theorem Memory.step {Hp' : Multiset Nat} (h : Memory L H P s) (hp : p < NPROC) (hStep : Local L p (H p) Hp' s s') :
    Memory L (upd H p Hp') P s' where
  holds q hq := by
    by_cases hqp : q = p
    · rw [hqp, upd_self]
      exact hStep.holds
    · rw [upd_of_ne hqp, (hStep.other q hqp).1]
      exact (h.holds q hq).congr fun x hx => hStep.moves.cell_eq (h.split hp).nodup (mem_rest hq hqp hx)
  procs q hq := by
    by_cases hqp : q = p
    · rw [hqp]
      exact hStep.ok
    · exact (hStep.other q hqp).2 (h.procs q hq)
  pipes x := by rw [hStep.pipe, h.pipes]
  total := by
    have hOthers : ∑ q ∈ (range NPROC).erase p, upd H p Hp' q = ∑ q ∈ (range NPROC).erase p, H q :=
      sum_congr rfl fun q hq => upd_of_ne (ne_of_mem_erase hq)
    have hTotal := h.total
    rw [sum_split hp, add_assoc, ← add_assoc, ← hStep.moves.conserve, add_assoc] at hTotal
    rw [sum_split hp, hOthers, upd_self, hStep.ktab, hStep.kstack, add_assoc]
    exact hTotal

/-! ## Making and freeing processes -/

/-- An entry of the process table as `freeproc` leaves it. -/
def Proc.freed (pr : Proc) : Proc :=
  { pr with
    trapframe := none, pagetable := none, sz := 0, pid := 0, parent := none
    name := ByteBuf.poke pr.name 0 1 fun _ => 0, chan := none, killed := false, xstate := 0, state := .unused }

theorem wp_freeproc {B : Multiset Nat} {Q : Unit → State → Prop} (hHolds : Holds L s.mem (s.proc p).img B)
    (hValid : Valid L B s.mem)
    (h : ∀ m', pool.Moves B 0 s.mem m' → Q () { s with mem := m', proc := upd s.proc p (s.proc p).freed }) :
    wp F (freeproc L p) Q s := by
  generalize hImg : (s.proc p).img = i at hHolds
  rw [freeproc, wp_bind, wp_proc, wp_bind]
  cases hHolds with
  | idle =>
    have hTf : (s.proc p).trapframe = none := congrArg Img.trapframe hImg
    have hPt : (s.proc p).pagetable = none := congrArg Img.pagetable hImg
    rw [hTf]
    refine wp_ifPtr (fun _ => ?_) nofun
    rw [wp_bind, wp_proc, hPt, wp_bind]
    refine wp_ifPtr (fun _ => ?_) nofun
    rw [wp_setProc]
    exact h s.mem (.refl 0 _)
  | live hsz hTree hSpace =>
    rename_i sz pt tf A f
    have hTf : (s.proc p).trapframe = some tf := congrArg Img.trapframe hImg
    have hPt : (s.proc p).pagetable = some pt := congrArg Img.pagetable hImg
    have hSz : (s.proc p).sz = sz := congrArg Img.sz hImg
    rw [hTf]
    refine wp_ifPtr nofun fun _ hx => ?_
    cases hx
    rw [wp_vm]
    refine Vm.wp_kfree (hValid.ok_of_mem (by simp)) fun m₁ hMoves₁ => ?_
    have hHeld := hMoves₁.add_left (A + own f (Ico 0 (npages sz)))
    rw [add_zero] at hHeld
    have hTree₁ : PgTable m₁ pt A f := hTree.moves hMoves₁ (by
      rw [add_comm (_ + _), ← add_assoc] at hValid
      exact hValid.left.nodup)
    rw [wp_bind, wp_proc]
    dsimp only
    rw [hPt, wp_bind]
    refine wp_ifPtr nofun fun _ hx => ?_
    cases hx
    rw [wp_bind, wp_proc]
    dsimp only
    rw [hSz, wp_vm]
    refine Vm.wp_proc_freepagetable hsz hSpace hTree₁ (hHeld.valid hValid) fun m₂ hMoves₂ => ?_
    rw [wp_setProc]
    exact h m₂ (hHeld.trans hMoves₂)

/-- The same when the process has only a trapframe. -/
theorem wp_freeproc_trapframe {tf : Nat} {Q : Unit → State → Prop} (hTf : (s.proc p).trapframe = some tf)
    (hPt : (s.proc p).pagetable = none) (hOk : PageOk L tf)
    (h : ∀ m', pool.Moves {tf} 0 s.mem m' → Q () { s with mem := m', proc := upd s.proc p (s.proc p).freed }) :
    wp F (freeproc L p) Q s := by
  rw [freeproc, wp_bind, wp_proc, hTf, wp_bind]
  refine wp_ifPtr nofun fun _ hx => ?_
  cases hx
  rw [wp_vm]
  refine Vm.wp_kfree hOk fun m₁ hMoves₁ => ?_
  rw [wp_bind, wp_proc]
  dsimp only
  rw [hPt, wp_bind]
  refine wp_ifPtr (fun _ => ?_) nofun
  rw [wp_setProc]
  exact h m₁ hMoves₁

/-- An entry that is not in use has no memory. -/
theorem Memory.idle (h : Memory L H P s) (hp : p < NPROC) (hState : (s.proc p).state = .unused) :
    (s.proc p).img = ⟨0, none, none⟩ ∧ H p = 0 := by
  have hPt : (s.proc p).img.pagetable = none := (h.procs p hp).pagetable.mp hState
  have hHolds := h.holds p hp
  generalize (s.proc p).img = i at hHolds hPt
  generalize H p = Hp at hHolds
  cases hHolds with
  | idle => exact ⟨rfl, rfl⟩
  | live => cases hPt

/-- A process that is in use has memory. -/
theorem Memory.owner (h : Memory L H P s) (hp : p < NPROC) (hState : (s.proc p).state ≠ .unused) :
    ∃ pt tf A f, Owner L s.mem (s.proc p) pt tf A f ∧ H p = A + own f (Ico 0 (npages (s.proc p).sz)) + {tf} :=
  (h.holds p hp).owner fun hNone => hState ((h.procs p hp).pagetable.mpr hNone)

/-- The entry `q` when `allocproc` has put a process there. -/
def Proc.allocated (pr : Proc) (pid : BitVec 32) (tf pt : Nat) : Proc :=
  { pr with pid := pid, state := .used, trapframe := some tf, pagetable := some pt }

theorem wp_allocproc {Q : Option Nat → State → Prop} (hValid : Valid L 0 s.mem)
    (hIdle : ∀ q < NPROC, (s.proc q).state = .unused → (s.proc q).img = ⟨0, none, none⟩)
    (hFull : (∀ q < NPROC, (s.proc q).state ≠ .unused) → Q none s)
    (hNone : ∀ q m', q < NPROC → (s.proc q).state = .unused → pool.Moves 0 0 s.mem m' →
      Q none { s with mem := m', nextpid := s.nextpid + 1, proc := upd s.proc q (s.proc q).freed })
    (hSome : ∀ q pt tf A f m', q < NPROC → (s.proc q).state = .unused → PgTable m' pt A f → Space L f 0 tf →
      pool.Moves 0 (A + {tf}) s.mem m' →
      Q (some q) { s with
        mem := m', nextpid := s.nextpid + 1, proc := upd s.proc q ((s.proc q).allocated s.nextpid tf pt) }) :
    wp F (allocproc L) Q s := by
  rw [allocproc, wp_bind, wp_get]
  split
  · rename_i hFind
    refine wp_pure.mpr (hFull fun q hq hBad => ?_)
    exact absurd (decide_eq_true hBad) (List.find?_eq_none.mp hFind q (List.mem_range.mpr hq))
  · rename_i q hFind
    have hq : q < NPROC := List.mem_range.mp (List.mem_of_find?_eq_some hFind)
    have hUnused : (s.proc q).state = .unused := by simpa using List.find?_some hFind
    have hImg := hIdle q hq hUnused
    have hPt : (s.proc q).pagetable = none := congrArg Img.pagetable hImg
    have hTf : (s.proc q).trapframe = none := congrArg Img.trapframe hImg
    rw [wp_bind, allocpid, wp_bind, wp_get, wp_bind, wp_modify, wp_pure, wp_bind, wp_setProc, wp_bind, wp_vm]
    refine Vm.wp_kalloc ?_ fun tf m₁ hMoves₁ hFree => ?_
    · rw [wp_bind]
      refine wp_freeproc (B := 0) ?_ hValid fun m' hMoves => wp_pure.mpr ?_
      · dsimp only
        rw [upd_self]
        show Holds L s.mem (s.proc q).img 0
        rw [hImg]
        exact .idle
      · dsimp only
        rw [upd_self, upd_upd]
        exact hNone q m' hq hUnused hMoves
    · rw [wp_bind, wp_setProc]
      dsimp only
      rw [upd_self, upd_upd, wp_bind, wp_vm]
      have hOk : PageOk L tf := hValid.ok tf (Multiset.mem_add.mpr (.inl hFree))
      refine Vm.wp_proc_pagetable (hMoves₁.valid hValid).zero (fun m₂ hMoves₂ => ?_) fun pt m₂ A f hTree hSpace hMoves₂ => ?_
      · rw [wp_bind]
        have hHeld := hMoves₂.add {tf}
        rw [zero_add] at hHeld
        refine wp_freeproc_trapframe (congrArg Proc.trapframe (upd_self ..)) ?_ hOk fun m' hMoves => wp_pure.mpr ?_
        · exact (congrArg Proc.pagetable (upd_self ..)).trans hPt
        · dsimp only
          rw [upd_self, upd_upd]
          exact hNone q m' hq hUnused (hMoves₁.trans (hHeld.trans hMoves))
      · rw [wp_bind, wp_setProc]
        dsimp only
        rw [upd_self, upd_upd]
        have hHeld := hMoves₂.add {tf}
        rw [zero_add] at hHeld
        exact wp_pure.mpr (hSome q pt tf A f m₂ hq hUnused hTree hSpace (hMoves₁.trans hHeld))

end Xv6.Sys
