import Mathlib.Algebra.BigOperators.Group.Finset.Piecewise
import Mathlib.Algebra.BigOperators.Group.Finset.Sigma
import Xv6.Sys.Runs
import Xv6.Sys.Start

/-!
# xv6 — pages, address spaces and references in every run

What the invariant says, told without ghost state: by looking up entries in the page tables of a state and by counting
pointers in its tables.

* `page_roles`: each page has one role, and a page that users can reach belongs to one process.
* `address_space`: a process has the pages below its size, the trapframe and the trampoline, and no function on page
  tables panics.
* `references`: counts of files, inodes and pipe ends.
-/

namespace Xv6.Vm

/-- The leaf entry of virtual page `v`. -/
def lookup (m : Mem) (pt v : Nat) : Option Pte := Radix.look dec 512 m.word 2 pt v

/-- The pages of a page table. -/
def tables (m : Mem) (pt : Nat) : Multiset Nat := Radix.nodes dec 512 m.word 2 pt

variable {m : Mem} {pt v : Nat} {A : Multiset Nat} {f : Nat → Option Pte}

theorem PgTable.lookup (h : PgTable m pt A f) (hv : v < 512 ^ 3) : lookup m pt v = f v := by
  rw [Vm.lookup, Radix.Tree.look (by decide) h, Nat.mod_eq_of_lt hv]

theorem PgTable.tables (h : PgTable m pt A f) : tables m pt = A := Radix.Tree.nodes h

end Xv6.Vm

namespace Xv6.Sys

open Finset
open Vm (Layout Mem Pte PgTable Space Valid pool own npages VTRAPFRAME VTRAMPOLINE PGSIZE PGROUNDUP)

variable {L : Layout} {s : State} {d : Disk} {tr : List Act} {p : Nat}

/-! ## Roles of pages -/

/-- What a page can be used for. -/
inductive Role where
  | free
  /-- part of the page table of process `p` -/
  | table (p : Nat)
  /-- memory of process `p`, at its virtual page `v` -/
  | user (p v : Nat)
  | trapframe (p : Nat)
  | kstack
  | ktab
  | pipe
  deriving DecidableEq, Repr

/-- The roles that page `x` has for a process: one for each place where it is found. -/
def Proc.roles (pr : Proc) (m : Mem) (p x : Nat) : Multiset Role :=
  (pr.pagetable.elim 0 fun pt =>
    (Vm.tables m pt).count x • {.table p} +
      ∑ v ∈ range VTRAPFRAME, if (Vm.lookup m pt v).map Pte.pa = some x then {.user p v} else 0) +
  if pr.trapframe = some x then {.trapframe p} else 0

/-- All roles of page `x`. -/
def State.roles (s : State) (x : Nat) : Multiset Role :=
  s.mem.freelist.count x • {.free} +
    (∑ p ∈ range NPROC, (s.proc p).roles s.mem p x +
      ((if s.pipe x ≠ none then {.pipe} else 0) + (s.ktab.count x • {.ktab} + s.kstack.count x • {.kstack})))

theorem Space.own {f : Nat → Option Pte} {n tf : Nat} (h : Space L f n tf) : own f (range VTRAPFRAME) = own f (Ico 0 n) := by
  have hN := Vm.npages_limit
  have hTop := Vm.vtrapframe_eq
  have hLe := h.le
  refine (sum_subset (fun v hv => ?_) fun v hv hNot => ?_).symm
  · have := (mem_Ico.mp hv).2
    exact mem_range.mpr (by omega)
  · have hNone : f v = none := by
      by_contra hSome
      have hLt := (h.user v (mem_range.mp hv)).mp (Option.ne_none_iff_isSome.mp hSome)
      exact hNot (mem_Ico.mpr ⟨Nat.zero_le v, hLt⟩)
    rw [hNone]
    rfl

theorem count_own (f : Nat → Option Pte) (t : Finset Nat) (x : Nat) :
    (own f t).count x = ∑ v ∈ t, if (f v).map Pte.pa = some x then 1 else 0 := by
  rw [own, Multiset.count_sum']
  refine sum_congr rfl fun v _ => ?_
  cases hv : f v with
  | none => simp
  | some w => simp [Multiset.count_singleton, eq_comm]

/-- A page occurs as often among the pages of a process as it has roles for it. -/
theorem Holds.roles {pr : Proc} {m : Mem} {H : Multiset Nat} (h : Holds L m pr.img H) (x : Nat) :
    (pr.roles m p x).card = H.count x := by
  generalize hImg : pr.img = i at h
  cases h with
  | idle =>
    have hPt : pr.pagetable = none := congrArg Img.pagetable hImg
    have hTf : pr.trapframe = none := congrArg Img.trapframe hImg
    simp [Proc.roles, hPt, hTf]
  | live hsz hTree hSpace =>
    rename_i sz pt tf A f
    have hPt : pr.pagetable = some pt := congrArg Img.pagetable hImg
    have hTf : pr.trapframe = some tf := congrArg Img.trapframe hImg
    have hTop := Vm.vtrapframe_eq
    have hUser : (∑ v ∈ range VTRAPFRAME,
        if (Vm.lookup m pt v).map Pte.pa = some x then ({.user p v} : Multiset Role) else 0).card =
        (own f (Ico 0 (npages sz))).count x := by
      rw [← Space.own hSpace, count_own, Multiset.card_sum]
      refine sum_congr rfl fun v hv => ?_
      have hv' : v < 512 ^ 3 := by
        have := mem_range.mp hv
        omega
      rw [hTree.lookup hv', apply_ite Multiset.card]
      rfl
    rw [Proc.roles, hPt, hTf, Option.elim_some, Multiset.card_add, Multiset.card_add, hUser, hTree.tables,
      Multiset.card_nsmul, Multiset.card_singleton, Nat.mul_one, Multiset.count_add, Multiset.count_add,
      Multiset.count_singleton, apply_ite Multiset.card]
    simp [eq_comm]

theorem Memory.roles {H : Nat → Multiset Nat} {P : Finset Nat} (h : Memory L H P s) (x : Nat) :
    (s.roles x).card = (allPages L).count x := by
  have hProcs : (∑ p ∈ range NPROC, (s.proc p).roles s.mem p x).card = (∑ p ∈ range NPROC, H p).count x := by
    rw [Multiset.card_sum, Multiset.count_sum']
    exact sum_congr rfl fun p hp => (h.holds p (mem_range.mp hp)).roles x
  have hPipe : (if s.pipe x ≠ none then ({.pipe} : Multiset Role) else 0).card = P.val.count x := by
    split
    · rename_i hSome
      exact (Multiset.count_eq_one_of_mem P.nodup ((h.pipes x).mpr hSome)).symm
    · rename_i hNone
      exact (Multiset.count_eq_zero.mpr fun hMem => hNone ((h.pipes x).mp hMem)).symm
  have hFree : (pool.free s.mem).count x = s.mem.freelist.count x := Multiset.coe_count ..
  rw [State.roles, ← Multiset.coe_count x (allPages L), ← h.total]
  simp only [Multiset.card_add, Multiset.card_nsmul, Multiset.card_singleton, Nat.mul_one, Multiset.count_add,
    Multiset.coe_count, hProcs, hPipe, hFree]

/-- A place where a page is found. -/
theorem mem_roles {pt v : Nat} {w : Pte} (hp : p < NPROC) (hPt : (s.proc p).pagetable = some pt) (hv : v < VTRAPFRAME)
    (hw : Vm.lookup s.mem pt v = some w) : .user p v ∈ s.roles w.pa := by
  rw [State.roles, Multiset.mem_add, Multiset.mem_add, Multiset.mem_sum]
  refine .inr (.inl ⟨p, mem_range.mpr hp, ?_⟩)
  rw [Proc.roles, hPt, Option.elim_some, Multiset.mem_add, Multiset.mem_add, Multiset.mem_sum]
  refine .inl (.inr ⟨v, mem_range.mpr hv, ?_⟩)
  rw [hw, Option.map_some, if_pos rfl]
  exact Multiset.mem_singleton_self _

/-- Each page that `kinit` handed out has exactly one role, and no other page has one. A page that a process can reach with
`PTE_U` is its memory, at one virtual address, and nothing else: it is not free, nobody else's and not the kernel's. -/
theorem page_roles (h : (sysLts L d).Run tr s) :
    (∀ x ∈ allPages L, ∃ r, s.roles x = {r}) ∧ (∀ x, x ∉ allPages L → s.roles x = 0) ∧
      ∀ p < NPROC, ∀ pt, (s.proc p).pagetable = some pt → ∀ v < 512 ^ 3, ∀ w, Vm.lookup s.mem pt v = some w →
        w.user = true → w.pa ∈ allPages L ∧ s.roles w.pa = {.user p v} := by
  obtain ⟨H, ⟨P, hMem⟩, -⟩ := (run_inv h).kernel
  have hOne : ∀ x ∈ allPages L, ∃ r, s.roles x = {r} := fun x hx => by
    rw [← Multiset.card_eq_one, hMem.roles, List.count_eq_one_of_mem (allPages_nodup L) hx]
  have hNone : ∀ x, x ∉ allPages L → s.roles x = 0 := fun x hx => by
    rw [← Multiset.card_eq_zero, hMem.roles, List.count_eq_zero.mpr hx]
  refine ⟨hOne, hNone, fun p hp pt hPt v hv w hw hUser => ?_⟩
  obtain ⟨pt', tf, A, f, hOwner, -⟩ := (hMem.holds p hp).owner (by rw [hPt]; exact nofun)
  obtain rfl : pt' = pt := Option.some.inj (hOwner.pagetable.symm.trans hPt)
  have hf : f v = some w := (hOwner.tree.lookup hv).symm.trans hw
  have hLow : v < VTRAPFRAME := by
    have hN := Vm.npages_limit
    have hTop := Vm.vtrapframe_eq
    have hLe := hOwner.space.le
    by_cases hHigh : v < 2 ^ 26
    · have hLt := hOwner.space.user_mem hHigh hf hUser
      omega
    · rw [hOwner.space.high v (by omega) hv] at hf
      cases hf
  have hRole : .user p v ∈ s.roles w.pa := mem_roles hp hPt hLow hw
  have hIn : w.pa ∈ allPages L := by
    by_contra hOut
    rw [hNone _ hOut] at hRole
    exact Multiset.notMem_zero _ hRole
  obtain ⟨r, hr⟩ := hOne _ hIn
  rw [hr, Multiset.mem_singleton] at hRole
  exact ⟨hIn, hRole ▸ hr⟩

/-- The first process makes a pipe and a child, and the child closes one end. -/
def pipeRun : List Act := [.call 0 (.pipe 0), .call 0 .fork, .call 1 (.close 0)]

theorem pipeRun_state : ∃ d s, (sysLts smallLayout d).Run pipeRun s ∧ (s.proc 1).state = .runnable ∧ (s.ftable 0).ref = 1 ∧
    (s.ftable 1).ref = 2 ∧ (s.ftable 1).type = .pipe := by
  have hRun : (after [] pipeRun).any (fun s => (s.proc 1).state = .runnable ∧ (s.ftable 0).ref = 1 ∧ (s.ftable 1).ref = 2 ∧
      (s.ftable 1).type = .pipe) = true := by decide +kernel
  obtain ⟨s, hs, hState⟩ := (Option.any_eq_true ..).mp hRun
  obtain ⟨d, -, hReach⟩ := after_run hs
  exact ⟨d, s, hReach, of_decide_eq_true hState⟩

theorem page_roles_pipeRun : ∃ d s, (sysLts smallLayout d).Run pipeRun s ∧
    ∀ x ∈ allPages smallLayout, ∃ r, s.roles x = {r} := by
  obtain ⟨d, s, hRun, -⟩ := pipeRun_state
  exact ⟨d, s, hRun, (page_roles hRun).1⟩

/-! ## Address spaces -/

/-- The page table `pt` is that of a process of size `sz` with the trapframe `tf`. -/
structure AddressSpace (L : Layout) (m : Mem) (pt tf sz : Nat) : Prop where
  user       : ∀ v < VTRAPFRAME, (Vm.lookup m pt v).isSome ↔ v * PGSIZE < PGROUNDUP sz
  trapframe  : ∃ w, Vm.lookup m pt VTRAPFRAME = some w ∧ w.pa = tf ∧ w.user = false
  trampoline : ∃ w, Vm.lookup m pt VTRAMPOLINE = some w ∧ w.pa = L.trampoline ∧ w.user = false
  high       : ∀ v, VTRAMPOLINE < v → v < 512 ^ 3 → Vm.lookup m pt v = none

/-- In every run every process that is in use has such a page table, and no step fails in `vm.c`, `kalloc.c` or
`loadseg`. -/
theorem address_space (h : (sysLts L d).Run tr s) :
    (∀ p < NPROC, (s.proc p).state ≠ .unused → ∃ pt tf, (s.proc p).pagetable = some pt ∧
      (s.proc p).trapframe = some tf ∧ AddressSpace L s.mem pt tf (s.proc p).sz) ∧
      ∀ a e, (sysLts L d).step s a ≠ some (.error (.vm e)) := by
  obtain ⟨H, hKernel⟩ := (run_inv h).kernel
  refine ⟨fun p hp hState => ?_, fun a e hStep => run_fault h hStep⟩
  obtain ⟨pt, tf, A, f, hOwner, hHp, hValid⟩ := hKernel.owner hp hState
  have hTop := Vm.vtrapframe_eq
  have hTr := Vm.vtrampoline_eq
  have hLook : ∀ v, v < 512 ^ 3 → Vm.lookup s.mem pt v = f v := fun v hv => hOwner.tree.lookup hv
  have hTf : Vm.PageOk L tf := hValid.ok_of_mem (by simp)
  refine ⟨pt, tf, hOwner.pagetable, hOwner.trapframe, fun v hv => ?_, ?_, ?_, fun v hv hv' => ?_⟩
  · rw [hLook v (by omega), hOwner.space.user v hv, Vm.pgroundup_eq]
    exact (Nat.mul_lt_mul_right (by decide)).symm
  · refine ⟨_, (hLook _ (by omega)).trans hOwner.space.trapframe, Vm.PA2PTE_pa hTf.aligned hTf.lt _, ?_⟩
    rw [Pte.user, Vm.PA2PTE_flags]
    decide
  · refine ⟨_, (hLook _ (by omega)).trans hOwner.space.trampoline, Vm.PA2PTE_pa L.aligned ?_ _, ?_⟩
    · have hKernel := L.inKernel
      have hFits := L.fits
      unfold Vm.PHYSTOP Vm.KERNBASE at hFits
      omega
    · rw [Pte.user, Vm.PA2PTE_flags]
      decide
  · rw [hLook v hv', hOwner.space.high v (by omega) hv']

theorem address_space_pipeRun : ∃ d s, (sysLts smallLayout d).Run pipeRun s ∧
    ∃ pt tf, (s.proc 1).pagetable = some pt ∧ AddressSpace smallLayout s.mem pt tf (s.proc 1).sz := by
  obtain ⟨d, s, hRun, hState, -⟩ := pipeRun_state
  obtain ⟨pt, tf, hPt, -, hSpace⟩ := (address_space hRun).1 1 (by decide) (by rw [hState]; exact nofun)
  exact ⟨d, s, hRun, pt, tf, hPt, hSpace⟩

/-! ## References -/

theorem count_total {ι κ β : Type} [DecidableEq ι] [DecidableEq κ] (t : Finset ι) (g : β → Multiset κ) (u : ι → β) (x : κ) :
    (total t g u).count x = ∑ i ∈ t, (g (u i)).count x := by
  rw [total, Multiset.count_sum']

theorem count_ofOption {κ : Type} [DecidableEq κ] (o : Option κ) (x : κ) : (ofOption o).count x = if o = some x then 1 else 0 := by
  cases o with
  | none => rfl
  | some y => simp [Multiset.count_singleton, eq_comm]

/-- File `f` is open on an end of the pipe `x`; `true` is the end to write to. -/
def State.OnEnd (s : State) (x : Nat) (w : Bool) (f : Nat) : Prop :=
  f < NFILE ∧ (s.ftable f).ref ≠ 0 ∧ (s.ftable f).type = .pipe ∧ (s.ftable f).pipe = x ∧ (s.ftable f).writable = w

theorem Counts.onEnd (h : Counts 0 0 0 s) (x : Nat) (w : Bool) : s.ends (x, w) ≠ 0 ↔ ∃ f, s.OnEnd x w f := by
  rw [h.ends.eq (x, w) trivial, zero_add, Multiset.count_ne_zero, total, Multiset.mem_sum]
  constructor
  · rintro ⟨f, hf, hMem⟩
    rw [File.ends] at hMem
    split at hMem
    · rename_i hType
      obtain ⟨hPipe, hWritable⟩ := Prod.mk.inj (Multiset.mem_singleton.mp hMem)
      refine ⟨f, mem_range.mp hf, fun hZero => ?_, hType, hPipe.symm, hWritable.symm⟩
      rw [h.idle f hZero] at hType
      cases hType
    · exact absurd hMem (Multiset.notMem_zero _)
  · rintro ⟨f, hf, -, hType, hPipe, hWritable⟩
    refine ⟨f, mem_range.mpr hf, ?_⟩
    rw [File.ends, if_pos hType, hPipe, hWritable]
    exact Multiset.mem_singleton_self _

/-- In every run the counts are right: the references of a file are the descriptors that point to it, those of an inode are
the open files and the current directories that point to it, free file structures have no type, an end of a pipe is
open exactly when a file is open on it, and a pipe is there exactly when one of its ends is. -/
theorem references (h : (sysLts L d).Run tr s) :
    (∀ f < NFILE, (s.ftable f).ref = #{e ∈ range NPROC ×ˢ range NOFILE | (s.proc e.1).ofile e.2 = some f}) ∧
      (∀ k < NINODE, (s.core.itable k).ref =
        #{f ∈ range NFILE | ((s.ftable f).type = .inode ∨ (s.ftable f).type = .device) ∧ (s.ftable f).ip = k} +
          #{p ∈ range NPROC | (s.proc p).cwd = some k}) ∧
      (∀ f < NFILE, (s.ftable f).ref = 0 → (s.ftable f).type = .none) ∧
      (∀ x pi, s.pipe x = some pi →
        (pi.readopen = true ↔ ∃ f, s.OnEnd x false f) ∧ (pi.writeopen = true ↔ ∃ f, s.OnEnd x true f)) ∧
      ∀ x, s.pipe x = none ↔ ∀ w f, ¬ s.OnEnd x w f := by
  obtain ⟨H, hKernel⟩ := (run_inv h).kernel
  have hCounts := hKernel.counts
  refine ⟨fun f hf => ?_, fun k hk => ?_, fun f _ => hCounts.idle f, fun x pi hPipe => ?_,
    fun x => ⟨fun hNone w f hEnd => ?_, fun hNo => ?_⟩⟩
  · rw [hCounts.files.eq f hf, zero_add, count_total, card_filter, sum_product]
    refine sum_congr rfl fun p _ => ?_
    rw [Proc.files, count_total]
    exact sum_congr rfl fun fd _ => count_ofOption _ _
  · have hRef : (s.core.itable k).ref = _ := hCounts.inodes.eq (.ref k) hk
    rw [hRef, zero_add, Multiset.count_add, count_total, count_total, card_filter, card_filter]
    refine congrArg₂ HAdd.hAdd (sum_congr rfl fun f _ => ?_) (sum_congr rfl fun p _ => ?_)
    · rw [File.inode]
      by_cases hType : (s.ftable f).type = .inode ∨ (s.ftable f).type = .device
      · rw [if_pos hType, Multiset.count_singleton]
        exact if_congr ⟨fun hEq => ⟨hType, (Fs.Hand.ref.inj hEq).symm⟩, fun hIp => congrArg _ hIp.2.symm⟩ rfl rfl
      · rw [if_neg hType, if_neg fun hIp => hType hIp.1, Multiset.count_zero]
    · cases hCwd : (s.proc p).cwd with
      | none => simp [Proc.dir, hCwd]
      | some j => simp [Proc.dir, hCwd, Multiset.count_singleton, eq_comm]
  · have hRead := hCounts.onEnd x false
    have hWrite := hCounts.onEnd x true
    rw [State.ends, hPipe] at hRead hWrite
    rw [← hRead, ← hWrite]
    simp
  · have hSome := (hCounts.onEnd x w).mpr ⟨f, hEnd⟩
    rw [State.ends, hNone] at hSome
    exact hSome rfl
  · cases hPipe : s.pipe x with
    | none => rfl
    | some pi =>
      have hRead := hCounts.onEnd x false
      have hWrite := hCounts.onEnd x true
      rw [State.ends, hPipe] at hRead hWrite
      rcases hCounts.alive x pi hPipe with hOpen | hOpen
      · obtain ⟨f, hEnd⟩ := hRead.mp (by simp [hOpen])
        exact absurd hEnd (hNo false f)
      · obtain ⟨f, hEnd⟩ := hWrite.mp (by simp [hOpen])
        exact absurd hEnd (hNo true f)

theorem references_pipeRun : ∃ d s, (sysLts smallLayout d).Run pipeRun s ∧
    #{e ∈ range NPROC ×ˢ range NOFILE | (s.proc e.1).ofile e.2 = some 0} = 1 ∧
      #{e ∈ range NPROC ×ˢ range NOFILE | (s.proc e.1).ofile e.2 = some 1} = 2 := by
  obtain ⟨d, s, hRun, -, hRead, hWrite, -⟩ := pipeRun_state
  have hFiles := (references hRun).1
  exact ⟨d, s, hRun, (hFiles 0 (by decide)).symm.trans hRead, (hFiles 1 (by decide)).symm.trans hWrite⟩

end Xv6.Sys
