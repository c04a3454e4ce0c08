import Xv6.Sys.Memory

/-!
# xv6 — `sbrk`

What `growproc` does to the memory of a process. It computes sizes in 32 bits: a process that asks to shrink by more than it
has keeps its size, and is told that all went well.
-/

namespace Xv6.Sys

open Hoare Finset
open Vm (Layout Mem Page Pte PgTable Space Valid Fresh pool own npages)

variable {F : Panic → Prop} {L : Layout} {s s' : State} {p pt tf : Nat} {A : Multiset Nat} {f : Nat → Option Pte}

/-- Process `p` has got the size `sz'` and the map `f'` in the memory `m'`: pages below both sizes are as they were, and new
ones are zero. -/
structure Resized (L : Layout) (s : State) (p pt tf : Nat) (A : Multiset Nat) (f : Nat → Option Pte) (sz' : Nat)
    (m' : Mem) (A' : Multiset Nat) (f' : Nat → Option Pte) : Prop where
  owner : Owner L m' { s.proc p with sz := sz' } pt tf A' f'
  moves : pool.Moves (A + own f (Ico 0 (npages (s.proc p).sz))) (A' + own f' (Ico 0 (npages sz'))) s.mem m'
  map   : ∀ u, u < npages (s.proc p).sz → u < npages sz' → f' u = f u
  kept  : ∀ u w, u < npages (s.proc p).sz → u < npages sz' → f u = some w → m'.page w.pa = s.mem.page w.pa
  fresh : ∀ u, npages (s.proc p).sz ≤ u → u < npages sz' → Fresh m' f' u

/-- The size that `growproc(n)` makes of `sz`. -/
def grownSize (sz : Nat) (n : Int) : Nat := if (sz : Int) + n < 0 then sz else (sz + n).toNat

theorem wp_growproc {n : BitVec 32} {Q : Int → State → Prop} (h : Owner L s.mem (s.proc p) pt tf A f)
    (hValid : Valid L (A + own f (Ico 0 (npages (s.proc p).sz))) s.mem)
    (hFail : ∀ m' A', Resized L s p pt tf A f (s.proc p).sz m' A' f → Q (-1) { s with mem := m' })
    (hOk : ∀ m' A' f', Resized L s p pt tf A f (grownSize (s.proc p).sz n.toInt) m' A' f' →
      Q 0 { s with
        mem := m', proc := upd s.proc p { s.proc p with sz := grownSize (s.proc p).sz n.toInt } }) :
    wp F (growproc L p n) Q s := by
  have hBound := h.sz_le
  have hLt := n.isLt
  have hInt : n.toInt = if 2 * n.toNat < 2 ^ 32 then (n.toNat : Int) else n.toNat - 2 ^ 32 := BitVec.toInt_eq_toNat_cond n
  have hSz : (s.proc p).sz % 2 ^ 32 = (s.proc p).sz := Nat.mod_eq_of_lt (by omega)
  rw [growproc, wp_bind, wp_proc, h.pagetable, wp_bind, wp_deref]
  dsimp only
  rw [hSz, wp_ite]
  constructor
  · intro hPos
    have hNew : ((s.proc p).sz + n.toNat) % 2 ^ 32 = grownSize (s.proc p).sz n.toInt := by
      rw [grownSize, if_neg (by omega)]
      omega
    have hNewLt : grownSize (s.proc p).sz n.toInt < 2 ^ 32 := hNew ▸ Nat.mod_lt _ (by decide)
    have hMore : (s.proc p).sz < grownSize (s.proc p).sz n.toInt := by
      rw [grownSize, if_neg (by omega)]
      omega
    rw [hNew, wp_bind, wp_vm]
    refine Vm.wp_uvmalloc_space h.size h.space h.tree hValid (fun hBad => absurd hBad (by omega))
      (fun m' A' hTree' hMoves => ?_) fun m' A' f' hLe hBig hTree' hSpace' hMap hFresh hMoves hOwn => ?_
    · rw [Nat.zero_mod, if_pos rfl, wp_pure]
      refine hFail m' A' ⟨⟨h.pagetable, h.trapframe, h.size, hTree', h.space⟩, hMoves.add _, fun _ _ _ => rfl,
        fun u w hu _ hw => ?_, fun u hu hu' => absurd hu' (by omega)⟩
      exact hMoves.cell_eq hValid.nodup (Vm.mem_own (mem_Ico.mpr ⟨Nat.zero_le u, hu⟩) hw)
    · rw [Nat.mod_eq_of_lt hNewLt, if_neg (by omega), wp_bind, wp_setProc, wp_pure]
      refine hOk m' A' f' ⟨⟨h.pagetable, h.trapframe, hBig, hTree', hSpace'⟩, ?_, fun u hu _ => hMap u hu,
        fun u w hu _ hw => ?_, hFresh⟩
      · rw [hOwn, add_comm (own f _), ← add_assoc]
        exact hMoves.add _
      · exact hMoves.cell_eq hValid.nodup (Vm.mem_own (mem_Ico.mpr ⟨Nat.zero_le u, hu⟩) hw)
  · intro hNot
    rw [wp_ite]
    constructor
    · intro hNeg
      -- a result below zero wraps to a size above the old one
      have hNew : min (s.proc p).sz (((s.proc p).sz + n.toNat) % 2 ^ 32) = grownSize (s.proc p).sz n.toInt := by
        unfold grownSize
        split
        · omega
        · omega
      generalize ((s.proc p).sz + n.toNat) % 2 ^ 32 = newsz at hNew
      rw [wp_bind, wp_vm]
      refine Vm.wp_uvmdealloc_space h.size h.space h.tree hValid fun m' f' hTree' hSpace' hMap hMoves hOwn => ?_
      rw [hNew] at hSpace' hMap hMoves hOwn ⊢
      have hLess : grownSize (s.proc p).sz n.toInt ≤ (s.proc p).sz := by omega
      have hMono : npages (grownSize (s.proc p).sz n.toInt) ≤ npages (s.proc p).sz := Vm.npages_mono hLess h.size
      rw [Nat.mod_eq_of_lt (by omega), wp_bind, wp_setProc, wp_pure]
      have hHeld := hMoves.add (own f' (Ico 0 (npages (grownSize (s.proc p).sz n.toInt))))
      rw [add_assoc, add_comm (own f _), ← hOwn] at hHeld
      have hSmall : grownSize (s.proc p).sz n.toInt < 2 ^ 63 := by omega
      refine hOk m' A f' ⟨⟨h.pagetable, h.trapframe, hSmall, hTree', hSpace'⟩, hHeld, fun u _ hu => hMap u hu,
        fun u w _ hu hw => ?_, fun u hu hu' => absurd hu' (by omega)⟩
      rw [hOwn, add_comm (own f' _), ← add_assoc] at hValid
      refine hMoves.cell_eq hValid.nodup (Vm.mem_own (mem_Ico.mpr ⟨Nat.zero_le u, hu⟩) ?_)
      rw [hMap u hu, hw]
    · intro hZero
      have hSame : grownSize (s.proc p).sz n.toInt = (s.proc p).sz := by
        rw [grownSize, if_neg (by omega)]
        omega
      rw [wp_bind, wp_setProc, wp_pure]
      rw [hSame] at hOk
      exact hOk s.mem A f ⟨h, .refl _ _, fun _ _ _ => rfl, fun _ _ _ _ _ => rfl, fun u hu hu' => absurd hu' (by omega)⟩

end Xv6.Sys
