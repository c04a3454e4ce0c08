import Xv6.Vm.Table

/-!
# xv6 — address spaces

What the functions do that grow, shrink, copy and free the memory of a process. User memory is the
virtual pages from 0 up to the size of the process, so a map is described by the number of its user
pages (`Space`), and each failure path of these functions leads back to the map they started from.

No map reaches the trapframe: all its pages are different physical pages, of which there are not
that many (`valid_card_le`).
-/

namespace Xv6.Vm

open Hoare Finset

variable {n newsz oldsz sz tf : Nat} {B : Multiset Nat} {w : Pte}

variable {E : Panic → Prop} {L : Layout} {m m' : Mem} {pt v : Nat} {A : Multiset Nat}
 {f : Nat → Option Pte}

/-! ## Sizes -/

/-- There are no more pages than this from `KERNBASE` to `PHYSTOP`. -/
abbrev NPAGES : Nat := (PHYSTOP - KERNBASE) / PGSIZE

/-- The virtual page of the trapframe; user pages lie below. -/
abbrev VTRAPFRAME : Nat := TRAPFRAME / PGSIZE

/-- The virtual page of the trampoline. -/
abbrev VTRAMPOLINE : Nat := TRAMPOLINE / PGSIZE

/-- The number of pages of a process of size `sz`. -/
def npages (sz : Nat) : Nat := PGROUNDUP sz / PGSIZE

theorem npages_limit : NPAGES = 32768 := rfl
theorem vtrapframe_eq : VTRAPFRAME = 67108862 := rfl
theorem vtrampoline_eq : VTRAMPOLINE = 67108863 := rfl

theorem pgroundup_eq (sz : Nat) : PGROUNDUP sz = npages sz * PGSIZE := by
  rw [npages, PGROUNDUP, Nat.mul_div_cancel _ (by decide)]

theorem npages_eq (h : sz < 2 ^ 63) : npages sz = (sz + 4095) / 4096 := by
  unfold npages PGROUNDUP u64 PGSIZE
  omega

theorem npages_mul {v : Nat} (h : v < 2 ^ 50) : npages (v * PGSIZE) = v := by
  rw [npages_eq (by unfold PGSIZE; omega)]
  unfold PGSIZE
  omega

theorem lt_npages {v : Nat} (h : sz < 2 ^ 63) : v < npages sz ↔ v * PGSIZE < sz := by
  rw [npages_eq h]
  unfold PGSIZE
  omega

theorem npages_mono {a b : Nat} (h : a ≤ b) (hb : b < 2 ^ 63) : npages a ≤ npages b := by
  rw [npages_eq hb, npages_eq (by omega)]
  omega

/-- Only so many pages can be held. -/
theorem valid_card_le (h : Valid L B m) : B.card ≤ NPAGES := by
  have hSub : B.toFinset ⊆ (range NPAGES).image (KERNBASE + · * PGSIZE) := fun x hx => by
    obtain ⟨hAligned, hLow, hHigh⟩ := h.ok_of_mem (Multiset.mem_toFinset.mp hx)
    have hBase := L.base
    have hKernel := L.inKernel
    have hN := npages_limit
    unfold PHYSTOP KERNBASE PGSIZE at *
    refine mem_image.mpr ⟨(x - 0x80000000) / 4096, mem_range.mpr ?_, ?_⟩
    · omega
    · omega
  rw [← Multiset.toFinset_card_of_nodup h.held]
  exact (card_le_card hSub).trans (card_image_le.trans_eq (card_range _))

theorem own_card {s : Finset Nat} (h : ∀ v ∈ s, (f v).isSome) : (own f s).card = s.card := by
  rw [own, Multiset.card_sum, card_eq_sum_ones]
  refine sum_congr rfl fun v hv => ?_
  obtain ⟨w, hw⟩ := Option.isSome_iff_exists.mp (h v hv)
  rw [hw]
  rfl

theorem own_insert {s : Finset Nat} (hv : v ∉ s) (hw : f v = some w) :
    own f (insert v s) = {w.pa} + own f s := by
  rw [own, sum_insert hv, hw]
  rfl

theorem own_empty : own f ∅ = 0 := rfl

/-- One more page at the end. -/
theorem own_Ico_succ {v₀ : Nat} (h : v₀ ≤ v) :
    own (upd f v (some w)) (Ico v₀ (v + 1)) = {w.pa} + own f (Ico v₀ v) := by
  have hIco : Ico v₀ (v + 1) = insert v (Ico v₀ v) := by
    ext u
    simp only [mem_Ico, mem_insert]
    omega
  rw [hIco, own_insert (by simp) (upd_self ..)]
  congr 1
  exact own_congr fun u hu => upd_of_ne (by rw [mem_Ico] at hu; omega)

/-! ## Shrinking and growing -/

theorem ofInt32_eq (h : n < 2 ^ 31) : ofInt32 n = n := by
  have hMsb : (BitVec.ofNat 32 n).msb = false := by
    rw [BitVec.msb_eq_false_iff_two_mul_lt, BitVec.toNat_ofNat]
    omega
  rw [ofInt32, BitVec.signExtend_eq_setWidth_of_msb_false hMsb, BitVec.toNat_setWidth, BitVec.toNat_ofNat]
  omega

theorem wp_uvmdealloc {Q : Nat → Mem → Prop} (hNew : newsz < 2 ^ 63)
    (hTop : npages oldsz ≤ 2 ^ 26) (hTree : PgTable m pt A f)
    (hValid : Valid L (A + own f (Ico (npages newsz) (npages oldsz))) m)
    (hMapped : ∀ u, npages newsz ≤ u → u < npages oldsz → (f u).isSome)
    (h : ∀ m', PgTable m' pt A (cut f (npages newsz) (npages oldsz - npages newsz)) →
      pool.Moves (A + own f (Ico (npages newsz) (npages oldsz))) A m m' → Q (min oldsz newsz) m') :
    wp E (uvmdealloc L pt oldsz newsz) Q m := by
  -- when no page goes, nothing changes
  have hStay : npages oldsz ≤ npages newsz → Q (min oldsz newsz) m := fun hLe => by
    have hCut : cut f (npages newsz) (npages oldsz - npages newsz) = f := by
      funext u
      exact if_neg (by omega)
    refine h m (by rwa [hCut]) ?_
    rw [Ico_eq_empty (by omega), own_empty, add_zero]
    exact .refl A m
  rw [uvmdealloc]
  by_cases hLe : oldsz ≤ newsz
  · rw [if_pos hLe, wp_pure]
    have hQ := hStay (npages_mono hLe hNew)
    rwa [min_eq_left hLe] at hQ
  · rw [if_neg hLe, wp_bind, wp_when]
    rw [min_eq_right (by omega)] at hStay h
    have hDiff : (PGROUNDUP oldsz - PGROUNDUP newsz) / PGSIZE = npages oldsz - npages newsz := by
      rw [pgroundup_eq, pgroundup_eq, ← Nat.sub_mul, Nat.mul_div_cancel _ (by decide)]
    refine ⟨fun hLt => ?_, fun hNot => wp_pure.mpr (hStay ?_)⟩
    · rw [pgroundup_eq, pgroundup_eq] at hLt
      have hLt' := Nat.lt_of_mul_lt_mul_right hLt
      have hSum : npages newsz + (npages oldsz - npages newsz) = npages oldsz := by omega
      rw [hDiff, ofInt32_eq (by omega), pgroundup_eq newsz]
      refine wp_uvmunmap (by omega) hTree ?_ (fun u hu hu' => hMapped u hu (by omega)) ?_
      · rwa [freed, if_pos rfl, hSum]
      · intro m' hTree' hMoves
        rw [freed, if_pos rfl, hSum] at hMoves
        exact wp_pure.mpr (h m' hTree' hMoves)
    · rw [pgroundup_eq, pgroundup_eq] at hNot
      by_contra hBad
      exact hNot (Nat.mul_lt_mul_of_pos_right (by omega) (by decide))

/-- The flags of a page that `uvmalloc` adds. -/
abbrev userFlags : BitVec 10 := PTE_W ||| PTE_X ||| PTE_R ||| PTE_U ||| PTE_V

/-- A page that is held is mapped, or freed if the table cannot grow. -/
theorem wp_map_or_free {α : Type} {Q : α → Mem → Prop} {mem : Nat} {perm : BitVec 10} {x y : M α}
    (hTree : PgTable m pt A f) (hValid : Valid L (A + {mem}) m) (hv : v < 2 ^ 26) (hf : f v = none)
    (hw : dec (PA2PTE mem (perm ||| PTE_V)) = .leaf (PA2PTE mem (perm ||| PTE_V)))
    (hx : ∀ m' A', PgTable m' pt A' (upd f v (some (PA2PTE mem (perm ||| PTE_V)))) →
      pool.Moves A A' m m' → wp E x Q m')
    (hy : ∀ m' A', PgTable m' pt A' f → pool.Moves (A + {mem}) A' m m' → wp E y Q m') :
    wp E (do
      if ← mappages pt (v * PGSIZE) PGSIZE mem perm then x
      else
        kfree L mem
        y) Q m := by
  have hOkMem : PageOk L mem := hValid.ok_of_mem (by simp)
  rw [wp_bind]
  refine wp_mappages hTree hValid.left hv hf hw (fun m₁ A₁ hTree₁ hMoves₁ => ?_)
    fun m₁ A₁ hTree₁ hMoves₁ => ?_
  · have hMoves₂ := hMoves₁.add {mem}
    have hValid₂ := hMoves₂.valid hValid
    rw [if_neg (by simp), wp_bind]
    refine wp_kfree hOkMem fun m₃ hMoves₃ => hy m₃ A₁ (hTree₁.moves hMoves₃ ?_) ?_
    · rw [add_comm ({mem} : Multiset Nat)]
      exact hValid₂.nodup
    · have hFree := hMoves₃.add A₁
      rw [zero_add, add_comm ({mem} : Multiset Nat)] at hFree
      exact hMoves₂.trans hFree
  · rw [if_pos rfl]
    exact hx m₁ A₁ hTree₁ hMoves₁

/-- A page of zeros. -/
abbrev zeroPage : Page := fun _ => 0

/-- The entry of a page that `uvmalloc` has added. -/
structure Fresh (m : Mem) (f : Nat → Option Pte) (u : Nat) : Prop where
  entry : ∃ w, f u = some w ∧ w.flags = userFlags ∧ m.page w.pa = zeroPage

theorem wp_allocLoop {Q : Nat → Mem → Prop} {fuel v₀ : Nat}
    (hFuel : NPAGES < v - v₀ + fuel) (hLe : v₀ ≤ v) (hLow : v₀ ≤ NPAGES)
    (hNone : ∀ u, v ≤ u → u < VTRAPFRAME → f u = none)
    (hFull : ∀ u, v₀ ≤ u → u < v → (f u).isSome)
    (hTree : PgTable m pt A f) (hValid : Valid L (A + own f (Ico v₀ v)) m)
    (hFail : ∀ m' A', PgTable m' pt A' (cut f v₀ (v - v₀)) →
      pool.Moves (A + own f (Ico v₀ v)) A' m m' → Q 0 m')
    (hOk : ∀ m' A' f' v', v ≤ v' → newsz ≤ v' * PGSIZE → (v < v' → (v' - 1) * PGSIZE < newsz) →
      PgTable m' pt A' f' → (∀ u, u < v ∨ v' ≤ u → f' u = f u) → (∀ u, v ≤ u → u < v' → Fresh m' f' u) →
      pool.Moves A (A' + own f' (Ico v v')) m m' → Q newsz m') :
    wp E (allocLoop L pt (v₀ * PGSIZE) newsz fuel (v * PGSIZE)) Q m := by
  -- the pages so far are different physical pages
  have hCard : v - v₀ ≤ NPAGES := by
    have hAll : ∀ u ∈ Ico v₀ v, (f u).isSome := fun u hu =>
      hFull u (mem_Ico.mp hu).1 (mem_Ico.mp hu).2
    rw [← Nat.card_Ico, ← own_card hAll]
    exact valid_card_le hValid.right
  have hN := npages_limit
  have hTop := vtrapframe_eq
  have hv : v < VTRAPFRAME := by omega
  have hv' : v < 2 ^ 26 := by omega
  induction fuel generalizing m v A f with
  | zero => omega
  | succ fuel ih =>
    -- both failures give back what was taken
    have hBack : ∀ m₁ A₁, PgTable m₁ pt A₁ f → pool.Moves A A₁ m m₁ → wp E (do
          let _ ← uvmdealloc L pt (v * PGSIZE) (v₀ * PGSIZE)
          return 0) Q m₁ := by
      intro m₁ A₁ hTree₁ hMoves₁
      have hNv : npages (v * PGSIZE) = v := npages_mul (by omega)
      have hNv₀ : npages (v₀ * PGSIZE) = v₀ := npages_mul (by omega)
      have hMoves₂ := hMoves₁.add (own f (Ico v₀ v))
      rw [wp_bind]
      refine wp_uvmdealloc (by unfold PGSIZE; omega) (by omega) hTree₁ ?_ ?_ ?_
      · rw [hNv, hNv₀]
        exact hMoves₂.valid hValid
      · rw [hNv, hNv₀]
        exact hFull
      · rw [hNv, hNv₀]
        intro m₂ hTree₂ hMoves₃
        exact wp_pure.mpr (hFail m₂ A₁ hTree₂ (hMoves₂.trans hMoves₃))
    rw [allocLoop]
    by_cases hMore : v * PGSIZE < newsz
    · rw [if_pos hMore, wp_bind]
      refine wp_kalloc (hBack m A hTree (.refl _ _)) fun mem m₁ hMoves₁ hMem => ?_
      generalize hO : own f (Ico v₀ v) = O at hValid hFail
      have hOkMem : PageOk L mem := hValid.ok mem (Multiset.mem_add.mpr (.inl hMem))
      -- the page, zeroed
      have hZeroed : pool.Moves 0 {mem} m (m₁.put mem zeroPage) :=
        hMoves₁.trans (moves_store (Multiset.mem_singleton_self mem))
      have hMoves₂ : pool.Moves A (A + {mem}) m (m₁.put mem zeroPage) := by
        have hAll := hZeroed.add A
        rwa [zero_add, add_comm ({mem} : Multiset Nat)] at hAll
      have hValid₂ : Valid L (A + {mem} + O) (m₁.put mem zeroPage) := (hMoves₂.add O).valid hValid
      have hTree₂ : PgTable (m₁.put mem zeroPage) pt A f := hTree.moves hZeroed (by
        rw [zero_add]
        exact hValid.left.nodup)
      rw [wp_bind, memset, wp_store]
      refine wp_map_or_free hTree₂ hValid₂.left hv' (hNone v le_rfl hv)
        (dec_PA2PTE mem (by decide)) (fun m₃ A₃ hTree₃ hMoves₃ => ?_)
        fun m₃ A₃ hTree₃ hMoves₃ => hBack m₃ A₃ hTree₃ (hMoves₂.trans hMoves₃)
      · generalize hw : PA2PTE mem (PTE_W ||| PTE_X ||| PTE_R ||| PTE_U ||| PTE_V) = w at hTree₃
        have hPa : w.pa = mem := hw ▸ PA2PTE_pa hOkMem.aligned hOkMem.lt _
        have hFlags : w.flags = userFlags := hw ▸ PA2PTE_flags ..
        have hOwn : own (upd f v (some w)) (Ico v₀ (v + 1)) = {mem} + O := by
          rw [own_Ico_succ hLe, hO, hPa]
        have hMoves₄ : pool.Moves A (A₃ + {mem}) m m₃ := hMoves₂.trans (hMoves₃.add {mem})
        have hZero₃ : m₃.page mem = zeroPage :=
          (hMoves₃.cell_eq hValid₂.left.nodup (Multiset.mem_singleton_self mem)).trans (upd_self ..)
        have hMoves₅ : pool.Moves (A + O) (A₃ + ({mem} + O)) m m₃ := by
          rw [← add_assoc]
          exact hMoves₄.add O
        have hValid₄ : Valid L (A₃ + own (upd f v (some w)) (Ico v₀ (v + 1))) m₃ := by
          rw [hOwn]
          exact hMoves₅.valid hValid
        have hFull' : ∀ u, v₀ ≤ u → u < v + 1 → (upd f v (some w) u).isSome := fun u hu hu' => by
          by_cases huv : u = v
          · rw [huv, upd_self]
            rfl
          · rw [upd_of_ne huv]
            exact hFull u hu (by omega)
        have hCut : cut (upd f v (some w)) v₀ (v + 1 - v₀) = cut f v₀ (v - v₀) := by
          funext u
          unfold cut
          by_cases huv : u = v
          · rw [huv, if_pos (by omega), if_neg (by omega), hNone v le_rfl hv]
          · rw [upd_of_ne huv]
            exact if_congr (by omega) rfl rfl
        have hCard' : v + 1 - v₀ ≤ NPAGES := by
          rw [← Nat.card_Ico, ← own_card fun u hu => hFull' u (mem_Ico.mp hu).1 (mem_Ico.mp hu).2]
          exact valid_card_le hValid₄.right
        rw [next_page hv']
        refine ih (by omega) (by omega) (fun u hu hu' => ?_) hFull' hTree₃ hValid₄ ?_ ?_ hCard'
          (by omega) (by omega)
        · rw [upd_of_ne (by omega)]
          exact hNone u (by omega) hu'
        · intro m₅ A₅ hTree₅ hMoves₆
          rw [hOwn] at hMoves₆
          rw [hCut] at hTree₅
          exact hFail m₅ A₅ hTree₅ (hMoves₅.trans hMoves₆)
        · intro m₅ A₅ f₅ v₅ hLe₅ hEnough hLast hTree₅ hSame hFresh hMoves₆
          have hw₅ : f₅ v = some w := by rw [hSame v (by omega), upd_self]
          have hIco : Ico v v₅ = insert v (Ico (v + 1) v₅) := by
            ext u
            simp only [mem_Ico, mem_insert]
            omega
          have hZero₅ : m₅.page mem = zeroPage := by
            rw [← hZero₃]
            refine hMoves₆.cell_eq (B := {mem}) ?_ (Multiset.mem_singleton_self mem)
            exact (hMoves₄.valid hValid.left).nodup
          refine hOk m₅ A₅ f₅ v₅ (by omega) hEnough (fun _ => ?_) hTree₅ (fun u hu => ?_)
            (fun u hu hu' => ?_) ?_
          · by_cases hEq : v₅ = v + 1
            · rwa [hEq, Nat.add_sub_cancel]
            · exact hLast (by omega)
          · rw [hSame u (by omega), upd_of_ne (by omega)]
          · by_cases huv : u = v
            · rw [huv]
              exact ⟨w, hw₅, hFlags, hPa.symm ▸ hZero₅⟩
            · exact hFresh u (by omega) hu'
          · rw [hIco, own_insert (by simp) hw₅, hPa]
            have hAll := hMoves₄.trans (hMoves₆.add {mem})
            rwa [add_assoc, add_comm _ ({mem} : Multiset Nat)] at hAll
    · rw [if_neg hMore, wp_pure]
      refine hOk m A f v le_rfl (by omega) (fun hBad => absurd hBad (lt_irrefl v)) hTree
        (fun _ _ => rfl) (fun u hu hu' => by omega) ?_
      rw [Ico_self, own_empty, add_zero]
      exact .refl A m

/-- `uvmalloc` adds pages of zeros, or gives back what it took. -/
theorem wp_uvmalloc {Q : Nat → Mem → Prop} (hOld : oldsz < 2 ^ 63)
    (hLow : npages oldsz ≤ NPAGES)
    (hNone : ∀ u, npages oldsz ≤ u → u < VTRAPFRAME → f u = none)
    (hTree : PgTable m pt A f) (hValid : Valid L A m) (hStay : newsz < oldsz → Q oldsz m)
    (hFail : ∀ m' A', PgTable m' pt A' f → pool.Moves A A' m m' → Q 0 m')
    (hOk : ∀ m' A' f', oldsz ≤ newsz → newsz < 2 ^ 63 → npages newsz ≤ 2 * NPAGES →
      PgTable m' pt A' f' → (∀ u, u < npages oldsz ∨ npages newsz ≤ u → f' u = f u) →
      (∀ u, npages oldsz ≤ u → u < npages newsz → Fresh m' f' u) →
      pool.Moves A (A' + own f' (Ico (npages oldsz) (npages newsz))) m m' → Q newsz m') :
    wp E (uvmalloc L pt oldsz newsz) Q m := by
  have hZero : A + own f (Ico (npages oldsz) (npages oldsz)) = A := by
    rw [Ico_self, own_empty, add_zero]
  rw [uvmalloc]
  by_cases hLt : newsz < oldsz
  · rw [if_pos hLt, wp_pure]
    exact hStay hLt
  · rw [if_neg hLt]
    simp only [pgroundup_eq]
    refine wp_allocLoop (Nat.lt_add_left _ (by decide)) le_rfl hLow hNone (fun u hu hu' => by omega) hTree
      ?_ ?_ ?_
    · rwa [hZero]
    · intro m' A' hTree' hMoves
      rw [hZero] at hMoves
      have hCut : cut f (npages oldsz) (npages oldsz - npages oldsz) = f := by
        funext u
        exact if_neg (by omega)
      exact hFail m' A' (hCut ▸ hTree') hMoves
    · intro m' A' f' v' hLe hEnough hLast hTree' hSame hFresh hMoves
      have hCard : v' - npages oldsz ≤ NPAGES := by
        rw [← Nat.card_Ico, ← own_card fun u hu => ?_]
        · exact valid_card_le (hMoves.valid hValid).right
        · obtain ⟨w, hw, -⟩ := (hFresh u (mem_Ico.mp hu).1 (mem_Ico.mp hu).2).entry
          rw [hw]
          rfl
      have hN := npages_limit
      have hBound : newsz < 2 ^ 63 := by
        unfold PGSIZE at hEnough
        omega
      -- the loop stops at the first page past the new size
      obtain rfl : v' = npages newsz := by
        rw [npages_eq hBound]
        rw [npages_eq hOld] at hLe hLast
        unfold PGSIZE at hEnough hLast
        by_cases hEq : (oldsz + 4095) / 4096 < v'
        · have hBelow := hLast hEq
          omega
        · omega
      exact hOk m' A' f' (by omega) hBound (by omega) hTree' hSame hFresh hMoves

/-! ## Whole spaces -/

theorem wp_uvmfree {Q : Unit → Mem → Prop} (hsz : sz < 2 ^ 63)
    (hLe : npages sz ≤ 2 ^ 26) (hUser : ∀ u, u < npages sz → (f u).isSome)
    (hRest : ∀ u, npages sz ≤ u → u < 512 ^ 3 → f u = none) (hTree : PgTable m pt A f)
    (hValid : Valid L (A + own f (Ico 0 (npages sz))) m)
    (h : ∀ m', pool.Moves (A + own f (Ico 0 (npages sz))) 0 m m' → Q () m') :
    wp E (uvmfree L pt sz) Q m := by
  rw [uvmfree, wp_bind, wp_when]
  have hFreed : freed true f 0 (npages sz) = own f (Ico 0 (npages sz)) := by
    rw [freed, if_pos rfl, zero_add]
  refine ⟨fun _ => ?_, fun hNot => ?_⟩
  · rw [← Nat.zero_mul PGSIZE]
    refine wp_uvmunmap (n := npages sz) (by omega) hTree (by rwa [hFreed])
      (fun u _ hu => hUser u (by omega)) fun m₁ hTree₁ hMoves₁ => ?_
    rw [hFreed] at hMoves₁
    refine wp_freewalk hTree₁ (fun v hv => ?_) (hMoves₁.valid hValid) fun m₂ hMoves₂ =>
      h m₂ (hMoves₁.trans hMoves₂)
    unfold cut
    split
    · rfl
    · exact hRest v (by omega) hv
  · have hNone : npages sz = 0 := by
      rw [npages_eq hsz]
      omega
    rw [hNone, Ico_self, own_empty, add_zero] at hValid h
    exact wp_freewalk hTree (fun v hv => hRest v (by omega) hv) hValid h

/-- The map of a process with `n` user pages and the trapframe `tf`. -/
structure Space (L : Layout) (f : Nat → Option Pte) (n tf : Nat) : Prop where
  le         : n ≤ NPAGES
  user       : ∀ v < VTRAPFRAME, ((f v).isSome ↔ v < n)
  trapframe  : f VTRAPFRAME = some (PA2PTE tf (PTE_R ||| PTE_W ||| PTE_V))
  trampoline : f VTRAMPOLINE = some (PA2PTE L.trampoline (PTE_R ||| PTE_X ||| PTE_V))
  high       : ∀ v, 2 ^ 26 ≤ v → v < 512 ^ 3 → f v = none

theorem wp_proc_freepagetable {Q : Unit → Mem → Prop} (hsz : sz < 2 ^ 63)
    (hSpace : Space L f (npages sz) tf) (hTree : PgTable m pt A f)
    (hValid : Valid L (A + own f (Ico 0 (npages sz))) m)
    (h : ∀ m', pool.Moves (A + own f (Ico 0 (npages sz))) 0 m m' → Q () m') :
    wp E (proc_freepagetable L pt sz) Q m := by
  have hN := npages_limit
  have hTf := vtrapframe_eq
  have hTr := vtrampoline_eq
  have hLe := hSpace.le
  have hTrAddr : TRAMPOLINE = VTRAMPOLINE * PGSIZE := rfl
  have hTfAddr : TRAPFRAME = VTRAPFRAME * PGSIZE := rfl
  rw [proc_freepagetable, wp_bind, hTrAddr]
  refine wp_uvmunmap (by omega) hTree (by simpa [freed] using hValid.left) (fun u hu hu' => ?_)
    fun m₁ hTree₁ hMoves₁ => ?_
  · obtain rfl : u = VTRAMPOLINE := by omega
    rw [hSpace.trampoline]
    rfl
  rw [freed, if_neg (by simp), add_zero] at hMoves₁
  have hValid₁ := (hMoves₁.add (own f (Ico 0 (npages sz)))).valid hValid
  rw [wp_bind, hTfAddr]
  refine wp_uvmunmap (by omega) hTree₁ (by simpa [freed] using hValid₁.left) (fun u hu hu' => ?_)
    fun m₂ hTree₂ hMoves₂ => ?_
  · obtain rfl : u = VTRAPFRAME := by omega
    rw [cut, if_neg (by omega), hSpace.trapframe]
    rfl
  rw [freed, if_neg (by simp), add_zero] at hMoves₂
  have hMoves := hMoves₁.trans hMoves₂
  -- only user memory is left
  have hUser : ∀ u, u < VTRAPFRAME → cut (cut f VTRAMPOLINE 1) VTRAPFRAME 1 u = f u := fun u hu => by
    rw [cut, if_neg (by omega), cut, if_neg (by omega)]
  have hOwn : own (cut (cut f VTRAMPOLINE 1) VTRAPFRAME 1) (Ico 0 (npages sz)) =
      own f (Ico 0 (npages sz)) :=
    own_congr fun u hu => hUser u (by rw [mem_Ico] at hu; omega)
  have hAll := hMoves.add (own f (Ico 0 (npages sz)))
  refine wp_uvmfree hsz (by omega) (fun u hu => ?_) (fun u hu hu' => ?_) hTree₂ ?_ fun m₃ hMoves₃ => ?_
  · rw [hUser u (by omega), hSpace.user u (by omega)]
    exact hu
  · by_cases hu₁ : u < VTRAPFRAME
    · rw [hUser u hu₁]
      by_contra hSome
      have hIn := (hSpace.user u hu₁).mp (Option.ne_none_iff_isSome.mp hSome)
      omega
    · unfold cut
      split
      · rfl
      · split
        · rfl
        · exact hSpace.high u (by omega) hu'
  · rw [hOwn]
    exact hAll.valid hValid
  · rw [hOwn] at hMoves₃
    exact h m₃ (hAll.trans hMoves₃)

theorem wp_proc_pagetable {Q : Option Nat → Mem → Prop} (hValid : Valid L 0 m) (hNone : ∀ m', pool.Moves 0 0 m m' → Q none m')
    (hSome : ∀ pt m' A f, PgTable m' pt A f → Space L f 0 tf → pool.Moves 0 A m m' →
      Q (some pt) m') :
    wp E (proc_pagetable L tf) Q m := by
  have hTf := vtrapframe_eq
  have hTr := vtrampoline_eq
  have hTrAddr : TRAMPOLINE = VTRAMPOLINE * PGSIZE := rfl
  have hTfAddr : TRAPFRAME = VTRAPFRAME * PGSIZE := rfl
  -- freeing a table that maps nothing
  have hUndo : ∀ pt m₁ A f, PgTable m₁ pt A f → (∀ u, u < 512 ^ 3 → f u = none) →
      pool.Moves 0 A m m₁ → wp E (do
        uvmfree L pt 0
        return none) Q m₁ := fun pt m₁ A f hTree hEmpty hMoves => by
    have hZero : npages 0 = 0 := by decide
    have hOwn : A + own f (Ico 0 (npages 0)) = A := by
      rw [hZero, Ico_self, own_empty, add_zero]
    rw [wp_bind]
    refine wp_uvmfree (by omega) (by omega) (fun u hu => by omega) (fun u _ hu => hEmpty u hu) hTree
      (by rw [hOwn]; exact hMoves.valid hValid) fun m₂ hMoves₂ => wp_pure.mpr (hNone m₂ ?_)
    rw [hOwn] at hMoves₂
    exact hMoves.trans hMoves₂
  rw [proc_pagetable, wp_bind]
  refine wp_uvmcreate (wp_pure.mpr (hNone m (.refl 0 m))) fun pt m₁ hTree₁ hMoves₁ _ => ?_
  rw [wp_bind, hTrAddr]
  refine wp_mappages hTree₁ (hMoves₁.valid hValid) (by omega) rfl
    (dec_PA2PTE _ (by decide)) (fun m₂ A₂ hTree₂ hMoves₂ => ?_) fun m₂ A₂ hTree₂ hMoves₂ => ?_
  · rw [if_neg (by simp)]
    exact hUndo pt m₂ A₂ _ hTree₂ (fun _ _ => rfl) (hMoves₁.trans hMoves₂)
  · have hMoves := hMoves₁.trans hMoves₂
    rw [if_pos rfl, wp_bind, hTfAddr]
    refine wp_mappages hTree₂ (hMoves.valid hValid) (by omega) (upd_of_ne (by omega))
      (dec_PA2PTE _ (by decide)) (fun m₃ A₃ hTree₃ hMoves₃ => ?_) fun m₃ A₃ hTree₃ hMoves₃ => ?_
    · have hMoves₄ := hMoves.trans hMoves₃
      rw [if_neg (by simp), wp_bind]
      refine wp_uvmunmap (by omega) hTree₃ (by simpa [freed] using hMoves₄.valid hValid)
        (fun u hu hu' => ?_) fun m₄ hTree₄ hMoves₅ => ?_
      · obtain rfl : u = VTRAMPOLINE := by omega
        rw [upd_self]
        rfl
      · rw [freed, if_neg (by simp), add_zero] at hMoves₅
        refine hUndo pt m₄ A₃ _ hTree₄ (fun u _ => ?_) (hMoves₄.trans hMoves₅)
        unfold cut
        split
        · rfl
        · exact upd_of_ne (by omega)
    · rw [if_pos rfl, wp_pure]
      refine hSome pt m₃ A₃ _ hTree₃ ⟨Nat.zero_le _, fun v hv => ?_, upd_self .., ?_, fun v hv _ => ?_⟩
        (hMoves.trans hMoves₃)
      · rw [upd_of_ne (by omega), upd_of_ne (by omega)]
        simp
      · rw [upd_of_ne (by omega), upd_self]
      · rw [upd_of_ne (by omega), upd_of_ne (by omega)]

theorem own_union {a b c : Nat} (hab : a ≤ b) (hbc : b ≤ c) : own f (Ico a c) = own f (Ico a b) + own f (Ico b c) := by
  rw [← Ico_union_Ico_eq_Ico hab hbc, own, sum_union (Ico_disjoint_Ico_consecutive a b c)]
  rfl

/-- A space with the pages from `n` to `n'` added. -/
theorem Space.grow {n' : Nat} {f' : Nat → Option Pte} (hSpace : Space L f n tf) (hLe : n ≤ n') (hLow : n' ≤ NPAGES)
    (hSame : ∀ u, u < n ∨ n' ≤ u → f' u = f u) (hNew : ∀ u, n ≤ u → u < n' → (f' u).isSome) : Space L f' n' tf := by
  have hN := npages_limit
  have hTf := vtrapframe_eq
  have hTr := vtrampoline_eq
  refine ⟨hLow, fun v hv => ?_, ?_, ?_, fun v hv hv' => ?_⟩
  · by_cases hOld : v < n ∨ n' ≤ v
    · rw [hSame v hOld, hSpace.user v hv]
      omega
    · exact iff_of_true (hNew v (by omega) (by omega)) (by omega)
  · rw [hSame _ (.inr (by omega)), hSpace.trapframe]
  · rw [hSame _ (.inr (by omega)), hSpace.trampoline]
  · rw [hSame v (.inr (by omega)), hSpace.high v hv hv']

/-- A space without the pages from `n'` on. -/
theorem Space.shrink {n' : Nat} (hSpace : Space L f n tf) (hLe : n' ≤ n) :
    Space L (cut f n' (n - n')) n' tf := by
  have hN := npages_limit
  have hTf := vtrapframe_eq
  have hTr := vtrampoline_eq
  have hLow := hSpace.le
  have hOut : ∀ u, u < n' ∨ n ≤ u → cut f n' (n - n') u = f u := fun u hu => if_neg (by omega)
  refine ⟨by omega, fun v hv => ?_, ?_, ?_, fun v hv hv' => ?_⟩
  · by_cases hIn : v < n' ∨ n ≤ v
    · rw [hOut v hIn, hSpace.user v hv]
      omega
    · rw [cut, if_pos (by omega)]
      exact iff_of_false nofun (by omega)
  · rw [hOut _ (.inr (by omega)), hSpace.trapframe]
  · rw [hOut _ (.inr (by omega)), hSpace.trampoline]
  · rw [hOut v (.inr (by omega)), hSpace.high v hv hv']

/-- `uvmalloc` in a space: user pages that are there already are not touched. -/
theorem wp_uvmalloc_space {Q : Nat → Mem → Prop} (hOld : oldsz < 2 ^ 63)
    (hSpace : Space L f (npages oldsz) tf) (hTree : PgTable m pt A f)
    (hValid : Valid L (A + own f (Ico 0 (npages oldsz))) m) (hStay : newsz < oldsz → Q oldsz m)
    (hFail : ∀ m' A', PgTable m' pt A' f → pool.Moves A A' m m' → Q 0 m')
    (hOk : ∀ m' A' f', oldsz ≤ newsz → newsz < 2 ^ 63 → PgTable m' pt A' f' → Space L f' (npages newsz) tf →
      (∀ u, u < npages oldsz → f' u = f u) → (∀ u, npages oldsz ≤ u → u < npages newsz → Fresh m' f' u) →
      pool.Moves A (A' + own f' (Ico (npages oldsz) (npages newsz))) m m' →
      own f' (Ico 0 (npages newsz)) = own f (Ico 0 (npages oldsz)) + own f' (Ico (npages oldsz) (npages newsz)) →
      Q newsz m') :
    wp E (uvmalloc L pt oldsz newsz) Q m := by
  have hN := npages_limit
  have hTf := vtrapframe_eq
  have hLe := hSpace.le
  refine wp_uvmalloc hOld hLe (fun u hu hu' => ?_) hTree hValid.left hStay hFail
    fun m' A' f' hMore hLt _ hTree' hSame hFresh hMoves => ?_
  · by_contra hSome
    have hIn := (hSpace.user u hu').mp (Option.ne_none_iff_isSome.mp hSome)
    omega
  · have hMono : npages oldsz ≤ npages newsz := npages_mono hMore hLt
    have hOwn : own f' (Ico 0 (npages newsz)) =
        own f (Ico 0 (npages oldsz)) + own f' (Ico (npages oldsz) (npages newsz)) := by
      rw [own_union (Nat.zero_le _) hMono]
      congr 1
      exact own_congr fun u hu => hSame u (.inl (mem_Ico.mp hu).2)
    have hSome : ∀ u, npages oldsz ≤ u → u < npages newsz → (f' u).isSome := fun u hu hu' => by
      obtain ⟨w, hw, -⟩ := (hFresh u hu hu').entry
      rw [hw]
      rfl
    have hAll : ∀ u ∈ Ico 0 (npages newsz), (f' u).isSome := fun u hu => by
      by_cases hIn : u < npages oldsz
      · rw [hSame u (.inl hIn), hSpace.user u (by omega)]
        exact hIn
      · exact hSome u (by omega) (mem_Ico.mp hu).2
    have hLow : npages newsz ≤ NPAGES := by
      have hValid' := (hMoves.add (own f (Ico 0 (npages oldsz)))).valid hValid
      rw [add_assoc, add_comm (own f' _), ← hOwn] at hValid'
      have hCard := valid_card_le hValid'.right
      rwa [own_card hAll, Nat.card_Ico, Nat.sub_zero] at hCard
    exact hOk m' A' f' hMore hLt hTree' (hSpace.grow hMono hLow hSame hSome) (fun u hu => hSame u (.inl hu)) hFresh hMoves
      hOwn

/-- `uvmdealloc` in a space. -/
theorem wp_uvmdealloc_space {Q : Nat → Mem → Prop} (hOld : oldsz < 2 ^ 63)
    (hSpace : Space L f (npages oldsz) tf) (hTree : PgTable m pt A f)
    (hValid : Valid L (A + own f (Ico 0 (npages oldsz))) m)
    (h : ∀ m' f', PgTable m' pt A f' → Space L f' (npages (min oldsz newsz)) tf →
      (∀ u, u < npages (min oldsz newsz) → f' u = f u) →
      pool.Moves (A + own f (Ico (npages (min oldsz newsz)) (npages oldsz))) A m m' →
      own f (Ico 0 (npages oldsz)) =
        own f' (Ico 0 (npages (min oldsz newsz))) + own f (Ico (npages (min oldsz newsz)) (npages oldsz)) →
      Q (min oldsz newsz) m') :
    wp E (uvmdealloc L pt oldsz newsz) Q m := by
  have hN := npages_limit
  have hTf := vtrapframe_eq
  have hLe := hSpace.le
  by_cases hStay : oldsz ≤ newsz
  · rw [min_eq_left hStay] at h
    rw [uvmdealloc, if_pos hStay, wp_pure]
    refine h m f hTree hSpace (fun _ _ => rfl) ?_ ?_
    · rw [Ico_self, own_empty, add_zero]
      exact .refl A m
    · rw [Ico_self, own_empty, add_zero]
  · have hMono : npages newsz ≤ npages oldsz := npages_mono (by omega) hOld
    have hUnion := own_union (f := f) (Nat.zero_le _) hMono
    refine wp_uvmdealloc (by omega) (by omega) hTree ?_ (fun u hu hu' => ?_) fun m' hTree' hMoves => ?_
    · rw [hUnion, add_left_comm] at hValid
      exact hValid.right
    · rw [hSpace.user u (by omega)]
      exact hu'
    · rw [min_eq_right (by omega)] at h ⊢
      have hSame : ∀ u, u < npages newsz → cut f (npages newsz) (npages oldsz - npages newsz) u = f u :=
        fun u hu => if_neg (by omega)
      have hOwn : own (cut f (npages newsz) (npages oldsz - npages newsz)) (Ico 0 (npages newsz)) =
          own f (Ico 0 (npages newsz)) := own_congr fun u hu => hSame u (mem_Ico.mp hu).2
      exact h m' _ hTree' (hSpace.shrink hMono) hSame hMoves (by rw [hUnion, hOwn])

/-! ## Copying -/

theorem flags_or_ne_zero {x y z : BitVec 10} (h : x &&& z ≠ 0) : (x ||| y) &&& z ≠ 0 := by
  intro hZero
  refine h ?_
  ext i hi
  have hBit := congrArg (fun b => b.getLsbD i) hZero
  simp at hBit ⊢
  tauto

/-- The entry of a copied page. -/
theorem dec_copy (mem : Nat) (hRwx : w.rwx = true) :
    dec (PA2PTE mem (w.flags ||| PTE_V)) = .leaf (PA2PTE mem (w.flags ||| PTE_V)) :=
  dec_PA2PTE mem (flags_or_ne_zero (bne_iff_ne.mp hRwx))

theorem flags_valid (h : w.valid = true) : w.flags ||| PTE_V = w.flags := by
  have hBit : w.flags.getLsbD 0 = true := by
    by_contra hOff
    refine bne_iff_ne.mp h (BitVec.eq_of_getLsbD_eq fun i hi => ?_)
    rw [Bool.not_eq_true] at hOff
    by_cases h0 : i = 0
    · subst h0
      simpa using hOff
    · simp [h0]
  refine BitVec.eq_of_getLsbD_eq fun i hi => ?_
  by_cases h0 : i = 0
  · simp [h0, hBit]
  · simp [h0]

/-- The virtual page `u` of the map `f'` is a copy of that of `g`. -/
structure Copied (m' : Mem) (f' : Nat → Option Pte) (m : Mem) (g : Nat → Option Pte) (u : Nat) : Prop where
  entry : ∃ w w', g u = some w ∧ f' u = some w' ∧ w'.flags = w.flags ∧ m'.page w'.pa = m.page w.pa

theorem mem_own {s : Finset Nat} (hv : v ∈ s) (hw : f v = some w) : w.pa ∈ own f s := by
  rw [← insert_erase hv, own_insert (notMem_erase v _) hw]
  exact Multiset.mem_add.mpr (.inl (Multiset.mem_singleton_self _))

theorem wp_copyLoop {Q : Bool → Mem → Prop} {fuel old new : Nat}
    {g : Nat → Option Pte} (hsz : sz < 2 ^ 63) (hLow : npages sz ≤ NPAGES)
    (hFuel : npages sz < v + fuel) (hv : v ≤ npages sz)
    (hOld : PgTable m old B g) (hMapped : ∀ u, u < npages sz → (g u).isSome)
    (hTree : PgTable m new A f) (hNone : ∀ u, v ≤ u → u < npages sz → f u = none)
    (hFull : ∀ u, u < v → (f u).isSome)
    (hValid : Valid L (B + own g (Ico 0 (npages sz)) + (A + own f (Ico 0 v))) m)
    (hFail : ∀ m' A', PgTable m' new A' (cut f 0 v) →
      pool.Moves (A + own f (Ico 0 v)) A' m m' → Q false m')
    (hOk : ∀ m' A' f', PgTable m' new A' f' → (∀ u, u < v ∨ npages sz ≤ u → f' u = f u) →
      (∀ u, v ≤ u → u < npages sz → Copied m' f' m g u) →
      pool.Moves A (A' + own f' (Ico v (npages sz))) m m' → Q true m') :
    wp E (copyLoop L old new sz fuel (v * PGSIZE)) Q m := by
  have hN := npages_limit
  induction fuel generalizing m v A f with
  | zero => omega
  | succ fuel ih =>
    have hv' : v < 2 ^ 26 := by omega
    -- both failures give back what was taken
    have hBack : ∀ m₁ A₁, PgTable m₁ new A₁ f → pool.Moves A A₁ m m₁ → wp E (do
          uvmunmap L new 0 (v * PGSIZE / PGSIZE) true
          return false) Q m₁ := by
      intro m₁ A₁ hTree₁ hMoves₁
      have hFreed : freed true f 0 v = own f (Ico 0 v) := by
        rw [freed, if_pos rfl, zero_add]
      have hMoves₂ := hMoves₁.add (own f (Ico 0 v))
      rw [wp_bind, Nat.mul_div_cancel _ (by decide), ← Nat.zero_mul PGSIZE]
      refine wp_uvmunmap (by omega) hTree₁ ?_ (fun u _ hu => hFull u (by omega)) fun m₂ hTree₂ hMoves₃ => ?_
      · rw [hFreed]
        exact hMoves₂.valid hValid.right
      · rw [hFreed] at hMoves₃
        exact wp_pure.mpr (hFail m₂ A₁ hTree₂ (hMoves₂.trans hMoves₃))
    rw [copyLoop]
    by_cases hMore : v * PGSIZE < sz
    · have hIn : v < npages sz := (lt_npages hsz).mpr hMore
      obtain ⟨w, hw⟩ := Option.isSome_iff_exists.mp (hMapped v hIn)
      rw [if_pos hMore, wp_bind]
      refine wp_walk hOld hv' (fun hBad => by rw [hw] at hBad; cases hBad) fun t hAt => ?_
      have hEntry := entry_at hOld hv' hAt
      rw [hw] at hEntry
      obtain ⟨hVal, hRwx, hEq⟩ := dec_leaf.mp hEntry
      rw [hEq] at hVal hRwx
      rw [wp_bind, wp_entry, hEq, wp_bind, wp_when]
      refine ⟨fun hBad => by simp [hVal] at hBad, fun _ => ?_⟩
      rw [wp_bind]
      refine wp_kalloc (hBack m A hTree (.refl _ _)) fun mem m₁ hMoves₁ hMem => ?_
      generalize hO : own f (Ico 0 v) = O at hValid hFail
      generalize hG : own g (Ico 0 (npages sz)) = G at hValid ih
      have hOkMem : PageOk L mem := hValid.ok mem (Multiset.mem_add.mpr (.inl hMem))
      have hSrc : w.pa ∈ B + G :=
        Multiset.mem_add.mpr (.inr (hG ▸ mem_own (mem_Ico.mpr ⟨Nat.zero_le v, hIn⟩) hw))
      -- the copy
      rw [wp_bind, memmove, wp_bind, wp_get, wp_store]
      have hSrc₁ : m₁.page w.pa = m.page w.pa := hMoves₁.cell_eq (B := B + G) (by
        rw [zero_add]
        exact hValid.left.nodup) hSrc
      rw [hSrc₁]
      have hCopied : pool.Moves 0 {mem} m (m₁.put mem (m.page w.pa)) :=
        hMoves₁.trans (moves_store (Multiset.mem_singleton_self mem))
      have hMoves₂ : pool.Moves A (A + {mem}) m (m₁.put mem (m.page w.pa)) := by
        have hAll := hCopied.add A
        rwa [zero_add, add_comm ({mem} : Multiset Nat)] at hAll
      have hTree₁ : PgTable (m₁.put mem (m.page w.pa)) new A f := hTree.moves hCopied (by
        rw [zero_add]
        exact hValid.right.left.nodup)
      have hValid₂ : Valid L (A + {mem}) (m₁.put mem (m.page w.pa)) := hMoves₂.valid hValid.right.left
      refine wp_map_or_free hTree₁ hValid₂ hv' (hNone v le_rfl hIn)
        (dec_copy mem hRwx) (fun m₃ A₃ hTree₃ hMoves₃ => ?_)
        fun m₃ A₃ hTree₃ hMoves₃ => hBack m₃ A₃ hTree₃ (hMoves₂.trans hMoves₃)
      · have hMoves₄ : pool.Moves A (A₃ + {mem}) m m₃ := hMoves₂.trans (hMoves₃.add {mem})
        have hMoves₅ : pool.Moves (A + O) (A₃ + ({mem} + O)) m m₃ := by
          rw [← add_assoc]
          exact hMoves₄.add O
        have hValid₄ := (hMoves₅.add_left (B + G)).valid hValid
        have hKept : ∀ x ∈ B + G, m₃.page x = m.page x := fun x hx =>
          hMoves₅.cell_eq (B := B + G) (by
            rw [add_comm (A + O)]
            exact hValid.nodup) hx
        have hOld₃ : PgTable m₃ old B g := hOld.congr
          (fun x hx => word_congr (hKept x (Multiset.mem_add.mpr (.inl hx)))) fun _ _ => rfl
        generalize hEntry' : PA2PTE mem (w.flags ||| PTE_V) = w' at hTree₃
        have hPa : w'.pa = mem := hEntry' ▸ PA2PTE_pa hOkMem.aligned hOkMem.lt _
        have hFlags : w'.flags = w.flags := by
          rw [← hEntry', PA2PTE_flags, flags_valid hVal]
        have hPage₃ : m₃.page mem = m.page w.pa :=
          (hMoves₃.cell_eq hValid₂.nodup (Multiset.mem_singleton_self mem)).trans (upd_self ..)
        have hOwn : own (upd f v (some w')) (Ico 0 (v + 1)) = {mem} + O := by
          rw [own_Ico_succ (Nat.zero_le v), hO, hPa]
        have hCut : cut (upd f v (some w')) 0 (v + 1) = cut f 0 v := by
          funext u
          unfold cut
          by_cases huv : u = v
          · rw [huv, if_pos (by omega), if_neg (by omega), hNone v le_rfl hIn]
          · rw [upd_of_ne huv]
            exact if_congr (by omega) rfl rfl
        rw [next_page hv']
        refine ih (by omega) (by omega) hOld₃ hTree₃ (fun u hu hu' => ?_) (fun u hu => ?_)
          (by rw [hOwn]; exact hValid₄) ?_ ?_
        · rw [upd_of_ne (by omega)]
          exact hNone u (by omega) hu'
        · by_cases huv : u = v
          · rw [huv, upd_self]
            rfl
          · rw [upd_of_ne huv]
            exact hFull u (by omega)
        · intro m₅ A₅ hTree₅ hMoves₆
          rw [hOwn] at hMoves₆
          rw [hCut] at hTree₅
          exact hFail m₅ A₅ hTree₅ (hMoves₅.trans hMoves₆)
        · intro m₅ A₅ f₅ hTree₅ hSame hAll hMoves₆
          have hw₅ : f₅ v = some w' := by rw [hSame v (by omega), upd_self]
          have hIco : Ico v (npages sz) = insert v (Ico (v + 1) (npages sz)) := by
            ext u
            simp only [mem_Ico, mem_insert]
            omega
          have hPage₅ : m₅.page mem = m.page w.pa := by
            rw [← hPage₃]
            refine hMoves₆.cell_eq (B := {mem}) ?_ (Multiset.mem_singleton_self mem)
            exact (hMoves₄.valid hValid.right.left).nodup
          refine hOk m₅ A₅ f₅ hTree₅ (fun u hu => ?_) (fun u hu hu' => ?_) ?_
          · rw [hSame u (by omega), upd_of_ne (by omega)]
          · by_cases huv : u = v
            · rw [huv]
              exact ⟨w, w', hw, hw₅, hFlags, hPa.symm ▸ hPage₅⟩
            · obtain ⟨x, x', hx, hx', hFl, hPg⟩ := (hAll u (by omega) hu').entry
              refine ⟨x, x', hx, hx', hFl, hPg.trans (hKept _ (Multiset.mem_add.mpr (.inr ?_)))⟩
              exact hG ▸ mem_own (mem_Ico.mpr ⟨Nat.zero_le u, hu'⟩) hx
          · rw [hIco, own_insert (by simp) hw₅, hPa]
            have hJoin := hMoves₄.trans (hMoves₆.add {mem})
            rwa [add_assoc, add_comm _ ({mem} : Multiset Nat)] at hJoin
    · have hEnd : v = npages sz := by
        have hNot : ¬ v < npages sz := fun hLt => hMore ((lt_npages hsz).mp hLt)
        omega
      rw [if_neg hMore, wp_pure]
      subst hEnd
      refine hOk m A f hTree (fun _ _ => rfl) (fun u hu hu' => by omega) ?_
      rw [Ico_self, own_empty, add_zero]
      exact .refl A m

/-- The new table gets a copy of each user page of the old one, or none. -/
theorem wp_uvmcopy {Q : Bool → Mem → Prop} {old new : Nat}
    {g : Nat → Option Pte} (hsz : sz < 2 ^ 63) (hLow : npages sz ≤ NPAGES)
    (hOld : PgTable m old B g) (hMapped : ∀ u, u < npages sz → (g u).isSome)
    (hTree : PgTable m new A f) (hNone : ∀ u, u < npages sz → f u = none)
    (hValid : Valid L (B + own g (Ico 0 (npages sz)) + A) m)
    (hFail : ∀ m' A', PgTable m' new A' f → pool.Moves A A' m m' → Q false m')
    (hOk : ∀ m' A' f', PgTable m' new A' f' → (∀ u, npages sz ≤ u → f' u = f u) →
      (∀ u, u < npages sz → Copied m' f' m g u) →
      pool.Moves A (A' + own f' (Ico 0 (npages sz))) m m' → Q true m') :
    wp E (uvmcopy L old new sz) Q m := by
  have hZero : A + own f (Ico 0 0) = A := by
    rw [Ico_self, own_empty, add_zero]
  have hCut : cut f 0 0 = f := by
    funext u
    exact if_neg (by omega)
  rw [uvmcopy, ← Nat.zero_mul PGSIZE]
  refine wp_copyLoop hsz hLow ?_ (Nat.zero_le _) hOld hMapped hTree (fun u _ hu => hNone u hu)
    (fun u hu => absurd hu (Nat.not_lt_zero u)) (by rwa [hZero]) ?_ ?_
  · rw [npages_eq hsz]
    unfold PGSIZE
    omega
  · rw [hZero, hCut]
    exact hFail
  · intro m' A' f' hTree' hSame hAll hMoves
    exact hOk m' A' f' hTree' (fun u hu => hSame u (.inr hu)) (fun u hu => hAll u (Nat.zero_le u) hu) hMoves

/-- The pages that users may write belong to the process. -/
theorem Space.user_mem (hSpace : Space L f n tf) (hv : v < 2 ^ 26)
    (hw : f v = some w) (hUser : w.user = true) : v < n := by
  have hTf := vtrapframe_eq
  have hTr := vtrampoline_eq
  by_cases hTop : v < VTRAPFRAME
  · exact (hSpace.user v hTop).mp (Option.isSome_iff_exists.mpr ⟨w, hw⟩)
  · obtain rfl | rfl : v = VTRAPFRAME ∨ v = VTRAMPOLINE := by omega
    · rw [hSpace.trapframe, Option.some_inj] at hw
      rw [← hw, Pte.user, PA2PTE_flags] at hUser
      exact absurd hUser (by decide)
    · rw [hSpace.trampoline, Option.some_inj] at hw
      rw [← hw, Pte.user, PA2PTE_flags] at hUser
      exact absurd hUser (by decide)

end Xv6.Vm
