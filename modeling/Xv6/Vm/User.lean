import Xv6.Vm.Space
import Mathlib.Data.List.GetD

/-!
# xv6 — user memory

The memory of a process as its program sees it: the bytes at the addresses that its page table maps for users
(`umem`). `copyout` copies up to the first address that is not mapped for users; what it has copied is where it belongs,
and no other byte has changed (`Stored`).
-/

namespace Xv6.Vm

open Hoare Finset ByteBuf

variable {E : Panic → Prop} {L : Layout} {m m' m'' : Mem} {pt : Nat} {A : Multiset Nat} {f : Nat → Option Pte}

/-- The entry that lets users access the virtual page `v`. -/
def userPte (f : Nat → Option Pte) (v : Nat) : Option Pte := if v < 2 ^ 26 then (f v).filter Pte.user else none

/-- The byte at the user address `a`. -/
def umem (m : Mem) (f : Nat → Option Pte) (a : Nat) : Option UInt8 :=
  (userPte f (a / PGSIZE)).map fun w => peek (m.page w.pa) (a % PGSIZE)

/-- The page table `pt`, made of the pages `A`, and the pages `B`, among which are the user pages of its map `f`: each
of them is mapped once. -/
structure Image (L : Layout) (m : Mem) (pt : Nat) (A B : Multiset Nat) (f : Nat → Option Pte) : Prop where
  tree   : PgTable m pt A f
  valid  : Valid L (A + B) m
  apart  : ∀ v v' w w', userPte f v = some w → userPte f v' = some w' → w.pa = w'.pa → v = v'
  within : ∀ v w, userPte f v = some w → w.pa ∈ B

variable {B : Multiset Nat}

/-- The pages of different virtual pages are different. -/
theorem own_inj {s : Finset Nat} {v v' : Nat} {w w' : Pte} (hNodup : (own f s).Nodup) (hv : v ∈ s) (hv' : v' ∈ s)
    (hw : f v = some w) (hw' : f v' = some w') (h : w.pa = w'.pa) : v = v' := by
  by_contra hne
  have hMem : v' ∈ s.erase v := mem_erase.mpr ⟨fun hEq => hne hEq.symm, hv'⟩
  rw [← insert_erase hv, own_insert (notMem_erase v s) hw] at hNodup
  exact Multiset.disjoint_left.mp (Multiset.nodup_add.mp hNodup).2.2 (Multiset.mem_singleton_self w.pa)
    (h ▸ mem_own hMem hw')

theorem userPte_some {v : Nat} {w : Pte} : userPte f v = some w ↔ v < 2 ^ 26 ∧ f v = some w ∧ w.user = true := by
  unfold userPte
  split
  · rename_i hv
    rw [Option.filter_eq_some_iff]
    exact (and_iff_right hv).symm
  · rename_i hv
    exact ⟨nofun, fun h => absurd h.1 hv⟩

/-- The pages of a process are the user pages of its table. -/
theorem Space.image {n tf : Nat} (hSpace : Space L f n tf) (hTree : PgTable m pt A f)
    (hValid : Valid L (A + own f (Ico 0 n)) m) : Image L m pt A (own f (Ico 0 n)) f where
  tree := hTree
  valid := hValid
  apart v v' w w' hw hw' hPa := by
    obtain ⟨hv, hf, hUser⟩ := userPte_some.mp hw
    obtain ⟨hv', hf', hUser'⟩ := userPte_some.mp hw'
    have hIn := mem_Ico.mpr ⟨Nat.zero_le v, hSpace.user_mem hv hf hUser⟩
    have hIn' := mem_Ico.mpr ⟨Nat.zero_le v', hSpace.user_mem hv' hf' hUser'⟩
    exact own_inj hValid.right.held hIn hIn' hf hf' hPa
  within v w hw := by
    obtain ⟨hv, hf, hUser⟩ := userPte_some.mp hw
    exact mem_own (mem_Ico.mpr ⟨Nat.zero_le v, hSpace.user_mem hv hf hUser⟩) hf

/-- A page that is mapped as it was and whose contents are the same. -/
theorem umem_congr {f' : Nat → Option Pte} {a : Nat} (hMap : f' (a / PGSIZE) = f (a / PGSIZE))
    (hPage : ∀ w, f (a / PGSIZE) = some w → m'.page w.pa = m.page w.pa) : umem m' f' a = umem m f a := by
  unfold umem userPte
  rw [hMap]
  split
  · cases hw : f (a / PGSIZE) with
    | none => rfl
    | some w =>
      rw [Option.filter_some]
      split
      · rw [Option.map_some, Option.map_some, hPage w hw]
      · rfl
  · rfl

/-- New pages are zero. -/
theorem Fresh.umem {a : Nat} (h : Fresh m f (a / PGSIZE)) (hLow : a / PGSIZE < 2 ^ 26) : Vm.umem m f a = some 0 := by
  obtain ⟨w, hw, hFlags, hPage⟩ := h.entry
  have hUser : w.user = true := by
    rw [Pte.user, hFlags]
    decide
  rw [Vm.umem, userPte_some.mpr ⟨hLow, hw, hUser⟩, Option.map_some, hPage]
  simp [peek]

/-- The bytes `l` have been stored at the user address `va`, and nothing else. -/
structure Stored (f : Nat → Option Pte) (va : Nat) (l : List UInt8) (m m' : Mem) : Prop where
  free  : m'.freelist = m.freelist
  bytes : ∀ a, umem m' f a = if va ≤ a ∧ a < va + l.length then (umem m f a).map fun _ => l.getD (a - va) 0
    else umem m f a
  other : ∀ x, (∀ v w, userPte f v = some w → w.pa = x → (v + 1) * PGSIZE ≤ va ∨ va + l.length ≤ v * PGSIZE) →
    m'.page x = m.page x

theorem Stored.refl (f : Nat → Option Pte) (va : Nat) (m : Mem) : Stored f va [] m m where
  free := rfl
  bytes a := (if_neg (by simp only [List.length_nil]; omega)).symm
  other _ _ := rfl

theorem Stored.trans {va : Nat} {l l' : List UInt8} (h : Stored f va l m m')
    (h' : Stored f (va + l.length) l' m' m'') : Stored f va (l ++ l') m m'' where
  free := h'.free.trans h.free
  bytes a := by
    rw [h'.bytes, h.bytes, List.length_append]
    by_cases hFirst : va ≤ a ∧ a < va + l.length
    · rw [if_neg (by omega), if_pos hFirst, if_pos (by omega), List.getD_append _ _ _ _ (by omega)]
    · rw [if_neg hFirst]
      by_cases hSecond : va + l.length ≤ a ∧ a < va + l.length + l'.length
      · rw [if_pos hSecond, if_pos (by omega), List.getD_append_right _ _ _ _ (by omega), Nat.sub_sub]
      · rw [if_neg hSecond, if_neg (by omega)]
  other x hx := by
    rw [h'.other x fun v w hw hPa => ?_, h.other x fun v w hw hPa => ?_]
    · have := hx v w hw hPa
      rw [List.length_append] at this
      omega
    · have := hx v w hw hPa
      rw [List.length_append] at this
      omega

/-- Nothing but user memory from `lo` to `hi` has changed. -/
structure Touched (f : Nat → Option Pte) (lo hi : Nat) (m m' : Mem) : Prop where
  free  : m'.freelist = m.freelist
  bytes : ∀ a, a < lo ∨ hi ≤ a → umem m' f a = umem m f a
  other : ∀ x, (∀ v w, userPte f v = some w → w.pa = x → (v + 1) * PGSIZE ≤ lo ∨ hi ≤ v * PGSIZE) →
    m'.page x = m.page x

theorem Stored.touched {va : Nat} {l : List UInt8} (h : Stored f va l m m') : Touched f va (va + l.length) m m' where
  free := h.free
  bytes a ha := by rw [h.bytes, if_neg (by omega)]
  other := h.other

theorem Touched.refl (f : Nat → Option Pte) (lo hi : Nat) (m : Mem) : Touched f lo hi m m :=
  ⟨rfl, fun _ _ => rfl, fun _ _ => rfl⟩

theorem Touched.mono {lo hi lo' hi' : Nat} (h : Touched f lo hi m m') (hLo : lo' ≤ lo) (hHi : hi ≤ hi') :
    Touched f lo' hi' m m' where
  free := h.free
  bytes a ha := h.bytes a (by omega)
  other x hx := h.other x fun v w hw hPa => by
    have := hx v w hw hPa
    omega

theorem Touched.trans {lo hi : Nat} (h : Touched f lo hi m m') (h' : Touched f lo hi m' m'') : Touched f lo hi m m'' where
  free := h'.free.trans h.free
  bytes a ha := (h'.bytes a ha).trans (h.bytes a ha)
  other x hx := (h'.other x hx).trans (h.other x hx)

/-- No page of the table is written. -/
theorem Touched.moves {lo hi : Nat} (hTouched : Touched f lo hi m m') (h : Image L m pt A B f) :
    pool.Moves B B m m' where
  conserve := by simp only [pool, hTouched.free]
  frame x hx := hTouched.other x fun v w hw hPa =>
    absurd (hPa ▸ h.within v w hw) fun hMem => hx (Multiset.mem_add.mpr (.inr hMem))

theorem Touched.image {lo hi : Nat} (hTouched : Touched f lo hi m m') (h : Image L m pt A B f) :
    Image L m' pt A B f where
  tree := h.tree.moves (hTouched.moves h) (by
    rw [add_comm B]
    exact h.valid.nodup)
  valid := ((hTouched.moves h).add_left A).valid h.valid
  apart := h.apart
  within := h.within

/-- User memory is the same while the pages are. -/
theorem Image.umem_eq (h : Image L m pt A B f) (hSame : ∀ x ∈ B, m'.page x = m.page x) (a : Nat) :
    umem m' f a = umem m f a := by
  unfold umem
  cases hw : userPte f (a / PGSIZE) with
  | none => rfl
  | some w => rw [Option.map_some, Option.map_some, hSame _ (h.within _ _ hw)]

/-- Bytes are stored in one page. -/
theorem Image.stored_page {v o : Nat} {w : Pte} {l : List UInt8} (h : Image L m pt A B f)
    (hw : userPte f v = some w) (ho : o + l.length ≤ PGSIZE) :
    Stored f (v * PGSIZE + o) l m (m.put w.pa (poke (m.page w.pa) o l.length fun j => l.getD j 0)) where
  free := rfl
  bytes a := by
    have hSplit := Nat.div_add_mod a PGSIZE
    have hMod : a % PGSIZE < PGSIZE := Nat.mod_lt _ (by decide)
    unfold umem
    cases hFind : userPte f (a / PGSIZE) with
    | none => simp
    | some w' =>
      simp only [Option.map_some, Mem.put_page]
      by_cases hPage : a / PGSIZE = v
      · have hEq : w' = w := by
          rw [hPage, hw] at hFind
          exact (Option.some.inj hFind).symm
        subst hEq
        rw [upd_self, peek_poke]
        by_cases hIn : v * PGSIZE + o ≤ a ∧ a < v * PGSIZE + o + l.length
        · rw [if_pos hIn, if_pos ⟨by rw [← hPage] at hIn; rw [Nat.mul_comm] at hIn; omega,
            by rw [← hPage] at hIn; rw [Nat.mul_comm] at hIn; omega, hMod⟩]
          congr 2
          rw [← hPage, Nat.mul_comm]
          omega
        · rw [if_neg hIn, if_neg fun hIn' => hIn ?_]
          rw [← hPage, Nat.mul_comm]
          omega
      · have hne : w'.pa ≠ w.pa := fun hPa => hPage (h.apart _ _ _ _ hFind hw hPa)
        rw [upd_of_ne hne, if_neg]
        intro hIn
        refine hPage (Nat.div_eq_of_lt_le ?_ ?_)
        · omega
        · rw [Nat.succ_mul]
          omega
  other x hx := by
    by_cases hEq : x = w.pa
    · have hOut := hx v w hw hEq.symm
      rw [Nat.succ_mul] at hOut
      have hNil : l.length = 0 := by omega
      rw [hEq, Mem.put_page, upd_self, hNil, poke_zero]
    · exact upd_of_ne hEq

/-- `uvmclear` in a space: users lose the page `v`. -/
theorem wp_uvmclear_space {Q : Unit → Mem → Prop} {n v tf : Nat} {w : Pte} (hSpace : Space L f n tf)
    (hTree : PgTable m pt A f) (hNodup : A.Nodup) (hv : v < n) (hw : f v = some w) (hFlags : w.flags = userFlags)
    (h : ∀ m' f', PgTable m' pt A f' → Space L f' n tf → (∀ u, u ≠ v → f' u = f u) → userPte f' v = none →
      own f' (Ico 0 n) = own f (Ico 0 n) → pool.Moves A A m m' → Q () m') :
    wp E (uvmclear pt (v * PGSIZE)) Q m := by
  have hN := npages_limit
  have hTf := vtrapframe_eq
  have hTr := vtrampoline_eq
  have hLe := hSpace.le
  have hClear : Pte.flags w.clearU = PTE_W ||| PTE_X ||| PTE_R ||| PTE_V := by
    rw [flags_clear, hFlags]
    decide
  have hLeaf : dec w.clearU = .leaf w.clearU := by
    refine dec_leaf.mpr ⟨?_, ?_, rfl⟩
    · rw [Pte.valid, hClear]
      decide
    · rw [Pte.rwx, hClear]
      decide
  refine wp_uvmclear hTree hNodup (by omega) hw hLeaf fun m' hTree' hMoves => ?_
  refine h m' _ hTree' ⟨hLe, fun u hu => ?_, ?_, ?_, fun u hu hu' => ?_⟩ (fun u hu => upd_of_ne hu) ?_ ?_ hMoves
  · by_cases huv : u = v
    · rw [huv, upd_self]
      exact iff_of_true rfl hv
    · rw [upd_of_ne huv]
      exact hSpace.user u hu
  · rw [upd_of_ne (by omega), hSpace.trapframe]
  · rw [upd_of_ne (by omega), hSpace.trampoline]
  · rw [upd_of_ne (by omega), hSpace.high u hu hu']
  · rw [userPte, upd_self, if_pos (by omega), Option.filter_some, if_neg]
    rw [Pte.user, hClear]
    decide
  · refine sum_congr rfl fun u _ => ?_
    by_cases huv : u = v
    · rw [huv, upd_self, hw, Option.elim_some, Option.elim_some, pa_clear]
    · rw [upd_of_ne huv]

/-- The entries that let users access a page are those `walkaddr` finds. -/
theorem wp_walkaddr_user {Q : Nat → Mem → Prop} {va : Nat} (hTree : PgTable m pt A f)
    (h : Q ((userPte f (va / PGSIZE)).elim 0 Pte.pa) m) : wp E (walkaddr pt (PGROUNDDOWN va)) Q m := by
  unfold userPte at h
  refine wp_walkaddr hTree rfl (fun hBig => ?_) fun hv => ?_
  · rwa [if_neg (by omega)] at h
  · rwa [if_pos hv] at h

/-- What `copyout` has done when `k` of the bytes `src` are copied. -/
structure CopiedOut (f : Nat → Option Pte) (dstva : Nat) (src : List UInt8) (m m' : Mem) (k : Nat) : Prop where
  le     : k ≤ src.length
  mapped : ∀ a, dstva ≤ a → a < dstva + k → (userPte f (a / PGSIZE)).isSome
  stop   : k < src.length → userPte f ((dstva + k) / PGSIZE) = none
  stored : Stored f dstva (src.take k) m m'

theorem wp_copyoutLoop {Q : Bool → Mem → Prop} {fuel dstva : Nat} {src : List UInt8}
    (hFuel : src.length ≤ fuel) (hImage : Image L m pt A B f)
    (h : ∀ k m', CopiedOut f dstva src m m' k → Q (decide (k = src.length)) m') :
    wp E (copyoutLoop pt fuel dstva src) Q m := by
  induction fuel generalizing m dstva src Q with
  | zero =>
    obtain rfl := List.length_eq_zero_iff.mp (Nat.le_zero.mp hFuel)
    rw [copyoutLoop, wp_pure]
    exact h 0 m ⟨le_rfl, fun a ha ha' => by omega, fun hBad => absurd hBad (lt_irrefl 0), .refl f dstva m⟩
  | succ fuel ih =>
    cases src with
    | nil =>
      rw [copyoutLoop, wp_pure]
      exact h 0 m ⟨le_rfl, fun a ha ha' => by omega, fun hBad => absurd hBad (lt_irrefl 0), .refl f dstva m⟩
    | cons c cs =>
      generalize hSrc : c :: cs = src at hFuel h
      have hPos : 0 < src.length := by
        rw [← hSrc]
        exact Nat.succ_pos _
      rw [copyoutLoop.eq_3 _ _ _ _ (by rw [← hSrc]; exact nofun), wp_bind]
      refine wp_walkaddr_user hImage.tree ?_
      cases hPte : userPte f (dstva / PGSIZE) with
      | none =>
        rw [Option.elim_none, if_pos rfl, wp_pure]
        have hQ := h 0 m ⟨Nat.zero_le _, fun a ha ha' => by omega, fun _ => hPte, .refl f dstva m⟩
        rwa [decide_eq_false (by omega)] at hQ
      | some w =>
        have hOk : PageOk L w.pa := hImage.valid.right.ok_of_mem (hImage.within _ _ hPte)
        obtain ⟨hv, -⟩ := userPte_some.mp hPte
        have hDiv := Nat.div_add_mod dstva PGSIZE
        have hMod : dstva % PGSIZE < PGSIZE := Nat.mod_lt _ (by decide)
        have hOff : dstva - PGROUNDDOWN dstva = dstva % PGSIZE := by
          rw [PGROUNDDOWN, Nat.mul_comm]
          omega
        have hDst : dstva = dstva / PGSIZE * PGSIZE + dstva % PGSIZE := by
          rw [Nat.mul_comm]
          exact hDiv.symm
        rw [Option.elim_some, if_neg hOk.ne_zero, hOff, wp_bind, putBytes, wp_store]
        generalize hn : min (PGSIZE - dstva % PGSIZE) src.length = n
        have hTake : (src.take n).length = n := by
          rw [List.length_take]
          omega
        have hStored := hImage.stored_page (o := dstva % PGSIZE) (l := src.take n) hPte (by omega)
        rw [← hDst] at hStored
        -- the bytes of this turn are in one page
        have hHere : ∀ a, dstva ≤ a → a < dstva + n → (userPte f (a / PGSIZE)).isSome := fun a ha ha' => by
          have hSame : a / PGSIZE = dstva / PGSIZE := by
            refine Nat.div_eq_of_lt_le (by omega) ?_
            rw [Nat.succ_mul]
            omega
          rw [hSame, hPte]
          rfl
        by_cases hEnd : n = src.length
        · rw [hEnd, List.drop_length, copyoutLoop, wp_pure]
          have hQ := h n _ ⟨by omega, hHere, fun hBad => by omega, hStored⟩
          rw [decide_eq_true hEnd] at hQ
          rwa [hEnd] at hQ
        · have hNext : u64 (PGROUNDDOWN dstva + PGSIZE) = dstva + n := by
            rw [PGROUNDDOWN, next_page hv, Nat.succ_mul]
            omega
          rw [hNext]
          refine ih (by rw [List.length_drop]; omega) (hStored.touched.image hImage) fun k m' hOut => ?_
          obtain ⟨hLe, hMapped, hStop, hRest⟩ := hOut
          rw [List.length_drop] at hLe hStop
          have hStep := h (n + k) m' ⟨by omega, fun a ha ha' => ?_, fun hLt => ?_, ?_⟩
          · rw [List.length_drop]
            rwa [show decide (n + k = src.length) = decide (k = src.length - n) from
              decide_eq_decide.mpr (by omega)] at hStep
          · by_cases hFirst : a < dstva + n
            · exact hHere a ha hFirst
            · exact hMapped a (by omega) (by omega)
          · rw [← Nat.add_assoc]
            exact hStop (by omega)
          · rw [List.take_add]
            refine hStored.trans ?_
            rw [hTake] at hRest ⊢
            exact hRest

/-- `copyout` copies up to the first address that users cannot access. -/
theorem wp_copyout {Q : Bool → Mem → Prop} {dstva : Nat} {src : List UInt8} (hImage : Image L m pt A B f)
    (h : ∀ k m', CopiedOut f dstva src m m' k → Q (decide (k = src.length)) m') :
    wp E (copyout pt dstva src) Q m :=
  wp_copyoutLoop le_rfl hImage h

/-- The first page of the first process. -/
theorem wp_uvminit {Q : Bool → Mem → Prop} {tf : Nat} {src : List UInt8} (hLen : src.length < PGSIZE)
    (hSpace : Space L f 0 tf) (hTree : PgTable m pt A f) (hValid : Valid L A m) (hFail : ∀ m', Q false m')
    (hOk : ∀ m' A' f', PgTable m' pt A' f' → Space L f' 1 tf → pool.Moves A (A' + own f' (Ico 0 1)) m m' → Q true m') :
    wp E (uvminit pt src) Q m := by
  have hN := npages_limit
  have hTop := vtrapframe_eq
  rw [uvminit, wp_bind, wp_when]
  refine ⟨fun hBad => absurd hBad (by omega), fun _ => ?_⟩
  rw [wp_bind]
  refine wp_kalloc (wp_pure.mpr (hFail m)) fun x m₁ hMoves₁ hFree => ?_
  have hOkMem : PageOk L x := hValid.ok x (Multiset.mem_add.mpr (.inl hFree))
  have hZeroed : pool.Moves 0 {x} m (m₁.put x zeroPage) := hMoves₁.trans (moves_store (Multiset.mem_singleton_self x))
  have hHeld := hZeroed.add_left A
  rw [add_zero] at hHeld
  have hValid₁ := hHeld.valid hValid
  have hTree₁ : PgTable (m₁.put x zeroPage) pt A f := hTree.moves hZeroed (by
    rw [zero_add]
    exact hValid.nodup)
  have hNone : f 0 = none := by
    by_contra hSome
    exact absurd ((hSpace.user 0 (by omega)).mp (Option.ne_none_iff_isSome.mp hSome)) (lt_irrefl 0)
  dsimp only
  rw [wp_bind, memset, wp_store, wp_bind, ← Nat.zero_mul PGSIZE]
  refine wp_mappages (v := 0) hTree₁ hValid₁.left (by omega) hNone (dec_PA2PTE x (by decide)) (fun m₂ A₂ _ _ => ?_)
    fun m₂ A₂ hTree₂ hMoves₂ => ?_
  · rw [wp_bind, putBytes, wp_store, wp_pure]
    exact hFail _
  · generalize hw : PA2PTE x (PTE_W ||| PTE_R ||| PTE_X ||| PTE_U ||| PTE_V) = w at hTree₂
    have hPa : w.pa = x := hw ▸ PA2PTE_pa hOkMem.aligned hOkMem.lt _
    have hOwn : own (upd f 0 (some w)) (Ico 0 1) = {x} := by
      rw [own_Ico_succ le_rfl, Ico_self, own_empty, add_zero, hPa]
    have hAll := hHeld.trans (hMoves₂.add {x})
    have hPut : pool.Moves {x} {x} m₂ (m₂.put x (poke (m₂.page x) 0 src.length fun j => src.getD j 0)) :=
      moves_store (Multiset.mem_singleton_self x)
    rw [wp_bind, putBytes, wp_store, wp_pure]
    refine hOk _ A₂ (upd f 0 (some w)) (hTree₂.moves hPut ?_) ?_ ?_
    · rw [add_comm ({x} : Multiset Nat)]
      exact (hAll.valid hValid).nodup
    · refine hSpace.grow (Nat.zero_le 1) (by omega) (fun u hu => upd_of_ne (by omega)) fun u _ hu => ?_
      obtain rfl : u = 0 := by omega
      rw [upd_self]
      rfl
    · rw [hOwn]
      exact hAll.trans (hPut.add_left A₂)

end Xv6.Vm
