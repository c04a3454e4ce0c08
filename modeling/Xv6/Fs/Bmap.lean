import Xv6.Fs.Blocks

/-!
# xv6 — the blocks of an inode: `bmap` and `itrunc`

`bmap` finds the block for a block index of a loaded inode, and takes a new one for an index that
has none; the content of the inode stays what it was. `itrunc` gives all blocks back.
-/

namespace Xv6.Fs

open ByteBuf Hoare Owner

variable {di : Dinode} {b i : Nat} {B : Disk}

variable {E : Panic → Prop} {c c' : Core} {D : Nat → Dinode} {U : Set Nat} {g : Abs} {r : Ref}

@[simp] theorem Abs.setNode_setNode (g : Abs) (i : Nat) (n m : Node) :
    (g.setNode i n).setNode i m = g.setNode i m := by
  simp [Abs.setNode]

@[simp] theorem Abs.setNode_eta (g : Abs) (i : Nat) : g.setNode i (g.node i) = g := by
  simp [Abs.setNode]

/-! ## The copy in the table -/

/-- Two pointers to one entry are pointers to one inode. -/
theorem TableOk.slot_unique {sb : Superblock} {t : Nat → Inode} (h : TableOk sb D g t) {r' : Ref}
    (hr : r ∈ g.refs) (hr' : r' ∈ g.refs) (hSlot : r'.slot = r.slot) : r' = r :=
  h.uniq r' hr' r hr (by rw [← h.inum r' hr', ← h.inum r hr, hSlot])

/-- A change of the copy is a change of the inode. -/
theorem TableOk.setDin {sb : Superblock} {t : Nat → Inode} (h : TableOk sb D g t)
    (hr : r ∈ g.refs) (hType : di.type ≠ 0) :
    TableOk sb (upd D r.inum di) g (upd t r.slot { t r.slot with din := di }) where
  ref k := by
    rw [← h.ref k, upd_apply]
    split
    · rename_i hk
      rw [hk]
    · rfl
  slot := h.slot
  dev r' hr' := by
    rw [← h.dev r' hr', upd_apply]
    split
    · rename_i hk
      rw [hk]
    · rfl
  inum r' hr' := by
    rw [upd_apply]
    split
    · rename_i hk
      rw [← hk]
      exact h.inum r' hr'
    · exact h.inum r' hr'
  range := h.range
  uniq := h.uniq
  valid r' hr' := by
    rw [← h.valid r' hr', upd_apply]
    split
    · rename_i hk
      rw [hk]
    · rfl
  copy r' hr' hLoaded := by
    by_cases hEq : r' = r
    · rw [hEq, upd_self, upd_self]
    · have hSlot : r'.slot ≠ r.slot := fun hs => hEq (h.slot_unique hr hr' hs)
      have hInum : r'.inum ≠ r.inum := fun hi => hEq (h.uniq r' hr' r hr hi)
      rw [upd_of_ne hSlot, upd_of_ne hInum]
      exact h.copy r' hr' hLoaded
  loaded := h.loaded
  typed i hi := by
    rw [upd_apply]
    split
    · exact hType
    · exact h.typed i hi
  locked k := by
    rw [← h.locked k, upd_apply]
    split
    · rename_i hk
      rw [hk]
    · rfl
  held := h.held

/-- What the code reads through a pointer to a loaded inode. -/
theorem RepD.din (h : RepD D U g c) (hr : r ∈ g.refs) (hLoaded : r.inum ∈ g.loaded) :
    (c.itable r.slot).din = D r.inum :=
  h.table.copy r hr hLoaded

theorem RepD.inum_lt (h : RepD D U g c) (hr : r ∈ g.refs) : r.inum < c.sb.ninodes :=
  (h.table.range r hr).2

theorem RepD.mono {U' : Set Nat} (h : RepD D U g c) (hU : U ⊆ U') : RepD D U' g c :=
  { h with
    synced := fun i hi hNot => h.synced i hi fun hIn => hNot (hU hIn)
    nodes := fun i hi => (h.nodes i hi).imp fun hNot hIn => hNot (hU hIn) }

/-! ## bmap -/

theorem take_freeBlocks (hL : c.sb.Layout) (hb : c.sb.nmeta ≤ b) :
    (c.take b).freeBlocks = c.freeBlocks.erase b := by
  ext x
  rw [Finset.mem_erase, mem_freeBlocks, mem_freeBlocks]
  constructor
  · rintro ⟨hx, hFree⟩
    rw [show (c.take b).sb = c.sb from rfl] at hx hFree
    rw [marked_take (bblock_ne_data hL hb hx), Bool.or_eq_false_iff, decide_eq_false_iff_not] at hFree
    exact ⟨hFree.1, hx, hFree.2⟩
  · rintro ⟨hne, hx, hFree⟩
    refine ⟨hx, ?_⟩
    rw [show (c.take b).sb = c.sb from rfl, marked_take (bblock_ne_data hL hb hx), hFree, decide_eq_false hne]
    rfl

@[simp] theorem Core.take_itable (b : Nat) : (c.take b).itable = c.itable := rfl

theorem take_unlogged {x : Nat} (h : (c.take b).buf x ≠ (c.take b).disk x) :
    x ≠ b ∧ c.buf x ≠ c.disk x := by
  obtain ⟨hne, h⟩ := put_unlogged h
  exact ⟨hne, (put_unlogged h).2⟩

/-- How many of the places `P` of the inode `di` are empty. -/
def missing (B : Disk) (di : Dinode) (P : Finset Nat) : Nat :=
  (P.filter fun p => addrAt B di p = 0).card

theorem missing_mono (B : Disk) (di : Dinode) {P P' : Finset Nat} (h : P ⊆ P') :
    missing B di P ≤ missing B di P' :=
  Finset.card_le_card (Finset.filter_subset_filter _ h)

/-- One of the places is filled. -/
theorem missing_fill {B' : Disk} {di' : Dinode} {p : Nat} {P : Finset Nat} (hp : p ∈ P)
    (hEmpty : addrAt B di p = 0) (hb : b ≠ 0)
    (hPlaces : ∀ q, addrAt B' di' q = if q = p then b else addrAt B di q) :
    missing B' di' P + 1 = missing B di P := by
  have hErase : P.filter (fun q => addrAt B' di' q = 0) =
      (P.filter fun q => addrAt B di q = 0).erase p := by
    ext q
    rw [Finset.mem_erase, Finset.mem_filter, Finset.mem_filter, hPlaces]
    by_cases hq : q = p
    · simp only [hq, if_true, hb, and_false, ne_eq, not_true_eq_false, false_and]
    · simp only [hq, if_false, ne_eq, not_false_eq_true, true_and]
  rw [missing, hErase]
  exact Finset.card_erase_add_one (Finset.mem_filter.mpr ⟨hp, hEmpty⟩)

/-- What `bmap` may do to inode `i`: note new blocks at places `P` that were empty. -/
structure Grown (D : Nat → Dinode) (U : Set Nat) (g : Abs) (i : Nat) (c c' : Core) (di : Dinode)
    (u P : Finset Nat) : Prop where
  rep    : RepD (upd D i di) (insert i U) (g.setNode i { g.node i with used := u }) c'
  fields : di = { D i with addrs := di.addrs }
  used   : (g.node i).used ⊆ u
  kept   : ∀ q, addrAt c.buf (D i) q ≠ 0 → addrAt c'.buf di q = addrAt c.buf (D i) q
  buf    : ∀ x ∉ u, (∀ b < c.sb.size, x ≠ c.sb.bblock b) → c'.buf x = c.buf x
  free   : ∀ P', P ⊆ P' →
    missing c'.buf di P' + c.freeBlocks.card = missing c.buf (D i) P' + c'.freeBlocks.card

theorem Grown.refl (h : RepD D U g c) (i : Nat) (P : Finset Nat) :
    Grown D U g i c c (D i) (g.node i).used P where
  rep := by
    rw [upd_eta, Abs.setNode_eta]
    exact h.mono (Set.subset_insert i U)
  fields := rfl
  used := subset_rfl
  kept _ _ := rfl
  buf _ _ _ := rfl
  free _ _ := rfl

theorem Grown.mono {u P P' : Finset Nat} (h : Grown D U g i c c' di u P)
    (hP : P ⊆ P') : Grown D U g i c c' di u P' :=
  { h with free := fun P'' hP'' => h.free P'' (hP.trans hP'') }

theorem Grown.trans {c₁ c₂ : Core} {di₁ di₂ : Dinode} {u₁ u₂ P : Finset Nat}
    (h₁ : Grown D U g i c c₁ di₁ u₁ P) (hSb : c₁.sb = c.sb)
    (h₂ : Grown (upd D i di₁) (insert i U) (g.setNode i { g.node i with used := u₁ }) i c₁ c₂ di₂ u₂
      P) :
    Grown D U g i c c₂ di₂ u₂ P where
  rep := by
    have := h₂.rep
    simpa using this
  fields := by
    have h2 := h₂.fields
    rw [upd_self, h₁.fields] at h2
    exact h2
  used := by
    have := h₂.used
    rw [Abs.setNode_self] at this
    exact h₁.used.trans this
  kept q hq := by
    have h2 := h₂.kept q
    rw [upd_self, h₁.kept q hq] at h2
    exact h2 hq
  buf x hx hMap := by
    have hSub := h₂.used
    rw [Abs.setNode_self] at hSub
    rw [h₂.buf x hx (by rwa [hSb]), h₁.buf x (fun hIn => hx (hSub hIn)) hMap]
  free P' hP' := by
    have h1 := h₁.free P' hP'
    have h2 := h₂.free P' hP'
    rw [upd_self] at h2
    omega

theorem setAddr_addrs (di : Dinode) (j q : Fin (NDIRECT + 1)) (b : Nat) :
    (Dinode.setAddr di j b).addrs q = if q = j then BitVec.ofNat 32 b else di.addrs q :=
  rfl

/-- The places of an inode after the empty `addrs[j]` was set to a zeroed block. -/
theorem addrAt_setAddr {B' : Disk} {j : Fin (NDIRECT + 1)}
    (hEmpty : di.addrs j = 0) (hb : b < 2 ^ 32) (hZero : B' b = zeroBlock)
    (hKeep : addrAt B di NDIRECT ≠ 0 → B' (addrAt B di NDIRECT) = B (addrAt B di NDIRECT))
    (q : Nat) :
    addrAt B' (Dinode.setAddr di j b) q = if q = j then b else addrAt B di q := by
  have hb32 : (BitVec.ofNat 32 b).toNat = b := by rw [BitVec.toNat_ofNat, Nat.mod_eq_of_lt hb]
  by_cases hq : q < NDIRECT + 1
  · rw [addrAt, addrAt, dif_pos hq, dif_pos hq, setAddr_addrs]
    by_cases hqj : q = j
    · rw [if_pos (Fin.ext hqj), if_pos hqj, hb32]
    · rw [if_neg (fun hEq => hqj (congrArg Fin.val hEq)), if_neg hqj]
  · have hqj : q ≠ j := fun hEq => hq (by rw [hEq]; exact j.isLt)
    rw [if_neg hqj]
    by_cases hj : j = Fin.last NDIRECT
    · -- a new indirect block is zero, so it holds no entries
      subst hj
      rw [addrAt_of_last_zero (by omega) hEmpty, addrAt, dif_neg hq, setAddr_addrs, if_pos rfl, hb32,
        hZero, indirect_zeroBlock, ite_self]
    · have hLast : (Dinode.setAddr di j b).addrs (Fin.last NDIRECT) =
          di.addrs (Fin.last NDIRECT) := by
        rw [setAddr_addrs, if_neg (Ne.symm hj)]
      rw [← addrAt_congr hKeep q, addrAt, addrAt, dif_neg hq, dif_neg hq, hLast]

/-- The places of an inode after an entry of its indirect block was set. -/
theorem addrAt_setIndirect {B' : Disk} {j : Nat} (hj : j < NINDIRECT)
    (hb : b < 2 ^ 32) (hInd : addrAt B di NDIRECT ≠ 0)
    (hSet : B' (addrAt B di NDIRECT) = setIndirect (B (addrAt B di NDIRECT)) j b) (q : Nat) :
    addrAt B' di q = if q = j + (NDIRECT + 1) then b else addrAt B di q := by
  rw [addrAt_last] at hInd hSet
  have hne : di.addrs (Fin.last NDIRECT) ≠ 0 := fun h0 => hInd (by rw [h0]; rfl)
  unfold addrAt
  split
  · rw [if_neg (by omega)]
  · split
    · rename_i hOut
      rw [if_neg]
      intro hq
      rcases hOut with h0 | h0
      · exact hne h0
      · omega
    · rw [hSet]
      split
      · rename_i hq
        rw [hq, Nat.add_sub_cancel, indirect_setIndirect_same hj hb]
      · rw [indirect_setIndirect_other (by omega)]

theorem RepD.free_ne_zero (h : RepD D U g c) (hb : b ∈ c.freeBlocks) : b ≠ 0 := by
  have := h.free_ge hb
  have := h.layout.bmap_lt
  omega

theorem take_buf_of_ne {x : Nat} (hb : b < c.sb.size) (hne : x ≠ b)
    (hMap : ∀ b < c.sb.size, x ≠ c.sb.bblock b) : (c.take b).buf x = c.buf x := by
  rw [Core.take, Core.put_buf, upd_of_ne hne, Core.put_buf, upd_of_ne (hMap b hb)]

/-- A place of the inode itself is filled. -/
theorem RepD.attach_slot (h : RepD D U g c) (hr : r ∈ g.refs) (hLoaded : r.inum ∈ g.loaded)
    {j : Fin (NDIRECT + 1)} (hEmpty : (D r.inum).addrs j = 0) (hb : b ∈ c.freeBlocks) :
    Grown D U g r.inum c
        ((c.take b).setIp r.slot
          { c.itable r.slot with din := Dinode.setAddr (D r.inum) j b })
        (Dinode.setAddr (D r.inum) j b) (insert b (g.node r.inum).used) {j.val} ∧
      ∀ q, addrAt (c.take b).buf (Dinode.setAddr (D r.inum) j b) q =
        if q = j then b else addrAt c.buf (D r.inum) q := by
  have hL := h.layout
  have hGe := h.free_ge hb
  obtain ⟨hLt, hFree⟩ := mem_freeBlocks.mp hb
  have hType := h.table.typed _ hLoaded
  have hi := h.inum_lt hr
  have hKeep : ∀ x, InUse c.sb c.buf x → (c.take b).buf x = c.buf x := by
    intro x hx
    refine take_buf hL hLt hx.1 fun hEq => ?_
    rw [← hEq, hx.2.2] at hFree
    exact absurd hFree (by decide)
  have hPlaces : ∀ q, addrAt (c.take b).buf (Dinode.setAddr (D r.inum) j b) q =
      if q = j then b else addrAt c.buf (D r.inum) q :=
    addrAt_setAddr hEmpty (Nat.lt_trans hLt hL.size_lt) (upd_self ..)
      fun hne => hKeep _ (h.inUse hi hType hne)
  have hZero : addrAt c.buf (D r.inum) j = 0 := by
    rw [addrAt_addrs, hEmpty]
    rfl
  refine ⟨⟨?_, rfl, Finset.subset_insert _ _, fun q hq => ?_, fun x hx hMap => ?_, fun P hP => ?_⟩,
    hPlaces⟩
  · exact h.attach hi hType (p := j) hZero hb rfl
      (h.table.setDin hr hType) (fun x hx => marked_take (bblock_ne_data hL hGe hx))
      (fun j hj => dinodeAt_take hL hGe hj) rfl hPlaces (fun x hx _ => hKeep x hx)
      (fun x hx => take_unlogged hx)
  · have hqj : q ≠ j := fun hEq => hq (hEq ▸ hZero)
    rw [Core.setIp_buf, hPlaces, if_neg hqj]
  · exact take_buf_of_ne hLt (fun hxb => hx (hxb ▸ Finset.mem_insert_self ..)) hMap
  · have hFill := missing_fill (Finset.singleton_subset_iff.mp hP) hZero (h.free_ne_zero hb) hPlaces
    have hErase := Finset.card_erase_add_one hb
    rw [← take_freeBlocks hL hGe] at hErase
    show missing (c.take b).buf _ P + _ = _ + (c.take b).freeBlocks.card
    omega

theorem take_ne {x : Nat} (hb : b ∈ c.freeBlocks) (hx : InUse c.sb c.buf x) : x ≠ b := by
  intro hEq
  have hFree := (mem_freeBlocks.mp hb).2
  rw [← hEq, hx.2.2] at hFree
  exact absurd hFree (by decide)

/-- An entry of the inode's indirect block is filled. -/
theorem RepD.attach_entry (h : RepD D U g c) (hr : r ∈ g.refs) (hLoaded : r.inum ∈ g.loaded)
    {j : Nat} (hj : j < NINDIRECT) (hInd : (D r.inum).addrs (Fin.last NDIRECT) ≠ 0)
    (hEmpty : addrAt c.buf (D r.inum) (j + (NDIRECT + 1)) = 0) (hb : b ∈ c.freeBlocks) :
    Grown D U g r.inum c
        ((c.take b).put (addrAt c.buf (D r.inum) NDIRECT)
          (setIndirect (c.buf (addrAt c.buf (D r.inum) NDIRECT)) j b))
        (D r.inum) (insert b (g.node r.inum).used) {j + (NDIRECT + 1)} ∧
      ∀ q, addrAt ((c.take b).put (addrAt c.buf (D r.inum) NDIRECT)
        (setIndirect (c.buf (addrAt c.buf (D r.inum) NDIRECT)) j b)).buf (D r.inum) q =
        if q = j + (NDIRECT + 1) then b else addrAt c.buf (D r.inum) q := by
  have hL := h.layout
  have hGe := h.free_ge hb
  obtain ⟨hLt, hFree⟩ := mem_freeBlocks.mp hb
  have hType := h.table.typed _ hLoaded
  have hi := h.inum_lt hr
  have hne : addrAt c.buf (D r.inum) NDIRECT ≠ 0 := by
    rw [addrAt_last]
    exact fun h0 => hInd (BitVec.eq_of_toNat_eq h0)
  have hUse := h.inUse hi hType hne
  have hPlaces : ∀ q, addrAt ((c.take b).put (addrAt c.buf (D r.inum) NDIRECT)
      (setIndirect (c.buf (addrAt c.buf (D r.inum) NDIRECT)) j b)).buf (D r.inum) q =
      if q = j + (NDIRECT + 1) then b else addrAt c.buf (D r.inum) q :=
    addrAt_setIndirect hj (Nat.lt_trans hLt hL.size_lt) hne (upd_self ..)
  have hMarks : ∀ x < c.sb.size, marked c.sb ((c.take b).put (addrAt c.buf (D r.inum) NDIRECT)
      (setIndirect (c.buf (addrAt c.buf (D r.inum) NDIRECT)) j b)).buf x =
      marked c.sb (c.take b).buf x := fun x hx => by
    rw [Core.put_buf, marked_upd (bblock_ne_data hL hUse.1 hx)]
  refine ⟨⟨?_, rfl, Finset.subset_insert _ _, fun q hq => ?_, fun x hx hMap => ?_, fun P hP => ?_⟩,
    hPlaces⟩
  rotate_left
  · have hqj : q ≠ j + (NDIRECT + 1) := fun hEq => hq (hEq ▸ hEmpty)
    rw [hPlaces, if_neg hqj]
  · have hInd' : x ≠ addrAt c.buf (D r.inum) NDIRECT := fun hEq => hx
      (Finset.mem_insert_of_mem (((h.nodes _ hi).used hType x).mpr ⟨hEq ▸ hne, NDIRECT, hEq.symm⟩))
    rw [Core.put_buf, upd_of_ne hInd']
    exact take_buf_of_ne hLt (fun hxb => hx (hxb ▸ Finset.mem_insert_self ..)) hMap
  · have hFill := missing_fill (Finset.singleton_subset_iff.mp hP) hEmpty (h.free_ne_zero hb) hPlaces
    have hErase := Finset.card_erase_add_one hb
    rw [← take_freeBlocks hL hGe] at hErase
    have hFree' : ((c.take b).put (addrAt c.buf (D r.inum) NDIRECT)
        (setIndirect (c.buf (addrAt c.buf (D r.inum) NDIRECT)) j b)).freeBlocks =
        (c.take b).freeBlocks :=
      Finset.filter_congr fun x hx => iff_of_eq (congrArg (· = false) (hMarks x (Finset.mem_range.mp hx)))
    rw [hFree']
    omega
  refine h.attach hi hType (p := j + (NDIRECT + 1)) hEmpty hb rfl (by rw [upd_eta]; exact h.table)
    ?_ ?_ rfl hPlaces ?_ ?_
  · intro x hx
    rw [hMarks x hx]
    exact marked_take (bblock_ne_data hL hGe hx)
  · intro i hi'
    have := iblock_lt_nmeta hL hi'
    rw [Core.put_buf, dinodeAt_upd (by have := hUse.1; omega)]
    exact dinodeAt_take hL hGe hi'
  · intro x hx hxInd
    rw [Core.put_buf, upd_of_ne hxInd]
    exact take_buf hL hLt hx.1 (take_ne hb hx)
  · intro x hx
    exact take_unlogged (put_unlogged hx).2

/-- `ip->addrs[j]`, filled if it was empty. -/
theorem bmapSlot_spec (h : RepD D U g c) (hr : r ∈ g.refs) (hLoaded : r.inum ∈ g.loaded)
    (j : Fin (NDIRECT + 1))
    (hOut : (D r.inum).addrs j = 0 → c.freeBlocks = ∅ → E .ballocOutOfBlocks) :
    wp E (bmapSlot r.slot j) (fun b c' =>
      ((D r.inum).addrs j ≠ 0 ∧ b = ((D r.inum).addrs j).toNat ∧ c' = c) ∨
      ((D r.inum).addrs j = 0 ∧ b ∈ c.freeBlocks ∧ c' = (c.take b).setIp r.slot
        { c.itable r.slot with din := Dinode.setAddr (D r.inum) j b })) c := by
  have hDin := h.din hr hLoaded
  rw [bmapSlot, wp_bind, wp_inode, Inode.addr, hDin, wp_ite]
  constructor
  · intro h0
    have hZero : (D r.inum).addrs j = 0 := BitVec.eq_of_toNat_eq h0
    rw [wp_bind]
    refine (balloc_spec (hOut hZero)).mono ?_
    rintro b c' ⟨hb, -, rfl⟩
    rw [wp_bind, wp_setDin, wp_pure]
    refine Or.inr ⟨hZero, hb, ?_⟩
    rw [Core.take_itable, hDin]
  · intro hne
    rw [wp_pure]
    exact Or.inl ⟨fun h0 => hne (by rw [h0]; rfl), rfl, rfl⟩

/-- The second half of `bmap`: entry `j` of the indirect block. -/
theorem bmapEntry_spec (h : RepD D U g c) (hr : r ∈ g.refs) (hLoaded : r.inum ∈ g.loaded)
    {j : Nat} (hj : j < NINDIRECT) (hInd : (D r.inum).addrs (Fin.last NDIRECT) ≠ 0)
    (hOut : addrAt c.buf (D r.inum) (j + (NDIRECT + 1)) = 0 → c.freeBlocks = ∅ →
      E .ballocOutOfBlocks) :
    wp E (bmapEntry ((D r.inum).addrs (Fin.last NDIRECT)).toNat j)
      (fun b c' => ∃ u, Grown D U g r.inum c c' (D r.inum) u {j + (NDIRECT + 1)} ∧
        addrAt c'.buf (D r.inum) (j + (NDIRECT + 1)) = b ∧ b ≠ 0 ∧
        (addrAt c.buf (D r.inum) (j + (NDIRECT + 1)) ≠ 0 → c' = c)) c := by
  have hAt := addrAt_entry (B := c.buf) hj hInd
  have hLast := addrAt_last c.buf (D r.inum)
  rw [bmapEntry, wp_bind, wp_bread]
  show wp E (if indirect _ j = 0 then _ else _) _ c
  rw [← hAt, wp_ite]
  constructor
  · intro h0
    rw [wp_bind]
    refine (balloc_spec (hOut h0)).mono ?_
    rintro b c' ⟨hb, -, rfl⟩
    obtain ⟨hGrown, hPlaces⟩ := h.attach_entry hr hLoaded hj hInd h0 hb
    rw [wp_update, wp_pure, ← hLast]
    exact ⟨_, hGrown, (hPlaces _).trans (if_pos rfl), h.free_ne_zero hb, fun hne => absurd h0 hne⟩
  · intro hne
    rw [wp_pure]
    exact ⟨_, Grown.refl h _ _, rfl, hne, fun _ => rfl⟩

/-- The places `bmap` looks at for block index `bn`. -/
def needs (bn : Nat) : Finset Nat := if bn < NDIRECT then {bn} else {NDIRECT, bn + 1}

theorem place_mem_needs (bn : Nat) : place bn ∈ needs bn := by
  unfold place needs
  split <;> simp

/-- After `bmap` none of the places it looks at is empty. -/
theorem needs_filled {bn : Nat} (h : addrAt B di (place bn) ≠ 0) :
    ∀ p ∈ needs bn, addrAt B di p ≠ 0 := by
  intro p hp
  unfold needs at hp
  unfold place at h
  split at hp
  · rename_i hDirect
    rw [if_pos hDirect] at h
    rwa [Finset.mem_singleton.mp hp]
  · rename_i hDirect
    rw [if_neg hDirect] at h
    rcases Finset.mem_insert.mp hp with rfl | hp
    · intro h0
      rw [addrAt_last] at h0
      exact h (addrAt_of_last_zero (by omega) (BitVec.eq_of_toNat_eq h0))
    · rwa [Finset.mem_singleton.mp hp]

/-- `bmap` returns the block of block index `bn`. When the index has one, nothing changes. -/
theorem bmap_spec (h : RepD D U g c) (hr : r ∈ g.refs) (hLoaded : r.inum ∈ g.loaded) {bn : Nat}
    (hbn : bn < MAXFILE)
    (hOut : c.freeBlocks.card < missing c.buf (D r.inum) (needs bn) → E .ballocOutOfBlocks) :
    wp E (bmap r.slot bn) (fun b c' => ∃ di u, Grown D U g r.inum c c' di u (needs bn) ∧
      addrAt c'.buf di (place bn) = b ∧ b ≠ 0 ∧
      (addrAt c.buf (D r.inum) (place bn) ≠ 0 → c' = c ∧ di = D r.inum)) c := by
  have hM : MAXFILE = NDIRECT + NINDIRECT := rfl
  have hi := h.inum_lt hr
  have hType := h.table.typed _ hLoaded
  -- no free block, and one of the places is empty
  have hNone : ∀ p ∈ needs bn, addrAt c.buf (D r.inum) p = 0 → c.freeBlocks = ∅ →
      E .ballocOutOfBlocks := fun p hp h0 he => hOut (by
    rw [he, Finset.card_empty]
    exact Finset.card_pos.mpr ⟨p, Finset.mem_filter.mpr ⟨hp, h0⟩⟩)
  unfold bmap
  split
  · -- a direct block
    rename_i hDirect
    have hPlace : place bn = bn := if_pos hDirect
    have hNeeds : needs bn = {bn} := if_pos hDirect
    rw [hPlace]
    rw [hNeeds] at hNone ⊢
    have hAt := addrAt_addrs c.buf (D r.inum) ⟨bn, Nat.lt_succ_of_lt hDirect⟩
    refine (bmapSlot_spec h hr hLoaded _ fun h0 he =>
      hNone bn (Finset.mem_singleton_self bn) (by rw [hAt, h0]; rfl) he).mono ?_
    rintro b c' (⟨hne, rfl, rfl⟩ | ⟨hZero, hb, rfl⟩)
    · exact ⟨_, _, Grown.refl h _ _, hAt, fun h0 => hne (BitVec.eq_of_toNat_eq h0),
        fun _ => ⟨rfl, rfl⟩⟩
    · obtain ⟨hGrown, hPlaces⟩ := h.attach_slot hr hLoaded hZero hb
      exact ⟨_, _, hGrown, (hPlaces bn).trans (if_pos rfl), h.free_ne_zero hb,
        fun hne => absurd (by rw [hAt, hZero]; rfl) hne⟩
  · rename_i hDirect
    have hPlace : place bn = bn - NDIRECT + (NDIRECT + 1) := by
      rw [place, if_neg hDirect]
      omega
    have hj : bn - NDIRECT < NINDIRECT := by omega
    have hNeeds : needs bn = {NDIRECT, bn - NDIRECT + (NDIRECT + 1)} := by
      rw [needs, if_neg hDirect, ← hPlace, place, if_neg hDirect]
    have hLastMem : NDIRECT ∈ needs bn := by
      rw [hNeeds]
      exact Finset.mem_insert_self ..
    have hEntryMem : bn - NDIRECT + (NDIRECT + 1) ∈ needs bn := hPlace ▸ place_mem_needs bn
    have hEntrySub := Finset.singleton_subset_iff.mpr hEntryMem
    rw [hPlace]
    rw [if_pos hj, wp_bind]
    refine (bmapSlot_spec h hr hLoaded _ fun h0 he =>
      hNone NDIRECT hLastMem (by rw [addrAt_last, h0]; rfl) he).mono ?_
    rintro ind c₁ (⟨hne, rfl, rfl⟩ | ⟨hZero, hb, rfl⟩)
    · refine (bmapEntry_spec h hr hLoaded hj hne fun h0 he => hNone _ hEntryMem h0 he).mono ?_
      rintro b c' ⟨u, hGrown, hAt, hb0, hHit⟩
      exact ⟨_, u, hGrown.mono hEntrySub, hAt, hb0, fun hne => ⟨hHit hne, rfl⟩⟩
    · -- a new indirect block, then an entry in it
      obtain ⟨hGrown, hPlaces⟩ := h.attach_slot hr hLoaded hZero hb
      have hEmpty := addrAt_of_last_zero (B := c.buf) (p := bn - NDIRECT + (NDIRECT + 1)) (by omega)
        hZero
      have hLast := (addrAt_last ..).symm.trans ((hPlaces NDIRECT).trans (if_pos rfl))
      have hne : (Dinode.setAddr (D r.inum) (Fin.last NDIRECT) ind).addrs (Fin.last NDIRECT) ≠ 0 := by
        intro h0
        rw [h0] at hLast
        exact h.free_ne_zero hb hLast.symm
      have hSelf := upd_self D r.inum (Dinode.setAddr (D r.inum) (Fin.last NDIRECT) ind)
      have hGrown := hGrown.mono (Finset.singleton_subset_iff.mpr hLastMem)
      have hEntry := bmapEntry_spec (E := E) hGrown.rep hr hLoaded hj (by rwa [hSelf]) fun h0 he =>
        hOut (by
          have hFree := hGrown.free (needs bn) subset_rfl
          rw [hSelf] at h0
          rw [he, Finset.card_empty, Nat.add_zero] at hFree
          have hPos : 0 < missing _ _ (needs bn) :=
            Finset.card_pos.mpr ⟨_, Finset.mem_filter.mpr ⟨hEntryMem, h0⟩⟩
          omega)
      rw [hSelf, hLast] at hEntry
      refine hEntry.mono ?_
      rintro b c' ⟨u, hGrown', hAt, hb0, -⟩
      exact ⟨_, u, hGrown.trans rfl (hGrown'.mono hEntrySub), hAt, hb0, fun hne => absurd hEmpty hne⟩

/-! ## itrunc -/

/-- From `c` on, the blocks at the places `P` of the inode `di` were freed. -/
structure Freed (di : Dinode) (c : Core) (P : Set Nat) (c' : Core) : Prop where
  sb     : c'.sb = c.sb
  marks  : ∀ x < c.sb.size, marked c.sb c'.buf x = true ↔
    marked c.sb c.buf x = true ∧ ¬ (x ≠ 0 ∧ ∃ p ∈ P, addrAt c.buf di p = x)
  inodes : ∀ j < c.sb.ninodes, dinodeAt c.sb c'.buf j = dinodeAt c.sb c.buf j
  buf    : ∀ x, c.sb.nmeta ≤ x → c'.buf x = c.buf x
  logged : ∀ x, c'.buf x ≠ c'.disk x → c.buf x ≠ c.disk x

theorem Freed.refl (di : Dinode) (c : Core) : Freed di c ∅ c where
  sb := rfl
  marks := by simp
  inodes _ _ := rfl
  buf _ _ := rfl
  logged _ h := h

theorem Freed.congr {P P' : Set Nat} (h : Freed di c P c')
    (hP : ∀ p, addrAt c.buf di p ≠ 0 → (p ∈ P' ↔ p ∈ P)) : Freed di c P' c' :=
  { h with
    marks := fun x hx => by
      rw [h.marks x hx]
      refine and_congr_right fun _ => not_congr (and_congr_right fun hx0 => ?_)
      constructor
      · rintro ⟨p, hp, rfl⟩
        exact ⟨p, (hP p hx0).mpr hp, rfl⟩
      · rintro ⟨p, hp, rfl⟩
        exact ⟨p, (hP p hx0).mp hp, rfl⟩ }

/-- The table plays no part in it. -/
theorem Freed.setIp {P : Set Nat} (h : Freed di c P c') (k : Nat) (ip : Inode) :
    Freed di c P (c'.setIp k ip) :=
  { h with }

/-- One more place of inode `i` is freed. -/
theorem Freed.bfree {p : Nat} {P : Set Nat} (h : RepD D U g c) (hi : i < c.sb.ninodes)
    (hType : (D i).type ≠ 0) (hp : addrAt c.buf (D i) p ≠ 0) (hNew : p ∉ P)
    (hF : Freed (D i) c P c') :
    wp E (bfree (addrAt c.buf (D i) p))
      (fun _ c'' => Freed (D i) c (insert p P) c'' ∧ c''.itable = c'.itable) c' := by
  obtain ⟨hGe, hLt, hMark⟩ := h.inUse hi hType hp
  have hMarked : marked c'.sb c'.buf (addrAt c.buf (D i) p) = true := by
    rw [hF.sb, hF.marks _ hLt]
    refine ⟨hMark, ?_⟩
    rintro ⟨-, q, hq, hEq⟩
    exact hNew ((h.place_unique hi hi hType hType hp hEq.symm).2 ▸ hq)
  have hL := h.layout
  refine (bfree_spec hMarked).mono ?_
  rintro _ c'' rfl
  refine ⟨?_, rfl⟩
  exact {
    sb := hF.sb
    marks := fun x hx => by
      have hUn := marked_unmark (c := c') (addrAt c.buf (D i) p) x
      rw [hF.sb] at hUn
      rw [hUn, Bool.and_eq_true, decide_eq_true_eq, hF.marks x hx]
      constructor
      · rintro ⟨hne, hm, hNot⟩
        refine ⟨hm, ?_⟩
        rintro ⟨hx0, q, hq | hq, hEq⟩
        · exact hne (by rw [← hEq, hq])
        · exact hNot ⟨hx0, q, hq, hEq⟩
      · rintro ⟨hm, hNot⟩
        refine ⟨fun hEq => hNot ⟨hEq ▸ hp, p, Or.inl rfl, hEq.symm⟩, hm, ?_⟩
        rintro ⟨hx0, q, hq, hEq⟩
        exact hNot ⟨hx0, q, Or.inr hq, hEq⟩
    inodes := fun j hj => by
      have := dinodeAt_unmark (c := c') (by rwa [hF.sb]) (addrAt c.buf (D i) p) (i := j)
        (by rwa [hF.sb])
      rw [hF.sb] at this
      rw [this, hF.inodes j hj]
    buf := fun x hx => by
      rw [unmark_buf (by rwa [hF.sb]) (by rwa [hF.sb]) (by rwa [hF.sb]), hF.buf x hx]
    logged := fun x hx => hF.logged x (put_unlogged hx).2 }

/-- The inode after the direct blocks not in `l` were freed. -/
def cleared (di : Dinode) (l : List (Fin NDIRECT)) : Dinode :=
  { di with addrs := fun q => if q.val < NDIRECT ∧ ∀ j ∈ l, q ≠ j.castSucc then 0 else di.addrs q }

theorem setAddr_cleared {x : Fin NDIRECT} {xs : List (Fin NDIRECT)} (hx : x ∉ xs) :
    Dinode.setAddr (cleared di (x :: xs)) x.castSucc 0 = cleared di xs := by
  unfold Dinode.setAddr cleared
  congr 1
  funext q
  simp only [upd, List.mem_cons, forall_eq_or_imp]
  by_cases hq : q = x.castSucc
  · subst hq
    rw [if_pos rfl, if_pos]
    · rfl
    · exact ⟨x.isLt, fun j hj hEq => hx (Fin.castSucc_injective _ hEq ▸ hj)⟩
  · simp only [hq, if_false, ne_eq, not_false_eq_true, true_and]

theorem cleared_of_zero {x : Fin NDIRECT} {xs : List (Fin NDIRECT)}
    (h0 : di.addrs x.castSucc = 0) : cleared di (x :: xs) = cleared di xs := by
  unfold cleared
  congr 1
  funext q
  simp only [List.mem_cons, forall_eq_or_imp]
  by_cases hq : q = x.castSucc
  · subst hq
    rw [h0, ite_self, ite_self]
  · simp only [hq, ne_eq, not_false_eq_true, true_and]

theorem cleared_addr {x : Fin NDIRECT} {xs : List (Fin NDIRECT)} :
    (cleared di (x :: xs)).addrs x.castSucc = di.addrs x.castSucc := by
  have hIn : ¬ (x.castSucc.val < NDIRECT ∧ ∀ j ∈ x :: xs, x.castSucc ≠ j.castSucc) := by
    rintro ⟨-, hNot⟩
    exact hNot x List.mem_cons_self rfl
  simp only [cleared, if_neg hIn]

theorem itrunc_direct (h : RepD D U g c) (hr : r ∈ g.refs) (hLoaded : r.inum ∈ g.loaded) :
    wp E ((List.finRange NDIRECT).forM (itruncDirect r.slot))
      (fun _ c' => Freed (D r.inum) c {p | p < NDIRECT} c' ∧
        c'.itable = upd c.itable r.slot
          { c.itable r.slot with din := cleared (D r.inum) [] }) c := by
  have hi := h.inum_lt hr
  have hType := h.table.typed _ hLoaded
  -- `l` are the direct blocks still to be freed
  let I (l : List (Fin NDIRECT)) (c' : Core) : Prop :=
    l.Nodup ∧ Freed (D r.inum) c {p | p < NDIRECT ∧ ∀ j ∈ l, p ≠ j.val} c' ∧
      c'.itable = upd c.itable r.slot { c.itable r.slot with din := cleared (D r.inum) l }
  refine (wp_forM I ?_ (List.finRange NDIRECT) ?_).mono ?_
  · rintro x xs s ⟨hNodup, hF, hT⟩
    obtain ⟨hx, hxs⟩ := List.nodup_cons.mp hNodup
    have hAt : (s.itable r.slot).addr x.castSucc = addrAt c.buf (D r.inum) x.castSucc := by
      rw [hT, upd_self, Inode.addr, cleared_addr, addrAt_addrs]
    have hGrow : ∀ p, p ∈ insert x.val {p | p < NDIRECT ∧ ∀ j ∈ x :: xs, p ≠ j.val} ↔
        p ∈ {p | p < NDIRECT ∧ ∀ j ∈ xs, p ≠ j.val} := by
      intro p
      simp only [List.mem_cons, forall_eq_or_imp, Set.mem_insert_iff, Set.mem_ofPred_eq]
      constructor
      · rintro (rfl | ⟨hp, -, hNot⟩)
        · exact ⟨x.isLt, fun j hj hEq => hx (Fin.ext hEq ▸ hj)⟩
        · exact ⟨hp, hNot⟩
      · rintro ⟨hp, hNot⟩
        by_cases hpx : p = x.val
        · exact Or.inl hpx
        · exact Or.inr ⟨hp, hpx, hNot⟩
    rw [itruncDirect, wp_bind, wp_inode, hAt, wp_when]
    constructor
    · intro hne
      rw [wp_bind]
      refine (hF.bfree h hi hType hne ?_).mono ?_
      · rintro ⟨-, hNot⟩
        exact hNot x List.mem_cons_self rfl
      · rintro _ s' ⟨hF', hT'⟩
        rw [wp_setDin]
        refine ⟨hxs, (hF'.setIp _ _).congr fun p _ => (hGrow p).symm, ?_⟩
        rw [Core.setIp_itable, hT', hT, upd_self, upd_upd, setAddr_cleared hx]
    · intro h0
      rw [not_not] at h0
      have hZero : (D r.inum).addrs x.castSucc = 0 := by
        rw [addrAt_addrs] at h0
        exact BitVec.eq_of_toNat_eq h0
      refine ⟨hxs, hF.congr fun p hp => ?_, by rw [hT, cleared_of_zero hZero]⟩
      rw [← hGrow p, Set.mem_insert_iff]
      constructor
      · rintro (rfl | hIn)
        · exact absurd h0 hp
        · exact hIn
      · exact Or.inr
  · refine ⟨List.nodup_finRange _, (Freed.refl _ c).congr fun p _ => ?_, ?_⟩
    · simp only [Set.mem_ofPred_eq, Set.mem_empty_iff_false, iff_false, not_and, not_forall]
      intro hp
      exact ⟨⟨p, hp⟩, List.mem_finRange _, fun hNot => hNot rfl⟩
    · have hAll : cleared (D r.inum) (List.finRange NDIRECT) = D r.inum := by
        unfold cleared
        have : ∀ q : Fin (NDIRECT + 1),
            ¬ (q.val < NDIRECT ∧ ∀ j ∈ List.finRange NDIRECT, q ≠ j.castSucc) := by
          rintro q ⟨hq, hNot⟩
          exact hNot ⟨q.val, hq⟩ (List.mem_finRange _) rfl
        simp only [this, if_false]
      rw [hAll, ← h.din hr hLoaded]
      exact (upd_eta ..).symm
  · rintro _ c' ⟨-, hF, hT⟩
    refine ⟨hF.congr fun p _ => ?_, hT⟩
    simp

theorem addrAt_out {p : Nat} (hp : NDIRECT + 1 + NINDIRECT ≤ p) :
    addrAt B di p = 0 := by
  rw [addrAt, dif_neg (by omega), if_pos (Or.inr (by omega))]

theorem itrunc_entries {c₁ : Core} (h : RepD D U g c) (hi : i < c.sb.ninodes)
    (hType : (D i).type ≠ 0) (hInd : (D i).addrs (Fin.last NDIRECT) ≠ 0)
    (hF₁ : Freed (D i) c {p | p < NDIRECT} c₁) :
    wp E ((List.range NINDIRECT).forM (itruncEntry (c.buf (addrAt c.buf (D i) NDIRECT))))
      (fun _ c' => Freed (D i) c {p | p ≠ NDIRECT} c' ∧ c'.itable = c₁.itable) c₁ := by
  -- `l` are the entries still to be freed
  let I (l : List Nat) (c' : Core) : Prop :=
    l.Nodup ∧ (∀ j ∈ l, j < NINDIRECT) ∧ c'.itable = c₁.itable ∧
      Freed (D i) c {p | p ≠ NDIRECT ∧ ∀ j ∈ l, p ≠ j + (NDIRECT + 1)} c'
  refine (wp_forM I ?_ (List.range NINDIRECT) ?_).mono ?_
  · rintro x xs s ⟨hNodup, hLt, hT, hF⟩
    obtain ⟨hx, hxs⟩ := List.nodup_cons.mp hNodup
    have hAt := addrAt_entry (B := c.buf) (hLt x List.mem_cons_self) hInd
    have hGrow : ∀ p, p ∈ insert (x + (NDIRECT + 1))
        {p | p ≠ NDIRECT ∧ ∀ j ∈ x :: xs, p ≠ j + (NDIRECT + 1)} ↔
        p ∈ {p | p ≠ NDIRECT ∧ ∀ j ∈ xs, p ≠ j + (NDIRECT + 1)} := by
      intro p
      simp only [List.mem_cons, forall_eq_or_imp, Set.mem_insert_iff, Set.mem_ofPred_eq]
      constructor
      · rintro (rfl | ⟨hp, -, hNot⟩)
        · refine ⟨by omega, fun j hj hEq => hx ?_⟩
          rwa [Nat.add_right_cancel hEq]
        · exact ⟨hp, hNot⟩
      · rintro ⟨hp, hNot⟩
        by_cases hpx : p = x + (NDIRECT + 1)
        · exact Or.inl hpx
        · exact Or.inr ⟨hp, hpx, hNot⟩
    have hLt' := fun j hj => hLt j (List.mem_cons_of_mem x hj)
    rw [itruncEntry, addrAt_last, ← hAt, wp_when]
    constructor
    · intro hne
      refine (hF.bfree h hi hType hne ?_).mono ?_
      · rintro ⟨-, hNot⟩
        exact hNot x List.mem_cons_self rfl
      · rintro _ s' ⟨hF', hT'⟩
        exact ⟨hxs, hLt', hT'.trans hT, hF'.congr fun p _ => (hGrow p).symm⟩
    · intro h0
      rw [not_not] at h0
      refine ⟨hxs, hLt', hT, hF.congr fun p hp => ?_⟩
      rw [← hGrow p, Set.mem_insert_iff]
      constructor
      · rintro (rfl | hIn)
        · exact absurd h0 hp
        · exact hIn
      · exact Or.inr
  · refine ⟨List.nodup_range, fun j hj => List.mem_range.mp hj, rfl, hF₁.congr fun p hp => ?_⟩
    have hLt : p < NDIRECT + 1 + NINDIRECT := by
      by_contra hge
      exact hp (addrAt_out (by omega))
    simp only [Set.mem_ofPred_eq, List.mem_range]
    constructor
    · rintro ⟨hne, hNot⟩
      by_contra hge
      exact hNot (p - (NDIRECT + 1)) (by omega) (by omega)
    · intro hlt
      exact ⟨by omega, fun j hj => by omega⟩
  · rintro _ c' ⟨-, -, hT, hF⟩
    exact ⟨hF.congr fun p _ => by simp, hT⟩

/-- `itrunc` up to the final `iupdate`: the inode has no blocks, in memory. -/
theorem itrunc_blocks (h : RepD D U g c) (hr : r ∈ g.refs) (hLoaded : r.inum ∈ g.loaded) :
    wp E (itruncBlocks r.slot)
      (fun _ c' => Freed (D r.inum) c Set.univ c' ∧
        c'.itable = upd c.itable r.slot
          { c.itable r.slot with din := { D r.inum with addrs := fun _ => 0 } }) c := by
  have hi := h.inum_lt hr
  have hType := h.table.typed _ hLoaded
  have hLast : (cleared (D r.inum) []).addrs (Fin.last NDIRECT) =
      (D r.inum).addrs (Fin.last NDIRECT) := by
    simp [cleared]
  have hNil : ∀ q : Fin (NDIRECT + 1), q ≠ Fin.last NDIRECT →
      (cleared (D r.inum) []).addrs q = 0 := by
    intro q hq
    have : q.val < NDIRECT := by
      have := q.isLt
      have hne : q.val ≠ NDIRECT := fun hEq => hq (Fin.ext hEq)
      omega
    simp [cleared, this]
  rw [itruncBlocks, wp_bind]
  refine (itrunc_direct h hr hLoaded).mono ?_
  rintro _ c₁ ⟨hF, hT⟩
  rw [itruncIndirect, wp_bind, wp_inode, hT, upd_self, Inode.addr, hLast, ← addrAt_last c.buf, wp_when]
  constructor
  · intro hne
    have hInd : (D r.inum).addrs (Fin.last NDIRECT) ≠ 0 := fun h0 => hne (by
      rw [addrAt_last, h0]; rfl)
    rw [wp_bind, wp_bread, hF.buf _ (h.inUse hi hType hne).1, wp_bind]
    refine (itrunc_entries h hi hType hInd hF).mono ?_
    rintro _ c₂ ⟨hF₂, hT₂⟩
    rw [wp_bind]
    refine (hF₂.bfree h hi hType hne (P := {p | p ≠ NDIRECT}) (fun hIn => hIn rfl)).mono ?_
    rintro _ c₃ ⟨hF₃, hT₃⟩
    rw [wp_setDin]
    refine ⟨(hF₃.setIp _ _).congr fun p _ => ?_, ?_⟩
    · simp only [Set.mem_univ, true_iff, Set.mem_insert_iff, Set.mem_ofPred_eq]
      exact Decidable.em _
    · rw [Core.setIp_itable, hT₃, hT₂, hT, upd_self, upd_upd]
      have hAll : upd (cleared (D r.inum) []).addrs (Fin.last NDIRECT) 0 = fun _ => 0 := by
        funext q
        rw [upd_apply]
        split
        · rfl
        · rename_i hq
          exact hNil q hq
      exact congrArg (fun a => upd c.itable r.slot
        { c.itable r.slot with din := { D r.inum with addrs := a } }) hAll
  · intro h0
    rw [not_not] at h0
    have hZero : (D r.inum).addrs (Fin.last NDIRECT) = 0 := by
      rw [addrAt_last] at h0
      exact BitVec.eq_of_toNat_eq h0
    refine ⟨hF.congr fun p hp => ?_, ?_⟩
    · simp only [Set.mem_univ, true_iff, Set.mem_ofPred_eq]
      by_contra hge
      by_cases hEq : p = NDIRECT
      · exact hp (hEq ▸ h0)
      · exact hp (addrAt_of_last_zero (by omega) hZero)
    · have hAll : (cleared (D r.inum) []).addrs = fun _ => 0 := by
        funext q
        by_cases hq : q = Fin.last NDIRECT
        · rw [hq, hLast, hZero]
        · exact hNil q hq
      rw [hT]
      exact congrArg (fun a => upd c.itable r.slot
        { c.itable r.slot with din := { D r.inum with addrs := a } }) hAll

end Xv6.Fs
