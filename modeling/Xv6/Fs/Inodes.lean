import Xv6.Fs.Bmap
import Mathlib.Algebra.Order.BigOperators.Group.Finset

/-!
# xv6 — the inode table and the inodes on disk

The operations on inodes as their callers see them: `iget` and `idup` add a pointer, `ilock` loads
the inode and locks its entry, `iput` drops a pointer and frees the inode with the last one if no
name is left, `ialloc` makes a free inode an empty one, `iupdate` brings the disk up to date,
`itrunc` empties an inode.
-/

namespace Xv6.Fs

open ByteBuf Hoare Owner

variable {sb : Superblock} {i : Nat} {t : Nat → Inode} {o : Multiset Ref}

variable {E : Panic → Prop} {c c' : Core} {D : Nat → Dinode} {U : Set Nat} {g : Abs} {r : Ref}

/-! ## The inode on disk -/

theorem iblock_mod_inj {j : Nat} (hBlk : sb.iblock i = sb.iblock j)
    (hMod : i % IPB = j % IPB) : i = j := by
  have hB : IPB = 16 := rfl
  unfold Superblock.iblock at hBlk
  rw [hB] at hBlk hMod
  omega

/-- Inode `i` is written to disk as `di`; its places stay what they were. -/
theorem RepD.store {g' : Abs} (h : RepD D U g c) (di : Dinode)
    (hi : i < c.sb.ninodes) (hG : g'.sb = g.sb) (hTable : TableOk c.sb (upd D i di) g' t)
    (hSame : ∀ j ≠ i, g'.node j = g.node j)
    (hPlaces : ∀ q, (if di.type = 0 then 0 else addrAt c.buf di q) = addrs c.sb D c.buf (i, q))
    (hFile : (D i).type ≠ T_DIR → di.type ≠ T_DIR ∨ ∀ q, addrs c.sb D c.buf (i, q) = 0)
    (hNode : NodeOk c.buf di (g'.node i) True) :
    RepD (upd D i di) (U \ {i}) g'
      { c.put (c.sb.iblock i) (Dinode.write (c.buf (c.sb.iblock i)) (i % IPB) di) with
        itable := t } := by
  have hL := h.layout
  have hBlk := iblock_lt_nmeta hL hi
  have hPos := hL.bmap_lt
  have hKeep : ∀ x, c.sb.nmeta ≤ x →
      upd c.buf (c.sb.iblock i) (Dinode.write (c.buf (c.sb.iblock i)) (i % IPB) di) x = c.buf x :=
    fun x hx => upd_of_ne (by omega)
  have hMarked : ∀ x, marked c.sb
      (upd c.buf (c.sb.iblock i) (Dinode.write (c.buf (c.sb.iblock i)) (i % IPB) di)) x =
      marked c.sb c.buf x := by
    intro x
    rw [marked, upd_of_ne (iblock_ne_bblock hL hi x).symm]
    rfl
  have hBlocks : di.type ≠ 0 → ∀ q, addrAt c.buf di q ≠ 0 → c.sb.nmeta ≤ addrAt c.buf di q := by
    intro hType q hq
    have hEq := hPlaces q
    rw [if_neg hType] at hEq
    rw [hEq] at hq ⊢
    exact (h.owns.sound _ hq).1
  have hMoved : ∀ y, Moved c.sb D c.buf i
      (upd c.buf (c.sb.iblock i) (Dinode.write (c.buf (c.sb.iblock i)) (i % IPB) di)) di y =
      addrs c.sb D c.buf y := by
    rintro ⟨j, q⟩
    unfold Moved
    by_cases hji : j = i
    · subst hji
      rw [if_pos rfl, ← hPlaces q]
      split
      · rfl
      · rename_i hType
        exact addrAt_congr (fun hne => hKeep _ (hBlocks hType _ hne)) q
    · rw [if_neg hji]
  refine h.change hi rfl hG hTable ?_ (fun j hji hj => ⟨hj, hji⟩) hSame ?_ ?_ ?_ ?_ ?_
  · intro j hj hjU
    by_cases hji : j = i
    · rw [hji, upd_self]
      show Dinode.read (upd _ _ _ _) _ = di
      rw [upd_self, Dinode.read_write_same di (Nat.mod_lt _ (by decide))]
    · rw [upd_of_ne hji, ← h.synced j hj (fun hIn => hjU ⟨hIn, hji⟩)]
      show Dinode.read (upd _ _ _ _) _ = _
      by_cases hEq : c.sb.iblock j = c.sb.iblock i
      · rw [hEq, upd_self, Dinode.read_write_other di (fun hMod => hji (iblock_mod_inj hEq hMod)),
          dinodeAt, hEq]
      · rw [upd_of_ne hEq, dinodeAt]
  · intro j hj hji hTj q hq
    exact hKeep _ (h.inUse hj hTj hq).1
  · exact (hNode.frame fun hType q hq => hKeep _ (hBlocks hType q hq)).imp fun _ => trivial
  · refine h.owns.congr hMoved fun x => ?_
    show _ ∧ _ ∧ marked _ _ _ = true ↔ _
    rw [Core.put_buf, hMarked]
    exact Iff.rfl
  · intro b hb
    show marked _ (Core.put _ _ _).buf _ = true
    rw [Core.put_buf, hMarked, h.system b hb]
  · intro b hb
    obtain ⟨-, hOld⟩ := put_unlogged hb
    obtain ⟨hGe, hPlain⟩ := h.logged b hOld
    refine ⟨hGe, fun y hy => ?_⟩
    have hy' : addrs c.sb D c.buf y = b := (hMoved y).symm.trans hy
    obtain ⟨hLast, hType⟩ := hPlain y hy'
    refine ⟨hLast, ?_⟩
    by_cases hyi : y.1 = i
    · rw [hyi, upd_self]
      refine (hFile (hyi ▸ hType)).resolve_right fun hNone => ?_
      have := hNone y.2
      rw [← hyi, hy'] at this
      omega
    · rw [upd_of_ne hyi]
      exact hType

/-- A change of the copy in memory that concerns no block. -/
theorem RepD.setDin {di : Dinode} {n : Node} (h : RepD D U g c) (hr : r ∈ g.refs)
    (hLoaded : r.inum ∈ g.loaded) (hType : di.type = (D r.inum).type)
    (hAddrs : di.addrs = (D r.inum).addrs) (hNode : NodeOk c.buf di n False) :
    RepD (upd D r.inum di) (insert r.inum U) (g.setNode r.inum n)
      (c.setIp r.slot { c.itable r.slot with din := di }) := by
  have hi := h.inum_lt hr
  have hTypeNe := h.table.typed _ hLoaded
  have hAt : ∀ q, addrAt c.buf di q = addrAt c.buf (D r.inum) q := by
    intro q
    unfold addrAt
    rw [hAddrs]
  have hMoved : ∀ y, Moved c.sb D c.buf r.inum c.buf di y = addrs c.sb D c.buf y := by
    rintro ⟨j, q⟩
    unfold Moved
    by_cases hji : j = r.inum
    · subst hji
      rw [if_pos rfl, if_neg (by rwa [hType]), hAt, addrs_of_alloc hi hTypeNe]
    · rw [if_neg hji]
  refine h.change hi rfl rfl ((h.table.setDin hr (by rwa [hType])).setNode _ _) ?_
    (fun j _ hj => Or.inr hj) (fun j hji => Abs.setNode_of_ne hji) (fun _ _ _ _ _ _ => rfl) ?_
    (h.owns.congr hMoved fun _ => Iff.rfl) h.system ?_
  · intro j hj hjU
    have hji : j ≠ r.inum := fun hEq => hjU (Or.inl hEq)
    rw [upd_of_ne hji]
    exact h.synced j hj fun hIn => hjU (Or.inr hIn)
  · rw [Abs.setNode_self]
    exact hNode.imp fun hNot => hNot (Or.inl rfl)
  · intro b hb
    obtain ⟨hGe, hPlain⟩ := h.logged b hb
    refine ⟨hGe, fun y hy => ?_⟩
    obtain ⟨hLast, hFile⟩ := hPlain y ((hMoved y).symm.trans hy)
    refine ⟨hLast, ?_⟩
    by_cases hyi : y.1 = r.inum
    · rw [hyi, upd_self, hType, ← hyi]
      exact hFile
    · rw [upd_of_ne hyi]
      exact hFile

theorem iupdate_spec (h : RepD D U g c) (hr : r ∈ g.refs) (hLoaded : r.inum ∈ g.loaded)
    (hSize : (g.node r.inum).size = (D r.inum).size.toNat) :
    wp E (iupdate r.slot) (fun _ c' => RepD D (U \ {r.inum}) g c' ∧
      ∀ x, x ≠ c.sb.iblock r.inum → c'.buf x = c.buf x) c := by
  have hi := h.inum_lt hr
  have hType := h.table.typed _ hLoaded
  rw [iupdate, wp_bind, wp_get, wp_bind, wp_inode, h.table.inum r hr, h.din hr hLoaded, wp_bind,
    wp_bread, wp_update_last]
  have hStore := h.store (D r.inum) hi rfl (by rw [upd_eta]; exact h.table) (fun _ _ => rfl)
    (fun q => by rw [if_neg hType, addrs_of_alloc hi hType]) Or.inl
    { h.nodes _ hi with size := fun _ _ => hSize }
  rw [upd_eta] at hStore
  exact ⟨hStore, fun x hx => upd_of_ne hx⟩

/-- The inode without its content. -/
def Node.empty (n : Node) : Node := { n with size := 0, used := ∅, holes := ∅ }

/-- After `iupdate` the disk is up to date again. -/
theorem RepD.rep (h : RepD D (insert i ∅ \ {i}) g c) : Rep g c := by
  have hU : (insert i (∅ : Set Nat)) \ {i} = ∅ := by simp
  rw [hU] at h
  exact ⟨D, h⟩

theorem itrunc_spec (h : Rep g c) (hr : r ∈ g.refs) (hLoaded : r.inum ∈ g.loaded) :
    wp E (itrunc r.slot) (fun _ c' => Rep (g.setNode r.inum (g.node r.inum).empty) c') c := by
  obtain ⟨D, h⟩ := h
  have hi := h.inum_lt hr
  have hType := h.table.typed _ hLoaded
  rw [itrunc, wp_bind]
  refine (itrunc_blocks h hr hLoaded).mono ?_
  rintro _ c₁ ⟨hF, hT⟩
  rw [wp_bind, wp_setDin, hT, upd_self]
  have hTrunc := h.truncate (c₁.setIp r.slot
      { c.itable r.slot with din := { D r.inum with size := 0, addrs := fun _ => 0 } }) hi hType
    hF.sb ?_ (fun x hx => ?_) hF.inodes hF.buf hF.logged
  · refine (iupdate_spec hTrunc hr hLoaded ?_).mono fun _ c' h' => h'.1.rep
    rw [Abs.setNode_self, upd_self]
    rfl
  · rw [Core.setIp_itable, hT, upd_upd]
    exact h.table.setDin hr hType
  · rw [Core.setIp_buf, hF.marks x hx, (h.nodes _ hi).used hType x]
    simp only [Set.mem_univ, true_and]

/-! ## Pointers -/

/-- One more pointer. -/
def Abs.addRef (g : Abs) (r : Ref) : Abs := { g with refs := r ::ₘ g.refs }

/-- The entry of `r` is locked and its inode loaded. -/
def Abs.lock (g : Abs) (r : Ref) : Abs :=
  { g with locks := insert r.slot g.locks, loaded := insert r.inum g.loaded }

def Abs.unlock (g : Abs) (k : Nat) : Abs := { g with locks := g.locks.erase k }

/-- Only the pointers `o` are left; what nobody points to is no longer loaded. -/
def Abs.keep (g : Abs) (o : Multiset Ref) : Abs :=
  { g with refs := o, loaded := {j | j ∈ g.loaded ∧ ∃ r ∈ o, r.inum = j} }

/-- A change of the table only. -/
theorem RepD.setTable (h : RepD D U g c) (g' : Abs) (hG : g'.sb = g.sb)
    (hNode : g'.node = g.node) (hTable : TableOk c.sb D g' t) :
    RepD D U g' { c with itable := t } :=
  { h with
    sb := h.sb.trans hG.symm
    table := hTable
    nodes := by
      rw [hNode]
      exact h.nodes }

theorem TableOk.ref_pos (h : TableOk sb D g t) {k : Nat} :
    0 < (t k).ref ↔ ∃ r ∈ g.refs, r.slot = k := by
  rw [h.ref k, Multiset.count_pos, Multiset.mem_map]

theorem TableOk.mem_of_ref (h : TableOk sb D g t) {k : Nat}
    (hk : 0 < (t k).ref) : (⟨k, (t k).inum⟩ : Ref) ∈ g.refs := by
  obtain ⟨r, hr, rfl⟩ := h.ref_pos.mp hk
  rw [h.inum r hr]
  exact hr

/-- A table with a single entry in use, for a loaded inode. -/
def oneEntry (i : Nat) (din : Dinode) (k : Nat) : Inode :=
  if k = 0 then { dev := ROOTDEV, inum := i, ref := 1, locked := false, valid := true, din := din }
  else Inode.empty

theorem tableOk_oneEntry (hRefs : g.refs = {⟨0, i⟩}) (hLocks : g.locks = ∅)
    (hLoaded : g.loaded = {i}) (hi : 1 ≤ i ∧ i < sb.ninodes) (hType : (D i).type ≠ 0) :
    TableOk sb D g (oneEntry i (D i)) := by
  have hAll : ∀ {P : Ref → Prop}, P ⟨0, i⟩ → ∀ r ∈ g.refs, P r := by
    intro P hP r hr
    rw [hRefs, Multiset.mem_singleton] at hr
    rw [hr]
    exact hP
  have hMem : i ∈ g.loaded := hLoaded ▸ Set.mem_singleton i
  refine {
    ref := fun k => ?_
    slot := hAll (show 0 < NINODE by decide)
    dev := hAll rfl
    inum := hAll rfl
    range := hAll hi
    uniq := hAll (hAll fun _ => rfl)
    valid := hAll (iff_of_true rfl hMem)
    copy := hAll fun _ => rfl
    loaded := fun j hj => ⟨⟨0, i⟩, by rw [hRefs, Multiset.mem_singleton], by rw [hLoaded] at hj; exact hj.symm⟩
    typed := fun j hj => by
      rw [hLoaded] at hj
      rwa [hj]
    locked := fun k => ?_
    held := fun k hk => absurd hk (by rw [hLocks]; exact Finset.notMem_empty k) }
  · rw [hRefs, Multiset.map_singleton, Multiset.count_singleton]
    unfold oneEntry
    split
    · rfl
    · rfl
  · rw [hLocks]
    refine iff_of_false ?_ (Finset.notMem_empty k)
    unfold oneEntry
    split
    · nofun
    · nofun

/-- A second pointer to an inode that has one. -/
theorem TableOk.addRef (h : TableOk sb D g t)
    (hr : r ∈ g.refs) :
    TableOk sb D (g.addRef r) (upd t r.slot { t r.slot with ref := (t r.slot).ref + 1 }) := by
  have hMem : ∀ r', r' ∈ (g.addRef r).refs → r' ∈ g.refs := by
    intro r' hr'
    rcases Multiset.mem_cons.mp hr' with rfl | hr'
    · exact hr
    · exact hr'
  have hField : ∀ {α : Type} (f : Inode → α), (∀ ip n, f { ip with ref := n } = f ip) → ∀ k,
      f (upd t r.slot { t r.slot with ref := (t r.slot).ref + 1 } k) = f (t k) := by
    intro α f hf k
    rw [upd_apply]
    split
    · rename_i hk
      rw [hf, hk]
    · rfl
  exact {
    ref := fun k => by
      rw [Abs.addRef, Multiset.map_cons, Multiset.count_cons, ← h.ref k, upd_apply]
      split
      · rename_i hk
        rw [hk]
      · rfl
    slot := fun r' hr' => h.slot r' (hMem r' hr')
    dev := fun r' hr' => by
      rw [hField Inode.dev fun _ _ => rfl]
      exact h.dev r' (hMem r' hr')
    inum := fun r' hr' => by
      rw [hField Inode.inum fun _ _ => rfl]
      exact h.inum r' (hMem r' hr')
    range := fun r' hr' => h.range r' (hMem r' hr')
    uniq := fun r₁ h₁ r₂ h₂ => h.uniq r₁ (hMem r₁ h₁) r₂ (hMem r₂ h₂)
    valid := fun r' hr' => by
      rw [hField Inode.valid fun _ _ => rfl]
      exact h.valid r' (hMem r' hr')
    copy := fun r' hr' => by
      rw [hField Inode.din fun _ _ => rfl]
      exact h.copy r' (hMem r' hr')
    loaded := fun i hi => by
      obtain ⟨r', hr', hEq⟩ := h.loaded i hi
      exact ⟨r', Multiset.mem_cons_of_mem hr', hEq⟩
    typed := h.typed
    locked := fun k => by
      rw [hField Inode.locked fun _ _ => rfl]
      exact h.locked k
    held := fun k hk => by
      obtain ⟨r', hr', hEq⟩ := h.held k hk
      exact ⟨r', Multiset.mem_cons_of_mem hr', hEq⟩ }

/-- The first pointer to an inode takes a free entry of the table. -/
theorem TableOk.recycle (h : TableOk sb D g t) {k : Nat}
    (hk : k < NINODE) (hFree : (t k).ref = 0) (hi : 1 ≤ i ∧ i < sb.ninodes)
    (hNew : ∀ r ∈ g.refs, r.inum ≠ i) :
    TableOk sb D (g.addRef ⟨k, i⟩)
      (upd t k { t k with dev := ROOTDEV, inum := i, ref := 1, valid := false }) := by
  have hSlot : ∀ r ∈ g.refs, r.slot ≠ k := by
    intro r hr hEq
    have := h.ref_pos.mpr ⟨r, hr, hEq⟩
    omega
  have hNotLoaded : i ∉ g.loaded := by
    intro hIn
    obtain ⟨r, hr, hEq⟩ := h.loaded i hIn
    exact hNew r hr hEq
  have hOld : ∀ r ∈ g.refs, upd t k
      { t k with dev := ROOTDEV, inum := i, ref := 1, valid := false } r.slot = t r.slot :=
    fun r hr => upd_of_ne (hSlot r hr)
  -- the new pointer, or one of the old ones
  have hSplit : ∀ {P : Ref → Prop}, P ⟨k, i⟩ → (∀ r ∈ g.refs, P r) →
      ∀ r ∈ (g.addRef ⟨k, i⟩).refs, P r := by
    intro P hP hAll r hr
    rcases Multiset.mem_cons.mp hr with rfl | hr
    · exact hP
    · exact hAll r hr
  refine {
    ref := fun k' => ?_
    slot := hSplit hk h.slot
    dev := hSplit (by rw [upd_self]) fun r hr => by rw [hOld r hr]; exact h.dev r hr
    inum := hSplit (by rw [upd_self]) fun r hr => by rw [hOld r hr]; exact h.inum r hr
    range := hSplit hi h.range
    uniq := ?_
    valid := hSplit ?_ fun r hr => by rw [hOld r hr]; exact h.valid r hr
    copy := hSplit (fun hIn => absurd hIn hNotLoaded) fun r hr => by
      rw [hOld r hr]; exact h.copy r hr
    loaded := fun j hj => ?_
    typed := h.typed
    locked := fun k' => ?_
    held := fun k' hk' => ?_ }
  · rw [Abs.addRef, Multiset.map_cons, Multiset.count_cons, ← h.ref k', upd_apply]
    split
    · rename_i hEq
      rw [hEq, hFree]
    · rfl
  · refine hSplit (hSplit (fun _ => rfl) fun r hr hEq => absurd hEq.symm (hNew r hr)) ?_
    intro r hr
    exact hSplit (fun hEq => absurd hEq (hNew r hr)) (h.uniq r hr)
  · rw [upd_self]
    exact ⟨fun hF => absurd hF Bool.false_ne_true, fun hIn => absurd hIn hNotLoaded⟩
  · obtain ⟨r, hr, hEq⟩ := h.loaded j hj
    exact ⟨r, Multiset.mem_cons_of_mem hr, hEq⟩
  · rw [upd_apply]
    split
    · rename_i hEq
      rw [hEq]
      exact h.locked k
    · exact h.locked k'
  · obtain ⟨r, hr, hEq⟩ := h.held k' hk'
    exact ⟨r, Multiset.mem_cons_of_mem hr, hEq⟩

theorem iget_spec (h : RepD D ∅ g c) (hi : 1 ≤ i ∧ i < g.sb.ninodes)
    (hOut : NINODE ≤ g.refs.card → E .igetNoInodes) :
    wp E (iget ROOTDEV i) (fun k c' => RepD D ∅ (g.addRef ⟨k, i⟩) c') c := by
  have hTab := h.table
  rw [← h.sb] at hi
  rw [iget, wp_bind, wp_get]
  split
  · rename_i k hFind
    have hk := List.find?_some hFind
    simp only [decide_eq_true_eq] at hk
    have hr := hTab.mem_of_ref hk.1
    rw [hk.2.2] at hr
    rw [wp_bind, wp_setInode, wp_pure]
    exact h.setTable _ rfl rfl (hTab.addRef hr)
  · rename_i hNone
    have hNew : ∀ r ∈ g.refs, r.inum ≠ i := by
      intro r hr hEq
      have hNot := List.find?_eq_none.mp hNone r.slot (List.mem_range.mpr (hTab.slot r hr))
      simp only [decide_eq_true_eq, not_and] at hNot
      exact hNot (hTab.ref_pos.mpr ⟨r, hr, rfl⟩) (hTab.dev r hr) (by rw [hTab.inum r hr, hEq])
    split
    · rename_i k hFind
      have hFree := List.find?_some hFind
      have hMem := List.mem_range.mp (List.mem_of_find?_eq_some hFind)
      rw [decide_eq_true_eq] at hFree
      rw [wp_bind, wp_setInode, wp_pure]
      exact h.setTable _ rfl rfl (hTab.recycle hMem hFree hi hNew)
    · -- every entry is pointed to, so there are at least as many pointers
      rename_i hFull
      rw [wp_throw]
      apply hOut
      have hPos : ∀ k ∈ Finset.range NINODE, 1 ≤ (g.refs.map Ref.slot).count k := by
        intro k hk
        have hNot := List.find?_eq_none.mp hFull k (List.mem_range.mpr (Finset.mem_range.mp hk))
        rw [decide_eq_true_eq, hTab.ref k] at hNot
        omega
      have hSum := Multiset.sum_count_eq_card (s := Finset.range NINODE) (m := g.refs.map Ref.slot)
        fun k hk => by
          obtain ⟨r, hr, rfl⟩ := Multiset.mem_map.mp hk
          exact Finset.mem_range.mpr (hTab.slot r hr)
      have hLe := Finset.card_nsmul_le_sum _ _ 1 hPos
      rw [Multiset.card_map] at hSum
      rw [hSum, Finset.card_range] at hLe
      simpa using hLe

theorem idup_spec (h : RepD D ∅ g c) (hr : r ∈ g.refs) :
    wp E (idup r.slot) (fun k c' => k = r.slot ∧ RepD D ∅ (g.addRef r) c') c := by
  rw [idup, wp_bind, wp_setInode, wp_pure]
  exact ⟨rfl, h.setTable _ rfl rfl (h.table.addRef hr)⟩

/-! ## Locks -/

/-- The entry of `r` changes in its lock, its valid bit and its copy. -/
theorem TableOk.setEntry (h : TableOk sb D g t)
    (ip : Inode) (locks : Finset Nat) (loaded : Set Nat) (hr : r ∈ g.refs)
    (hIp : ip = { t r.slot with locked := ip.locked, valid := ip.valid, din := ip.din })
    (hLoaded : ∀ i ≠ r.inum, i ∈ loaded ↔ i ∈ g.loaded)
    (hValid : ip.valid = true ↔ r.inum ∈ loaded)
    (hCopy : r.inum ∈ loaded → ip.din = D r.inum ∧ (D r.inum).type ≠ 0)
    (hLocks : ∀ k ≠ r.slot, k ∈ locks ↔ k ∈ g.locks)
    (hLocked : ip.locked = true ↔ r.slot ∈ locks) (hHeld : r.slot ∈ locks → r.inum ∈ loaded) :
    TableOk sb D { g with locks := locks, loaded := loaded } (upd t r.slot ip) := by
  have hSlot : ∀ r' ∈ g.refs, r' ≠ r → r'.slot ≠ r.slot ∧ r'.inum ≠ r.inum := fun r' hr' hne =>
    ⟨fun hs => hne (h.slot_unique hr hr' hs), fun hi => hne (h.uniq r' hr' r hr hi)⟩
  refine {
    ref := fun k => ?_
    slot := h.slot
    dev := fun r' hr' => ?_
    inum := fun r' hr' => ?_
    range := h.range
    uniq := h.uniq
    valid := fun r' hr' => ?_
    copy := fun r' hr' hIn => ?_
    loaded := fun i hi => ?_
    typed := fun i hi => ?_
    locked := fun k => ?_
    held := fun k hk => ?_ }
  · rw [← h.ref k, upd_apply]
    split
    · rename_i hk
      rw [hIp, hk]
    · rfl
  · rw [upd_apply]
    split
    · rename_i hk
      rw [hIp, ← hk]
      exact h.dev r' hr'
    · exact h.dev r' hr'
  · rw [upd_apply]
    split
    · rename_i hk
      rw [hIp, ← hk]
      exact h.inum r' hr'
    · exact h.inum r' hr'
  · by_cases hEq : r' = r
    · rw [hEq, upd_self]
      exact hValid
    · obtain ⟨hs, hi⟩ := hSlot r' hr' hEq
      rw [upd_of_ne hs]
      exact (h.valid r' hr').trans (hLoaded _ hi).symm
  · by_cases hEq : r' = r
    · subst hEq
      rw [upd_self]
      exact (hCopy hIn).1
    · obtain ⟨hs, hi⟩ := hSlot r' hr' hEq
      rw [upd_of_ne hs]
      exact h.copy r' hr' ((hLoaded _ hi).mp hIn)
  · by_cases hEq : i = r.inum
    · exact ⟨r, hr, hEq.symm⟩
    · exact h.loaded i ((hLoaded i hEq).mp hi)
  · by_cases hEq : i = r.inum
    · subst hEq
      exact (hCopy hi).2
    · exact h.typed i ((hLoaded i hEq).mp hi)
  · by_cases hEq : k = r.slot
    · rw [hEq, upd_self]
      exact hLocked
    · rw [upd_of_ne hEq]
      exact (h.locked k).trans (hLocks k hEq).symm
  · by_cases hEq : k = r.slot
    · subst hEq
      exact ⟨r, hr, rfl, hHeld hk⟩
    · obtain ⟨r', hr', hs, hIn⟩ := h.held k ((hLocks k hEq).mp hk)
      have hne : r' ≠ r := fun hrr => hEq (by rw [← hs, hrr])
      exact ⟨r', hr', hs, (hLoaded _ (hSlot r' hr' hne).2).mpr hIn⟩

theorem acquiresleep_spec (h : RepD D U g c) {Q : Unit → Core → Prop}
    (hBlocked : r.slot ∈ g.locks → E .blocked)
    (hQ : r.slot ∉ g.locks → (c.itable r.slot).locked = false →
      Q () (c.setIp r.slot { c.itable r.slot with locked := true })) :
    wp E (acquiresleep r.slot) Q c := by
  have hIff := h.table.locked r.slot
  rw [acquiresleep, wp_bind, wp_inode, wp_bind, wp_when]
  constructor
  · intro hLocked
    rw [wp_throw]
    exact hBlocked (hIff.mp hLocked)
  · intro hFree
    rw [wp_setInode]
    exact hQ (fun hIn => hFree (hIff.mpr hIn)) (by simpa using hFree)

theorem ilock_spec (h : RepD D ∅ g c) (hr : r ∈ g.refs)
    (hBlocked : r.slot ∈ g.locks → E .blocked)
    (hNoType : (g.node r.inum).type = 0 → E .ilockNoType) :
    wp E (ilock r.slot)
      (fun _ c' => r.slot ∉ g.locks ∧ (g.node r.inum).type ≠ 0 ∧ RepD D ∅ (g.lock r) c') c := by
  have hTab := h.table
  have hi := h.inum_lt hr
  have hType : (g.node r.inum).type = (D r.inum).type := (h.nodes _ hi).type
  have hRef : ¬ (c.itable r.slot).ref < 1 := by
    have := hTab.ref_pos.mpr ⟨r, hr, rfl⟩
    omega
  have hLocks : ∀ k ≠ r.slot, k ∈ insert r.slot g.locks ↔ k ∈ g.locks := fun k hk => by
    rw [Finset.mem_insert, or_iff_right hk]
  rw [ilock, wp_bind, wp_inode, wp_bind, wp_when]
  refine ⟨fun hLt => absurd hLt hRef, fun _ => ?_⟩
  rw [wp_bind]
  refine acquiresleep_spec h hBlocked fun hFree hUnlocked => ?_
  rw [wp_bind, wp_inode, Core.setIp_itable, upd_self, wp_when]
  constructor
  · -- read the inode from disk
    intro hInvalid
    have hNot : r.inum ∉ g.loaded := by
      intro hIn
      rw [(hTab.valid r hr).mpr hIn] at hInvalid
      exact absurd hInvalid (by decide)
    have hDisk : Core.dinode (c.setIp r.slot { c.itable r.slot with locked := true })
        (c.itable r.slot).inum = D r.inum := by
      rw [hTab.inum r hr]
      exact h.synced _ hi (Set.notMem_empty _)
    rw [wp_bind, wp_get]
    show wp E (do
      setInode r.slot fun ip => { ip with
        din := Core.dinode (c.setIp r.slot { c.itable r.slot with locked := true })
          (c.itable r.slot).inum, valid := true }
      when ((Core.dinode (c.setIp r.slot { c.itable r.slot with locked := true })
          (c.itable r.slot).inum).type = 0) (throw .ilockNoType)) _ _
    rw [hDisk, wp_bind, wp_setInode, wp_when, Core.setIp_itable, upd_self]
    constructor
    · intro h0
      rw [wp_throw]
      exact hNoType (hType.trans h0)
    · intro hne
      refine ⟨hFree, by rwa [hType], ?_⟩
      have hTab' := hTab.setEntry
        { c.itable r.slot with locked := true, din := D r.inum, valid := true }
        (insert r.slot g.locks) (insert r.inum g.loaded) hr rfl (fun i hi => by simp [hi]) (by simp)
        (fun _ => ⟨rfl, hne⟩) hLocks (by simp) (by simp)
      have := h.setTable (g.lock r) rfl rfl hTab'
      simpa [Core.setIp] using this
  · intro hValid
    have hIn : r.inum ∈ g.loaded := by
      rw [← hTab.valid r hr]
      simpa using hValid
    have hne := hTab.typed _ hIn
    refine ⟨hFree, by rwa [hType], ?_⟩
    have hTab' := hTab.setEntry { c.itable r.slot with locked := true }
      (insert r.slot g.locks) (insert r.inum g.loaded) hr rfl
      (fun i hi => by simp [hi]) (by simpa [hIn] using hValid)
      (fun _ => ⟨hTab.copy r hr hIn, hne⟩) hLocks (by simp) (by simp)
    exact h.setTable (g.lock r) rfl rfl hTab'

theorem iunlock_spec (h : RepD D ∅ g c) (hr : r ∈ g.refs) (hLocked : r.slot ∈ g.locks) :
    wp E (iunlock r.slot) (fun _ c' => RepD D ∅ (g.unlock r.slot) c') c := by
  have hTab := h.table
  have hRef := hTab.ref_pos.mpr ⟨r, hr, rfl⟩
  obtain ⟨r', hr', hs, hIn⟩ := hTab.held _ hLocked
  rw [hTab.slot_unique hr hr' hs] at hIn
  rw [iunlock, wp_bind, wp_inode, wp_bind, wp_when]
  constructor
  · rintro (h0 | h0)
    · rw [(hTab.locked _).mpr hLocked] at h0
      exact absurd h0 (by decide)
    · omega
  · intro _
    rw [releasesleep, wp_setInode]
    have hTab' := hTab.setEntry { c.itable r.slot with locked := false }
      (g.locks.erase r.slot) g.loaded hr rfl (fun _ _ => Iff.rfl)
      (hTab.valid r hr) (fun _ => ⟨hTab.copy r hr hIn, hTab.typed _ hIn⟩)
      (fun k hk => by rw [Finset.mem_erase, and_iff_right hk]) (by simp) (by simp)
    exact h.setTable (g.unlock r.slot) rfl rfl hTab'

/-! ## Dropping a pointer -/

/-- Other pointers to the inode remain. -/
theorem TableOk.dropShared (h : TableOk sb D g t) (hRefs : g.refs = r ::ₘ o) (hr : r ∈ o) :
    TableOk sb D (g.keep o) (upd t r.slot { t r.slot with ref := (t r.slot).ref - 1 }) := by
  have hMem : ∀ r' ∈ o, r' ∈ g.refs := fun r' hr' => hRefs ▸ Multiset.mem_cons_of_mem hr'
  have hBack : ∀ r' ∈ g.refs, r' ∈ o := by
    intro r' hr'
    rw [hRefs] at hr'
    rcases Multiset.mem_cons.mp hr' with rfl | hr'
    · exact hr
    · exact hr'
  have hField : ∀ {α : Type} (f : Inode → α), (∀ ip n, f { ip with ref := n } = f ip) → ∀ k,
      f (upd t r.slot { t r.slot with ref := (t r.slot).ref - 1 } k) = f (t k) := by
    intro α f hf k
    rw [upd_apply]
    split
    · rename_i hk
      rw [hf, hk]
    · rfl
  have hLoaded : (g.keep o).loaded = g.loaded := by
    ext j
    refine ⟨And.left, fun hj => ⟨hj, ?_⟩⟩
    obtain ⟨r', hr', hEq⟩ := h.loaded j hj
    exact ⟨r', hBack r' hr', hEq⟩
  refine {
    ref := fun k => ?_
    slot := fun r' hr' => h.slot r' (hMem r' hr')
    dev := fun r' hr' => by rw [hField Inode.dev fun _ _ => rfl]; exact h.dev r' (hMem r' hr')
    inum := fun r' hr' => by rw [hField Inode.inum fun _ _ => rfl]; exact h.inum r' (hMem r' hr')
    range := fun r' hr' => h.range r' (hMem r' hr')
    uniq := fun r₁ h₁ r₂ h₂ => h.uniq r₁ (hMem r₁ h₁) r₂ (hMem r₂ h₂)
    valid := fun r' hr' => by
      rw [hField Inode.valid fun _ _ => rfl, hLoaded]; exact h.valid r' (hMem r' hr')
    copy := fun r' hr' => by
      rw [hField Inode.din fun _ _ => rfl, hLoaded]; exact h.copy r' (hMem r' hr')
    loaded := fun i hi => hi.2
    typed := fun i hi => h.typed i hi.1
    locked := fun k => by rw [hField Inode.locked fun _ _ => rfl]; exact h.locked k
    held := fun k hk => ?_ }
  · have hCount := h.ref k
    rw [hRefs, Multiset.map_cons, Multiset.count_cons] at hCount
    show _ = (o.map Ref.slot).count k
    rw [upd_apply]
    split
    · rename_i hk
      rw [if_pos hk, hk] at hCount
      rw [hk, hCount]
      rfl
    · rename_i hk
      rw [if_neg hk] at hCount
      exact hCount
  · obtain ⟨r', hr', hs, hIn⟩ := h.held k hk
    exact ⟨r', hBack r' hr', hs, by rwa [hLoaded]⟩

/-- The last pointer to the inode goes; its entry is free then, whatever it holds. -/
theorem TableOk.dropLast
    {D' : Nat → Dinode} (h : TableOk sb D g t) (ip : Inode) (hRefs : g.refs = r ::ₘ o) (hr : r ∉ o)
    (hD : ∀ i ≠ r.inum, D' i = D i) (hRef : ip.ref = 0) (hLocked : ip.locked = false) :
    TableOk sb D' ((g.keep o).unlock r.slot) (upd t r.slot ip) := by
  have hr₀ : r ∈ g.refs := hRefs ▸ Multiset.mem_cons_self r o
  have hMem : ∀ r' ∈ o, r' ∈ g.refs := fun r' hr' => hRefs ▸ Multiset.mem_cons_of_mem hr'
  have hOther : ∀ r' ∈ o, r'.slot ≠ r.slot ∧ r'.inum ≠ r.inum := fun r' hr' =>
    ⟨fun hs => hr (h.slot_unique hr₀ (hMem r' hr') hs ▸ hr'),
      fun hi => hr (h.uniq r' (hMem r' hr') r hr₀ hi ▸ hr')⟩
  have hSame : ∀ r' ∈ o, upd t r.slot ip r'.slot = t r'.slot := fun r' hr' =>
    upd_of_ne (hOther r' hr').1
  have hLoaded : ∀ r' ∈ o, r'.inum ∈ (g.keep o).loaded ↔ r'.inum ∈ g.loaded := fun r' hr' =>
    ⟨And.left, fun hIn => ⟨hIn, r', hr', rfl⟩⟩
  refine {
    ref := fun k => ?_
    slot := fun r' hr' => h.slot r' (hMem r' hr')
    dev := fun r' hr' => by rw [hSame r' hr']; exact h.dev r' (hMem r' hr')
    inum := fun r' hr' => by rw [hSame r' hr']; exact h.inum r' (hMem r' hr')
    range := fun r' hr' => h.range r' (hMem r' hr')
    uniq := fun r₁ h₁ r₂ h₂ => h.uniq r₁ (hMem r₁ h₁) r₂ (hMem r₂ h₂)
    valid := fun r' hr' => by
      rw [hSame r' hr']
      exact (h.valid r' (hMem r' hr')).trans (hLoaded r' hr').symm
    copy := fun r' hr' hIn => by
      rw [hSame r' hr', hD _ (hOther r' hr').2]
      exact h.copy r' (hMem r' hr') hIn.1
    loaded := fun i hi => hi.2
    typed := ?_
    locked := fun k => ?_
    held := fun k hk => ?_ }
  · have hCount := h.ref k
    rw [hRefs, Multiset.map_cons, Multiset.count_cons] at hCount
    show _ = (o.map Ref.slot).count k
    rw [upd_apply]
    split
    · rename_i hk
      rw [hRef, eq_comm, Multiset.count_eq_zero, Multiset.mem_map]
      rintro ⟨r', hr', hs⟩
      exact (hOther r' hr').1 (hs.trans hk)
    · rename_i hk
      rw [if_neg hk] at hCount
      exact hCount
  · rintro i ⟨hIn, r', hr', rfl⟩
    rw [hD _ (hOther r' hr').2]
    exact h.typed _ hIn
  · rw [upd_apply]
    split
    · rename_i hk
      rw [hLocked, hk]
      exact ⟨fun h0 => absurd h0 Bool.false_ne_true, fun hIn => absurd hIn (Finset.notMem_erase _ _)⟩
    · rename_i hk
      exact (h.locked k).trans (by rw [Abs.unlock, Finset.mem_erase, and_iff_right hk]; rfl)
  · obtain ⟨hkr, hk⟩ := Finset.mem_erase.mp hk
    obtain ⟨r', hr', hs, hIn⟩ := h.held k hk
    have hne : r' ≠ r := fun hEq => hkr (by rw [← hEq, hs])
    rw [hRefs] at hr'
    have hr'' := (Multiset.mem_cons.mp hr').resolve_left hne
    exact ⟨r', hr'', hs, (hLoaded r' hr'').mpr hIn⟩

/-- Dropping `r` frees its inode. -/
def Abs.Last (g : Abs) (r : Ref) (o : Multiset Ref) : Prop :=
  r ∉ o ∧ r.inum ∈ g.loaded ∧ (g.node r.inum).nlink = 0

/-- The entry counts one pointer. -/
theorem TableOk.ref_one
    (h : TableOk sb D g t) (hRefs : g.refs = r ::ₘ o) : (t r.slot).ref = 1 ↔ r ∉ o := by
  have hr : r ∈ g.refs := hRefs ▸ Multiset.mem_cons_self r o
  rw [h.ref, hRefs, Multiset.map_cons, Multiset.count_cons_self, Nat.add_eq_right,
    Multiset.count_eq_zero, Multiset.mem_map]
  refine not_congr ⟨?_, fun hIn => ⟨r, hIn, rfl⟩⟩
  rintro ⟨r', hr', hs⟩
  exact h.slot_unique hr (hRefs ▸ Multiset.mem_cons_of_mem hr') hs ▸ hr'

theorem iput_cond (h : RepD D ∅ g c) (hRefs : g.refs = r ::ₘ o) :
    ((c.itable r.slot).ref = 1 ∧ (c.itable r.slot).valid = true ∧
      (c.itable r.slot).din.nlink = 0) ↔ g.Last r o := by
  have hTab := h.table
  have hr : r ∈ g.refs := hRefs ▸ Multiset.mem_cons_self r o
  unfold Abs.Last
  rw [hTab.ref_one hRefs, hTab.valid r hr]
  refine and_congr_right fun _ => and_congr_right fun hIn => ?_
  rw [h.din hr hIn, (h.nodes _ (h.inum_lt hr)).nlink (hTab.typed _ hIn)]

/-- The table does not see the content of the inodes. -/
theorem TableOk.congr {g' : Abs} (h : TableOk sb D g t)
    (hRefs : g'.refs = g.refs) (hLocks : g'.locks = g.locks) (hLoaded : g'.loaded = g.loaded) :
    TableOk sb D g' t := by
  obtain ⟨sb', node', refs', locks', loaded'⟩ := g'
  obtain rfl : refs' = g.refs := hRefs
  obtain rfl : locks' = g.locks := hLocks
  obtain rfl : loaded' = g.loaded := hLoaded
  exact { h with }

/-- The end of `iput`: an emptied inode is marked free and its entry given back. -/
theorem RepD.freeInode (h : RepD D ∅ g c) (hRefs : g.refs = r ::ₘ o)
    (hOnly : r ∉ o) (hLoaded : r.inum ∈ g.loaded) (hEmpty : (g.node r.inum).used = ∅) :
    RepD (upd D r.inum { D r.inum with type := 0 }) (∅ \ {r.inum})
      ((g.setNode r.inum Node.free).keep o |>.unlock r.slot)
      { c.put (c.sb.iblock r.inum) (Dinode.write (c.buf (c.sb.iblock r.inum)) (r.inum % IPB)
          { D r.inum with type := 0 }) with
        itable := upd c.itable r.slot { c.itable r.slot with
          din := { D r.inum with type := 0 }, valid := false, locked := false,
          ref := (c.itable r.slot).ref - 1 } } := by
  have hr : r ∈ g.refs := hRefs ▸ Multiset.mem_cons_self r o
  have hi := h.inum_lt hr
  have hType := h.table.typed _ hLoaded
  have hNone : ∀ q, addrs c.sb D c.buf (r.inum, q) = 0 := by
    intro q
    rw [addrs_of_alloc hi hType]
    by_contra hq
    have hIn := ((h.nodes _ hi).used hType _).mpr ⟨hq, q, rfl⟩
    rw [hEmpty] at hIn
    exact absurd hIn (Finset.notMem_empty _)
  have hRef : (c.itable r.slot).ref = 1 := (h.table.ref_one hRefs).mpr hOnly
  refine h.store _ hi rfl ?_ (fun j hji => Abs.setNode_of_ne hji) (fun q => ?_)
    (fun _ => Or.inr hNone) ?_
  · exact (h.table.dropLast _ hRefs hOnly (fun i hi => upd_of_ne hi) (by rw [hRef])
      rfl).congr rfl rfl rfl
  · rw [if_pos rfl, hNone]
  · have hFree : ((g.setNode r.inum Node.free).keep o |>.unlock r.slot).node r.inum = Node.free :=
      Abs.setNode_self ..
    rw [hFree]
    exact {
      type := rfl
      free := fun _ => rfl
      major := fun h0 => absurd rfl h0
      minor := fun h0 => absurd rfl h0
      nlink := fun h0 => absurd rfl h0
      size := fun h0 => absurd rfl h0
      bound := Nat.zero_le _
      mapped := fun bn _ hbn => absurd hbn (Nat.not_lt_zero _)
      data := fun o ho => absurd ho (Nat.not_lt_zero _)
      used := fun h0 => absurd rfl h0 }

/-- `iput` drops a pointer; with the last one to an inode without names the inode is freed. -/
theorem iput_spec (h : RepD D ∅ g c) (hRefs : g.refs = r ::ₘ o)
    (hLock : r ∉ o → r.slot ∉ g.locks) :
    wp E (iput r.slot) (fun _ c' =>
      (g.Last r o → Rep ((g.setNode r.inum Node.free).keep o) c') ∧
      (¬ g.Last r o → RepD D ∅ (g.keep o) c')) c := by
  have hTab := h.table
  have hr : r ∈ g.refs := hRefs ▸ Multiset.mem_cons_self r o
  rw [iput, wp_bind, wp_inode, wp_bind, wp_when, iput_cond h hRefs]
  constructor
  · intro hLast
    have ⟨hOnly, hLoaded, _⟩ := hLast
    have hFree := hLock hOnly
    rw [wp_bind]
    refine acquiresleep_spec h (fun hIn => absurd hIn hFree) fun _ _ => ?_
    -- `itrunc` runs with the entry locked
    have hTab₁ := hTab.setEntry { c.itable r.slot with locked := true } (insert r.slot g.locks)
      g.loaded hr rfl (fun _ _ => Iff.rfl) (hTab.valid r hr)
      (fun _ => ⟨hTab.copy r hr hLoaded, hTab.typed _ hLoaded⟩)
      (fun k hk => by rw [Finset.mem_insert, or_iff_right hk]) (by simp) (fun _ => hLoaded)
    have h₁ := h.setTable { g with locks := insert r.slot g.locks } rfl rfl hTab₁
    rw [wp_bind]
    refine (itrunc_spec ⟨D, h₁⟩ hr hLoaded).mono ?_
    rintro _ c₂ ⟨D₂, h₂⟩
    have hEnd := h₂.freeInode hRefs hOnly hLoaded (by rw [Abs.setNode_self]; rfl)
    rw [wp_bind, wp_setDin, wp_bind, iupdate, wp_bind, wp_get, wp_bind, wp_inode, wp_bind, wp_bread,
      wp_update_last, wp_bind, wp_setInode, releasesleep, wp_setInode, wp_setInode]
    refine ⟨fun _ => ?_, fun hNot => absurd hLast hNot⟩
    have hInum : (c₂.itable r.slot).inum = r.inum := h₂.table.inum r hr
    have hDin : (c₂.itable r.slot).din = D₂ r.inum := h₂.din hr hLoaded
    have hAbs : (((({ g with locks := insert r.slot g.locks } : Abs).setNode r.inum
        (g.node r.inum).empty).setNode r.inum Node.free).keep o).unlock r.slot =
        (g.setNode r.inum Node.free).keep o := by
      simp only [Abs.setNode, Abs.keep, Abs.unlock, upd_upd, Finset.erase_insert hFree]
    rw [Set.empty_sdiff] at hEnd
    rw [← hAbs]
    refine ⟨_, cast (congrArg (RepD _ ∅ _) ?_) hEnd⟩
    simp only [Core.setIp, Core.put, hInum, hDin, upd_self, upd_upd]
  · intro hKeep
    rw [wp_setInode]
    refine ⟨fun hLast => absurd hLast hKeep, fun _ => ?_⟩
    by_cases hIn : r ∈ o
    · exact h.setTable _ rfl rfl (hTab.dropShared hRefs hIn)
    · have hUn : (c.itable r.slot).locked = false := by
        rw [← Bool.not_eq_true, hTab.locked]
        exact hLock hIn
      refine h.setTable _ rfl rfl
        ((hTab.dropLast { c.itable r.slot with ref := (c.itable r.slot).ref - 1 } hRefs hIn
          (fun _ _ => rfl) ?_ hUn).congr rfl ?_ rfl)
      · rw [(hTab.ref_one hRefs).mpr hIn]
      · exact (Finset.erase_eq_of_notMem (hLock hIn)).symm

/-! ## Allocation -/

/-- A new inode: no content, no names. -/
def Node.fresh (type : BitVec 16) : Node := { Node.free with type := type }

/-- The table holds copies of the loaded inodes only. -/
theorem TableOk.congrD {D' : Nat → Dinode}
    (h : TableOk sb D g t) (hD : ∀ i ∈ g.loaded, D' i = D i) : TableOk sb D' g t :=
  { h with
    copy := fun r hr hIn => by rw [hD _ hIn]; exact h.copy r hr hIn
    typed := fun i hi => by rw [hD _ hi]; exact h.typed i hi }

theorem addrAt_zero (B : Disk) {di : Dinode} (h : di.addrs = Dinode.zero.addrs) (q : Nat) :
    addrAt B di q = 0 := by
  unfold addrAt
  rw [h]
  simp [Dinode.zero]

theorem nodeOk_free (B : Disk) (p : Prop) : NodeOk B Dinode.zero Node.free p where
  type := rfl
  free _ := rfl
  major h0 := absurd rfl h0
  minor h0 := absurd rfl h0
  nlink h0 := absurd rfl h0
  size h0 := absurd rfl h0
  bound := Nat.zero_le _
  mapped _ _ hbn := absurd hbn (Nat.not_lt_zero _)
  data _ ho := absurd ho (Nat.not_lt_zero _)
  used h0 := absurd rfl h0

theorem nodeOk_fresh (B : Disk) {type : BitVec 16} (hType : type ≠ 0) (p : Prop) :
    NodeOk B { Dinode.zero with type := type } (Node.fresh type) p := by
  have hNone : ∀ q, addrAt B { Dinode.zero with type := type } q = 0 := addrAt_zero B rfl
  exact {
    type := rfl
    free := fun h0 => absurd h0 hType
    major := fun _ => rfl
    minor := fun _ => rfl
    nlink := fun _ => rfl
    size := fun _ _ => rfl
    bound := Nat.zero_le _
    mapped := fun bn _ hbn => absurd hbn (Nat.not_lt_zero _)
    data := fun o ho => absurd ho (Nat.not_lt_zero _)
    used := fun _ b => by
      simp only [hNone]
      refine ⟨fun hb => absurd hb (Finset.notMem_empty b), ?_⟩
      rintro ⟨hne, q, hq⟩
      exact absurd hq.symm hne }

/-- A free inode is taken into use. -/
theorem RepD.takeInode {type : BitVec 16} (h : RepD D ∅ g c) (hi : i < c.sb.ninodes)
    (hFree : (D i).type = 0) (hType : type ≠ 0) :
    RepD (upd D i { Dinode.zero with type := type }) ∅ (g.setNode i (Node.fresh type))
      (c.put (c.sb.iblock i) (Dinode.write (c.buf (c.sb.iblock i)) (i % IPB)
        { Dinode.zero with type := type })) := by
  have hNone : ∀ q, addrs c.sb D c.buf (i, q) = 0 := fun q => if_neg fun hAlloc => hAlloc.2 hFree
  have hTable : TableOk c.sb (upd D i { Dinode.zero with type := type })
      (g.setNode i (Node.fresh type)) c.itable :=
    (h.table.congrD fun j hj => upd_of_ne fun hEq => h.table.typed j hj (hEq ▸ hFree)).setNode i _
  have hSame : (g.setNode i (Node.fresh type)).sb = g.sb := rfl
  have hStore := h.store { Dinode.zero with type := type } hi hSame hTable
    (fun j hji => Abs.setNode_of_ne hji)
    (fun q => by
      rw [if_neg hType, hNone]
      by_contra hq
      exact absurd (((nodeOk_fresh c.buf hType True).used hType _).mpr ⟨hq, q, rfl⟩)
        (Finset.notMem_empty _))
    (fun _ => Or.inr hNone)
    (by rw [Abs.setNode_self]; exact nodeOk_fresh c.buf hType True)
  rwa [Set.empty_sdiff] at hStore

theorem ialloc_spec {type : BitVec 16} (h : RepD D ∅ g c) (hType : type ≠ 0)
    (hFull : (∀ i, 1 ≤ i → i < g.sb.ninodes → (g.node i).type ≠ 0) → E .iallocNoInodes)
    (hOut : NINODE ≤ g.refs.card → E .igetNoInodes) :
    wp E (ialloc ROOTDEV type) (fun k c' => ∃ i, 1 ≤ i ∧ i < g.sb.ninodes ∧ g.node i = Node.free ∧
      (∀ j, 1 ≤ j → j < i → (g.node j).type ≠ 0) ∧
      Rep ((g.setNode i (Node.fresh type)).addRef ⟨k, i⟩) c') c := by
  have hDisk : ∀ i < c.sb.ninodes, (c.dinode i).type = (g.node i).type := by
    intro i hi
    have hSync : c.dinode i = D i := h.synced i hi (Set.notMem_empty i)
    rw [hSync, (h.nodes i hi).type]
  have hSb := h.sb
  rw [ialloc, wp_bind, wp_get]
  split
  · rename_i i hFind
    obtain ⟨hFree, hMem, hMin⟩ := List.find?_range'_eq_some.mp hFind
    rw [decide_eq_true_eq] at hFree
    rw [List.mem_range'_1] at hMem
    have hi : i < c.sb.ninodes := by omega
    have hD0 : (D i).type = 0 := by rw [← (h.nodes i hi).type, ← hDisk i hi, hFree]
    rw [wp_bind, wp_bread, wp_update]
    refine (iget_spec (h.takeInode hi hD0 hType) ⟨hMem.1, hSb ▸ hi⟩ hOut).mono fun k c' hc' => ?_
    refine ⟨i, hMem.1, hSb ▸ hi, (h.nodes i hi).free hD0, fun j hj hji => ?_, _, hc'⟩
    have := hMin j hj hji
    rw [← hDisk j (by omega)]
    simpa using this
  · rename_i hNone
    rw [wp_throw]
    refine hFull fun i hi₁ hi₂ => ?_
    rw [← hSb] at hi₂
    have := List.find?_eq_none.mp hNone i (by rw [List.mem_range'_1]; omega)
    rw [← hDisk i hi₂]
    simpa using this

/-! ## Changing the fields of a locked inode -/

/-- The fields an inode has besides its content. -/
def Node.setFields (n : Node) (major minor nlink : BitVec 16) : Node :=
  { n with major := major, minor := minor, nlink := nlink }

/-- `ip->… = …; iupdate(ip)` for the device numbers and the link count. -/
theorem update_spec {f : Dinode → Dinode} {major minor nlink : BitVec 16} (h : RepD D ∅ g c)
    (hr : r ∈ g.refs) (hLoaded : r.inum ∈ g.loaded)
    (hf : ∀ di : Dinode, di.major = (g.node r.inum).major → di.minor = (g.node r.inum).minor →
      di.nlink = (g.node r.inum).nlink →
      f di = { di with major := major, minor := minor, nlink := nlink }) :
    wp E (iupdate r.slot)
      (fun _ c' => RepD (upd D r.inum { D r.inum with major := major, minor := minor, nlink := nlink }) ∅
        (g.setNode r.inum ((g.node r.inum).setFields major minor nlink)) c')
      (c.setIp r.slot { c.itable r.slot with din := f (c.itable r.slot).din }) := by
  have hi := h.inum_lt hr
  have hType := h.table.typed _ hLoaded
  have hN := h.nodes _ hi
  rw [h.din hr hLoaded, hf _ (hN.major hType).symm (hN.minor hType).symm (hN.nlink hType).symm]
  have hNode : NodeOk c.buf { D r.inum with major := major, minor := minor, nlink := nlink }
      ((g.node r.inum).setFields major minor nlink) False :=
    { type := hN.type
      free := fun h0 => absurd h0 hType
      major := fun _ => rfl
      minor := fun _ => rfl
      nlink := fun _ => rfl
      size := fun _ hFalse => hFalse.elim
      bound := hN.bound
      mapped := hN.mapped
      data := hN.data
      used := fun _ => hN.used hType }
  have hSet := h.setDin hr hLoaded (by rfl) (by rfl) hNode
  refine (iupdate_spec hSet hr hLoaded ?_).mono fun _ c' h' => ?_
  · rw [Abs.setNode_self, upd_self]
    exact hN.size hType (Set.notMem_empty _)
  · have hU : (insert r.inum (∅ : Set Nat)) \ {r.inum} = ∅ := by simp
    rw [← hU]
    exact h'.1

end Xv6.Fs
