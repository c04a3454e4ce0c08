import Xv6.Fs.Content

/-!
# xv6 — between two steps of a call

A call of `sysfile.c` takes pointers, locks inodes, changes them and lets go of them again. `At sb S D N R L`
is what is known between two such steps: the inodes are `N` (on disk `D`), the pointers anybody has are `R`,
the entries `L` of the table are locked. Of which inodes the table has valid copies is left open, but those of the
set `S` have one when they have lost their last name, so that they are freed with the last pointer to them.

There is one rule for each function a call makes use of. Letting go of a pointer can free an inode that has no
names left; `Lapse K` says that this is all that happened while the pointers `K` were kept.
-/

namespace Xv6.Fs

open ByteBuf Hoare Owner

variable {E : Panic → Prop} {c c' : Core} {sb : Superblock} {S : Set Nat} {D D' : Nat → Dinode}
  {N N' : Nat → Node} {R K : Multiset Ref} {L : Finset Nat} {r : Ref}

/-- An inode without a name. -/
def Orphan (n : Node) : Prop := n.type ≠ 0 ∧ n.nlink = 0

def At (sb : Superblock) (S : Set Nat) (D : Nat → Dinode) (N : Nat → Node) (R : Multiset Ref) (L : Finset Nat)
    (c : Core) : Prop :=
  ∃ v, RepD D ∅ { sb := sb, node := N, refs := R, locks := L, loaded := v } c ∧ ∀ i ∈ S, Orphan (N i) → i ∈ v

/-! ## The entry of a pointer -/

/-- A locked inode is loaded. -/
theorem At.locked (h : At sb S D N R L c) (hr : r ∈ R) (hL : r.slot ∈ L) :
    ∃ v, RepD D ∅ { sb := sb, node := N, refs := R, locks := L, loaded := v } c ∧
      (∀ i ∈ S, Orphan (N i) → i ∈ v) ∧ r.inum ∈ v := by
  obtain ⟨v, h, hS⟩ := h
  obtain ⟨r', hr', hs, hIn⟩ := h.table.held _ hL
  rw [h.table.slot_unique hr hr' hs] at hIn
  exact ⟨v, h, hS, hIn⟩

theorem At.range (h : At sb S D N R L c) (hr : r ∈ R) : 1 ≤ r.inum ∧ r.inum < sb.ninodes := by
  obtain ⟨v, h, -⟩ := h
  have hRange := h.table.range r hr
  rwa [h.sb] at hRange

theorem At.uniq (h : At sb S D N R L c) (hr : r ∈ R) {r' : Ref} (hr' : r' ∈ R) :
    r.slot = r'.slot ↔ r.inum = r'.inum := by
  obtain ⟨v, h, -⟩ := h
  exact ⟨fun hs => congrArg Ref.inum (h.table.slot_unique hr' hr hs),
    fun hi => congrArg Ref.slot (h.table.uniq r hr r' hr' hi)⟩

theorem At.inum (h : At sb S D N R L c) (hr : r ∈ R) : (c.itable r.slot).inum = r.inum :=
  h.elim fun _ h => h.1.table.inum r hr

theorem At.dev (h : At sb S D N R L c) (hr : r ∈ R) : (c.itable r.slot).dev = ROOTDEV :=
  h.elim fun _ h => h.1.table.dev r hr

theorem At.sb_eq (h : At sb S D N R L c) : c.sb = sb := h.elim fun _ h => h.1.sb

theorem At.node (h : At sb S D N R L c) (hr : r ∈ R) (hL : r.slot ∈ L) :
    NodeOk c.buf (c.itable r.slot).din (N r.inum) True ∧ (c.itable r.slot).din.type ≠ 0 := by
  obtain ⟨v, h, -, hIn⟩ := h.locked hr hL
  exact Rep.node ⟨D, h⟩ hr hIn

theorem At.type (h : At sb S D N R L c) (hr : r ∈ R) (hL : r.slot ∈ L) :
    (c.itable r.slot).din.type = (N r.inum).type := (h.node hr hL).1.type.symm

theorem At.nlink (h : At sb S D N R L c) (hr : r ∈ R) (hL : r.slot ∈ L) :
    (c.itable r.slot).din.nlink = (N r.inum).nlink :=
  ((h.node hr hL).1.nlink (h.node hr hL).2).symm

theorem At.typed (h : At sb S D N R L c) (hr : r ∈ R) (hL : r.slot ∈ L) : (N r.inum).type ≠ 0 := by
  rw [← h.type hr hL]
  exact (h.node hr hL).2

theorem At.mono {S' : Set Nat} (h : At sb S D N R L c) (hS : S' ⊆ S) : At sb S' D N R L c :=
  h.imp fun _ h => ⟨h.1, fun i hi => h.2 i (hS hi)⟩

/-- An inode without a name is pointed to. -/
def Bound (K : Multiset Ref) (N : Nat → Node) : Prop := ∀ i, Orphan (N i) → ∃ r ∈ K, r.inum = i

theorem At.bound (h : At sb Set.univ D N R L c) : Bound R N := by
  obtain ⟨v, h, hS⟩ := h
  exact fun i hi => h.table.loaded i (hS i (Set.mem_univ i) hi)

/-! ## Pointers and locks -/

theorem iget_at {i : Nat} (h : At sb S D N R L c) (hi : 1 ≤ i ∧ i < sb.ninodes)
    (hOut : NINODE ≤ R.card → E .igetNoInodes) :
    wp E (iget ROOTDEV i) (fun k c' => At sb S D N (⟨k, i⟩ ::ₘ R) L c' ∧ (⟨k, i⟩ ∉ R → k ∉ L)) c := by
  obtain ⟨v, h, hS⟩ := h
  refine (iget_spec h hi hOut).mono fun k c' h' => ⟨⟨v, h', hS⟩, fun hNew hk => hNew ?_⟩
  obtain ⟨r, hr, rfl, -⟩ := h.table.held k hk
  have hEq := h'.table.slot_unique (Multiset.mem_cons_self _ _) (Multiset.mem_cons_of_mem hr) rfl
  exact hEq ▸ hr

theorem idup_at (h : At sb S D N R L c) (hr : r ∈ R) :
    wp E (idup r.slot) (fun k c' => k = r.slot ∧ At sb S D N (r ::ₘ R) L c') c := by
  obtain ⟨v, h, hS⟩ := h
  exact (idup_spec h hr).mono fun k c' h' => ⟨h'.1, v, h'.2, hS⟩

/-- A locked inode may be counted among those that are loaded. -/
theorem ilock_at (h : At sb (S \ {r.inum}) D N R L c) (hr : r ∈ R) (hBlocked : r.slot ∈ L → E .blocked)
    (hNoType : (N r.inum).type = 0 → E .ilockNoType) :
    wp E (ilock r.slot) (fun _ c' => r.slot ∉ L ∧ At sb S D N R (insert r.slot L) c') c := by
  obtain ⟨v, h, hS⟩ := h
  refine (ilock_spec h hr hBlocked hNoType).mono fun _ c' h' => ⟨h'.1, _, h'.2.2, fun i hi hOrphan => ?_⟩
  by_cases hEq : i = r.inum
  · rw [hEq]
    exact Set.mem_insert _ _
  · exact Set.mem_insert_of_mem _ (hS i ⟨hi, hEq⟩ hOrphan)

theorem iunlock_at (h : At sb S D N R L c) (hr : r ∈ R) (hL : r.slot ∈ L) :
    wp E (iunlock r.slot) (fun _ c' => At sb S D N R (L.erase r.slot) c') c := by
  obtain ⟨v, h, hS⟩ := h
  exact (iunlock_spec h hr hL).mono fun _ c' h' => ⟨v, h', hS⟩

/-- While the pointers `K` were kept, inodes without names that none of them points to were freed. -/
def Reaped (K : Multiset Ref) (N N' : Nat → Node) : Prop :=
  ∀ i, N' i = N i ∨ N' i = Node.free ∧ Orphan (N i) ∧ ∀ r ∈ K, r.inum ≠ i

theorem Reaped.refl (K : Multiset Ref) (N : Nat → Node) : Reaped K N N := fun _ => .inl rfl

/-- An inode that one of the pointers points to stays. -/
theorem Reaped.keeps (h : Reaped K N N') (hr : r ∈ K) : N' r.inum = N r.inum :=
  (h _).resolve_right fun hFreed => hFreed.2.2 r hr rfl

theorem Reaped.eq (h : Reaped K N N') (hBound : Bound K N) : N' = N :=
  funext fun i => (h i).resolve_right fun ⟨_, hOrphan, hNone⟩ => by
    obtain ⟨r, hr, hEq⟩ := hBound i hOrphan
    exact hNone r hr hEq

theorem Reaped.mono {K' : Multiset Ref} (h : Reaped K N N') (hK : K' ⊆ K) : Reaped K' N N' := fun i =>
  (h i).imp_right fun ⟨hFree, hOrphan, hNone⟩ => ⟨hFree, hOrphan, fun r hr => hNone r (hK hr)⟩

theorem Reaped.trans {N₁ N₂ : Nat → Node} (h₁ : Reaped K N N₁) (h₂ : Reaped K N₁ N₂) : Reaped K N N₂ := by
  intro i
  rcases h₂ i with hSame | hFreed
  · rw [hSame]
    exact h₁ i
  · -- it was not free before
    rcases h₁ i with hSame | hFreed₁
    · rw [hSame] at hFreed
      exact .inr hFreed
    · rw [hFreed₁.1] at hFreed
      exact absurd rfl hFreed.2.1.1

/-- A change of an inode that is pointed to can as well be made before. -/
theorem Reaped.upd (h : Reaped (r ::ₘ K) N N') (n : Node) : Reaped K (upd N r.inum n) (upd N' r.inum n) := by
  intro i
  by_cases hi : i = r.inum
  · rw [hi, upd_self, upd_self]
    exact .inl rfl
  · rw [upd_of_ne hi, upd_of_ne hi]
    exact h.mono (Multiset.subset_cons K r) i

theorem Bound.mono {K' : Multiset Ref} (h : Bound K N) (hK : K ⊆ K') : Bound K' N := fun i hi =>
  (h i hi).imp fun _ hr => ⟨hK hr.1, hr.2⟩

/-- The same, and when nothing could be freed the disk is unchanged. -/
structure Lapse (K : Multiset Ref) (D : Nat → Dinode) (N : Nat → Node) (D' : Nat → Dinode)
    (N' : Nat → Node) : Prop where
  reaped : Reaped K N N'
  same   : Bound K N → D' = D

theorem Lapse.refl (K : Multiset Ref) (D : Nat → Dinode) (N : Nat → Node) : Lapse K D N D N where
  reaped := .refl K N
  same _ := rfl

theorem Lapse.mono {K' : Multiset Ref} (h : Lapse K D N D' N') (hK : K' ⊆ K) : Lapse K' D N D' N' where
  reaped := h.reaped.mono hK
  same hBound := h.same (hBound.mono hK)

theorem Lapse.trans {D₁ D₂ : Nat → Dinode} {N₁ N₂ : Nat → Node} (h₁ : Lapse K D N D₁ N₁)
    (h₂ : Lapse K D₁ N₁ D₂ N₂) : Lapse K D N D₂ N₂ where
  reaped := h₁.reaped.trans h₂.reaped
  same hBound := (h₂.same (h₁.reaped.eq hBound ▸ hBound)).trans (h₁.same hBound)

/-- The inode stays: it is not the last pointer to a loaded inode without names. -/
theorem At.put_kept {v : Set Nat} (h : RepD D ∅ { sb := sb, node := N, refs := r ::ₘ R, locks := L, loaded := v } c)
    (hS : ∀ i ∈ S, Orphan (N i) → i ∈ v)
    (hNot : ¬ Abs.Last { sb := sb, node := N, refs := r ::ₘ R, locks := L, loaded := v } r R)
    (h' : RepD D ∅ (({ sb := sb, node := N, refs := r ::ₘ R, locks := L, loaded := v } : Abs).keep R) c') :
    At sb S D N R L c' := by
  refine ⟨_, h', fun i hi hOr => ?_⟩
  have hIn := hS i hi hOr
  obtain ⟨r', hr', rfl⟩ := h.table.loaded i hIn
  rcases Multiset.mem_cons.mp hr' with rfl | hr'
  · have hMem : r' ∈ R := by
      by_contra hOut
      exact hNot ⟨hOut, hIn, hOr.2⟩
    exact ⟨hIn, r', hMem, rfl⟩
  · exact ⟨hIn, r', hr', rfl⟩

/-- An inode that has a name, or is pointed to by others, stays. -/
theorem iput_kept (h : At sb S D N (r ::ₘ R) L c) (hLock : r ∉ R → r.slot ∉ L)
    (hKept : Orphan (N r.inum) → ∃ r' ∈ R, r'.inum = r.inum) : wp E (iput r.slot) (fun _ c' => At sb S D N R L c') c := by
  obtain ⟨v, h, hS⟩ := h
  have hr : r ∈ r ::ₘ R := Multiset.mem_cons_self r R
  refine (iput_spec h rfl hLock).mono fun _ c' h' => ?_
  have hNot : ¬ Abs.Last { sb := sb, node := N, refs := r ::ₘ R, locks := L, loaded := v } r R := by
    rintro ⟨hOnly, hLoaded, hZero⟩
    have hType : (N r.inum).type ≠ 0 := by
      rw [(h.nodes _ (h.inum_lt hr)).type]
      exact h.table.typed _ hLoaded
    obtain ⟨r', hr', hEq⟩ := hKept ⟨hType, hZero⟩
    exact hOnly (h.table.uniq r' (Multiset.mem_cons_of_mem hr') r hr hEq ▸ hr')
  exact At.put_kept h hS hNot (h'.2 hNot)

theorem iput_at (h : At sb S D N (r ::ₘ R) L c) (hLock : r ∉ R → r.slot ∉ L) :
    wp E (iput r.slot) (fun _ c' => ∃ D' N', Lapse R D N D' N' ∧ At sb S D' N' R L c') c := by
  obtain ⟨v, h, hS⟩ := h
  have hr : r ∈ r ::ₘ R := Multiset.mem_cons_self r R
  -- an inode that is still pointed to stays loaded
  have hKept : ∀ i ≠ r.inum, i ∈ v → i ∈ v ∧ ∃ r' ∈ R, r'.inum = i := fun i hi hIn => by
    obtain ⟨r', hr', rfl⟩ := h.table.loaded i hIn
    exact ⟨hIn, r', (Multiset.mem_cons.mp hr').resolve_left fun hEq => hi (by rw [hEq]), rfl⟩
  refine (iput_spec h rfl hLock).mono fun _ c' h' => ?_
  by_cases hLast : Abs.Last { sb := sb, node := N, refs := r ::ₘ R, locks := L, loaded := v } r R
  · have hOrphan : Orphan (N r.inum) := by
      refine ⟨?_, hLast.2.2⟩
      rw [(h.nodes _ (h.inum_lt hr)).type]
      exact h.table.typed _ hLast.2.1
    have hNone : ∀ r' ∈ R, r'.inum ≠ r.inum := fun r' hr' hEq =>
      hLast.1 (h.table.uniq r' (Multiset.mem_cons_of_mem hr') r hr hEq ▸ hr')
    obtain ⟨D', hFreed⟩ := h'.1 hLast
    refine ⟨D', upd N r.inum Node.free, ⟨fun i => ?_, fun hBound => ?_⟩, _, hFreed, fun i hi hOr => ?_⟩
    · by_cases hi : i = r.inum
      · rw [hi, upd_self]
        exact .inr ⟨rfl, hOrphan, hNone⟩
      · exact .inl (upd_of_ne hi)
    · obtain ⟨r', hr', hEq⟩ := hBound _ hOrphan
      exact absurd hEq (hNone r' hr')
    · by_cases hEq : i = r.inum
      · rw [hEq, upd_self] at hOr
        exact absurd rfl hOr.1
      · rw [upd_of_ne hEq] at hOr
        exact hKept i hEq (hS i hi hOr)
  · exact ⟨D, N, .refl R D N, At.put_kept h hS hLast (h'.2 hLast)⟩

theorem iunlockput_at (h : At sb S D N (r ::ₘ R) L c) (hL : r.slot ∈ L) :
    wp E (iunlockput r.slot)
      (fun _ c' => ∃ D' N', Lapse R D N D' N' ∧ At sb S D' N' R (L.erase r.slot) c') c := by
  rw [iunlockput, wp_bind]
  refine (iunlock_at h (Multiset.mem_cons_self r R) hL).mono fun _ c₁ h₁ => ?_
  exact iput_at h₁ fun _ => Finset.notMem_erase _ _

theorem iunlockput_kept (h : At sb S D N (r ::ₘ R) L c) (hL : r.slot ∈ L)
    (hKept : Orphan (N r.inum) → ∃ r' ∈ R, r'.inum = r.inum) :
    wp E (iunlockput r.slot) (fun _ c' => At sb S D N R (L.erase r.slot) c') c := by
  rw [iunlockput, wp_bind]
  refine (iunlock_at h (Multiset.mem_cons_self r R) hL).mono fun _ c₁ h₁ => ?_
  exact iput_kept h₁ (fun _ => Finset.notMem_erase _ _) hKept

/-! ## Changing inodes -/

/-- The new inode has no name yet. -/
theorem ialloc_at {type : BitVec 16} (h : At sb S D N R L c) (hType : type ≠ 0)
    (hFull : (∀ i, 1 ≤ i → i < sb.ninodes → (N i).type ≠ 0) → E .iallocNoInodes)
    (hOut : NINODE ≤ R.card → E .igetNoInodes) :
    wp E (ialloc ROOTDEV type) (fun k c' => ∃ i, 1 ≤ i ∧ i < sb.ninodes ∧ N i = Node.free ∧
      ∃ D', At sb (S \ {i}) D' (upd N i (Node.fresh type)) (⟨k, i⟩ ::ₘ R) L c') c := by
  obtain ⟨v, h, hS⟩ := h
  refine (ialloc_spec h hType hFull hOut).mono ?_
  rintro k c' ⟨i, hPos, hLt, hFree, -, D', h'⟩
  refine ⟨i, hPos, hLt, hFree, D', v, h', fun j hj hOrphan => hS j hj.1 ?_⟩
  rwa [upd_of_ne hj.2] at hOrphan

/-- A locked inode is changed; whether it has names does not matter. -/
theorem At.change {v : Set Nat} {n : Node} (hIn : r.inum ∈ v) (hS : ∀ i ∈ S, Orphan (N i) → i ∈ v)
    (h : RepD D' ∅ { sb := sb, node := upd N r.inum n, refs := R, locks := L, loaded := v } c) :
    At sb S D' (upd N r.inum n) R L c := by
  refine ⟨v, h, fun i hi hOrphan => ?_⟩
  by_cases hEq : i = r.inum
  · rwa [hEq]
  · rw [upd_of_ne hEq] at hOrphan
    exact hS i hi hOrphan

/-- `ip->… = …; iupdate(ip)` for the device numbers and the link count. -/
theorem update_at {f : Dinode → Dinode} {major minor nlink : BitVec 16} (h : At sb S D N R L c) (hr : r ∈ R)
    (hL : r.slot ∈ L)
    (hf : ∀ di : Dinode, di.major = (N r.inum).major → di.minor = (N r.inum).minor →
      di.nlink = (N r.inum).nlink → f di = { di with major := major, minor := minor, nlink := nlink }) :
    wp E (do
        setDin r.slot f
        iupdate r.slot)
      (fun _ c' => At sb S (upd D r.inum { D r.inum with major := major, minor := minor, nlink := nlink })
        (upd N r.inum ((N r.inum).setFields major minor nlink)) R L c') c := by
  obtain ⟨v, h, hS, hIn⟩ := h.locked hr hL
  rw [wp_bind, wp_setDin]
  exact (update_spec h hr hIn hf).mono fun _ c' h' => At.change hIn hS h'

theorem writei_at {src : Nat → Option UInt8} {off n : Nat} (h : At sb S D N R L c) (hr : r ∈ R)
    (hL : r.slot ∈ L) (hDir : (N r.inum).type = T_DIR → ∀ j < n, (src j).isSome)
    (hOut : c.freeBlocks.card < missing c.buf (c.itable r.slot).din (span off n) → E .ballocOutOfBlocks) :
    wp E (writei r.slot src off n) (fun ret c' =>
      (Refused (N r.inum).size off n ∧ ret = none ∧ c' = c) ∨
      (¬ Refused (N r.inum).size off n ∧ ∃ tot u data D', ret = some tot ∧ tot ≤ n ∧
        (∀ o, ¬ (off ≤ o ∧ o < off + n) → data o = (N r.inum).data o) ∧
        ((∀ j < n, (src j).isSome) → tot = n ∧
          data = overwrite (N r.inum).data off n fun j => (src j).getD 0) ∧
        At sb S D' (upd N r.inum ((N r.inum).written off tot u data)) R L c')) c := by
  obtain ⟨v, h, hS, hIn⟩ := h.locked hr hL
  refine (writei_spec ⟨D, h⟩ hr hIn hDir hOut).mono ?_
  rintro ret c' (hBad | ⟨hGood, tot, u, data, hRet, hW, hAll⟩)
  · exact .inl hBad
  · obtain ⟨D', h'⟩ := hW.rep
    exact .inr ⟨hGood, tot, u, data, D', hRet, hW.le, hW.other, hAll, At.change hIn hS h'⟩

/-! ## What is on the disk -/

/-- Byte `o` of inode `i`. -/
def byteAt (sb : Superblock) (B : Disk) (i o : Nat) : UInt8 :=
  peek (B (addrAt B (dinodeAt sb B i) (place (o / BSIZE)))) (o % BSIZE)

theorem At.dinode (h : At sb S D N R L c) {i : Nat} (hi : i < sb.ninodes) : dinodeAt sb c.buf i = D i := by
  have hSb := h.sb_eq
  obtain ⟨v, h, -⟩ := h
  rw [← hSb] at hi ⊢
  exact h.synced i hi (Set.notMem_empty i)

theorem At.byte (h : At sb S D N R L c) {i o : Nat} (hi : i < sb.ninodes) (ho : o < (N i).size)
    (hHole : o / BSIZE ∉ (N i).holes) : byteAt sb c.buf i o = (N i).data o := by
  rw [byteAt, h.dinode hi]
  have hSb := h.sb_eq
  obtain ⟨v, h, -⟩ := h
  rw [← hSb] at hi
  exact (h.nodes i hi).data o ho hHole

/-- The bitmap marks the blocks in use. -/
theorem At.marked (h : At sb S D N R L c) {b : Nat} (hb : b < sb.size) :
    marked sb c.buf b = true ↔ b < sb.nmeta ∨ ∃ i < sb.ninodes, b ∈ (N i).used := by
  have hSb := h.sb_eq
  obtain ⟨v, h, -⟩ := h
  subst hSb
  constructor
  · intro hMark
    refine (Nat.lt_or_ge b c.sb.nmeta).imp_right fun hData => ?_
    obtain ⟨hne, ⟨i, p⟩, hx⟩ := h.owns.full b ⟨hData, hb, hMark⟩
    rw [addrs] at hx
    split at hx
    · rename_i hi
      exact ⟨i, hi.1, ((h.nodes i hi.1).used hi.2 b).mpr ⟨hne, p, hx⟩⟩
    · exact absurd hx.symm hne
  · rintro (hMeta | ⟨i, hi, hUsed⟩)
    · exact h.system b hMeta
    · have hType : (D i).type ≠ 0 := fun h0 => by
        rw [show N i = Node.free from (h.nodes i hi).free h0] at hUsed
        exact absurd hUsed (Finset.notMem_empty b)
      obtain ⟨hne, p, hp⟩ := ((h.nodes i hi).used hType b).mp hUsed
      have hAddr : addrs c.sb D c.buf (i, p) = b := by
        rw [addrs, if_pos ⟨hi, hType⟩, hp]
      have hUse := h.owns.sound (i, p) (hAddr ▸ hne)
      rw [hAddr] at hUse
      exact hUse.2.2

theorem At.ref (h : At sb S D N R L c) (k : Nat) : (c.itable k).ref = (R.map Ref.slot).count k :=
  h.elim fun _ h => h.1.table.ref k

end Xv6.Fs
