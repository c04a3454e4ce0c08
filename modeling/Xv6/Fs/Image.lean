import Xv6.Fs.Dir
import Xv6.Fs.Mkfs
import Mathlib.Data.List.GetD

/-!
# xv6 — the image `mkfs` writes

`mkfs` lays out blocks the way `fs.c` does, with its own code: it numbers the data blocks as it needs them
and writes the bitmap last. While it appends to an inode, `core m inum din` is the state in which the
kernel would be in the middle of a `writei`, with `din` in the inode table and the bitmap in place; taking the
next block is what `balloc` does to that state (`core_take`).
-/

namespace Xv6.Mkfs

open ByteBuf Fs Owner

variable {b i off x : Nat} {B : Disk} {di : Dinode} {dir : List UInt8}

/-! ## The bitmap -/

theorem bitmap_succ (u : Nat) : bitmap (u + 1) = setBit (bitmap u) u := by
  rw [bitmap, List.range_succ, List.foldl_append]
  rfl

theorem bit_zeroBlock (b : Nat) : bit zeroBlock b = false := by
  rw [bit_eq_getLsbD, peek_zeroBlock]
  simp

/-- The first `u` bits are set. -/
theorem bit_bitmap {u : Nat} (hu : u ≤ BPB) (b : Nat) : bit (bitmap u) b = decide (b < u) := by
  induction u with
  | zero => exact bit_zeroBlock b
  | succ u ih =>
    rw [bitmap_succ, bit_setBit hu, ih (Nat.le_of_lt hu), Bool.eq_iff_iff]
    simp only [Bool.or_eq_true, decide_eq_true_eq]
    omega

theorem bblock_eq (hb : b < BPB) : sb.bblock b = sb.bmapstart := by
  rw [Superblock.bblock, Nat.div_eq_of_lt hb, Nat.zero_add]

theorem layout : sb.Layout :=
  ⟨by decide +kernel, by decide, fun b hb => by rw [bblock_eq (Nat.lt_trans hb (by decide))]; decide,
    by decide⟩

theorem sb_nmeta : sb.nmeta = nmeta := by decide

/-! ## The kernel's view -/

/-- The image with the bitmap in place, inode `inum` being written. -/
def core (m : Image) (inum : Nat) (din : Dinode) : Core where
  buf := upd m.img sb.bmapstart (bitmap m.freeblock)
  disk := upd m.img sb.bmapstart (bitmap m.freeblock)
  sb := sb
  itable := oneEntry inum din

/-- Blocks not yet taken are zero. -/
structure Clean (m : Image) : Prop where
  ge   : nmeta ≤ m.freeblock
  le   : m.freeblock ≤ FSSIZE
  zero : ∀ b, m.freeblock ≤ b → m.img b = zeroBlock

variable {m m' : Image} {inum : Nat} {din din' : Dinode}

@[simp] theorem core_sb : (core m inum din).sb = sb := rfl

theorem core_bitmap (i : Nat) (d : Dinode) : (core m i d).buf sb.bmapstart = bitmap m.freeblock :=
  upd_self m.img sb.bmapstart _

theorem core_buf (inum : Nat) (din : Dinode) (hx : nmeta ≤ x) : (core m inum din).buf x = m.img x :=
  upd_of_ne (Nat.ne_of_gt (Nat.lt_of_lt_of_le (by decide) hx))

theorem core_one (inum : Nat) (din : Dinode) : (core m inum din).buf 1 = m.img 1 :=
  upd_of_ne (v := bitmap m.freeblock) (show 1 ≠ sb.bmapstart by decide)

theorem marked_core (inum : Nat) (din : Dinode) (hm : m.freeblock ≤ BPB) (hb : b < BPB) :
    marked sb (core m inum din).buf b = decide (b < m.freeblock) := by
  rw [marked, bblock_eq hb, core_bitmap, Nat.mod_eq_of_lt hb, bit_bitmap hm]

theorem mem_freeBlocks_core (hm : m.freeblock ≤ BPB) :
    b ∈ (core m inum din).freeBlocks ↔ b < FSSIZE ∧ m.freeblock ≤ b := by
  rw [mem_freeBlocks]
  refine and_congr_right fun (hb : b < FSSIZE) => ?_
  rw [core_sb, marked_core _ _ hm (Nat.lt_trans hb (by decide)), decide_eq_false_iff_not, Nat.not_lt]

theorem Core.ext {c c' : Core} (hBuf : c.buf = c'.buf) (hDisk : c.disk = c'.disk) (hSb : c.sb = c'.sb)
    (hTable : c.itable = c'.itable) : c = c' := by
  cases c
  cases c'
  cases hBuf
  cases hDisk
  cases hSb
  cases hTable
  rfl

theorem core_setDin (d : Dinode) :
    (core m inum din).setIp 0 { (core m inum din).itable 0 with din := d } = core m inum d := by
  refine Core.ext rfl rfl rfl (funext fun k => ?_)
  by_cases hk : k = 0
  · rw [hk, Core.setIp_itable, upd_self]
    rfl
  · rw [Core.setIp_itable, upd_of_ne hk]
    exact (if_neg hk).trans (if_neg hk).symm

theorem core_wsect (hx : nmeta ≤ x) (v : Block) :
    core (wsect m x v) inum din = (core m inum din).put x v := by
  have hne : sb.bmapstart ≠ x := Nat.ne_of_lt (Nat.lt_of_lt_of_le (by decide) hx)
  have hUpd : upd (upd m.img x v) sb.bmapstart (bitmap m.freeblock) =
      upd (upd m.img sb.bmapstart (bitmap m.freeblock)) x v := upd_comm hne.symm
  exact Core.ext hUpd hUpd rfl rfl

/-- The next block is the one `balloc` takes. -/
theorem core_take (hClean : Clean m) (hm : m.freeblock < BPB) :
    core { m with freeblock := m.freeblock + 1 } inum din = (core m inum din).take m.freeblock := by
  have hne : m.freeblock ≠ sb.bmapstart := Nat.ne_of_gt (Nat.lt_of_lt_of_le (by decide) hClean.ge)
  have hUpd : upd m.img sb.bmapstart (bitmap (m.freeblock + 1)) =
      upd (upd (upd m.img sb.bmapstart (bitmap m.freeblock)) sb.bmapstart (setBit (bitmap m.freeblock) m.freeblock))
        m.freeblock zeroBlock := by
    rw [upd_upd, bitmap_succ]
    funext b
    by_cases hb : b = m.freeblock
    · rw [hb, upd_self, upd_of_ne hne, hClean.zero _ (Nat.le_refl _)]
    · rw [upd_of_ne hb]
  have hTake : ((core m inum din).take m.freeblock).buf = upd (upd (upd m.img sb.bmapstart
      (bitmap m.freeblock)) sb.bmapstart (setBit (bitmap m.freeblock) m.freeblock)) m.freeblock zeroBlock := by
    rw [Core.take, Core.put_buf, Core.put_buf, core_sb, bblock_eq hm, Nat.mod_eq_of_lt hm, core_bitmap]
    rfl
  exact Core.ext (hUpd.trans hTake.symm) (hUpd.trans hTake.symm) rfl rfl

/-! ## Appending -/

theorem rsect_eq_some {sec : Nat} {b : Block} : rsect m sec = some b ↔ sec < FSSIZE ∧ m.img sec = b := by
  unfold rsect
  split
  · rename_i hLt
    rw [Option.some.injEq, and_iff_right hLt]
  · rename_i hGe
    exact iff_of_false nofun fun h => hGe h.1

/-- The blocks of the inode hold zeros from offset `s` on. -/
def Tail (B : Disk) (di : Dinode) (s : Nat) : Prop :=
  ∀ bn, addrAt B di (place bn) ≠ 0 → ∀ j, s ≤ bn * BSIZE + j → peek (B (addrAt B di (place bn))) j = 0

theorem Tail.attach {B' : Disk} {di' : Dinode} {s p : Nat} (h : Tail B di s)
    (hPlaces : ∀ q, addrAt B' di' q = if q = p then b else addrAt B di q) (hNew : B' b = zeroBlock)
    (hOld : ∀ bn, addrAt B di (place bn) ≠ 0 →
      B' (addrAt B di (place bn)) = B (addrAt B di (place bn))) : Tail B' di' s := by
  intro bn hne j hj
  rw [hPlaces] at hne ⊢
  split
  · rw [hNew, peek_zeroBlock]
  · rename_i hq
    rw [if_neg hq] at hne
    rw [hOld bn hne]
    exact h bn hne j hj

variable {D : Nat → Dinode} {U : Set Nat} {g : Abs}

/-- The next block is taken. -/
theorem Clean.take (h : Clean m) (hm : m.freeblock < FSSIZE) :
    Clean { m with freeblock := m.freeblock + 1 } where
  ge := Nat.le_succ_of_le h.ge
  le := hm
  zero b hb := h.zero b (Nat.le_of_succ_le hb)

theorem Clean.wsect (h : Clean m) (hx : x < m.freeblock) (v : Block) :
    Clean (wsect m x v) where
  ge := h.ge
  le := h.le
  zero b (hb : m.freeblock ≤ b) := (upd_of_ne (by omega)).trans (h.zero b hb)

theorem Clean.free_mem (h : Clean m) (hm : m.freeblock < FSSIZE) :
    m.freeblock ∈ (core m inum din).freeBlocks :=
  (mem_freeBlocks_core (Nat.le_trans h.le (by decide))).mpr ⟨hm, Nat.le_refl _⟩

/-- The blocks an inode has were taken before. -/
theorem lt_freeblock (h : RepD D U g (core m inum din)) (hClean : Clean m) {p : Nat}
    (hi : i < NINODES) (hType : (D i).type ≠ 0) (hp : addrAt (core m inum din).buf (D i) p ≠ 0) :
    nmeta ≤ addrAt (core m inum din).buf (D i) p ∧ addrAt (core m inum din).buf (D i) p < m.freeblock := by
  obtain ⟨hGe, hLt, hMark⟩ := h.inUse hi hType hp
  rw [core_sb] at hGe hLt hMark
  replace hLt : _ < FSSIZE := hLt
  rw [marked_core _ _ (Nat.le_trans hClean.le (by decide)) (Nat.lt_trans hLt (by decide)),
    decide_eq_true_eq] at hMark
  rw [sb_nmeta] at hGe
  exact ⟨hGe, hMark⟩

/-- `din.addrs[j] = freeblock++` -/
theorem slot_take (h : RepD D U g (core m inum din)) (hr : ⟨0, inum⟩ ∈ g.refs) (hLoaded : inum ∈ g.loaded)
    (hClean : Clean m) (hm : m.freeblock < FSSIZE) {j : Fin (NDIRECT + 1)} (hEmpty : din.addrs j = 0) :
    Grown D U g inum (core m inum din)
        (core { m with freeblock := m.freeblock + 1 } inum (Dinode.setAddr din j m.freeblock))
        (Dinode.setAddr din j m.freeblock) (insert m.freeblock (g.node inum).used) {j.val} ∧
      (∀ q, addrAt (core { m with freeblock := m.freeblock + 1 } inum
          (Dinode.setAddr din j m.freeblock)).buf (Dinode.setAddr din j m.freeblock) q =
        if q = j then m.freeblock else addrAt (core m inum din).buf din q) ∧
      ∀ s, Tail (core m inum din).buf din s →
        Tail (core { m with freeblock := m.freeblock + 1 } inum (Dinode.setAddr din j m.freeblock)).buf
          (Dinode.setAddr din j m.freeblock) s := by
  have hDin : din = D inum := h.din hr hLoaded
  subst hDin
  have hb : m.freeblock ∈ (core m inum (D inum)).freeBlocks := hClean.free_mem hm
  have hBpb : m.freeblock < BPB := Nat.lt_trans hm (by decide)
  have hState : ((core m inum (D inum)).take m.freeblock).setIp 0
      { (core m inum (D inum)).itable 0 with din := Dinode.setAddr (D inum) j m.freeblock } =
      core { m with freeblock := m.freeblock + 1 } inum (Dinode.setAddr (D inum) j m.freeblock) := by
    rw [← core_take hClean hBpb]
    exact core_setDin _
  obtain ⟨hGrown, hPlaces⟩ := h.attach_slot (r := ⟨0, inum⟩) hr hLoaded hEmpty hb
  rw [hState] at hGrown
  have hBuf : (core { m with freeblock := m.freeblock + 1 } inum
      (Dinode.setAddr (D inum) j m.freeblock)).buf = ((core m inum (D inum)).take m.freeblock).buf := by
    rw [← core_take hClean hBpb]
    rfl
  rw [hBuf]
  refine ⟨hGrown, hPlaces, fun s hTail => hTail.attach hPlaces (upd_self ..) fun bn hne => ?_⟩
  have hUse := h.inUse (h.inum_lt hr) (h.table.typed _ hLoaded) hne
  exact take_buf h.layout hm hUse.1 (take_ne hb hUse)

/-- `indirect[j] = freeblock++` -/
theorem entry_take (h : RepD D U g (core m inum din)) (hr : ⟨0, inum⟩ ∈ g.refs)
    (hLoaded : inum ∈ g.loaded) (hClean : Clean m) (hm : m.freeblock < FSSIZE) {j : Nat}
    (hj : j < NINDIRECT) (hInd : din.addrs (Fin.last NDIRECT) ≠ 0)
    (hEmpty : addrAt (core m inum din).buf din (j + (NDIRECT + 1)) = 0)
    (hm' : m' = wsect { m with freeblock := m.freeblock + 1 } (din.addrs (Fin.last NDIRECT)).toNat
      (setIndirect (m.img (din.addrs (Fin.last NDIRECT)).toNat) j m.freeblock)) :
    Grown D U g inum (core m inum din) (core m' inum din) din (insert m.freeblock (g.node inum).used)
        {j + (NDIRECT + 1)} ∧
      addrAt (core m' inum din).buf din (j + (NDIRECT + 1)) = m.freeblock ∧
      (∀ s, Tail (core m inum din).buf din s → Tail (core m' inum din).buf din s) ∧ Clean m' := by
  have hDin : din = D inum := h.din hr hLoaded
  subst hDin
  have hi : inum < NINODES := h.inum_lt hr
  have hType := h.table.typed _ hLoaded
  have hb : m.freeblock ∈ (core m inum (D inum)).freeBlocks := hClean.free_mem hm
  have hLast := addrAt_last (core m inum (D inum)).buf (D inum)
  have hne : addrAt (core m inum (D inum)).buf (D inum) NDIRECT ≠ 0 := by
    rw [hLast]
    exact fun h0 => hInd (BitVec.eq_of_toNat_eq h0)
  obtain ⟨hGe, hLt⟩ := lt_freeblock h hClean hi hType hne
  obtain ⟨hGrown, hPlaces⟩ := h.attach_entry (r := ⟨0, inum⟩) hr hLoaded hj hInd hEmpty hb
  have hState : ((core m inum (D inum)).take m.freeblock).put (addrAt (core m inum (D inum)).buf (D inum) NDIRECT)
      (setIndirect ((core m inum (D inum)).buf (addrAt (core m inum (D inum)).buf (D inum) NDIRECT)) j
        m.freeblock) = core m' inum (D inum) := by
    rw [hm', ← core_take hClean (Nat.lt_trans hm (by decide)), core_buf _ _ hGe, hLast]
    rw [hLast] at hGe
    exact (core_wsect hGe _).symm
  rw [hState] at hGrown hPlaces
  refine ⟨hGrown, (hPlaces _).trans (if_pos rfl), fun s hTail => hTail.attach hPlaces ?_ fun bn hbn => ?_, ?_⟩
  · rw [← hState, Core.put_buf, upd_of_ne (by omega)]
    exact upd_self ..
  · have hUse := h.inUse hi hType hbn
    have hOther : addrAt (core m inum (D inum)).buf (D inum) (place bn) ≠
        addrAt (core m inum (D inum)).buf (D inum) NDIRECT := fun hEq =>
      place_ne_last bn (h.place_unique hi hi hType hType hbn hEq).2
    rw [← hState, Core.put_buf, upd_of_ne hOther]
    exact take_buf h.layout hm hUse.1 (take_ne hb hUse)
  · rw [hm']
    rw [hLast] at hLt
    exact (hClean.take hm).wsect (Nat.lt_succ_of_lt hLt) _

/-- What taking blocks for the places `P` does to the kernel's view. -/
structure Mapped (D : Nat → Dinode) (U : Set Nat) (g : Abs) (inum : Nat) (m : Image) (din : Dinode)
    (m' : Image) (din' : Dinode) (u P : Finset Nat) : Prop where
  grown : Grown D U g inum (core m inum din) (core m' inum din') din' u P
  tail  : ∀ s, Tail (core m inum din).buf din s → Tail (core m' inum din').buf din' s
  clean : Clean m'
  inode : m'.freeinode = m.freeinode

theorem toNat_freeblock (hClean : Clean m) : (BitVec.ofNat 32 m.freeblock).toNat = m.freeblock :=
  (BitVec.toNat_ofNat ..).trans (Nat.mod_eq_of_lt (Nat.lt_of_le_of_lt hClean.le (by decide)))

theorem slot_spec (h : RepD D U g (core m inum din)) (hr : ⟨0, inum⟩ ∈ g.refs) (hLoaded : inum ∈ g.loaded)
    (hClean : Clean m) {j : Fin (NDIRECT + 1)} (hSlot : slot m din j = (m', din'))
    (hx : (din'.addrs j).toNat < FSSIZE) :
    (∃ u, Mapped D U g inum m din m' din' u {j.val}) ∧ din'.addrs j ≠ 0 := by
  unfold slot at hSlot
  split at hSlot
  · rename_i hEmpty
    cases hSlot
    have hPos : m.freeblock ≠ 0 := Nat.ne_of_gt (Nat.lt_of_lt_of_le (by decide) hClean.ge)
    rw [setAddr_addrs, if_pos rfl, toNat_freeblock hClean] at hx
    obtain ⟨hGrown, -, hTail⟩ := slot_take h hr hLoaded hClean hx hEmpty
    refine ⟨⟨_, hGrown, hTail, hClean.take hx, rfl⟩, fun h0 => hPos ?_⟩
    rw [setAddr_addrs, if_pos rfl] at h0
    rw [← toNat_freeblock hClean, h0]
    rfl
  · rename_i hFull
    cases hSlot
    have hDin : D inum = din := (h.din hr hLoaded).symm
    have hRefl := Grown.refl h inum {j.val}
    rw [hDin] at hRefl
    exact ⟨⟨_, hRefl, fun _ hTail => hTail, hClean, rfl⟩, hFull⟩

theorem mapBlock_spec {fbn : Nat} (h : RepD D U g (core m inum din)) (hr : ⟨0, inum⟩ ∈ g.refs)
    (hLoaded : inum ∈ g.loaded) (hClean : Clean m) (hbn : fbn < MAXFILE)
    (hMap : mapBlock m din fbn = some (m', din', x)) (hx : x < FSSIZE) :
    (∃ u, Mapped D U g inum m din m' din' u (needs fbn)) ∧
      addrAt (core m' inum din').buf din' (place fbn) = x ∧ x ≠ 0 := by
  have hM : MAXFILE = NDIRECT + NINDIRECT := rfl
  unfold mapBlock at hMap
  split at hMap
  · -- a direct block
    rename_i hDirect
    have hPlace : place fbn = fbn := if_pos hDirect
    have hNeeds : needs fbn = {fbn} := if_pos hDirect
    cases hSlot : slot m din ⟨fbn, Nat.lt_succ_of_lt hDirect⟩ with | mk m₁ din₁ =>
    simp only [hSlot] at hMap
    cases hMap
    obtain ⟨hMapped, hne⟩ := slot_spec h hr hLoaded hClean hSlot hx
    rw [hNeeds, hPlace]
    exact ⟨hMapped, addrAt_addrs _ _ ⟨fbn, _⟩, fun h0 => hne (BitVec.eq_of_toNat_eq h0)⟩
  · rename_i hDirect
    have hj : fbn - NDIRECT < NINDIRECT := by omega
    have hPlace : place fbn = fbn - NDIRECT + (NDIRECT + 1) := by
      rw [place, if_neg hDirect]
      omega
    have hNeeds : needs fbn = {NDIRECT, fbn - NDIRECT + (NDIRECT + 1)} := by
      rw [needs, if_neg hDirect, ← hPlace, place, if_neg hDirect]
    have hLastSub : {NDIRECT} ⊆ needs fbn := by
      rw [hNeeds]
      exact Finset.singleton_subset_iff.mpr (Finset.mem_insert_self ..)
    have hEntrySub : {fbn - NDIRECT + (NDIRECT + 1)} ⊆ needs fbn :=
      hPlace ▸ Finset.singleton_subset_iff.mpr (place_mem_needs fbn)
    cases hSlot : slot m din (Fin.last NDIRECT) with | mk m₁ din₁ =>
    rw [hSlot] at hMap
    obtain ⟨a, ha, hMap⟩ := Option.bind_eq_some_iff.mp hMap
    obtain ⟨hInd, rfl⟩ := rsect_eq_some.mp ha
    obtain ⟨⟨u₁, h₁⟩, hne⟩ := slot_spec h hr hLoaded hClean hSlot hInd
    have hRep := h₁.grown.rep
    have hSelf : upd D inum din₁ inum = din₁ := upd_self ..
    have hLast := addrAt_last (core m₁ inum din₁).buf din₁
    have hGe : nmeta ≤ (din₁.addrs (Fin.last NDIRECT)).toNat := by
      have hUsed := lt_freeblock hRep h₁.clean (i := inum) (p := NDIRECT) (hRep.inum_lt hr)
        (hRep.table.typed _ hLoaded) (by
          rw [hSelf, hLast]
          exact fun h0 => hne (BitVec.eq_of_toNat_eq h0))
      rw [hSelf, hLast] at hUsed
      exact hUsed.1
    have hAt := addrAt_entry (B := (core m₁ inum din₁).buf) hj hne
    rw [core_buf _ _ hGe] at hAt
    rw [hPlace]
    split at hMap
    · rename_i hEmpty
      cases hMap
      obtain ⟨h₂, hNew, hTail, hClean₂⟩ := entry_take hRep hr hLoaded h₁.clean hx hj hne
        (hAt.trans hEmpty) rfl
      refine ⟨⟨_, (h₁.grown.mono hLastSub).trans rfl (h₂.mono hEntrySub), fun s hs => hTail s (h₁.tail s hs),
        hClean₂, h₁.inode⟩, hNew, ?_⟩
      exact Nat.ne_of_gt (Nat.lt_of_lt_of_le (by decide) h₁.clean.ge)
    · rename_i hFull
      cases hMap
      exact ⟨⟨_, h₁.grown.mono hLastSub, h₁.tail, h₁.clean, h₁.inode⟩, hAt, hFull⟩

theorem Tail.poke {n : Nat} {f : Nat → UInt8} (h : RepD D U g (core m inum din)) (hi : inum < NINODES)
    (hType : din.type ≠ 0) (hD : D inum = din) (hTail : Tail (core m inum din).buf din off)
    (hb : addrAt (core m inum din).buf din (place (off / BSIZE)) ≠ 0) :
    Tail (upd (core m inum din).buf (addrAt (core m inum din).buf din (place (off / BSIZE)))
      (ByteBuf.poke ((core m inum din).buf (addrAt (core m inum din).buf din (place (off / BSIZE))))
        (off % BSIZE) n f)) din (off + n) := by
  have hSplit := Nat.div_add_mod off BSIZE
  subst hD
  intro bn hne j hj
  rw [addrAt_upd_data h hi hType hb] at hne ⊢
  by_cases hbn : bn = off / BSIZE
  · rw [hbn, Nat.mul_comm] at hj
    rw [hbn, upd_self, peek_poke_outside (Or.inr (by omega))]
    exact hTail _ hb j (by rw [Nat.mul_comm]; omega)
  · have hOther : addrAt (core m inum (D inum)).buf (D inum) (place bn) ≠
        addrAt (core m inum (D inum)).buf (D inum) (place (off / BSIZE)) := fun hEq =>
      hbn (place_inj (h.place_unique hi hi hType hType hne hEq).2)
    rw [upd_of_ne hOther]
    exact hTail bn hne j (by omega)

/-- What appending the bytes `p` at offset `off` does to the kernel's view: what `writei` does. -/
structure Appended (D : Nat → Dinode) (U : Set Nat) (g : Abs) (inum off : Nat) (p : List UInt8) (m : Image)
    (din : Dinode) (m' : Image) (din' : Dinode) (off' : Nat) : Prop where
  pos     : off' = off + p.length
  clean   : Clean m'
  inode   : m'.freeinode = m.freeinode
  tail    : Tail (core m inum din).buf din off → Tail (core m' inum din').buf din' off'
  written : ∃ u, Written D U g inum off p.length (core m inum din) (core m' inum din') din' u
    (overwrite (g.node inum).data off p.length fun j => p.getD j 0) p.length

theorem Appended.nil (h : RepD D U g (core m inum din)) (hr : ⟨0, inum⟩ ∈ g.refs)
    (hLoaded : inum ∈ g.loaded) (hClean : Clean m) (hOff : off ≤ (g.node inum).size) :
    Appended D U g inum off [] m din m din off where
  pos := rfl
  clean := hClean
  inode := rfl
  tail hTail := hTail
  written := by
    have hDin : D inum = din := (h.din hr hLoaded).symm
    have hRefl := Written.refl h 0 hOff
    rw [hDin] at hRefl
    exact ⟨_, by rwa [List.length_nil, overwrite_zero]⟩

/-- The block index and offset `iappend` computes. -/
theorem append_room (off : Nat) :
    (off / BSIZE + 1) * BSIZE - off = BSIZE - off % BSIZE ∧ off - off / BSIZE * BSIZE = off % BSIZE := by
  have hB : BSIZE = 1024 := rfl
  rw [hB]
  omega

/-- One turn of the loop: `n` bytes go into one block. -/
theorem append_turn {m₁ : Image} {din₁ : Dinode} {n : Nat} (f : Nat → UInt8)
    (h : RepD D U g (core m inum din)) (hr : ⟨0, inum⟩ ∈ g.refs) (hLoaded : inum ∈ g.loaded) (hU : inum ∈ U)
    (hClean : Clean m) (hOff : off ≤ (g.node inum).size) (hbn : off / BSIZE < MAXFILE)
    (hn : n ≤ BSIZE - off % BSIZE) (hMap : mapBlock m din (off / BSIZE) = some (m₁, din₁, x))
    (hx : x < FSSIZE) (hm' : m' = wsect m₁ x (poke (m₁.img x) (off % BSIZE) n f)) :
    Clean m' ∧ m'.freeinode = m.freeinode ∧
      (Tail (core m inum din).buf din off → Tail (core m' inum din₁).buf din₁ (off + n)) ∧
      ∃ u, Written D U g inum off n (core m inum din) (core m' inum din₁) din₁ u
        (overwrite (g.node inum).data off n f) n := by
  obtain ⟨⟨u, h₁⟩, rfl, hb⟩ := mapBlock_spec h hr hLoaded hClean hbn hMap hx
  have hi : inum < NINODES := h.inum_lt hr
  have hRep := h₁.grown.rep
  have hSelf : upd D inum din₁ inum = din₁ := upd_self ..
  have hType := hRep.table.typed _ hLoaded
  have hUsed := lt_freeblock hRep h₁.clean hi hType (by rwa [hSelf])
  rw [hSelf] at hType hUsed
  have hEnd : off + n ≤ MAXFILE * BSIZE := by
    have hMul : (off / BSIZE + 1) * BSIZE ≤ MAXFILE * BSIZE := Nat.mul_le_mul_right BSIZE hbn
    have hRoom := (append_room off).1
    have hLeft := left_pos off
    omega
  have hState : core m' inum din₁ = _ := hm' ▸ core_wsect hUsed.1 _
  rw [← core_buf inum din₁ hUsed.1] at hState
  refine ⟨hm' ▸ h₁.clean.wsect hUsed.2 _, hm' ▸ h₁.inode, fun hTail => ?_, u, ?_⟩
  · rw [hState]
    exact (h₁.tail off hTail).poke hRep hi hType hSelf hb
  · rw [hState]
    exact h₁.grown.turn hU hi (h.table.typed _ hLoaded) hb hOff (Nat.le_refl n) hn (Nat.le_refl n) hEnd
      (.inl rfl)

theorem iappendLoop_spec {fuel off' : Nat} {p : List UInt8} (h : RepD D U g (core m inum din))
    (hr : ⟨0, inum⟩ ∈ g.refs) (hLoaded : inum ∈ g.loaded) (hU : inum ∈ U) (hClean : Clean m)
    (hOff : off ≤ (g.node inum).size) (hFuel : p.length ≤ fuel)
    (hLoop : iappendLoop fuel m din off p = some (m', din', off')) :
    Appended D U g inum off p m din m' din' off' := by
  induction fuel generalizing m din D g off p with
  | zero =>
    obtain rfl := List.eq_nil_of_length_eq_zero (Nat.le_zero.mp hFuel)
    cases hLoop
    exact .nil h hr hLoaded hClean hOff
  | succ fuel ih =>
    rw [iappendLoop] at hLoop
    split at hLoop
    · rename_i hNil
      subst hNil
      cases hLoop
      exact .nil h hr hLoaded hClean hOff
    · rename_i hNil
      have hPos : 0 < p.length := List.length_pos_iff.mpr hNil
      simp only [append_room] at hLoop
      generalize hn : min p.length (BSIZE - off % BSIZE) = n at hLoop
      have hnp : n ≤ p.length := hn ▸ Nat.min_le_left ..
      have hnb : n ≤ BSIZE - off % BSIZE := hn ▸ Nat.min_le_right ..
      have hLeft := left_pos off
      split at hLoop
      · rename_i hbn
        obtain ⟨⟨m₁, din₁, x⟩, hMap, hLoop⟩ := Option.bind_eq_some_iff.mp hLoop
        obtain ⟨buf, hRead, hLoop⟩ := Option.bind_eq_some_iff.mp hLoop
        obtain ⟨hx, rfl⟩ := rsect_eq_some.mp hRead
        obtain ⟨hClean₂, hInode, hTail, u, hW⟩ := append_turn (fun j => p.getD j 0) h hr hLoaded hU hClean hOff
          hbn hnb hMap hx rfl
        have hLen : (p.drop n).length = p.length - n := List.length_drop
        obtain ⟨hEnd, hClean', hInode', hTail', u', hW'⟩ := ih hW.rep hr hLoaded hClean₂ (by
          rw [Abs.setNode_self]
          exact Nat.le_max_right ..) (by omega) hLoop
        rw [hLen] at hEnd hW'
        refine ⟨by omega, hClean', hInode'.trans hInode, fun h0 => hTail' (hTail h0), u', ?_⟩
        have hBoth := hW.trans hnp rfl hW'
        rw [Nat.add_sub_of_le hnp, Abs.setNode_self] at hBoth
        have hTwo := overwrite_overwrite (g.node inum).data off n (p.length - n) fun j => p.getD j 0
        rw [Nat.add_sub_of_le hnp] at hTwo
        have hGet : (fun j => (p.drop n).getD j 0) = fun j => p.getD (n + j) 0 := funext fun j => by
          rw [List.getD_eq_getElem?_getD, List.getD_eq_getElem?_getD, List.getElem?_drop]
        rw [hGet] at hBoth
        rw [← hTwo]
        exact hBoth
      · cases hLoop

/-! ## The inodes -/

/-- The image with the bitmap in place, and no inode in memory. -/
def bare (m : Image) : Core where
  buf := upd m.img sb.bmapstart (bitmap m.freeblock)
  disk := upd m.img sb.bmapstart (bitmap m.freeblock)
  sb := sb
  itable _ := Inode.empty

/-- Nobody points to an inode. -/
structure Idle (g : Abs) : Prop where
  refs   : g.refs = 0
  locks  : g.locks = ∅
  loaded : g.loaded = ∅

theorem Idle.tableOk (h : Idle g) (D : Nat → Dinode) : TableOk sb D g fun _ => Inode.empty := by
  have hNone : ∀ {P : Ref → Prop}, ∀ r ∈ g.refs, P r := fun r hr =>
    absurd (h.refs ▸ hr) (Multiset.notMem_zero r)
  have hLoaded : ∀ {P : Nat → Prop}, ∀ i ∈ g.loaded, P i := fun i hi =>
    absurd (h.loaded ▸ hi) (Set.notMem_empty i)
  exact {
    ref := fun k => by
      rw [h.refs]
      rfl
    slot := hNone
    dev := hNone
    inum := hNone
    range := hNone
    uniq := hNone
    valid := hNone
    copy := hNone
    loaded := hLoaded
    typed := hLoaded
    locked := fun k => iff_of_false nofun (h.locks ▸ Finset.notMem_empty k)
    held := fun k hk => absurd (h.locks ▸ hk) (Finset.notMem_empty k) }

/-- With the bitmap in place the image represents `g`. A free inode is zero, and so is what follows the
last byte of an inode in its blocks. -/
structure Sound (g : Abs) (m : Image) : Prop where
  idle  : Idle g
  clean : Clean m
  rep   : ∃ D, RepD D ∅ g (bare m) ∧ (∀ i, (D i).type = 0 → D i = Dinode.zero) ∧
    ∀ i < NINODES, (D i).type ≠ 0 → Tail (bare m).buf (D i) (g.node i).size

theorem bare_iblock (hi : i < NINODES) : (bare m).buf (sb.iblock i) = m.img (sb.iblock i) :=
  upd_of_ne (Nat.ne_of_lt (layout.iblock_lt i hi))

theorem iblock_lt_fssize (hi : i < NINODES) : sb.iblock i < FSSIZE :=
  Nat.lt_trans (layout.iblock_lt i hi) (by decide)

/-- The inode on disk is the current one. -/
theorem rinode_spec (h : RepD D ∅ g (bare m)) (hi : inum < NINODES) : rinode m inum = some (D inum) := by
  refine Option.bind_eq_some_iff.mpr ⟨m.img (sb.iblock inum), rsect_eq_some.mpr ⟨iblock_lt_fssize hi, rfl⟩, ?_⟩
  rw [← h.synced inum hi (Set.notMem_empty _), dinodeAt]
  exact congrArg (some <| Dinode.read · _) (bare_iblock hi).symm

/-- An inode is stored. -/
theorem winode_spec (hi : inum < NINODES) (h : winode m inum din = some m') :
    m'.freeinode = m.freeinode ∧ m'.freeblock = m.freeblock ∧
      m'.img = upd m.img (sb.iblock inum) (Dinode.write (m.img (sb.iblock inum)) (inum % IPB) din) ∧
      bare m' = { (bare m).put (sb.iblock inum)
        (Dinode.write ((bare m).buf (sb.iblock inum)) (inum % IPB) din) with itable := fun _ => Inode.empty } := by
  obtain ⟨buf, hRead, h⟩ := Option.bind_eq_some_iff.mp h
  obtain ⟨-, rfl⟩ := rsect_eq_some.mp hRead
  cases h
  have hne : sb.bmapstart ≠ sb.iblock inum := Nat.ne_of_gt (layout.iblock_lt inum hi)
  have hUpd : upd (upd m.img (sb.iblock inum) (Dinode.write (m.img (sb.iblock inum)) (inum % IPB) din))
      sb.bmapstart (bitmap m.freeblock) =
      upd (bare m).buf (sb.iblock inum) (Dinode.write ((bare m).buf (sb.iblock inum)) (inum % IPB) din) := by
    rw [bare_iblock hi]
    exact upd_comm hne.symm
  exact ⟨rfl, rfl, rfl, Core.ext hUpd hUpd rfl rfl⟩

/-- Blocks of different inodes are different. -/
theorem used_disjoint {c : Core} (h : RepD D U g c) {j : Nat} (hi : i < c.sb.ninodes)
    (hj : j < c.sb.ninodes) (hTi : (D i).type ≠ 0) (hTj : (D j).type ≠ 0) (hij : i ≠ j)
    (hb : b ∈ (g.node i).used) : b ∉ (g.node j).used := by
  intro hb'
  obtain ⟨hne, p, rfl⟩ := ((h.nodes i hi).used hTi b).mp hb
  obtain ⟨-, q, hq⟩ := ((h.nodes j hj).used hTj _).mp hb'
  exact hij (h.place_unique hi hj hTi hTj hne hq.symm).1

theorem Tail.congr {B' : Disk} {s : Nat} (h : Tail B di s)
    (hSame : ∀ q, addrAt B di q ≠ 0 → B' (addrAt B di q) = B (addrAt B di q)) : Tail B' di s := by
  have hAt := addrAt_congr (hSame NDIRECT)
  intro bn hne j hj
  rw [hAt] at hne ⊢
  rw [hSame _ hne]
  exact h bn hne j hj

theorem Idle.setNode (h : Idle g) (i : Nat) (n : Node) : Idle (g.setNode i n) := ⟨h.refs, h.locks, h.loaded⟩

/-- Block 1 holds no inode. -/
theorem one_ne_iblock (i : Nat) : 1 ≠ sb.iblock i := by
  have hStart : 1 < sb.inodestart := by decide
  exact Nat.ne_of_lt (Nat.lt_of_lt_of_le hStart (Nat.le_add_left ..))

/-- An inode is stored that has the blocks it had. -/
theorem Sound.store {D : Nat → Dinode} {g' : Abs} (hRun : winode m inum di = some m')
    (hIdle : Idle g') (hi : inum < NINODES) (hClean : Clean m) (hRep : RepD D {inum} g (bare m)) (hSb : g'.sb = g.sb)
    (hSame : ∀ j ≠ inum, g'.node j = g.node j)
    (hPlaces : ∀ q, (if di.type = 0 then 0 else addrAt (bare m).buf di q) = addrs sb D (bare m).buf (inum, q))
    (hDir : (D inum).type ≠ T_DIR → di.type ≠ T_DIR ∨ ∀ q, addrs sb D (bare m).buf (inum, q) = 0)
    (hNode : NodeOk (bare m).buf di (g'.node inum) True) (hType : di.type ≠ 0)
    (hZero : ∀ i ≠ inum, (D i).type = 0 → D i = Dinode.zero)
    (hTail : Tail (bare m).buf di (g'.node inum).size)
    (hTails : ∀ i < NINODES, i ≠ inum → (D i).type ≠ 0 → Tail (bare m).buf (D i) (g.node i).size) :
    m'.freeinode = m.freeinode ∧ m'.img 1 = m.img 1 ∧ Sound g' m' := by
  obtain ⟨hInode, hBlock, hImg, hBare⟩ := winode_spec hi hRun
  have hStore := hRep.store di hi hSb (hIdle.tableOk _) hSame hPlaces hDir hNode
  have hBlk : sb.iblock inum < nmeta := sb_nmeta ▸ iblock_lt_nmeta layout hi
  have hData : ∀ x, nmeta ≤ x → (bare m').buf x = (bare m).buf x := fun x hx => by
    rw [hBare]
    exact upd_of_ne (by omega)
  refine ⟨hInode, hImg ▸ upd_of_ne (one_ne_iblock inum), hIdle, ⟨hBlock ▸ hClean.ge, hBlock ▸ hClean.le, ?_⟩,
    upd D inum di, ?_, fun i h0 => ?_, fun i hi' hTi => ?_⟩
  · intro b hb
    rw [hBlock] at hb
    rw [hImg, upd_of_ne (by have := hClean.ge; omega), hClean.zero b hb]
  · rw [hBare]
    rwa [Set.sdiff_self] at hStore
  · by_cases hEq : i = inum
    · rw [hEq, upd_self] at h0
      exact absurd h0 hType
    · rw [upd_of_ne hEq] at h0 ⊢
      exact hZero i hEq h0
  · have hUse : ∀ q, addrs sb D (bare m).buf (i, q) ≠ 0 → nmeta ≤ addrs sb D (bare m).buf (i, q) := fun q hq =>
      sb_nmeta ▸ (hRep.owns.sound (i, q) hq).1
    by_cases hEq : i = inum
    · rw [hEq, upd_self]
      refine hTail.congr fun q hq => hData _ ?_
      have hAt := hPlaces q
      rw [if_neg hType, ← hEq] at hAt
      rw [hAt] at hq ⊢
      exact hUse q hq
    · rw [upd_of_ne hEq] at hTi ⊢
      rw [hSame i hEq]
      refine (hTails i hi' hEq hTi).congr fun q hq => hData _ ?_
      have hAt := addrs_of_alloc (B := (bare m).buf) (p := q) (show i < sb.ninodes from hi') hTi
      rw [← hAt] at hq ⊢
      exact hUse q hq

theorem Sound.ialloc {type : BitVec 16} (h : Sound g m) (hi : m.freeinode < NINODES)
    (hFree : g.node m.freeinode = Node.free) (hType : type ≠ 0) (hRun : ialloc m type = some (m', inum)) :
    inum = m.freeinode ∧ m'.freeinode = m.freeinode + 1 ∧ m'.img 1 = m.img 1 ∧
      Sound (g.setNode inum { Node.fresh type with nlink := 1 }) m' := by
  obtain ⟨D, hRep, hZero, hTails⟩ := h.rep
  obtain ⟨m₁, hWrite, hRun⟩ := Option.bind_eq_some_iff.mp hRun
  cases hRun
  have hNone : (D m.freeinode).type = 0 := by
    rw [← (hRep.nodes _ hi).type, hFree]
    rfl
  have hNoAddrs : ∀ q, addrs sb D (bare m).buf (m.freeinode, q) = 0 := fun q => if_neg fun hAlloc => hAlloc.2 hNone
  have hStored : _ ∧ _ ∧ Sound (g.setNode m.freeinode { Node.fresh type with nlink := 1 }) m' :=
    Sound.store hWrite (h.idle.setNode _ _) hi ⟨h.clean.ge, h.clean.le, h.clean.zero⟩
      (hRep.mono (Set.empty_subset _)) rfl (fun j hj => Abs.setNode_of_ne hj) (fun q => ?_)
      (fun _ => .inr hNoAddrs) ?_ hType (fun i _ => hZero i) ?_ (fun i hi _ => hTails i hi)
  · exact ⟨rfl, hStored.1, hStored.2.1, hStored.2.2⟩
  · rw [if_neg hType]
    exact (addrAt_zero _ rfl q).trans (hNoAddrs q).symm
  · rw [Abs.setNode_self]
    exact { nodeOk_fresh (bare m).buf hType True with
      free := fun h0 => absurd h0 hType
      nlink := fun _ => rfl }
  · exact fun bn hne => absurd (addrAt_zero _ rfl _) hne

/-- The inode with the bytes `p` appended. -/
def Node.append (n : Node) (p : List UInt8) (u : Finset Nat) : Node :=
  { n with size := n.size + p.length, data := overwrite n.data n.size p.length fun j => p.getD j 0, used := u }

/-- Inode `inum` is in memory. -/
def opened (g : Abs) (inum : Nat) : Abs := { g with refs := {⟨0, inum⟩}, loaded := {inum} }

theorem Sound.iappend {p : List UInt8} (h : Sound g m) (hi : 1 ≤ inum ∧ inum < NINODES)
    (hType : (g.node inum).type ≠ 0) (hRun : iappend m inum p = some m') :
    m'.freeinode = m.freeinode ∧ m'.img 1 = m.img 1 ∧
      ∃ u, Sound (g.setNode inum (Node.append (g.node inum) p u)) m' := by
  obtain ⟨D, hRep, hZero, hTails⟩ := h.rep
  have hN := hRep.nodes inum hi.2
  rw [hN.type] at hType
  have hSize := hN.size hType (Set.notMem_empty _)
  obtain ⟨din, hRead, hRun⟩ := Option.bind_eq_some_iff.mp hRun
  obtain ⟨⟨m₁, din₁, off⟩, hLoop, hWrite⟩ := Option.bind_eq_some_iff.mp hRun
  cases (rinode_spec hRep hi.2).symm.trans hRead
  have hLoad : RepD D {inum} (opened g inum) (core m inum (D inum)) :=
    (hRep.setTable (opened g inum) rfl rfl (tableOk_oneEntry rfl h.idle.locks rfl hi hType)).mono
      (Set.empty_subset _)
  obtain ⟨rfl, hClean, hInode, hTail, u, hW⟩ := iappendLoop_spec hLoad (Multiset.mem_singleton_self _)
    (Set.mem_singleton _) (Set.mem_singleton _) h.clean (Nat.le_of_eq hSize.symm) (Nat.le_refl _) hLoop
  rw [← hSize] at hTail hW hWrite
  have hMax : max (g.node inum).size ((g.node inum).size + p.length) = (g.node inum).size + p.length :=
    Nat.max_eq_right (Nat.le_add_right ..)
  have hSelf : upd D inum din₁ inum = din₁ := upd_self ..
  have hType' : din₁.type ≠ 0 := by rwa [hW.fields]
  have hRep₁ : RepD (upd D inum din₁) {inum} (g.setNode inum (Node.append (g.node inum) p u)) (bare m₁) := by
    have hRep := hW.rep
    rw [show (opened g inum).node inum = g.node inum from rfl, hMax] at hRep
    exact hRep.setTable _ rfl rfl ((h.idle.setNode _ _).tableOk _)
  have hN₁ := hRep₁.nodes inum hi.2
  rw [hSelf, Abs.setNode_self] at hN₁
  have hBound : (g.node inum).size + p.length < 2 ^ 32 :=
    Nat.lt_of_le_of_lt hN₁.bound (by decide)
  have hStored : _ ∧ _ ∧ Sound (g.setNode inum (Node.append (g.node inum) p u)) m' :=
    Sound.store hWrite (h.idle.setNode _ _) hi.2 hClean hRep₁ rfl (fun _ _ => rfl) (fun q => ?_) (fun hFile => ?_)
      ?_ hType' (fun i hne h0 => ?_) ?_ (fun i hi' hne hTi => ?_)
  · refine ⟨hStored.1.trans hInode, hStored.2.1.trans ?_, u, hStored.2.2⟩
    -- block 1 is no data block and not the bitmap
    rw [← core_one inum din₁, ← core_one inum (D inum)]
    refine hW.buf 1 (fun hIn => ?_) fun b hb => ?_
    · obtain ⟨hne, q, hq⟩ := (hN₁.used hType' 1).mp hIn
      have hUse := hRep₁.inUse (p := q) hi.2 (by rwa [hSelf]) (by rwa [hSelf, hq])
      rw [hSelf, hq] at hUse
      exact absurd hUse.1 (show ¬ sb.nmeta ≤ 1 by decide)
    · rw [core_sb, bblock_eq (Nat.lt_trans (show b < FSSIZE from hb) (by decide))]
      decide
  · rw [if_neg hType', addrs_of_alloc hi.2 (by rwa [hSelf]), hSelf]
    rfl
  · rw [hSelf] at hFile
    exact .inl hFile
  · rw [Abs.setNode_self]
    exact { hN₁ with
      size := fun _ _ => by
        rw [BitVec.toNat_ofNat, Nat.mod_eq_of_lt hBound]
        rfl }
  · rw [upd_of_ne hne] at h0 ⊢
    exact hZero i h0
  · rw [Abs.setNode_self]
    exact hTail (hTails inum hi.2 hType)
  · rw [upd_of_ne hne] at hTi ⊢
    rw [Abs.setNode_of_ne hne]
    refine (hTails i hi' hTi).congr fun q hq => hW.buf _ (fun hIn => ?_) fun b hb => ?_
    · have hUsed := ((hRep.nodes i hi').used hTi _).mpr ⟨hq, q, rfl⟩
      rw [← Abs.setNode_of_ne (g := g) (n := Node.append (g.node inum) p u) hne] at hUsed
      exact used_disjoint hRep₁ hi' hi.2 (by rwa [upd_of_ne hne]) (by rwa [hSelf]) hne hUsed
        (by rwa [Abs.setNode_self])
    · have hGe := (hRep.inUse hi' hTi hq).1
      have hLt := layout.bblock_lt b hb
      exact Nat.ne_of_gt (Nat.lt_of_lt_of_le hLt hGe)

/-! ## The files -/

/-- An inode with one link that holds `bytes`. -/
def holding (type : BitVec 16) (bytes : List UInt8) (u : Finset Nat) : Node where
  type := type
  major := 0
  minor := 0
  nlink := 1
  size := bytes.length
  data o := bytes.getD o 0
  used := u
  holes := ∅

/-- The root directory comes first. -/
def typeOf (i : Nat) : BitVec 16 := if i = 0 then T_DIR else T_FILE

theorem typeOf_ne_zero (i : Nat) : typeOf i ≠ 0 := by
  unfold typeOf
  split <;> decide

/-- Inode `i + 1` holds the bytes `l[i]`. -/
def nodeOf (l : List (List UInt8)) (u : Nat → Finset Nat) : Nat → Node
  | 0 => Node.free
  | i + 1 => (l[i]?.map fun bytes => holding (typeOf i) bytes (u (i + 1))).getD Node.free

def absOf (l : List (List UInt8)) (u : Nat → Finset Nat) : Abs where
  sb := sb
  node := nodeOf l u
  refs := 0
  locks := ∅
  loaded := ∅

theorem nodeOf_some {l : List (List UInt8)} {u : Nat → Finset Nat} {bytes : List UInt8}
    (h : l[i]? = some bytes) : nodeOf l u (i + 1) = holding (typeOf i) bytes (u (i + 1)) := by
  rw [nodeOf, h]
  rfl

theorem nodeOf_none {l : List (List UInt8)} {u : Nat → Finset Nat} (h : l.length ≤ i) :
    nodeOf l u (i + 1) = Node.free := by
  rw [nodeOf, List.getElem?_eq_none h]
  rfl

theorem append_holding (type : BitVec 16) (b p : List UInt8) (u u' : Finset Nat) :
    Node.append (holding type b u) p u' = holding type (b ++ p) u' := by
  have hData : (overwrite (fun o => b.getD o 0) b.length p.length fun j => p.getD j 0) =
      fun o => (b ++ p).getD o 0 := by
    funext o
    unfold overwrite
    split
    · rename_i hIn
      rw [List.getD_append_right _ _ _ _ hIn.1]
    · rename_i hOut
      by_cases ho : o < b.length
      · rw [List.getD_append _ _ _ _ ho]
      · rw [List.getD_eq_default _ _ (show (b ++ p).length ≤ o by rw [List.length_append]; omega)]
        exact List.getD_eq_default _ _ (Nat.le_of_not_lt ho)
  unfold Node.append holding
  simp only [hData, List.length_append]

theorem Abs.ext_node {g g' : Abs} (hSb : g.sb = g'.sb) (hNode : g.node = g'.node) (hRefs : g.refs = g'.refs)
    (hLocks : g.locks = g'.locks) (hLoaded : g.loaded = g'.loaded) : g = g' := by
  cases g
  cases g'
  cases hSb
  cases hNode
  cases hRefs
  cases hLocks
  cases hLoaded
  rfl

/-- A new inode. -/
theorem absOf_snoc (l : List (List UInt8)) (u : Nat → Finset Nat) :
    (absOf l u).setNode (l.length + 1) { Node.fresh (typeOf l.length) with nlink := 1 } =
      absOf (l ++ [[]]) (upd u (l.length + 1) ∅) := by
  refine Abs.ext_node rfl (funext fun i => ?_) rfl rfl rfl
  cases i with
  | zero => exact Abs.setNode_of_ne (Nat.succ_ne_zero l.length).symm
  | succ i =>
    by_cases hi : i = l.length
    · subst hi
      rw [Abs.setNode_self]
      have hNew : (l ++ [[]])[l.length]? = some [] := List.getElem?_concat_length
      refine Eq.trans ?_ (nodeOf_some hNew).symm
      rw [upd_self]
      rfl
    · rw [Abs.setNode_of_ne (by omega)]
      show nodeOf l u (i + 1) = nodeOf (l ++ [[]]) _ (i + 1)
      have hGet : (l ++ [[]])[i]? = l[i]? := by
        rcases Nat.lt_or_gt_of_ne hi with hlt | hgt
        · rw [List.getElem?_append_left hlt]
        · rw [List.getElem?_eq_none (by rw [List.length_append]; exact hgt), List.getElem?_eq_none (by omega)]
      rw [nodeOf, nodeOf, hGet, upd_of_ne (by omega)]

/-- Bytes are appended to inode `k + 1`. -/
theorem absOf_set {l : List (List UInt8)} {k : Nat} {b : List UInt8} (hk : l[k]? = some b)
    (u : Nat → Finset Nat) (p : List UInt8) (v : Finset Nat) :
    (absOf l u).setNode (k + 1) (Node.append ((absOf l u).node (k + 1)) p v) =
      absOf (l.set k (b ++ p)) (upd u (k + 1) v) := by
  have hLt : k < l.length := (List.getElem?_eq_some_iff.mp hk).1
  refine Abs.ext_node rfl (funext fun i => ?_) rfl rfl rfl
  cases i with
  | zero => exact Abs.setNode_of_ne (Nat.succ_ne_zero k).symm
  | succ i =>
    by_cases hi : i = k
    · subst hi
      rw [Abs.setNode_self]
      refine Eq.trans ?_ (nodeOf_some (List.getElem?_set_self hLt)).symm
      rw [upd_self, ← append_holding _ b p (u (i + 1))]
      exact congrArg (Node.append · p v) (nodeOf_some hk)
    · rw [Abs.setNode_of_ne (by omega)]
      show nodeOf l u (i + 1) = nodeOf (l.set k (b ++ p)) _ (i + 1)
      rw [nodeOf, nodeOf, List.getElem?_set_ne (Ne.symm hi), upd_of_ne (by omega)]

/-- The image while it is built: the inodes from 1 on hold the bytes `l`. -/
structure Built (l : List (List UInt8)) (m : Image) : Prop where
  sound : ∃ u, Sound (absOf l u) m
  inode : m.freeinode = l.length + 1
  room  : l.length < NINODES
  super : m.img 1 = Superblock.write zeroBlock sb

variable {l : List (List UInt8)}

theorem Built.ialloc {type : BitVec 16} (h : Built l m) (hRoom : l.length + 1 < NINODES)
    (hType : type = typeOf l.length) (hRun : ialloc m type = some (m', inum)) :
    inum = l.length + 1 ∧ Built (l ++ [[]]) m' := by
  obtain ⟨u, hSound⟩ := h.sound
  obtain ⟨rfl, hInode, hSuper, hSound'⟩ := hSound.ialloc (h.inode ▸ hRoom)
    (by rw [h.inode]; exact nodeOf_none (Nat.le_refl _)) (hType ▸ typeOf_ne_zero _) hRun
  rw [hType, h.inode, absOf_snoc] at hSound'
  exact ⟨h.inode, ⟨_, hSound'⟩, by rw [hInode, h.inode, List.length_append]; rfl,
    by rwa [List.length_append], hSuper.trans h.super⟩

theorem Built.iappend {k : Nat} {b p : List UInt8} (h : Built l m) (hk : l[k]? = some b)
    (hRun : iappend m (k + 1) p = some m') : Built (l.set k (b ++ p)) m' := by
  obtain ⟨u, hSound⟩ := h.sound
  have hLt : k < l.length := (List.getElem?_eq_some_iff.mp hk).1
  have hRoom := h.room
  have hNode : (absOf l u).node (k + 1) = _ := nodeOf_some hk
  obtain ⟨hInode, hSuper, v, hSound'⟩ := hSound.iappend ⟨Nat.succ_pos k, by omega⟩
    (by rw [hNode]; exact typeOf_ne_zero k) hRun
  rw [absOf_set hk] at hSound'
  exact ⟨⟨_, hSound'⟩, by rw [hInode, h.inode, List.length_set], by rwa [List.length_set],
    hSuper.trans h.super⟩

theorem Built.copyFile {fuel k : Nat} {b data : List UInt8} (h : Built l m) (hk : l[k]? = some b)
    (hFuel : data.length ≤ fuel) (hRun : copyFile (k + 1) fuel m data = some m') :
    Built (l.set k (b ++ data)) m' := by
  have hLt : k < l.length := (List.getElem?_eq_some_iff.mp hk).1
  have hSame : l.set k b = l := by rw [← (List.getElem?_eq_some_iff.mp hk).2, List.set_getElem_self]
  induction fuel generalizing l m b data with
  | zero =>
    obtain rfl := List.eq_nil_of_length_eq_zero (Nat.le_zero.mp hFuel)
    cases hRun
    rwa [List.append_nil, hSame]
  | succ fuel ih =>
    rw [Mkfs.copyFile] at hRun
    split at hRun
    · rename_i hNil
      cases hRun
      rwa [hNil, List.append_nil, hSame]
    · rename_i hNil
      have hPos := List.length_pos_iff.mpr hNil
      obtain ⟨m₁, hFirst, hRest⟩ := Option.bind_eq_some_iff.mp hRun
      have h₁ := h.iappend hk hFirst
      have h₂ := ih h₁ (List.getElem?_set_self hLt) (by
        rw [List.length_drop]
        have hB : BSIZE = 1024 := rfl
        omega) hRest (by rwa [List.length_set]) (by rw [List.set_set])
      rwa [List.set_set, List.append_assoc, List.take_append_drop] at h₂

theorem Built.addFile {f : List UInt8 × List UInt8} (h : Built (dir :: l) m)
    (hRoom : l.length + 2 < NINODES) (hRun : addFile m f = some m') :
    ∃ name, shortname f.1 = some name ∧
      Built ((dir ++ entBytes name (l.length + 2)) :: (l ++ [f.2])) m' := by
  obtain ⟨name, hName, hRun⟩ := Option.bind_eq_some_iff.mp hRun
  obtain ⟨⟨m₁, inum⟩, hAlloc, hRun⟩ := Option.bind_eq_some_iff.mp hRun
  obtain ⟨m₂, hDir, hCopy⟩ := Option.bind_eq_some_iff.mp hRun
  obtain ⟨rfl, h₁⟩ := h.ialloc hRoom rfl hAlloc
  have h₂ := h₁.iappend (k := 0) rfl hDir
  have h₃ := h₂.copyFile (k := l.length + 1) (b := []) (by simp) (Nat.le_refl _) hCopy
  refine ⟨name, hName, ?_⟩
  have hSet : (List.set (dir :: l ++ [[]]) 0 (dir ++ entBytes name (l.length + 2))).set (l.length + 1)
      ([] ++ f.2) = (dir ++ entBytes name (l.length + 2)) :: (l ++ [f.2]) := by
    simp
  rw [← hSet]
  exact h₃

/-- The bytes of a directory with these entries. -/
def dirOf (es : List (List UInt8 × Nat)) : List UInt8 := es.flatMap fun e => entBytes e.1 e.2

theorem dirOf_cons (e : List UInt8 × Nat) (es : List (List UInt8 × Nat)) :
    dirOf (e :: es) = entBytes e.1 e.2 ++ dirOf es := List.flatMap_cons

theorem length_dirOf (es : List (List UInt8 × Nat)) : (dirOf es).length = 16 * es.length := by
  induction es with
  | nil => rfl
  | cons e es ih =>
    rw [dirOf_cons, List.length_append, length_entBytes, ih, List.length_cons]
    omega

theorem Built.files {files : List (List UInt8 × List UInt8)} (h : Built (dir :: l) m)
    (hRoom : l.length + files.length + 1 < NINODES) (hRun : files.foldlM Mkfs.addFile m = some m') :
    ∃ names : List (List UInt8), files.map (fun f => shortname f.1) = names.map some ∧
      Built ((dir ++ dirOf (names.zipIdx (l.length + 2))) :: (l ++ files.map Prod.snd)) m' := by
  induction files generalizing m dir l with
  | nil =>
    cases hRun
    exact ⟨[], rfl, by rwa [List.zipIdx_nil, dirOf, List.flatMap_nil, List.append_nil, List.map_nil, List.append_nil]⟩
  | cons f files ih =>
    rw [List.foldlM_cons] at hRun
    obtain ⟨m₁, hFirst, hRest⟩ := Option.bind_eq_some_iff.mp hRun
    rw [List.length_cons] at hRoom
    obtain ⟨name, hName, h₁⟩ := h.addFile (by omega) hFirst
    obtain ⟨names, hNames, h₂⟩ := ih h₁ (by rw [List.length_append, List.length_singleton]; omega) hRest
    refine ⟨name :: names, by rw [List.map_cons, List.map_cons, hName, hNames], ?_⟩
    rw [List.append_assoc, List.length_append, List.append_assoc] at h₂
    exact h₂

/-- The image of zeros with a superblock. -/
def blank : Image := wsect { img := fun _ => zeroBlock, freeinode := 1, freeblock := nmeta } 1
  (Superblock.write zeroBlock sb)

theorem blank_img (hb : b ≠ 1) : blank.img b = zeroBlock := upd_of_ne hb

theorem blank_super : blank.img 1 = Superblock.write zeroBlock sb := by
  simp only [blank, wsect, upd_self]

theorem marked_blank (hb : b < FSSIZE) : marked sb (bare blank).buf b = decide (b < nmeta) :=
  marked_core (m := blank) 0 Dinode.zero (by decide) (Nat.lt_trans hb (by decide))

theorem sound_blank : Sound (absOf [] fun _ => ∅) blank := by
  have hNode : ∀ i, (absOf [] fun _ => ∅).node i = Node.free := fun i => by
    cases i with
    | zero => rfl
    | succ i => exact nodeOf_none (l := []) (u := fun _ => ∅) (Nat.zero_le i)
  have hNone : ∀ x B, addrs sb (fun _ => Dinode.zero) B x = 0 := fun x B => if_neg fun hAlloc => hAlloc.2 rfl
  have hPos : 1 < nmeta := by decide
  refine ⟨⟨rfl, rfl, rfl⟩, ⟨Nat.le_refl _, by decide, fun b hb => blank_img ?_⟩, fun _ => Dinode.zero, ?_,
    fun _ _ => rfl, fun i _ h0 => absurd rfl h0⟩
  · exact Nat.ne_of_gt (Nat.lt_of_lt_of_le hPos hb)
  refine {
    sb := rfl
    layout := layout
    table := Idle.tableOk ⟨rfl, rfl, rfl⟩ _
    synced := fun i hi _ => ?_
    nodes := fun i _ => ?_
    owns := ⟨fun x hx => absurd (hNone x _) hx, fun x _ hx => absurd (hNone x _) hx, ?_⟩
    system := fun b hb => ?_
    logged := fun b hb => absurd rfl hb }
  · show Dinode.read ((bare blank).buf (sb.iblock i)) _ = _
    rw [bare_iblock hi, blank_img (one_ne_iblock i).symm, Dinode.read_zeroBlock]
  · rw [hNode]
    exact nodeOk_free ..
  · rintro b ⟨hGe, hLt, hMarked⟩
    replace hMarked := (marked_blank hLt).symm.trans hMarked
    rw [decide_eq_true_eq] at hMarked
    exact absurd hMarked (Nat.not_lt.mpr (sb_nmeta ▸ hGe))
  · have hLt : b < nmeta := sb_nmeta ▸ hb
    exact (marked_blank (Nat.lt_trans hLt (by decide))).trans (decide_eq_true hLt)

theorem built_blank : Built [] blank := ⟨⟨_, sound_blank⟩, rfl, by decide, blank_super⟩

/-- The entries of the root directory. -/
def rootEntries (names : List (List UInt8)) : List (List UInt8 × Nat) :=
  (dot, ROOTINO) :: (dotdot, ROOTINO) :: names.zipIdx 2

theorem length_rootEntries (names : List (List UInt8)) : (rootEntries names).length = names.length + 2 := by
  rw [rootEntries, List.length_cons, List.length_cons, List.length_zipIdx]

theorem built_root (hRun : root = some m) : Built [dirOf (rootEntries [])] m := by
  unfold root at hRun
  obtain ⟨⟨m₁, inum⟩, hAlloc, hRun⟩ := Option.bind_eq_some_iff.mp hRun
  obtain ⟨m₂, hDot, hDotdot⟩ := Option.bind_eq_some_iff.mp hRun
  obtain ⟨rfl, h₁⟩ := built_blank.ialloc (by decide) rfl hAlloc
  exact (h₁.iappend (k := 0) rfl hDot).iappend (k := 0) rfl hDotdot

/-! ## The finished image -/

/-- The size is rounded up, to the next block even when it is a multiple of the block size: then
the last block index has no block. -/
def rounded (n : Node) : Node :=
  { n with size := (n.size / BSIZE + 1) * BSIZE, holes := {bn | n.size ≤ bn * BSIZE} }

theorem Tail.mono {s s' : Nat} (h : Tail B di s) (hs : s ≤ s') : Tail B di s' :=
  fun bn hne j hj => h bn hne j (Nat.le_trans hs hj)

theorem nodeOk_rounded {n : Node} {p : Prop} (h : NodeOk B din n p) (hType : din.type ≠ 0)
    (hBound : n.size / BSIZE < MAXFILE) (hHoles : n.holes = ∅) (hData : ∀ o, n.size ≤ o → n.data o = 0)
    (hTail : Tail B din n.size) :
    NodeOk B { din with size := BitVec.ofNat 32 ((n.size / BSIZE + 1) * BSIZE) } (rounded n) True := by
  have hLe : (n.size / BSIZE + 1) * BSIZE ≤ MAXFILE * BSIZE := Nat.mul_le_mul_right BSIZE hBound
  have hMax : MAXFILE * BSIZE < 2 ^ 32 := by decide
  have hNoHole : ∀ bn, bn ∉ n.holes := fun bn => by
    rw [hHoles]
    exact Set.notMem_empty bn
  exact {
    type := h.type
    free := fun h0 => absurd h0 hType
    major := h.major
    minor := h.minor
    nlink := h.nlink
    size := fun _ _ => by
      rw [BitVec.toNat_ofNat, Nat.mod_eq_of_lt (Nat.lt_of_le_of_lt hLe hMax)]
      rfl
    bound := hLe
    mapped := fun bn (hHole : ¬ n.size ≤ bn * BSIZE) _ => h.mapped bn (hNoHole bn) (Nat.lt_of_not_le hHole)
    data := fun o _ (hHole : ¬ n.size ≤ o / BSIZE * BSIZE) => by
      by_cases ho : o < n.size
      · exact h.data o ho (hNoHole _)
      · refine Eq.trans ?_ (hData o (Nat.le_of_not_lt ho)).symm
        refine hTail _ (h.mapped _ (hNoHole _) (Nat.lt_of_not_le hHole)) _ ?_
        rw [Nat.mul_comm, Nat.div_add_mod]
        exact Nat.le_of_not_lt ho
    used := h.used }

/-- The inodes of the finished image: the root directory with the bytes `dir`, then the files. -/
def imageOf (dir : List UInt8) (l : List (List UInt8)) (u : Nat → Finset Nat) : Abs :=
  (absOf (dir :: l) u).setNode ROOTINO (rounded (holding T_DIR dir (u ROOTINO)))

/-- What the kernel starts with: `fsinit` reads the superblock. -/
def boot (d : Disk) : Core where
  buf := d
  disk := d
  sb := Superblock.read (d 1)
  itable _ := Inode.empty

theorem finish_spec {d : Disk} (h : Built (dir :: l) m) (hDir : dir.length / BSIZE < MAXFILE)
    (hRun : finish m = some d) : ∃ m' u, Sound (imageOf dir l u) m' ∧ boot d = bare m' := by
  obtain ⟨u, hSound⟩ := h.sound
  obtain ⟨D, hRep, hZero, hTails⟩ := hSound.rep
  unfold finish at hRun
  obtain ⟨din, hRead, hRest⟩ := Option.bind_eq_some_iff.mp hRun
  obtain ⟨m', hWrite, hImg⟩ := Option.bind_eq_some_iff.mp hRest
  have hi : ROOTINO < NINODES := by decide
  cases (rinode_spec hRep hi).symm.trans hRead
  have hN : NodeOk (bare m).buf (D ROOTINO) (holding T_DIR dir (u ROOTINO)) True :=
    (hRep.nodes ROOTINO hi).imp fun _ => Set.notMem_empty _
  have hType : (D ROOTINO).type ≠ 0 := by
    rw [← hN.type]
    exact typeOf_ne_zero 0
  have hTail : Tail (bare m).buf (D ROOTINO) dir.length := hTails ROOTINO hi hType
  rw [← hN.size hType trivial] at hWrite
  have hStored : _ ∧ m'.img 1 = m.img 1 ∧ Sound (imageOf dir l u) m' :=
    Sound.store hWrite ⟨rfl, rfl, rfl⟩ hi hSound.clean (hRep.mono (Set.empty_subset _)) rfl
      (fun j hj => Abs.setNode_of_ne hj) (fun q => ?_) (fun hFile => .inl hFile) ?_ hType (fun i _ => hZero i) ?_
      (fun i hi _ => hTails i hi)
  · refine ⟨m', u, hStored.2.2, ?_⟩
    have hSuper : m'.img 1 = Superblock.write zeroBlock sb := hStored.2.1.trans h.super
    split at hImg
    · cases hImg
      refine Core.ext rfl rfl ?_ rfl
      show Superblock.read (upd m'.img sb.bmapstart (bitmap m'.freeblock) 1) = sb
      rw [upd_of_ne (by decide), hSuper]
      decide +kernel
    · cases hImg
  · rw [if_neg hType, addrs_of_alloc hi hType]
    rfl
  · rw [imageOf, Abs.setNode_self]
    exact nodeOk_rounded hN hType hDir rfl (fun o ho => List.getD_eq_default _ _ ho) hTail
  · rw [imageOf, Abs.setNode_self]
    refine hTail.mono ?_
    have hLt := Nat.lt_div_mul_add (a := dir.length) (show 0 < BSIZE by decide)
    rw [← Nat.succ_mul] at hLt
    exact Nat.le_of_lt hLt

/-- What `mkfs` has written when it ends. -/
theorem main_spec {files : List (List UInt8 × List UInt8)} {d : Disk} (hLen : files.length < NINODES - 1)
    (hRun : main files = some d) : ∃ (names : List (List UInt8)) (m : Image) (u : _), names.length = files.length ∧
      files.map (fun f => shortname f.1) = names.map some ∧
      Sound (imageOf (dirOf (rootEntries names)) (files.map Prod.snd) u) m ∧ boot d = bare m := by
  unfold main at hRun
  obtain ⟨m₀, hRoot, hRest⟩ := Option.bind_eq_some_iff.mp hRun
  obtain ⟨m₁, hFiles, hFinish⟩ := Option.bind_eq_some_iff.mp hRest
  obtain ⟨names, hNames, hBuilt⟩ := (built_root hRoot).files (l := []) (by
    have hN : NINODES = 200 := rfl
    rw [List.length_nil]
    omega) hFiles
  have hCount : names.length = files.length := by
    have := congrArg List.length hNames
    rw [List.length_map, List.length_map] at this
    exact this.symm
  have hDir : (dirOf (rootEntries names)).length / BSIZE < MAXFILE := by
    rw [length_dirOf, length_rootEntries, hCount]
    have hN : NINODES = 200 := rfl
    have hB : BSIZE = 1024 := rfl
    have hM : MAXFILE = 268 := rfl
    rw [hB, hM]
    omega
  obtain ⟨m, u, hSound, hBoot⟩ := finish_spec hBuilt hDir hFinish
  exact ⟨names, m, u, hCount, hNames, hSound, hBoot⟩

theorem nodeOf_holes (l : List (List UInt8)) (u : Nat → Finset Nat) (i : Nat) : (nodeOf l u i).holes = ∅ := by
  cases i with
  | zero => rfl
  | succ i =>
    rw [nodeOf]
    cases l[i]? <;> rfl

theorem holes_imageOf {u : Nat → Finset Nat} {bn : Nat} (hDir : dir.length % BSIZE ≠ 0)
    (hbn : bn * BSIZE < ((imageOf dir l u).node i).size) : bn ∉ ((imageOf dir l u).node i).holes := by
  by_cases hi : i = ROOTINO
  · subst hi
    rw [imageOf, Abs.setNode_self] at hbn ⊢
    intro (hHole : dir.length ≤ bn * BSIZE)
    have hLe : bn ≤ dir.length / BSIZE := Nat.le_of_lt_succ (Nat.lt_of_mul_lt_mul_right hbn)
    have hMul := Nat.mul_le_mul_right BSIZE hLe
    have hSplit := Nat.div_add_mod dir.length BSIZE
    rw [Nat.mul_comm] at hSplit
    omega
  · rw [imageOf, Abs.setNode_of_ne hi, show (absOf (dir :: l) u).node i = nodeOf (dir :: l) u i from rfl,
      nodeOf_holes]
    exact Set.notMem_empty bn

/-- A block number kept by an inode of the image `d`. -/
def blockAt (d : Disk) (i p : Nat) : Nat := addrAt d (dinodeAt sb d i) p

end Xv6.Mkfs
