import Xv6.Fs.Rep

/-!
# xv6 — the block allocator

`balloc` takes the first free block, zeroed, and `bfree` gives one back; both change the bitmap and
nothing else. Then the step that every allocation of the file system is made of: a block taken
by `balloc` and noted at an empty place of a locked inode (`RepD.attach`), and the step that
every release is made of (`RepD.detach`).
-/

namespace Xv6.Fs

open ByteBuf Hoare Owner

variable {b i p x : Nat} {Q : Unit → Core → Prop} {v : Block} {sb : Superblock} {B : Disk} {di : Dinode}

variable {E : Panic → Prop} {c c' : Core}

/-! ## Primitive actions -/

@[simp] theorem wp_bread {Q : Block → Core → Prop} :
    wp E (bread b) Q c ↔ Q (c.buf b) c := by
  rw [bread, wp_bind, wp_get, wp_pure]

@[simp] theorem wp_inode {k : Nat} {Q : Inode → Core → Prop} :
    wp E (inode k) Q c ↔ Q (c.itable k) c := by
  rw [inode, wp_bind, wp_get, wp_pure]

/-- Entry `k` of the table becomes `ip`. -/
def Core.setIp (c : Core) (k : Nat) (ip : Inode) : Core := { c with itable := upd c.itable k ip }

@[simp] theorem wp_setInode {k : Nat} {f : Inode → Inode} :
    wp E (setInode k f) Q c ↔ Q () (c.setIp k (f (c.itable k))) :=
  wp_modify

@[simp] theorem wp_setDin {k : Nat} {f : Dinode → Dinode} :
    wp E (setDin k f) Q c ↔
      Q () (c.setIp k { c.itable k with din := f (c.itable k).din }) :=
  wp_modify

@[simp] theorem wp_setBuf :
    wp E (setBuf b v) Q c ↔ Q () { c with buf := upd c.buf b v } :=
  wp_modify

@[simp] theorem wp_logWrite :
    wp E (logWrite b) Q c ↔ Q () { c with disk := upd c.disk b (c.buf b) } :=
  wp_modify

/-- Block `b` is changed to `v` and logged. -/
def Core.put (c : Core) (b : Nat) (v : Block) : Core :=
  { c with buf := upd c.buf b v, disk := upd c.disk b v }

@[simp] theorem Core.put_buf (b : Nat) (v : Block) : (c.put b v).buf = upd c.buf b v := rfl
@[simp] theorem Core.put_disk (b : Nat) (v : Block) : (c.put b v).disk = upd c.disk b v := rfl
@[simp] theorem Core.put_sb (b : Nat) (v : Block) : (c.put b v).sb = c.sb := rfl
@[simp] theorem Core.put_itable (b : Nat) (v : Block) : (c.put b v).itable = c.itable := rfl
@[simp] theorem Core.setIp_buf (k : Nat) (ip : Inode) : (c.setIp k ip).buf = c.buf := rfl
@[simp] theorem Core.setIp_disk (k : Nat) (ip : Inode) : (c.setIp k ip).disk = c.disk := rfl
@[simp] theorem Core.setIp_sb (k : Nat) (ip : Inode) : (c.setIp k ip).sb = c.sb := rfl
@[simp] theorem Core.setIp_itable (k : Nat) (ip : Inode) :
    (c.setIp k ip).itable = upd c.itable k ip := rfl

/-- A buffer that is changed and then logged. -/
theorem wp_update {α : Type} {m : M α} {Q : α → Core → Prop} :
    wp E (do setBuf b v; logWrite b; m) Q c ↔ wp E m Q (c.put b v) := by
  rw [wp_bind, wp_setBuf, wp_bind, wp_logWrite]
  simp only [upd_self]
  rfl

theorem wp_update_last :
    wp E (do setBuf b v; logWrite b) Q c ↔ Q () (c.put b v) := by
  rw [wp_bind, wp_setBuf, wp_logWrite]
  simp only [upd_self]
  rfl

/-! ## The bitmap -/

/-- Block `b` is marked and zeroed. -/
def Core.take (c : Core) (b : Nat) : Core :=
  (c.put (c.sb.bblock b) (setBit (c.buf (c.sb.bblock b)) (b % BPB))).put b zeroBlock

/-- The mark of block `b` is cleared. -/
def Core.unmark (c : Core) (b : Nat) : Core :=
  c.put (c.sb.bblock b) (clearBit (c.buf (c.sb.bblock b)) (b % BPB))

/-- The blocks below `size` that are not marked. -/
def Core.freeBlocks (c : Core) : Finset Nat :=
  (Finset.range c.sb.size).filter fun b => marked c.sb c.buf b = false

theorem mem_freeBlocks :
    b ∈ c.freeBlocks ↔ b < c.sb.size ∧ marked c.sb c.buf b = false := by
  rw [Core.freeBlocks, Finset.mem_filter, Finset.mem_range]

theorem bblock_add (sb : Superblock) (bi : Nat) (hb : b % BPB = 0) (hi : bi < BPB) :
    sb.bblock (b + bi) = sb.bblock b ∧ (b + bi) % BPB = bi := by
  have hB : BPB = 8192 := rfl
  unfold Superblock.bblock
  rw [hB] at hb hi ⊢
  constructor <;> omega

/-- The search goes on at `b` when the bits below `b` are all set. -/
theorem ballocFrom_spec {fuel : Nat} (hb : b % BPB = 0)
    (hBelow : ∀ x < b, x < c.sb.size → marked c.sb c.buf x = true)
    (hFuel : c.sb.size ≤ b + fuel * BPB) (hOut : c.freeBlocks = ∅ → E .ballocOutOfBlocks) :
    wp E (ballocFrom fuel b)
      (fun r c' => r ∈ c.freeBlocks ∧ (∀ x < r, marked c.sb c.buf x = true) ∧ c' = c.take r) c := by
  have hB : BPB = 8192 := rfl
  induction fuel generalizing b with
  | zero =>
    rw [ballocFrom, wp_throw]
    apply hOut
    rw [Finset.eq_empty_iff_forall_notMem]
    intro x hx
    obtain ⟨hlt, hFree⟩ := mem_freeBlocks.mp hx
    rw [hBelow x (by omega) hlt] at hFree
    exact absurd hFree (by decide)
  | succ fuel ih =>
    rw [ballocFrom, wp_bind, wp_get, wp_ite]
    refine ⟨fun hlt => ?_, fun hge => ?_⟩
    · rw [wp_bind, wp_bread]
      split
      · -- a clear bit in this bitmap block: it is the first one
        rename_i bi hFind
        obtain ⟨hClear, hMem, hFirst⟩ := List.find?_range_eq_some.mp hFind
        rw [List.mem_range, Nat.lt_min] at hMem
        obtain ⟨hBlk, hMod⟩ := bblock_add c.sb bi hb hMem.1
        rw [wp_update, bzero, wp_bind, wp_update_last, wp_pure]
        refine ⟨?_, ?_, ?_⟩
        · rw [mem_freeBlocks, marked, hBlk, hMod]
          exact ⟨by omega, by simpa using hClear⟩
        · intro x hx
          by_cases hxb : x < b
          · exact hBelow x hxb (by omega)
          · obtain ⟨hBlk', hMod'⟩ := bblock_add c.sb (x - b) hb (by omega)
            have hSet := hFirst (x - b) (by omega)
            rw [show b + (x - b) = x by omega] at hBlk' hMod'
            rw [marked, hBlk', hMod']
            simpa using hSet
        · rw [Core.take, hBlk, hMod]
      · rename_i hNone
        have hAll := List.find?_eq_none.mp hNone
        refine ih (by rw [hB] at hb ⊢; omega) (fun x hx hxs => ?_) (by rw [Nat.succ_mul] at hFuel; omega)
        by_cases hxb : x < b
        · exact hBelow x hxb hxs
        · obtain ⟨hBlk', hMod'⟩ := bblock_add c.sb (x - b) hb (by omega)
          have hSet := hAll (x - b) (List.mem_range.mpr (Nat.lt_min.mpr ⟨by omega, by omega⟩))
          rw [show b + (x - b) = x by omega] at hBlk' hMod'
          rw [marked, hBlk', hMod']
          simpa using hSet
    · rw [wp_throw]
      apply hOut
      rw [Finset.eq_empty_iff_forall_notMem]
      intro x hx
      obtain ⟨hlt, hFree⟩ := mem_freeBlocks.mp hx
      rw [hBelow x (by omega) hlt] at hFree
      exact absurd hFree (by decide)

/-- `balloc` takes the first free block. -/
theorem balloc_spec (hOut : c.freeBlocks = ∅ → E .ballocOutOfBlocks) :
    wp E balloc
      (fun r c' => r ∈ c.freeBlocks ∧ (∀ x < r, marked c.sb c.buf x = true) ∧ c' = c.take r) c := by
  have hB : BPB = 8192 := rfl
  rw [balloc, wp_bind, wp_get]
  refine ballocFrom_spec (by decide) (fun x hx => absurd hx (Nat.not_lt_zero x)) ?_ hOut
  rw [hB]
  omega

theorem bfree_spec (hb : marked c.sb c.buf b = true) :
    wp E (bfree b) (fun _ c' => c' = c.unmark b) c := by
  rw [bfree, wp_bind, wp_get, wp_bind, wp_bread, wp_ite]
  exact ⟨fun _ => wp_update_last.mpr rfl, fun hClear => absurd hb hClear⟩

/-! ## What the bitmap operations leave alone -/

theorem iblock_ne_bblock (hL : sb.Layout) (hi : i < sb.ninodes)
    (b : Nat) : sb.iblock i ≠ sb.bblock b := by
  have h := hL.iblock_lt i hi
  have hb : sb.bmapstart ≤ sb.bblock b := Nat.le_add_left _ _
  omega

theorem iblock_lt_nmeta (hL : sb.Layout) (hi : i < sb.ninodes) :
    sb.iblock i < sb.nmeta :=
  Nat.lt_trans (hL.iblock_lt i hi) hL.bmap_lt

theorem bblock_mod_inj (hBlk : sb.bblock x = sb.bblock b)
    (hMod : x % BPB = b % BPB) : x = b := by
  have hB : BPB = 8192 := rfl
  unfold Superblock.bblock at hBlk
  rw [hB] at hBlk hMod
  omega

theorem marked_unmark (b x : Nat) :
    marked c.sb (c.unmark b).buf x = (decide (x ≠ b) && marked c.sb c.buf x) := by
  have hLt : b % BPB < BPB := Nat.mod_lt _ (by decide)
  by_cases hBlk : c.sb.bblock x = c.sb.bblock b
  · rw [marked, Core.unmark, Core.put_buf, hBlk, upd_self, bit_clearBit hLt, marked, hBlk]
    congr 1
    rw [decide_eq_decide]
    exact not_congr ⟨bblock_mod_inj hBlk, fun h => by rw [h]⟩
  · have hne : x ≠ b := fun h => hBlk (by rw [h])
    rw [marked, Core.unmark, Core.put_buf, upd_of_ne hBlk, decide_eq_true hne, Bool.true_and]
    rfl

theorem marked_upd (hne : sb.bblock x ≠ b) :
    marked sb (upd B b v) x = marked sb B x := by
  rw [marked, upd_of_ne hne]
  rfl

theorem marked_take (hne : c.sb.bblock x ≠ b) :
    marked c.sb (c.take b).buf x = (decide (x = b) || marked c.sb c.buf x) := by
  have hLt : b % BPB < BPB := Nat.mod_lt _ (by decide)
  rw [Core.take, Core.put_buf, marked_upd hne, Core.put_buf]
  by_cases hBlk : c.sb.bblock x = c.sb.bblock b
  · rw [marked, hBlk, upd_self, bit_setBit hLt, marked, hBlk]
    congr 1
    rw [decide_eq_decide]
    exact ⟨bblock_mod_inj hBlk, fun h => by rw [h]⟩
  · have hne : x ≠ b := fun h => hBlk (by rw [h])
    rw [marked_upd hBlk, decide_eq_false hne, Bool.false_or]

theorem bblock_ne_data (hL : sb.Layout) (hb : sb.nmeta ≤ b) (hx : x < sb.size) :
    sb.bblock x ≠ b := by
  have := hL.bblock_lt x hx
  omega

theorem dinodeAt_upd (hb : sb.iblock i ≠ b) : dinodeAt sb (upd B b v) i = dinodeAt sb B i := by
  rw [dinodeAt, upd_of_ne hb]
  rfl

theorem dinodeAt_take (hL : c.sb.Layout) (hb : c.sb.nmeta ≤ b)
    (hi : i < c.sb.ninodes) : dinodeAt c.sb (c.take b).buf i = dinodeAt c.sb c.buf i := by
  have := iblock_lt_nmeta hL hi
  rw [Core.take, Core.put_buf, dinodeAt_upd (by omega), Core.put_buf,
    dinodeAt_upd (iblock_ne_bblock hL hi b)]

theorem dinodeAt_unmark (hL : c.sb.Layout) (b : Nat) (hi : i < c.sb.ninodes) :
    dinodeAt c.sb (c.unmark b).buf i = dinodeAt c.sb c.buf i :=
  dinodeAt_upd (iblock_ne_bblock hL hi b)

theorem take_buf (hL : c.sb.Layout) (hb : b < c.sb.size) (hx : c.sb.nmeta ≤ x)
    (hne : x ≠ b) : (c.take b).buf x = c.buf x := by
  have := hL.bblock_lt b hb
  rw [Core.take, Core.put_buf, upd_of_ne hne, Core.put_buf, upd_of_ne (by omega)]

theorem unmark_buf (hL : c.sb.Layout) (hb : b < c.sb.size) (hx : c.sb.nmeta ≤ x) :
    (c.unmark b).buf x = c.buf x := by
  have := hL.bblock_lt b hb
  rw [Core.unmark, Core.put_buf, upd_of_ne (by omega)]

/-- Logged changes bring buffer and disk together. -/
theorem put_unlogged (h : (c.put b v).buf x ≠ (c.put b v).disk x) :
    x ≠ b ∧ c.buf x ≠ c.disk x := by
  rw [Core.put_buf, Core.put_disk] at h
  by_cases hx : x = b
  · rw [hx, upd_self, upd_self] at h
    exact absurd rfl h
  · rw [upd_of_ne hx, upd_of_ne hx] at h
    exact ⟨hx, h⟩

/-! ## The places of an inode -/

theorem addrAt_addrs (B : Disk) (di : Dinode) (j : Fin (NDIRECT + 1)) :
    addrAt B di j = (di.addrs j).toNat := by
  rw [addrAt, dif_pos j.isLt]

/-- The indirect block is at place `NDIRECT`. -/
theorem addrAt_last (B : Disk) (di : Dinode) :
    addrAt B di NDIRECT = (di.addrs (Fin.last NDIRECT)).toNat :=
  addrAt_addrs B di (Fin.last NDIRECT)

theorem addrAt_entry {j : Nat} (hj : j < NINDIRECT)
    (hInd : di.addrs (Fin.last NDIRECT) ≠ 0) :
    addrAt B di (j + (NDIRECT + 1)) = indirect (B (di.addrs (Fin.last NDIRECT)).toNat) j := by
  rw [addrAt, dif_neg (by omega), Nat.add_sub_cancel, if_neg]
  rintro (h | h)
  · exact hInd h
  · omega

theorem addrAt_of_last_zero (hp : NDIRECT < p)
    (hInd : di.addrs (Fin.last NDIRECT) = 0) : addrAt B di p = 0 := by
  rw [addrAt, dif_neg (by omega), if_pos (Or.inl hInd)]

/-- Places are read from the inode and its indirect block only. -/
theorem addrAt_congr {B' : Disk}
    (h : addrAt B di NDIRECT ≠ 0 → B' (addrAt B di NDIRECT) = B (addrAt B di NDIRECT)) (p : Nat) :
    addrAt B' di p = addrAt B di p := by
  rw [addrAt_last] at h
  unfold addrAt
  split
  · rfl
  · split
    · rfl
    · rename_i hInd
      have hne : (di.addrs (Fin.last NDIRECT)).toNat ≠ 0 := by
        intro h0
        exact hInd (Or.inl (BitVec.eq_of_toNat_eq h0))
      rw [h hne]

theorem addrs_of_alloc {D : Nat → Dinode}
    (hi : i < sb.ninodes) (hType : (D i).type ≠ 0) : addrs sb D B (i, p) = addrAt B (D i) p :=
  if_pos ⟨hi, hType⟩

theorem addrs_ne_zero {D : Nat → Dinode} {x : Nat × Nat} (h : addrs sb D B x ≠ 0) :
    x.1 < sb.ninodes ∧ (D x.1).type ≠ 0 ∧ addrs sb D B x = addrAt B (D x.1) x.2 := by
  unfold addrs at *
  split at h
  · rename_i hAlloc
    exact ⟨hAlloc.1, hAlloc.2, if_pos hAlloc⟩
  · exact absurd rfl h

theorem place_ne_last (bn : Nat) : place bn ≠ NDIRECT := by
  unfold place
  split <;> omega

theorem place_inj {a : Nat} (h : place a = place b) : a = b := by
  unfold place at h
  split at h <;> split at h <;> omega

/-! ## Taking a block for an inode, and giving blocks back -/

variable {D : Nat → Dinode} {U : Set Nat} {g : Abs}

/-- An inode looks the same as long as its blocks do. -/
theorem NodeOk.frame {B' : Disk} {n : Node} {p : Prop} (h : NodeOk B di n p)
    (hBuf : di.type ≠ 0 → ∀ q, addrAt B di q ≠ 0 → B' (addrAt B di q) = B (addrAt B di q)) :
    NodeOk B' di n p := by
  by_cases hType : di.type = 0
  · have hFree := h.free hType
    subst hFree
    exact {
      h with
      mapped := fun bn _ hbn => absurd hbn (Nat.not_lt_zero _)
      data := fun o ho => absurd ho (Nat.not_lt_zero _)
      used := fun h0 => absurd hType h0 }
  · have hAddr := addrAt_congr (hBuf hType NDIRECT)
    exact {
      h with
      mapped := fun bn hHole hbn => by
        rw [hAddr]
        exact h.mapped bn hHole hbn
      data := fun o ho hHole => by
        have hMap := h.mapped _ hHole (Nat.lt_of_le_of_lt (Nat.div_mul_le_self o BSIZE) ho)
        rw [hAddr, hBuf hType _ hMap]
        exact h.data o ho hHole
      used := fun h0 b => by
        simp only [hAddr]
        exact h.used h0 b }

/-- The inode's empty place `p` is filled with block `b`. -/
theorem NodeOk.attach {B' : Disk} {di' : Dinode} {n : Node} {s : Prop}
    (h : NodeOk B di n s) (hType : di.type ≠ 0) (hFields : di' = { di with addrs := di'.addrs })
    (hEmpty : addrAt B di p = 0) (hb : b ≠ 0)
    (hPlaces : ∀ q, addrAt B' di' q = if q = p then b else addrAt B di q)
    (hBuf : ∀ bn, addrAt B di (place bn) ≠ 0 →
      B' (addrAt B di (place bn)) = B (addrAt B di (place bn))) :
    NodeOk B' di' { n with used := insert b n.used } False := by
  have hType' : di'.type = di.type := by rw [hFields]
  -- below the size every place was filled already, so it is not `p`
  have hOld : ∀ bn ∉ n.holes, bn * BSIZE < n.size → place bn ≠ p := fun bn hHole hbn hEq =>
    h.mapped bn hHole hbn (hEq ▸ hEmpty)
  exact {
    type := by rw [hType', ← h.type]
    free := fun h0 => absurd (hType'.symm.trans h0) hType
    major := fun _ => by rw [hFields]; exact h.major hType
    minor := fun _ => by rw [hFields]; exact h.minor hType
    nlink := fun _ => by rw [hFields]; exact h.nlink hType
    size := fun _ hFalse => hFalse.elim
    bound := h.bound
    mapped := fun bn hHole hbn => by
      rw [hPlaces, if_neg (hOld bn hHole hbn)]
      exact h.mapped bn hHole hbn
    data := fun o ho hHole => by
      have hbn : o / BSIZE * BSIZE < n.size :=
        Nat.lt_of_le_of_lt (Nat.div_mul_le_self o BSIZE) ho
      rw [hPlaces, if_neg (hOld _ hHole hbn), hBuf _ (h.mapped _ hHole hbn)]
      exact h.data o ho hHole
    used := fun _ b' => by
      rw [Finset.mem_insert, h.used hType b']
      constructor
      · rintro (rfl | ⟨hne, q, hq⟩)
        · exact ⟨hb, p, by rw [hPlaces, if_pos rfl]⟩
        · have hqp : q ≠ p := fun hEq => hne (by rw [← hq, hEq, hEmpty])
          exact ⟨hne, q, by rw [hPlaces, if_neg hqp, hq]⟩
      · rintro ⟨hne, q, hq⟩
        rw [hPlaces] at hq
        split at hq
        · exact Or.inl hq.symm
        · exact Or.inr ⟨hne, q, hq⟩ }

theorem NodeOk.imp {n : Node} {p q : Prop} (h : NodeOk B di n p)
    (hpq : q → p) : NodeOk B di n q :=
  { h with size := fun hType hq => h.size hType (hpq hq) }

theorem RepD.free_ge (h : RepD D U g c) (hb : b ∈ c.freeBlocks) : c.sb.nmeta ≤ b := by
  obtain ⟨hlt, hFree⟩ := mem_freeBlocks.mp hb
  by_contra hlt'
  rw [h.system b (by omega)] at hFree
  exact absurd hFree (by decide)

theorem RepD.inUse (h : RepD D U g c) (hi : i < c.sb.ninodes)
    (hType : (D i).type ≠ 0) (hp : addrAt c.buf (D i) p ≠ 0) :
    InUse c.sb c.buf (addrAt c.buf (D i) p) := by
  have hAddr := addrs_of_alloc (B := c.buf) (p := p) hi hType
  rw [← hAddr] at hp ⊢
  exact h.owns.sound _ hp

/-- Two places with the same block are the same place. -/
theorem RepD.place_unique (h : RepD D U g c) {j q : Nat} (hi : i < c.sb.ninodes)
    (hj : j < c.sb.ninodes) (hTi : (D i).type ≠ 0) (hTj : (D j).type ≠ 0)
    (hp : addrAt c.buf (D i) p ≠ 0) (hpq : addrAt c.buf (D i) p = addrAt c.buf (D j) q) :
    i = j ∧ p = q := by
  have hp' := addrs_of_alloc (B := c.buf) (p := p) hi hTi
  have hq' := addrs_of_alloc (B := c.buf) (p := q) hj hTj
  have hEq := h.owns.inj (i, p) (j, q) (by rwa [hp']) (by rw [hp', hq', hpq])
  exact ⟨congrArg Prod.fst hEq, congrArg Prod.snd hEq⟩

/-- The places of inode `i` are now those of `di` on `B`, all others are as before. -/
def Moved (sb : Superblock) (D : Nat → Dinode) (B : Disk) (i : Nat) (B' : Disk) (di : Dinode)
    (y : Nat × Nat) : Nat :=
  if y.1 = i then (if di.type = 0 then 0 else addrAt B' di y.2) else addrs sb D B y

/-- Every operation changes one inode, and what other inodes use it leaves alone. -/
theorem RepD.change {g' : Abs} {U' : Set Nat} (h : RepD D U g c)
    (hi : i < c.sb.ninodes) (hSb : c'.sb = c.sb) (hG : g'.sb = g.sb)
    (hTable : TableOk c.sb (upd D i di) g' c'.itable)
    (hSynced : ∀ j < c.sb.ninodes, j ∉ U' → dinodeAt c.sb c'.buf j = upd D i di j)
    (hU : ∀ j ≠ i, j ∈ U → j ∈ U')
    (hSame : ∀ j ≠ i, g'.node j = g.node j)
    (hOther : ∀ j < c.sb.ninodes, j ≠ i → (D j).type ≠ 0 → ∀ q, addrAt c.buf (D j) q ≠ 0 →
      c'.buf (addrAt c.buf (D j) q) = c.buf (addrAt c.buf (D j) q))
    (hNode : NodeOk c'.buf di (g'.node i) (i ∉ U'))
    (hOwns : Owns (Moved c.sb D c.buf i c'.buf di) (InUse c.sb c'.buf))
    (hSystem : ∀ b < c.sb.nmeta, marked c.sb c'.buf b = true)
    (hLogged : ∀ b, c'.buf b ≠ c'.disk b → c.sb.nmeta ≤ b ∧
      ∀ y, Moved c.sb D c.buf i c'.buf di y = b → y.2 ≠ NDIRECT ∧ (upd D i di y.1).type ≠ T_DIR) :
    RepD (upd D i di) U' g' c' := by
  have hMoved : ∀ y, addrs c.sb (upd D i di) c'.buf y = Moved c.sb D c.buf i c'.buf di y := by
    rintro ⟨j, q⟩
    unfold Moved addrs
    by_cases hji : j = i
    · subst hji
      simp only [upd_self, if_true, hi, true_and, ne_eq, ite_not]
    · simp only [if_neg hji, upd_of_ne hji]
      split
      · rename_i hAlloc
        exact addrAt_congr (hOther j hAlloc.1 hji hAlloc.2 NDIRECT) q
      · rfl
  refine {
    sb := by rw [hSb, hG, h.sb]
    layout := by rw [hSb]; exact h.layout
    table := by rw [hSb]; exact hTable
    synced := by rw [hSb]; exact hSynced
    nodes := ?_
    owns := by rw [hSb]; exact hOwns.congr hMoved fun _ => Iff.rfl
    system := by rw [hSb]; exact hSystem
    logged := ?_ }
  · intro j hj
    rw [hSb] at hj
    by_cases hji : j = i
    · subst hji
      rwa [upd_self]
    · rw [upd_of_ne hji, hSame j hji]
      exact ((h.nodes j hj).frame (hOther j hj hji)).imp fun hNot hIn => hNot (hU j hji hIn)
  · intro b hb
    obtain ⟨hGe, hPlain⟩ := hLogged b hb
    rw [hSb]
    exact ⟨hGe, fun y hy => hPlain y (by rw [← hMoved y, hy])⟩

theorem TableOk.setNode {t : Nat → Inode} (h : TableOk sb D g t) (i : Nat)
    (n : Node) : TableOk sb D (g.setNode i n) t :=
  { h with }

/-- The free block `b` is noted at the empty place `p` of inode `i`. -/
theorem RepD.attach (h : RepD D U g c) {di' : Dinode} (hi : i < c.sb.ninodes)
    (hType : (D i).type ≠ 0) (hEmpty : addrAt c.buf (D i) p = 0) (hb : b ∈ c.freeBlocks)
    (hSb : c'.sb = c.sb) (hTable : TableOk c.sb (upd D i di') g c'.itable)
    (hMarks : ∀ x < c.sb.size, marked c.sb c'.buf x = (decide (x = b) || marked c.sb c.buf x))
    (hInodes : ∀ j < c.sb.ninodes, dinodeAt c.sb c'.buf j = dinodeAt c.sb c.buf j)
    (hFields : di' = { D i with addrs := di'.addrs })
    (hPlaces : ∀ q, addrAt c'.buf di' q = if q = p then b else addrAt c.buf (D i) q)
    (hBuf : ∀ x, InUse c.sb c.buf x → x ≠ addrAt c.buf (D i) NDIRECT → c'.buf x = c.buf x)
    (hLogged : ∀ x, c'.buf x ≠ c'.disk x → x ≠ b ∧ c.buf x ≠ c.disk x) :
    RepD (upd D i di') (insert i U)
      (g.setNode i { g.node i with used := insert b (g.node i).used }) c' := by
  have hL := h.layout
  have hGe := h.free_ge hb
  obtain ⟨hLt, hFree⟩ := mem_freeBlocks.mp hb
  have hb0 : b ≠ 0 := by
    have := hL.bmap_lt
    omega
  have hType' : di'.type = (D i).type := by rw [hFields]
  have hMoved : ∀ y, Moved c.sb D c.buf i c'.buf di' y =
      if y = (i, p) then b else addrs c.sb D c.buf y := by
    rintro ⟨j, q⟩
    unfold Moved
    by_cases hji : j = i
    · subst hji
      rw [if_pos rfl, if_neg (by rwa [hType']), hPlaces, addrs_of_alloc hi hType]
      simp only [Prod.mk.injEq, true_and]
    · rw [if_neg hji, if_neg fun hEq => hji (congrArg Prod.fst hEq)]
  refine h.change hi hSb rfl (hTable.setNode i _) ?_ (fun j _ hj => Or.inr hj)
    (fun j hji => Abs.setNode_of_ne hji) ?_ ?_ ?_ ?_ ?_
  · intro j hj hjU
    have hji : j ≠ i := fun hEq => hjU (Or.inl hEq)
    rw [hInodes j hj, upd_of_ne hji]
    exact h.synced j hj fun hIn => hjU (Or.inr hIn)
  · intro j hj hji hTj q hq
    exact hBuf _ (h.inUse hj hTj hq) fun hEq => hji (h.place_unique hj hi hTj hType hq hEq).1
  · rw [Abs.setNode_self]
    refine ((h.nodes i hi).attach hType hFields hEmpty hb0 hPlaces fun bn hbn => ?_).imp
      fun hNot => hNot (Or.inl rfl)
    exact hBuf _ (h.inUse hi hType hbn) fun hEq =>
      place_ne_last _ (h.place_unique hi hi hType hType hbn hEq).2
  · refine h.owns.attach (x := (i, p)) (b := b) ?_ hb0 ?_ hMoved ?_
    · rw [addrs_of_alloc hi hType, hEmpty]
    · intro hUse
      rw [hUse.2.2] at hFree
      exact absurd hFree (by decide)
    · intro x
      unfold InUse
      constructor
      · rintro ⟨h1, h2, h3⟩
        rw [hMarks x h2, Bool.or_eq_true, decide_eq_true_eq] at h3
        exact h3.imp id fun h3 => ⟨h1, h2, h3⟩
      · rintro (rfl | ⟨h1, h2, h3⟩)
        · exact ⟨hGe, hLt, by rw [hMarks x hLt, decide_eq_true rfl, Bool.true_or]⟩
        · exact ⟨h1, h2, by rw [hMarks x h2, h3, Bool.or_true]⟩
  · intro x hx
    have := Nat.sub_le c.sb.size c.sb.nblocks
    rw [hMarks x (Nat.lt_of_lt_of_le hx this), h.system x hx, Bool.or_true]
  · intro x hx
    obtain ⟨hxb, hOld⟩ := hLogged x hx
    obtain ⟨hxGe, hPlain⟩ := h.logged x hOld
    refine ⟨hxGe, fun y hy => ?_⟩
    rw [hMoved, ite_eq_iff] at hy
    obtain ⟨-, hy⟩ | ⟨-, hy⟩ := hy
    · exact absurd hy.symm hxb
    · obtain ⟨hLast, hFile⟩ := hPlain y hy
      refine ⟨hLast, ?_⟩
      by_cases hyi : y.1 = i
      · rw [hyi, upd_self, hType', ← hyi]
        exact hFile
      · rw [upd_of_ne hyi]
        exact hFile

/-- All blocks of inode `i` are given back. -/
theorem RepD.truncate (h : RepD D U g c) (c' : Core) (hi : i < c.sb.ninodes)
    (hType : (D i).type ≠ 0) (hSb : c'.sb = c.sb)
    (hTable : TableOk c.sb (upd D i { D i with size := 0, addrs := fun _ => 0 }) g c'.itable)
    (hMarks : ∀ x < c.sb.size, marked c.sb c'.buf x = true ↔
      marked c.sb c.buf x = true ∧ x ∉ (g.node i).used)
    (hInodes : ∀ j < c.sb.ninodes, dinodeAt c.sb c'.buf j = dinodeAt c.sb c.buf j)
    (hBuf : ∀ x, c.sb.nmeta ≤ x → c'.buf x = c.buf x)
    (hLogged : ∀ x, c'.buf x ≠ c'.disk x → c.buf x ≠ c.disk x) :
    RepD (upd D i { D i with size := 0, addrs := fun _ => 0 }) (insert i U)
      (g.setNode i { g.node i with size := 0, used := ∅, holes := ∅ }) c' := by
  have hNone : ∀ B q, addrAt B { D i with size := 0, addrs := fun _ => 0 } q = 0 := by
    intro B q
    unfold addrAt
    simp
  have hMoved : ∀ y, Moved c.sb D c.buf i c'.buf { D i with size := 0, addrs := fun _ => 0 } y =
      if y.1 = i then 0 else addrs c.sb D c.buf y := by
    intro y
    unfold Moved
    rw [hNone, ite_self]
  have hN := h.nodes i hi
  have hPos := h.layout.bmap_lt
  refine h.change hi hSb rfl (hTable.setNode i _) ?_ (fun j _ hj => Or.inr hj)
    (fun j hji => Abs.setNode_of_ne hji) ?_ ?_ ?_ ?_ ?_
  · intro j hj hjU
    have hji : j ≠ i := fun hEq => hjU (Or.inl hEq)
    rw [hInodes j hj, upd_of_ne hji]
    exact h.synced j hj fun hIn => hjU (Or.inr hIn)
  · intro j hj hji hTj q hq
    exact hBuf _ (h.inUse hj hTj hq).1
  · rw [Abs.setNode_self]
    exact {
      type := hN.type
      free := fun h0 => absurd h0 hType
      major := fun _ => hN.major hType
      minor := fun _ => hN.minor hType
      nlink := fun _ => hN.nlink hType
      size := fun _ _ => rfl
      bound := Nat.zero_le _
      mapped := fun bn _ hbn => absurd hbn (Nat.not_lt_zero _)
      data := fun o ho => absurd ho (Nat.not_lt_zero _)
      used := fun _ b => by
        simp only [hNone, Finset.notMem_empty, false_iff]
        rintro ⟨hne, q, hq⟩
        exact hne hq.symm }
  · refine h.owns.detach (fun y => y.1 = i) (fun y hy => ?_) (fun y hy => ?_) ?_
    · rw [hMoved, if_pos hy]
    · rw [hMoved, if_neg hy]
    · intro x
      unfold InUse
      constructor
      · rintro ⟨h1, h2, h3⟩
        obtain ⟨h4, h5⟩ := (hMarks x h2).mp h3
        refine ⟨⟨h1, h2, h4⟩, ?_⟩
        rintro ⟨j, q⟩ rfl hq
        rw [addrs_of_alloc hi hType] at hq
        exact h5 ((hN.used hType x).mpr ⟨by omega, q, hq⟩)
      · rintro ⟨⟨h1, h2, h3⟩, h4⟩
        refine ⟨h1, h2, (hMarks x h2).mpr ⟨h3, fun hUsed => ?_⟩⟩
        obtain ⟨-, q, hq⟩ := (hN.used hType x).mp hUsed
        exact h4 (i, q) rfl (by rw [addrs_of_alloc hi hType, hq])
  · intro x hx
    have := Nat.sub_le c.sb.size c.sb.nblocks
    refine (hMarks x (Nat.lt_of_lt_of_le hx this)).mpr ⟨h.system x hx, fun hUsed => ?_⟩
    obtain ⟨hne, q, hq⟩ := (hN.used hType x).mp hUsed
    have := (h.inUse hi hType (p := q) (by rwa [hq])).1
    omega
  · intro x hx
    obtain ⟨hxGe, hPlain⟩ := h.logged x (hLogged x hx)
    refine ⟨hxGe, fun y hy => ?_⟩
    rw [hMoved, ite_eq_iff] at hy
    obtain ⟨-, hy⟩ | ⟨hyi, hy⟩ := hy
    · omega
    · rw [upd_of_ne hyi]
      exact hPlain y hy

end Xv6.Fs
