import Xv6.Fs.Inodes
import Mathlib.Data.Finset.Union
import Mathlib.Order.Interval.Finset.Nat

/-!
# xv6 — the content of an inode: `readi` and `writei`

An inode is an array of bytes. Where it has a block for every byte that is asked for, `readi`
returns the bytes and changes nothing; `writei` overwrites a range that starts inside the array or at
its end, and nothing else: not the content of another inode, and no block but those of the inode,
the bitmap and the inode on disk.
-/

namespace Xv6.Fs

open ByteBuf Hoare Owner

variable {e i k m n off tot : Nat} {src : Nat → Option UInt8} {c₁ : Core}

variable {E : Panic → Prop} {c c' : Core} {D : Nat → Dinode} {U : Set Nat} {g : Abs} {r : Ref}

/-! ## Arrays of bytes -/

/-- The `n` bytes from offset `off` on. -/
def slice (data : Nat → UInt8) (off n : Nat) : List UInt8 := (List.range n).map fun j => data (off + j)

@[simp] theorem length_slice (data : Nat → UInt8) (off n : Nat) : (slice data off n).length = n := by
  simp [slice]

@[simp] theorem slice_zero (data : Nat → UInt8) (off : Nat) : slice data off 0 = [] := rfl

theorem slice_append (data : Nat → UInt8) (off m n : Nat) :
    slice data off m ++ slice data (off + m) n = slice data off (m + n) := by
  unfold slice
  rw [List.range_add, List.map_append, List.map_map]
  refine congrArg _ (List.map_congr_left fun _ _ => ?_)
  rw [Function.comp_apply, Nat.add_assoc]

theorem slice_congr {data data' : Nat → UInt8}
    (h : ∀ o, off ≤ o → o < off + n → data o = data' o) : slice data off n = slice data' off n :=
  List.map_congr_left fun _ hj => h _ (Nat.le_add_right ..) (Nat.add_lt_add_left (List.mem_range.mp hj) _)

/-- The bytes `[off, off + n)` are replaced by those of `src`. -/
def overwrite (data : Nat → UInt8) (off n : Nat) (src : Nat → UInt8) : Nat → UInt8 :=
  fun o => if off ≤ o ∧ o < off + n then src (o - off) else data o

/-- First `m` bytes, then the others. -/
theorem overwrite_overwrite (data : Nat → UInt8) (off m n : Nat) (src : Nat → UInt8) :
    overwrite (overwrite data off m src) (off + m) n (fun j => src (m + j)) =
      overwrite data off (m + n) src := by
  funext o
  unfold overwrite
  by_cases hSecond : off + m ≤ o ∧ o < off + m + n
  · have hIdx : m + (o - (off + m)) = o - off := by omega
    rw [if_pos hSecond, if_pos (by omega), ← hIdx]
  · rw [if_neg hSecond]
    by_cases hFirst : off ≤ o ∧ o < off + m
    · rw [if_pos hFirst, if_pos (by omega)]
    · rw [if_neg hFirst, if_neg (by omega)]

/-- Bytes that lie in one block. -/
theorem block_add {j : Nat} (hj : j < m) (hm : m ≤ BSIZE - off % BSIZE) :
    (off + j) / BSIZE = off / BSIZE ∧ (off + j) % BSIZE = off % BSIZE + j := by
  have hB : BSIZE = 1024 := rfl
  rw [hB] at hm ⊢
  omega

theorem div_lt_maxfile (h : off < MAXFILE * BSIZE) : off / BSIZE < MAXFILE :=
  Nat.div_lt_of_lt_mul (Nat.mul_comm .. ▸ h)

theorem left_pos (off : Nat) : 0 < BSIZE - off % BSIZE :=
  Nat.sub_pos_of_lt (Nat.mod_lt _ (by decide))

/-! ## Reading -/

/-- `bmap` of a block index that has a block. -/
theorem bmap_hit {bn : Nat} (hbn : bn < MAXFILE)
    (hAt : addrAt c.buf (c.itable k).din (place bn) ≠ 0) {Q : Nat → Core → Prop}
    (hQ : Q (addrAt c.buf (c.itable k).din (place bn)) c) : wp E (bmap k bn) Q c := by
  have hM : MAXFILE = NDIRECT + NINDIRECT := rfl
  unfold bmap
  split
  · rename_i hDirect
    rw [place, if_pos hDirect, addrAt, dif_pos (Nat.lt_succ_of_lt hDirect)] at hAt hQ
    rw [bmapSlot, wp_bind, wp_inode, wp_ite]
    exact ⟨fun h0 => absurd h0 hAt, fun _ => wp_pure.mpr hQ⟩
  · rename_i hDirect
    have hPlace : place bn = bn - NDIRECT + (NDIRECT + 1) := by
      rw [place, if_neg hDirect]
      omega
    have hj : bn - NDIRECT < NINDIRECT := by omega
    have hInd : (c.itable k).din.addrs (Fin.last NDIRECT) ≠ 0 := fun h0 =>
      hAt (addrAt_of_last_zero (by rw [hPlace]; omega) h0)
    rw [hPlace, addrAt_entry hj hInd] at hAt hQ
    rw [if_pos hj, wp_bind, bmapSlot, wp_bind, wp_inode, wp_ite]
    refine ⟨fun (h0 : ((c.itable k).din.addrs (Fin.last NDIRECT)).toNat = 0) =>
      absurd (BitVec.eq_of_toNat_eq h0) hInd, fun _ => ?_⟩
    rw [wp_pure, bmapEntry, wp_bind, wp_bread]
    exact wp_ite.mpr ⟨fun h0 => absurd h0 hAt, fun _ => wp_pure.mpr hQ⟩

theorem readiLoop_hit {ok : Nat → Nat → Bool} {nd : Node} {p : Prop} {fuel : Nat}
    (hNode : NodeOk c.buf (c.itable k).din nd p) (hFuel : n - tot ≤ fuel)
    (hEnd : off + (n - tot) ≤ nd.size)
    (hHoles : ∀ o, off ≤ o → o < off + (n - tot) → o / BSIZE ∉ nd.holes) :
    wp E (readiLoop k ok n fuel tot off) (fun l c' => c' = c ∧
      (l = some (slice nd.data off (n - tot)) ∨ l = none ∧ ∃ t m, ok t m = false)) c := by
  induction fuel generalizing tot off with
  | zero =>
    rw [readiLoop, wp_pure, Nat.le_zero.mp hFuel]
    exact ⟨rfl, .inl rfl⟩
  | succ fuel ih =>
    rw [readiLoop, wp_ite]
    constructor
    · intro hMore
      have hHole := hHoles off (Nat.le_refl _) (by omega)
      have hOff : off < nd.size := by omega
      have hMap := hNode.mapped _ hHole (Nat.lt_of_le_of_lt (Nat.div_mul_le_self ..) hOff)
      rw [wp_bind]
      refine bmap_hit (div_lt_maxfile (Nat.lt_of_lt_of_le hOff hNode.bound)) hMap ?_
      rw [wp_bind, wp_bread]
      have hLeft := left_pos off
      generalize hm : min (n - tot) (BSIZE - off % BSIZE) = m
      have hmn : m ≤ n - tot := hm ▸ Nat.min_le_left ..
      have hmb : m ≤ BSIZE - off % BSIZE := hm ▸ Nat.min_le_right ..
      have hPos : 0 < m := by omega
      -- the bytes of this turn lie in one block
      have hBytes : (List.range m).map (fun j =>
          peek (c.buf (addrAt c.buf (c.itable k).din (place (off / BSIZE)))) (off % BSIZE + j)) =
          slice nd.data off m := by
        refine List.map_congr_left fun j hj => ?_
        have hjm := List.mem_range.mp hj
        obtain ⟨hDiv, hMod⟩ := block_add hjm hmb
        have := hNode.data (off + j) (by omega) (hDiv ▸ hHole)
        rwa [hDiv, hMod] at this
      show wp E (if ok tot m then _ else _) _ c
      rw [wp_ite]
      refine ⟨fun _ => ?_, fun hBad => ?_⟩
      · have hLeft : n - (tot + m) = n - tot - m := by omega
        rw [wp_bind]
        refine (ih (by omega) (by omega) fun o ho₁ ho₂ => hHoles o (by omega) (by omega)).mono ?_
        rintro l c' ⟨rfl, hl⟩
        rw [wp_pure, hBytes]
        refine ⟨rfl, hl.imp (fun hl => ?_) fun ⟨hl, hBad⟩ => ⟨by rw [hl]; rfl, hBad⟩⟩
        rw [hl, Option.map_some, slice_append, hLeft, Nat.add_sub_of_le hmn]
      · rw [wp_pure]
        exact ⟨rfl, .inr ⟨rfl, _, _, Bool.not_eq_true _ ▸ hBad⟩⟩
    · intro hDone
      rw [wp_pure, show n - tot = 0 by omega]
      exact ⟨rfl, .inl rfl⟩

/-- How many bytes `readi` returns. -/
def readLen (size off n : Nat) : Nat :=
  if size < off ∨ (off + n) % 2 ^ 32 < off then 0 else min n (size - off)

/-- Where there are blocks, `readi` returns what is in them. -/
theorem readi_spec {ok : Nat → Nat → Bool} {nd : Node}
    (hNode : NodeOk c.buf (c.itable k).din nd True) (hType : (c.itable k).din.type ≠ 0)
    (hHoles : ∀ o, off ≤ o → o < off + n → o < nd.size → o / BSIZE ∉ nd.holes) :
    wp E (readi k ok off n) (fun l c' => c' = c ∧
      (l = some (slice nd.data off (readLen nd.size off n)) ∨ l = none ∧ ∃ t m, ok t m = false)) c := by
  have hSize := hNode.size hType trivial
  rw [readi, wp_bind, wp_inode, ← hSize, wp_ite]
  unfold readLen
  constructor
  · intro hNone
    rw [wp_pure, if_pos hNone]
    exact ⟨rfl, .inl rfl⟩
  · intro hSome
    rw [if_neg hSome]
    have hOff : off ≤ nd.size := Nat.le_of_not_lt fun hlt => hSome (.inl hlt)
    have hLen : (if nd.size < off + n then nd.size - off else n) = min n (nd.size - off) := by
      split <;> omega
    show wp E (readiLoop k ok (if nd.size < off + n then nd.size - off else n)
      (if nd.size < off + n then nd.size - off else n) 0 off) _ c
    rw [hLen]
    refine (readiLoop_hit hNode (Nat.sub_le ..) ?_ fun o ho₁ ho₂ => hHoles o ho₁ ?_ ?_).mono ?_
    · omega
    · omega
    · omega
    · rw [Nat.sub_zero]
      exact fun _ _ h => h

/-- A kernel buffer can always be written. -/
theorem readi_kernel {nd : Node} {Q : Option (List UInt8) → Core → Prop}
    (hNode : NodeOk c.buf (c.itable k).din nd True) (hType : (c.itable k).din.type ≠ 0)
    (hHoles : ∀ o, off ≤ o → o < off + n → o < nd.size → o / BSIZE ∉ nd.holes)
    (hQ : Q (some (slice nd.data off (readLen nd.size off n))) c) : wp E (readi k kernel off n) Q c := by
  refine (readi_spec hNode hType hHoles).mono ?_
  rintro l c' ⟨rfl, hl | ⟨-, t, m, hBad⟩⟩
  · rwa [hl]
  · cases hBad

/-! ## Writing -/

theorem addrAt_upd_data (h : RepD D U g c) {bn : Nat} (hi : i < c.sb.ninodes)
    (hType : (D i).type ≠ 0) (_ : addrAt c.buf (D i) (place bn) ≠ 0) (v : Block) (q : Nat) :
    addrAt (upd c.buf (addrAt c.buf (D i) (place bn)) v) (D i) q = addrAt c.buf (D i) q := by
  refine addrAt_congr (fun hne => upd_of_ne fun hEq => ?_) q
  exact place_ne_last bn (h.place_unique hi hi hType hType hne hEq).2.symm

/-- A data block of inode `i` is changed. -/
theorem RepD.setBlock (h : RepD D U g c) {bn : Nat} {v : Block} {d : Disk} {n : Node}
    (hi : i < c.sb.ninodes) (hType : (D i).type ≠ 0) (hU : i ∈ U)
    (hb : addrAt c.buf (D i) (place bn) ≠ 0)
    (hFields : n = { g.node i with size := n.size, data := n.data })
    (hBound : n.size ≤ MAXFILE * BSIZE)
    (hMapped : ∀ bn' ∉ n.holes, bn' * BSIZE < n.size → addrAt c.buf (D i) (place bn') ≠ 0)
    (hData : ∀ o < n.size, o / BSIZE ∉ n.holes → peek (if o / BSIZE = bn then v else
      c.buf (addrAt c.buf (D i) (place (o / BSIZE)))) (o % BSIZE) = n.data o)
    (hDisk : d = upd c.disk (addrAt c.buf (D i) (place bn)) v ∨ d = c.disk ∧ (D i).type ≠ T_DIR) :
    RepD D U (g.setNode i n)
      { c with buf := upd c.buf (addrAt c.buf (D i) (place bn)) v, disk := d } := by
  have hL := h.layout
  have hUse := h.inUse hi hType hb
  have hN := h.nodes i hi
  have hAt := addrAt_upd_data h hi hType hb v
  have hMoved : ∀ y, Moved c.sb D c.buf i (upd c.buf (addrAt c.buf (D i) (place bn)) v) (D i) y =
      addrs c.sb D c.buf y := by
    rintro ⟨j, q⟩
    unfold Moved
    by_cases hji : j = i
    · subst hji
      rw [if_pos rfl, if_neg hType, hAt, addrs_of_alloc hi hType]
    · rw [if_neg hji]
  have hMarked : ∀ x < c.sb.size,
      marked c.sb (upd c.buf (addrAt c.buf (D i) (place bn)) v) x = marked c.sb c.buf x :=
    fun x hx => marked_upd (bblock_ne_data hL hUse.1 hx)
  have hNmeta := Nat.sub_le c.sb.size c.sb.nblocks
  suffices hChange : RepD (upd D i (D i)) U (g.setNode i n)
      { c with buf := upd c.buf (addrAt c.buf (D i) (place bn)) v, disk := d } by
    rwa [upd_eta] at hChange
  refine h.change hi rfl rfl (by rw [upd_eta]; exact h.table.setNode i n) ?_ (fun _ _ hj => hj)
    (fun j hji => Abs.setNode_of_ne hji) ?_ ?_ ?_ ?_ ?_
  · intro j hj hjU
    have := iblock_lt_nmeta hL hj
    have := hUse.1
    rw [upd_eta, ← h.synced j hj hjU]
    exact dinodeAt_upd (by omega)
  · intro j hj hji hTj q hq
    exact upd_of_ne fun hEq => hji (h.place_unique hj hi hTj hType hq hEq).1
  · rw [Abs.setNode_self]
    show NodeOk (upd c.buf (addrAt c.buf (D i) (place bn)) v) (D i) n (i ∉ U)
    exact {
      type := by rw [hFields]; exact hN.type
      free := fun h0 => absurd h0 hType
      major := fun _ => by rw [hFields]; exact hN.major hType
      minor := fun _ => by rw [hFields]; exact hN.minor hType
      nlink := fun _ => by rw [hFields]; exact hN.nlink hType
      size := fun _ hNot => absurd hU hNot
      bound := hBound
      mapped := fun bn' hHole hlt => by
        rw [hAt]
        exact hMapped bn' hHole hlt
      data := fun o ho hHole => by
        rw [hAt, ← hData o ho hHole]
        split
        · rename_i hEq
          rw [hEq, upd_self]
        · rename_i hne
          have hMap := hMapped _ hHole (Nat.lt_of_le_of_lt (Nat.div_mul_le_self ..) ho)
          rw [upd_of_ne fun hEq => hne (place_inj (h.place_unique hi hi hType hType hMap hEq).2)]
      used := fun _ b => by
        simp only [hAt]
        rw [hFields]
        exact hN.used hType b }
  · refine h.owns.congr hMoved fun x => ?_
    exact and_congr_right fun _ => and_congr_right fun hx => by rw [hMarked x hx]
  · intro b hb
    rw [hMarked b (Nat.lt_of_lt_of_le hb hNmeta)]
    exact h.system b hb
  · intro b hNe
    rw [upd_eta]
    by_cases hEq : b = addrAt c.buf (D i) (place bn)
    · -- the block itself: logged, or that of a file
      rcases hDisk with rfl | ⟨rfl, hFile⟩
      · rw [hEq] at hNe
        exact absurd (by simp only [upd_self]) hNe
      · refine ⟨hEq ▸ hUse.1, fun y hy => ?_⟩
        rw [hMoved, hEq, ← addrs_of_alloc hi hType] at hy
        obtain rfl := h.owns.inj y (i, place bn) (by
          rw [hy, addrs_of_alloc hi hType]
          exact hb) hy
        exact ⟨place_ne_last bn, hFile⟩
    · have hOld : c.buf b ≠ c.disk b := by
        rcases hDisk with rfl | ⟨rfl, -⟩
        · simpa only [upd_of_ne hEq] using hNe
        · simpa only [upd_of_ne hEq] using hNe
      obtain ⟨hGe, hPlain⟩ := h.logged b hOld
      exact ⟨hGe, fun y hy => hPlain y ((hMoved y).symm.trans hy)⟩

theorem copied_le (src : Nat → Option UInt8) (tot m : Nat) : copied src tot m ≤ m := by
  unfold copied
  cases hFind : (List.range m).find? fun j => (src (tot + j)).isNone with
  | none => exact Nat.le_refl m
  | some j => exact Nat.le_of_lt (List.mem_range.mp (List.mem_of_find?_eq_some hFind))

theorem copied_eq (h : ∀ j < m, (src (tot + j)).isSome) :
    copied src tot m = m := by
  unfold copied
  rw [List.find?_eq_none.mpr fun j hj => ?_, Option.getD_none]
  rw [Option.isNone_iff_eq_none]
  intro hNone
  have hSome := h j (List.mem_range.mp hj)
  rw [hNone] at hSome
  cases hSome

theorem copied_some {j : Nat} (hj : j < copied src tot m) : (src (tot + j)).isSome := by
  have hjm := Nat.lt_of_lt_of_le hj (copied_le src tot m)
  unfold copied at hj
  cases hFind : (List.range m).find? fun j => (src (tot + j)).isNone with
  | none =>
    have hNot := List.find?_eq_none.mp hFind j (List.mem_range.mpr hjm)
    rw [Option.isNone_iff_eq_none] at hNot
    exact Option.isSome_iff_ne_none.mpr hNot
  | some e =>
    rw [hFind, Option.getD_some] at hj
    obtain ⟨-, -, hBefore⟩ := List.find?_range_eq_some.mp hFind
    rw [← Option.not_isNone]
    exact hBefore j hj

theorem copied_none (h : copied src tot m < m) :
    src (tot + copied src tot m) = none := by
  unfold copied at h ⊢
  cases hFind : (List.range m).find? fun j => (src (tot + j)).isNone with
  | none =>
    rw [hFind, Option.getD_none] at h
    exact absurd h (Nat.lt_irrefl m)
  | some e =>
    rw [Option.getD_some]
    have hBad := List.find?_some hFind
    exact Option.isNone_iff_eq_none.mp hBad

/-- The bytes that can be read are those before the first that cannot. -/
theorem copied_unique (he : e ≤ m)
    (hSome : ∀ j < e, (src (tot + j)).isSome) (hNone : e < m → src (tot + e) = none) : copied src tot m = e := by
  have hLe := copied_le src tot m
  rcases Nat.lt_trichotomy (copied src tot m) e with hlt | hEq | hgt
  · have h0 := copied_none (Nat.lt_of_lt_of_le hlt he)
    have h1 := hSome _ hlt
    rw [h0] at h1
    cases h1
  · exact hEq
  · have h0 := hNone (by omega)
    have h1 := copied_some hgt
    rw [h0] at h1
    cases h1

theorem copied_add (hm : copied src tot m = m) (hn : m ≤ n) :
    copied src tot n = m + copied src (tot + m) (n - m) := by
  have hLe := copied_le src (tot + m) (n - m)
  refine copied_unique (by omega) (fun j hj => ?_) fun hlt => ?_
  · by_cases hFirst : j < m
    · exact copied_some (m := m) (by omega)
    · have hRest : (src (tot + m + (j - m))).isSome := copied_some (m := n - m) (by omega)
      rwa [show tot + m + (j - m) = tot + j by omega] at hRest
  · rw [← Nat.add_assoc]
    exact copied_none (by omega)

theorem copied_stop (hm : copied src tot m < m) (hn : m ≤ n) :
    copied src tot n = copied src tot m :=
  copied_unique (by omega) (fun _ hj => copied_some hj) fun _ => copied_none hm

/-- How many bytes `writei` reports when `e` of `n` can be read: only whole chunks count. -/
def landed (off n e : Nat) : Nat := if e = n then n else e - (off + e) % BSIZE

theorem landed_all (off n : Nat) : landed off n n = n := if_pos rfl

/-- A chunk is written whole, then the others. -/
theorem landed_add (hm : m = min n (BSIZE - off % BSIZE)) (he : e ≤ n - m) :
    landed off n (m + e) = m + landed (off + m) (n - m) e := by
  have hB : BSIZE = 1024 := rfl
  unfold landed
  rw [hB] at hm ⊢
  by_cases hAll : e = n - m
  · rw [if_pos hAll, if_pos (by omega)]
    omega
  · rw [if_neg hAll, if_neg (by omega)]
    omega

/-- A chunk that is not copied whole does not count. -/
theorem landed_stop (hm : m = min n (BSIZE - off % BSIZE)) (he : e < m) : landed off n e = 0 := by
  have hB : BSIZE = 1024 := rfl
  unfold landed
  rw [hB] at hm ⊢
  rw [if_neg (by omega)]
  omega

/-- The places of the blocks that hold the bytes `[off, off + n)`. -/
def span (off n : Nat) : Finset Nat := (Finset.Ico off (off + n)).biUnion fun o => needs (o / BSIZE)

theorem needs_subset_span (off : Nat) (hn : 0 < n) : needs (off / BSIZE) ⊆ span off n := fun _ hp =>
  Finset.mem_biUnion.mpr ⟨off, Finset.mem_Ico.mpr ⟨Nat.le_refl _, by omega⟩, hp⟩

theorem span_rest (off : Nat) (hm : m ≤ n) : span (off + m) (n - m) ⊆ span off n :=
  Finset.biUnion_subset_biUnion_of_subset_left _ fun o ho => by
    rw [Finset.mem_Ico] at ho ⊢
    omega

/-- What the loop of `writei` has done to inode `i` when `tot` of the `n` bytes from `off` on are written. -/
structure Written (D : Nat → Dinode) (U : Set Nat) (g : Abs) (i off n : Nat) (c c' : Core) (di : Dinode)
    (u : Finset Nat) (data : Nat → UInt8) (tot : Nat) : Prop where
  rep    : RepD (upd D i di) U (g.setNode i { g.node i with
    size := max (g.node i).size (off + tot), data := data, used := u }) c'
  fields : di = { D i with addrs := di.addrs }
  used   : (g.node i).used ⊆ u
  buf    : ∀ x ∉ u, (∀ b < c.sb.size, x ≠ c.sb.bblock b) → c'.buf x = c.buf x
  le     : tot ≤ n
  other  : ∀ o, ¬ (off ≤ o ∧ o < off + n) → data o = (g.node i).data o

theorem Written.trans {c₂ : Core} {di₁ di₂ : Dinode} {u₁ u₂ : Finset Nat}
    {data₁ data₂ : Nat → UInt8} (hm : m ≤ n) (h₁ : Written D U g i off m c c₁ di₁ u₁ data₁ m)
    (hSb : c₁.sb = c.sb)
    (h₂ : Written (upd D i di₁) U (g.setNode i { g.node i with
      size := max (g.node i).size (off + m), data := data₁, used := u₁ }) i (off + m) (n - m) c₁ c₂ di₂ u₂
      data₂ tot) :
    Written D U g i off n c c₂ di₂ u₂ data₂ (m + tot) where
  rep := by
    have hRep := h₂.rep
    simp only [upd_upd, Abs.setNode_setNode, Abs.setNode_self, Nat.max_assoc] at hRep
    rwa [show max (off + m) (off + m + tot) = off + (m + tot) by omega] at hRep
  fields := by
    have h2 := h₂.fields
    rw [upd_self, h₁.fields] at h2
    exact h2
  used := by
    have hSub := h₂.used
    rw [Abs.setNode_self] at hSub
    exact h₁.used.trans hSub
  buf x hx hMap := by
    have hSub := h₂.used
    rw [Abs.setNode_self] at hSub
    rw [h₂.buf x hx (by rwa [hSb]), h₁.buf x (fun hIn => hx (hSub hIn)) hMap]
  le := by
    have := h₂.le
    omega
  other o ho := by
    have h2 := h₂.other o (by omega)
    rw [Abs.setNode_self] at h2
    exact h2.trans (h₁.other o (by omega))

/-- `bmap` and the copy of one turn: `done` bytes are put into the block, `e` of them count. -/
theorem Grown.turn {done : Nat} {di : Dinode} {u P : Finset Nat}
    {f : Nat → UInt8} {d : Disk} (hG : Grown D U g i c c₁ di u P) (hU : i ∈ U)
    (hi : i < c₁.sb.ninodes) (hType : (D i).type ≠ 0)
    (hb : addrAt c₁.buf di (place (off / BSIZE)) ≠ 0) (hOff : off ≤ (g.node i).size) (he : e ≤ done)
    (hDone : done ≤ BSIZE - off % BSIZE) (hn : done ≤ n) (hEnd : off + e ≤ MAXFILE * BSIZE)
    (hDisk : d = upd c₁.disk (addrAt c₁.buf di (place (off / BSIZE)))
        (poke (c₁.buf (addrAt c₁.buf di (place (off / BSIZE)))) (off % BSIZE) done f) ∨
      d = c₁.disk ∧ (D i).type ≠ T_DIR) :
    Written D U g i off n c { c₁ with
        buf := upd c₁.buf (addrAt c₁.buf di (place (off / BSIZE)))
          (poke (c₁.buf (addrAt c₁.buf di (place (off / BSIZE)))) (off % BSIZE) done f)
        disk := d } di u (overwrite (g.node i).data off done f) e := by
  have hRep := hG.rep
  rw [Set.insert_eq_of_mem hU] at hRep
  have hSelf : upd D i di i = di := upd_self ..
  have hType' : di.type = (D i).type := by rw [hG.fields]
  have hN := hRep.nodes i hi
  rw [hSelf, Abs.setNode_self] at hN
  have hUsed := (hN.used (by rwa [hType']) _).mpr ⟨hb, _, rfl⟩
  -- a byte below the new size is an old one, or lies in this block
  have hNew : ∀ o, (g.node i).size ≤ o → o < max (g.node i).size (off + e) →
      off ≤ o ∧ o < off + e ∧ o / BSIZE = off / BSIZE := by
    intro o ho₁ ho₂
    have hlt : o < off + e := by omega
    obtain ⟨hDiv, -⟩ := block_add (j := o - off) (by omega) hDone
    rw [Nat.add_sub_of_le (by omega)] at hDiv
    exact ⟨by omega, hlt, hDiv⟩
  refine ⟨?_, hG.fields, hG.used, fun x hx hMap => ?_, by omega, fun o ho => if_neg (by omega)⟩
  · have hb' : addrAt c₁.buf (upd D i di i) (place (off / BSIZE)) ≠ 0 := by rwa [hSelf]
    have hSet := hRep.setBlock (d := d) (n := { g.node i with
        size := max (g.node i).size (off + e), data := overwrite (g.node i).data off done f, used := u })
      (v := poke (c₁.buf (addrAt c₁.buf di (place (off / BSIZE)))) (off % BSIZE) done f) hi
      (by rwa [hSelf, hType']) hU hb' (by rw [Abs.setNode_self]) ?_ ?_ ?_
      (by rwa [hSelf, hType'])
    · rwa [hSelf, Abs.setNode_setNode] at hSet
    · exact Nat.max_le.mpr ⟨hN.bound, hEnd⟩
    · intro bn hHole hlt
      rw [hSelf]
      by_cases hOld : bn * BSIZE < (g.node i).size
      · exact hN.mapped bn hHole hOld
      · have hBn := (hNew _ (Nat.le_of_not_lt hOld) hlt).2.2
        rw [Nat.mul_div_cancel _ (by decide)] at hBn
        rwa [hBn]
    · intro o ho hHole
      replace ho : o < max (g.node i).size (off + e) := ho
      rw [hSelf]
      show peek _ _ = if off ≤ o ∧ o < off + done then f (o - off) else (g.node i).data o
      have hSplit := Nat.div_add_mod o BSIZE
      have hSplit' := Nat.div_add_mod off BSIZE
      by_cases hDiv : o / BSIZE = off / BSIZE
      · rw [hDiv] at hSplit
        have hModLt : o % BSIZE < BSIZE := Nat.mod_lt _ (by decide)
        rw [if_pos hDiv, peek_poke]
        by_cases hIn : off ≤ o ∧ o < off + done
        · rw [if_pos hIn, if_pos (by omega), show o % BSIZE - off % BSIZE = o - off by omega]
        · rw [if_neg hIn, if_neg (by omega)]
          have hOld : o < (g.node i).size := by
            by_contra hge
            have := hNew o (Nat.le_of_not_lt hge) ho
            omega
          have hData := hN.data o hOld hHole
          rwa [hDiv] at hData
      · rw [if_neg hDiv]
        have hOut : ¬ (off ≤ o ∧ o < off + done) := fun hIn => hDiv (by
          have := (block_add (j := o - off) (by omega) hDone).1
          rwa [Nat.add_sub_of_le hIn.1] at this)
        have hOld : o < (g.node i).size := by
          by_contra hge
          exact hDiv (hNew o (Nat.le_of_not_lt hge) ho).2.2
        rw [if_neg hOut]
        exact hN.data o hOld hHole
  · have hxb : x ≠ addrAt c₁.buf di (place (off / BSIZE)) := fun hEq => hx (hEq ▸ hUsed)
    exact (upd_of_ne hxb).trans (hG.buf x hx hMap)

/-- A chunk is written whole. -/
theorem Grown.chunk {b : Nat} {di : Dinode} {u P : Finset Nat} {f : Nat → UInt8}
    (hG : Grown D U g i c c₁ di u P) (hU : i ∈ U) (hi : i < c₁.sb.ninodes) (hType : (D i).type ≠ 0)
    (hAddr : addrAt c₁.buf di (place (off / BSIZE)) = b) (hb : b ≠ 0) (hOff : off ≤ (g.node i).size)
    (hm : m ≤ BSIZE - off % BSIZE) (hEnd : off + m ≤ MAXFILE * BSIZE) :
    Written D U g i off m c (c₁.put b (poke (c₁.buf b) (off % BSIZE) m f)) di u
        (overwrite (g.node i).data off m f) m ∧
      (c₁.put b (poke (c₁.buf b) (off % BSIZE) m f)).freeBlocks = c₁.freeBlocks ∧
      ∀ q, addrAt (c₁.put b (poke (c₁.buf b) (off % BSIZE) m f)).buf di q = addrAt c₁.buf di q := by
  subst hAddr
  have hRep := hG.rep
  rw [Set.insert_eq_of_mem hU] at hRep
  have hSelf : upd D i di i = di := upd_self ..
  have hType' : (upd D i di i).type ≠ 0 := by
    rw [hSelf, hG.fields]
    exact hType
  have hb' : addrAt c₁.buf (upd D i di i) (place (off / BSIZE)) ≠ 0 := by rwa [hSelf]
  have hUse := hRep.inUse hi hType' hb'
  have hAt := addrAt_upd_data hRep hi hType' hb'
  rw [hSelf] at hUse hAt
  exact ⟨hG.turn hU hi hType hb hOff (Nat.le_refl m) hm (Nat.le_refl m) hEnd (.inl rfl),
    Finset.filter_congr fun x hx => iff_of_eq (congrArg (· = false)
      (marked_upd (bblock_ne_data hRep.layout hUse.1 (Finset.mem_range.mp hx)))), hAt _⟩

theorem Written.refl (h : RepD D U g c) (n : Nat) (hOff : off ≤ (g.node i).size) :
    Written D U g i off n c c (D i) (g.node i).used (g.node i).data 0 where
  rep := by
    rw [upd_eta, Nat.add_zero, Nat.max_eq_left hOff, Abs.setNode_eta]
    exact h
  fields := rfl
  used := subset_rfl
  buf _ _ _ := rfl
  le := Nat.zero_le n
  other _ _ := rfl

theorem overwrite_zero (data : Nat → UInt8) (off : Nat) (src : Nat → UInt8) :
    overwrite data off 0 src = data :=
  funext fun _ => if_neg (by omega)

theorem writeiLoop_spec {fuel : Nat} (h : RepD D U g c)
    (hr : r ∈ g.refs) (hLoaded : r.inum ∈ g.loaded) (hU : r.inum ∈ U)
    (hOff : off ≤ (g.node r.inum).size) (hEnd : off + (n - tot) ≤ MAXFILE * BSIZE)
    (hFuel : n - tot ≤ fuel)
    (hDir : (D r.inum).type = T_DIR →
      landed off (n - tot) (copied src tot (n - tot)) = copied src tot (n - tot))
    (hOut : c.freeBlocks.card < missing c.buf (D r.inum) (span off (n - tot)) → E .ballocOutOfBlocks) :
    wp E (writeiLoop r.slot src n fuel tot off) (fun p c' => ∃ di u data k, p = (tot + k, off + k) ∧
      Written D U g r.inum off (n - tot) c c' di u data k ∧
      k = landed off (n - tot) (copied src tot (n - tot)) ∧
      data = overwrite (g.node r.inum).data off (copied src tot (n - tot)) fun j => (src (tot + j)).getD 0) c := by
  induction fuel generalizing c D g tot off with
  | zero =>
    rw [writeiLoop, wp_pure, Nat.le_zero.mp hFuel]
    exact ⟨_, _, _, 0, rfl, Written.refl h 0 hOff, rfl, (overwrite_zero ..).symm⟩
  | succ fuel ih =>
    rw [writeiLoop, wp_ite]
    constructor
    · intro hMore
      have hLeft := left_pos off
      generalize hm : min (n - tot) (BSIZE - off % BSIZE) = m
      have hmn : m ≤ n - tot := hm ▸ Nat.min_le_left ..
      have hmb : m ≤ BSIZE - off % BSIZE := hm ▸ Nat.min_le_right ..
      have hPos : 0 < m := by omega
      have hType := h.table.typed _ hLoaded
      have hNeeds := needs_subset_span off (Nat.sub_pos_of_lt hMore)
      rw [wp_bind]
      refine (bmap_spec h hr hLoaded (div_lt_maxfile (by omega)) fun hFew =>
        hOut (Nat.lt_of_lt_of_le hFew (missing_mono _ _ hNeeds))).mono ?_
      rintro b c₁ ⟨di, u, hG, rfl, hb, -⟩
      have hi : r.inum < c₁.sb.ninodes := hG.rep.inum_lt hr
      have hSb : c₁.sb = c.sb := hG.rep.sb.trans h.sb.symm
      have hType' : di.type = (D r.inum).type := by rw [hG.fields]
      have hRep := hG.rep
      rw [Set.insert_eq_of_mem hU] at hRep
      have hSelf : upd D r.inum di r.inum = di := upd_self ..
      have hb' : addrAt c₁.buf (upd D r.inum di r.inum) (place (off / BSIZE)) ≠ 0 := by rwa [hSelf]
      rw [wp_bind, wp_bread, wp_bind, wp_setBuf]
      show wp E (if copied src tot m = m then _ else _) _ _
      rw [wp_ite]
      constructor
      · intro hDone
        obtain ⟨hTurn, hFree, hAt⟩ := hG.chunk (f := fun j => (src (tot + j)).getD 0) hU hi hType rfl hb hOff hmb
          (by omega)
        rw [wp_bind, wp_logWrite, hDone]
        simp only [upd_self]
        have hRest : n - (tot + m) = n - tot - m := by omega
        have hCopied := copied_add hDone hmn
        have hLanded := landed_add hm.symm (copied_le src (tot + m) (n - tot - m))
        refine (ih hTurn.rep hr hLoaded (by
            rw [Abs.setNode_self]
            exact Nat.le_max_right ..) (by omega) (by omega) ?_ fun hFew => ?_).mono ?_
        · rw [hSelf, hType', hRest]
          intro hT
          have hAll := hDir hT
          rw [hCopied, hLanded] at hAll
          exact Nat.add_left_cancel hAll
        · refine hOut ?_
          have hConserve := hG.free _ hNeeds
          have hLe := missing_mono c₁.buf di (span_rest off hmn)
          rw [hFree, hSelf, hRest] at hFew
          unfold missing at hFew
          simp only [hAt] at hFew
          unfold missing at hConserve hLe ⊢
          omega
        · rintro p c' ⟨di', u', data', k, rfl, hW, hk, hData⟩
          rw [hRest] at hW hk hData
          refine ⟨di', u', data', m + k, by rw [Nat.add_assoc, Nat.add_assoc], hTurn.trans hmn hSb hW, ?_, ?_⟩
          · rw [hCopied, hLanded, hk]
          · rw [hData, hCopied, Abs.setNode_self, ← overwrite_overwrite]
            simp only [Nat.add_assoc]
      · intro hPart
        have hLt : copied src tot m < m := Nat.lt_of_le_of_ne (copied_le src tot m) hPart
        have hCopied := copied_stop hLt hmn
        have hLanded := landed_stop hm.symm hLt
        -- nothing was copied into a block of a directory, and it is as it was logged
        have hDisk : c₁.disk = upd c₁.disk (addrAt c₁.buf di (place (off / BSIZE)))
            (poke (c₁.buf (addrAt c₁.buf di (place (off / BSIZE)))) (off % BSIZE) (copied src tot m)
              fun j => (src (tot + j)).getD 0) ∨ c₁.disk = c₁.disk ∧ (D r.inum).type ≠ T_DIR := by
          by_cases hT : (D r.inum).type = T_DIR
          · have hNone := hDir hT
            rw [hCopied, hLanded] at hNone
            refine .inl (Eq.trans (upd_eta ..).symm (congrArg _ ?_))
            rw [← hNone, poke_zero]
            by_contra hNe
            have hLoose := (hRep.logged _ (Ne.symm hNe)).2 (r.inum, place (off / BSIZE))
              ((addrs_of_alloc hi (by rwa [hSelf, hType'])).trans (by rw [hSelf]))
            exact hLoose.2 ((congrArg Dinode.type hSelf).trans (hType'.trans hT))
          · exact .inr ⟨rfl, hT⟩
        have hTurn := hG.turn (n := n - tot) (e := 0) (f := fun j => (src (tot + j)).getD 0) hU hi hType
          hb hOff (Nat.zero_le (copied src tot m)) (by omega) (by omega) (by omega) hDisk
        rw [wp_pure]
        exact ⟨_, _, _, 0, rfl, hTurn, by rw [hCopied, hLanded], by rw [hCopied]⟩
    · intro hDone
      rw [wp_pure, show n - tot = 0 by omega]
      exact ⟨_, _, _, 0, rfl, Written.refl h 0 hOff, rfl, (overwrite_zero ..).symm⟩

/-- When `writei` returns -1. -/
def Refused (size off n : Nat) : Prop :=
  size < off ∨ (off + n) % 2 ^ 32 < off ∨ MAXFILE * BSIZE < off + n

/-- Inode `i` after `tot` of the `n` bytes from `off` on were written. -/
def Node.written (nd : Node) (off tot : Nat) (u : Finset Nat) (data : Nat → UInt8) : Node :=
  { nd with size := max nd.size (off + tot), data := data, used := u }

/-- What `writei` has done to inode `i`. -/
structure Wrote (g : Abs) (i off n : Nat) (c c' : Core) (u : Finset Nat) (data : Nat → UInt8) (tot : Nat) :
    Prop where
  rep   : Rep (g.setNode i ((g.node i).written off tot u data)) c'
  used  : (g.node i).used ⊆ u
  buf   : ∀ x ∉ u, (∀ b < c.sb.size, x ≠ c.sb.bblock b) → x ≠ c.sb.iblock i → c'.buf x = c.buf x
  le    : tot ≤ n
  other : ∀ o, ¬ (off ≤ o ∧ o < off + n) → data o = (g.node i).data o

/-- The end of `writei`: the size is set and the inode written to disk. -/
theorem writei_end {di : Dinode} {u : Finset Nat} {data : Nat → UInt8}
    (h : RepD D ∅ g c) (hr : r ∈ g.refs) (hLoaded : r.inum ∈ g.loaded)
    (hEnd : off + n ≤ MAXFILE * BSIZE) (hi : i = r.inum)
    (hW : Written D {i} g i off n c c₁ di u data tot) :
    wp E (do
        when ((← inode r.slot).din.size.toNat < off + tot) do
          setDin r.slot fun di => { di with size := BitVec.ofNat 32 (off + tot) }
        iupdate r.slot)
      (fun _ c' => Wrote g i off n c c' u data tot) c₁ := by
  subst hi
  have hLt := h.inum_lt hr
  have hType := h.table.typed _ hLoaded
  have hRep := hW.rep
  have hSb : c₁.sb = c.sb := hRep.sb.trans h.sb.symm
  have hSelf : upd D r.inum di r.inum = di := upd_self ..
  have hDin : (c₁.itable r.slot).din = di := (hRep.din hr hLoaded).trans hSelf
  have hType' : di.type ≠ 0 := by rwa [hW.fields]
  have hSize : di.size.toNat = (g.node r.inum).size := by
    rw [hW.fields]
    exact ((h.nodes _ hLt).size hType (Set.notMem_empty _)).symm
  have hN := hRep.nodes _ (hSb ▸ hLt)
  rw [hSelf, Abs.setNode_self] at hN
  have hLe := hW.le
  have hMax : MAXFILE * BSIZE < 2 ^ 32 := by decide
  rw [wp_bind, wp_inode, hDin, hSize, wp_bind, wp_when]
  constructor
  · intro hGrow
    have hNode : NodeOk c₁.buf { di with size := BitVec.ofNat 32 (off + tot) }
        { g.node r.inum with
          size := max (g.node r.inum).size (off + tot), data := data, used := u } False :=
      { hN with
        size := fun _ hFalse => hFalse.elim }
    have hSet := hRep.setDin hr hLoaded (by rw [hSelf]) (by rw [hSelf]) hNode
    simp only [upd_upd, Abs.setNode_setNode] at hSet
    rw [wp_setDin, hDin]
    refine (iupdate_spec hSet hr hLoaded ?_).mono ?_
    · rw [Abs.setNode_self, upd_self, BitVec.toNat_ofNat, Nat.mod_eq_of_lt (by omega)]
      exact Nat.max_eq_right (Nat.le_of_lt hGrow)
    · rintro _ c' ⟨h', hBuf⟩
      rw [Set.insert_eq_of_mem (Set.mem_singleton _), Set.sdiff_self] at h'
      refine ⟨⟨_, h'⟩, hW.used, fun x hx hMap hne => ?_, hW.le, hW.other⟩
      rw [hBuf x (by rwa [Core.setIp_sb, hSb])]
      exact hW.buf x hx hMap
  · intro hKeep
    refine (iupdate_spec hRep hr hLoaded ?_).mono ?_
    · rw [Abs.setNode_self, hSelf, hSize]
      exact Nat.max_eq_left (Nat.le_of_not_lt hKeep)
    · rintro _ c' ⟨h', hBuf⟩
      rw [Set.sdiff_self] at h'
      refine ⟨⟨_, h'⟩, hW.used, fun x hx hMap hne => ?_, hW.le, hW.other⟩
      rw [hBuf x (by rwa [hSb])]
      exact hW.buf x hx hMap

/-- `writei` of a source that can be read in part. -/
theorem writei_part (h : Rep g c) (hr : r ∈ g.refs)
    (hLoaded : r.inum ∈ g.loaded)
    (hDir : (g.node r.inum).type = T_DIR → landed off n (copied src 0 n) = copied src 0 n)
    (hOut : c.freeBlocks.card < missing c.buf (c.itable r.slot).din (span off n) →
      E .ballocOutOfBlocks) :
    wp E (writei r.slot src off n) (fun ret c' =>
      (Refused (g.node r.inum).size off n ∧ ret = none ∧ c' = c) ∨
      (¬ Refused (g.node r.inum).size off n ∧ ∃ u, ret = some (landed off n (copied src 0 n)) ∧
        Wrote g r.inum off n c c' u (overwrite (g.node r.inum).data off (copied src 0 n) fun j => (src j).getD 0)
          (landed off n (copied src 0 n)))) c := by
  obtain ⟨D, h⟩ := h
  have hLt := h.inum_lt hr
  have hType := h.table.typed _ hLoaded
  have hN := h.nodes _ hLt
  have hDin := h.din hr hLoaded
  have hSize := hN.size hType (Set.notMem_empty _)
  rw [writei, wp_bind, wp_inode, hDin, ← hSize, wp_ite]
  refine ⟨fun hBad => ?_, fun hGood => ?_⟩
  · rw [wp_pure]
    exact .inl ⟨hBad.imp id .inl, rfl, rfl⟩
  rw [wp_ite]
  refine ⟨fun hBad => ?_, fun hFits => ?_⟩
  · rw [wp_pure]
    exact .inl ⟨.inr (.inr hBad), rfl, rfl⟩
  have hNot : ¬ Refused (g.node r.inum).size off n := by
    rintro (hBad | hBad | hBad)
    · exact hGood (.inl hBad)
    · exact hGood (.inr hBad)
    · exact hFits hBad
  have hOff : off ≤ (g.node r.inum).size := Nat.le_of_not_lt fun hlt => hGood (.inl hlt)
  rw [hDin] at hOut
  have hEnd : off + n ≤ MAXFILE * BSIZE := Nat.le_of_not_lt hFits
  rw [hN.type] at hDir
  have hLoop : wp E (writeiLoop r.slot src n n 0 off) _ c :=
    writeiLoop_spec (h.mono (Set.empty_subset {r.inum})) hr hLoaded (Set.mem_singleton _) hOff hEnd
      (Nat.le_refl n) hDir hOut
  rw [wp_bind]
  refine hLoop.mono ?_
  rintro p c₁ ⟨di, u, data, k, rfl, hW, hk, hData⟩
  rw [Nat.sub_zero] at hW hk hData
  simp only [Nat.zero_add] at hData ⊢
  have hLast := writei_end (E := E) h hr hLoaded hEnd rfl hW
  simp only [wp_bind, wp_inode] at hLast ⊢
  refine hLast.mono fun _ c₂ h₂ => h₂.mono fun _ c' hWrote => ?_
  rw [hk, hData] at hWrote
  rw [wp_pure, hk]
  exact .inr ⟨hNot, u, rfl, hWrote⟩

theorem writei_spec (h : Rep g c) (hr : r ∈ g.refs)
    (hLoaded : r.inum ∈ g.loaded) (hDir : (g.node r.inum).type = T_DIR → ∀ j < n, (src j).isSome)
    (hOut : c.freeBlocks.card < missing c.buf (c.itable r.slot).din (span off n) →
      E .ballocOutOfBlocks) :
    wp E (writei r.slot src off n) (fun ret c' =>
      (Refused (g.node r.inum).size off n ∧ ret = none ∧ c' = c) ∨
      (¬ Refused (g.node r.inum).size off n ∧ ∃ tot u data, ret = some tot ∧
        Wrote g r.inum off n c c' u data tot ∧ ((∀ j < n, (src j).isSome) → tot = n ∧
          data = overwrite (g.node r.inum).data off n fun j => (src j).getD 0))) c := by
  have hAll : (∀ j < n, (src j).isSome) → copied src 0 n = n := fun hRead =>
    copied_eq fun j hj => (Nat.zero_add j).symm ▸ hRead j hj
  refine (writei_part h hr hLoaded (fun hT => ?_) hOut).mono ?_
  · rw [hAll (hDir hT), landed_all]
  · rintro ret c' (hBad | ⟨hGood, u, hRet, hW⟩)
    · exact .inl hBad
    · refine .inr ⟨hGood, _, u, _, hRet, hW, fun hRead => ?_⟩
      rw [hAll hRead, landed_all]
      exact ⟨rfl, rfl⟩

/-! ## The array -/

/-- No panic. -/
def Never : Panic → Prop := fun _ => False

/-- The entry of a loaded inode is a copy of the inode on disk. -/
theorem Rep.node (h : Rep g c) (hr : r ∈ g.refs) (hLoaded : r.inum ∈ g.loaded) :
    NodeOk c.buf (c.itable r.slot).din (g.node r.inum) True ∧ (c.itable r.slot).din.type ≠ 0 := by
  obtain ⟨D, h⟩ := h
  have hN := h.nodes _ (h.inum_lt hr)
  rw [← h.din hr hLoaded] at hN
  refine ⟨hN.imp fun _ => Set.notMem_empty _, ?_⟩
  rw [h.din hr hLoaded]
  exact h.table.typed _ hLoaded

theorem refused_iff {size : Nat} (off n : BitVec 32) : Refused size off.toNat n.toNat ↔
    size < off.toNat ∨ 2 ^ 32 ≤ off.toNat + n.toNat ∨ MAXFILE * BSIZE < off.toNat + n.toNat := by
  have hOff := off.isLt
  have hN := n.isLt
  unfold Refused
  omega

/-- The bytes `readi` returns from an array of `size` bytes; no overflow in `off + n`. -/
theorem readLen_eq {size : Nat} (h : off + n < 2 ^ 32) : readLen size off n = min n (size - off) := by
  unfold readLen
  split <;> omega

/-- `writei` replaces a range of bytes, and `readi` sees them. -/
theorem readi_writei {src : Nat → Option UInt8} (off n : BitVec 32) (h : Rep g c) (hr : r ∈ g.refs)
    (hLoaded : r.inum ∈ g.loaded) (hHoles : (g.node r.inum).holes = ∅)
    (hSrc : ∀ j < n.toNat, (src j).isSome)
    (hFree : missing c.buf (c.itable r.slot).din (span off.toNat n.toNat) ≤ c.freeBlocks.card) :
    wp Never (writei r.slot src off.toNat n.toNat) (fun ret c' =>
      (ret = none ↔ (g.node r.inum).size < off.toNat ∨ 2 ^ 32 ≤ off.toNat + n.toNat ∨
        MAXFILE * BSIZE < off.toNat + n.toNat) ∧
      (ret = none → c' = c) ∧
      (ret ≠ none → ret = some n.toNat ∧
        (c'.itable r.slot).din.size.toNat = max (g.node r.inum).size (off.toNat + n.toNat) ∧
        (∀ off' n' : BitVec 32, off'.toNat + n'.toNat < 2 ^ 32 →
          wp Never (readi r.slot kernel off'.toNat n'.toNat) (fun l c'' => c'' = c' ∧
            l = some (slice (overwrite (g.node r.inum).data off.toNat n.toNat fun j => (src j).getD 0)
              off'.toNat
              (min n'.toNat (max (g.node r.inum).size (off.toNat + n.toNat) - off'.toNat)))) c') ∧
        ∃ g', Rep g' c' ∧ (∀ j, j ≠ r.inum → g'.node j = g.node j) ∧
          ∀ x ∉ (g'.node r.inum).used, (∀ b < c.sb.size, x ≠ c.sb.bblock b) →
            (∀ j < c.sb.ninodes, x ≠ c.sb.iblock j) → c'.buf x = c.buf x)) c := by
  have hLt : r.inum < c.sb.ninodes := h.elim fun D h => h.inum_lt hr
  refine (writei_spec h hr hLoaded (fun _ => hSrc) fun hFew => absurd hFree (by omega)).mono ?_
  rintro ret c' (⟨hBad, rfl, rfl⟩ | ⟨hGood, tot, u, data, rfl, hW, hAll⟩)
  · exact ⟨⟨fun _ => (refused_iff off n).mp hBad, fun _ => rfl⟩, fun _ => rfl, fun hne => absurd rfl hne⟩
  obtain ⟨rfl, rfl⟩ := hAll hSrc
  refine ⟨⟨nofun, fun hBad => absurd ((refused_iff off n).mpr hBad) hGood⟩, nofun, fun _ => ⟨rfl, ?_⟩⟩
  have hNode := hW.rep.node hr hLoaded
  rw [Abs.setNode_self] at hNode
  refine ⟨(hNode.1.size hNode.2 trivial).symm, fun off' n' hSum => ?_, _, hW.rep,
    fun j hj => Abs.setNode_of_ne hj, fun x hx hMap hIno => ?_⟩
  · refine readi_kernel hNode.1 hNode.2 (fun o _ _ _ => ?_) ⟨rfl, ?_⟩
    · exact fun hIn => Set.notMem_empty _ (hHoles ▸ hIn)
    · rw [readLen_eq hSum]
      rfl
  · rw [Abs.setNode_self] at hx
    exact hW.buf x hx hMap (hIno _ hLt)

/-- Inode 1, an empty file. -/
def oneFile : Core where
  buf b := if b = 2 then Dinode.write zeroBlock 1 { Dinode.zero with type := T_FILE, nlink := 1 }
    else if b = 3 then (List.range 4).foldl setBit zeroBlock else zeroBlock
  disk b := if b = 2 then Dinode.write zeroBlock 1 { Dinode.zero with type := T_FILE, nlink := 1 }
    else if b = 3 then (List.range 4).foldl setBit zeroBlock else zeroBlock
  sb := { magic := FSMAGIC, size := 10, nblocks := 6, ninodes := 2, nlog := 0, logstart := 2,
          inodestart := 2, bmapstart := 3 }
  itable := oneEntry 1 { Dinode.zero with type := T_FILE, nlink := 1 }

/-- What it represents. -/
def oneFile.abs : Abs where
  sb := oneFile.sb
  node i := if i = 1 then { Node.fresh T_FILE with nlink := 1 } else Node.free
  refs := {⟨0, 1⟩}
  locks := ∅
  loaded := {1}

/-- The same for an inode of any type. -/
def oneInode (type : BitVec 16) : Core where
  buf b := if b = 2 then Dinode.write zeroBlock 1 { Dinode.zero with type := type, nlink := 1 }
    else if b = 3 then (List.range 4).foldl setBit zeroBlock else zeroBlock
  disk b := if b = 2 then Dinode.write zeroBlock 1 { Dinode.zero with type := type, nlink := 1 }
    else if b = 3 then (List.range 4).foldl setBit zeroBlock else zeroBlock
  sb := oneFile.sb
  itable := oneEntry 1 { Dinode.zero with type := type, nlink := 1 }

def oneInode.abs (type : BitVec 16) : Abs where
  sb := oneFile.sb
  node i := if i = 1 then { Node.fresh type with nlink := 1 } else Node.free
  refs := {⟨0, 1⟩}
  locks := ∅
  loaded := {1}

theorem marked_oneInode (type : BitVec 16) {b : Nat} (hb : b < 10) :
    marked (oneInode type).sb (oneInode type).buf b = decide (b < 4) := by
  have hAll : ∀ b < 10, marked oneFile.sb (fun _ => (List.range 4).foldl setBit zeroBlock) b = decide (b < 4) := by
    decide +kernel
  have hMap : (oneInode type).sb.bblock b = 3 := by
    show b / 8192 + 3 = 3
    omega
  rw [← hAll b hb, marked, hMap]
  rfl

theorem layout_oneFile : oneFile.sb.Layout := ⟨by decide, by decide, by decide, by decide⟩

theorem rep_oneInode {type : BitVec 16} (hType : type ≠ 0) : Rep (oneInode.abs type) (oneInode type) := by
  have hNone : ∀ i B q, addrAt B (if i = 1 then { Dinode.zero with type := type, nlink := 1 }
      else Dinode.zero) q = 0 := by
    intro i B q
    refine addrAt_zero B ?_ q
    split <;> rfl
  have hAddrs : ∀ x, addrs (oneInode type).sb (fun i => if i = 1 then
      { Dinode.zero with type := type, nlink := 1 } else Dinode.zero) (oneInode type).buf x = 0 := by
    intro x
    unfold addrs
    split
    · exact hNone ..
    · rfl
  refine ⟨fun i => if i = 1 then { Dinode.zero with type := type, nlink := 1 } else Dinode.zero, {
    sb := rfl
    layout := layout_oneFile
    table := tableOk_oneEntry rfl rfl rfl (show 1 ≤ 1 ∧ 1 < oneFile.sb.ninodes by decide) hType
    synced := fun i hi _ => ?_
    nodes := fun i _ => ?_
    owns := ⟨fun x hx => absurd (hAddrs x) hx, fun x _ hx => absurd (hAddrs x) hx, ?_⟩
    system := fun b hb => ?_
    logged := fun b hb => absurd rfl hb }⟩
  · have hBlk : dinodeAt (oneInode type).sb (oneInode type).buf i =
        Dinode.read (Dinode.write zeroBlock 1 { Dinode.zero with type := type, nlink := 1 }) i := by
      have : i = 0 ∨ i = 1 := by
        have hi' : i < 2 := hi
        omega
      rcases this with rfl | rfl <;> rfl
    rw [hBlk]
    split
    · rename_i h1
      rw [h1, Dinode.read_write_same _ (by decide)]
    · rename_i h1
      rw [Dinode.read_write_other _ h1, Dinode.read_zeroBlock]
  · show NodeOk _ (if i = 1 then _ else Dinode.zero) (if i = 1 then _ else Node.free) _
    by_cases hi : i = 1
    · rw [if_pos hi, if_pos hi]
      exact { nodeOk_fresh (oneInode type).buf hType _ with
        free := fun h0 => absurd h0 hType
        nlink := fun _ => rfl }
    · rw [if_neg hi, if_neg hi]
      exact nodeOk_free ..
  · rintro b ⟨hGe, hLt, hMark⟩
    rw [marked_oneInode type hLt, decide_eq_true_eq] at hMark
    exact absurd hMark (Nat.not_lt.mpr hGe)
  · rw [marked_oneInode type (Nat.lt_trans hb (show oneFile.sb.nmeta < 10 by decide)), decide_eq_true_eq]
    exact hb

theorem rep_oneFile : Rep oneFile.abs oneFile := rep_oneInode (by decide)

/-- One byte is written to the empty file and read back. -/
theorem readi_writei_oneFile :
    wp Never (writei 0 (fun _ => some 65) 0 1) (fun ret c' => ret = some 1 ∧
      wp Never (readi 0 kernel 0 1) (fun l _ => l = some [65]) c') oneFile := by
  have hFree : missing oneFile.buf (oneFile.itable 0).din (span 0 1) ≤ oneFile.freeBlocks.card := by
    decide +kernel
  refine (readi_writei (r := ⟨0, 1⟩) 0 1 rep_oneFile (Multiset.mem_singleton_self _)
    (Set.mem_singleton 1) rfl (fun _ _ => rfl) hFree).mono ?_
  rintro ret c' ⟨hNone, -, hSome⟩
  have hne : ret ≠ none := fun h0 => absurd (hNone.mp h0) (by decide)
  obtain ⟨hRet, -, hRead, -⟩ := hSome hne
  exact ⟨hRet, (hRead 0 1 (by decide)).mono fun l _ hl => hl.2⟩

end Xv6.Fs
