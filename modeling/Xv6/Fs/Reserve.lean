import Xv6.Fs.Content
import Xv6.Lib.Trace

/-!
# xv6 — a chunk of `filewrite` fits into its reservation

`filewrite` writes at most `(MAXOPBLOCKS - 4) / 2` blocks in one transaction, and a transaction may log
`MAXOPBLOCKS` blocks. The functions below are those of `fs.c` that `writei` calls, with a note of every block passed to
`log_write`; without the notes they are the functions of the model (`writei_erases`). The blocks a write logs are the
data blocks it touches and the indirect block, one block of the bitmap for each block it allocates, and the block of
the inode. An unaligned write finds its first block allocated, so that there are at most ten.
-/

namespace Xv6.Fs.Reserve

open ByteBuf Hoare

/-- Functions of `fs.c` that note the blocks passed to `log_write`. -/
abbrev T := Noted Core Nat Panic

/-! ## The functions -/

def logWrite (b : Nat) : T Unit := do
  silent (Fs.logWrite b)
  note b

def bzero (bno : Nat) : T Unit := do
  silent (setBuf bno zeroBlock)
  logWrite bno

def ballocFrom : (fuel : Nat) → (b : Nat) → T Nat
  | 0, _ => throw .ballocOutOfBlocks
  | fuel + 1, b => do
    let sb := (← silent get).sb
    if b < sb.size then
      let bp ← silent (bread (sb.bblock b))
      match (List.range (min BPB (sb.size - b))).find? fun bi => !bit bp bi with
      | some bi =>
        silent (setBuf (sb.bblock b) (setBit bp bi))
        logWrite (sb.bblock b)
        bzero (b + bi)
        return b + bi
      | none => ballocFrom fuel (b + BPB)
    else throw .ballocOutOfBlocks

def balloc : T Nat := do
  ballocFrom ((← silent get).sb.size / BPB + 1) 0

def bmapSlot (k : Nat) (j : Fin (NDIRECT + 1)) : T Nat := do
  let addr := (← silent (inode k)).addr j
  if addr = 0 then
    let addr ← balloc
    silent (setDin k fun di => Dinode.setAddr di j addr)
    return addr
  else return addr

def bmapEntry (ind j : Nat) : T Nat := do
  let bp ← silent (bread ind)
  let addr := indirect bp j
  if addr = 0 then
    let addr ← balloc
    silent (setBuf ind (setIndirect bp j addr))
    logWrite ind
    return addr
  else return addr

def bmap (k bn : Nat) : T Nat := do
  if h : bn < NDIRECT then
    bmapSlot k ⟨bn, Nat.lt_succ_of_lt h⟩
  else if bn - NDIRECT < NINDIRECT then
    bmapEntry (← bmapSlot k (Fin.last NDIRECT)) (bn - NDIRECT)
  else throw .bmapOutOfRange

def iupdate (k : Nat) : T Unit := do
  let sb := (← silent get).sb
  let ip ← silent (inode k)
  let bp ← silent (bread (sb.iblock ip.inum))
  silent (setBuf (sb.iblock ip.inum) (Dinode.write bp (ip.inum % IPB) ip.din))
  logWrite (sb.iblock ip.inum)

def writeiLoop (k : Nat) (src : Nat → Option UInt8) (n : Nat) : (fuel tot off : Nat) → T (Nat × Nat)
  | 0, tot, off => return (tot, off)
  | fuel + 1, tot, off => do
    if tot < n then
      let b ← bmap k (off / BSIZE)
      let bp ← silent (bread b)
      let m := min (n - tot) (BSIZE - off % BSIZE)
      let done := copied src tot m
      silent (setBuf b (poke bp (off % BSIZE) done fun j => (src (tot + j)).getD 0))
      if done = m then
        logWrite b
        writeiLoop k src n fuel (tot + m) (off + m)
      else return (tot, off)
    else return (tot, off)

def writei (k : Nat) (src : Nat → Option UInt8) (off n : Nat) : T (Option Nat) := do
  let size := (← silent (inode k)).din.size.toNat
  if size < off ∨ (off + n) % 2 ^ 32 < off then return none
  else if MAXFILE * BSIZE < off + n then return none
  else
    let (tot, off) ← writeiLoop k src n n 0 off
    let size := (← silent (inode k)).din.size.toNat
    silent (when (size < off) do
      setDin k fun di => { di with size := BitVec.ofNat 32 off })
    iupdate k
    return some tot

/-! ## Without the notes -/

theorem logWrite_erases (b : Nat) : Erases (logWrite b) (Fs.logWrite b) := .andNote _ _

theorem bzero_erases (b : Nat) : Erases (bzero b) (Fs.bzero b) := (Erases.silent _).bind fun _ => logWrite_erases b

theorem ballocFrom_erases (fuel b : Nat) : Erases (ballocFrom fuel b) (Fs.ballocFrom fuel b) := by
  induction fuel generalizing b with
  | zero => exact .throw _
  | succ fuel ih =>
    refine (Erases.silent _).bind fun c => .ite ((Erases.silent _).bind fun bp => ?_) (.throw _)
    cases (List.range (min BPB (c.sb.size - b))).find? fun bi => !bit bp bi with
    | some bi =>
      exact (Erases.silent _).bind fun _ => (logWrite_erases _).bind fun _ => (bzero_erases _).bind fun _ => .pure _
    | none => exact ih _

theorem balloc_erases : Erases balloc Fs.balloc := (Erases.silent _).bind fun _ => ballocFrom_erases ..

theorem bmapSlot_erases (k : Nat) (j : Fin (NDIRECT + 1)) : Erases (bmapSlot k j) (Fs.bmapSlot k j) :=
  (Erases.silent _).bind fun _ => .ite
    (balloc_erases.bind fun _ => (Erases.silent _).bind fun _ => .pure _) (.pure _)

theorem bmapEntry_erases (ind j : Nat) : Erases (bmapEntry ind j) (Fs.bmapEntry ind j) :=
  (Erases.silent _).bind fun _ => .ite
    (balloc_erases.bind fun _ => (Erases.silent _).bind fun _ => (logWrite_erases _).bind fun _ => .pure _) (.pure _)

theorem bmap_erases (k bn : Nat) : Erases (bmap k bn) (Fs.bmap k bn) := by
  unfold bmap Fs.bmap
  split
  · exact bmapSlot_erases ..
  · exact .ite ((bmapSlot_erases ..).bind fun _ => bmapEntry_erases ..) (.throw _)

theorem iupdate_erases (k : Nat) : Erases (iupdate k) (Fs.iupdate k) :=
  (Erases.silent _).bind fun _ => (Erases.silent _).bind fun _ => (Erases.silent _).bind fun _ =>
    (Erases.silent _).bind fun _ => logWrite_erases _

theorem writeiLoop_erases (k : Nat) (src : Nat → Option UInt8) (n fuel tot off : Nat) :
    Erases (writeiLoop k src n fuel tot off) (Fs.writeiLoop k src n fuel tot off) := by
  induction fuel generalizing tot off with
  | zero => exact .pure _
  | succ fuel ih =>
    refine .ite ?_ (.pure _)
    exact (bmap_erases ..).bind fun _ => (Erases.silent _).bind fun _ => (Erases.silent _).bind fun _ =>
      .ite ((logWrite_erases _).bind fun _ => ih _ _) (.pure _)

/-- `writei`, when nobody takes notes. -/
theorem writei_erases (k : Nat) (src : Nat → Option UInt8) (off n : Nat) :
    Erases (writei k src off n) (Fs.writei k src off n) := by
  refine (Erases.silent _).bind fun _ => .ite (.pure _) (.ite (.pure _) ?_)
  refine (writeiLoop_erases ..).bind fun p => ?_
  exact (Erases.silent _).bind fun _ => (Erases.silent _).bind fun _ => (iupdate_erases k).bind fun _ => .pure _

/-! ## The notes -/

variable {E : Panic → Prop} {c : Core} {l : List Nat} {D : Nat → Dinode} {U : Set Nat} {g : Abs} {r : Ref}

/-- Any panic is admitted. -/
abbrev Any : Panic → Prop := fun _ => True

theorem wp_logWrite {b : Nat} {Q : Unit → Core × List Nat → Prop} :
    wp E (logWrite b) Q (c, l) ↔ Q () ({ c with disk := upd c.disk b (c.buf b) }, l ++ [b]) := by
  rw [logWrite, wp_bind, wp_silent, Fs.wp_logWrite, wp_note]

/-- A block of the bitmap and the new block. -/
theorem ballocFrom_notes (fuel b : Nat) :
    wp Any (ballocFrom fuel b) (fun a p => p.1.itable = c.itable ∧ ∃ x, p.2 = l ++ [x, a]) (c, l) := by
  induction fuel generalizing b with
  | zero => exact wp_throw.mpr trivial
  | succ fuel ih =>
    rw [ballocFrom, wp_bind, wp_silent, wp_get, wp_ite]
    refine ⟨fun _ => ?_, fun _ => wp_throw.mpr trivial⟩
    rw [wp_bind, wp_silent, wp_bread]
    split
    · rw [wp_bind, wp_silent, wp_setBuf, wp_bind, wp_logWrite, bzero, wp_bind, wp_bind, wp_silent, wp_setBuf,
        wp_logWrite, wp_pure]
      exact ⟨rfl, _, List.append_assoc ..⟩
    · exact ih _

theorem balloc_notes : wp Any balloc (fun a p => p.1.itable = c.itable ∧ ∃ x, p.2 = l ++ [x, a]) (c, l) := by
  rw [balloc, wp_bind, wp_silent, wp_get]
  exact ballocFrom_notes _ _

theorem bmapSlot_notes (k : Nat) (j : Fin (NDIRECT + 1)) :
    wp Any (bmapSlot k j) (fun b p => (c.itable k).addr j ≠ 0 ∧ p.2 = l ∨
      (c.itable k).addr j = 0 ∧ ∃ x, p.2 = l ++ [x, b]) (c, l) := by
  rw [bmapSlot, wp_bind, wp_silent, wp_inode, wp_ite]
  constructor
  · intro h0
    rw [wp_bind]
    refine balloc_notes.mono ?_
    rintro b p ⟨-, hx⟩
    rw [wp_bind, wp_silent, wp_setDin, wp_pure]
    exact .inr ⟨h0, hx⟩
  · intro hne
    exact wp_pure.mpr (.inl ⟨hne, rfl⟩)

theorem bmapEntry_notes (ind j : Nat) :
    wp Any (bmapEntry ind j) (fun b p => p.1.itable = c.itable ∧ (p.2 = l ∨
      indirect (c.buf ind) j = 0 ∧ ∃ x, p.2 = l ++ [x, b, ind])) (c, l) := by
  rw [bmapEntry, wp_bind, wp_silent, wp_bread, wp_ite]
  constructor
  · intro h0
    rw [wp_bind]
    refine balloc_notes.mono ?_
    rintro b ⟨c₁, l₁⟩ ⟨hTable, x, rfl⟩
    rw [wp_bind, wp_silent, wp_setBuf, wp_bind, wp_logWrite, wp_pure]
    exact ⟨hTable, .inr ⟨h0, x, List.append_assoc ..⟩⟩
  · intro _
    exact wp_pure.mpr ⟨rfl, .inl rfl⟩

/-- Notes `X` of filling the places `P` of an inode `di`, which becomes `di'`: the blocks at these places, and one more
for each place that was empty. -/
def Fills (B : Disk) (di : Dinode) (P : Finset Nat) (B' : Disk) (di' : Dinode) (X : List Nat) : Prop :=
  ∃ bm : Finset Nat, bm.card ≤ missing B di P ∧ ∀ x ∈ X, x ∈ bm ∨ ∃ p ∈ P, addrAt B' di' p = x

theorem Fills.nil (B : Disk) (di : Dinode) (P : Finset Nat) (B' : Disk) (di' : Dinode) : Fills B di P B' di' [] :=
  ⟨∅, Nat.zero_le _, nofun⟩

/-- `bmap` returns `b`; its notes are `b`, the indirect block and blocks of the bitmap. -/
theorem bmap_notes (h : RepD D U g c) (hr : r ∈ g.refs) (hLoaded : r.inum ∈ g.loaded) (bn : Nat) :
    wp Any (bmap r.slot bn) (fun b p => ∃ X, p.2 = l ++ X ∧ ∃ bm : Finset Nat,
      bm.card ≤ missing c.buf (D r.inum) (needs bn) ∧ ∀ x ∈ X, x ∈ bm ∨ x = b ∨
        NDIRECT ≤ bn ∧ x = ((p.1.itable r.slot).din.addrs (Fin.last NDIRECT)).toNat) (c, l) := by
  have hDin := h.din hr hLoaded
  unfold bmap
  split
  · rename_i hDirect
    have hNeeds : needs bn = {bn} := if_pos hDirect
    refine (bmapSlot_notes ..).mono ?_
    rintro b ⟨c', l'⟩ (⟨-, rfl⟩ | ⟨h0, x, rfl⟩)
    · exact ⟨[], (List.append_nil _).symm, ∅, Nat.zero_le _, nofun⟩
    · refine ⟨[x, b], rfl, {x}, ?_, by simp⟩
      rw [Inode.addr, hDin] at h0
      rw [Finset.card_singleton, hNeeds]
      refine Finset.card_pos.mpr ⟨bn, Finset.mem_filter.mpr ⟨Finset.mem_singleton_self bn, ?_⟩⟩
      rw [addrAt, dif_pos (Nat.lt_succ_of_lt hDirect)]
      exact h0
  · rename_i hDirect
    have hNeeds : needs bn = {NDIRECT, bn + 1} := if_neg hDirect
    rw [wp_ite]
    refine ⟨fun hj => ?_, fun _ => wp_throw.mpr trivial⟩
    rw [wp_bind]
    refine (((bmapSlot_erases ..).wp (bmapSlot_spec h hr hLoaded (Fin.last NDIRECT) fun _ _ => trivial) l).and
      (bmapSlot_notes ..)).mono ?_
    rintro ind ⟨c₁, l₁⟩ ⟨⟨hne, rfl, rfl⟩ | ⟨hZero, hFree, rfl⟩, hNotes⟩
    · -- the indirect block is there
      obtain ⟨-, rfl⟩ := hNotes.resolve_right fun hMiss => by
        have h0 := hMiss.1
        rw [Inode.addr, hDin] at h0
        exact hne (BitVec.eq_of_toNat_eq h0)
      refine (bmapEntry_notes ..).mono ?_
      rintro b ⟨c', l'⟩ ⟨hTable, rfl | ⟨h0, x, rfl⟩⟩
      · exact ⟨[], (List.append_nil _).symm, ∅, Nat.zero_le _, nofun⟩
      · refine ⟨_, rfl, {x}, ?_, ?_⟩
        · rw [Finset.card_singleton, hNeeds]
          refine Finset.card_pos.mpr ⟨bn + 1, Finset.mem_filter.mpr ⟨by simp, ?_⟩⟩
          rw [show bn + 1 = bn - NDIRECT + (NDIRECT + 1) by omega, addrAt_entry hj hne]
          exact h0
        · have hInd : ((c'.itable r.slot).din.addrs (Fin.last NDIRECT)).toNat =
              ((D r.inum).addrs (Fin.last NDIRECT)).toNat := by rw [hTable, hDin]
          rw [hInd]
          simp [Nat.le_of_not_lt hDirect]
    · -- it is allocated first
      obtain ⟨-, x₁, rfl⟩ := hNotes.resolve_left fun hHit => hHit.1 (by
        rw [Inode.addr, hDin, hZero]
        rfl)
      have hMissing : missing c.buf (D r.inum) (needs bn) = 2 := by
        have hAll : (needs bn).filter (fun p => addrAt c.buf (D r.inum) p = 0) = {NDIRECT, bn + 1} := by
          rw [hNeeds, Finset.filter_true_of_mem]
          intro p hp
          rcases Finset.mem_insert.mp hp with rfl | hp
          · rw [addrAt_last, hZero]
            rfl
          · rw [Finset.mem_singleton.mp hp]
            exact addrAt_of_last_zero (by omega) hZero
        rw [missing, hAll, Finset.card_pair (by omega)]
      have hLt : ind < 2 ^ 32 := Nat.lt_trans (mem_freeBlocks.mp hFree).1 h.layout.size_lt
      have hInd : ∀ t : Nat → Inode, t = ((c.take ind).setIp r.slot { c.itable r.slot with
          din := Dinode.setAddr (D r.inum) (Fin.last NDIRECT) ind }).itable →
          ((t r.slot).din.addrs (Fin.last NDIRECT)).toNat = ind := by
        rintro _ rfl
        rw [Core.setIp_itable, upd_self, setAddr_addrs, if_pos rfl, BitVec.toNat_ofNat, Nat.mod_eq_of_lt hLt]
      rw [hMissing]
      refine (bmapEntry_notes ..).mono ?_
      rintro b ⟨c', l'⟩ ⟨hTable, rfl | ⟨-, x₂, rfl⟩⟩
      · refine ⟨_, rfl, {x₁}, by simp, ?_⟩
        rw [hInd _ hTable]
        simp [Nat.le_of_not_lt hDirect]
      · refine ⟨[x₁, ind] ++ [x₂, b, ind], (List.append_assoc ..), {x₁, x₂}, Finset.card_le_two, ?_⟩
        rw [hInd _ hTable]
        simp [Nat.le_of_not_lt hDirect]

theorem bmap_fills (h : RepD D U g c) (hr : r ∈ g.refs) (hLoaded : r.inum ∈ g.loaded) {bn : Nat} (hbn : bn < MAXFILE)
    (hOut : E .ballocOutOfBlocks) :
    wp E (bmap r.slot bn) (fun b p => ∃ di u X, Grown D U g r.inum c p.1 di u (needs bn) ∧
      addrAt p.1.buf di (place bn) = b ∧ b ≠ 0 ∧ p.2 = l ++ X ∧
      Fills c.buf (D r.inum) (needs bn) p.1.buf di X) (c, l) := by
  refine (((bmap_erases ..).wp (bmap_spec h hr hLoaded hbn fun _ => hOut) l).and
    (bmap_notes h hr hLoaded bn)).mono ?_
  rintro b ⟨c', l'⟩ ⟨⟨di, u, hG, hAddr, hb, -⟩, X, hX, bm, hCard, hMem⟩
  refine ⟨di, u, X, hG, hAddr, hb, hX, bm, hCard, fun x hx => ?_⟩
  have hDin : (c'.itable r.slot).din = di := (hG.rep.din hr hLoaded).trans (upd_self ..)
  rcases hMem x hx with hBm | rfl | ⟨hInd, rfl⟩
  · exact .inl hBm
  · exact .inr ⟨_, place_mem_needs bn, hAddr⟩
  · refine .inr ⟨NDIRECT, ?_, ?_⟩
    · rw [needs, if_neg (Nat.not_lt.mpr hInd)]
      exact Finset.mem_insert_self ..
    · rw [addrAt_last]
      exact congrArg (fun di : Dinode => (di.addrs (Fin.last NDIRECT)).toNat) hDin.symm

/-- The blocks of one chunk, then those of the others. -/
theorem Fills.append {B B₁ B₂ B' : Disk} {di di₁ di' : Dinode} {P Q R : Finset Nat} {X Y : List Nat} (hPR : P ⊆ R)
    (hQR : Q ⊆ R) (h₁ : Fills B di P B₁ di₁ X) (h₂ : Fills B₂ di₁ Q B' di' Y)
    (hSum : missing B di P + missing B₂ di₁ Q ≤ missing B di R)
    (hKept : ∀ p ∈ P, addrAt B' di' p = addrAt B₁ di₁ p) : Fills B di R B' di' (X ++ Y) := by
  obtain ⟨bm₁, hCard₁, hX⟩ := h₁
  obtain ⟨bm₂, hCard₂, hY⟩ := h₂
  refine ⟨bm₁ ∪ bm₂, ?_, fun x hx => ?_⟩
  · have := Finset.card_union_le bm₁ bm₂
    omega
  · rcases List.mem_append.mp hx with hx | hx
    · rcases hX x hx with hBm | ⟨p, hp, hAt⟩
      · exact .inl (Finset.mem_union_left _ hBm)
      · exact .inr ⟨p, hPR hp, (hKept p hp).trans hAt⟩
    · rcases hY x hx with hBm | ⟨p, hp, hAt⟩
      · exact .inl (Finset.mem_union_right _ hBm)
      · exact .inr ⟨p, hQR hp, hAt⟩

theorem Fills.mono {B B' : Disk} {di di' : Dinode} {P Q : Finset Nat} {X : List Nat} (h : Fills B di P B' di' X)
    (hPQ : P ⊆ Q) : Fills B di Q B' di' X := by
  obtain ⟨bm, hCard, hX⟩ := h
  exact ⟨bm, hCard.trans (missing_mono _ _ hPQ), fun x hx => (hX x hx).imp id fun ⟨p, hp, hAt⟩ => ⟨p, hPQ hp, hAt⟩⟩

/-- What the loop of `writei` notes when it fills the places `P`. -/
structure Looped (c : Core) (k : Nat) (di : Dinode) (P : Finset Nat) (l : List Nat) (p : Core × List Nat) : Prop where
  notes : ∃ X, p.2 = l ++ X ∧ Fills c.buf di P p.1.buf (p.1.itable k).din X
  kept  : ∀ q, addrAt c.buf di q ≠ 0 → addrAt p.1.buf (p.1.itable k).din q = addrAt c.buf di q

theorem Looped.refl {k : Nat} {di : Dinode} (hDin : (c.itable k).din = di) (P : Finset Nat) (l : List Nat) :
    Looped c k di P l (c, l) where
  notes := ⟨[], (List.append_nil l).symm, .nil ..⟩
  kept q _ := by rw [hDin]

theorem writeiLoop_notes {src : Nat → Option UInt8} {n fuel tot off : Nat} (h : RepD D U g c) (hr : r ∈ g.refs)
    (hLoaded : r.inum ∈ g.loaded) (hU : r.inum ∈ U) (hOff : off ≤ (g.node r.inum).size)
    (hEnd : off + (n - tot) ≤ MAXFILE * BSIZE) (hOut : E .ballocOutOfBlocks) :
    wp E (writeiLoop r.slot src n fuel tot off)
      (fun _ p => Looped c r.slot (D r.inum) (span off (n - tot)) l p) (c, l) := by
  induction fuel generalizing c D g l tot off with
  | zero => exact wp_pure.mpr (.refl (h.din hr hLoaded) _ _)
  | succ fuel ih =>
    rw [writeiLoop, wp_ite]
    refine ⟨fun hMore => ?_, fun _ => wp_pure.mpr (.refl (h.din hr hLoaded) _ _)⟩
    have hLeft := left_pos off
    generalize hm : min (n - tot) (BSIZE - off % BSIZE) = m
    have hmn : m ≤ n - tot := hm ▸ Nat.min_le_left ..
    have hmb : m ≤ BSIZE - off % BSIZE := hm ▸ Nat.min_le_right ..
    have hType := h.table.typed _ hLoaded
    have hNeeds := needs_subset_span off (Nat.sub_pos_of_lt hMore)
    rw [wp_bind]
    refine (bmap_fills h hr hLoaded (div_lt_maxfile (by omega)) hOut).mono ?_
    rintro b ⟨c₁, l₁⟩ ⟨di, u, X, hG, hAddr, hb, hX, hFills⟩
    dsimp only at hG hAddr hX hFills
    subst hX
    have hi : r.inum < c₁.sb.ninodes := hG.rep.inum_lt hr
    have hSelf : upd D r.inum di r.inum = di := upd_self ..
    have hDin : (c₁.itable r.slot).din = di := (hG.rep.din hr hLoaded).trans hSelf
    have hFilled := needs_filled (hAddr ▸ hb : addrAt c₁.buf di (place (off / BSIZE)) ≠ 0)
    rw [wp_bind, wp_silent, wp_bread, wp_bind, wp_silent, wp_setBuf]
    show wp E (if copied src tot m = m then _ else _) _ _
    rw [wp_ite]
    refine ⟨fun hDone => ?_, fun hPart => ?_⟩
    · obtain ⟨hTurn, hFree, hAt⟩ := hG.chunk (f := fun j => (src (tot + j)).getD 0) hU hi hType hAddr hb hOff hmb
        (by omega)
      rw [wp_bind, wp_logWrite, hDone]
      simp only [upd_self]
      have hRest : n - (tot + m) = n - tot - m := by omega
      refine (ih hTurn.rep hr hLoaded (by
        rw [Abs.setNode_self]
        exact Nat.le_max_right ..) (by omega)).mono ?_
      rintro _ ⟨c', l'⟩ ⟨⟨Y, hY, hFillsY⟩, hKept⟩
      dsimp only at hY
      simp only [hSelf] at hFillsY hKept
      replace hKept : ∀ q, addrAt c₁.buf di q ≠ 0 → addrAt c'.buf (c'.itable r.slot).din q = addrAt c₁.buf di q := by
        intro q hq
        rw [← hAt q] at hq
        exact (hKept q hq).trans (hAt q)
      refine ⟨⟨X ++ [b] ++ Y, by rw [hY]; simp only [List.append_assoc], ?_⟩, fun q hq => ?_⟩
      · rw [hRest] at hFillsY
        refine Fills.append hNeeds (span_rest off hmn) ?_ hFillsY ?_ fun p hp => hKept p (hFilled p hp)
        · obtain ⟨bm, hCard, hMem⟩ := hFills
          refine ⟨bm, hCard, fun x hx => ?_⟩
          rcases List.mem_append.mp hx with hx | hx
          · exact hMem x hx
          · exact .inr ⟨_, place_mem_needs _, hAddr.trans (List.mem_singleton.mp hx).symm⟩
        · -- what the chunk allocated is no longer missing
          have hNone : missing c₁.buf di (needs (off / BSIZE)) = 0 :=
            Finset.card_eq_zero.mpr (Finset.filter_false_of_mem hFilled)
          have hOne := hG.free _ (Finset.Subset.refl (needs (off / BSIZE)))
          have hAll := hG.free _ hNeeds
          have hLe := missing_mono c₁.buf di (span_rest off hmn)
          have hSame : missing (c₁.put b (poke (c₁.buf b) (off % BSIZE) m fun j => (src (tot + j)).getD 0)).buf di
              (span (off + m) (n - tot - m)) = missing c₁.buf di (span (off + m) (n - tot - m)) := by
            unfold missing
            simp only [hAt]
          show _ + missing (c₁.put b _).buf di _ ≤ _
          omega
      · have hq₁ := hG.kept q hq
        exact (hKept q (hq₁ ▸ hq)).trans hq₁
    · rw [wp_pure]
      have hTyped : (upd D r.inum di r.inum).type ≠ 0 := by
        rw [hSelf, hG.fields]
        exact hType
      have hMapped : addrAt c₁.buf (upd D r.inum di r.inum) (place (off / BSIZE)) ≠ 0 := by rwa [hSelf, hAddr]
      have hAt := addrAt_upd_data hG.rep hi hTyped hMapped
        (poke (c₁.buf b) (off % BSIZE) (copied src tot m) fun j => (src (tot + j)).getD 0)
      rw [hSelf, hAddr] at hAt
      refine ⟨⟨X, rfl, ?_⟩, fun q hq => ?_⟩
      · obtain ⟨bm, hCard, hMem⟩ := hFills.mono hNeeds
        refine ⟨bm, hCard, fun x hx => (hMem x hx).imp id ?_⟩
        rintro ⟨p, hp, hEq⟩
        refine ⟨p, hp, ?_⟩
        show addrAt (upd c₁.buf b _) (c₁.itable r.slot).din p = x
        rw [hDin, hAt, hEq]
      · show addrAt (upd c₁.buf b _) (c₁.itable r.slot).din q = _
        rw [hDin, hAt]
        exact hG.kept q hq

/-! ## The count -/

/-- The indices of the blocks that hold the bytes `[off, off + n)`, from `lo` on. -/
theorem span_subset (off n : Nat) :
    span off n ⊆ insert NDIRECT ((Finset.Ico (off / BSIZE) ((off + n + (BSIZE - 1)) / BSIZE)).image place) := by
  have hB : BSIZE = 1024 := rfl
  intro p hp
  obtain ⟨o, ho, hp⟩ := Finset.mem_biUnion.mp hp
  rw [Finset.mem_Ico] at ho
  rw [Finset.mem_insert, Finset.mem_image]
  have hRange : o / BSIZE ∈ Finset.Ico (off / BSIZE) ((off + n + (BSIZE - 1)) / BSIZE) := by
    rw [Finset.mem_Ico, hB]
    omega
  unfold needs at hp
  split at hp
  · rename_i hDirect
    exact .inr ⟨_, hRange, by rw [place, if_pos hDirect, Finset.mem_singleton.mp hp]⟩
  · rename_i hDirect
    rcases Finset.mem_insert.mp hp with hp | hp
    · exact .inl hp
    · exact .inr ⟨_, hRange, by rw [place, if_neg hDirect, Finset.mem_singleton.mp hp]⟩

theorem card_insert_image_le (lo hi : Nat) : (insert NDIRECT ((Finset.Ico lo hi).image place)).card ≤ hi - lo + 1 := by
  have hInsert := Finset.card_insert_le NDIRECT ((Finset.Ico lo hi).image place)
  have hImage : ((Finset.Ico lo hi).image place).card ≤ (Finset.Ico lo hi).card := Finset.card_image_le
  rw [Nat.card_Ico] at hImage
  omega

/-- In a file without holes the blocks that begin before `off` are there. -/
theorem missing_span_le {B : Disk} {di : Dinode} {nd : Node} {p : Prop} {off n : Nat} (hNode : NodeOk B di nd p)
    (hHoles : nd.holes = ∅) (hOff : off ≤ nd.size) :
    missing B di (span off n) ≤ (off + n + (BSIZE - 1)) / BSIZE - (off + (BSIZE - 1)) / BSIZE + 1 := by
  have hB : BSIZE = 1024 := rfl
  refine Nat.le_trans (Finset.card_le_card fun q hq => ?_) (card_insert_image_le ((off + (BSIZE - 1)) / BSIZE)
    ((off + n + (BSIZE - 1)) / BSIZE))
  obtain ⟨hSpan, hEmpty⟩ := Finset.mem_filter.mp hq
  rcases Finset.mem_insert.mp (span_subset off n hSpan) with hInd | hImage
  · exact Finset.mem_insert.mpr (.inl hInd)
  · obtain ⟨bn, hbn, rfl⟩ := Finset.mem_image.mp hImage
    refine Finset.mem_insert_of_mem (Finset.mem_image_of_mem _ ?_)
    have hLate : off ≤ bn * BSIZE := by
      by_contra hEarly
      exact hNode.mapped bn (hHoles ▸ Set.notMem_empty bn) (by omega) hEmpty
    rw [Finset.mem_Ico, hB] at hbn ⊢
    rw [hB] at hLate
    omega

theorem iupdate_notes (k : Nat) : wp E (iupdate k) (fun _ p => ∃ x, p.2 = l ++ [x]) (c, l) := by
  rw [iupdate, wp_bind, wp_silent, wp_get, wp_bind, wp_silent, wp_inode, wp_bind, wp_silent, wp_bread, wp_bind,
    wp_silent, wp_setBuf, wp_logWrite]
  exact ⟨_, rfl⟩

/-- What `writei` notes: blocks of the bitmap, blocks of the inode, and one more. -/
theorem writei_notes {src : Nat → Option UInt8} {off n : Nat} (h : RepD D ∅ g c) (hr : r ∈ g.refs)
    (hLoaded : r.inum ∈ g.loaded) (hOut : E .ballocOutOfBlocks) :
    wp E (writei r.slot src off n)
      (fun _ p => p.2.toFinset.card ≤ missing c.buf (D r.inum) (span off n) + (span off n).card + 1) (c, []) := by
  have hLt := h.inum_lt hr
  have hSize := (h.nodes _ hLt).size (h.table.typed _ hLoaded) (Set.notMem_empty _)
  rw [writei, wp_bind, wp_silent, wp_inode, h.din hr hLoaded, ← hSize, wp_ite]
  refine ⟨fun _ => wp_pure.mpr (Nat.zero_le _), fun hGood => ?_⟩
  rw [wp_ite]
  refine ⟨fun _ => wp_pure.mpr (Nat.zero_le _), fun hFits => ?_⟩
  have hOff : off ≤ (g.node r.inum).size := Nat.le_of_not_lt fun hlt => hGood (.inl hlt)
  rw [wp_bind]
  refine (writeiLoop_notes (h.mono (Set.empty_subset {r.inum})) hr hLoaded (Set.mem_singleton _) hOff
    (Nat.le_of_not_lt hFits) hOut).mono ?_
  rintro ⟨tot, off'⟩ ⟨c₁, l₁⟩ ⟨⟨X, hX, bm, hCard, hMem⟩, -⟩
  dsimp only at hX hMem
  rw [Nat.sub_zero] at hCard hMem
  have hNotes : ∀ x, (X ++ [x]).toFinset.card ≤
      missing c.buf (D r.inum) (span off n) + (span off n).card + 1 := by
    intro x
    have hSub : (X ++ [x]).toFinset ⊆ insert x (bm ∪ (span off n).image (addrAt c₁.buf (c₁.itable r.slot).din)) := by
      intro y hy
      rcases List.mem_append.mp (List.mem_toFinset.mp hy) with hy | hy
      · refine Finset.mem_insert_of_mem (Finset.mem_union.mpr ((hMem y hy).imp id ?_))
        rintro ⟨p, hp, rfl⟩
        exact Finset.mem_image_of_mem _ hp
      · rw [List.mem_singleton.mp hy]
        exact Finset.mem_insert_self ..
    have hLe := Finset.card_le_card hSub
    have hInsert := Finset.card_insert_le x (bm ∪ (span off n).image (addrAt c₁.buf (c₁.itable r.slot).din))
    have hUnion := Finset.card_union_le bm ((span off n).image (addrAt c₁.buf (c₁.itable r.slot).din))
    have hImage : ((span off n).image (addrAt c₁.buf (c₁.itable r.slot).din)).card ≤ (span off n).card :=
      Finset.card_image_le
    omega
  rw [List.nil_append] at hX
  subst hX
  have hUpdate : ∀ c₂, wp E (do iupdate r.slot; return some tot)
      (fun _ p => p.2.toFinset.card ≤ missing c.buf (D r.inum) (span off n) + (span off n).card + 1) (c₂, l₁) := by
    intro c₂
    rw [wp_bind]
    refine (iupdate_notes r.slot).mono ?_
    rintro _ ⟨c₃, l₃⟩ ⟨x, hx⟩
    dsimp only at hx
    subst hx
    exact wp_pure.mpr (hNotes x)
  show wp E (do
    let ip ← silent (inode r.slot)
    silent (when (ip.din.size.toNat < off') do
      setDin r.slot fun di => { di with size := BitVec.ofNat 32 off' })
    iupdate r.slot
    return some tot) _ _
  rw [wp_bind, wp_silent, wp_inode, wp_bind, wp_silent, wp_when]
  exact ⟨fun _ => wp_setDin.mpr (hUpdate _), fun _ => hUpdate _⟩

/-- A chunk of `filewrite` logs at most `MAXOPBLOCKS` different blocks. -/
theorem writei_reserve {src : Nat → Option UInt8} {off n : Nat} (h : Rep g c) (hr : r ∈ g.refs)
    (hLoaded : r.inum ∈ g.loaded) (hHoles : (g.node r.inum).holes = ∅) (hOff : off ≤ (g.node r.inum).size)
    (hn : n ≤ (MAXOPBLOCKS - 1 - 1 - 2) / 2 * BSIZE) :
    Erases (writei r.slot src off n) (Fs.writei r.slot src off n) ∧
      wp (· = .ballocOutOfBlocks) (writei r.slot src off n) (fun _ p => p.2.toFinset.card ≤ MAXOPBLOCKS) (c, []) := by
  refine ⟨writei_erases .., ?_⟩
  obtain ⟨D, h⟩ := h
  refine (writei_notes (E := (· = .ballocOutOfBlocks)) h hr hLoaded rfl).mono fun _ p hp => Nat.le_trans hp ?_
  have hMissing := missing_span_le (n := n) (h.nodes _ (h.inum_lt hr)) hHoles hOff
  have hSpan := (Finset.card_le_card (span_subset off n)).trans (card_insert_image_le ..)
  have hB : BSIZE = 1024 := rfl
  have hOp : MAXOPBLOCKS = 10 := rfl
  rw [hB] at hMissing hSpan hn
  omega

/-- One byte is written to an empty file. -/
theorem writei_reserve_oneFile : (oneFile.abs.node 1).holes = ∅ ∧
    wp (· = .ballocOutOfBlocks) (writei 0 (fun _ => some 65) 0 1) (fun _ p => p.2.toFinset.card ≤ MAXOPBLOCKS) (oneFile, []) :=
  ⟨rfl, (writei_reserve (r := ⟨0, 1⟩) rep_oneFile (Multiset.mem_singleton_self _) (Set.mem_singleton 1) rfl
    (Nat.zero_le _) (by decide)).2⟩

end Xv6.Fs.Reserve
