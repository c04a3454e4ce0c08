import Xv6.Fs.Dir
import Xv6.Lib.Lts
import Xv6.Lib.Slots
import Mathlib.Data.List.TakeWhile

/-!
# xv6 — a directory is a map from names

`dirlookup`, `dirlink` and the clearing of an entry as `unlink` does it, for one locked directory. Only its own entry of
the inode table matters to these functions, and of that not the number of references: the rest of the table is whatever the
other users of inodes have made of it (`Core.withTable`), and the numbers in the directory need not be those of any inode.

The names are in the buffers that `skipelem` leaves: cut after `DIRSIZ` bytes, or with a NUL and whatever was there
before. Two of them are the same name when their strings have the same first `DIRSIZ` bytes (`key_buffer`).

* `directory_map`: after any sequence of calls, what the next one does is what a map would do.
-/

namespace Xv6.Fs

open ByteBuf Hoare Owner

variable {name s stale : List UInt8} {j : Nat}

variable {E : Panic → Prop} {c c' : Core} {k i : Nat} {n : Node}

/-! ## The rest of the table -/

/-- The inode table is `t`, but entry `k` has changed in its number of references at most. -/
def Core.withTable (k : Nat) (c : Core) (t : Nat → Inode) : Core :=
  { c with itable := upd t k { c.itable k with ref := (t k).ref } }

theorem withTable_withTable (c : Core) (t t' : Nat → Inode) : (c.withTable k t).withTable k t' = c.withTable k t' := by
  simp only [Core.withTable, upd_self]

theorem withTable_itable (c : Core) : c.withTable k c.itable = c := by
  simp only [Core.withTable, upd_eta]

@[simp] theorem withTable_self (c : Core) (t : Nat → Inode) :
    (c.withTable k t).itable k = { c.itable k with ref := (t k).ref } := upd_self ..

theorem eq_withTable (hBuf : c'.buf = c.buf) (hDisk : c'.disk = c.disk) (hSb : c'.sb = c.sb)
    (hEntry : c'.itable k = { c.itable k with ref := (c'.itable k).ref }) : c' = c.withTable k c'.itable := by
  obtain ⟨buf, disk, sb, itable⟩ := c'
  obtain rfl : buf = c.buf := hBuf
  obtain rfl : disk = c.disk := hDisk
  obtain rfl : sb = c.sb := hSb
  rw [Core.withTable, ← hEntry, upd_eta]

theorem frames_inode {α : Type} {f : Inode → M α} (hRef : ∀ ip x, f { ip with ref := x } = f ip)
    (h : ∀ ip, Frames (Core.withTable k) (f ip)) : Frames (Core.withTable k) (inode k >>= f) := by
  refine ⟨fun c t => ?_⟩
  show f ((c.withTable k t).itable k) (c.withTable k t) = (f (c.itable k) c).map _
  rw [← (h (c.itable k)).run, withTable_self, hRef]

theorem frames_bread (b : Nat) : Frames (Core.withTable k) (bread b) :=
  .get (fun _ _ => rfl) fun _ => .pure _

theorem frames_setBuf (b : Nat) (v : Block) : Frames (Core.withTable k) (setBuf b v) := .modify fun _ _ => rfl

theorem frames_logWrite (b : Nat) : Frames (Core.withTable k) (logWrite b) := .modify fun _ _ => rfl

theorem frames_setDin (f : Dinode → Dinode) : Frames (Core.withTable k) (setDin k f) := by
  refine .modify fun c t => ?_
  simp only [Core.withTable, upd_self, upd_upd]

theorem frames_iupdate : Frames (Core.withTable k) (iupdate k) := by
  refine .get (fun _ _ => rfl) fun c => frames_inode (fun _ _ => rfl) fun ip => ?_
  exact (frames_bread _).bind fun _ => (frames_setBuf _ _).bind fun _ => frames_logWrite _

theorem frames_ballocFrom (fuel b : Nat) : Frames (Core.withTable k) (ballocFrom fuel b) := by
  induction fuel generalizing b with
  | zero => exact .throw _
  | succ fuel ih =>
    refine .get (fun _ _ => rfl) fun c => .ite ((frames_bread _).bind fun bp => ?_) (.throw _)
    split
    · refine (frames_setBuf _ _).bind fun _ => (frames_logWrite _).bind fun _ => ?_
      exact ((frames_setBuf _ _).bind fun _ => frames_logWrite _).bind fun _ => .pure _
    · exact ih _

theorem frames_balloc : Frames (Core.withTable k) balloc := .get (fun _ _ => rfl) fun _ => frames_ballocFrom _ _

theorem frames_bmapSlot (j : Fin (NDIRECT + 1)) : Frames (Core.withTable k) (bmapSlot k j) := by
  refine frames_inode (fun _ _ => rfl) fun ip => .ite ?_ (.pure _)
  exact frames_balloc.bind fun _ => (frames_setDin _).bind fun _ => .pure _

theorem frames_bmapEntry (ind j : Nat) : Frames (Core.withTable k) (bmapEntry ind j) := by
  refine (frames_bread _).bind fun bp => .ite ?_ (.pure _)
  exact frames_balloc.bind fun _ => (frames_setBuf _ _).bind fun _ => (frames_logWrite _).bind fun _ => .pure _

theorem frames_bmap (bn : Nat) : Frames (Core.withTable k) (bmap k bn) := by
  unfold bmap
  split
  · exact frames_bmapSlot _
  · exact .ite ((frames_bmapSlot _).bind fun _ => frames_bmapEntry _ _) (.throw _)

theorem frames_writeiLoop (src : Nat → Option UInt8) (n fuel tot off : Nat) :
    Frames (Core.withTable k) (writeiLoop k src n fuel tot off) := by
  induction fuel generalizing tot off with
  | zero => exact .pure _
  | succ fuel ih =>
    refine .ite ?_ (.pure _)
    refine (frames_bmap _).bind fun b => (frames_bread _).bind fun bp => (frames_setBuf _ _).bind fun _ => ?_
    exact .ite ((frames_logWrite _).bind fun _ => ih _ _) (.pure _)

/-- `writei` is about its own entry of the table. -/
theorem frames_writei (src : Nat → Option UInt8) (off n : Nat) : Frames (Core.withTable k) (writei k src off n) := by
  refine frames_inode (fun _ _ => rfl) fun ip => .ite (.pure _) (.ite (.pure _) ?_)
  refine (frames_writeiLoop ..).bind fun r => frames_inode (fun _ _ => rfl) fun ip => ?_
  exact (Frames.when (frames_setDin _)).bind fun _ => frames_iupdate.bind fun _ => .pure _

/-! ## The directory -/

/-- Nobody has a pointer to any inode but the one in entry `k`. -/
def soloTable (k : Nat) : Nat → Inode := upd (fun _ => .empty) k { Inode.empty with ref := 1 }

/-- Entry `k` of the table is inode `i`, a locked directory with the content `n`, on a disk that is in order. -/
structure DirAt (k i : Nat) (n : Node) (c : Core) : Prop where
  held  : 0 < (c.itable k).ref
  solo  : ∃ sb D N, At sb ∅ D N {⟨k, i⟩} {k} (c.withTable k (soloTable k)) ∧ N i = n
  type  : n.type = T_DIR
  holes : n.holes = ∅
  whole : n.size % 16 = 0

theorem DirAt.node (h : DirAt k i n c) : NodeOk c.buf (c.itable k).din n True ∧ (c.itable k).din.type ≠ 0 := by
  obtain ⟨sb, D, N, hAt, rfl⟩ := h.solo
  have hNode := hAt.node (Multiset.mem_singleton_self _) (Finset.mem_singleton_self k)
  rwa [withTable_self] at hNode

theorem DirAt.dirType (h : DirAt k i n c) : (c.itable k).din.type = T_DIR := h.node.1.type.symm.trans h.type

theorem DirAt.size (h : DirAt k i n c) : n.size = (c.itable k).din.size.toNat := h.node.1.size h.node.2 trivial

theorem DirAt.withTable (h : DirAt k i n c) {t : Nat → Inode} (ht : 0 < (t k).ref) : DirAt k i n (c.withTable k t) where
  held := by
    rw [withTable_self]
    exact ht
  solo := by
    rw [withTable_withTable]
    exact h.solo
  type := h.type
  holes := h.holes
  whole := h.whole

/-! ## iget, and iput right after it -/

/-- `iget` has returned the entry `ip`: it was in use for this inode, or it was free. -/
inductive Igot (dev inum ip : Nat) (c : Core) : Core → Prop where
  | hit (hRef : 0 < (c.itable ip).ref) (hDev : (c.itable ip).dev = dev) (hInum : (c.itable ip).inum = inum) :
    Igot dev inum ip c (c.setIp ip { c.itable ip with ref := (c.itable ip).ref + 1 })
  | fresh (hRef : (c.itable ip).ref = 0) :
    Igot dev inum ip c (c.setIp ip { c.itable ip with dev := dev, inum := inum, ref := 1, valid := false })

/-- There is no free entry. -/
def Core.Full (c : Core) : Prop := ∀ j < NINODE, (c.itable j).ref ≠ 0

theorem wp_iget {dev inum : Nat} {Q : Nat → Core → Prop} (hQ : ∀ ip c', Igot dev inum ip c c' → Q ip c')
    (hFull : c.Full → E .igetNoInodes) : wp E (iget dev inum) Q c := by
  rw [iget, wp_bind, wp_get]
  split
  · rename_i ip hFind
    have hMatch := List.find?_some hFind
    obtain ⟨hRef, hDev, hInum⟩ := of_decide_eq_true hMatch
    rw [wp_bind, wp_setInode, wp_pure]
    exact hQ ip _ (.hit hRef hDev hInum)
  · split
    · rename_i ip hFind
      have hFree := List.find?_some hFind
      rw [wp_bind, wp_setInode, wp_pure]
      exact hQ ip _ (.fresh (of_decide_eq_true hFree))
    · rename_i hNone
      refine wp_throw.mpr (hFull fun j hj hRef => ?_)
      exact List.find?_eq_none.mp hNone j (List.mem_range.mpr hj) (decide_eq_true hRef)

variable {dev inum ip : Nat}

/-- The directory is as it was. -/
theorem Igot.withTable (h : Igot dev inum ip c c') (hHeld : 0 < (c.itable k).ref) :
    c' = c.withTable k c'.itable ∧ 0 < (c'.itable k).ref := by
  cases h with
  | hit hRef hDev hInum =>
    by_cases hk : k = ip
    · subst hk
      rw [Core.setIp_itable, upd_self]
      refine ⟨eq_withTable rfl rfl rfl ?_, Nat.succ_pos _⟩
      rw [Core.setIp_itable, upd_self]
    · rw [Core.setIp_itable, upd_of_ne hk]
      refine ⟨eq_withTable rfl rfl rfl ?_, hHeld⟩
      rw [Core.setIp_itable, upd_of_ne hk]
  | fresh hRef =>
    have hk : k ≠ ip := by
      rintro rfl
      omega
    rw [Core.setIp_itable, upd_of_ne hk]
    refine ⟨eq_withTable rfl rfl rfl ?_, hHeld⟩
    rw [Core.setIp_itable, upd_of_ne hk]

/-- Nothing has changed but entries that nobody has a pointer to. -/
structure Unread (c c' : Core) : Prop where
  buf   : c'.buf = c.buf
  disk  : c'.disk = c.disk
  sb    : c'.sb = c.sb
  ref   : ∀ j, (c'.itable j).ref = (c.itable j).ref
  entry : ∀ j, (c.itable j).ref ≠ 0 → c'.itable j = c.itable j

/-- What `iget` has just returned is not the last pointer to a loaded inode. -/
theorem Igot.iput {Q : Unit → Core → Prop} (h : Igot dev inum ip c c') (hQ : ∀ c'', Unread c c'' → Q () c'') :
    wp E (iput ip) Q c' := by
  rw [Fs.iput, wp_bind, wp_inode, wp_bind, wp_when]
  cases h with
  | hit hRef hDev hInum =>
    rw [Core.setIp_itable, upd_self]
    refine ⟨fun hBad => absurd hBad.1 (by dsimp only; omega), fun _ => wp_setInode.mpr (hQ _ ?_)⟩
    have hBack : upd (upd c.itable ip { c.itable ip with ref := (c.itable ip).ref + 1 }) ip
        { c.itable ip with ref := (c.itable ip).ref + 1 - 1 } = c.itable := by
      rw [upd_upd, Nat.add_sub_cancel, upd_eta]
    refine ⟨rfl, rfl, rfl, fun j => ?_, fun j _ => ?_⟩
    · simp only [Core.setIp_itable, upd_self]
      rw [hBack]
    · simp only [Core.setIp_itable, upd_self]
      rw [hBack]
  | fresh hRef =>
    rw [Core.setIp_itable, upd_self]
    refine ⟨fun hBad => absurd hBad.2.1 Bool.false_ne_true, fun _ => wp_setInode.mpr (hQ _ ?_)⟩
    refine ⟨rfl, rfl, rfl, fun j => ?_, fun j hj => ?_⟩
    · simp only [Core.setIp_itable, upd_self, upd_upd]
      by_cases hj : j = ip
      · rw [hj, upd_self, hRef]
      · rw [upd_of_ne hj]
    · simp only [Core.setIp_itable, upd_self, upd_upd]
      exact upd_of_ne fun hEq => hj (hEq ▸ hRef)

/-! ## The functions -/

theorem DirAt.dirlookup {Q : Option (Nat × Nat) → Core → Prop} (h : DirAt k i n c)
    (hFull : lookup n name ≠ none → c.Full → E .igetNoInodes) (hNone : lookup n name = none → Q none c)
    (hSome : ∀ j ip c', lookup n name = some j → Igot (c.itable k).dev (ent n j).inum ip c c' → Q (some (ip, 16 * j)) c') :
    wp E (dirlookup k name) Q c := by
  obtain ⟨hNode, hType⟩ := h.node
  rw [Fs.dirlookup, wp_bind, wp_inode, h.dirType, wp_bind, wp_when]
  refine ⟨fun hNot => absurd rfl hNot, fun _ => ?_⟩
  refine wp_scan_lookup hNode hType (.of_holes h.holes _ _) (fun hOdd => absurd h.whole hOdd)
    (fun hFind _ => wp_pure.mpr (hNone hFind)) fun j hFind => ?_
  dsimp only
  rw [wp_bind, wp_inode, wp_bind]
  exact wp_iget (fun ip c'' hGot => wp_pure.mpr (hSome j ip c'' hFind hGot)) (hFull (by simp [hFind]))

/-- The directory is now `n'`; nothing else in the table has changed. -/
structure Rewrote (k i : Nat) (n' : Node) (c c' : Core) : Prop where
  dir   : DirAt k i n' c'
  table : ∃ ip, c'.itable = upd c.itable k ip

theorem span_entry (j : Nat) : span (16 * j) 16 ⊆ needs (16 * j / BSIZE) := by
  refine Finset.biUnion_subset.mpr fun o ho => ?_
  have := Finset.mem_Ico.mp ho
  rw [entry_block this.1 this.2]

/-- A new entry takes two blocks at most: one for it, one for the block numbers. -/
theorem missing_entry_le (B : Disk) (di : Dinode) (j : Nat) : missing B di (span (16 * j) 16) ≤ 2 := by
  have hCard : (needs (16 * j / BSIZE)).card ≤ 2 := by
    unfold needs
    split
    · rw [Finset.card_singleton]
      exact one_le_two
    · exact Finset.card_le_two
  exact ((missing_mono B di (span_entry j)).trans (Finset.card_filter_le _ _)).trans hCard

/-- An old one takes none. -/
theorem DirAt.missing (h : DirAt k i n c) (hj : j < n.slots) :
    Fs.missing c.buf (c.itable k).din (span (16 * j) 16) = 0 := by
  have hIn : 16 * j < n.size := by
    unfold Node.slots at hj
    omega
  have hMap := h.node.1.mapped (16 * j / BSIZE) (h.holes ▸ Set.notMem_empty _)
    (Nat.lt_of_le_of_lt (Nat.div_mul_le_self ..) hIn)
  refine Finset.card_eq_zero.mpr (Finset.filter_false_of_mem fun p hp => ?_)
  exact needs_filled hMap p (span_entry j hp)

theorem entry_not_refused (hj : j ≤ n.slots) (hSize : 16 * j < MAXFILE * BSIZE) :
    ¬ Refused n.size (16 * j) 16 := by
  have hMax : MAXFILE * BSIZE = 274432 := rfl
  unfold Node.slots at hj
  unfold Refused
  omega

theorem DirAt.writeEnt {l : List UInt8} {Q : Option Nat → Core → Prop} (h : DirAt k i n c) (hj : j ≤ n.slots)
    (hSize : 16 * j < MAXFILE * BSIZE) (hOut : c.freeBlocks.card < 2 → j = n.slots → E .ballocOutOfBlocks)
    (hQ : ∀ u c', Rewrote k i (n.setEnt j l u) c c' → Q (some 16) c') : wp E (writei k (ofList l) (16 * j) 16) Q c := by
  obtain ⟨sb, D, N, hAt, rfl⟩ := h.solo
  have hMissing := missing_entry_le c.buf (c.itable k).din j
  have hWrite := writeEnt_at (E := E) (r := ⟨k, i⟩) (j := j) (l := l) hAt (Multiset.mem_singleton_self _)
    (Finset.mem_singleton_self k) (by
      rw [withTable_self]
      intro (hFew : c.freeBlocks.card < Fs.missing c.buf (c.itable k).din (span (16 * j) 16))
      refine hOut (by omega) ?_
      by_contra hne
      rw [h.missing (by omega)] at hFew
      exact absurd hFew (Nat.not_lt_zero _))
  have hFramed := (frames_writei (ofList l) (16 * j) 16).wp (withTable_withTable ..) hWrite c.itable
  rw [withTable_withTable, withTable_itable] at hFramed
  refine hFramed.mono ?_
  rintro ret c' ⟨c₁, ⟨hBad, -⟩ | ⟨-, rfl, u, D', hAt'⟩, hSolo, rfl⟩
  · exact absurd hBad (entry_not_refused hj hSize)
  · refine hQ u _ ⟨⟨?_, ?_, h.type, h.holes, ?_⟩, _, rfl⟩
    · rw [withTable_self]
      exact h.held
    · refine ⟨sb, D', upd N i ((N i).setEnt j l u), ?_, upd_self ..⟩
      rw [withTable_withTable, hSolo]
      exact hAt'
    · have hWhole := h.whole
      show max (N i).size (16 * j + 16) % 16 = 0
      omega

theorem DirAt.dirlink {Q : Bool → Core → Prop} (h : DirAt k i n c)
    (hFull : lookup n name ≠ none → c.Full → E .igetNoInodes) (hSize : n.size < MAXFILE * BSIZE)
    (hOut : lookup n name = none → c.freeBlocks.card < 2 → E .ballocOutOfBlocks)
    (hThere : lookup n name ≠ none → ∀ c', Unread c c' → Q false c')
    (hNew : ∀ u c', lookup n name = none → Rewrote k i (n.setEnt (vacant n) (entBytes name inum) u) c c' → Q true c') :
    wp E (dirlink k name inum) Q c := by
  rw [Fs.dirlink, wp_bind]
  refine h.dirlookup hFull (fun hNone => ?_) fun j ip c' hFound hGot => ?_
  · obtain ⟨hNode, hType⟩ := h.node
    have hVacant : 16 * vacant n < MAXFILE * BSIZE := by
      have hLe := vacant_le n
      unfold Node.slots at hLe
      omega
    refine wp_scan_vacant hNode hType h.holes (fun hOdd => absurd h.whole hOdd) fun _ => ?_
    dsimp only
    rw [wp_bind]
    refine h.writeEnt (vacant_le n) hVacant (fun hFew _ => hOut hNone hFew) fun u c'' hWrote => ?_
    rw [wp_bind, wp_when]
    exact ⟨fun hne => absurd rfl hne, fun _ => wp_pure.mpr (hNew u c'' hNone hWrote)⟩
  · dsimp only
    rw [wp_bind]
    exact hGot.iput fun c'' hUnread => wp_pure.mpr (hThere (by simp [hFound]) c'' hUnread)

/-- What `unlink` does to a directory: the entry that `dirlookup` has found is cleared; false if there is none. -/
def dirclear (dp : Nat) (name : List UInt8) : M Bool := do
  match ← Fs.dirlookup dp name with
  | none => return false
  | some (_, off) =>
    when ((← writei dp (ofList (List.replicate 16 0)) off 16) ≠ some 16) (throw .unlinkWritei)
    return true

theorem DirAt.dirclear {Q : Bool → Core → Prop} (h : DirAt k i n c)
    (hFull : lookup n name ≠ none → c.Full → E .igetNoInodes) (hNone : lookup n name = none → Q false c)
    (hSome : ∀ j u c', lookup n name = some j → DirAt k i (n.setEnt j (List.replicate 16 0) u) c' → Q true c') :
    wp E (dirclear k name) Q c := by
  rw [Fs.dirclear, wp_bind]
  refine h.dirlookup hFull (fun hFind => wp_pure.mpr (hNone hFind)) fun j ip c' hFound hGot => ?_
  have hj := (find_eq_some.mp hFound).2.2.1
  obtain ⟨hTable, hHeld⟩ := hGot.withTable h.held
  have h' : DirAt k i n c' := by
    rw [hTable]
    exact h.withTable hHeld
  have hBound := h.node.1.bound
  have hIn : 16 * j < MAXFILE * BSIZE := by
    unfold Node.slots at hj
    omega
  show wp E (do
    when ((← writei k (ofList (List.replicate 16 0)) (16 * j) 16) ≠ some 16) (throw .unlinkWritei)
    return true) _ _
  rw [wp_bind]
  refine h'.writeEnt hj.le hIn (fun _ hEnd => absurd hEnd hj.ne) fun u c'' hWrote => ?_
  rw [wp_bind, wp_when]
  exact ⟨fun hne => absurd rfl hne, fun _ => wp_pure.mpr (hSome j u c'' hFound hWrote.dir)⟩

/-! ## Names -/

/-- A string that can be the name of a file. -/
structure IsName (s : List UInt8) : Prop where
  nonempty : s ≠ []
  noSlash  : slash ∉ s
  noNul    : 0 ∉ s

/-- What `skipelem` leaves in the buffer for the string `s`, when `stale` was in it. -/
def buffer (s stale : List UInt8) : List UInt8 :=
  if DIRSIZ ≤ s.length then s.take DIRSIZ else s ++ 0 :: stale.drop (s.length + 1)

theorem skipelem_name (h : IsName s) (stale : List UInt8) : skipelem s stale = some ([], buffer s stale) := by
  have hKeep : s.dropWhile (· = slash) = s := by
    obtain ⟨a, t, rfl⟩ := List.exists_cons_of_ne_nil h.nonempty
    refine List.dropWhile_cons_of_neg fun hEq => h.noSlash ?_
    rw [← of_decide_eq_true hEq]
    exact List.mem_cons_self
  have hAll : ∀ a ∈ s, decide (a ≠ slash) = true := fun a ha => decide_eq_true fun hEq => h.noSlash (hEq ▸ ha)
  have hTake : s.takeWhile (· ≠ slash) = s := List.takeWhile_eq_self_iff.mpr hAll
  have hDrop : s.dropWhile (· ≠ slash) = [] := List.dropWhile_eq_nil_iff.mpr hAll
  rw [skipelem, hKeep]
  simp only [hTake, hDrop, if_neg h.nonempty, buffer]
  rfl

theorem strncpy_take (s : List UInt8) (n : Nat) : strncpy (s.take n) n = strncpy s n := by
  induction n generalizing s with
  | zero => rfl
  | succ n ih =>
    cases s with
    | nil => rfl
    | cons a s => rw [List.take_succ_cons, strncpy_succ, strncpy_succ, List.headD_cons, List.headD_cons, List.tail_cons,
        List.tail_cons, ih]

theorem strncpy_nul (s rest : List UInt8) (n : Nat) : strncpy (s ++ 0 :: rest) n = strncpy s n := by
  induction n generalizing s with
  | zero => rfl
  | succ n ih =>
    cases s with
    | nil => rfl
    | cons a s =>
      rw [List.cons_append, strncpy_succ, strncpy_succ, List.headD_cons, List.headD_cons, List.tail_cons, List.tail_cons, ih]

/-- Of a string without a NUL, its first bytes are stored, and NULs to the end. -/
theorem strncpy_eq (h : 0 ∉ s) (n : Nat) : strncpy s n = s.take n ++ List.replicate (n - s.length) 0 := by
  induction n generalizing s with
  | zero => simp [strncpy]
  | succ n ih =>
    cases s with
    | nil => rfl
    | cons a s =>
      rw [List.mem_cons, not_or] at h
      rw [strncpy_succ, List.headD_cons, if_pos (Ne.symm h.1), List.tail_cons, ih h.2, List.take_succ_cons,
        List.length_cons, Nat.add_sub_add_right, List.cons_append]

theorem key_buffer (s stale : List UInt8) : key (buffer s stale) = key s := by
  unfold buffer
  split
  · exact strncpy_take s DIRSIZ
  · exact strncpy_nul s _ DIRSIZ

theorem key_take (s : List UInt8) : key (s.take DIRSIZ) = key s := strncpy_take s DIRSIZ

/-- Strings with the same first bytes are the same name, and no others. -/
theorem key_inj {t : List UInt8} (hs : 0 ∉ s) (ht : 0 ∉ t) : key s = key t ↔ s.take DIRSIZ = t.take DIRSIZ := by
  constructor
  · intro hKey
    have hTake : ∀ {u : List UInt8}, 0 ∉ u → (key u).takeWhile (· ≠ 0) = u.take DIRSIZ := by
      intro u hu
      have hAll : ∀ a ∈ u.take DIRSIZ, decide (a ≠ 0) = true := fun a ha =>
        decide_eq_true fun hEq => hu (hEq ▸ List.mem_of_mem_take ha)
      rw [key, strncpy_eq hu, List.takeWhile_append_of_pos hAll, List.takeWhile_replicate]
      simp
    rw [← hTake hs, ← hTake ht, hKey]
  · intro hEq
    rw [← key_take s, ← key_take t, hEq]

/-! ## Entries as slots of a map -/

/-- What entry `j` holds. -/
def slotOf (n : Node) (j : Nat) : Option (List UInt8 × Nat) :=
  if j < n.slots ∧ (ent n j).inum ≠ 0 then some (key (ent n j).name, (ent n j).inum) else none

theorem slotOf_eq_some {κ : List UInt8} {v : Nat} : slotOf n j = some (κ, v) ↔
    (j < n.slots ∧ (ent n j).inum ≠ 0) ∧ key (ent n j).name = κ ∧ (ent n j).inum = v := by
  rw [slotOf, Option.ite_none_right_eq_some, Option.some.injEq, Prod.mk.injEq]

theorem lookup_slot (h : lookup n name = some j) :
    slotOf n j = some (key name, (ent n j).inum) := by
  obtain ⟨hStop, -, hj, -⟩ := find_eq_some.mp h
  rw [isEntry, decide_eq_true_eq, namecmp_eq_zero] at hStop
  exact slotOf_eq_some.mpr ⟨⟨hj, hStop.1⟩, hStop.2.symm, rfl⟩

theorem lookup_none (h : lookup n name = none) (j v : Nat) : slotOf n j ≠ some (key name, v) := by
  intro hj
  obtain ⟨⟨hlt, hUsed⟩, hKey, -⟩ := slotOf_eq_some.mp hj
  have hNot := find_eq_none.mp h j (Nat.zero_le j) hlt
  rw [isEntry, decide_eq_false_iff_not, namecmp_eq_zero] at hNot
  exact hNot ⟨hUsed, hKey.symm⟩

/-- The inode number that the directory has for the name `s`. -/
def content (n : Node) (s : List UInt8) : Option Nat := (lookup n s).map fun j => (ent n j).inum

theorem content_eq_some (hOnce : Slots.Once (slotOf n)) {v : Nat} :
    content n s = some v ↔ ∃ j, slotOf n j = some (key s, v) := by
  rw [content]
  cases hFind : lookup n s with
  | none => exact ⟨nofun, fun ⟨j, hj⟩ => absurd hj (lookup_none hFind j v)⟩
  | some j =>
    have hSlot := lookup_slot hFind
    rw [Option.map_some, Option.some.injEq]
    constructor
    · rintro rfl
      exact ⟨j, hSlot⟩
    · rintro ⟨j', hj'⟩
      obtain rfl := hOnce j j' _ _ _ hSlot hj'
      exact (Prod.mk.inj (Option.some.inj (hSlot.symm.trans hj'))).2

theorem content_eq {m : List UInt8 → Option Nat} (hOnce : Slots.Once (slotOf n)) (hShows : Slots.Shows (slotOf n) m)
    (s : List UInt8) : content n s = m (key s) :=
  Option.ext fun v => (content_eq_some hOnce).trans (hShows (key s) v).symm

/-- The map that a directory holds. -/
theorem shows_content (hOnce : Slots.Once (slotOf n)) :
    Slots.Shows (slotOf n) fun κ => if key κ = κ then content n κ else none := by
  intro κ v
  dsimp only
  split
  · rename_i hKey
    rw [content_eq_some hOnce, hKey]
  · rename_i hKey
    refine ⟨nofun, fun ⟨j, hj⟩ => absurd ?_ hKey⟩
    rw [← (slotOf_eq_some.mp hj).2.1]
    exact key_key _

theorem slotOf_vacant (n : Node) : slotOf n (vacant n) = none := by
  rw [slotOf, if_neg]
  rintro ⟨hlt, hUsed⟩
  unfold vacant at hlt hUsed
  cases hFind : find n (fun de => de.inum = 0) 0 with
  | none =>
    rw [hFind, Option.getD_none] at hlt
    omega
  | some j =>
    rw [hFind, Option.getD_some] at hUsed
    exact hUsed (of_decide_eq_true (find_eq_some.mp hFind).1)

theorem slotOf_link (hPos : 0 < inum) (hLt : inum < 2 ^ 16) (u : Finset Nat) :
    slotOf (n.setEnt (vacant n) (entBytes name inum) u) = upd (slotOf n) (vacant n) (some (key name, inum)) := by
  have hLe := vacant_le n
  funext j
  by_cases hj : j = vacant n
  · rw [hj, upd_self, slotOf_eq_some, slots_setEnt, ent_entBytes, Nat.mod_eq_of_lt hLt]
    exact ⟨⟨by omega, by dsimp only; omega⟩, key_key name, rfl⟩
  · rw [upd_of_ne hj, slotOf, slotOf, slots_setEnt, ent_setEnt_of_ne hj]
    congr 2
    exact propext (by omega)

theorem slotOf_clear (hj : j < n.slots) (u : Finset Nat) :
    slotOf (n.setEnt j (List.replicate 16 0) u) = upd (slotOf n) j none := by
  funext j'
  by_cases hEq : j' = j
  · rw [hEq, upd_self, slotOf, if_neg]
    rw [ent_setEnt (List.length_replicate ..)]
    exact fun hBad => hBad.2 rfl
  · rw [upd_of_ne hEq, slotOf, slotOf, slots_setEnt, ent_setEnt_of_ne hEq]
    congr 2
    exact propext (by omega)

/-! ## Any sequence of calls -/

instance (s : List UInt8) : Decidable (IsName s) :=
  decidable_of_iff (s ≠ [] ∧ slash ∉ s ∧ 0 ∉ s) ⟨fun h => ⟨h.1, h.2.1, h.2.2⟩, fun h => ⟨h.1, h.2, h.3⟩⟩

/-- A call with the name `s`, in a buffer that held `stale`; or the others do something with the inode table. -/
inductive DirOp where
  | lookup (s stale : List UInt8)
  | link (s stale : List UInt8) (inum : Nat)
  | clear (s stale : List UInt8)
  | table (t : Nat → Inode)

/-- The name that a call gets from `skipelem`. -/
def named (s stale : List UInt8) : Option (List UInt8) := if IsName s then (skipelem s stale).map Prod.snd else none

theorem named_eq (h : IsName s) : named s stale = some (buffer s stale) := by
  rw [named, if_pos h, skipelem_name h]
  rfl

theorem named_some (h : named s stale = some name) : IsName s ∧ name = buffer s stale := by
  by_cases hName : IsName s
  · rw [named_eq hName] at h
    exact ⟨hName, (Option.some.inj h).symm⟩
  · rw [named, if_neg hName] at h
    exact nomatch h

/-- The calls on the directory in entry `k`, one after the other. -/
def dirLts (k : Nat) (c₀ : Core) : Lts Core DirOp Panic where
  init c := c = c₀
  step c
    | .lookup s stale => (named s stale).map fun name => (dirlookup k name c).map Prod.snd
    | .link s stale inum =>
      if 0 < inum ∧ inum < 2 ^ 16 ∧ (c.itable k).din.size.toNat < MAXFILE * BSIZE then
        (named s stale).map fun name => (dirlink k name inum c).map Prod.snd
      else none
    | .clear s stale => (named s stale).map fun name => (dirclear k name c).map Prod.snd
    | .table t => if 0 < (t k).ref then some (.ok (c.withTable k t)) else none

/-- What a call does to a map. -/
def DirOp.apply (b : List UInt8 → Option Nat) : DirOp → List UInt8 → Option Nat
  | .lookup _ _ => b
  | .link s _ inum => if b (s.take DIRSIZ) = none then upd b (s.take DIRSIZ) (some inum) else b
  | .clear s _ => upd b (s.take DIRSIZ) none
  | .table _ => b

/-- The directory holds the map `b`. -/
structure Holds (k i : Nat) (n : Node) (b : List UInt8 → Option Nat) (c : Core) : Prop where
  dir   : DirAt k i n c
  once  : Slots.Once (slotOf n)
  shows : ∃ m, Slots.Shows (slotOf n) m ∧ ∀ s, 0 ∉ s → m (key s) = b (s.take DIRSIZ)

variable {b : List UInt8 → Option Nat}

theorem Holds.content (h : Holds k i n b c) (hs : 0 ∉ s) : Fs.content n s = b (s.take DIRSIZ) := by
  obtain ⟨m, hShows, hMap⟩ := h.shows
  rw [content_eq h.once hShows, hMap s hs]

/-- The names are those of strings. -/
theorem lookup_buffer (n : Node) (s stale : List UInt8) : lookup n (buffer s stale) = lookup n s := by
  have hEntry : isEntry (buffer s stale) = isEntry s := by
    funext de
    simp only [isEntry, namecmp_eq_zero, key_buffer]
  rw [lookup, lookup, hEntry]

theorem Holds.lookup_none (h : Holds k i n b c) (hs : 0 ∉ s) (stale : List UInt8) :
    lookup n (buffer s stale) = none ↔ b (s.take DIRSIZ) = none := by
  rw [lookup_buffer, ← h.content hs, Fs.content, Option.map_eq_none_iff]

theorem Holds.lookup_some (h : Holds k i n b c) (hs : 0 ∉ s)
    (hFound : lookup n (buffer s stale) = some j) : b (s.take DIRSIZ) = some (ent n j).inum := by
  rw [lookup_buffer] at hFound
  rw [← h.content hs, Fs.content, hFound]
  rfl

theorem Holds.withTable (h : Holds k i n b c) {t : Nat → Inode} (ht : 0 < (t k).ref) : Holds k i n b (c.withTable k t) :=
  ⟨h.dir.withTable ht, h.once, h.shows⟩

theorem Holds.unread (h : Holds k i n b c) (hUnread : Unread c c') : Holds k i n b c' := by
  have hEntry := hUnread.entry k h.dir.held.ne'
  have hTable : c' = c.withTable k c'.itable := eq_withTable hUnread.buf hUnread.disk hUnread.sb (by rw [hEntry])
  rw [hTable]
  exact h.withTable (hEntry ▸ h.dir.held)

/-- A name gets another number, or none. -/
theorem upd_key {m : List UInt8 → Option Nat} (hMap : ∀ s, 0 ∉ s → m (key s) = b (s.take DIRSIZ)) {t : List UInt8} (hs : 0 ∉ s)
    (ht : 0 ∉ t) (v : Option Nat) : upd m (key s) v (key t) = upd b (s.take DIRSIZ) v (t.take DIRSIZ) := by
  by_cases hEq : key t = key s
  · rw [hEq, upd_self, (key_inj ht hs).mp hEq, upd_self]
  · rw [upd_of_ne hEq, upd_of_ne fun hTake => hEq ((key_inj ht hs).mpr hTake), hMap t ht]

/-- A new entry. -/
theorem Holds.link (h : Holds k i n b c) {u : Finset Nat} (hs : 0 ∉ s) (hPos : 0 < inum)
    (hLt : inum < 2 ^ 16) (hNone : b (s.take DIRSIZ) = none)
    (hDir : DirAt k i (n.setEnt (vacant n) (entBytes (buffer s stale) inum) u) c') :
    Holds k i (n.setEnt (vacant n) (entBytes (buffer s stale) inum) u) (upd b (s.take DIRSIZ) (some inum)) c' := by
  obtain ⟨m, hShows, hMap⟩ := h.shows
  have hFree : m (key s) = none := by rw [hMap s hs, hNone]
  refine ⟨hDir, ?_, upd m (key s) (some inum), ?_, fun t ht => upd_key hMap hs ht _⟩
  · rw [slotOf_link hPos hLt, key_buffer]
    exact h.once.put hShows hFree _ _
  · rw [slotOf_link hPos hLt, key_buffer]
    exact hShows.put hFree (slotOf_vacant n) inum

/-- An entry that is cleared. -/
theorem Holds.clear (h : Holds k i n b c) {u : Finset Nat} (hs : 0 ∉ s)
    (hFound : lookup n (buffer s stale) = some j) (hDir : DirAt k i (n.setEnt j (List.replicate 16 0) u) c') :
    Holds k i (n.setEnt j (List.replicate 16 0) u) (upd b (s.take DIRSIZ) none) c' := by
  obtain ⟨m, hShows, hMap⟩ := h.shows
  have hj := (find_eq_some.mp hFound).2.2.1
  have hSlot := lookup_slot hFound
  rw [key_buffer] at hSlot
  refine ⟨hDir, ?_, upd m (key s) none, ?_, fun t ht => upd_key hMap hs ht _⟩
  · rw [slotOf_clear hj]
    exact h.once.clear j
  · rw [slotOf_clear hj]
    exact hShows.clear h.once hSlot

theorem DirAt.holds (h : DirAt k i n c) (hOnce : Slots.Once (slotOf n)) : Holds k i n (content n) c := by
  refine ⟨h, hOnce, _, shows_content hOnce, fun s _ => ?_⟩
  have hEntry : isEntry (key s) = isEntry (s.take DIRSIZ) := by
    funext de
    simp only [isEntry, namecmp_eq_zero, key_key, key_take]
  rw [if_pos (key_key s), content, content, lookup, lookup, hEntry]

theorem Holds.step {c₀ : Core} {a : DirOp} (h : Holds k i n b c) (hStep : (dirLts k c₀).step c a = some (.ok c')) :
    ∃ n', Holds k i n' (a.apply b) c' := by
  -- a call that returns
  have hCall : ∀ {α : Type} {m : List UInt8 → M α} {s stale : List UInt8} {b' : List UInt8 → Option Nat},
      (∀ _ : IsName s, wp (fun _ => True) (m (buffer s stale)) (fun _ c' => ∃ n', Holds k i n' b' c') c) →
      ((named s stale).map fun name => (m name c).map Prod.snd) = some (.ok c') → ∃ n', Holds k i n' b' c' := by
    intro α m s stale b' hm hMap
    obtain ⟨name, hNamed, hRun⟩ := Option.map_eq_some_iff.mp hMap
    obtain ⟨hName, rfl⟩ := named_some hNamed
    cases hResult : m (buffer s stale) c with
    | ok r =>
      rw [hResult] at hRun
      obtain rfl : r.2 = c' := Except.ok.inj hRun
      exact (hm hName).ok hResult
    | error e =>
      rw [hResult] at hRun
      exact nomatch hRun
  cases a with
  | lookup s stale =>
    refine hCall (fun hName => ?_) hStep
    refine h.dir.dirlookup (fun _ _ => trivial) (fun _ => ⟨n, h⟩) fun j ip c'' _ hGot => ⟨n, ?_⟩
    obtain ⟨hTable, hHeld⟩ := hGot.withTable h.dir.held
    rw [hTable]
    exact h.withTable hHeld
  | link s stale inum =>
    dsimp only [dirLts] at hStep
    split at hStep
    · rename_i hInum
      obtain ⟨hPos, hLt, hSize⟩ := hInum
      rw [← h.dir.size] at hSize
      refine hCall (fun hName => ?_) hStep
      refine h.dir.dirlink (fun _ _ => trivial) hSize (fun _ _ => trivial) (fun hThere c'' hUnread => ⟨n, ?_⟩)
        fun u c'' hNone hWrote => ⟨n.setEnt (vacant n) (entBytes (buffer s stale) inum) u, ?_⟩
      · rw [DirOp.apply, if_neg fun hBad => hThere ((h.lookup_none hName.noNul stale).mpr hBad)]
        exact h.unread hUnread
      · have hFree := (h.lookup_none hName.noNul stale).mp hNone
        rw [DirOp.apply, if_pos hFree]
        exact h.link hName.noNul hPos hLt hFree hWrote.dir
    · exact nomatch hStep
  | clear s stale =>
    refine hCall (fun hName => ?_) hStep
    refine h.dir.dirclear (fun _ _ => trivial) (fun hNone => ⟨n, ?_⟩) fun j u c'' hFound hDir =>
      ⟨n.setEnt j (List.replicate 16 0) u, ?_⟩
    · have hFree := (h.lookup_none hName.noNul stale).mp hNone
      rw [DirOp.apply, ← hFree, upd_eta]
      exact h
    · exact h.clear hName.noNul hFound hDir
  | table t =>
    dsimp only [dirLts] at hStep
    split at hStep
    · rename_i ht
      obtain rfl := Except.ok.inj (Option.some.inj hStep)
      exact ⟨n, h.withTable ht⟩
    · exact nomatch hStep

theorem run_holds {tr : List DirOp} (h : DirAt k i n c) (hOnce : Slots.Once (slotOf n)) (hRun : (dirLts k c).Run tr c') :
    ∃ n', Holds k i n' (tr.foldl DirOp.apply (content n)) c' := by
  refine hRun.invariant (I := fun tr c' => ∃ n', Holds k i n' (tr.foldl DirOp.apply (content n)) c') (fun s hs => ?_)
    fun tr s a s' _ ⟨n', hHolds⟩ hStep => ?_
  · obtain rfl : s = c := hs
    exact ⟨n, h.holds hOnce⟩
  · rw [List.foldl_append]
    exact hHolds.step hStep

/-! ## The next call -/

/-- What `dirlookup` does in a directory `n` that has the number `b` for the name. -/
inductive LooksUp (k : Nat) (n : Node) (name : List UInt8) (b : Option Nat) (c : Core) : Prop where
  | absent (hNone : b = none) (hRun : dirlookup k name c = .ok (none, c))
  | found {inum ip j : Nat} {c' : Core} (hSome : b = some inum) (hRun : dirlookup k name c = .ok (some (ip, 16 * j), c'))
    (hSlot : slotOf n j = some (key name, inum)) (hGot : Igot (c.itable k).dev inum ip c c')
  | full (hSome : b ≠ none) (hFull : c.Full) (hRun : dirlookup k name c = .error .igetNoInodes)

/-- Entry `v` is the first that is not in use, or the one after the last. -/
def FirstFree (n : Node) (v : Nat) : Prop :=
  (∀ j < v, (ent n j).inum ≠ 0) ∧ (v = n.slots ∨ v < n.slots ∧ (ent n v).inum = 0)

/-- What `dirlink` does there. -/
inductive Links (k i : Nat) (n : Node) (name : List UInt8) (inum : Nat) (b : Option Nat) (c : Core) : Prop where
  | there {c' : Core} (hSome : b ≠ none) (hRun : dirlink k name inum c = .ok (false, c')) (hSame : Unread c c')
  | new {v : Nat} {n' : Node} {c' : Core} (hNone : b = none) (hRun : dirlink k name inum c = .ok (true, c'))
    (hDir : DirAt k i n' c') (hFree : FirstFree n v) (hNew : ent n' v = ⟨inum, key name⟩)
    (hSlots : n'.slots = max n.slots (v + 1)) (hOther : ∀ j ≠ v, ent n' j = ent n j)
  | full (hSome : b ≠ none) (hFull : c.Full) (hRun : dirlink k name inum c = .error .igetNoInodes)
  | noBlocks (hNone : b = none) (hFew : c.freeBlocks.card < 2) (hRun : dirlink k name inum c = .error .ballocOutOfBlocks)

/-- What clearing an entry does there. -/
inductive Clears (k i : Nat) (n : Node) (name : List UInt8) (b : Option Nat) (c : Core) : Prop where
  | absent (hNone : b = none) (hRun : dirclear k name c = .ok (false, c))
  | cleared {inum j : Nat} {n' : Node} {c' : Core} (hSome : b = some inum) (hRun : dirclear k name c = .ok (true, c'))
    (hDir : DirAt k i n' c') (hSlot : slotOf n j = some (key name, inum)) (hClear : (ent n' j).inum = 0)
    (hSlots : n'.slots = n.slots) (hOther : ∀ j' ≠ j, ent n' j' = ent n j')
  | full (hSome : b ≠ none) (hFull : c.Full) (hRun : dirclear k name c = .error .igetNoInodes)

theorem firstFree_vacant (n : Node) : FirstFree n (vacant n) := by
  unfold vacant
  cases hFind : find n (fun de => de.inum = 0) 0 with
  | none =>
    rw [Option.getD_none]
    refine ⟨fun j hj hZero => ?_, .inl rfl⟩
    exact of_decide_eq_false (find_eq_none.mp hFind j (Nat.zero_le j) hj) hZero
  | some v =>
    obtain ⟨hStop, -, hv, hBefore⟩ := find_eq_some.mp hFind
    rw [Option.getD_some]
    exact ⟨fun j hj => of_decide_eq_false (hBefore j (Nat.zero_le j) hj), .inr ⟨hv, of_decide_eq_true hStop⟩⟩

theorem Holds.looksUp (h : Holds k i n b c) (hName : IsName s) (stale : List UInt8) :
    LooksUp k n (buffer s stale) (b (s.take DIRSIZ)) c := by
  have hNone := h.lookup_none hName.noNul stale
  have hWp : wp (fun e => e = .igetNoInodes ∧ b (s.take DIRSIZ) ≠ none ∧ c.Full) (dirlookup k (buffer s stale))
      (fun r c' => (b (s.take DIRSIZ) = none ∧ r = none ∧ c' = c) ∨ ∃ j ip, lookup n (buffer s stale) = some j ∧
        r = some (ip, 16 * j) ∧ Igot (c.itable k).dev (ent n j).inum ip c c') c :=
    h.dir.dirlookup (fun hThere hFull => ⟨rfl, fun hBad => hThere (hNone.mpr hBad), hFull⟩)
      (fun hFind => .inl ⟨hNone.mp hFind, rfl, rfl⟩) fun j ip c' hFound hGot => .inr ⟨j, ip, hFound, rfl, hGot⟩
  cases hRun : dirlookup k (buffer s stale) c with
  | ok r =>
    obtain ⟨r, c'⟩ := r
    rcases hWp.ok hRun with ⟨hb, rfl, rfl⟩ | ⟨j, ip, hFound, rfl, hGot⟩
    · exact .absent hb hRun
    · exact .found (h.lookup_some hName.noNul hFound) hRun (lookup_slot hFound) hGot
  | error e =>
    obtain ⟨rfl, hb, hFull⟩ := hWp.error hRun
    exact .full hb hFull hRun

theorem Holds.links (h : Holds k i n b c) (hName : IsName s) (stale : List UInt8) (hLt : inum < 2 ^ 16)
    (hSize : (c.itable k).din.size.toNat < MAXFILE * BSIZE) :
    Links k i n (buffer s stale) inum (b (s.take DIRSIZ)) c := by
  have hNone := h.lookup_none hName.noNul stale
  rw [← h.dir.size] at hSize
  have hWp : wp (fun e => e = .igetNoInodes ∧ b (s.take DIRSIZ) ≠ none ∧ c.Full ∨
      e = .ballocOutOfBlocks ∧ b (s.take DIRSIZ) = none ∧ c.freeBlocks.card < 2) (dirlink k (buffer s stale) inum)
      (fun r c' => (b (s.take DIRSIZ) ≠ none ∧ r = false ∧ Unread c c') ∨ b (s.take DIRSIZ) = none ∧ r = true ∧
        ∃ u, DirAt k i (n.setEnt (vacant n) (entBytes (buffer s stale) inum) u) c') c :=
    h.dir.dirlink (fun hThere hFull => .inl ⟨rfl, fun hBad => hThere (hNone.mpr hBad), hFull⟩) hSize
      (fun hFind hFew => .inr ⟨rfl, hNone.mp hFind, hFew⟩)
      (fun hThere c' hUnread => .inl ⟨fun hBad => hThere (hNone.mpr hBad), rfl, hUnread⟩)
      fun u c' hFind hWrote => .inr ⟨hNone.mp hFind, rfl, u, hWrote.dir⟩
  cases hRun : dirlink k (buffer s stale) inum c with
  | ok r =>
    obtain ⟨r, c'⟩ := r
    rcases hWp.ok hRun with ⟨hb, rfl, hUnread⟩ | ⟨hb, rfl, u, hDir⟩
    · exact .there hb hRun hUnread
    · refine .new hb hRun hDir (firstFree_vacant n) ?_ (slots_setEnt ..) fun j hj => ent_setEnt_of_ne hj
      rw [ent_entBytes, Nat.mod_eq_of_lt hLt]
  | error e =>
    rcases hWp.error hRun with ⟨rfl, hb, hFull⟩ | ⟨rfl, hb, hFew⟩
    · exact .full hb hFull hRun
    · exact .noBlocks hb hFew hRun

theorem Holds.clears (h : Holds k i n b c) (hName : IsName s) (stale : List UInt8) :
    Clears k i n (buffer s stale) (b (s.take DIRSIZ)) c := by
  have hNone := h.lookup_none hName.noNul stale
  have hWp : wp (fun e => e = .igetNoInodes ∧ b (s.take DIRSIZ) ≠ none ∧ c.Full) (dirclear k (buffer s stale))
      (fun r c' => (b (s.take DIRSIZ) = none ∧ r = false ∧ c' = c) ∨ ∃ j u, lookup n (buffer s stale) = some j ∧ r = true ∧
        DirAt k i (n.setEnt j (List.replicate 16 0) u) c') c :=
    h.dir.dirclear (fun hThere hFull => ⟨rfl, fun hBad => hThere (hNone.mpr hBad), hFull⟩)
      (fun hFind => .inl ⟨hNone.mp hFind, rfl, rfl⟩) fun j u c' hFound hDir => .inr ⟨j, u, hFound, rfl, hDir⟩
  cases hRun : dirclear k (buffer s stale) c with
  | ok r =>
    obtain ⟨r, c'⟩ := r
    rcases hWp.ok hRun with ⟨hb, rfl, rfl⟩ | ⟨j, u, hFound, rfl, hDir⟩
    · exact .absent hb hRun
    · have hj := (find_eq_some.mp hFound).2.2.1
      refine .cleared (h.lookup_some hName.noNul hFound) hRun hDir (lookup_slot hFound) ?_ ?_ fun j' hj' => ent_setEnt_of_ne hj'
      · rw [ent_setEnt (List.length_replicate ..)]
        rfl
      · rw [slots_setEnt]
        omega
  | error e =>
    obtain ⟨rfl, hb, hFull⟩ := hWp.error hRun
    exact .full hb hFull hRun

/-- After any sequence of calls on a directory without duplicate names, the next call does what it would do to the map from
the first `DIRSIZ` bytes of names to the numbers last linked under them and not cleared since. `skipelem` leaves the names in
the buffers these calls are about. Calls fail only if there is no entry left in the inode table, or no block on the disk. -/
theorem directory_map {tr : List DirOp} (h : DirAt k i n c) (hOnce : Slots.Once (slotOf n))
    (hRun : (dirLts k c).Run tr c') :
    ∃ n', DirAt k i n' c' ∧ Slots.Once (slotOf n') ∧ ∀ s stale, IsName s →
      skipelem s stale = some ([], buffer s stale) ∧
      LooksUp k n' (buffer s stale) (tr.foldl DirOp.apply (content n) (s.take DIRSIZ)) c' ∧
      (∀ inum, 0 < inum → inum < 2 ^ 16 → (c'.itable k).din.size.toNat < MAXFILE * BSIZE →
        Links k i n' (buffer s stale) inum (tr.foldl DirOp.apply (content n) (s.take DIRSIZ)) c') ∧
      Clears k i n' (buffer s stale) (tr.foldl DirOp.apply (content n) (s.take DIRSIZ)) c' := by
  obtain ⟨n', hHolds⟩ := run_holds h hOnce hRun
  refine ⟨n', hHolds.dir, hHolds.once, fun s stale hName => ⟨skipelem_name hName stale, ?_⟩⟩
  exact ⟨hHolds.looksUp hName stale, fun inum _ hLt hSize => hHolds.links hName stale hLt hSize, hHolds.clears hName stale⟩

/-- An empty directory, locked. -/
def oneDir : Core := (oneInode T_DIR).setIp 0 { (oneInode T_DIR).itable 0 with locked := true }

theorem dirAt_oneDir : DirAt 0 1 { Node.fresh T_DIR with nlink := 1 } oneDir := by
  obtain ⟨D, hRep⟩ := rep_oneInode (show T_DIR ≠ 0 by decide)
  have hAt : At oneFile.sb ∅ D (oneInode.abs T_DIR).node {⟨0, 1⟩} ∅ (oneInode T_DIR) := ⟨{1}, hRep, nofun⟩
  have hLock : ilock 0 (oneInode T_DIR) = .ok ((), oneDir) := rfl
  obtain ⟨-, hAt'⟩ := (ilock_at (E := Never) (hAt.mono Set.sdiff_subset) (Multiset.mem_singleton_self _)
    (fun hIn => absurd hIn (Finset.notMem_empty _)) fun hBad => absurd hBad (by decide)).ok hLock
  have hSolo : oneDir.withTable 0 (soloTable 0) = oneDir := by
    have hTable : upd (soloTable 0) 0 { oneDir.itable 0 with ref := (soloTable 0 0).ref } = oneDir.itable := by
      funext j
      by_cases hj : j = 0
      · subst hj
        rfl
      · rw [upd_of_ne hj, soloTable, upd_of_ne hj, oneDir, Core.setIp_itable, upd_of_ne hj]
        exact (if_neg hj).symm
    rw [Core.withTable, hTable]
  refine ⟨by decide, ⟨_, D, _, hSolo ▸ hAt', rfl⟩, rfl, rfl, rfl⟩

/-- A name of one letter, linked and cleared, then another one. -/
theorem directory_map_one : ∃ tr c' n', (dirLts 0 oneDir).Run tr c' ∧ tr.length = 3 ∧ DirAt 0 1 n' c' ∧
    LooksUp 0 n' (buffer [98] []) (some 6) c' := by
  have hRun : ((dirLts 0 oneDir).exec oneDir
      [.link [97] (List.replicate 14 7) 5, .clear [97] [], .link [98] [] 6]).isSome = true := by decide +kernel
  obtain ⟨c', hExec⟩ := Option.isSome_iff_exists.mp hRun
  have hOnce : Slots.Once (slotOf { Node.fresh T_DIR with nlink := 1 }) := by
    intro i j κ v w hi
    exact absurd (slotOf_eq_some.mp hi).1.1 (Nat.not_lt_zero i)
  have hReach := Lts.run_of_exec (.start rfl) hExec
  obtain ⟨n', hDir, -, hNext⟩ := directory_map dirAt_oneDir hOnce hReach
  exact ⟨_, c', n', hReach, rfl, hDir, (hNext [98] [] ⟨by decide, by decide, by decide⟩).2.1⟩

end Xv6.Fs
