import Xv6.Bio.Inv
import Mathlib.Algebra.Order.BigOperators.Group.Finset

/-!
# xv6 — buffers keep their blocks, counts and locks

Every step keeps the first three parts of the invariant of `Bio/Inv.lean`: a block has at most
one buffer (`cacheOk_step`), reference counts are the number of references and pins
(`refOk_step`), and the holder of a sleep-lock is the process that has the buffer (`lockOk_step`).
`excl_of_groupInv` carries over from the log that at most one process commits, and only while no
operation is open.
-/

namespace Xv6

/-! ## One process commits, and no operation is open then -/

/-- Between the `end_op` that found itself last and the end of its `commit`. -/
def BioPc.inCommit : BioPc → Bool
  | .commitCalled => true
  | .commit _ => true
  | _ => false

structure Excl (s : BioSys) : Prop where
  one    : ∀ p q, (s.th p).pc.inCommit = true → (s.th q).pc.inCommit = true → p = q
  noOp   : ∀ p q, (s.th p).pc.inCommit = true → (s.th q).pc ≠ .inOp

theorem excl_of_groupInv {size : Nat} {tr : List LogAct} {s : BioSys}
    (hG : GroupInv size tr s.toLog) : Excl s := by
  have hIn : ∀ p, (s.th p).pc.inCommit = true → s.toLog.InCommit p := by
    intro p hp
    unfold LogSys.InCommit
    show (s.th p).pc.toOp = _ ∨ (s.th p).pc.toOp = _ ∨ (s.th p).pc.toOp = _
    cases hpc : (s.th p).pc with
    | commitCalled => exact Or.inl rfl
    | commit c => exact Or.inr (BioPc.toOp_commit c)
    | _ =>
      rw [hpc] at hp
      cases hp
  refine ⟨fun p q hp hq => hG.unique p q (hIn p hp) (hIn q hq), fun p q hp hq => ?_⟩
  -- the flag is set, so nothing is outstanding
  have hZero := hG.flag (hG.commit p (hIn p hp))
  have hOpen : q ∈ openProcs (ledger tr) := (hG.openIff q).mpr (BioPc.toOp_eq_inOp.mpr hq)
  rw [hG.count, List.length_eq_zero_iff] at hZero
  rw [hZero] at hOpen
  cases hOpen

/-! ## Reference counts -/

section Refs

variable {n p i : Nat} {ps ps' : List Nat} {s s' : BioSys} {a : BioAct}

theorem ref_ne_zero (hIdle : ∀ q, n ≤ q → s.th q = .idle) (hRefs : RefOk n ps s) {q : Nat}
    (h : (s.th q).refs i ≠ 0) : (s.cache.buf i).refcnt ≠ 0 := by
  have hq : q < n := by
    by_contra hq
    rw [hIdle q (by omega)] at h
    exact h rfl
  have hLe : (s.th q).refs i ≤ ∑ r ∈ Finset.range n, (s.th r).refs i :=
    Finset.single_le_sum (f := fun r => (s.th r).refs i) (fun _ _ => Nat.zero_le _)
      (Finset.mem_range.mpr hq)
  have := hRefs i
  omega

theorem ref_of_held (hIdle : ∀ q, n ≤ q → s.th q = .idle) (hRefs : RefOk n ps s) {q : Nat}
    (h : i ∈ (s.th q).held) : (s.cache.buf i).refcnt ≠ 0 := by
  refine ref_ne_zero hIdle hRefs (q := q) ?_
  have := List.count_pos_iff.mpr h
  unfold Thread.refs
  omega

theorem ref_of_busy (hIdle : ∀ q, n ≤ q → s.th q = .idle) (hRefs : RefOk n ps s) {q : Nat}
    (h : (s.th q).busy.refs i ≠ 0) : (s.cache.buf i).refcnt ≠ 0 := by
  refine ref_ne_zero hIdle hRefs (q := q) ?_
  unfold Thread.refs
  omega

theorem ref_of_pinned (hRefs : RefOk n ps s) {b : Nat} (hi : s.Caches i b) (hb : b ∈ ps) :
    (s.cache.buf i).refcnt ≠ 0 := by
  have hPin : s.pinCount ps i = ps.count b := by
    unfold BioSys.pinCount
    rw [if_pos hi.1, hi.2]
  have := List.count_pos_iff.mpr hb
  have := hRefs i
  omega

/-- Only the references of the process that moves change. -/
theorem sum_refs (h : s.Acted s' p a) (hp : p < n) (i : Nat) :
    ∑ q ∈ Finset.range n, (s'.th q).refs i + (s.th p).refs i =
      ∑ q ∈ Finset.range n, (s.th q).refs i + (s'.th p).refs i := by
  have hMem : p ∈ Finset.range n := Finset.mem_range.mpr hp
  have hRest : ∑ q ∈ (Finset.range n).erase p, (s'.th q).refs i =
      ∑ q ∈ (Finset.range n).erase p, (s.th q).refs i :=
    Finset.sum_congr rfl fun q hq => by rw [BioSys.acted_th h (Finset.ne_of_mem_erase hq)]
  rw [← Finset.add_sum_erase _ _ hMem, ← Finset.add_sum_erase _ (fun q => (s.th q).refs i) hMem,
    hRest]
  omega

/-- The counts stay right when each step changes them by as much as the references and pins. -/
theorem refOk_of_balance (h : s.Acted s' p a) (hp : p < n) (hRefs : RefOk n ps s)
    (hBal : ∀ i, (s'.cache.buf i).refcnt + (s.th p).refs i + s.pinCount ps i =
      (s.cache.buf i).refcnt + (s'.th p).refs i + s'.pinCount ps' i) : RefOk n ps' s' := by
  intro i
  have := hRefs i
  have := sum_refs h hp i
  have := hBal i
  omega

end Refs

/-! ## Identity of buffers -/

section Step

variable {n p : Nat} {d : Disk} {tr : List BioAct} {s s' : BioSys} {a : BioAct}

theorem caches_of_sameId {i b : Nat} (h : BioSys.SameId s s' i) :
    s'.Caches i b ↔ s.Caches i b := by
  unfold BioSys.Caches
  rw [h.1, h.2.1]

theorem mem_lru_acted (hC : CacheOk s) (hBusy : s.BusyOk (s.th p)) (h : s.Acted s' p a) (i : Nat) :
    i ∈ s'.cache.lru ↔ i ∈ s.cache.lru := by
  obtain hSame | ⟨j, hRel, hEq⟩ := (BioSys.acted_parts h).lru
  · rw [hSame]
  · -- the released buffer is assigned to a block, so it is in the list
    rw [BioSys.BusyOk, hRel] at hBusy
    rw [hEq]
    exact Bcache.mem_drop_lru ((hC.lru j).mpr (hC.inArr j _ ⟨hBusy.1, rfl⟩))

theorem cacheOk_step (hC : CacheOk s) (hBusy : s.BusyOk (s.th p)) (h : s.Acted s' p a) :
    CacheOk s' := by
  have hIn : ∀ i b, s'.Caches i b → i < NBUF := by
    intro i b hi
    obtain hSame | ⟨q, b', -, hRec⟩ := BioSys.acted_ids h i
    · exact hC.inArr i b ((caches_of_sameId hSame).mp hi)
    · exact (hC.lru i).mp hRec.mem
  refine ⟨fun i => (mem_lru_acted hC hBusy h i).trans (hC.lru i), fun i j b hi hj => ?_, hIn⟩
  -- a block that gets a new buffer had none
  have hNew : ∀ {i j b'}, BioSys.SameId s s' j → BioSys.Recycled s s' p i b' →
      s'.Caches i b → s'.Caches j b → False := by
    intro i j b' hSame hRec hi hj
    have hb : b' = b := hRec.caches.2.symm.trans hi.2
    subst hb
    exact hRec.miss j ((hC.lru j).mpr (hIn j _ hj)) ((caches_of_sameId hSame).mp hj)
  obtain hSi | ⟨-, b₁, -, hRi⟩ := BioSys.acted_ids h i
  · obtain hSj | ⟨-, b₂, -, hRj⟩ := BioSys.acted_ids h j
    · exact hC.uniq i j b ((caches_of_sameId hSi).mp hi) ((caches_of_sameId hSj).mp hj)
    · exact (hNew hSi hRj hj hi).elim
  · obtain hSj | ⟨-, b₂, -, hRj⟩ := BioSys.acted_ids h j
    · exact (hNew hSj hRi hi hj).elim
    · have := hRi.busy.symm.trans hRj.busy
      injection this

/-! ## Reference counts, step by step -/

theorem mayRead_iff {t : Thread} {b : Nat} : s.mayRead t b = true ↔ t.busy = .free ∧
    (t.pc.isUser = true ∧ s.log.Home b ∨ t.pc.readArg s.log = some b) := by
  simp [BioSys.mayRead]

theorem mayRelease_iff {t : Thread} {i : Nat} : BioSys.mayRelease t i = true ↔ t.busy = .free ∧
    (t.pc.isUser = true ∧ i ∈ t.held ∧ i ∉ t.dirty ∨ t.pc.relArg = some i) := by
  simp [BioSys.mayRelease]

/-- The buffer that a `brelse` unlocks is one that `bread` returned. -/
theorem held_of_unlock (hL : LockOk s) {i : Nat} (hFree : (s.th p).busy = .free)
    (hLock : (s.cache.buf i).lock = some p) : i ∈ (s.th p).held := by
  have := (hL.lock i p).mp hLock
  rwa [Thread.owned, hFree] at this

/-- The block at `install_trans`'s index is still pinned when it comes to its `bunpin`. -/
theorem unpin_pinned (hI : BioInv n d tr s) {tail src dst : Nat}
    (hpc : (s.th p).pc = .commit (.insUnpin tail src dst)) :
    s.Caches dst (s.log.lh.getD tail 0) ∧ dst ∈ (s.th p).held ∧ tail < s.log.lh.length ∧
      pins tr = s.log.lh.getD tail 0 :: s.log.lh.drop (tail + 1) := by
  have hOk := (hI.commit.thread p).pc
  rw [BioSys.PcOk, hpc] at hOk
  obtain ⟨hTail, -, hHeld, hNo⟩ := hOk
  have hPins := (hI.commit.thread p).pins _ hpc
  rw [hpc, BioPc.unpinned, List.drop_eq_getElem_cons hTail] at hPins
  refine ⟨⟨(hI.lock.held p dst hHeld).1, hNo⟩, hHeld, hTail, ?_⟩
  rw [hPins]
  simp [hTail]

theorem refOk_step (hI : BioInv n d tr s) (hp : p < n) (h : s.Acted s' p a) :
    RefOk n (pins (tr ++ [a])) s' := by
  rw [pins_snoc]
  refine refOk_of_balance h hp hI.refs fun j => ?_
  cases a with
  | bget _ b =>
    obtain ⟨hMay, i, c, hGet, rfl⟩ := h
    have hFree := (mayRead_iff.mp hMay).1
    obtain ⟨-, ⟨-, -, rfl⟩ | ⟨hMiss, hZero, rfl⟩⟩ := Bcache.bget_cases hGet
    · by_cases hj : j = i
      · subst hj
        simp [BioSys.pinCount, Bcache.set_buf, Thread.refs, Busy.refs, hFree]
        omega
      · simp [BioSys.pinCount, Bcache.set_buf, Thread.refs, Busy.refs, hFree, hj, Ne.symm hj]
    · by_cases hj : j = i
      · -- no process refers to the buffer taken over, and block `b` is not pinned
        subst hj
        have hRefs : (s.th p).refs j = 0 := by
          by_contra hne
          exact ref_ne_zero hI.idle hI.refs hne hZero
        have hPin : s.pinCount (pins tr) j = 0 := by
          have := hI.refs j
          omega
        have hCount : (pins tr).count b = 0 := by
          rw [List.count_eq_zero]
          intro hb
          obtain ⟨k, hk, -⟩ := hI.data.pinned b hb
          exact hMiss k ((hI.cache.lru k).mpr (hI.cache.inArr k b hk)) hk
        rw [hRefs, hPin]
        rw [Thread.refs, hFree] at hRefs
        simp only [Busy.refs] at hRefs
        simp [BioSys.pinCount, Bcache.set_buf, Thread.refs, Busy.refs, hZero, hCount]
        omega
      · simp [BioSys.pinCount, Bcache.set_buf, Thread.refs, Busy.refs, hFree, hj, Ne.symm hj]
  | lock _ =>
    obtain ⟨i, b, hb, -, rfl⟩ := h
    by_cases hj : j = i <;>
      simp [BioSys.pinCount, BioSys.setBuf_buf, Thread.refs, Busy.refs, hb, hj]
  | load _ i b =>
    obtain ⟨hb, rfl⟩ := h
    by_cases hj : j = i
    · subst hj
      simp [BioSys.pinCount, BioSys.setBuf_buf, Thread.refs, Busy.refs, hb]
    · simp [BioSys.pinCount, BioSys.setBuf_buf, Thread.refs, Busy.refs, hb, hj, Ne.symm hj]
  | logWrite _ i b pin =>
    obtain ⟨-, -, hHeld, hNo, l, -, rfl⟩ := h
    have hDev := (hI.lock.held p i hHeld).1
    cases pin with
    | false => simp [BioSys.pinCount, Thread.refs]
    | true =>
      by_cases hj : j = i
      · subst hj
        simp [BioSys.pinCount, Bcache.bpin, Bcache.set_buf, Thread.refs, hDev, hNo]
        omega
      · -- no other buffer is assigned to the pinned block
        have hOther : (s.cache.buf j).dev = ROOTDEV → (s.cache.buf j).blockno ≠ b :=
          fun hd hb => hj (hI.cache.uniq j i b ⟨hd, hb⟩ ⟨hDev, hNo⟩)
        by_cases hd : (s.cache.buf j).dev = ROOTDEV
        · simp [BioSys.pinCount, Bcache.bpin, Bcache.set_buf, Thread.refs, hj, hd,
            Ne.symm (hOther hd)]
        · simp [BioSys.pinCount, Bcache.bpin, Bcache.set_buf, Thread.refs, hj, hd]
  | unlock _ i =>
    obtain ⟨hMay, hLock, rfl⟩ := h
    have hFree := (mayRelease_iff.mp hMay).1
    have hCount := List.count_pos_iff.mpr (held_of_unlock hI.lock hFree hLock)
    by_cases hj : j = i
    · subst hj
      simp [BioSys.pinCount, BioSys.setBuf_buf, Thread.refs, Busy.refs, hFree]
      omega
    · simp [BioSys.pinCount, BioSys.setBuf_buf, Thread.refs, Busy.refs, hFree, hj, Ne.symm hj,
        List.count_erase_of_ne]
  | drop _ =>
    obtain ⟨i, hb, rfl⟩ := h
    have hRef : (s.cache.buf i).refcnt ≠ 0 :=
      ref_of_busy hI.idle hI.refs (by simp [hb, Busy.refs] : (s.th p).busy.refs i ≠ 0)
    by_cases hj : j = i
    · subst hj
      simp [BioSys.pinCount, Bcache.drop_buf, Thread.refs, Busy.refs, hb]
      omega
    · simp [BioSys.pinCount, Bcache.drop_buf, Thread.refs, Busy.refs, hb, hj, Ne.symm hj]
  | unpin _ b =>
    obtain ⟨tail, src, dst, hpc, rfl, rfl⟩ := h
    obtain ⟨hCaches, hHeld, -, hPins⟩ := unpin_pinned hI hpc
    have hRef := ref_of_held hI.idle hI.refs hHeld
    have hMem : (s.cache.buf dst).blockno ∈ pins tr := by
      rw [hPins, hCaches.2]
      exact List.mem_cons_self
    have hCount := List.count_pos_iff.mpr hMem
    by_cases hj : j = dst
    · subst hj
      simp [BioSys.pinCount, Bcache.bunpin, Bcache.set_buf, Thread.refs, hCaches.1]
      omega
    · have hOther : (s.cache.buf j).dev = ROOTDEV →
          (s.cache.buf j).blockno ≠ (s.cache.buf dst).blockno :=
        fun hd hb => hj (hI.cache.uniq j dst _ ⟨hd, hb⟩ ⟨hCaches.1, rfl⟩)
      by_cases hd : (s.cache.buf j).dev = ROOTDEV
      · simp [BioSys.pinCount, Bcache.bunpin, Bcache.set_buf, Thread.refs, hj, hd,
          List.count_erase_of_ne (hOther hd)]
      · simp [BioSys.pinCount, Bcache.bunpin, Bcache.set_buf, Thread.refs, hj, hd]
  | _ =>
    -- counts, references and pins stay as they are
    obtain ⟨hHeld, hBusy⟩ := (BioSys.acted_parts h).refs.resolve_left (by simp [BioAct.isLocal])
    have hRefs : (s'.th p).refs j = (s.th p).refs j := by rw [Thread.refs, hHeld, hBusy, Thread.refs]
    obtain hSame | ⟨b', hEq, hBuf⟩ := (BioSys.acted_parts h).buf j
    · rw [hRefs, BioSys.pinCount, BioSys.pinCount, hSame]
    · cases hBuf <;> rw [hRefs, BioSys.pinCount, BioSys.pinCount, hEq]

/-! ## Sleep-locks -/

/-- A buffer that a process has after a step was its before, or is the one that `bread` returns. -/
theorem held_acted (h : s.Acted s' p a) {q i : Nat} (hi : i ∈ (s'.th q).held) :
    i ∈ (s.th q).held ∨ q = p ∧ ∃ r b, a = .load r i b ∧ (s.th p).busy = .loading i b := by
  by_cases hq : q = p
  · subst hq
    exact ((BioSys.acted_parts h).held i hi).imp id fun hLoad => ⟨rfl, hLoad⟩
  · rw [BioSys.acted_th h hq] at hi
    exact Or.inl hi

/-- Who holds which sleep-lock. -/
def LockIff (s : BioSys) : Prop :=
  (∀ i q, (s.cache.buf i).lock = some q ↔ i ∈ (s.th q).owned) ∧ ∀ q, (s.th q).owned.Nodup

theorem lockIff_same (hL : LockOk s) (h : s.Acted s' p a)
    (hLock : ∀ i, (s'.cache.buf i).lock = (s.cache.buf i).lock)
    (hOwned : (s'.th p).owned = (s.th p).owned) : LockIff s' := by
  have hAll : ∀ q, (s'.th q).owned = (s.th q).owned := by
    intro q
    by_cases hq : q = p
    · rw [hq, hOwned]
    · rw [BioSys.acted_th h hq]
  refine ⟨fun i q => ?_, fun q => ?_⟩
  · rw [hLock, hAll]
    exact hL.lock i q
  · rw [hAll]
    exact hL.nodup q

theorem lockIff_step (hL : LockOk s) (h : s.Acted s' p a) : LockIff s' := by
  have hAct := h
  cases a with
  | bget _ b =>
    obtain ⟨hMay, i, c, hGet, rfl⟩ := h
    have hFree := (mayRead_iff.mp hMay).1
    refine lockIff_same hL hAct (fun j => ?_) (by simp [Thread.owned, hFree])
    obtain ⟨-, ⟨-, -, rfl⟩ | ⟨-, -, rfl⟩⟩ := Bcache.bget_cases hGet <;>
      by_cases hj : j = i <;> simp [Bcache.set_buf, hj]
  | lock _ =>
    obtain ⟨i, b, hb, hNone, rfl⟩ := h
    have hOwned : (s.th p).owned = (s.th p).held := by rw [Thread.owned, hb]
    -- nobody had the lock of buffer `i`
    have hNot : ∀ q, i ∉ (s.th q).owned := by
      intro q hq
      rw [← hL.lock i q, hNone] at hq
      cases hq
    refine ⟨fun j q => ?_, fun q => ?_⟩
    · by_cases hq : q = p <;> by_cases hj : j = i
      · simp [BioSys.setBuf_buf, Thread.owned, hq, hj]
      · subst hq
        have hIff := hL.lock j q
        rw [hOwned] at hIff
        simp [BioSys.setBuf_buf, Thread.owned, hj, hIff]
      · subst hj
        simp [BioSys.setBuf_buf, BioSys.setTh_th, hq, Ne.symm hq, hNot]
      · simp [BioSys.setBuf_buf, BioSys.setTh_th, hq, hj, hL.lock]
    · by_cases hq : q = p
      · subst hq
        have := hL.nodup q
        rw [hOwned] at this
        simpa [Thread.owned, this] using hOwned ▸ hNot q
      · rw [BioSys.acted_th hAct hq]
        exact hL.nodup q
  | load _ i b =>
    obtain ⟨hb, rfl⟩ := h
    refine lockIff_same hL hAct (fun j => ?_) (by simp [Thread.owned, hb])
    by_cases hj : j = i <;> simp [BioSys.setBuf_buf, hj]
  | unlock _ i =>
    obtain ⟨hMay, hLock, rfl⟩ := h
    have hFree := (mayRelease_iff.mp hMay).1
    have hOwned : (s.th p).owned = (s.th p).held := by rw [Thread.owned, hFree]
    have hNodup := hOwned ▸ hL.nodup p
    refine ⟨fun j q => ?_, fun q => ?_⟩
    · by_cases hq : q = p <;> by_cases hj : j = i
      · subst hq hj
        simp [BioSys.setBuf_buf, Thread.owned, hNodup.mem_erase_iff]
      · subst hq
        have hIff := hL.lock j q
        rw [hOwned] at hIff
        simp [BioSys.setBuf_buf, Thread.owned, hj, hNodup.mem_erase_iff, hIff]
      · -- buffer `i` was locked by `p`, so by no other process
        subst hj
        have hNot : j ∉ (s.th q).owned := by
          rw [← hL.lock j q, hLock]
          simpa using Ne.symm hq
        simp [BioSys.setBuf_buf, BioSys.setTh_th, hq, hNot]
      · simp [BioSys.setBuf_buf, BioSys.setTh_th, hq, hj, hL.lock]
    · by_cases hq : q = p
      · subst hq
        simpa [Thread.owned] using hNodup.erase i
      · rw [BioSys.acted_th hAct hq]
        exact hL.nodup q
  | drop _ =>
    obtain ⟨i, hb, rfl⟩ := h
    refine lockIff_same hL hAct (fun j => ?_) (by simp [Thread.owned, hb])
    by_cases hj : j = i <;> simp [Bcache.drop_buf, hj]
  | _ =>
    obtain ⟨hHeld, hBusy⟩ := (BioSys.acted_parts h).refs.resolve_left (by simp [BioAct.isLocal])
    refine lockIff_same hL h (fun j => ?_) (by rw [Thread.owned, hHeld, hBusy, Thread.owned])
    obtain hSame | ⟨b', hEq, hBuf⟩ := (BioSys.acted_parts h).buf j
    · rw [hSame]
    · cases hBuf <;> rw [hEq]

/-- Only a process inside an operation has changed buffers. -/
theorem dirty_step (hL : LockOk s) (h : s.Acted s' p a) (q : Nat) :
    ∀ i ∈ (s'.th q).dirty, i ∈ (s'.th q).held ∧ (s'.th q).pc = .inOp := by
  by_cases hq : q = p
  · subst hq
    -- away from an operation there are none, so only these steps matter
    have hNone : (s.th q).pc ≠ .inOp → (s.th q).dirty = [] := by
      intro hpc
      rw [List.eq_nil_iff_forall_not_mem]
      exact fun i hi => hpc (hL.dirty q i hi).2
    cases a with
    | bget _ b =>
      obtain ⟨-, j, c, -, rfl⟩ := h
      simpa using hL.dirty q
    | lock _ =>
      obtain ⟨j, b, -, -, rfl⟩ := h
      simpa using hL.dirty q
    | load _ j b =>
      obtain ⟨-, rfl⟩ := h
      intro i hi
      obtain ⟨hHeld, hpc⟩ := hL.dirty q i (by simpa using hi)
      simp [hHeld, hpc, BioPc.afterRead]
    | modify _ j b v =>
      obtain ⟨hpc, -, hHeld, -, rfl⟩ := h
      intro i hi
      obtain rfl | hi := List.mem_cons.mp (by simpa using hi : i ∈ j :: (s.th q).dirty)
      · simp [hpc, hHeld]
      · simp [hpc, (hL.dirty q i hi).1]
    | logWrite _ j b pin =>
      obtain ⟨hpc, -, hHeld, -, l, -, rfl⟩ := h
      intro i hi
      have hDirty : i ∈ (s.th q).dirty := by
        have := List.mem_filter.mp (by simpa using hi : i ∈ (s.th q).dirty.filter (· != j))
        exact this.1
      simp [hpc, (hL.dirty q i hDirty).1]
    | unlock _ j =>
      obtain ⟨hMay, -, rfl⟩ := h
      intro i hi
      obtain ⟨hHeld, hpc⟩ := hL.dirty q i (by simpa using hi)
      -- a changed buffer is not released
      obtain ⟨-, ⟨-, -, hClean⟩ | hRel⟩ := mayRelease_iff.mp hMay
      · have hij : i ≠ j := fun hij => hClean (by simpa [← hij] using hi)
        simp [hpc, (List.mem_erase_of_ne hij).mpr hHeld]
      · rw [hpc] at hRel
        cases hRel
    | drop _ =>
      obtain ⟨j, -, rfl⟩ := h
      intro i hi
      obtain ⟨hHeld, hpc⟩ := hL.dirty q i (by simpa using hi)
      simp [hHeld, hpc, BioPc.afterRel]
    | copy _ =>
      obtain ⟨dst, src, hArgs, rfl⟩ := h
      have := hNone (fun hpc => by rw [hpc] at hArgs; cases hArgs)
      simp [this]
    | fill _ =>
      obtain ⟨e, hb, hpc, rfl⟩ := h
      have := hNone (by simp [hpc])
      simp [this]
    | bwrite _ =>
      obtain ⟨j, hArg, -, rfl⟩ := h
      have := hNone (fun hpc => by rw [hpc] at hArg; cases hArg)
      simp [this]
    | unpin _ b =>
      obtain ⟨tail, src, dst, hpc, -, rfl⟩ := h
      have := hNone (by simp [hpc])
      simp [this]
    | sleep _ =>
      obtain ⟨-, -, rfl⟩ := h
      exact hL.dirty q
    | call | commitStart =>
      obtain ⟨hpc, -, rfl⟩ := h
      have := hNone (by simp [hpc])
      simp [this]
    | enter _ =>
      obtain ⟨hpc, l, -, rfl⟩ := h
      have := hNone (by simp [hpc])
      simp [this]
    | leave _ =>
      obtain ⟨-, -, hClean, l, c, -, rfl⟩ := h
      simp [hClean]
    | clear | commitDone =>
      obtain ⟨hpc, rfl⟩ := h
      have := hNone (by simp [hpc])
      simp [this]
  · rw [BioSys.acted_th h hq]
    exact hL.dirty q

theorem lockOk_step (hI : BioInv n d tr s) (h : s.Acted s' p a) : LockOk s' := by
  obtain ⟨hLock, hNodup⟩ := lockIff_step hI.lock h
  refine ⟨hLock, hNodup, fun q i hi => ?_, dirty_step hI.lock h⟩
  obtain hi | ⟨-, r, b, rfl, hBusy⟩ := held_acted h hi
  · obtain ⟨hDev, -, hValid⟩ := BioSys.acted_keep h (ref_of_held hI.idle hI.refs hi)
    obtain ⟨hDev₀, hValid₀⟩ := hI.lock.held q i hi
    exact ⟨hDev.trans hDev₀, hValid hValid₀⟩
  · have hOk := (hI.commit.thread p).busy
    rw [BioSys.BusyOk, hBusy] at hOk
    obtain ⟨-, rfl⟩ := h
    simp [BioSys.setBuf_buf, hOk.1.1]

end Step

end Xv6
