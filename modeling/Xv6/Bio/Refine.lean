import Xv6.Bio.Commit

/-!
# xv6 — buffer cache and log refine an array of blocks

The last part of the invariant is about contents: what a process finds in a buffer is what the
array of blocks has, because a buffer that differs from its home block is pinned or held, and so
keeps its block until `install_trans` has written it.

Main result:

* `bread_latest` — a `bread` returns what the most recent modification left, no buffer is
  recycled while it differs from its home block, and every pin is released once, by the commit
  that installed its block.
-/

namespace Xv6

section Step

variable {n p : Nat} {d : Disk} {tr : List BioAct} {s s' : BioSys} {a : BioAct}

/-- A step that makes a buffer valid reads it from disk. -/
theorem valid_acted (h : s.Acted s' p a) {i : Nat} (hValid : (s'.cache.buf i).valid = true) :
    (s.cache.buf i).valid = true ∨ (s.cache.buf i).valid = false ∧ a.isLocal = true ∧
      (s'.cache.buf i).data = s.disk (s.cache.buf i).blockno := by
  obtain hSame | ⟨b', hEq, hBuf⟩ := (BioSys.acted_parts h).buf i
  · rw [hSame] at hValid
    exact Or.inl hValid
  · rw [hEq] at hValid
    cases hBuf with
    | take => cases hValid
    | load =>
      by_cases hOld : (s.cache.buf i).valid = true
      · exact Or.inl hOld
      · exact Or.inr ⟨by simpa using hOld, rfl, by rw [hEq]; exact if_neg hOld⟩
    | _ => exact Or.inl hValid

/-- A buffer stays changed until it is logged. -/
theorem dirty_acted (h : s.Acted s' p a) {q i : Nat} (hi : i ∈ (s.th q).dirty) :
    i ∈ (s'.th q).dirty ∨ q = p ∧ ∃ r b pin, a = .logWrite r i b pin := by
  by_cases hq : q = p
  · subst hq
    exact ((BioSys.acted_parts h).dirty i hi).imp id fun hLog => ⟨rfl, hLog⟩
  · rw [BioSys.acted_th h hq]
    exact Or.inl hi

theorem copyArgs_cases {pc : BioPc} {dst src : Nat} (h : pc.copyArgs = some (dst, src)) :
    (∃ tail, pc = .commit (.logCopy tail dst src)) ∨ ∃ tail, pc = .commit (.insCopy tail src dst) := by
  obtain ⟨c, rfl⟩ := commit_of_some h ⟨rfl, rfl, rfl, rfl⟩
  cases c with
  | logCopy tail =>
    cases h
    exact Or.inl ⟨tail, rfl⟩
  | insCopy tail =>
    cases h
    exact Or.inr ⟨tail, rfl⟩
  | _ => cases h

theorem writeArg_cases {pc : BioPc} {i : Nat} (h : pc.writeArg = some i) :
    (∃ tail src, pc = .commit (.logWrite tail i src)) ∨ (∃ e, pc = .commit (.headWrite e i)) ∨
      ∃ tail src, pc = .commit (.insWrite tail src i) := by
  obtain ⟨c, rfl⟩ := commit_of_some h ⟨rfl, rfl, rfl, rfl⟩
  cases c with
  | logWrite tail _ src =>
    cases h
    exact Or.inl ⟨tail, src, rfl⟩
  | headWrite e =>
    cases h
    exact Or.inr (Or.inl ⟨e, rfl⟩)
  | insWrite tail src =>
    cases h
    exact Or.inr (Or.inr ⟨tail, src, rfl⟩)
  | _ => cases h

/-- While `p` commits, a buffer that differs from its place in the log is one of `p`'s. -/
theorem log_data (hI : BioInv n d tr s) (hX : Excl s) (hp : (s.th p).pc.inCommit = true) {i b : Nat}
    (hi : s.Caches i b) (hValid : (s.cache.buf i).valid = true) (hb : ¬ s.log.Home b) :
    (s.cache.buf i).data = s.disk b ∨ (s.th p).pc.unwritten = some i := by
  refine (hI.data.log i b hi hValid hb).imp id ?_
  rintro ⟨q, hq⟩
  obtain ⟨c, hc⟩ := commit_of_some hq ⟨rfl, rfl, rfl, rfl⟩
  rwa [← hX.one q p (by rw [hc]; rfl) hp]

theorem start_not_home (hI : BioInv n d tr s) {c : CommitPc} (hpc : (s.th p).pc = .commit c)
    (hRet : c ≠ .ret) : ¬ s.log.Home s.log.start := by
  have := (hI.commit.thread p).header c hpc hRet
  unfold Log.Home
  omega

/-- Home blocks: contents of valid buffers. -/
theorem dataHome_step (hI : BioInv n d tr s) (hX : Excl s) (h : s.Acted s' p a) {i b : Nat}
    (hi : s'.Caches i b) (hValid : (s'.cache.buf i).valid = true) (hb : s'.log.Home b) :
    (s'.cache.buf i).data = latest d (tr ++ [a]) b := by
  obtain ⟨hStart, hSize, -⟩ := BioSys.acted_log h
  rw [home_congr hStart hSize] at hb
  obtain hSame | ⟨r₀, b₀, -, hRec⟩ := BioSys.acted_ids h i
  · rw [caches_of_sameId hSame] at hi
    obtain hOld | ⟨hInvalid, hLocal, hRead⟩ := valid_acted h hValid
    · have hData := hI.data.home i b hi hOld hb
      obtain hKept | ⟨r, b', v, rfl⟩ | ⟨r, src, rfl, hArgs⟩ | ⟨r, e, rfl, hpc⟩ :=
        BioSys.acted_data h hOld
      · rw [hKept, hData]
        cases a with
        | modify _ j b' v =>
          -- the changed block is another one, or the buffer would have changed too
          obtain ⟨-, -, hHeld, hNo, rfl⟩ := h
          by_cases hbb : b = b'
          · subst hbb
            have hij : i = j := hI.cache.uniq i j b hi ⟨(hI.lock.held p j hHeld).1, hNo⟩
            subst hij
            simp only [BioSys.setTh_cache, BioSys.setBuf_buf, if_pos] at hKept
            rw [latest_modify, ← hData, ← hKept, Function.update_self]
          · rw [latest_modify, Function.update_of_ne hbb]
        | _ => rw [latest_other d tr (by simp)]
      · obtain ⟨-, -, -, hNo, rfl⟩ := h
        have hbb : b' = b := hNo.symm.trans hi.2
        rw [latest_modify, hbb]
        simp [BioSys.setBuf_buf]
      · obtain ⟨tail, hpc⟩ | ⟨tail, hpc⟩ := copyArgs_cases hArgs
        · -- `write_log` copies into the log, not into a home block
          have hOk := (hI.commit.thread p).pc
          rw [BioSys.PcOk, hpc] at hOk
          rw [← hi.2, hOk.2.1.2] at hb
          exact absurd hb (logBlock_not_home hI hOk.1)
        · -- `install_trans` copies from the log what `write_log` put there
          have hOk := (hI.commit.thread p).pc
          rw [BioSys.PcOk, hpc] at hOk
          obtain ⟨hTail, hSrc, hDst⟩ := hOk
          obtain ⟨hDev, hSrcValid⟩ := hI.lock.held p src hSrc.1
          have hLogged : s.disk (s.log.start + tail + 1) = latest d tr (s.log.lh.getD tail 0) :=
            (hI.commit.thread p).logged tail (by rw [hpc]; exact hTail) hTail
          have hSrcData : (s.cache.buf src).data = s.disk (s.log.start + tail + 1) := by
            refine (log_data hI hX (by rw [hpc]; rfl) ⟨hDev, hSrc.2⟩ hSrcValid
              (logBlock_not_home hI hTail)).resolve_right ?_
            rw [hpc]
            exact fun h => by cases h
          obtain ⟨dst', src', hArgs', rfl⟩ := h
          rw [hArgs] at hArgs'
          cases hArgs'
          have hbb : b = s.log.lh.getD tail 0 := hi.2.symm.trans hDst.2
          rw [latest_other d tr (by simp), hbb, ← hLogged, ← hSrcData]
          simp [BioSys.setBuf_buf]
      · have hOk := (hI.commit.thread p).pc
        rw [BioSys.PcOk, hpc] at hOk
        rw [← hi.2, hOk.2] at hb
        exact absurd hb (start_not_home hI hpc (by simp))
    · -- read from disk: no other buffer could have had newer contents
      have hDisk : s.disk b = latest d tr b := by
        refine (hI.data.disk b hb).resolve_right ?_
        rintro ⟨j, hj, hjValid, -⟩
        rw [hI.cache.uniq j i b hj hi, hInvalid] at hjValid
        cases hjValid
      rw [hRead, hi.2, hDisk, latest_other d tr]
      rintro r j b' v rfl
      cases hLocal
  · rw [hRec.valid] at hValid
    cases hValid

/-- A pinned block keeps its buffer. -/
theorem pinned_kept (hI : BioInv n d tr s) (h : s.Acted s' p a) {b : Nat} (hb : b ∈ pins tr) :
    ∃ i, s'.Caches i b ∧ (s'.cache.buf i).valid = true := by
  obtain ⟨i, hi, hValid⟩ := hI.data.pinned b hb
  have hSame := BioSys.acted_keep h (ref_of_pinned hI.refs hi hb)
  exact ⟨i, (caches_of_sameId hSame).mpr hi, hSame.2.2 hValid⟩

theorem pinned_step (hI : BioInv n d tr s) (h : s.Acted s' p a) :
    ∀ b ∈ pins (tr ++ [a]), ∃ i, s'.Caches i b ∧ (s'.cache.buf i).valid = true := by
  intro b hb
  rw [pins_snoc] at hb
  cases a with
  | logWrite _ i b' pin =>
    cases pin with
    | false => exact pinned_kept hI h hb
    | true =>
      obtain hb | rfl := List.mem_append.mp hb |>.imp id List.mem_singleton.mp
      · exact pinned_kept hI h hb
      · have hHeld := h.2.2.1
        obtain ⟨hDev, hValid⟩ := hI.lock.held p i hHeld
        have hSame := BioSys.acted_keep h (ref_of_held hI.idle hI.refs hHeld)
        exact ⟨i, (caches_of_sameId hSame).mpr ⟨hDev, h.2.2.2.1⟩, hSame.2.2 hValid⟩
  | unpin _ b' => exact pinned_kept hI h (List.mem_of_mem_erase hb)
  | _ => exact pinned_kept hI h hb

/-- Block `b` has a buffer whose contents may be newer than the disk's. -/
def Newer (ps : List Nat) (s : BioSys) (b : Nat) : Prop :=
  ∃ i, s.Caches i b ∧ (s.cache.buf i).valid = true ∧ (b ∈ ps ∨ ∃ p, i ∈ (s.th p).dirty)

theorem newer_kept (hI : BioInv n d tr s) (h : s.Acted s' p a) {b : Nat}
    (hPin : b ∈ pins tr → b ∈ pins (tr ++ [a]))
    (hLogged : ∀ q i b' pin, a = .logWrite q i b' pin → (s.cache.buf i).blockno = b →
      b ∈ pins (tr ++ [a])) (hNew : Newer (pins tr) s b) : Newer (pins (tr ++ [a])) s' b := by
  obtain ⟨i, hi, hValid, hWhy⟩ := hNew
  have hRef : (s.cache.buf i).refcnt ≠ 0 := by
    obtain hb | ⟨q, hq⟩ := hWhy
    · exact ref_of_pinned hI.refs hi hb
    · exact ref_of_held hI.idle hI.refs (hI.lock.dirty q i hq).1
  have hSame := BioSys.acted_keep h hRef
  refine ⟨i, (caches_of_sameId hSame).mpr hi, hSame.2.2 hValid, ?_⟩
  obtain hb | ⟨q, hq⟩ := hWhy
  · exact Or.inl (hPin hb)
  · obtain hq | ⟨-, r, b', pin, rfl⟩ := dirty_acted h hq
    · exact Or.inr ⟨q, hq⟩
    · exact Or.inl (hLogged r i b' pin rfl hi.2)

/-- The buffer that a `bwrite` of `commit` writes is one it has. -/
theorem held_of_writeArg (hI : BioInv n d tr s) {i : Nat} (hArg : (s.th p).pc.writeArg = some i) :
    i ∈ (s.th p).held := by
  have hOk := (hI.commit.thread p).pc
  obtain ⟨tail, src, hpc⟩ | ⟨e, hpc⟩ | ⟨tail, src, hpc⟩ := writeArg_cases hArg
  · rw [BioSys.PcOk, hpc] at hOk
    exact hOk.2.1.1
  · rw [BioSys.PcOk, hpc] at hOk
    exact hOk.1
  · rw [BioSys.PcOk, hpc] at hOk
    exact hOk.2.2.1

/-- The home block on disk is up to date, or a buffer is newer and cannot be recycled. -/
theorem dataDisk_step (hI : BioInv n d tr s) (hX : Excl s) (h : s.Acted s' p a) {b : Nat}
    (hb : s'.log.Home b) :
    s'.disk b = latest d (tr ++ [a]) b ∨ Newer (pins (tr ++ [a])) s' b := by
  obtain ⟨hStart, hSize, -⟩ := BioSys.acted_log h
  rw [home_congr hStart hSize] at hb
  have hOld := hI.data.disk b hb
  cases a with
  | modify r j b' v =>
    have hKept : Newer (pins tr) s b → Newer (pins (tr ++ [.modify r j b' v])) s' b :=
      newer_kept hI h (by rw [pins_snoc]; exact id) (fun _ _ _ _ hEq => by cases hEq)
    by_cases hbb : b = b'
    · -- the changed buffer is held and not yet logged
      subst hbb
      right
      have hHeld := h.2.2.1
      obtain ⟨hDev, hValid⟩ := hI.lock.held p j hHeld
      have hSame := BioSys.acted_keep h (ref_of_held hI.idle hI.refs hHeld)
      refine ⟨j, (caches_of_sameId hSame).mpr ⟨hDev, h.2.2.2.1⟩, hSame.2.2 hValid, Or.inr ⟨p, ?_⟩⟩
      obtain ⟨-, -, -, -, rfl⟩ := h
      simp
    · refine hOld.imp (fun hDisk => ?_) hKept
      obtain ⟨-, -, -, -, rfl⟩ := h
      rw [latest_modify, Function.update_of_ne hbb]
      exact hDisk
  | logWrite r j b' pin =>
    rw [latest_other d tr (by simp)]
    have hNo := h.2.2.2.1
    obtain ⟨l, hl, hEq⟩ := h.2.2.2.2
    have hDisk : s'.disk = s.disk := by rw [hEq]; rfl
    rw [hDisk]
    refine hOld.imp id (newer_kept hI h ?_ ?_)
    · rw [pins_snoc]
      cases pin with
      | true => exact fun hb => List.mem_append_left _ hb
      | false => exact id
    · -- a block that is not pinned now has been pinned since it was first logged
      intro _ _ _ _ hSame hNo'
      cases hSame
      have hbb : b' = b := hNo.symm.trans hNo'
      subst hbb
      obtain ⟨-, -, -, hPin, -⟩ := Log.logWrite_ok hl
      rw [pins_snoc]
      cases pin with
      | true => exact List.mem_append_right _ List.mem_cons_self
      | false =>
        have hMem : b' ∈ s.log.lh := by simpa using hPin
        rwa [← hI.commit.pinsOpen] at hMem
        intro q c hc
        exact hX.noOp q p (by rw [hc]; rfl) h.1
  | bwrite r =>
    rw [latest_other d tr (by simp)]
    obtain ⟨i, hArg, -, hEq⟩ := id h
    have hDisk : s'.disk = Function.update s.disk (s.cache.buf i).blockno (s.cache.buf i).data := by
      rw [hEq]; rfl
    have hKept : Newer (pins tr) s b → Newer (pins (tr ++ [.bwrite r])) s' b :=
      newer_kept hI h (by rw [pins_snoc]; exact id) (fun _ _ _ _ hEq => by cases hEq)
    by_cases hbb : b = (s.cache.buf i).blockno
    · -- a home block that is written is up to date
      left
      rw [hDisk, hbb, Function.update_self]
      exact held_data hI ⟨held_of_writeArg hI hArg, rfl⟩ (hbb ▸ hb)
    · rw [hDisk, Function.update_of_ne hbb]
      exact hOld.imp id hKept
  | unpin r b' =>
    rw [latest_other d tr (by simp)]
    obtain ⟨tail, src, dst, hpc, hNo, hEq⟩ := id h
    have hDisk : s'.disk = s.disk := by rw [hEq]; rfl
    rw [hDisk]
    obtain ⟨hCaches, -⟩ := unpin_pinned hI hpc
    by_cases hbb : b = b'
    · -- `install_trans` has written the block
      left
      rw [hbb, ← hNo, hCaches.2]
      exact (hI.commit.thread p).installed tail src dst hpc
    · refine hOld.imp id (newer_kept hI h ?_ (fun _ _ _ _ hEq => by cases hEq))
      rw [pins_snoc]
      exact fun hb => (List.mem_erase_of_ne hbb).mpr hb
  | _ =>
    rw [latest_other d tr (by simp)]
    have hDisk : s'.disk = s.disk := (BioSys.acted_disk h).resolve_right (by simp)
    rw [hDisk]
    exact hOld.imp id
      (newer_kept hI h (by rw [pins_snoc]; exact id) (fun _ _ _ _ hEq => by cases hEq))

/-- What `commit` has changed and not written stays so until its `bwrite`. -/
theorem unwritten_kept (hI : BioInv n d tr s) (h : s.Acted s' p a) (ha : ∀ q, a ≠ .bwrite q)
    {q i : Nat} (hq : (s.th q).pc.unwritten = some i) : (s'.th q).pc.unwritten = some i := by
  by_cases hqp : q = p
  · subst hqp
    have hT := hI.commit.thread q
    obtain ⟨c, hpc⟩ := commit_of_some hq ⟨rfl, rfl, rfl, rfl⟩
    -- at such a statement no `bread` or `brelse` is going on
    have hFree : (s.th q).busy = .free := by
      rw [hpc] at hq
      cases c with
      | logWrite | headWrite => exact busy_free hT.busy hpc rfl rfl rfl
      | _ => cases hq
    cases a with
    | call | sleep | enter | leave | commitStart | modify | logWrite => exact absurd h.1 (by simp [hpc])
    | clear | commitDone =>
      rw [h.1] at hq
      cases hq
    | bget _ b =>
      obtain ⟨-, j, c', -, rfl⟩ := h
      rw [BioSys.setTh_th_self]
      exact hq
    | lock _ =>
      obtain ⟨j, b, hb, -⟩ := h
      cases hFree.symm.trans hb
    | load _ j b => cases hFree.symm.trans h.1
    | unlock _ j =>
      obtain ⟨-, -, rfl⟩ := h
      rw [BioSys.setTh_th_self]
      exact hq
    | drop _ =>
      obtain ⟨j, hb, -⟩ := h
      cases hFree.symm.trans hb
    | copy _ =>
      obtain ⟨dst, src, hArgs, -⟩ := h
      obtain ⟨tail, hpc'⟩ | ⟨tail, hpc'⟩ := copyArgs_cases hArgs <;> rw [hpc'] at hq <;> cases hq
    | fill _ =>
      obtain ⟨e, hb, hpc', -⟩ := h
      rw [hpc'] at hq
      cases hq
    | bwrite r => exact absurd rfl (ha r)
    | unpin _ b =>
      obtain ⟨tail, src, dst, hpc', -⟩ := h
      rw [hpc'] at hq
      cases hq
  · rwa [BioSys.acted_th h hqp]

theorem dataLog_bwrite (hI : BioInv n d tr s) (hX : Excl s) {r : Nat}
    (h : s.Acted s' p (.bwrite r)) {i b : Nat} (hi : s.Caches i b)
    (hValid : (s.cache.buf i).valid = true) (hb : ¬ s.log.Home b) :
    (s.cache.buf i).data = s'.disk b := by
  obtain ⟨j, hArg, -, rfl⟩ := h
  have hIn : (s.th p).pc.inCommit = true := by
    obtain ⟨tail, src, hpc⟩ | ⟨e, hpc⟩ | ⟨tail, src, hpc⟩ := writeArg_cases hArg <;> rw [hpc] <;> rfl
  show _ = Function.update s.disk _ _ b
  by_cases hbj : b = (s.cache.buf j).blockno
  · -- the write brings the block up to date with its only buffer
    have hDev := (hI.lock.held p j (held_of_writeArg hI hArg)).1
    have hij : i = j := hI.cache.uniq i j b hi ⟨hDev, hbj.symm⟩
    rw [hbj, Function.update_self, hij]
  · rw [Function.update_of_ne hbj]
    refine (log_data hI hX hIn hi hValid hb).resolve_right fun hUn => hbj ?_
    obtain ⟨tail, src, hpc⟩ | ⟨e, hpc⟩ | ⟨tail, src, hpc⟩ := writeArg_cases hArg <;>
      rw [hpc] at hUn <;> cases hUn <;> exact hi.2.symm

/-- Blocks of the log: contents of valid buffers. -/
theorem dataLog_step (hI : BioInv n d tr s) (hX : Excl s) (h : s.Acted s' p a) {i b : Nat}
    (hi : s'.Caches i b) (hValid : (s'.cache.buf i).valid = true) (hb : ¬ s'.log.Home b) :
    (s'.cache.buf i).data = s'.disk b ∨ ∃ q, (s'.th q).pc.unwritten = some i := by
  obtain ⟨hStart, hSize, -⟩ := BioSys.acted_log h
  rw [home_congr hStart hSize] at hb
  obtain hSame | ⟨r₀, b₀, -, hRec⟩ := BioSys.acted_ids h i
  · rw [caches_of_sameId hSame] at hi
    obtain hOld | ⟨-, hLocal, hRead⟩ := valid_acted h hValid
    · obtain hKept | ⟨r, b', v, rfl⟩ | ⟨r, src, rfl, hArgs⟩ | ⟨r, e, rfl, hpc⟩ :=
        BioSys.acted_data h hOld
      · rw [hKept]
        by_cases ha : ∃ r, a = .bwrite r
        · obtain ⟨r, rfl⟩ := ha
          exact Or.inl (dataLog_bwrite hI hX h hi hOld hb)
        · rw [(BioSys.acted_disk h).resolve_right ha]
          refine (hI.data.log i b hi hOld hb).imp id ?_
          exact fun ⟨q, hq⟩ => ⟨q, unwritten_kept hI h (fun r hr => ha ⟨r, hr⟩) hq⟩
      · -- operations change home blocks only
        obtain ⟨hpc, -, hHeld, hNo, -⟩ := h
        have hHome := (hI.commit.thread p).home (by simp [hpc]) hHeld
        rw [hi.2] at hHome
        exact absurd hHome hb
      · obtain ⟨tail, hpc⟩ | ⟨tail, hpc⟩ := copyArgs_cases hArgs
        · obtain ⟨dst', src', -, rfl⟩ := h
          exact Or.inr ⟨p, by rw [BioSys.setTh_th_self, hpc]; rfl⟩
        · have hOk := (hI.commit.thread p).pc
          rw [BioSys.PcOk, hpc] at hOk
          have hHome := lh_home hI hOk.1
          rw [← hOk.2.2.2, hi.2] at hHome
          exact absurd hHome hb
      · obtain ⟨e', hb', hpc', rfl⟩ := h
        rw [hpc] at hpc'
        cases hpc'
        exact Or.inr ⟨p, by rw [BioSys.setTh_th_self]; rfl⟩
    · rw [hRead, hi.2, (BioSys.local_frame h hLocal).2.1]
      exact Or.inl rfl
  · rw [hRec.valid] at hValid
    cases hValid

theorem bioInv_step (hI : BioInv n d tr s) (hX : Excl s) (hp : p < n) (h : s.Acted s' p a) :
    BioInv n d (tr ++ [a]) s' := by
  refine ⟨fun q hq => ?_, cacheOk_step hI.cache (hI.commit.thread p).busy h, refOk_step hI hp h,
    lockOk_step hI h, ⟨?_, ?_, ?_, pinned_step hI h⟩, commitOk_step hI hX h⟩
  · rw [BioSys.acted_th h (by omega), hI.idle q hq]
  · exact fun i b => dataHome_step hI hX h
  · exact fun b => dataDisk_step hI hX h
  · exact fun i b => dataLog_step hI hX h

end Step

theorem bioInv_init (n start size : Nat) (d : Disk) : BioInv n d [] (BioSys.initial start size d) := by
  have hNot : ∀ i b, ¬ (BioSys.initial start size d).Caches i b := by
    intro i b h
    exact absurd (show (0 : Nat) = 1 from h.1) (by decide)
  refine ⟨fun _ _ => rfl, ⟨?_, ?_, ?_⟩, ?_, ⟨?_, ?_, ?_, ?_⟩, ⟨?_, ?_, ?_, ?_⟩, ?_, ?_, ?_, ?_⟩
  · intro i
    simp [BioSys.initial, Bcache.binit]
  · exact fun i j b hi => absurd hi (hNot i b)
  · exact fun i b hi => absurd hi (hNot i b)
  · intro i
    simp [BioSys.initial, Bcache.binit, Thread.refs, Busy.refs, BioSys.pinCount]
  · intro i p
    simp [BioSys.initial, Bcache.binit, Thread.owned]
  · exact fun p => List.nodup_nil
  · exact fun p i hi => by cases hi
  · exact fun p i hi => by cases hi
  · exact fun i b hi => absurd hi (hNot i b)
  · exact fun b _ => Or.inl rfl
  · exact fun i b hi => absurd hi (hNot i b)
  · exact fun b hb => by cases hb
  · exact fun p => ThreadOk.of_not_commit (fun c hc => by cases hc) trivial (fun i hi => by cases hi)
  · exact fun _ => rfl
  · exact fun b hb => by cases hb
  · exact Nat.zero_le _

/-- The invariant holds in every state that the system reaches. -/
theorem bioInv_run {n start size : Nat} {d : Disk} {tr : List BioAct} {s : BioSys}
    (h : (bioLts n start size d).Run tr s) : BioInv n d tr s := by
  refine h.invariant (I := BioInv n d) ?_ ?_
  · rintro s rfl
    exact bioInv_init n start size d
  · intro tr s a s' hRun hI hStep
    obtain ⟨hp, hAct⟩ := BioSys.step_acted hStep
    exact bioInv_step hI (excl_of_groupInv (BioSys.groupInv_toLog hRun)) hp hAct

/-! ## Refinement -/

/-- How often `log_write` has pinned block `b`. -/
def pinsTaken (tr : List BioAct) (b : Nat) : Nat :=
  tr.countP fun a => match a with
    | .logWrite _ _ b' true => b' == b
    | _ => false

/-- How often a commit has unpinned block `b`. -/
def pinsReleased (tr : List BioAct) (b : Nat) : Nat :=
  tr.countP fun a => match a with
    | .unpin _ b' => b' == b
    | _ => false

section Run

variable {n start size : Nat} {d : Disk} {tr : List BioAct} {s s' : BioSys}

/-- A buffer that loses its block had the contents of the disk. -/
theorem recycled_clean (hI : BioInv n d tr s) {p i b : Nat} {a : BioAct} (h : s.Acted s' p a)
    (hi : s.Caches i b) (hValid : (s.cache.buf i).valid = true) (hLost : ¬ s'.Caches i b) :
    (s.cache.buf i).data = s.disk b := by
  obtain hSame | ⟨r, b', -, hRec⟩ := BioSys.acted_ids h i
  · exact absurd ((caches_of_sameId hSame).mpr hi) hLost
  · have hZero := hRec.unused
    by_cases hb : s.log.Home b
    · rw [hI.data.home i b hi hValid hb]
      refine ((hI.data.disk b hb).resolve_right ?_).symm
      -- a buffer with newer contents is pinned or held, so it has references
      rintro ⟨j, hj, -, hWhy⟩
      obtain rfl : i = j := hI.cache.uniq i j b hi hj
      obtain hPin | ⟨q, hq⟩ := hWhy
      · exact ref_of_pinned hI.refs hi hPin hZero
      · exact ref_of_held hI.idle hI.refs (hI.lock.dirty q i hq).1 hZero
    · refine (hI.data.log i b hi hValid hb).resolve_right ?_
      rintro ⟨q, hq⟩
      have hHeld := held_of_unwritten (hI.commit.thread q).pc hq
      exact ref_of_held hI.idle hI.refs hHeld hZero

/-- The pins of a history are those taken and not yet released. -/
theorem pinsTaken_eq (h : (bioLts n start size d).Run tr s) (b : Nat) :
    pinsTaken tr b = pinsReleased tr b + (pins tr).count b := by
  induction h with
  | start _ => rfl
  | step hRun hStep ih =>
    rename_i tr s s' a
    have hI := bioInv_run hRun
    obtain ⟨-, hAct⟩ := BioSys.step_acted hStep
    simp only [pinsTaken, pinsReleased, List.countP_append, List.countP_singleton] at ih ⊢
    rw [pins_snoc, ih]
    cases a with
    | logWrite _ i b' pin =>
      cases pin with
      | false => simp
      | true =>
        rw [List.count_append, List.count_singleton]
        simp
        omega
    | unpin _ b' =>
      -- only pinned blocks are unpinned
      obtain ⟨tail, src, dst, hpc, hNo, -⟩ := hAct
      obtain ⟨hCaches, -, -, hPins⟩ := unpin_pinned hI hpc
      have hMem : b' ∈ pins tr := by
        rw [← hNo, hCaches.2, hPins]
        exact List.mem_cons_self
      by_cases hb : b' = b
      · subst hb
        have := List.count_pos_iff.mpr hMem
        rw [List.count_erase_self]
        simp
        omega
      · rw [List.count_erase_of_ne (Ne.symm hb)]
        simp [hb]
    | _ => simp

/-- Buffer cache and log behave as the array of blocks that the history has written. A `bread`
returns the latest contents, and they stay in the buffer as long as the process has it; a buffer
that is given to another block agrees with the disk; `bunpin` is called once for each pin, after
the block has been installed, and no pin is left when `commit` erases the transaction. -/
theorem bread_latest (hRun : (bioLts n start size d).Run tr s) :
    (∀ p i b s', (bioLts n start size d).step s (.load p i b) = some (.ok s') → s.log.Home b →
        i ∈ (s'.th p).held ∧ s'.Caches i b ∧ (s'.cache.buf i).data = latest d tr b) ∧
      (∀ p, ∀ i ∈ (s.th p).held, s.log.Home (s.cache.buf i).blockno →
        (s.cache.buf i).data = latest d tr (s.cache.buf i).blockno) ∧
      (∀ a s', (bioLts n start size d).step s a = some (.ok s') → ∀ i b, s.Caches i b →
        (s.cache.buf i).valid = true → ¬ s'.Caches i b → (s.cache.buf i).data = s.disk b) ∧
      (∀ p b s', (bioLts n start size d).step s (.unpin p b) = some (.ok s') →
        b ∈ pins tr ∧ b ∈ s.log.lh ∧ s.disk b = latest d tr b) ∧
      (∀ p s', (bioLts n start size d).step s (.clear p) = some (.ok s') → pins tr = []) ∧
      ((∀ p c, (s.th p).pc ≠ .commit c) → pins tr = s.log.lh) ∧
      (pins tr).Nodup ∧
      ∀ b, pinsTaken tr b = pinsReleased tr b + (pins tr).count b := by
  have hI := bioInv_run hRun
  have hX := excl_of_groupInv (BioSys.groupInv_toLog hRun)
  have hHead : s.log.lh.Nodup := (BioSys.groupInv_toLog hRun).headNodup
  refine ⟨?_, ?_, ?_, ?_, ?_, hI.commit.pinsOpen, ?_, pinsTaken_eq hRun⟩
  · intro p i b s' hStep hb
    have hAct : s.Acted s' p (.load p i b) := (BioSys.step_acted hStep).2
    have hBusy := (hI.commit.thread p).busy
    rw [BioSys.BusyOk, hAct.1] at hBusy
    have hRef : (s.cache.buf i).refcnt ≠ 0 :=
      ref_of_busy hI.idle hI.refs (by simp [hAct.1, Busy.refs] : (s.th p).busy.refs i ≠ 0)
    have hCaches := (caches_of_sameId (BioSys.acted_keep hAct hRef)).mpr hBusy.1
    have hLog := (BioSys.local_frame hAct rfl).1
    have hHeld : i ∈ (s'.th p).held := by
      rw [hAct.2, BioSys.setTh_th_self]
      exact List.mem_cons_self
    have hValid := ((lockOk_step hI hAct).held p i hHeld).2
    refine ⟨hHeld, hCaches, ?_⟩
    rw [dataHome_step hI hX hAct hCaches hValid (hLog ▸ hb), latest_other d tr (by simp)]
  · exact fun p i hi hb => held_data hI ⟨hi, rfl⟩ hb
  · intro a s' hStep i b
    exact recycled_clean hI (BioSys.step_acted hStep).2
  · intro p b s' hStep
    obtain ⟨-, tail, src, dst, hpc, hNo, -⟩ := BioSys.step_acted hStep
    obtain ⟨hCaches, -, hTail, hPins⟩ := unpin_pinned hI hpc
    have hb : b = s.log.lh.getD tail 0 := hNo.symm.trans hCaches.2
    refine ⟨?_, ?_, ?_⟩
    · rw [hPins, hb]
      exact List.mem_cons_self
    · rw [hb]
      simp [hTail]
    · rw [hb]
      exact (hI.commit.thread p).installed tail src dst hpc
  · intro p s' hStep
    have hpc : (s.th p).pc = .commit .clear := (BioSys.step_acted hStep).2.1
    rw [(hI.commit.thread p).pins _ hpc, hpc]
    exact List.drop_length
  · by_cases hc : ∃ p c, (s.th p).pc = .commit c
    · obtain ⟨p, c, hc⟩ := hc
      rw [(hI.commit.thread p).pins c hc]
      exact hHead.sublist (List.drop_sublist _ _)
    · rw [hI.commit.pinsOpen fun p c h => hc ⟨p, c, h⟩]
      exact hHead

end Run

/-- Two processes: the second reads what the first has changed and logged but not committed. -/
theorem bread_latest_shared : ∃ tr s s',
    (bioLts 2 2 30 fun _ => zeroBlock).Run tr s ∧
      (bioLts 2 2 30 fun _ => zeroBlock).step s (.load 1 0 100) = some (.ok s') ∧
      (s'.cache.buf 0).data = (fun _ => 7) ∧ pins tr = [100] := by
  obtain ⟨s, hExec, s', hStep, hHome⟩ : ∃ s, (bioLts 2 2 30 fun _ => zeroBlock).exec
      (BioSys.initial 2 30 fun _ => zeroBlock)
      [.call 0, .enter 0, .bget 0 100, .lock 0, .load 0 0 100, .modify 0 0 100 (fun _ => 7),
        .logWrite 0 0 100 true, .unlock 0 0, .drop 0, .bget 1 100, .lock 1] = some s ∧
      ∃ s', (bioLts 2 2 30 fun _ => zeroBlock).step s (.load 1 0 100) = some (.ok s') ∧
        s.log.Home 100 := ⟨_, rfl, _, rfl, Or.inr (by decide)⟩
  have hRun := Lts.run_of_exec (Lts.Run.start rfl) hExec
  exact ⟨_, s, s', hRun, hStep, ((bread_latest hRun).1 1 0 100 s' hStep hHome).2.2, rfl⟩

end Xv6
