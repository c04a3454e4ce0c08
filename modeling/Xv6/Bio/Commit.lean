import Xv6.Bio.Buffers

/-!
# xv6 — the commit in progress

Every step keeps what `Bio/Inv.lean` states about processes (`ThreadOk`) and the log
(`CommitOk`): each statement of `commit` finds what the statements before it left, although other
processes read and release buffers in between. `ThreadOk.transfer` is the frame rule,
`ThreadOk.advance` moves `commit` to its next statement.
-/

namespace Xv6

section Step

variable {n p : Nat} {d : Disk} {tr : List BioAct} {s s' : BioSys} {a : BioAct}

/-! ## Processes -/

section Thread

variable {A A' : Disk} {ps ps' : List Nat} {t : Thread}

/-- A process outside `commit` has only home blocks. -/
theorem ThreadOk.of_not_commit (hpc : ∀ c, t.pc ≠ .commit c) (hBusy : s.BusyOk t)
    (hHome : ∀ i ∈ t.held, s.log.Home (s.cache.buf i).blockno) : ThreadOk A ps s t := by
  have hOk : s.PcOk t := by
    unfold BioSys.PcOk BioPc.Ok
    split <;> first | trivial | exact absurd ‹_› (hpc _)
  have hLogged : t.pc.logged s.log.lh.length = 0 := by
    unfold BioPc.logged
    split <;> first | rfl | exact absurd ‹_› (hpc _)
  have hCleared : t.pc.cleared = false := by
    unfold BioPc.cleared
    split <;> first | rfl | exact absurd ‹_› (hpc _)
  refine ⟨hOk, hBusy, fun i hi _ => hHome i hi, fun c hc => absurd hc (hpc c), ?_, ?_, ?_, ?_, ?_⟩
  · intro k hk
    rw [hLogged] at hk
    exact absurd hk (Nat.not_lt_zero k)
  · exact fun _ _ _ hc => absurd hc (hpc _)
  · exact fun _ _ _ hc => absurd hc (hpc _)
  · intro hc
    rw [hCleared] at hc
    cases hc
  · exact fun c hc => absurd hc (hpc c)

theorem locals_eq_nil (hpc : ∀ c, t.pc ≠ .commit c) : t.pc.locals = [] := by
  unfold BioPc.locals
  split <;> first | rfl | exact absurd ‹_› (hpc _)

theorem ThreadOk.home (hT : ThreadOk A ps s t) (hpc : ∀ c, t.pc ≠ .commit c) {i : Nat}
    (hi : i ∈ t.held) : s.log.Home (s.cache.buf i).blockno := by
  refine hT.heldHome i hi ?_
  rw [locals_eq_nil hpc]
  exact List.not_mem_nil

theorem home_congr {l l' : Log} (hStart : l'.start = l.start) (hSize : l'.size = l.size) (b : Nat) :
    l'.Home b ↔ l.Home b := by
  unfold Log.Home
  rw [hStart, hSize]

theorem BioPc.Ok.mono {H H' : Nat → Nat → Prop} {l l' : Log} {pc : BioPc}
    (hH : ∀ i b, H i b → H' i b) (hStart : l'.start = l.start) (hLh : l'.lh = l.lh)
    (h : pc.Ok H l) : pc.Ok H' l' := by
  cases pc with
  | commit c =>
    cases c <;> simp only [BioPc.Ok, hStart, hLh] at h ⊢ <;> grind
  | _ => trivial

theorem holds_congr (hNo : ∀ i ∈ t.held, (s'.cache.buf i).blockno = (s.cache.buf i).blockno)
    (i b : Nat) (h : s.Holds t i b) : s'.Holds t i b :=
  ⟨h.1, (hNo i h.1).trans h.2⟩

theorem readArg_congr {l l' : Log} (pc : BioPc) (hStart : l'.start = l.start)
    (hLh : ∀ c, pc = .commit c → l'.lh = l.lh) : pc.readArg l' = pc.readArg l := by
  cases pc with
  | commit c => cases c <;> simp only [BioPc.readArg, hStart, hLh _ rfl]
  | _ => rfl

theorem busyOk_congr (hSame : ∀ i, t.busy.refs i ≠ 0 → BioSys.SameId s s' i)
    (hStart : s'.log.start = s.log.start) (hSize : s'.log.size = s.log.size)
    (hLh : ∀ c, t.pc = .commit c → s'.log.lh = s.log.lh) (h : s.BusyOk t) : s'.BusyOk t := by
  have hArg := readArg_congr t.pc hStart hLh
  unfold BioSys.BusyOk at h ⊢
  cases hb : t.busy with
  | free => trivial
  | locking i b | loading i b =>
    rw [hb] at h
    have hi : BioSys.SameId s s' i := hSame i (by simp [hb, Busy.refs])
    exact ⟨(caches_of_sameId hi).mpr h.1,
      h.2.imp (fun hu => ⟨hu.1, (home_congr hStart hSize b).mpr hu.2⟩) (fun hr => hArg.trans hr)⟩
  | releasing i =>
    rw [hb] at h
    have hi : BioSys.SameId s s' i := hSame i (by simp [hb, Busy.refs])
    exact ⟨hi.1.trans h.1, h.2⟩

/-- What a commit in progress relies on, from `s` to `s'`. -/
structure CommitFrame (s s' : BioSys) (t : Thread) : Prop where
  lh        : s'.log.lh = s.log.lh
  logDisk   : ∀ k < t.pc.logged s.log.lh.length, k < s.log.lh.length →
                s'.disk (s.log.start + k + 1) = s.disk (s.log.start + k + 1)
  copied    : ∀ tail dst src, t.pc = .commit (.logWrite tail dst src) →
                (s'.cache.buf dst).data = (s.cache.buf dst).data
  installed : ∀ tail src dst, t.pc = .commit (.insUnpin tail src dst) →
                s'.disk (s.log.lh.getD tail 0) = s.disk (s.log.lh.getD tail 0)

/-- What is known of a process stays true when its buffers keep their blocks and, if it commits,
when nobody else touches what it relies on. -/
theorem ThreadOk.transfer (hT : ThreadOk A ps s t)
    (hSame : ∀ i, t.refs i ≠ 0 → BioSys.SameId s s' i)
    (hStart : s'.log.start = s.log.start) (hSize : s'.log.size = s.log.size)
    (hCommit : ∀ c, t.pc = .commit c → A' = A ∧ ps' = ps ∧ CommitFrame s s' t) :
    ThreadOk A' ps' s' t := by
  have hHeld : ∀ i ∈ t.held, BioSys.SameId s s' i := by
    intro i hi
    have := List.count_pos_iff.mpr hi
    exact hSame i (by unfold Thread.refs; omega)
  have hBusy : s'.BusyOk t :=
    busyOk_congr (fun i hi => hSame i (by unfold Thread.refs; omega)) hStart hSize
      (fun c hc => (hCommit c hc).2.2.lh) hT.busy
  have hHome : ∀ i ∈ t.held, i ∉ t.pc.locals → s'.log.Home (s'.cache.buf i).blockno := by
    intro i hi hNot
    rw [(hHeld i hi).2.1, home_congr hStart hSize]
    exact hT.heldHome i hi hNot
  by_cases hc : ∃ c, t.pc = .commit c
  · obtain ⟨c, hc⟩ := hc
    obtain ⟨rfl, rfl, hF⟩ := hCommit c hc
    refine ⟨?_, hBusy, hHome, ?_, ?_, ?_, ?_, ?_, ?_⟩
    · exact hT.pc.mono (holds_congr fun i hi => (hHeld i hi).2.1) hStart hF.lh
    · rw [hF.lh]
      exact hT.pins
    · rw [hF.lh, hStart]
      intro k hk hLen
      rw [hF.logDisk k hk hLen]
      exact hT.logged k hk hLen
    · intro tail dst src hpc
      rw [hF.copied tail dst src hpc, hF.lh]
      exact hT.copied tail dst src hpc
    · intro tail src dst hpc
      rw [hF.lh, hF.installed tail src dst hpc]
      exact hT.installed tail src dst hpc
    · rw [hF.lh]
      exact hT.cleared
    · rw [hSize]
      exact hT.header
  · have hNot : ∀ c, t.pc ≠ .commit c := fun c h => hc ⟨c, h⟩
    refine ThreadOk.of_not_commit hNot hBusy fun i hi => hHome i hi ?_
    rw [locals_eq_nil hNot]
    exact List.not_mem_nil

theorem ThreadOk.withBusy (hT : ThreadOk A ps s t) {busy : Busy} (h : s.BusyOk { t with busy }) :
    ThreadOk A ps s { t with busy } :=
  ⟨hT.pc, h, hT.heldHome, hT.pins, hT.logged, hT.copied, hT.installed, hT.cleared, hT.header⟩

/-- `commit` moves on to its next statement. -/
theorem ThreadOk.advance (hT : ThreadOk A ps s t) {t' : Thread} {c c' : CommitPc}
    (hc : t.pc = .commit c) (hc' : t'.pc = .commit c') (hRet : c ≠ .ret)
    (hOk : s.PcOk t') (hBusy : s.BusyOk t')
    (hHome : ∀ i ∈ t'.held, i ∉ t'.pc.locals → s.log.Home (s.cache.buf i).blockno)
    (hPins : ps' = s.log.lh.drop (t'.pc.unpinned s.log.lh.length))
    (hLogged : ∀ k < t'.pc.logged s.log.lh.length, k < s.log.lh.length →
      k < t.pc.logged s.log.lh.length ∨ s.disk (s.log.start + k + 1) = A (s.log.lh.getD k 0))
    (hWrite : ∀ tail dst src, c' = .logWrite tail dst src →
      (s.cache.buf dst).data = A (s.log.lh.getD tail 0))
    (hUnpin : ∀ tail src dst, c' = .insUnpin tail src dst →
      s.disk (s.log.lh.getD tail 0) = A (s.log.lh.getD tail 0))
    (hCleared : t'.pc.cleared = true → t.pc.cleared = true) : ThreadOk A ps' s t' := by
  refine ⟨hOk, hBusy, hHome, fun _ _ => hPins, ?_, ?_, ?_, ?_, ?_⟩
  · exact fun k hk hLen => (hLogged k hk hLen).elim (fun h => hT.logged k h hLen) id
  · intro tail dst src hpc
    rw [hc'] at hpc
    injection hpc with hpc
    exact hWrite tail dst src hpc
  · intro tail src dst hpc
    rw [hc'] at hpc
    injection hpc with hpc
    exact hUnpin tail src dst hpc
  · exact fun h => hT.cleared (hCleared h)
  · exact fun _ _ _ => hT.header c hc hRet

/-- From statement `c` of `commit` to `c'` nothing is logged or unpinned. -/
structure Alike (l : Log) (c c' : CommitPc) : Prop where
  unpinned : (BioPc.commit c').unpinned l.lh.length = (BioPc.commit c).unpinned l.lh.length
  logged   : (BioPc.commit c').logged l.lh.length = (BioPc.commit c).logged l.lh.length
  cleared  : (BioPc.commit c').cleared = true → (BioPc.commit c).cleared = true
  ret      : c ≠ .ret
  write    : ∀ tail dst src, c' ≠ .logWrite tail dst src
  unpin    : ∀ tail src dst, c' ≠ .insUnpin tail src dst

theorem ThreadOk.shift (hT : ThreadOk A ps s t) {t' : Thread} {c c' : CommitPc}
    (hc : t.pc = .commit c) (hc' : t'.pc = .commit c') (hAlike : Alike s.log c c')
    (hOk : s.PcOk t') (hBusy : s.BusyOk t')
    (hHome : ∀ i ∈ t'.held, i ∉ t'.pc.locals → s.log.Home (s.cache.buf i).blockno) :
    ThreadOk A ps s t' := by
  refine hT.advance hc hc' hAlike.ret hOk hBusy hHome ?_ ?_ ?_ ?_ ?_
  · rw [hT.pins c hc, hc, hc', hAlike.unpinned]
  · rw [hc, hc', hAlike.logged]
    exact fun k hk _ => Or.inl hk
  · exact fun _ _ _ hW => absurd hW (hAlike.write _ _ _)
  · exact fun _ _ _ hU => absurd hU (hAlike.unpin _ _ _)
  · rw [hc, hc']
    exact hAlike.cleared

/-- The end of a `bread`. -/
theorem ThreadOk.load (hT : ThreadOk A ps s t) {i b : Nat} (hb : t.busy = .loading i b) :
    ThreadOk A ps s { t with busy := .free, held := i :: t.held, pc := t.pc.afterRead i } := by
  have hBusy := hT.busy
  rw [BioSys.BusyOk, hb] at hBusy
  obtain ⟨hCaches, ⟨hUser, hHome⟩ | hArg⟩ := hBusy
  · -- file system code reads a home block
    have hNot := not_commit_of_isUser hUser
    have hpc : t.pc.afterRead i = t.pc := by
      unfold BioPc.afterRead
      split <;> first | rfl | exact absurd ‹_› (hNot _)
    rw [hpc]
    refine ThreadOk.of_not_commit hNot trivial fun j hj => ?_
    obtain rfl | hj := List.mem_cons.mp hj
    · rwa [hCaches.2]
    · exact hT.home hNot hj
  · have hOk := hT.pc
    obtain ⟨c, hpc⟩ := commit_of_some hArg ⟨rfl, rfl, rfl, rfl⟩
    rw [hpc] at hArg ⊢
    rw [BioSys.PcOk, hpc] at hOk
    -- the buffer read becomes a local variable, so the others are home blocks as before
    have hShift : ∀ {c'}, (BioPc.commit c).afterRead i = .commit c' → Alike s.log c c' →
        (BioPc.commit c').Ok (s.Holds { t with held := i :: t.held }) s.log →
        (∀ j, j ∉ (BioPc.commit c').locals → j ≠ i ∧ j ∉ (BioPc.commit c).locals) →
        ThreadOk A ps s { t with busy := .free, held := i :: t.held, pc := (BioPc.commit c).afterRead i } := by
      intro c' hc' hAlike hOk' hSub
      rw [hc']
      refine hT.shift hpc rfl hAlike hOk' trivial fun j hj hNot => ?_
      obtain ⟨hne, hOld⟩ := hSub j hNot
      exact hT.heldHome j ((List.mem_cons.mp hj).resolve_left hne) (hpc ▸ hOld)
    have hNew : s.Holds { t with held := i :: t.held } i b := ⟨List.mem_cons_self, hCaches.2⟩
    have hMono : ∀ j b', s.Holds t j b' → s.Holds { t with held := i :: t.held } j b' :=
      fun j b' hj => ⟨List.mem_cons_of_mem _ hj.1, hj.2⟩
    cases c with
    | logTo tail | insLog tail =>
      cases hArg
      exact hShift rfl ⟨rfl, rfl, id, by simp, by simp, by simp⟩ ⟨hOk, hNew⟩ (by simp [BioPc.locals])
    | headRead e =>
      cases hArg
      exact hShift rfl ⟨rfl, rfl, by cases e <;> exact id, by simp, by simp, by simp⟩ hNew
        (by simp [BioPc.locals])
    | logFrom tail j | insDst tail j =>
      obtain rfl : s.log.lh.getD tail 0 = b := Option.some.inj hArg
      refine hShift rfl ⟨rfl, rfl, id, by simp, by simp, by simp⟩ ⟨hOk.1, hMono _ _ hOk.2, hNew⟩ fun k hk => ?_
      simp only [BioPc.locals, List.mem_cons, not_or] at hk ⊢
      exact ⟨hk.2.1, hk.1, hk.2.2⟩
    | _ => cases hArg

/-- The first half of a `brelse`. -/
theorem ThreadOk.unlock (hT : ThreadOk A ps s t) {i : Nat} (hMay : BioSys.mayRelease t i = true)
    (hDev : (s.cache.buf i).dev = ROOTDEV) (hNodup : t.held.Nodup) :
    ThreadOk A ps s { t with held := t.held.erase i, busy := .releasing i } := by
  obtain ⟨-, hWhy⟩ := mayRelease_iff.mp hMay
  have hBusy : s.BusyOk { t with held := t.held.erase i, busy := .releasing i } :=
    ⟨hDev, fun hi => (hNodup.mem_erase_iff.mp hi).1 rfl, hWhy.imp (fun hu => hu.1) id⟩
  obtain ⟨hUser, -⟩ | hArg := hWhy
  · have hNot := not_commit_of_isUser hUser
    exact ThreadOk.of_not_commit hNot hBusy fun j hj => hT.home hNot (List.mem_of_mem_erase hj)
  · have hOk := hT.pc
    obtain ⟨c, hpc⟩ := commit_of_some hArg ⟨rfl, rfl, rfl, rfl⟩
    rw [hpc] at hArg
    rw [BioSys.PcOk, hpc] at hOk
    have hShift : Alike s.log c c →
        (BioPc.commit c).Ok (s.Holds { t with held := t.held.erase i, busy := .releasing i }) s.log →
        ThreadOk A ps s { t with held := t.held.erase i, busy := .releasing i } := fun hAlike hOk' =>
      hT.shift hpc hpc hAlike (by rwa [BioSys.PcOk, hpc]) hBusy
        fun j hj => hT.heldHome j (List.mem_of_mem_erase hj)
    -- the other local variable keeps its buffer
    have hKeep : ∀ j b, s.Holds t j b → j ≠ i →
        s.Holds { t with held := t.held.erase i, busy := .releasing i } j b :=
      fun j b hj hne => ⟨(List.mem_erase_of_ne hne).mpr hj.1, hj.2⟩
    cases c with
    | logRelFrom tail j k | insRelLog tail j k =>
      cases hArg
      exact hShift ⟨rfl, rfl, id, by simp, by simp, by simp⟩ ⟨hOk.1, hKeep _ _ hOk.2.1 hOk.2.2, hOk.2.2⟩
    | logRelTo | headRel | insRelDst => exact hShift ⟨rfl, rfl, id, by simp, by simp, by simp⟩ hOk
    | _ => cases hArg

/-- The end of a `brelse`, loop tests included. -/
theorem ThreadOk.drop (hT : ThreadOk A ps s t) {i : Nat} (hb : t.busy = .releasing i) :
    ThreadOk A ps s { t with busy := .free, pc := t.pc.afterRel s.log } := by
  have hBusy := hT.busy
  rw [BioSys.BusyOk, hb] at hBusy
  obtain ⟨-, hGone, hUser | hArg⟩ := hBusy
  · have hNot := not_commit_of_isUser hUser
    have hpc : t.pc.afterRel s.log = t.pc := by
      unfold BioPc.afterRel
      split <;> first | rfl | exact absurd ‹_› (hNot _)
    rw [hpc]
    exact ThreadOk.of_not_commit hNot trivial fun j hj => hT.home hNot hj
  · have hOk := hT.pc
    obtain ⟨c, hpc⟩ := commit_of_some hArg ⟨rfl, rfl, rfl, rfl⟩
    rw [hpc] at hArg ⊢
    rw [BioSys.PcOk, hpc] at hOk
    -- the released buffer is no longer held, so it need not be a local variable any more
    have hHome : ∀ {pc' : BioPc}, (∀ j, j ∉ pc'.locals → j ≠ i → j ∉ (BioPc.commit c).locals) →
        ∀ j ∈ t.held, j ∉ pc'.locals → s.log.Home (s.cache.buf j).blockno :=
      fun hSub j hj hNot => hT.heldHome j hj (hpc ▸ hSub j hNot fun hji => hGone (hji ▸ hj))
    have hShift : ∀ {c'}, Alike s.log c c' → (BioPc.commit c').Ok (s.Holds t) s.log →
        (∀ j, j ∉ (BioPc.commit c').locals → j ≠ i → j ∉ (BioPc.commit c).locals) →
        ThreadOk A ps s { t with busy := .free, pc := .commit c' } :=
      fun hAlike hOk' hSub => hT.shift hpc rfl hAlike hOk' trivial (hHome hSub)
    -- a loop is over: all entries are in the log, or all are unpinned
    have hLast : ∀ {c'}, (BioPc.commit c').Ok (s.Holds t) s.log →
        (∀ j, j ∉ (BioPc.commit c').locals → j ≠ i → j ∉ (BioPc.commit c).locals) → c ≠ .ret →
        s.log.lh.drop ((BioPc.commit c).unpinned s.log.lh.length) =
          s.log.lh.drop ((BioPc.commit c').unpinned s.log.lh.length) →
        s.log.lh.length ≤ (BioPc.commit c).logged s.log.lh.length →
        (∀ tail dst src, c' ≠ .logWrite tail dst src) → (∀ tail src dst, c' ≠ .insUnpin tail src dst) →
        ((BioPc.commit c').cleared = true → (BioPc.commit c).cleared = true) →
        ThreadOk A ps s { t with busy := .free, pc := .commit c' } := by
      intro c' hOk' hSub hRet hPins hLogged hWrite hUnpin hCleared
      refine hT.advance hpc rfl hRet hOk' trivial (hHome hSub) ?_ ?_ (fun _ _ _ hW => absurd hW (hWrite _ _ _))
        (fun _ _ _ hU => absurd hU (hUnpin _ _ _)) (by rwa [hpc])
      · rw [hT.pins _ hpc, hpc, hPins]
      · rw [hpc]
        exact fun k _ hk => Or.inl (hk.trans_le hLogged)
    cases c with
    | logRelFrom tail j k | insRelLog tail j k =>
      cases hArg
      refine hShift ⟨rfl, rfl, id, by simp, by simp, by simp⟩ hOk.1 ?_
      simp [BioPc.locals]
      grind
    | logRelTo tail dst =>
      cases hArg
      simp only [BioPc.afterRel]
      split
      · rename_i hMore
        exact hShift ⟨rfl, rfl, id, by simp, by simp, by simp⟩ hMore (by simp [BioPc.locals])
      · rename_i hEnd
        exact hLast trivial (by simp [BioPc.locals]) (by simp) rfl (Nat.le_of_not_lt hEnd) (by simp) (by simp) id
    | headRel e hb =>
      cases hArg
      cases e with
      | false =>
        simp only [BioPc.afterRel]
        split
        · rename_i hMore
          exact hShift ⟨rfl, rfl, id, by simp, by simp, by simp⟩ hMore (by simp [BioPc.locals])
        · rename_i hNone
          have hNil : s.log.lh = [] := List.eq_nil_of_length_eq_zero (by omega)
          refine hLast trivial (by simp [BioPc.locals]) (by simp) ?_ (Nat.le_refl _) (by simp) (by simp) id
          rw [hNil, List.drop_nil, List.drop_nil]
      | true => exact hShift ⟨rfl, rfl, id, by simp, by simp, by simp⟩ trivial (by simp [BioPc.locals])
    | insRelDst tail dst =>
      cases hArg
      simp only [BioPc.afterRel]
      split
      · rename_i hMore
        exact hShift ⟨rfl, rfl, id, by simp, by simp, by simp⟩ hMore (by simp [BioPc.locals])
      · rename_i hEnd
        refine hLast trivial (by simp [BioPc.locals]) (by simp) ?_ (Nat.le_refl _) (by simp) (by simp) id
        show s.log.lh.drop (tail + 1) = s.log.lh.drop s.log.lh.length
        rw [List.drop_length, List.drop_eq_nil_of_le (by omega)]
    | _ => cases hArg

end Thread

/-- While a process commits, the others leave log, disk and all contents alone. -/
theorem commit_frame (hX : Excl s) (h : s.Acted s' p a) {q : Nat} (hq : q ≠ p) {c : CommitPc}
    (hc : (s.th q).pc = .commit c) :
    latest d (tr ++ [a]) = latest d tr ∧ pins (tr ++ [a]) = pins tr ∧ s'.log.lh = s.log.lh ∧
      s'.disk = s.disk ∧
      ∀ i, (s.cache.buf i).valid = true → (s'.cache.buf i).data = (s.cache.buf i).data := by
  have hIn : (s.th q).pc.inCommit = true := by rw [hc]; rfl
  have hNoOp : (s.th p).pc ≠ .inOp := hX.noOp q p hIn
  have hNotIn : ∀ c', (s.th p).pc ≠ .commit c' :=
    fun c' hc' => hq (hX.one q p hIn (by rw [hc']; rfl))
  refine ⟨?_, ?_, ?_, ?_, fun i hValid => ?_⟩
  · rw [latest_snoc]
    cases a with
    | modify _ i b v => exact absurd h.1 hNoOp
    | _ => rfl
  · rw [pins_snoc]
    cases a with
    | logWrite _ i b pin => exact absurd h.1 hNoOp
    | unpin _ b =>
      obtain ⟨tail, src, dst, hpc, -⟩ := h
      exact absurd hpc (hNotIn _)
    | _ => rfl
  · obtain ⟨-, -, hLh | ⟨r, i, b, pin, rfl⟩ | ⟨r, rfl⟩⟩ := BioSys.acted_log h
    · exact hLh
    · exact absurd h.1 hNoOp
    · exact absurd h.1 (hNotIn _)
  · obtain hDisk | ⟨r, rfl⟩ := BioSys.acted_disk h
    · exact hDisk
    · obtain ⟨i, hArg, -⟩ := h
      obtain ⟨c', hpc⟩ := commit_of_some hArg ⟨rfl, rfl, rfl, rfl⟩
      exact absurd hpc (hNotIn c')
  · obtain hData | ⟨r, b, v, rfl⟩ | ⟨r, src, -, hArgs⟩ | ⟨r, e, -, hpc⟩ :=
      BioSys.acted_data h hValid
    · exact hData
    · exact absurd h.1 hNoOp
    · obtain ⟨c', hpc⟩ := commit_of_some hArgs ⟨rfl, rfl, rfl, rfl⟩
      exact absurd hpc (hNotIn c')
    · exact absurd hpc (hNotIn _)

/-- The buffer that `commit` is about to write is one it has. -/
theorem held_of_unwritten {t : Thread} (hOk : s.PcOk t) {i : Nat}
    (hi : t.pc.unwritten = some i) : i ∈ t.held := by
  obtain ⟨c, hpc⟩ := commit_of_some hi ⟨rfl, rfl, rfl, rfl⟩
  rw [BioSys.PcOk, hpc] at hOk
  rw [hpc] at hi
  cases c with
  | logWrite tail dst src =>
    cases hi
    exact hOk.2.1.1
  | headWrite e hb =>
    cases hi
    exact hOk.1
  | _ => cases hi

theorem threadOk_other (hI : BioInv n d tr s) (hX : Excl s) (h : s.Acted s' p a) {q : Nat}
    (hq : q ≠ p) : ThreadOk (latest d (tr ++ [a])) (pins (tr ++ [a])) s' (s'.th q) := by
  rw [BioSys.acted_th h hq]
  have hT := hI.commit.thread q
  obtain ⟨hStart, hSize, -⟩ := BioSys.acted_log h
  refine hT.transfer (fun i hi => ?_) hStart hSize fun c hc => ?_
  · exact BioSys.acted_keep h (ref_ne_zero hI.idle hI.refs hi)
  · obtain ⟨hA, hPins, hLh, hDisk, hData⟩ := commit_frame hX h hq hc
    refine ⟨hA, hPins, hLh, fun k _ _ => by rw [hDisk], fun tail dst src hpc => hData dst ?_,
      fun tail src dst _ => by rw [hDisk]⟩
    exact (hI.lock.held q dst (held_of_unwritten hT.pc (by rw [hpc]; rfl))).2

theorem busy_free {t : Thread} {pc : BioPc} (hB : s.BusyOk t) (hpc : t.pc = pc) (hUser : pc.isUser = false)
    (hRead : pc.readArg s.log = none) (hRel : pc.relArg = none) : t.busy = .free := by
  unfold BioSys.BusyOk at hB
  rw [hpc, hUser, hRead, hRel] at hB
  cases hb : t.busy with
  | free => rfl
  | _ => simp [hb] at hB

theorem busyOk_free {t : Thread} (h : t.busy = .free) : s.BusyOk t := by
  unfold BioSys.BusyOk
  rw [h]
  trivial

/-- Steps that leave the process outside `commit`, with the buffers it had. -/
theorem threadOk_plain (hI : BioInv n d tr s) (h : s.Acted s' p a) {A : Disk} {ps : List Nat}
    (hpc : ∀ c, (s'.th p).pc ≠ .commit c) (hLocals : (s.th p).pc.locals = [])
    (hHeld : (s'.th p).held = (s.th p).held) (hFree : (s'.th p).busy = .free) :
    ThreadOk A ps s' (s'.th p) := by
  refine ThreadOk.of_not_commit hpc (busyOk_free hFree) fun i hi => ?_
  rw [hHeld] at hi
  obtain ⟨hStart, hSize, -⟩ := BioSys.acted_log h
  rw [(BioSys.acted_keep h (ref_of_held hI.idle hI.refs hi)).2.1, home_congr hStart hSize]
  refine (hI.commit.thread p).heldHome i hi ?_
  rw [hLocals]
  exact List.not_mem_nil

/-- Steps of a `bread` or `brelse`: a process known in the old state is known in the new one. -/
theorem threadOk_local (hI : BioInv n d tr s) (h : s.Acted s' p a) (ha : a.isLocal = true)
    {t' : Thread} (hT : ThreadOk (latest d tr) (pins tr) s t')
    (hRefs : ∀ i, t'.refs i ≠ 0 → (s.th p).refs i ≠ 0)
    (hHeld : ∀ i, t'.pc.unwritten = some i → i ∈ (s.th p).held) :
    ThreadOk (latest d tr) (pins tr) s' t' := by
  obtain ⟨hLog, hDisk, hData⟩ := BioSys.local_frame h ha
  refine hT.transfer (fun i hi => ?_) (by rw [hLog]) (by rw [hLog]) fun c _ => ⟨rfl, rfl, ?_⟩
  · exact BioSys.acted_keep h (ref_ne_zero hI.idle hI.refs (hRefs i hi))
  · refine ⟨by rw [hLog], fun k _ _ => by rw [hDisk], fun tail dst src hpc => hData dst ?_,
      fun tail src dst _ => by rw [hDisk]⟩
    exact (hI.lock.held p dst (hHeld dst (by rw [hpc]; rfl))).2

theorem unwritten_afterRead {j : Nat} (pc : BioPc) (i : Nat) (h : (pc.afterRead i).unwritten = some j) :
    pc.unwritten = some j := by
  cases pc with
  | commit c => cases c <;> exact h
  | _ => exact h

theorem unwritten_afterRel {j : Nat} (pc : BioPc) (l : Log) (h : (pc.afterRel l).unwritten = some j) :
    pc.unwritten = some j := by
  cases pc with
  | commit c =>
    cases c with
    | logRelTo | insRelDst =>
      simp only [BioPc.afterRel] at h
      split at h <;> cases h
    | headRel e hb =>
      cases e with
      | false =>
        simp only [BioPc.afterRel] at h
        split at h <;> cases h
      | true => cases h
    | _ => exact h
  | _ => exact h

/-- The home block that entry `tail` of the header names, and its place in the log, differ. -/
theorem logBlock_not_home (hI : BioInv n d tr s) {k : Nat} (hk : k < s.log.lh.length) :
    ¬ s.log.Home (s.log.start + k + 1) := by
  have := hI.commit.lhFit
  unfold Log.Home
  omega

theorem lh_home (hI : BioInv n d tr s) {k : Nat} (hk : k < s.log.lh.length) :
    s.log.Home (s.log.lh.getD k 0) := by
  refine hI.commit.lhHome _ ?_
  simp [hk]

/-- The entries of the log in memory hold what the array has. -/
theorem held_data (hI : BioInv n d tr s) {q i b : Nat} (hi : s.Holds (s.th q) i b)
    (hb : s.log.Home b) : (s.cache.buf i).data = latest d tr b := by
  obtain ⟨hDev, hValid⟩ := hI.lock.held q i hi.1
  exact hI.data.home i b ⟨hDev, hi.2⟩ hValid hb

/-- The statement `c'` of `commit` comes after `c`, which changes something, and uses the same buffers. -/
structure Then (l : Log) (c c' : CommitPc) : Prop where
  locals  : (BioPc.commit c').locals = (BioPc.commit c).locals
  cleared : (BioPc.commit c').cleared = true → (BioPc.commit c).cleared = true
  ret     : c ≠ .ret
  read    : (BioPc.commit c).readArg l = none
  rel     : (BioPc.commit c).relArg = none

/-- A statement of `commit` keeps what is known of its process, and goes on to the next one. -/
theorem threadOk_next (hI : BioInv n d tr s) (h : s.Acted s' p a) {ps' : List Nat} {c c' : CommitPc}
    (hpc : (s.th p).pc = .commit c) (hTh : s'.th p = { s.th p with pc := .commit c' })
    (hThen : Then s.log c c') (hLog : s'.log = s.log) (hFrame : CommitFrame s s' (s.th p))
    (hOk : (BioPc.commit c).Ok (s'.Holds (s.th p)) s.log → (BioPc.commit c').Ok (s'.Holds (s.th p)) s.log)
    (hPins : ps' = s.log.lh.drop ((BioPc.commit c').unpinned s.log.lh.length))
    (hLogged : ∀ k < (BioPc.commit c').logged s.log.lh.length, k < s.log.lh.length →
      k < (BioPc.commit c).logged s.log.lh.length ∨
        s'.disk (s.log.start + k + 1) = latest d tr (s.log.lh.getD k 0))
    (hWrite : ∀ tail dst src, c' = .logWrite tail dst src →
      (s'.cache.buf dst).data = latest d tr (s.log.lh.getD tail 0))
    (hUnpin : ∀ tail src dst, c' = .insUnpin tail src dst →
      s'.disk (s.log.lh.getD tail 0) = latest d tr (s.log.lh.getD tail 0)) :
    ThreadOk (latest d tr) ps' s' (s'.th p) := by
  have hT := hI.commit.thread p
  have hFree := busy_free hT.busy hpc rfl hThen.read hThen.rel
  have hT' : ThreadOk (latest d tr) (pins tr) s' (s.th p) := hT.transfer
    (fun _ hi => BioSys.acted_keep h (ref_ne_zero hI.idle hI.refs hi)) (by rw [hLog])
    (by rw [hLog]) (fun _ _ => ⟨rfl, rfl, hFrame⟩)
  have hOk' := hT'.pc
  rw [BioSys.PcOk, hpc, hLog] at hOk'
  rw [hTh]
  refine hT'.advance hpc rfl hThen.ret (by rw [BioSys.PcOk, hLog]; exact hOk hOk') (busyOk_free hFree)
    (fun i hi hNot => hT'.heldHome i hi ?_) ?_ ?_ ?_ ?_ ?_
  · rw [hpc, ← hThen.locals]
    exact hNot
  · rwa [hLog]
  · rwa [hLog, hpc]
  · rwa [hLog]
  · rwa [hLog]
  · rw [hpc]
    exact hThen.cleared

/-- Statements that do not write to disk. -/
theorem CommitFrame.of_disk {t : Thread} (hLog : s'.log = s.log) (hDisk : s'.disk = s.disk)
    (hNot : ∀ tail dst src, t.pc ≠ .commit (.logWrite tail dst src)) : CommitFrame s s' t :=
  ⟨by rw [hLog], fun _ _ _ => by rw [hDisk], fun _ _ _ hpc => absurd hpc (hNot _ _ _), fun _ _ _ _ => by rw [hDisk]⟩

theorem threadOk_copy (hI : BioInv n d tr s) {q : Nat} (h : s.Acted s' p (.copy q)) :
    ThreadOk (latest d tr) (pins tr) s' (s'.th p) := by
  have hAct := h
  obtain ⟨dst, src, hArgs, hEq⟩ := h
  have hLog : s'.log = s.log := by rw [hEq]; rfl
  have hDisk : s'.disk = s.disk := by rw [hEq]; rfl
  have hTh : s'.th p = { s.th p with pc := (s.th p).pc.after } := by rw [hEq, BioSys.setTh_th_self]
  have hT := hI.commit.thread p
  have hOk := hT.pc
  obtain ⟨c, hpc⟩ := commit_of_some hArgs ⟨rfl, rfl, rfl, rfl⟩
  rw [hpc] at hArgs hTh
  rw [BioSys.PcOk, hpc] at hOk
  have hPins := hT.pins c hpc
  rw [hpc] at hPins
  have hFrame : (∀ tail dst src, c ≠ .logWrite tail dst src) → CommitFrame s s' (s.th p) :=
    fun hNot => .of_disk hLog hDisk (by simpa [hpc] using hNot)
  cases c with
  | logCopy tail dst' src' =>
    cases hArgs
    refine threadOk_next hI hAct hpc hTh ⟨rfl, id, by simp, rfl, rfl⟩ hLog (hFrame (by simp)) id hPins
      (fun k hk _ => Or.inl hk) ?_ (by simp)
    -- the source is the cached home block
    intro tail' dst' src' hSame
    cases hSame
    rw [← held_data hI hOk.2.2 (lh_home hI hOk.1), hEq]
    simp [BioSys.setBuf_buf]
  | insCopy tail src' dst' =>
    cases hArgs
    exact threadOk_next hI hAct hpc hTh ⟨rfl, id, by simp, rfl, rfl⟩ hLog (hFrame (by simp)) id hPins
      (fun k hk _ => Or.inl hk) (by simp) (by simp)
  | _ => cases hArgs

theorem threadOk_fill (hI : BioInv n d tr s) {q : Nat} (h : s.Acted s' p (.fill q)) :
    ThreadOk (latest d tr) (pins tr) s' (s'.th p) := by
  have hAct := h
  obtain ⟨e, hb, hpc, hEq⟩ := h
  have hLog : s'.log = s.log := by rw [hEq]; rfl
  have hPins := (hI.commit.thread p).pins _ hpc
  rw [hpc] at hPins
  have hTh : s'.th p = { s.th p with pc := .commit (.headWrite e hb) } := by rw [hEq, BioSys.setTh_th_self]
  exact threadOk_next hI hAct hpc hTh
    ⟨rfl, by cases e <;> exact id, by simp, rfl, rfl⟩ hLog (.of_disk hLog (by rw [hEq]; rfl) (by simp [hpc])) id hPins
    (fun k hk _ => Or.inl hk) (by simp) (by simp)

/-- The blocks of the log and the blocks that its entries name are different. -/
theorem log_ne_home (hI : BioInv n d tr s) {k j : Nat} (hk : k < s.log.lh.length) (hj : j < s.log.lh.length) :
    s.log.start + k + 1 ≠ s.log.lh.getD j 0 := fun hSame =>
  logBlock_not_home hI hk (hSame ▸ lh_home hI hj)

theorem threadOk_bwrite (hI : BioInv n d tr s) {q : Nat} (h : s.Acted s' p (.bwrite q)) :
    ThreadOk (latest d tr) (pins tr) s' (s'.th p) := by
  have hAct := h
  obtain ⟨i, hArg, -, hEq⟩ := h
  have hLog : s'.log = s.log := by rw [hEq]; rfl
  have hDisk : s'.disk = Function.update s.disk (s.cache.buf i).blockno (s.cache.buf i).data := by
    rw [hEq]; rfl
  have hBuf : ∀ j, s'.cache.buf j = s.cache.buf j := fun j => by rw [hEq]; rfl
  have hTh : s'.th p = { s.th p with pc := (s.th p).pc.after } := by rw [hEq, BioSys.setTh_th_self]
  have hT := hI.commit.thread p
  have hOk := hT.pc
  obtain ⟨c, hpc⟩ := commit_of_some hArg ⟨rfl, rfl, rfl, rfl⟩
  rw [hpc] at hArg hTh
  rw [BioSys.PcOk, hpc] at hOk
  have hPins := hT.pins c hpc
  rw [hpc] at hPins
  cases c with
  | logWrite tail dst src =>
    cases hArg
    rw [hOk.2.1.2] at hDisk
    have hNe : i ≠ src := by
      rintro rfl
      exact log_ne_home hI hOk.1 hOk.1 (hOk.2.1.2.symm.trans hOk.2.2.2)
    refine threadOk_next hI hAct hpc hTh ⟨rfl, id, by simp, rfl, rfl⟩ hLog ⟨by rw [hLog], fun k hk _ => ?_,
      fun _ _ _ _ => by rw [hBuf], by simp [hpc]⟩ (fun hOk' => ⟨hOk'.1, hOk'.2.1, hNe⟩) hPins ?_ (by simp) (by simp)
    · -- the write goes behind the entries that are in the log already
      rw [hpc] at hk
      have hk : k < tail := hk
      rw [hDisk, Function.update_of_ne (by omega)]
    · intro k hk _
      obtain hlt | rfl := Nat.lt_succ_iff_lt_or_eq.mp hk
      · exact Or.inl hlt
      · refine Or.inr ?_
        rw [hDisk, Function.update_self]
        exact hT.copied k i src hpc
  | headWrite e hb =>
    cases hArg
    rw [hOk.2] at hDisk
    exact threadOk_next hI hAct hpc hTh ⟨rfl, by cases e <;> exact id, by simp, rfl, rfl⟩ hLog ⟨by rw [hLog],
      fun k _ _ => by rw [hDisk, Function.update_of_ne (by omega)], by simp [hpc], by simp [hpc]⟩ (fun _ => trivial) hPins
      (fun k hk _ => Or.inl hk) (by simp) (by simp)
  | insWrite tail src dst =>
    cases hArg
    rw [hOk.2.2.2] at hDisk
    -- the write goes to a home block, outside the log
    refine threadOk_next hI hAct hpc hTh ⟨rfl, id, by simp, rfl, rfl⟩ hLog ⟨by rw [hLog],
      fun k _ hk => by rw [hDisk, Function.update_of_ne (log_ne_home hI hk hOk.1)], by simp [hpc], by simp [hpc]⟩ id hPins
      (fun k hk _ => Or.inl hk) (by simp) ?_
    intro tail' src' dst' hSame
    cases hSame
    rw [hDisk, Function.update_self]
    exact held_data hI hOk.2.2 (lh_home hI hOk.1)
  | _ => cases hArg

theorem threadOk_unpin (hI : BioInv n d tr s) {q b : Nat} (h : s.Acted s' p (.unpin q b)) :
    ThreadOk (latest d tr) ((pins tr).erase b) s' (s'.th p) := by
  have hAct := h
  obtain ⟨tail, src, dst, hpc, hNo, hEq⟩ := h
  have hLog : s'.log = s.log := by rw [hEq]; rfl
  have hOk := (hI.commit.thread p).pc
  rw [BioSys.PcOk, hpc] at hOk
  have hNe : dst ≠ src := by
    rintro rfl
    exact log_ne_home hI hOk.1 hOk.1 (hOk.2.1.2.symm.trans hOk.2.2.2)
  have hTh : s'.th p = { s.th p with pc := .commit (.insRelLog tail src dst) } := by rw [hEq, BioSys.setTh_th_self]
  refine threadOk_next hI hAct hpc hTh ⟨rfl, id, by simp, rfl, rfl⟩ hLog
    (.of_disk hLog (by rw [hEq]; rfl) (by simp [hpc])) (fun hOk' => ⟨hOk'.1, hOk'.2.2, hNe⟩) ?_
    (fun k hk _ => Or.inl hk) (by simp) (by simp)
  obtain ⟨hCaches, -, -, hPins⟩ := unpin_pinned hI hpc
  rw [← hNo, hCaches.2, hPins, List.erase_cons_head]
  rfl

theorem threadOk_commitStart (hI : BioInv n d tr s) (hX : Excl s) {q : Nat} {work : Bool}
    (h : s.Acted s' p (.commitStart q work)) :
    ThreadOk (latest d tr) (pins tr) s' (s'.th p) := by
  obtain ⟨hpc, hWork, rfl⟩ := h
  have hT := hI.commit.thread p
  have hNot : ∀ c, (s.th p).pc ≠ .commit c := fun c hc => by rw [hpc] at hc; cases hc
  have hFree := busy_free hT.busy hpc rfl rfl rfl
  -- no other process commits, so the pins are those of the header
  have hPins : pins tr = s.log.lh := by
    refine hI.commit.pinsOpen fun r c hc => ?_
    have : r = p := hX.one r p (by rw [hc]; rfl) (by rw [hpc]; rfl)
    subst this
    exact hNot c hc
  have hHome : ∀ i ∈ (s.th p).held, s.log.Home (s.cache.buf i).blockno := fun i hi => hT.home hNot hi
  rw [BioSys.setTh_th_self]
  cases work with
  | true =>
    have hLen : 0 < s.log.lh.length := by simpa using hWork
    refine ⟨hLen, busyOk_free hFree, fun i hi _ => hHome i hi, fun _ _ => hPins, ?_, ?_, ?_, ?_, ?_⟩
    · exact fun k hk => absurd hk (Nat.not_lt_zero k)
    · exact fun _ _ _ hc => by cases hc
    · exact fun _ _ _ hc => by cases hc
    · exact fun hc => by cases hc
    · intro _ _ _
      have := hI.commit.lhFit
      show 0 < s.log.size
      omega
  | false =>
    have hNil : s.log.lh = [] := by simpa using hWork
    refine ⟨trivial, busyOk_free hFree, fun i hi _ => hHome i hi, fun _ _ => hPins, ?_, ?_, ?_, ?_, ?_⟩
    · intro k _ hk
      simp [hNil] at hk
    · exact fun _ _ _ hc => by cases hc
    · exact fun _ _ _ hc => by cases hc
    · exact fun _ => hNil
    · intro c hc hRet
      injection hc with hc
      exact absurd hc.symm hRet

theorem threadOk_clear (hI : BioInv n d tr s) {q : Nat} (h : s.Acted s' p (.clear q)) :
    ThreadOk (latest d tr) (pins tr) s' (s'.th p) := by
  obtain ⟨hpc, rfl⟩ := h
  have hT := hI.commit.thread p
  have hFree := busy_free hT.busy hpc rfl rfl rfl
  rw [BioSys.setTh_th_self]
  refine ⟨trivial, busyOk_free hFree, ?_, ?_, ?_, ?_, ?_, fun _ => rfl, ?_⟩
  · intro i hi _
    exact hT.heldHome i hi (by rw [hpc]; exact List.not_mem_nil)
  · -- every entry has been unpinned
    intro _ _
    rw [hT.pins _ hpc, hpc]
    show s.log.lh.drop s.log.lh.length = _
    rw [List.drop_length]
    rfl
  · exact fun k _ hk => absurd hk (Nat.not_lt_zero k)
  · exact fun _ _ _ hc => by cases hc
  · exact fun _ _ _ hc => by cases hc
  · exact fun _ _ _ => hT.header _ hpc (by simp)

theorem threadOk_self (hI : BioInv n d tr s) (hX : Excl s) (h : s.Acted s' p a) :
    ThreadOk (latest d (tr ++ [a])) (pins (tr ++ [a])) s' (s'.th p) := by
  rw [latest_snoc, pins_snoc]
  have hT := hI.commit.thread p
  have hAct := h
  cases a with
  | call _ =>
    obtain ⟨hpc, hFree, rfl⟩ := h
    exact threadOk_plain hI hAct (by simp) (by rw [hpc]; rfl) (by simp) (by simpa using hFree)
  | sleep _ =>
    obtain ⟨-, -, rfl⟩ := h
    exact hT
  | enter _ =>
    obtain ⟨hpc, l, -, rfl⟩ := h
    have hFree := busy_free hT.busy hpc rfl rfl rfl
    exact threadOk_plain hI hAct (by simp) (by rw [hpc]; rfl) (by simp) (by simpa using hFree)
  | leave _ =>
    obtain ⟨hpc, hFree, -, l, c, -, rfl⟩ := h
    refine threadOk_plain hI hAct ?_ (by rw [hpc]; rfl) (by simp) (by simpa using hFree)
    cases c <;> simp
  | commitStart _ work => exact threadOk_commitStart hI hX h
  | clear _ => exact threadOk_clear hI h
  | commitDone _ =>
    obtain ⟨hpc, rfl⟩ := h
    have hFree := busy_free hT.busy hpc rfl rfl rfl
    exact threadOk_plain hI hAct (by simp) (by rw [hpc]; rfl) (by simp) (by simpa using hFree)
  | bget _ b =>
    obtain ⟨hMay, i, c, hGet, rfl⟩ := h
    obtain ⟨hFree, hWhy⟩ := mayRead_iff.mp hMay
    have hT' := threadOk_local hI hAct rfl hT (fun _ => id) fun j hj => held_of_unwritten hT.pc hj
    rw [BioSys.setTh_th_self]
    refine hT'.withBusy ⟨?_, hWhy⟩
    obtain ⟨-, ⟨hDev, hNo, rfl⟩ | ⟨-, -, rfl⟩⟩ := Bcache.bget_cases hGet <;>
      simp [BioSys.Caches, Bcache.set_buf, *]
  | lock _ =>
    obtain ⟨i, b, hb, -, rfl⟩ := h
    have hBusy := hT.busy
    rw [BioSys.BusyOk, hb] at hBusy
    rw [BioSys.setTh_th_self]
    refine threadOk_local hI hAct rfl (hT.withBusy hBusy) ?_ fun j hj => held_of_unwritten hT.pc hj
    intro j hj
    rw [Thread.refs, hb]
    exact hj
  | load _ i b =>
    obtain ⟨hb, rfl⟩ := h
    rw [BioSys.setTh_th_self]
    refine threadOk_local hI hAct rfl (hT.load hb) ?_
      fun j hj => held_of_unwritten hT.pc (unwritten_afterRead _ i hj)
    intro j hj
    simp only [Thread.refs, hb, Busy.refs, List.count_cons, beq_iff_eq] at hj ⊢
    omega
  | unlock _ i =>
    obtain ⟨hMay, hLock, rfl⟩ := h
    have hFree := (mayRelease_iff.mp hMay).1
    have hHeld := held_of_unlock hI.lock hFree hLock
    have hNodup := hI.lock.nodup p
    rw [Thread.owned, hFree] at hNodup
    rw [BioSys.setTh_th_self]
    refine threadOk_local hI hAct rfl (hT.unlock hMay (hI.lock.held p i hHeld).1 hNodup) ?_
      fun j hj => held_of_unwritten hT.pc hj
    intro j hj
    have hCount := List.count_pos_iff.mpr hHeld
    by_cases hji : i = j
    · subst hji
      unfold Thread.refs
      omega
    · simp only [Thread.refs, hFree, Busy.refs, if_neg hji] at hj ⊢
      rwa [List.count_erase_of_ne (Ne.symm hji)] at hj
  | drop _ =>
    obtain ⟨i, hb, rfl⟩ := h
    rw [BioSys.setTh_th_self]
    refine threadOk_local hI hAct rfl (hT.drop hb) ?_
      fun j hj => held_of_unwritten hT.pc (unwritten_afterRel _ _ hj)
    intro j hj
    simp only [Thread.refs, Busy.refs] at hj ⊢
    omega
  | modify _ i b v =>
    obtain ⟨hpc, hFree, -, -, rfl⟩ := h
    exact threadOk_plain hI hAct (by simp [hpc]) (by rw [hpc]; rfl) (by simp) (by simpa using hFree)
  | logWrite _ i b pin =>
    obtain ⟨hpc, hFree, -, -, l, -, rfl⟩ := h
    exact threadOk_plain hI hAct (by simp [hpc]) (by rw [hpc]; rfl) (by simp) (by simpa using hFree)
  | copy _ => exact threadOk_copy hI h
  | fill _ => exact threadOk_fill hI h
  | bwrite _ => exact threadOk_bwrite hI h
  | unpin _ b => exact threadOk_unpin hI h

/-! ## The log -/

theorem afterRead_commit (c : CommitPc) (i : Nat) :
    ∃ c', (BioPc.commit c).afterRead i = .commit c' := by
  cases c <;> exact ⟨_, rfl⟩

theorem after_commit (c : CommitPc) : ∃ c', (BioPc.commit c).after = .commit c' := by
  cases c <;> exact ⟨_, rfl⟩

theorem afterRel_commit (c : CommitPc) (l : Log) : ∃ c', (BioPc.commit c).afterRel l = .commit c' := by
  cases c with
  | logRelTo | insRelDst => simp only [BioPc.afterRel]; split <;> exact ⟨_, rfl⟩
  | headRel e hb =>
    cases e with
    | false => simp only [BioPc.afterRel]; split <;> exact ⟨_, rfl⟩
    | true => exact ⟨_, rfl⟩
  | _ => exact ⟨_, rfl⟩

/-- A process stays in `commit` until its last statement. -/
theorem commit_stays (h : s.Acted s' p a) {c : CommitPc} (hc : (s.th p).pc = .commit c) :
    (∃ c', (s'.th p).pc = .commit c') ∨ c = .ret := by
  cases a with
  | call | sleep | enter | leave | commitStart | modify | logWrite => exact absurd h.1 (by simp [hc])
  | clear _ =>
    obtain ⟨-, rfl⟩ := h
    exact Or.inl ⟨_, by rw [BioSys.setTh_th_self]⟩
  | commitDone _ =>
    obtain ⟨hpc, -⟩ := h
    rw [hc] at hpc
    injection hpc with hpc
    exact Or.inr hpc
  | bget _ b =>
    obtain ⟨-, i, c', -, rfl⟩ := h
    exact Or.inl ⟨c, by rw [BioSys.setTh_th_self]; exact hc⟩
  | lock _ =>
    obtain ⟨i, b, -, -, rfl⟩ := h
    exact Or.inl ⟨c, by rw [BioSys.setTh_th_self]; exact hc⟩
  | load _ i b =>
    obtain ⟨-, rfl⟩ := h
    obtain ⟨c', hc'⟩ := afterRead_commit c i
    exact Or.inl ⟨c', by rw [BioSys.setTh_th_self, hc]; exact hc'⟩
  | unlock _ i =>
    obtain ⟨-, -, rfl⟩ := h
    exact Or.inl ⟨c, by rw [BioSys.setTh_th_self]; exact hc⟩
  | drop _ =>
    obtain ⟨i, -, rfl⟩ := h
    obtain ⟨c', hc'⟩ := afterRel_commit c s.log
    exact Or.inl ⟨c', by rw [BioSys.setTh_th_self, hc]; exact hc'⟩
  | copy _ =>
    obtain ⟨dst, src, -, rfl⟩ := h
    obtain ⟨c', hc'⟩ := after_commit c
    exact Or.inl ⟨c', by rw [BioSys.setTh_th_self, hc]; exact hc'⟩
  | fill _ =>
    obtain ⟨e, hb, -, rfl⟩ := h
    exact Or.inl ⟨_, by rw [BioSys.setTh_th_self]⟩
  | bwrite _ =>
    obtain ⟨i, -, -, rfl⟩ := h
    obtain ⟨c', hc'⟩ := after_commit c
    exact Or.inl ⟨c', by rw [BioSys.setTh_th_self, hc]; exact hc'⟩
  | unpin _ b =>
    obtain ⟨tail, src, dst, -, -, rfl⟩ := h
    exact Or.inl ⟨_, by rw [BioSys.setTh_th_self]⟩

/-- When nobody commits after a step, header and pins agreed before it. -/
theorem pins_eq_lh (hI : BioInv n d tr s) (h : s.Acted s' p a)
    (hOpen : ∀ q c, (s'.th q).pc ≠ .commit c) : pins tr = s.log.lh := by
  by_cases hc : ∃ q c, (s.th q).pc = .commit c
  · obtain ⟨q, c, hc⟩ := hc
    by_cases hq : q = p
    · subst hq
      obtain ⟨c', hc'⟩ | rfl := commit_stays h hc
      · exact absurd hc' (hOpen q c')
      · rw [(hI.commit.thread q).pins _ hc, hc]
        rfl
    · rw [← BioSys.acted_th h hq] at hc
      exact absurd hc (hOpen q c)
  · exact hI.commit.pinsOpen fun q c h => hc ⟨q, c, h⟩

theorem pinsOpen_step (hI : BioInv n d tr s) (h : s.Acted s' p a)
    (hOpen : ∀ q c, (s'.th q).pc ≠ .commit c) : pins (tr ++ [a]) = s'.log.lh := by
  have hBefore := pins_eq_lh hI h hOpen
  obtain ⟨-, -, hLh | ⟨r, i, b, pin, rfl⟩ | ⟨r, rfl⟩⟩ := BioSys.acted_log h
  · rw [hLh, ← hBefore, pins_snoc]
    cases a with
    | logWrite _ i b pin =>
      -- nothing was added to the header, so nothing was pinned
      obtain ⟨-, -, -, -, l, hl, rfl⟩ := h
      obtain ⟨-, -, -, rfl, rfl⟩ := Log.logWrite_ok hl
      have hMem : b ∈ s.log.lh := by
        by_contra hb
        have hLen := congrArg List.length hLh
        simp [hb] at hLen
      simp [hMem]
    | unpin _ b =>
      obtain ⟨tail, src, dst, -, -, rfl⟩ := h
      exact absurd (by rw [BioSys.setTh_th_self]) (hOpen p (.insRelLog tail src dst))
    | _ => rfl
  · obtain ⟨-, -, -, -, l, hl, rfl⟩ := h
    obtain ⟨-, -, -, rfl, rfl⟩ := Log.logWrite_ok hl
    rw [pins_snoc, hBefore]
    by_cases hb : b ∈ s.log.lh <;> simp [hb]
  · obtain ⟨-, rfl⟩ := h
    exact absurd (by rw [BioSys.setTh_th_self]) (hOpen p (.headRead true))

theorem commitOk_step (hI : BioInv n d tr s) (hX : Excl s) (h : s.Acted s' p a) :
    CommitOk (latest d (tr ++ [a])) (pins (tr ++ [a])) s' := by
  obtain ⟨hStart, hSize, hLog⟩ := BioSys.acted_log h
  have hHome := home_congr hStart hSize
  refine ⟨fun q => ?_, pinsOpen_step hI h, ?_, ?_⟩
  · by_cases hq : q = p
    · subst hq
      exact threadOk_self hI hX h
    · exact threadOk_other hI hX h hq
  · intro b hb
    rw [hHome]
    obtain hLh | ⟨r, i, b', pin, rfl⟩ | ⟨r, rfl⟩ := hLog
    · rw [hLh] at hb
      exact hI.commit.lhHome b hb
    · -- the block logged is that of a buffer of the operation
      obtain ⟨hpc, -, hHeld, hNo, l, hl, rfl⟩ := h
      obtain ⟨-, -, -, -, rfl⟩ := Log.logWrite_ok hl
      have hb' : s.log.Home b' := by
        rw [← hNo]
        exact (hI.commit.thread p).home (by simp [hpc]) hHeld
      by_cases hMem : b' ∈ s.log.lh
      · exact hI.commit.lhHome b (by simpa [hMem] using hb)
      · obtain hb | rfl : b ∈ s.log.lh ∨ b = b' := by simpa [hMem] using hb
        · exact hI.commit.lhHome b hb
        · exact hb'
    · obtain ⟨-, rfl⟩ := h
      cases hb
  · rw [hSize]
    have hFit := hI.commit.lhFit
    obtain hLh | ⟨r, i, b', pin, rfl⟩ | ⟨r, rfl⟩ := hLog
    · rwa [hLh]
    · obtain ⟨-, -, -, -, l, hl, rfl⟩ := h
      obtain ⟨-, hSpace, -, -, rfl⟩ := Log.logWrite_ok hl
      show (if b' ∈ s.log.lh then s.log.lh else s.log.lh ++ [b']).length ≤ _
      split
      · exact hFit
      · rw [List.length_append, List.length_singleton]
        omega
    · obtain ⟨-, rfl⟩ := h
      exact Nat.zero_le _

end Step

end Xv6
