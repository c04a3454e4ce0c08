import Xv6.Bio.Model

/-!
# xv6 — what a step of the buffer cache and log system does

`BioSys.Acted` states, action by action, the conditions under which a step succeeds and the
state it leads to; `act_ok` reads them off the step function. All invariants of `Bio/Refine.lean`
are proved from these.

`toLog` forgets buffers and disk. Every step of `BioSys` is then a step of `LogSys` or leaves it
unchanged (`toLog_step`), so what `Log/Group.lean` proves about the counter, the flag and the
header holds here too (`groupInv_toLog`).
-/

namespace Xv6

namespace BioSys

variable {s s' : BioSys} {p q i j : Nat} {t : Thread} {b : Buf}

@[simp] theorem setTh_cache : (s.setTh p t).cache = s.cache := rfl
@[simp] theorem setTh_disk : (s.setTh p t).disk = s.disk := rfl
@[simp] theorem setTh_log : (s.setTh p t).log = s.log := rfl

theorem setTh_th : (s.setTh p t).th q = if q = p then t else s.th q := by
  by_cases h : q = p <;> simp [setTh, h]

@[simp] theorem setTh_th_self : (s.setTh p t).th p = t := by simp [setTh]

@[simp] theorem setBuf_disk : (s.setBuf i b).disk = s.disk := rfl
@[simp] theorem setBuf_log : (s.setBuf i b).log = s.log := rfl
@[simp] theorem setBuf_th : (s.setBuf i b).th = s.th := rfl
@[simp] theorem setBuf_lru : (s.setBuf i b).cache.lru = s.cache.lru := rfl

theorem setBuf_buf : (s.setBuf i b).cache.buf j = if j = i then b else s.cache.buf j := by
  by_cases h : j = i <;> simp [setBuf, Bcache.set, h]

end BioSys

namespace Bcache

variable {c : Bcache} {i j : Nat} {b : Buf}

@[simp] theorem set_lru : (c.set i b).lru = c.lru := rfl

theorem set_buf : (c.set i b).buf j = if j = i then b else c.buf j := by
  by_cases h : j = i <;> simp [set, h]

theorem drop_buf : (c.drop i).buf j =
    if j = i then { c.buf i with refcnt := (c.buf i).refcnt - 1 } else c.buf j := by
  unfold drop
  dsimp only
  split <;> exact set_buf

/-- `brelse` may move the buffer in the list, but keeps its members. -/
theorem mem_drop_lru (h : i ∈ c.lru) : j ∈ (c.drop i).lru ↔ j ∈ c.lru := by
  unfold drop
  dsimp only
  split
  · show j ∈ i :: c.lru.erase i ↔ j ∈ c.lru
    rw [List.mem_cons]
    constructor
    · rintro (rfl | hj)
      · exact h
      · exact List.mem_of_mem_erase hj
    · intro hj
      by_cases hji : j = i
      · exact Or.inl hji
      · exact Or.inr ((List.mem_erase_of_ne hji).mpr hj)
  · rfl

end Bcache

namespace BioSys

/-- When action `a` of process `p` succeeds, and the state after it. -/
def Acted (s s' : BioSys) (p : Nat) : BioAct → Prop
  | .call _ => (s.th p).pc = .idle ∧ (s.th p).busy = .free ∧
      s' = s.setTh p { s.th p with pc := .waiting }
  | .sleep _ => (s.th p).pc = .waiting ∧ s.log.beginOp = none ∧ s' = s
  | .enter _ => (s.th p).pc = .waiting ∧ ∃ l, s.log.beginOp = some l ∧
      s' = { s with log := l }.setTh p { s.th p with pc := .inOp }
  | .leave _ => (s.th p).pc = .inOp ∧ (s.th p).busy = .free ∧ (s.th p).dirty = [] ∧
      ∃ l doCommit, s.log.endOp = .ok (l, doCommit) ∧
        s' = { s with log := l }.setTh p
          { s.th p with pc := if doCommit then .commitCalled else .idle }
  | .commitStart _ work => (s.th p).pc = .commitCalled ∧ work = decide (0 < s.log.lh.length) ∧
      s' = s.setTh p { s.th p with pc := .commit (if work then .logTo 0 else .ret) }
  | .clear _ => (s.th p).pc = .commit .clear ∧
      s' = { s with log := { s.log with lh := [] } }.setTh p
        { s.th p with pc := .commit (.headRead true) }
  | .commitDone _ => (s.th p).pc = .commit .ret ∧
      s' = { s with log := { s.log with committing := false } }.setTh p { s.th p with pc := .idle }
  | .bget _ b => s.mayRead (s.th p) b = true ∧ ∃ i c, s.cache.bget ROOTDEV b = some (i, c) ∧
      s' = { s with cache := c }.setTh p { s.th p with busy := .locking i b }
  | .lock _ => ∃ i b, (s.th p).busy = .locking i b ∧ (s.cache.buf i).lock = none ∧
      s' = (s.setBuf i { s.cache.buf i with lock := some p }).setTh p
        { s.th p with busy := .loading i b }
  | .load _ i b => (s.th p).busy = .loading i b ∧
      s' = (s.setBuf i { s.cache.buf i with
          valid := true
          data := if (s.cache.buf i).valid then (s.cache.buf i).data
            else s.disk (s.cache.buf i).blockno }).setTh p
        { s.th p with busy := .free, held := i :: (s.th p).held, pc := (s.th p).pc.afterRead i }
  | .modify _ i b v => (s.th p).pc = .inOp ∧ (s.th p).busy = .free ∧ i ∈ (s.th p).held ∧
      (s.cache.buf i).blockno = b ∧
      s' = (s.setBuf i { s.cache.buf i with data := v }).setTh p
        { s.th p with dirty := i :: (s.th p).dirty }
  | .logWrite _ i b pin => (s.th p).pc = .inOp ∧ (s.th p).busy = .free ∧ i ∈ (s.th p).held ∧
      (s.cache.buf i).blockno = b ∧ ∃ l, s.log.logWrite b = .ok (l, pin) ∧
        s' = { s with log := l, cache := if pin then s.cache.bpin i else s.cache }.setTh p
          { s.th p with dirty := (s.th p).dirty.filter (· != i) }
  | .unlock _ i => mayRelease (s.th p) i = true ∧ (s.cache.buf i).lock = some p ∧
      s' = (s.setBuf i { s.cache.buf i with lock := none }).setTh p
        { s.th p with held := (s.th p).held.erase i, busy := .releasing i }
  | .drop _ => ∃ i, (s.th p).busy = .releasing i ∧
      s' = { s with cache := s.cache.drop i }.setTh p
        { s.th p with busy := .free, pc := (s.th p).pc.afterRel s.log }
  | .copy _ => ∃ dst src, (s.th p).pc.copyArgs = some (dst, src) ∧
      s' = (s.setBuf dst { s.cache.buf dst with data := (s.cache.buf src).data }).setTh p
        { s.th p with pc := (s.th p).pc.after }
  | .fill _ => ∃ e hb, (s.th p).pc = .commit (.headFill e hb) ∧
      s' = (s.setBuf hb { s.cache.buf hb with
          data := fillHead (s.cache.buf hb).data s.log.lh }).setTh p
        { s.th p with pc := .commit (.headWrite e hb) }
  | .bwrite _ => ∃ i, (s.th p).pc.writeArg = some i ∧ (s.cache.buf i).lock = some p ∧
      s' = { s with
          disk := Function.update s.disk (s.cache.buf i).blockno (s.cache.buf i).data }.setTh p
        { s.th p with pc := (s.th p).pc.after }
  | .unpin _ b => ∃ tail src dst, (s.th p).pc = .commit (.insUnpin tail src dst) ∧
      (s.cache.buf dst).blockno = b ∧
      s' = { s with cache := s.cache.bunpin dst }.setTh p
        { s.th p with pc := .commit (.insRelLog tail src dst) }

theorem act_ok {s s' : BioSys} {p : Nat} {a : BioAct}
    (h : s.act p (s.th p) a = some (.ok s')) : s.Acted s' p a := by
  cases a with
  | call | sleep | commitStart =>
    simp only [act] at h
    split at h
    · rename_i hc
      cases h
      exact ⟨hc.1, hc.2, rfl⟩
    · cases h
  | enter _ =>
    simp only [act] at h
    split at h
    · rename_i hc
      split at h
      · rename_i l hl
        cases h
        exact ⟨hc, l, hl, rfl⟩
      · cases h
    · cases h
  | leave _ =>
    simp only [act] at h
    split at h
    · rename_i hc
      split at h
      · rename_i l doCommit hl
        cases h
        exact ⟨hc.1, hc.2.1, hc.2.2, l, doCommit, hl, rfl⟩
      · cases h
    · cases h
  | clear | commitDone =>
    simp only [act] at h
    split at h
    · rename_i hc
      cases h
      exact ⟨hc, rfl⟩
    · cases h
  | bget _ b =>
    simp only [act] at h
    split at h
    · rename_i hc
      split at h
      · rename_i i c hg
        cases h
        exact ⟨hc, i, c, hg, rfl⟩
      · cases h
    · cases h
  | lock _ =>
    simp only [act] at h
    split at h
    · rename_i i b hb
      split at h
      · rename_i hFree
        cases h
        exact ⟨i, b, hb, hFree, rfl⟩
      · cases h
    · cases h
  | load _ i b =>
    simp only [act] at h
    split at h
    · rename_i hb
      cases h
      exact ⟨hb, rfl⟩
    · cases h
  | modify _ i b v =>
    simp only [act] at h
    split at h
    · rename_i hc
      cases h
      exact ⟨hc.1, hc.2.1, hc.2.2.1, hc.2.2.2, rfl⟩
    · cases h
  | logWrite _ i b pin =>
    simp only [act] at h
    split at h
    · rename_i hc
      split at h
      · rename_i l pin' hl
        split at h
        · rename_i hPin
          subst hPin
          cases h
          exact ⟨hc.1, hc.2.1, hc.2.2.1, hc.2.2.2, l, hl, rfl⟩
        · cases h
      · cases h
    · cases h
  | unlock _ i =>
    simp only [act] at h
    split at h
    · rename_i hc
      split at h
      · rename_i hl
        cases h
        exact ⟨hc, hl, rfl⟩
      · cases h
    · cases h
  | drop _ =>
    simp only [act] at h
    split at h
    · rename_i i hb
      cases h
      exact ⟨i, hb, rfl⟩
    · cases h
  | copy _ =>
    simp only [act] at h
    split at h
    · rename_i dst src hArgs
      cases h
      exact ⟨dst, src, hArgs, rfl⟩
    · cases h
  | fill _ =>
    simp only [act] at h
    split at h
    · rename_i e hb hpc
      cases h
      exact ⟨e, hb, hpc, rfl⟩
    · cases h
  | bwrite _ =>
    simp only [act] at h
    split at h
    · rename_i i hArg
      split at h
      · rename_i hl
        cases h
        exact ⟨i, hArg, hl, rfl⟩
      · cases h
    · cases h
  | unpin _ b =>
    simp only [act] at h
    split at h
    · rename_i tail src dst hpc
      split at h
      · rename_i hb
        cases h
        exact ⟨tail, src, dst, hpc, hb, rfl⟩
      · cases h
    · cases h

theorem step_acted {n : Nat} {s s' : BioSys} {a : BioAct} (h : s.step n a = some (.ok s')) :
    a.proc < n ∧ s.Acted s' a.proc a := by
  unfold step at h
  split at h
  · exact ⟨‹_›, act_ok h⟩
  · cases h

end BioSys

/-! ## The log inside the system -/

namespace BioPc

/-- The same place, as `Log/Group.lean` names it. -/
def toOp : BioPc → OpPc
  | .idle => .idle
  | .waiting => .waiting
  | .inOp => .inOp
  | .commitCalled => .commitCalled
  | .commit (.headRead true) => .commitCleared
  | .commit (.headFill true _) => .commitCleared
  | .commit (.headWrite true _) => .commitCleared
  | .commit (.headRel true _) => .commitCleared
  | .commit .ret => .commitCleared
  | .commit _ => .commitRunning

theorem toOp_afterRead (pc : BioPc) (i : Nat) : (pc.afterRead i).toOp = pc.toOp := by
  cases pc with
  | commit c =>
    cases c with
    | headRead e => cases e <;> rfl
    | _ => rfl
  | _ => rfl

theorem toOp_afterRel (pc : BioPc) (l : Log) : (pc.afterRel l).toOp = pc.toOp := by
  cases pc with
  | commit c =>
    cases c with
    | logRelTo | insRelDst => simp only [afterRel]; split <;> rfl
    | headRel e hb =>
      cases e with
      | false => simp only [afterRel]; split <;> rfl
      | true => rfl
    | _ => rfl
  | _ => rfl

theorem toOp_after (pc : BioPc) : pc.after.toOp = pc.toOp := by
  cases pc with
  | commit c =>
    cases c with
    | headWrite e hb => cases e <;> rfl
    | _ => rfl
  | _ => rfl

theorem toOp_eq_inOp {pc : BioPc} : pc.toOp = .inOp ↔ pc = .inOp := by
  cases pc with
  | commit c =>
    cases c with
    | headRead e | headFill e | headWrite e | headRel e => cases e <;> simp [toOp]
    | _ => simp [toOp]
  | _ => simp [toOp]

theorem toOp_commit (c : CommitPc) :
    (BioPc.commit c).toOp = .commitRunning ∨ (BioPc.commit c).toOp = .commitCleared := by
  cases c with
  | headRead e | headFill e | headWrite e | headRel e => cases e <;> simp [toOp]
  | _ => simp [toOp]

end BioPc

/-- The log and the processes, without buffers and disk. -/
def BioSys.toLog (s : BioSys) : LogSys where
  log := s.log
  pc := fun p => (s.th p).pc.toOp

/-- The steps of `LogSys` that an action amounts to. A commit that finds an empty header
clears it in one go. -/
def BioAct.toLog : BioAct → List LogAct
  | .call p => [.call p]
  | .sleep p => [.sleep p]
  | .enter p => [.enter p]
  | .leave p => [.leave p]
  | .commitStart p true => [.commitStart p]
  | .commitStart p false => [.commitStart p, .commitClear p]
  | .clear p => [.commitClear p]
  | .commitDone p => [.commitDone p]
  | .logWrite p _ b _ => [.write p b]
  | _ => []

namespace BioSys

theorem toLog_setTh (s : BioSys) (p : Nat) (t : Thread) :
    (s.setTh p t).toLog = s.toLog.goto p t.pc.toOp := by
  unfold toLog LogSys.goto
  congr 1
  funext q
  by_cases h : q = p <;> simp [setTh, h]

theorem goto_self (s : BioSys) (p : Nat) : s.toLog.goto p (s.th p).pc.toOp = s.toLog := by
  unfold LogSys.goto
  congr 1
  exact Function.update_eq_self p s.toLog.pc

/-- A step that keeps the log and stays at the same kind of place is no step of the log. -/
theorem toLog_stutter {s s₁ : BioSys} {p start size : Nat} {t : Thread} (hLog : s₁.log = s.log)
    (hTh : s₁.th = s.th) (hPc : t.pc.toOp = (s.th p).pc.toOp) :
    (logLts start size).exec s.toLog [] = some (s₁.setTh p t).toLog := by
  have hSame : s₁.toLog = s.toLog := by
    unfold toLog
    rw [hLog, hTh]
  rw [toLog_setTh, hPc, hSame, goto_self, Lts.exec]

theorem toLog_step {s s' : BioSys} {a : BioAct} (start size : Nat)
    (h : s.Acted s' a.proc a) :
    (logLts start size).exec s.toLog a.toLog = some s'.toLog := by
  cases a with
  | call p =>
    obtain ⟨hpc, -, rfl⟩ := h
    have hFrom : s.toLog.pc p = .idle := congrArg BioPc.toOp hpc
    simp only [BioAct.toLog, Lts.exec, logLts, LogSys.step, if_pos hFrom, toLog_setTh]
    rfl
  | sleep p =>
    obtain ⟨hpc, hb, rfl⟩ := h
    have hFrom : s'.toLog.pc p = .waiting ∧ s'.toLog.log.beginOp = none :=
      ⟨congrArg BioPc.toOp hpc, hb⟩
    simp only [BioAct.toLog, Lts.exec, logLts, LogSys.step, if_pos hFrom]
  | enter p =>
    obtain ⟨hpc, l, hl, rfl⟩ := h
    have hFrom : s.toLog.pc p = .waiting := congrArg BioPc.toOp hpc
    have hBegin : s.toLog.log.beginOp = some l := hl
    simp only [BioAct.toLog, Lts.exec, logLts, LogSys.step, if_pos hFrom, hBegin, toLog_setTh]
    rfl
  | leave p =>
    obtain ⟨hpc, -, -, l, doCommit, hl, rfl⟩ := h
    have hFrom : s.toLog.pc p = .inOp := congrArg BioPc.toOp hpc
    have hEnd : s.toLog.log.endOp = .ok (l, doCommit) := hl
    simp only [BioAct.toLog, Lts.exec, logLts, LogSys.step, if_pos hFrom, hEnd, toLog_setTh]
    cases doCommit <;> rfl
  | commitStart p work =>
    obtain ⟨hpc, hWork, rfl⟩ := h
    have hFrom : s.toLog.pc p = .commitCalled := congrArg BioPc.toOp hpc
    cases work with
    | true =>
      simp only [BioAct.toLog, Lts.exec, logLts, LogSys.step, if_pos hFrom, toLog_setTh]
      rfl
    | false =>
      -- the header is empty, so clearing it changes nothing
      have hEmpty : s.log.lh = [] := by simpa using hWork
      have hRun : (s.toLog.goto p .commitRunning).pc p = .commitRunning := by
        rw [LogSys.goto_pc, if_pos rfl]
      simp only [BioAct.toLog, Lts.exec, logLts, LogSys.step, if_pos hFrom, if_pos hRun, toLog_setTh]
      congr 1
      unfold LogSys.goto toLog
      simp [BioPc.toOp, BioAct.proc, ← hEmpty]
  | clear p =>
    obtain ⟨hpc, rfl⟩ := h
    have hFrom : s.toLog.pc p = .commitRunning := congrArg BioPc.toOp hpc
    simp only [BioAct.toLog, Lts.exec, logLts, LogSys.step, if_pos hFrom, toLog_setTh]
    rfl
  | commitDone p =>
    obtain ⟨hpc, rfl⟩ := h
    have hFrom : s.toLog.pc p = .commitCleared := congrArg BioPc.toOp hpc
    simp only [BioAct.toLog, Lts.exec, logLts, LogSys.step, if_pos hFrom, toLog_setTh]
    rfl
  | logWrite p i b pin =>
    obtain ⟨hpc, -, -, -, l, hl, rfl⟩ := h
    have hFrom : s.toLog.pc p = .inOp := congrArg BioPc.toOp hpc
    have hWrite : s.toLog.log.logWrite b = .ok (l, pin) := hl
    simp only [BioAct.toLog, Lts.exec, logLts, LogSys.step, if_pos hFrom, hWrite, toLog_setTh]
    congr 1
    unfold LogSys.goto toLog
    simp [BioAct.proc]
  | bget p b =>
    obtain ⟨-, i, c, -, rfl⟩ := h
    exact toLog_stutter rfl rfl rfl
  | lock p =>
    obtain ⟨i, b, -, -, rfl⟩ := h
    exact toLog_stutter rfl rfl rfl
  | load p i b =>
    obtain ⟨-, rfl⟩ := h
    exact toLog_stutter rfl rfl (BioPc.toOp_afterRead _ _)
  | modify p i b v =>
    obtain ⟨-, -, -, -, rfl⟩ := h
    exact toLog_stutter rfl rfl rfl
  | unlock p i =>
    obtain ⟨-, -, rfl⟩ := h
    exact toLog_stutter rfl rfl rfl
  | drop p =>
    obtain ⟨i, -, rfl⟩ := h
    exact toLog_stutter rfl rfl (BioPc.toOp_afterRel _ _)
  | copy p =>
    obtain ⟨dst, src, -, rfl⟩ := h
    exact toLog_stutter rfl rfl (BioPc.toOp_after _)
  | fill p =>
    obtain ⟨e, hb, hpc, rfl⟩ := h
    refine toLog_stutter rfl rfl ?_
    rw [hpc]
    cases e <;> rfl
  | bwrite p =>
    obtain ⟨i, -, -, rfl⟩ := h
    exact toLog_stutter rfl rfl (BioPc.toOp_after _)
  | unpin p b =>
    obtain ⟨tail, src, dst, hpc, -, rfl⟩ := h
    refine toLog_stutter rfl rfl ?_
    rw [hpc]
    rfl

/-- The log part of every run is a run of `LogSys`. -/
theorem run_toLog {n start size : Nat} {d : Disk} {tr : List BioAct} {s : BioSys}
    (h : (bioLts n start size d).Run tr s) :
    (logLts start size).Run (tr.flatMap BioAct.toLog) s.toLog := by
  induction h with
  | start hInit =>
    subst hInit
    exact Lts.Run.start rfl
  | step hRun hStep ih =>
    rw [List.flatMap_append, List.flatMap_singleton]
    exact Lts.run_of_exec ih (toLog_step start size (step_acted hStep).2)

theorem groupInv_toLog {n start size : Nat} {d : Disk} {tr : List BioAct} {s : BioSys}
    (h : (bioLts n start size d).Run tr s) :
    GroupInv size (tr.flatMap BioAct.toLog) s.toLog :=
  groupInv_run (run_toLog h)

end BioSys

end Xv6
