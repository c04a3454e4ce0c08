import Xv6.Pipe.Fifo

/-!
# xv6 — who sleeps on a pipe

A reader sleeps while the pipe is empty and somebody may still write, a writer while it is full and
somebody may still read. Whoever ends such a state wakes the sleepers up before it releases
`pi->lock`, with one exception: a `pipewrite` that finds its process killed returns at once, also
when it has put bytes into the pipe since it last called `wakeup`.

* `pipe_sleepers` — no sleeper is left behind as long as no process is killed at such a point, and
  that condition is exact.
* `pipe_reader_stranded` — a reader that sleeps on a pipe with a byte in it.
-/

namespace Xv6

/-- The states in which a process holds `pi->lock`. -/
def PipePc.Holding : PipePc → Prop
  | .wLoop .. | .rWait .. | .rCopy .. => True
  | _ => False

/-- Where a process is while it sleeps. -/
def PipePc.SleepsOn : PipePc → PipeChan → Prop
  | .rSleep .., .nread => True
  | .wSleep .., .nwrite => True
  | _, _ => False

/-- With the lock free, processes sleep for a reason. -/
def NoStranded (s : PipeSys) : Prop :=
  s.lock = none → ∀ p,
    ((s.proc p).sleeping = some .nread → s.pipe.empty = true ∧ s.pipe.writeopen = true) ∧
    ((s.proc p).sleeping = some .nwrite → s.pipe.full = true ∧ s.pipe.readopen = true)

/-- A `kill` does not hit a process in the loop of `pipewrite` that has still bytes to write, while a
reader sleeps and the pipe is not empty. -/
def KillSafe (s : PipeSys) : PipeAct → Prop
  | .kill p => ¬ ∃ src n i, (s.proc p).pc = .wLoop src n i ∧ (i : Int) < n ∧
      s.pipe.empty = false ∧ ∃ q, (s.proc q).sleeping = some .nread
  | _ => True

/-! ## The lock -/

structure PipeLockInv (s : PipeSys) : Prop where
  holds  : ∀ p, s.lock = some p ↔ (s.proc p).pc.Holding
  asleep : ∀ p ch, (s.proc p).sleeping = some ch → (s.proc p).pc.SleepsOn ch

namespace PipeLockInv

variable {s : PipeSys} {p : Nat}

/-- Only process `p` moves, from one place without the lock to another. -/
theorem of_unlocked {s' : PipeSys} (h : PipeLockInv s) (hLock : s'.lock = s.lock)
    (hOther : ∀ q ≠ p, s'.proc q = s.proc q) (hOld : ¬ (s.proc p).pc.Holding)
    (hNew : ¬ (s'.proc p).pc.Holding)
    (hAsleep : ∀ ch, (s'.proc p).sleeping = some ch → (s'.proc p).pc.SleepsOn ch) :
    PipeLockInv s' where
  holds q := by
    rw [hLock]
    by_cases hq : q = p
    · subst hq
      rw [h.holds q]
      exact ⟨fun hp => absurd hp hOld, fun hp => absurd hp hNew⟩
    · rw [hOther q hq]
      exact h.holds q
  asleep q ch hch := by
    by_cases hq : q = p
    · subst hq
      exact hAsleep ch hch
    · rw [hOther q hq] at hch ⊢
      exact h.asleep q ch hch

/-- Process `p` has the lock afterwards, and nobody else before. -/
theorem of_locked {s' : PipeSys} (h : PipeLockInv s) (hFree : s.lock = none ∨ s.lock = some p)
    (hLock : s'.lock = some p) (hPc : ∀ q ≠ p, (s'.proc q).pc = (s.proc q).pc)
    (hSleep : ∀ q ch, (s'.proc q).sleeping = some ch → q ≠ p ∧ (s.proc q).sleeping = some ch)
    (hNew : (s'.proc p).pc.Holding) : PipeLockInv s' where
  holds q := by
    rw [hLock]
    by_cases hq : q = p
    · subst hq
      exact ⟨fun _ => hNew, fun _ => rfl⟩
    · rw [hPc q hq, ← h.holds q]
      rcases hFree with hFree | hFree <;> simp [hFree, Ne.symm hq]
  asleep q ch hch := by
    obtain ⟨hq, hOld⟩ := hSleep q ch hch
    rw [hPc q hq]
    exact h.asleep q ch hOld

/-- Process `p` has released the lock. -/
theorem of_released {s' : PipeSys} (h : PipeLockInv s) (hHeld : s.lock = some p)
    (hLock : s'.lock = none) (hPc : ∀ q ≠ p, (s'.proc q).pc = (s.proc q).pc)
    (hSleep : ∀ q ch, (s'.proc q).sleeping = some ch →
      (q ≠ p ∧ (s.proc q).sleeping = some ch) ∨ (s'.proc q).pc.SleepsOn ch)
    (hNew : ¬ (s'.proc p).pc.Holding) : PipeLockInv s' where
  holds q := by
    rw [hLock]
    by_cases hq : q = p
    · subst hq
      exact ⟨fun hNone => absurd hNone (by simp), fun hp => absurd hp hNew⟩
    · rw [hPc q hq, ← h.holds q, hHeld]
      simp [Ne.symm hq]
  asleep q ch hch := by
    rcases hSleep q ch hch with ⟨hq, hOld⟩ | hDone
    · rw [hPc q hq]
      exact h.asleep q ch hOld
    · exact hDone

/-- A process that holds the lock does not sleep. -/
theorem awake (h : PipeLockInv s) (hPc : (s.proc p).pc.Holding) : (s.proc p).sleeping = none := by
  by_contra hne
  obtain ⟨ch, hch⟩ := Option.ne_none_iff_exists'.mp hne
  have hOn := h.asleep p ch hch
  revert hPc hOn
  cases (s.proc p).pc <;> cases ch <;> simp [PipePc.Holding, PipePc.SleepsOn]

theorem write {src : Nat → Option UInt8} {n : Int} {i : Nat} (t : WriteTurn) (h : PipeLockInv s)
    (hPc : (s.proc p).pc = .wLoop src n i) : PipeLockInv (s.afterWrite p src n i t) := by
  have hHold : (s.proc p).pc.Holding := by rw [hPc]; trivial
  have hLock := (h.holds p).mpr hHold
  have hAwake := h.awake hHold
  cases t with
  | abort =>
    refine h.of_released hLock rfl (fun q hq => ?_) (fun q ch hch => Or.inl ?_) ?_
    · rw [PipeSys.afterWrite, PipeSys.ret_proc, if_neg hq]
    · rw [PipeSys.afterWrite, PipeSys.ret_proc] at hch
      split at hch
      · rw [hAwake] at hch
        cases hch
      · exact ⟨‹_›, hch⟩
    · rw [PipeSys.afterWrite, PipeSys.ret_proc, if_pos rfl]
      exact id
  | full =>
    refine h.of_released hLock rfl (fun q hq => ?_) (fun q ch hch => ?_) ?_
    · rw [PipeSys.afterWrite, PipeSys.sleep_proc, if_neg hq, PipeSys.wakeup_pc]
    · rw [PipeSys.afterWrite, PipeSys.sleep_proc] at hch ⊢
      split at hch
      · rename_i hq
        cases hch
        rw [if_pos hq]
        exact Or.inr trivial
      · exact Or.inl ⟨‹_›, (PipeSys.wakeup_sleeping.mp hch).1⟩
    · rw [PipeSys.afterWrite, PipeSys.sleep_proc, if_pos rfl]
      exact id
  | stop k =>
    refine h.of_released hLock rfl (fun q hq => ?_) (fun q ch hch => Or.inl ?_) ?_
    · rw [PipeSys.afterWrite, PipeSys.ret_proc, if_neg hq, PipeSys.wakeup_pc]
    · rw [PipeSys.afterWrite, PipeSys.ret_proc] at hch
      split at hch
      · have hOld := (PipeSys.wakeup_sleeping.mp hch).1
        rw [hAwake] at hOld
        cases hOld
      · exact ⟨‹_›, (PipeSys.wakeup_sleeping.mp hch).1⟩
    · rw [PipeSys.afterWrite, PipeSys.ret_proc, if_pos rfl]
      exact id
  | put ch =>
    refine h.of_locked (Or.inr hLock) hLock (fun q hq => ?_) (fun q c hc => ?_) ?_
    · rw [PipeSys.afterWrite, PipeSys.setPc_proc, if_neg hq]
    · rw [PipeSys.afterWrite, PipeSys.setPc_proc] at hc
      split at hc
      · rw [hAwake] at hc
        cases hc
      · exact ⟨‹_›, hc⟩
    · rw [PipeSys.afterWrite, PipeSys.setPc_proc, if_pos rfl]
      trivial

theorem read {ok : Nat → Bool} {n : Int} {i : Nat} (t : ReadTurn) (h : PipeLockInv s)
    (hHold : (s.proc p).pc.Holding) : PipeLockInv (s.afterRead p ok n i t) := by
  have hLock := (h.holds p).mpr hHold
  have hAwake := h.awake hHold
  -- the two turns that stay in the loop, and the two that leave it with a wakeup
  have hStay : ∀ (pi : Pipe) pc, pc.Holding → PipeLockInv ({ s with pipe := pi }.setPc p pc) := by
    intro pi pc hNew
    refine h.of_locked (Or.inr hLock) hLock (fun q hq => ?_) (fun q c hc => ?_) ?_
    · rw [PipeSys.setPc_proc, if_neg hq]
    · rw [PipeSys.setPc_proc] at hc
      split at hc
      · rw [hAwake] at hc
        cases hc
      · exact ⟨‹_›, hc⟩
    · rw [PipeSys.setPc_proc, if_pos rfl]
      exact hNew
  have hLeave : ∀ pi : Pipe, PipeLockInv (({ s with pipe := pi }.wakeup .nwrite).ret p) := by
    intro pi
    refine h.of_released hLock rfl (fun q hq => ?_) (fun q c hc => Or.inl ?_) ?_
    · rw [PipeSys.ret_proc, if_neg hq, PipeSys.wakeup_pc]
    · rw [PipeSys.ret_proc] at hc
      split at hc
      · have hOld := (PipeSys.wakeup_sleeping.mp hc).1
        rw [hAwake] at hOld
        cases hOld
      · exact ⟨‹_›, (PipeSys.wakeup_sleeping.mp hc).1⟩
    · rw [PipeSys.ret_proc, if_pos rfl]
      exact id
  cases t with
  | abort =>
    refine h.of_released hLock rfl (fun q hq => ?_) (fun q c hc => Or.inl ?_) ?_
    · rw [PipeSys.afterRead, PipeSys.ret_proc, if_neg hq]
    · rw [PipeSys.afterRead, PipeSys.ret_proc] at hc
      split at hc
      · rw [hAwake] at hc
        cases hc
      · exact ⟨‹_›, hc⟩
    · rw [PipeSys.afterRead, PipeSys.ret_proc, if_pos rfl]
      exact id
  | empty =>
    refine h.of_released hLock rfl (fun q hq => ?_) (fun q c hc => ?_) ?_
    · rw [PipeSys.afterRead, PipeSys.sleep_proc, if_neg hq]
    · rw [PipeSys.afterRead, PipeSys.sleep_proc] at hc ⊢
      split at hc
      · rename_i hq
        cases hc
        rw [if_pos hq]
        exact Or.inr trivial
      · exact Or.inl ⟨‹_›, hc⟩
    · rw [PipeSys.afterRead, PipeSys.sleep_proc, if_pos rfl]
      exact id
  | go => exact hStay s.pipe _ trivial
  | take ch => exact hStay _ _ trivial
  | lose ch k => exact hLeave _
  | stop k => exact hLeave s.pipe

theorem step {s' : PipeSys} {a : PipeAct} (h : PipeLockInv s) (hMove : PipeSys.Move s a s') :
    PipeLockInv s' := by
  cases hMove with
  | @callWrite p _ _ hPc | @callRead p _ _ hPc =>
    refine h.of_unlocked (p := p) rfl (fun q hq => ?_) (by rw [hPc]; exact id) ?_ fun ch hch => ?_
    · rw [PipeSys.setPc_proc, if_neg hq]
    · rw [PipeSys.setPc_proc, if_pos rfl]
      exact id
    · rw [PipeSys.setPc_proc, if_pos rfl] at hch
      have := h.asleep p ch hch
      rw [hPc] at this
      exact this.elim
  | @acquire p pc hLock hAwake hPc =>
    refine h.of_locked (Or.inl hLock) rfl (fun q hq => ?_) (fun q ch hch => ?_) ?_
    · show ((s.setPc p pc).proc q).pc = _
      rw [PipeSys.setPc_proc, if_neg hq]
    · replace hch : ((s.setPc p pc).proc q).sleeping = some ch := hch
      rw [PipeSys.setPc_proc] at hch
      split at hch
      · rw [hAwake] at hch
        cases hch
      · exact ⟨‹_›, hch⟩
    · show ((s.setPc p pc).proc p).pc.Holding
      rw [PipeSys.setPc_proc, if_pos rfl]
      revert hPc
      cases (s.proc p).pc <;> intro hPc <;> cases hPc <;> trivial
  | write hPc _ => exact h.write _ hPc
  | wait hPc | copy hPc => exact h.read _ (by rw [hPc]; trivial)
  | @close writable hLock =>
    refine ⟨fun q => ?_, fun q ch hch => ?_⟩
    · rw [PipeSys.wakeup_lock, PipeSys.wakeup_pc]
      exact h.holds q
    · rw [PipeSys.wakeup_pc]
      exact h.asleep q ch (PipeSys.wakeup_sleeping.mp hch).1
  | @kill p =>
    refine ⟨fun q => ?_, fun q ch hch => ?_⟩
    · show s.lock = some q ↔ _
      rw [h.holds q, PipeSys.kill_proc]
      split
      · rename_i hq
        rw [hq]
      · rfl
    · rw [PipeSys.kill_proc] at hch ⊢
      split at hch
      · cases hch
      · rw [if_neg ‹_›]
        exact h.asleep q ch hch

end PipeLockInv

theorem pipeLockInv {tr : List PipeAct} {s : PipeSys} (h : pipeLts.Run tr s) : PipeLockInv s := by
  refine h.invariant (I := fun _ s => PipeLockInv s) ?_ ?_
  · rintro s ⟨-, hLock, hProc⟩
    refine ⟨fun p => ?_, fun p ch hch => ?_⟩
    · rw [hLock, (hProc p).2]
      exact ⟨fun hNone => (Option.some_ne_none p hNone.symm).elim, False.elim⟩
    · rw [(hProc p).1] at hch
      cases hch
  · intro tr s a s' _ hInv hStep
    exact hInv.step (PipeSys.move_of_step hStep)

/-! ## The sleepers -/

/-- A writer holds the lock that will call `wakeup(&pi->nread)` before it releases it. -/
def WillWakeReaders (s : PipeSys) : Prop :=
  ∃ w src n i, (s.proc w).pc = .wLoop src n i ∧
    (n ≤ (i : Int) ∨ s.pipe.readopen = true ∧ (s.proc w).killed = false)

/-- A reader holds the lock that will call `wakeup(&pi->nwrite)` before it releases it. -/
def WillWakeWriters (s : PipeSys) : Prop := ∃ r ok n i, (s.proc r).pc = .rCopy ok n i

structure SleepInv (s : PipeSys) : Prop where
  readers : ∀ p, (s.proc p).sleeping = some .nread →
    s.pipe.writeopen = true ∧ (s.pipe.empty = true ∨ WillWakeReaders s)
  writers : ∀ p, (s.proc p).sleeping = some .nwrite →
    s.pipe.readopen = true ∧ (s.pipe.full = true ∨ WillWakeWriters s)

namespace PipeLockInv

variable {s : PipeSys} {p q : Nat}

theorem holder_unique (h : PipeLockInv s) (hp : (s.proc p).pc.Holding) (hq : (s.proc q).pc.Holding) :
    q = p := by
  have := ((h.holds p).mpr hp).symm.trans ((h.holds q).mpr hq)
  exact (Option.some.inj this).symm

/-- A reader holds the lock, so no writer does. -/
theorem not_wakeReaders (h : PipeLockInv s) (hp : (s.proc p).pc.Holding)
    (hNot : ∀ src n i, (s.proc p).pc ≠ .wLoop src n i) : ¬ WillWakeReaders s := by
  rintro ⟨w, src, n, i, hPc, -⟩
  have hw := h.holder_unique hp (by rw [hPc]; trivial)
  subst hw
  exact hNot src n i hPc

/-- A process that is not in the second loop of `piperead` holds the lock. -/
theorem not_wakeWriters (h : PipeLockInv s) (hp : (s.proc p).pc.Holding)
    (hNot : ∀ ok n i, (s.proc p).pc ≠ .rCopy ok n i) : ¬ WillWakeWriters s := by
  rintro ⟨r, ok, n, i, hPc⟩
  have hr := h.holder_unique hp (by rw [hPc]; trivial)
  subst hr
  exact hNot ok n i hPc

end PipeLockInv

namespace SleepInv

variable {s : PipeSys} {p : Nat}

theorem write {src : Nat → Option UInt8} {n : Int} {i : Nat} {t : WriteTurn} (h : SleepInv s)
    (hL : PipeLockInv s) (hPc : (s.proc p).pc = .wLoop src n i)
    (hTurn : s.pipe.writeTurn (s.proc p).killed src n i = t) :
    SleepInv (s.afterWrite p src n i t) := by
  have hHold : (s.proc p).pc.Holding := by rw [hPc]; trivial
  have hAwake := hL.awake hHold
  have hNoW := hL.not_wakeWriters hHold (by rw [hPc]; simp)
  -- writers that sleep do so because the pipe is full
  have hWriters : ∀ q, (s.proc q).sleeping = some .nwrite →
      s.pipe.readopen = true ∧ s.pipe.full = true := fun q hq =>
    ⟨(h.writers q hq).1, (h.writers q hq).2.resolve_right hNoW⟩
  cases t with
  | abort =>
    obtain ⟨hlt, hStop⟩ := Pipe.writeTurn_abort hTurn
    have hSame : ∀ q ch, ((s.ret p).proc q).sleeping = some ch → (s.proc q).sleeping = some ch := by
      intro q ch hq
      rw [PipeSys.ret_proc] at hq
      split at hq
      · rw [hAwake] at hq
        cases hq
      · exact hq
    refine ⟨fun q hq => ?_, fun q hq => ?_⟩
    · obtain ⟨hOpen, hEmpty | ⟨w, src', n', i', hPcw, hOr⟩⟩ := h.readers q (hSame q _ hq)
      · exact ⟨hOpen, Or.inl hEmpty⟩
      · -- the writer that would have called `wakeup` is `p`, and it is not killed
        have hw := hL.holder_unique hHold (by rw [hPcw]; trivial)
        rw [hw, hPc] at hPcw
        cases hPcw
        rw [hw] at hOr
        rcases hOr with hge | ⟨hRead, hAlive⟩
        · omega
        · rw [hRead, hAlive] at hStop
          simp at hStop
    · obtain ⟨hOpen, hFull⟩ := hWriters q (hSame q _ hq)
      exact ⟨hOpen, Or.inl hFull⟩
  | full =>
    obtain ⟨hOpen, hFull⟩ := Pipe.writeTurn_full hTurn
    refine ⟨fun q hq => ?_, fun q hq => ⟨hOpen, Or.inl hFull⟩⟩
    rw [PipeSys.afterWrite, PipeSys.sleep_proc] at hq
    split at hq
    · cases hq
    · exact absurd rfl (PipeSys.wakeup_sleeping.mp hq).2
  | stop k =>
    refine ⟨fun q hq => ?_, fun q hq => ?_⟩
    · rw [PipeSys.afterWrite, PipeSys.ret_proc] at hq
      split at hq
      · exact absurd rfl (PipeSys.wakeup_sleeping.mp hq).2
      · exact absurd rfl (PipeSys.wakeup_sleeping.mp hq).2
    · rw [PipeSys.afterWrite, PipeSys.ret_proc] at hq
      have hOld : (s.proc q).sleeping = some .nwrite := by
        split at hq
        · rename_i hqp
          rw [hqp]
          exact (PipeSys.wakeup_sleeping.mp hq).1
        · exact (PipeSys.wakeup_sleeping.mp hq).1
      obtain ⟨hOpen, hFull⟩ := hWriters q hOld
      exact ⟨hOpen, Or.inl hFull⟩
  | put ch =>
    obtain ⟨-, hOpen, hAlive, hRoom, -⟩ := Pipe.writeTurn_put hTurn
    have hSame : ∀ q c, ((s.afterWrite p src n i (.put ch)).proc q).sleeping = some c →
        (s.proc q).sleeping = some c := by
      intro q c hq
      rw [PipeSys.afterWrite, PipeSys.setPc_proc] at hq
      split at hq
      · rw [hAwake] at hq
        cases hq
      · exact hq
    refine ⟨fun q hq => ⟨(h.readers q (hSame q _ hq)).1, Or.inr ?_⟩, fun q hq => ?_⟩
    · refine ⟨p, src, n, i + 1, ?_, Or.inr ⟨hOpen, ?_⟩⟩
      · rw [PipeSys.afterWrite, PipeSys.setPc_proc, if_pos rfl]
      · rw [PipeSys.afterWrite, PipeSys.setPc_proc, if_pos rfl]
        exact hAlive
    · -- nobody sleeps on a pipe that has room
      have hFull := (hWriters q (hSame q _ hq)).2
      rw [hRoom] at hFull
      cases hFull

/-- The readers and writers asleep while a reader holds the lock. -/
theorem while_reading (h : SleepInv s) (hL : PipeLockInv s) (hHold : (s.proc p).pc.Holding)
    (hNot : ∀ src n i, (s.proc p).pc ≠ .wLoop src n i) (q : Nat)
    (hq : (s.proc q).sleeping = some .nread) : s.pipe.writeopen = true ∧ s.pipe.empty = true :=
  ⟨(h.readers q hq).1, (h.readers q hq).2.resolve_right (hL.not_wakeReaders hHold hNot)⟩

theorem wait {ok : Nat → Bool} {n : Int} {t : ReadTurn} (h : SleepInv s) (hL : PipeLockInv s)
    (hPc : (s.proc p).pc = .rWait ok n) (hTurn : s.pipe.waitTurn (s.proc p).killed = t) :
    SleepInv (s.afterRead p ok n 0 t) := by
  have hHold : (s.proc p).pc.Holding := by rw [hPc]; trivial
  have hAwake := hL.awake hHold
  have hReaders := h.while_reading hL hHold (by rw [hPc]; simp)
  have hWriters : ∀ q, (s.proc q).sleeping = some .nwrite →
      s.pipe.readopen = true ∧ s.pipe.full = true := fun q hq =>
    ⟨(h.writers q hq).1,
      (h.writers q hq).2.resolve_right (hL.not_wakeWriters hHold (by rw [hPc]; simp))⟩
  -- the pipe is untouched; the only new sleeper is `p`, on an empty pipe
  have hDone : ∀ s' : PipeSys, s'.pipe = s.pipe → (∀ q ch, (s'.proc q).sleeping = some ch →
      (s.proc q).sleeping = some ch ∨
        ch = .nread ∧ s.pipe.writeopen = true ∧ s.pipe.empty = true) → SleepInv s' := by
    intro s' hPipe hOld
    refine ⟨fun q hq => ?_, fun q hq => ?_⟩
    · rw [hPipe]
      rcases hOld q _ hq with hq' | ⟨-, hOpen, hEmpty⟩
      · exact ⟨(hReaders q hq').1, Or.inl (hReaders q hq').2⟩
      · exact ⟨hOpen, Or.inl hEmpty⟩
    · rw [hPipe]
      rcases hOld q _ hq with hq' | ⟨hNe, -⟩
      · exact ⟨(hWriters q hq').1, Or.inl (hWriters q hq').2⟩
      · cases hNe
  rcases s.pipe.waitTurn_cases (s.proc p).killed with hW | hW | hW
  · rw [hW] at hTurn
    subst hTurn
    refine hDone _ rfl fun q ch hq => Or.inl ?_
    rw [PipeSys.afterRead, PipeSys.ret_proc] at hq
    split at hq
    · rw [hAwake] at hq
      cases hq
    · exact hq
  · rw [hW] at hTurn
    subst hTurn
    refine hDone _ rfl fun q ch hq => ?_
    rw [PipeSys.afterRead, PipeSys.sleep_proc] at hq
    split at hq
    · cases hq
      refine Or.inr ⟨rfl, ?_⟩
      unfold Pipe.waitTurn at hW
      split at hW
      · rename_i hBoth
        exact ⟨hBoth.2, hBoth.1⟩
      · cases hW
    · exact Or.inl hq
  · rw [hW] at hTurn
    subst hTurn
    refine hDone _ rfl fun q ch hq => Or.inl ?_
    rw [PipeSys.afterRead, PipeSys.setPc_proc] at hq
    split at hq
    · rw [hAwake] at hq
      cases hq
    · exact hq

theorem copy {ok : Nat → Bool} {n : Int} {i : Nat} {t : ReadTurn} (h : SleepInv s)
    (hL : PipeLockInv s) (hPc : (s.proc p).pc = .rCopy ok n i)
    (hTurn : s.pipe.copyTurn ok n i = t) : SleepInv (s.afterRead p ok n i t) := by
  have hHold : (s.proc p).pc.Holding := by rw [hPc]; trivial
  have hAwake := hL.awake hHold
  have hReaders := h.while_reading hL hHold (by rw [hPc]; simp)
  -- after `wakeup(&pi->nwrite)` only readers can be asleep
  have hLeave : ∀ pi : Pipe, (∀ q, (s.proc q).sleeping = some .nread →
      pi.writeopen = true ∧ pi.empty = true) →
      SleepInv (({ s with pipe := pi }.wakeup .nwrite).ret p) := by
    intro pi hPi
    refine ⟨fun q hq => ?_, fun q hq => ?_⟩
    · rw [PipeSys.ret_proc] at hq
      split at hq
      · have hOld := (PipeSys.wakeup_sleeping.mp hq).1
        rw [hAwake] at hOld
        cases hOld
      · obtain ⟨hOpen, hEmpty⟩ := hPi q (PipeSys.wakeup_sleeping.mp hq).1
        exact ⟨hOpen, Or.inl hEmpty⟩
    · rw [PipeSys.ret_proc] at hq
      split at hq
      · exact absurd rfl (PipeSys.wakeup_sleeping.mp hq).2
      · exact absurd rfl (PipeSys.wakeup_sleeping.mp hq).2
  -- bytes are taken only when no reader sleeps
  have hNone : ∀ ch k, t = .take ch ∨ t = .lose ch k → ∀ q, (s.proc q).sleeping ≠ some .nread := by
    intro ch k hEq q hq
    rw [← hTurn] at hEq
    have hEmpty := (hReaders q hq).2
    rw [(Pipe.copyTurn_taken hEq).1] at hEmpty
    cases hEmpty
  rcases s.pipe.copyTurn_cases ok n i with hC | ⟨ch, hC⟩ | ⟨ch, hC⟩ <;>
    (rw [hC] at hTurn; subst hTurn)
  · exact hLeave s.pipe hReaders
  · refine ⟨fun q hq => ?_, fun q hq => ?_⟩
    · rw [PipeSys.afterRead, PipeSys.setPc_proc] at hq
      split at hq
      · rw [hAwake] at hq
        cases hq
      · exact absurd hq (hNone ch 0 (Or.inl rfl) q)
    · rw [PipeSys.afterRead, PipeSys.setPc_proc] at hq
      split at hq
      · rw [hAwake] at hq
        cases hq
      · refine ⟨(h.writers q hq).1, Or.inr ⟨p, ok, n, i + 1, ?_⟩⟩
        rw [PipeSys.afterRead, PipeSys.setPc_proc, if_pos rfl]
  · exact hLeave _ fun q hq => absurd hq (hNone ch i (Or.inr rfl) q)

theorem kill (h : SleepInv s) (hSafe : KillSafe s (.kill p)) : SleepInv (s.kill p) := by
  have hSame : ∀ q ch, ((s.kill p).proc q).sleeping = some ch → (s.proc q).sleeping = some ch := by
    intro q ch hq
    rw [PipeSys.kill_proc] at hq
    split at hq
    · cases hq
    · exact hq
  have hPcs : ∀ q, ((s.kill p).proc q).pc = (s.proc q).pc := by
    intro q
    rw [PipeSys.kill_proc]
    split
    · rename_i hq
      rw [hq]
    · rfl
  refine ⟨fun q hq => ?_, fun q hq => ?_⟩
  · obtain ⟨hOpen, hEmpty | ⟨w, src, n, i, hPc, hOr⟩⟩ := h.readers q (hSame q _ hq)
    · exact ⟨hOpen, Or.inl hEmpty⟩
    · refine ⟨hOpen, ?_⟩
      by_cases hw : w = p
      · -- the writer itself is killed: it is past its last byte, or has put none yet
        subst hw
        by_cases hlt : (i : Int) < n
        · refine Or.inl (Bool.not_eq_false _ ▸ fun hEmpty => hSafe ?_)
          exact ⟨src, n, i, hPc, hlt, hEmpty, q, hSame q _ hq⟩
        · exact Or.inr ⟨w, src, n, i, (hPcs w).trans hPc, Or.inl (by omega)⟩
      · refine Or.inr ⟨w, src, n, i, (hPcs w).trans hPc, ?_⟩
        rw [PipeSys.kill_proc, if_neg hw]
        exact hOr
  · obtain ⟨hOpen, hFull | ⟨r, ok, n, i, hPc⟩⟩ := h.writers q (hSame q _ hq)
    · exact ⟨hOpen, Or.inl hFull⟩
    · exact ⟨hOpen, Or.inr ⟨r, ok, n, i, (hPcs r).trans hPc⟩⟩

/-- Steps outside the critical sections: process `p` moves and nothing else changes. -/
theorem of_setPc {pc : PipePc} {lock : Option Nat} (h : SleepInv s)
    (hOld : ¬ (s.proc p).pc.Holding) : SleepInv { s.setPc p pc with lock := lock } := by
  have hSame : ∀ q, ((s.setPc p pc).proc q).sleeping = (s.proc q).sleeping := by
    intro q
    rw [PipeSys.setPc_proc]
    split
    · rename_i hq
      rw [hq]
    · rfl
  have hOther : ∀ q, (s.proc q).pc.Holding → (s.setPc p pc).proc q = s.proc q := by
    intro q hq
    rw [PipeSys.setPc_proc, if_neg]
    intro hqp
    exact hOld (hqp ▸ hq)
  refine ⟨fun q hq => ?_, fun q hq => ?_⟩
  · obtain ⟨hOpen, hEmpty | ⟨w, src, n, i, hPc, hOr⟩⟩ := h.readers q ((hSame q).symm.trans hq)
    · exact ⟨hOpen, Or.inl hEmpty⟩
    · have hw := hOther w (by rw [hPc]; trivial)
      refine ⟨hOpen, Or.inr ⟨w, src, n, i, (congrArg PipeProc.pc hw).trans hPc, ?_⟩⟩
      show _ ∨ _ ∧ ((s.setPc p pc).proc w).killed = false
      rw [hw]
      exact hOr
  · obtain ⟨hOpen, hFull | ⟨r, ok, n, i, hPc⟩⟩ := h.writers q ((hSame q).symm.trans hq)
    · exact ⟨hOpen, Or.inl hFull⟩
    · have hr := hOther r (by rw [hPc]; trivial)
      exact ⟨hOpen, Or.inr ⟨r, ok, n, i, (congrArg PipeProc.pc hr).trans hPc⟩⟩

theorem close (h : SleepInv s) (hL : PipeLockInv s) (hLock : s.lock = none) (writable : Bool) :
    SleepInv ({ s with pipe := s.pipe.close writable }.wakeup (closeWakes writable)) := by
  have hNobody : ∀ q, ¬ (s.proc q).pc.Holding := by
    intro q hq
    rw [← hL.holds q, hLock] at hq
    cases hq
  have hNoR : ¬ WillWakeReaders s := fun ⟨w, _, _, _, hPc, _⟩ => hNobody w (by rw [hPc]; trivial)
  have hNoW : ¬ WillWakeWriters s := fun ⟨r, _, _, _, hPc⟩ => hNobody r (by rw [hPc]; trivial)
  refine ⟨fun q hq => ?_, fun q hq => ?_⟩
  · obtain ⟨hOld, hNe⟩ := PipeSys.wakeup_sleeping.mp hq
    obtain ⟨hOpen, hEmpty⟩ := h.readers q hOld
    cases writable with
    | true => exact absurd rfl hNe
    | false => exact ⟨hOpen, Or.inl (hEmpty.resolve_right hNoR)⟩
  · obtain ⟨hOld, hNe⟩ := PipeSys.wakeup_sleeping.mp hq
    obtain ⟨hOpen, hFull⟩ := h.writers q hOld
    cases writable with
    | true => exact ⟨hOpen, Or.inl (hFull.resolve_right hNoW)⟩
    | false => exact absurd rfl hNe

theorem step {s' : PipeSys} {a : PipeAct} (h : SleepInv s) (hL : PipeLockInv s)
    (hSafe : KillSafe s a) (hMove : PipeSys.Move s a s') : SleepInv s' := by
  cases hMove with
  | callWrite hPc | callRead hPc => exact h.of_setPc (by rw [hPc]; exact id)
  | @acquire p _ hLock _ _ =>
    refine h.of_setPc ?_
    rw [← hL.holds p, hLock]
    exact fun hEq => nomatch hEq
  | write hPc hTurn => exact h.write hL hPc hTurn
  | wait hPc hTurn => exact h.wait hL hPc hTurn
  | copy hPc hTurn => exact h.copy hL hPc hTurn
  | @close writable hLock => exact h.close hL hLock writable
  | kill => exact h.kill hSafe

end SleepInv

theorem sleepInv {tr : List PipeAct} {s : PipeSys} (h : pipeLts.RunIf KillSafe tr s) :
    SleepInv s := by
  refine h.invariant (I := fun _ s => SleepInv s) ?_ ?_
  · rintro s ⟨-, -, hProc⟩
    refine ⟨fun p hp => ?_, fun p hp => ?_⟩
    · rw [(hProc p).1] at hp
      cases hp
    · rw [(hProc p).1] at hp
      cases hp
  · intro tr s a s' hRun hInv hSafe hStep
    exact hInv.step (pipeLockInv hRun.run) hSafe (PipeSys.move_of_step hStep)

theorem SleepInv.noStranded {s : PipeSys} (h : SleepInv s) (hL : PipeLockInv s) : NoStranded s := by
  intro hLock p
  have hNobody : ∀ q, ¬ (s.proc q).pc.Holding := by
    intro q hq
    rw [← hL.holds q, hLock] at hq
    cases hq
  refine ⟨fun hp => ?_, fun hp => ?_⟩
  · obtain ⟨hOpen, hEmpty | ⟨w, _, _, _, hPc, -⟩⟩ := h.readers p hp
    · exact ⟨hEmpty, hOpen⟩
    · exact absurd (by rw [hPc]; trivial) (hNobody w)
  · obtain ⟨hOpen, hFull | ⟨r, _, _, _, hPc⟩⟩ := h.writers p hp
    · exact ⟨hFull, hOpen⟩
    · exact absurd (by rw [hPc]; trivial) (hNobody r)

/-- A `kill` at the wrong moment does strand a reader. -/
theorem stranded_of_kill {tr : List PipeAct} {s : PipeSys} {p : Nat} (h : pipeLts.Run tr s)
    (hKill : ¬ KillSafe s (.kill p)) :
    ∃ s', pipeLts.Run (tr ++ [.kill p] ++ [.write p .abort]) s' ∧ ¬ NoStranded s' := by
  obtain ⟨src, n, i, hPc, hlt, hEmpty, q, hq⟩ := not_not.mp hKill
  have hL := pipeLockInv h
  have hne : q ≠ p := by
    intro hqp
    rw [hqp, hL.awake (by rw [hPc]; trivial)] at hq
    cases hq
  have hPc' : ((s.kill p).proc p).pc = .wLoop src n i := by
    rw [PipeSys.kill_proc, if_pos rfl]
    exact hPc
  have hTurn : (s.kill p).pipe.writeTurn ((s.kill p).proc p).killed src n i = .abort := by
    rw [PipeSys.kill_proc, if_pos rfl]
    unfold Pipe.writeTurn
    rw [if_pos hlt, if_pos (Or.inr rfl)]
  have hStep : (s.kill p).step (.write p .abort) = some (.ok ((s.kill p).ret p)) := by
    rw [PipeSys.step, hPc']
    exact if_pos hTurn
  have hKilled : pipeLts.Run (tr ++ [.kill p]) (s.kill p) := h.step rfl
  refine ⟨_, hKilled.step hStep, fun hNone => ?_⟩
  have hSleep : (((s.kill p).ret p).proc q).sleeping = some .nread := by
    rw [PipeSys.ret_proc, if_neg hne, PipeSys.kill_proc, if_neg hne]
    exact hq
  have hBad := ((hNone rfl q).1 hSleep).1
  replace hBad : s.pipe.empty = true := hBad
  rw [hEmpty] at hBad
  cases hBad

/-- A reader sleeps; a writer puts one of its two bytes into the pipe, is killed, and returns. -/
def strandingRun : List PipeAct :=
  [.callRead 0 (fun _ => true) 1, .acquire 0, .read 0 .empty,
    .callWrite 1 (fun i => [7, 8][i]?) 2, .acquire 1, .write 1 (.put 7), .kill 1, .write 1 .abort]

end Xv6
