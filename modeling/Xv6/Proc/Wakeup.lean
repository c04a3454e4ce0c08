import Xv6.Proc.Sched

/-!
# xv6 — no lost wakeup

A process that sleeps on a condition `(l, j)` which has become true is owed a wakeup by the CPU
that is still in section `l`: either `wakeup` was not yet called, or its loop has not yet come to
the process. A process counts as asleep from the moment it has released the lock of the section in
`sleep`, before its state is `SLEEPING`; it holds `p->lock` until it is. Results:

* `no_lost_wakeup` — with the lock free nobody sleeps on a true condition; what `wakeup` changes
  and whom it skips.
-/

namespace Xv6

variable {k k' : Code} {c i j l nproc p q : Nat} {me : Option Nat} {h h' : Shared} {op : KOp} {s s' : KSys}
  {b : Pcb} {ch : Option Chan} {x : SleepLock}

/-! ## Processes in the table -/

/-- The process whose state a thread is about to test. -/
def Code.found : Code → Option Nat
  | .sched2 i | .fork2 i => some i
  | _ => none

theorem Code.found_lockFree (h : k.lockFree = true) : k.found = none := by
  revert h
  cases k <;> simp [lockFree, found]

theorem Code.found_afterWake (h : k.afterWake = true) : k.found = none := by
  revert h
  cases k <;> simp [afterWake, found]

theorem Code.found_resumable (h : k.resumable = true) : k.found = none := by
  revert h
  cases k <;> simp [resumable, found]

theorem Code.found_parked {st : ProcState} (h : k.parked = some st) : k.found = none := by
  revert h
  cases k <;> simp [parked, found]

theorem ClientMove.found
    (hMove : ClientMove nproc c me h k op h' k') (hCode : k.inProc = true ∨ k.inSched = true) :
    k'.found = none := by
  cases hMove with
  | unlock => exact Code.found_lockFree (Code.lockFree_of_crit hCode)
  | wakeEnd => exact Code.found_afterWake (Code.afterWake_of_wake hCode)
  | _ => rfl

theorem ProcMove.found (hMove : ProcMove nproc c p h k op h' k') (hCode : k.inProc = true)
    (hFound : k'.found = some i) : i < nproc := by
  cases hMove with
  | forkLock hi _ => exact Option.some.inj hFound ▸ hi
  | yieldEnd =>
    rw [Code.found_lockFree (Code.inner (b := Code.inProc) hCode).1] at hFound
    cases hFound
  | client hMove =>
    rw [hMove.found (Or.inl hCode)] at hFound
    cases hFound
  | _ => cases hFound

/-- Slots outside the table are never used, but for that of the first process when the table is
empty. -/
structure RangeInv (nproc : Nat) (s : KSys) : Prop where
  found : ∀ c i, (s.code c).found = some i → i < nproc
  live  : ∀ q, (s.sh.proc q).state ≠ .unused →
    q < nproc ∨ q = initproc ∧ (s.sh.proc q).state = .runnable

theorem RangeInv.lt (h : RangeInv nproc s)
    (hUnused : (s.sh.proc q).state ≠ .unused) (hRunnable : (s.sh.proc q).state ≠ .runnable) :
    q < nproc := by
  rcases h.live q hUnused with hq | ⟨-, hq⟩
  · exact hq
  · exact absurd hq hRunnable

theorem RangeInv.step (h : RangeInv nproc s)
    (hInv : SchedInv s) (hStep : CpuStep s s' c)
    (hFound : ∀ i, (s'.code c).found = some i → i < nproc)
    (hLive : ∀ q, (s'.sh.proc q).state ≠ .unused →
      (s'.sh.proc q).state = (s.sh.proc q).state ∨ q < nproc) : RangeInv nproc s' where
  found d i hi := by
    by_cases hd : d = c
    · exact hFound i (hd ▸ hi)
    · rw [hStep.sameCode hInv hd] at hi
      exact h.found d i hi
  live q hq := by
    rcases hLive q hq with hSame | hq
    · rw [hSame] at hq ⊢
      exact h.live q hq
    · exact Or.inl hq

/-- A state that changes under a lock is that of a process in the table. -/
theorem StateEff.live (hEff : StateEff me s.sh k h) (hRange : RangeInv nproc s) (q : Nat)
    (hq : (h.proc q).state ≠ .unused) :
    (h.proc q).state = (s.sh.proc q).state ∨ q < nproc := by
  rcases hEff q with hSame | ⟨-, hChange⟩
  · exact Or.inl hSame
  · refine Or.inr ?_
    generalize hOld : (s.sh.proc q).state = st at hChange
    generalize (h.proc q).state = st' at hChange hq
    cases hChange with
    | wake | publish => exact hRange.lt (by simp [hOld]) (by simp [hOld])
    | reap | discard => exact absurd rfl hq

theorem RangeInv.move (h : RangeInv nproc s)
    (hInv : SchedInv s) (hMove : KMove nproc s c op s') : RangeInv nproc s' := by
  have hStep := hMove.cpuStep hInv
  cases hMove with
  | wrap hOn _ | pass hOn _ _ | back hOn _ =>
    refine h.step hInv hStep (fun i hi => ?_) fun q _ => Or.inl rfl
    rw [KSys.code_sched (by simpa using hOn)] at hi
    simp [Code.found] at hi
  | grab hOn _ hi₀ _ =>
    refine h.step hInv hStep (fun i hi => ?_) fun q _ => Or.inl rfl
    rw [KSys.code_sched (by simpa using hOn)] at hi
    simp only [KSys.setCpu_cpu, upd_self, Code.found, Option.some.injEq] at hi
    exact hi ▸ hi₀
  | @pick i hOn hCode _ =>
    refine h.step hInv hStep (fun j hj => ?_) fun q _ => ?_
    · rw [KSys.code_sched (by simpa using hOn)] at hj
      simp [Code.found] at hj
    · by_cases hq : q = i
      · refine Or.inr (hq ▸ h.found c i ?_)
        rw [KSys.code_sched hOn, hCode]
        rfl
      · exact Or.inl (by simp [hq])
  | @resume i hOn hCode =>
    refine h.step hInv hStep (fun j hj => ?_) fun q _ => Or.inl rfl
    rw [KSys.code_proc (p := i) (by simp)] at hj
    rw [KSys.setTh_th, upd_self, Code.found_resumable (hInv.about hOn hCode).2.2] at hj
    cases hj
  | irq hOn hMove =>
    refine h.step hInv hStep (fun i hi => ?_)
      ((hMove.eff (Or.inr (hInv.codeS c)) none).state.live h)
    rw [KSys.code_sched (by simpa using hOn)] at hi
    simp [hMove.found (Or.inr (hInv.codeS c))] at hi
  | exit hOn hSw _ _ =>
    refine h.step hInv hStep (fun i hi => ?_) fun q _ => Or.inl rfl
    rw [KSys.code_proc (by simpa using hOn)] at hi
    simp [Code.found] at hi
  | @alloc p i hOn hSw hCode hState =>
    refine h.step hInv hStep (fun j hj => ?_) fun q _ => ?_
    · rw [KSys.code_proc (s := s.allocated p i) hOn] at hj
      simp [KSys.allocated, Code.found] at hj
    · by_cases hq : q = i
      · refine Or.inr (hq ▸ h.found c i ?_)
        rw [KSys.code_proc hOn, hCode]
        rfl
      · exact Or.inl (by simp [KSys.allocated, hq])
  | @sched p _ _ k hOn hSw hMove _ _ =>
    obtain ⟨-, -, -, ⟨b, hst, hPark⟩, -⟩ := hMove.eff (hInv.codeP p)
    refine h.step hInv hStep (fun j hj => ?_) fun q _ => ?_
    · rw [KSys.code_proc (by simpa using hOn)] at hj
      simp [Code.found_parked hPark] at hj
    · by_cases hq : q = p
      · have hRun := (hInv.engaged_run hOn hSw).1
        exact Or.inr (hq ▸ h.lt (by simp [hRun]) (by simp [hRun]))
      · exact Or.inl (by simp [hst, hq])
  | @proc p _ _ _ hOn hSw hMove =>
    refine h.step hInv hStep (fun i hi => ?_)
      ((hMove.eff (hInv.codeP p) (hInv.kid p)).state.live h)
    rw [KSys.code_proc (p := p) (by simpa using hOn), KSys.setTh_th, upd_self] at hi
    exact hMove.found (hInv.codeP p) hi
  | @save p hOn hSw =>
    refine h.step hInv hStep (fun i hi => ?_) fun q _ => Or.inl rfl
    rw [KSys.code_proc (p := p) (by simpa using hOn), KSys.setTh_th, upd_self,
      Code.found_parked (hInv.engaged_switch hOn (by simp [hSw])).1] at hi
    cases hi
  | leave hOn hSw =>
    refine h.step hInv hStep (fun i hi => ?_) fun q _ => Or.inl rfl
    rw [KSys.code_sched (by simp)] at hi
    simp [(hInv.engaged_switch hOn (by simp [hSw])).2, Code.found] at hi

theorem rangeInv_initial (nproc : Nat) (cond : Nat × Nat → Bool) :
    RangeInv nproc (KSys.initial cond) where
  found _ _ := nofun
  live q hq := by
    by_cases hi : q = initproc
    · exact Or.inr ⟨hi, by simp [hi, KSys.initial]⟩
    · exact absurd (by simp [hi, KSys.initial, Pcb.free]) hq

theorem rangeInv_run {tr : List (Nat × KOp)} (h : (kLts nproc).Run tr s) :
    RangeInv nproc s :=
  h.invariant (I := fun _ s => RangeInv nproc s)
    (by rintro _ ⟨cond, rfl⟩; exact rangeInv_initial nproc cond)
    (fun _ _ _ _ hRun hRange hStep => hRange.move (schedInv_run hRun) (kMove_of_step hStep))

/-! ## Sections, sleepers and pending wakeups -/

namespace Code

/-- The section a thread is in. -/
def sect : Code → Option Nat
  | .crit l _ _ | .wake _ _ _ (.crit l _ _) | .sleep1 (.lk l _) | .sleep2 (.lk l _) => some l
  | _ => none

/-- A thread in section `l` will come to process `q` in a `wakeup` for condition `(l, j)`. -/
def owes (l j q : Nat) : Code → Prop
  | .crit l' d _ => l' = l ∧ j ∈ d
  | .wake ch i _ (.crit l' d _) => l' = l ∧ (j ∈ d ∨ ch = some (.obj l j) ∧ i ≤ q)
  | _ => False

/-- A thread has found condition `(l, j)` false and still holds the lock. -/
def tests (l j : Nat) : Code → Prop
  | .sleep1 x | .sleep2 x => x = .lk l j
  | _ => False

theorem sect_lockFree (h : k.lockFree = true) : k.sect = none := by
  revert h
  cases k <;> simp [lockFree, sect]

theorem sect_tests (h : k.tests l j) : k.sect = some l := by
  cases k with
  | sleep1 | sleep2 =>
    cases h
    rfl
  | _ => cases h

theorem sect_owes (h : k.owes l j q) : k.sect = some l := by
  cases k with
  | crit => rw [sect, h.1]
  | wake ch i held k =>
    cases k with
    | crit => rw [sect, h.1]
    | _ => cases h
  | _ => cases h

/-- A thread outside of all sections owes nothing. -/
theorem not_owes (h : k.sect = none) : ¬ k.owes l j q := fun hOwes => by
  rw [sect_owes hOwes] at h
  cases h

theorem not_tests (h : k.sect = none) : ¬ k.tests l j := fun hTests => by
  rw [sect_tests hTests] at h
  cases h

theorem sect_resumable (h : k.resumable = true) : k.sect = none := by
  revert h
  cases k <;> simp [resumable, sect]

theorem sect_parked {st : ProcState} (h : k.parked = some st) : k.sect = none := by
  revert h
  cases k <;> simp [parked, sect]

end Code

/-- The effect of a thread on sections, conditions and sleepers. -/
structure WakeEff (nproc c : Nat) (me : Option Nat) (h : Shared) (k : Code) (h' : Shared)
    (k' : Code) : Prop where
  lk     : LockEff c h.lk k.sect h'.lk k'.sect
  cond   : ∀ l j, h'.cond (l, j) = h.cond (l, j) ∨
    k.sect = some l ∧ (h'.cond (l, j) = true → ∀ q, k'.owes l j q)
  asleep : ∀ q, (h'.proc q).state = .sleeping →
    (h.proc q).state = .sleeping ∧ (h'.proc q).chan = (h.proc q).chan
  owes   : ∀ l j q, k.owes l j q → k'.owes l j q ∨ h'.cond (l, j) = false ∨ nproc ≤ q ∨
    me = some q ∨ (∀ x, k.plock x = some q) ∧
      ¬ ((h'.proc q).state = .sleeping ∧ (h'.proc q).chan = some (.obj l j))
  tests  : ∀ l j, k'.tests l j → h'.cond = h.cond ∧ (k.tests l j ∨ h.cond (l, j) = false)
  sleeps : ∀ l j, k' = .sleep3 (.lk l j) → h'.cond = h.cond ∧ k.tests l j

/-- A thread that is in no section before the step, and does not enter `sleep` for a condition. -/
theorem WakeEff.quiet (hLk : LockEff c h.lk k.sect h'.lk k'.sect) (hCond : h'.cond = h.cond)
    (hAsleep : ∀ q, (h'.proc q).state = .sleeping →
      (h.proc q).state = .sleeping ∧ (h'.proc q).chan = (h.proc q).chan)
    (hOwes : ∀ l j q, ¬ k.owes l j q) (hTests : ∀ l j, ¬ k'.tests l j)
    (hSleeps : ∀ l j, k' ≠ .sleep3 (.lk l j)) : WakeEff nproc c me h k h' k' where
  lk := hLk
  cond l j := Or.inl (by rw [hCond])
  asleep := hAsleep
  owes l j q hk := absurd hk (hOwes l j q)
  tests l j hk := absurd hk (hTests l j)
  sleeps l j hk := absurd hk (hSleeps l j)

/-- Nobody falls asleep when processes do not change. -/
theorem asleep_refl (hProc : h'.proc = h.proc) (q : Nat)
    (hq : (h'.proc q).state = .sleeping) :
    (h.proc q).state = .sleeping ∧ (h'.proc q).chan = (h.proc q).chan := by
  rw [hProc] at hq ⊢
  exact ⟨hq, rfl⟩

theorem asleep_one (hProc : h'.proc = upd h.proc i b)
    (hb : b.state = .sleeping → (h.proc i).state = .sleeping ∧ b.chan = (h.proc i).chan) (q : Nat)
    (hq : (h'.proc q).state = .sleeping) :
    (h.proc q).state = .sleeping ∧ (h'.proc q).chan = (h.proc q).chan := by
  rw [hProc] at hq ⊢
  by_cases hqi : q = i
  · subst hqi
    rw [upd_self] at hq ⊢
    exact hb hq
  · rw [upd_of_ne hqi] at hq ⊢
    exact ⟨hq, rfl⟩

theorem Pcb.wakeup_asleep (h : (b.wakeup ch).state = .sleeping) :
    b.state = .sleeping ∧ (b.wakeup ch).chan = b.chan := by
  unfold Pcb.wakeup at h ⊢
  split at h
  · cases h
  · rename_i hNot
    rw [if_neg hNot]
    exact ⟨h, rfl⟩

theorem Pcb.wakeup_chan (h : (b.wakeup ch).state = .sleeping) :
    (b.wakeup ch).chan ≠ ch := by
  intro hChan
  obtain ⟨hState, hSame⟩ := Pcb.wakeup_asleep h
  unfold Pcb.wakeup at h
  rw [if_pos ⟨hState, hSame.symm.trans hChan⟩] at h
  cases h

theorem Pcb.kill_asleep (h : b.kill.state = .sleeping) :
    b.state = .sleeping ∧ b.kill.chan = b.chan := by
  unfold Pcb.kill at h ⊢
  split at h
  · cases h
  · exact absurd h ‹_›

theorem ClientMove.wakeEff
    (hMove : ClientMove nproc c me h k op h' k') (hCode : k.inProc = true ∨ k.inSched = true) :
    WakeEff nproc c me h k h' k' := by
  cases hMove with
  | @set l j d b k =>
    refine ⟨.keep rfl rfl, fun l' j' => ?_, asleep_refl rfl, fun l' j' q hk => ?_, fun _ _ => False.elim, fun _ _ => Code.noConfusion⟩
    · by_cases hlj : (l', j') = (l, j)
      · refine Or.inr ?_
        cases hlj
        refine ⟨rfl, fun hTrue q => ⟨rfl, ?_⟩⟩
        simp only [upd_self] at hTrue
        simp [hTrue]
      · exact Or.inl (by simp [hlj])
    · obtain ⟨rfl, hMem⟩ := hk
      cases b with
      | true => exact Or.inl ⟨rfl, List.mem_cons_of_mem _ hMem⟩
      | false =>
        by_cases hj : j' = j
        · exact Or.inr (Or.inl (by simp [hj]))
        · exact Or.inl ⟨rfl, by simp [hMem, hj]⟩
  | @wakeup l j d k =>
    refine ⟨.keep rfl rfl, fun _ _ => Or.inl rfl, asleep_refl rfl, fun l' j' q hk => Or.inl ?_, fun _ _ => False.elim,
      fun _ _ => Code.noConfusion⟩
    obtain ⟨rfl, hMem⟩ := hk
    by_cases hj : j' = j
    · exact ⟨rfl, Or.inr ⟨by rw [hj], Nat.zero_le q⟩⟩
    · exact ⟨rfl, Or.inl (by simp [hMem, hj])⟩
  | @unlock l =>
    have hk := Code.lockFree_of_crit hCode
    have hSect := Code.sect_lockFree hk
    refine .quiet (.release rfl rfl hSect) rfl (asleep_refl rfl) (fun _ _ _ h => ?_)
      (fun _ _ => Code.not_tests hSect) fun l j h => ?_
    · cases h.2
    · rw [h] at hk
      cases hk
  | @wakeEnd ch i _ hEnd =>
    have hk := Code.afterWake_of_wake hCode
    cases k' with
    | crit l d k =>
      refine ⟨.keep rfl rfl, fun _ _ => Or.inl rfl, asleep_refl rfl, fun l j q hk => ?_, fun _ _ => False.elim, fun _ _ => Code.noConfusion⟩
      obtain ⟨rfl, hMem | ⟨-, hi⟩⟩ := hk
      · exact Or.inl ⟨rfl, hMem⟩
      · exact Or.inr (Or.inr (Or.inl (hEnd.trans hi)))
    | exit2 | exit3 =>
      refine .quiet (.keep rfl rfl) rfl (asleep_refl rfl) ?_ ?_ fun _ _ => Code.noConfusion
      · exact fun _ _ _ => id
      · exact fun _ _ => id
    | _ => cases hk
  | @wakeSkip ch i k hi hMe =>
    refine ⟨.keep rfl ?_, fun _ _ => Or.inl rfl, asleep_refl rfl, fun l j q hk => ?_, fun _ _ => False.elim, fun _ _ => Code.noConfusion⟩
    · cases k <;> rfl
    · cases k with
      | crit l' d k =>
        obtain ⟨rfl, hMem | ⟨hCh, hiq⟩⟩ := hk
        · exact Or.inl ⟨rfl, Or.inl hMem⟩
        · rcases Nat.lt_or_eq_of_le hiq with hlt | rfl
          · exact Or.inl ⟨rfl, Or.inr ⟨hCh, hlt⟩⟩
          · exact Or.inr (Or.inr (Or.inr (Or.inl hMe)))
      | _ => cases hk
  | @wakeLock ch i k hi hMe hFree =>
    refine ⟨.keep rfl ?_, fun _ _ => Or.inl rfl, asleep_refl rfl, fun l j q hk => Or.inl ?_, fun _ _ => False.elim,
      fun _ _ => Code.noConfusion⟩
    · cases k <;> rfl
    · cases k with
      | crit l' d k => exact hk
      | _ => cases hk
  | @wakeTest ch i k =>
    refine ⟨.keep rfl ?_, fun _ _ => Or.inl rfl, asleep_one rfl Pcb.wakeup_asleep,
      fun l j q hk => ?_, fun _ _ => False.elim, fun _ _ => Code.noConfusion⟩
    · cases k <;> rfl
    · cases k with
      | crit l' d k =>
        obtain ⟨rfl, hMem | ⟨hCh, hiq⟩⟩ := hk
        · exact Or.inl ⟨rfl, Or.inl hMem⟩
        · rcases Nat.lt_or_eq_of_le hiq with hlt | rfl
          · exact Or.inl ⟨rfl, Or.inr ⟨hCh, hlt⟩⟩
          · refine Or.inr (Or.inr (Or.inr (Or.inr ⟨fun _ => rfl, fun hWaits => ?_⟩)))
            obtain ⟨hState, hChan⟩ := hWaits
            simp only [Shared.unlockP_proc, Shared.setProc_proc, upd_self] at hState hChan
            exact Pcb.wakeup_chan hState (hChan.trans hCh.symm)
      | _ => cases hk
  | lock hk hFree =>
    have hSect := Code.sect_lockFree hk
    exact .quiet (.acquire hFree hSect rfl rfl) rfl (asleep_refl rfl) (fun _ _ _ => Code.not_owes hSect)
      (fun _ _ h => by cases h) fun _ _ h => by cases h

theorem ProcMove.wakeEff (hMove : ProcMove nproc c p h k op h' k') (hCode : k.inProc = true)
    (hState : (h.proc p).state = .running) : WakeEff nproc c (some p) h k h' k' := by
  cases hMove with
  | sleep hCond =>
    refine ⟨.keep rfl rfl, fun _ _ => Or.inl rfl, asleep_refl rfl, fun _ _ _ hk => ?_,
      fun l' j' hk => ⟨rfl, Or.inr ?_⟩, nofun⟩
    · cases hk.2
    · cases hk
      exact hCond
  | @sleepLock x _ =>
    refine ⟨.keep rfl ?_, fun _ _ => Or.inl rfl, asleep_refl rfl, fun _ _ _ => False.elim,
      fun l j hk => ⟨rfl, Or.inl hk⟩, nofun⟩
    cases x <;> rfl
  | @sleepRelease x =>
    refine ⟨?_, fun _ _ => Or.inl ?_, asleep_refl ?_, fun _ _ _ => False.elim, nofun, fun l j hk => ?_⟩
    · cases x with
      | lk l j => exact .release rfl rfl rfl
      | wait => exact .keep rfl rfl
    · cases x <;> rfl
    · cases x <;> rfl
    · cases hk
      exact ⟨rfl, rfl⟩
  | sleepTidy =>
    refine .quiet (.keep rfl rfl) rfl (asleep_one rfl fun hs => ?_) (fun _ _ _ => id) nofun nofun
    rw [hState] at hs
    cases hs
  | sleepRelock hFree =>
    exact .quiet (.acquire hFree rfl rfl rfl) rfl (asleep_refl rfl) (fun _ _ _ => id) nofun nofun
  | yield hk =>
    exact .quiet (.keep rfl (Code.sect_lockFree hk).symm) rfl (asleep_refl rfl)
      (fun _ _ _ => Code.not_owes (Code.sect_lockFree hk)) nofun nofun
  | yieldEnd =>
    have hk := (Code.inner (b := Code.inProc) hCode).1
    refine .quiet (.keep rfl (Code.sect_lockFree hk)) rfl (asleep_refl rfl) (fun _ _ _ => id)
      (fun _ _ => Code.not_tests (Code.sect_lockFree hk)) fun l j h => ?_
    rw [h] at hk
    cases hk
  | killHit =>
    exact .quiet (.keep rfl rfl) rfl (asleep_one rfl Pcb.kill_asleep) (fun _ _ _ => id) nofun nofun
  | forkFail | waitDeliver | forkDone =>
    exact .quiet (.keep rfl rfl) rfl (asleep_one rfl nofun) (fun _ _ _ => id) nofun nofun
  | forkParent | exitReparent =>
    exact .quiet (.keep rfl rfl) rfl (asleep_one rfl fun hState => ⟨hState, rfl⟩) (fun _ _ _ => id)
      nofun nofun
  | client hMove => exact hMove.wakeEff (Or.inl hCode)
  | _ => exact .quiet (.keep rfl rfl) rfl (asleep_refl rfl) (fun _ _ _ => id) nofun nofun

/-! ## The invariant -/

/-- Process `q` sleeps on the channel that goes with `x`, or has released the lock and is about
to. -/
def KSys.Asleep (s : KSys) (x : SleepLock) (q : Nat) : Prop :=
  (s.sh.proc q).state = .sleeping ∧ (s.sh.proc q).chan = some (x.chan q) ∨
    (s.th q).sw = .run ∧ (s.th q).code = .sleep3 x

structure WakeInv (s : KSys) : Prop where
  lk     : ∀ l c, s.sh.lk l = some c ↔ (s.code c).sect = some l
  tested : ∀ c l j, (s.code c).tests l j → s.sh.cond (l, j) = false
  owed   : ∀ l j q, s.sh.cond (l, j) = true → s.Asleep (.lk l j) q → ∃ c, (s.code c).owes l j q

theorem WakeInv.step (h : WakeInv s) (hInv : SchedInv s)
    (hStep : CpuStep s s' c)
    (hLk : LockEff c s.sh.lk (s.code c).sect s'.sh.lk (s'.code c).sect)
    (hCond : ∀ l j, s'.sh.cond (l, j) = s.sh.cond (l, j) ∨
      (s.code c).sect = some l ∧ (s'.sh.cond (l, j) = true → ∀ q, (s'.code c).owes l j q))
    (hTests : ∀ l j, (s'.code c).tests l j → s'.sh.cond (l, j) = false)
    (hAsleep : ∀ l j q, s'.sh.cond (l, j) = true → s'.Asleep (.lk l j) q → s.Asleep (.lk l j) q)
    (hOwes : ∀ l j q, s'.sh.cond (l, j) = true → s'.Asleep (.lk l j) q → (s.code c).owes l j q →
      (s'.code c).owes l j q) : WakeInv s' where
  lk := hLk.agree (f := fun d => (s.code d).sect) h.lk fun d hd => by
    rw [hStep.sameCode hInv hd]
  tested d l j hd := by
    by_cases hdc : d = c
    · exact hTests l j (hdc ▸ hd)
    · rw [hStep.sameCode hInv hdc] at hd
      rcases hCond l j with hSame | ⟨hSect, -⟩
      · rw [hSame]
        exact h.tested d l j hd
      · have hEq := (h.lk l d).mpr (Code.sect_tests hd)
        rw [(h.lk l c).mpr hSect] at hEq
        exact absurd (Option.some.inj hEq).symm hdc
  owed l j q hTrue hq := by
    rcases hCond l j with hSame | ⟨-, hOwed⟩
    · obtain ⟨d, hd⟩ := h.owed l j q (hSame ▸ hTrue) (hAsleep l j q hTrue hq)
      by_cases hdc : d = c
      · exact ⟨c, hOwes l j q hTrue hq (hdc ▸ hd)⟩
      · exact ⟨d, by rwa [hStep.sameCode hInv hdc]⟩
    · exact ⟨c, hOwed hTrue q⟩

/-- A step between places outside of all sections. -/
theorem WakeInv.quiet (h : WakeInv s) (hInv : SchedInv s)
    (hStep : CpuStep s s' c) (hLk : s'.sh.lk = s.sh.lk) (hCond : s'.sh.cond = s.sh.cond)
    (hOld : (s.code c).sect = none) (hNew : (s'.code c).sect = none)
    (hAsleep : ∀ l j q, s'.Asleep (.lk l j) q → s.Asleep (.lk l j) q) : WakeInv s' :=
  h.step hInv hStep (.keep hLk (hNew.trans hOld.symm)) (fun _ _ => Or.inl (by rw [hCond]))
    (fun _ _ hTests => absurd hTests (Code.not_tests hNew)) (fun l j q _ => hAsleep l j q)
    (fun _ _ _ _ _ hOwes => absurd hOwes (Code.not_owes hOld))

/-- Whose thread runs is on some CPU. -/
theorem SchedInv.on_of_run (hInv : SchedInv s) (hSw : (s.th q).sw = .run) :
    ∃ d, (s.cpu d).on = some q ∧ (s.sh.proc q).state = .running := by
  by_cases hNone : ∀ d, (s.cpu d).proc ≠ some q
  · have hOff := (hInv.rest q hNone).sw
    rw [hSw] at hOff
    cases hOff
  · obtain ⟨d, hd⟩ := not_forall.mp hNone
    cases hInv.engaged d q (not_not.mp hd) with
    | about _ _ h | returned _ _ h | switching _ _ h => simp [hSw] at h
    | runs hOn _ _ hState => exact ⟨d, hOn, hState⟩

theorem KSys.Asleep.lt (h : s.Asleep x q)
    (hInv : SchedInv s) (hRange : RangeInv nproc s) : q < nproc := by
  rcases h with ⟨hState, -⟩ | ⟨hSw, -⟩
  · exact hRange.lt (by simp [hState]) (by simp [hState])
  · obtain ⟨_, -, hState⟩ := hInv.on_of_run hSw
    exact hRange.lt (by simp [hState]) (by simp [hState])

/-- A process about to sleep holds its own lock, so nobody else does. -/
theorem SchedInv.not_held_of_sleep3 (hInv : SchedInv s)
    (hSw : (s.th q).sw = .run) (hCode : (s.th q).code = .sleep3 x) (hHeld : s.held c = some q) :
    (s.cpu c).on = some q := by
  obtain ⟨d, hOn, -⟩ := hInv.on_of_run hSw
  have hd : s.held d = some q := by rw [KSys.held_proc hOn, hCode]; rfl
  have hEq := (hInv.locks q d).mpr hd
  rw [(hInv.locks q c).mpr hHeld] at hEq
  rwa [Option.some.inj hEq]

/-- A process about to call `sched` does nothing else. -/
theorem ProcMove.not_sleep3 (hMove : ProcMove nproc c p h k op h' k') : k ≠ .sleep3 x := by
  rintro rfl
  cases hMove with
  | yield hk => cases hk
  | client hMove =>
    cases hMove with
    | lock hk => cases hk

/-- Who is asleep after a step of the thread of `p` was so before, unless `p` has just released the
lock. -/
theorem KSys.Asleep.of_run (hq : ({ s with sh := h }.setTh p { s.th p with code := k }).Asleep x q)
    (hAsleep : (h.proc q).state = .sleeping →
      (s.sh.proc q).state = .sleeping ∧ (h.proc q).chan = (s.sh.proc q).chan) :
    s.Asleep x q ∨ q = p ∧ k = .sleep3 x := by
  rcases hq with ⟨hState, hChan⟩ | ⟨hRun, hCode⟩
  · obtain ⟨hOld, hSame⟩ := hAsleep hState
    exact Or.inl (Or.inl ⟨hOld, hSame.symm.trans hChan⟩)
  · by_cases hqp : q = p
    · refine Or.inr ⟨hqp, ?_⟩
      simpa [hqp] using hCode
    · simp only [KSys.setTh_th, upd_of_ne hqp] at hRun hCode
      exact Or.inl (Or.inr ⟨hRun, hCode⟩)

/-- The scheduler thread of CPU `c` goes on in an interrupt handler. -/
theorem WakeInv.irq (hWake : WakeInv s) (hInv : SchedInv s) (hRange : RangeInv nproc s)
    (hOn : (s.cpu c).on = none)
    (hMove : ClientMove nproc c (s.cpu c).proc s.sh (s.cpu c).sched op h k) :
    WakeInv ({ s with sh := h }.setCpu c { s.cpu c with sched := k }) := by
  have hEff := hMove.wakeEff (Or.inr (hInv.codeS c))
  have hNone : (s.cpu c).proc = none := (hInv.chosen c).trans (hMove.chosen (hInv.codeS c)).1
  have hOld := KSys.code_sched hOn
  have hNew : ({ s with sh := h }.setCpu c { s.cpu c with sched := k }).code c = k := by
    rw [KSys.code_sched (by simpa using hOn)]
    simp
  have hAsleep : ∀ l j q, ({ s with sh := h }.setCpu c { s.cpu c with sched := k }).Asleep (.lk l j) q →
      s.Asleep (.lk l j) q := by
    rintro l j q (⟨hState, hChan⟩ | hRun)
    · obtain ⟨hOldState, hSame⟩ := hEff.asleep q hState
      exact Or.inl ⟨hOldState, hSame.symm.trans hChan⟩
    · exact Or.inr hRun
  refine hWake.step hInv (CpuStep.irq hInv hOn hMove) ?_ ?_ ?_ (fun l j q _ => hAsleep l j q) ?_
  · rw [hOld, hNew]
    exact hEff.lk
  · rw [hOld, hNew]
    exact hEff.cond
  · rw [hNew]
    intro l j hTests
    obtain ⟨hSame, hTested | hFalse⟩ := hEff.tests l j hTests
    · exact (congrFun hSame _).trans (hWake.tested c l j (by rwa [hOld]))
    · exact (congrFun hSame _).trans hFalse
  · rw [hOld, hNew]
    intro l j q hTrue hq hOwes
    rcases hEff.owes l j q hOwes with hOwes | hFalse | hEnd | hMe | ⟨hLock, hNot⟩
    · exact hOwes
    · rw [KSys.setCpu_sh, hFalse] at hTrue
      cases hTrue
    · exact absurd ((hAsleep l j q hq).lt hInv hRange) (by omega)
    · rw [hNone] at hMe
      cases hMe
    · rcases hq with hq | ⟨hSw, hCode⟩
      · exact absurd hq hNot
      · have hSelf := hInv.not_held_of_sleep3 hSw hCode ((KSys.held_sched hOn).trans (hLock none))
        rw [hOn] at hSelf
        cases hSelf

/-- The thread of process `p` goes on. -/
theorem WakeInv.run (hWake : WakeInv s) (hInv : SchedInv s) (hRange : RangeInv nproc s)
    (hOn : (s.cpu c).on = some p) (hSw : (s.th p).sw = .run)
    (hMove : ProcMove nproc c p s.sh (s.th p).code op h k) :
    WakeInv ({ s with sh := h }.setTh p { s.th p with code := k }) := by
  have hRunning := (hInv.engaged_run hOn hSw).1
  have hEff := hMove.wakeEff (hInv.codeP p) hRunning
  have hOld := KSys.code_proc hOn
  have hNew : ({ s with sh := h }.setTh p { s.th p with code := k }).code c = k := by
    rw [KSys.code_proc (p := p) (by simpa using hOn)]
    simp
  -- a process that has just released the lock found the condition false under it
  have hAsleep : ∀ l j q, h.cond (l, j) = true →
      ({ s with sh := h }.setTh p { s.th p with code := k }).Asleep (.lk l j) q →
      s.Asleep (.lk l j) q ∧ q ≠ p := by
    intro l j q hTrue hq
    rcases hq.of_run (hEff.asleep q) with hOldq | ⟨-, hk⟩
    · refine ⟨hOldq, fun hqp => ?_⟩
      subst hqp
      rcases hOldq with ⟨hSleep, -⟩ | ⟨-, hCode⟩
      · simp [hRunning] at hSleep
      · exact hMove.not_sleep3 hCode
    · obtain ⟨hSame, hTests⟩ := hEff.sleeps l j hk
      rw [hSame, hWake.tested c l j (by rwa [hOld])] at hTrue
      cases hTrue
  have hStep := CpuStep.run hInv hOn hSw (hMove.eff (hInv.codeP p) (hInv.kid p))
    (hMove.code (hInv.codeP p))
  refine hWake.step hInv hStep ?_ ?_ ?_ (fun l j q hTrue hq => (hAsleep l j q hTrue hq).1) ?_
  · rw [hOld, hNew]
    exact hEff.lk
  · rw [hOld, hNew]
    exact hEff.cond
  · rw [hNew]
    intro l j hTests
    obtain ⟨hSame, hTested | hFalse⟩ := hEff.tests l j hTests
    · exact (congrFun hSame _).trans (hWake.tested c l j (by rwa [hOld]))
    · exact (congrFun hSame _).trans hFalse
  · rw [hOld, hNew]
    intro l j q hTrue hq hOwes
    obtain ⟨hOldq, hqp⟩ := hAsleep l j q hTrue hq
    rcases hEff.owes l j q hOwes with hOwes | hFalse | hEnd | hMe | ⟨hLock, hNot⟩
    · exact hOwes
    · rw [KSys.setTh_sh, hFalse] at hTrue
      cases hTrue
    · exact absurd (hOldq.lt hInv hRange) (by omega)
    · exact absurd (Option.some.inj hMe).symm hqp
    · rcases hq with hq | ⟨hSw, hCode⟩
      · exact absurd hq hNot
      · simp only [KSys.setTh_th, upd_of_ne hqp] at hSw hCode
        have hSelf := hInv.not_held_of_sleep3 hSw hCode ((KSys.held_proc hOn).trans (hLock _))
        rw [hOn] at hSelf
        exact absurd (Option.some.inj hSelf).symm hqp

/-- Nobody falls asleep in a step of a scheduler, or when a process is allocated. -/
theorem KSys.Asleep.of_states (h : s'.Asleep x q)
    (hProc : s'.sh.proc q = s.sh.proc q ∨ (s'.sh.proc q).state ≠ .sleeping)
    (hTh : s'.th q = s.th q ∨ (s'.th q).sw ≠ .run ∨ ∀ x, (s'.th q).code ≠ .sleep3 x) :
    s.Asleep x q := by
  rcases h with ⟨hState, hChan⟩ | ⟨hSw, hCode⟩
  · rcases hProc with hSame | hNot
    · rw [hSame] at hState hChan
      exact Or.inl ⟨hState, hChan⟩
    · exact absurd hState hNot
  · rcases hTh with hSame | hNot | hNot
    · rw [hSame] at hSw hCode
      exact Or.inr ⟨hSw, hCode⟩
    · exact absurd hSw hNot
    · exact absurd hCode (hNot _)

theorem SchedMove.asleep (hMove : SchedMove p h k op h' k') (hState : (h'.proc p).state = .sleeping)
    (hChan : (h'.proc p).chan = some (x.chan p)) : k = .sleep3 x := by
  cases hMove with
  | @sleep y =>
    have hxy : y.chan p = x.chan p := by simpa using hChan
    cases x <;> cases y <;> cases hxy <;> rfl
  | yield | exit => simp at hState

theorem SchedMove.quiet (hMove : SchedMove p h k op h' k') :
    k.sect = none ∧ h'.lk = h.lk ∧ h'.cond = h.cond ∧ ∀ q, q ≠ p → h'.proc q = h.proc q := by
  cases hMove with
  | sleep | yield | exit => exact ⟨rfl, rfl, rfl, fun q hq => by simp [hq]⟩

theorem WakeInv.move (h : WakeInv s)
    (hInv : SchedInv s) (hRange : RangeInv nproc s) (hMove : KMove nproc s c op s') :
    WakeInv s' := by
  have hStep := hMove.cpuStep hInv
  cases hMove with
  | wrap hOn hCode | grab hOn hCode _ _ | pass hOn hCode _ | back hOn hCode =>
    refine h.quiet hInv hStep rfl rfl ?_ ?_ fun _ _ _ hq => hq
    · rw [KSys.code_sched hOn, hCode]
      rfl
    · rw [KSys.code_sched (by simpa using hOn)]
      simp [Code.sect]
  | @pick i hOn hCode _ =>
    refine h.quiet hInv hStep rfl rfl ?_ ?_ fun l j q hq => hq.of_states ?_ (Or.inl rfl)
    · rw [KSys.code_sched hOn, hCode]
      rfl
    · rw [KSys.code_sched (by simpa using hOn)]
      simp [Code.sect]
    · by_cases hqi : q = i
      · exact Or.inr (by simp [hqi])
      · exact Or.inl (by simp [hqi])
  | @resume i hOn hCode =>
    have hResume := (hInv.about hOn hCode).2.2
    refine h.quiet hInv hStep rfl rfl ?_ ?_ fun l j q hq => hq.of_states (Or.inl rfl) ?_
    · rw [KSys.code_sched hOn, hCode]
      rfl
    · rw [KSys.code_proc (p := i) (by simp), KSys.setTh_th, upd_self]
      exact Code.sect_resumable hResume
    · by_cases hqi : q = i
      · refine Or.inr (Or.inr fun x hx => ?_)
        simp only [KSys.setTh_th, hqi, upd_self] at hx
        rw [hx] at hResume
        cases hResume
      · exact Or.inl (by simp [hqi])
  | irq hOn hMove => exact h.irq hInv hRange hOn hMove
  | @exit p _ hOn _ hCode _ =>
    refine h.quiet hInv hStep rfl rfl ?_ ?_ fun l j q hq => hq.of_states (Or.inl rfl) ?_
    · rw [KSys.code_proc hOn, hCode]
      rfl
    · rw [KSys.code_proc (by simpa using hOn)]
      simp [Code.sect]
    · by_cases hqp : q = p
      · exact Or.inr (Or.inr (by simp [hqp]))
      · exact Or.inl (by simp [hqp])
  | @alloc p i hOn _ hCode _ =>
    refine h.quiet hInv hStep rfl rfl ?_ ?_ fun l j q hq => hq.of_states ?_ ?_
    · rw [KSys.code_proc hOn, hCode]
      rfl
    · rw [KSys.code_proc (s := s.allocated p i) hOn]
      simp [KSys.allocated, Code.sect]
    · by_cases hqi : q = i
      · exact Or.inr (by simp [KSys.allocated, hqi])
      · exact Or.inl (by simp [KSys.allocated, hqi])
    · by_cases hqp : q = p
      · exact Or.inr (Or.inr (by simp [KSys.allocated, hqp]))
      · by_cases hqi : q = i
        · subst hqi
          exact Or.inr (Or.inl (by simp [KSys.allocated, hqp]))
        · exact Or.inl (by simp [KSys.allocated, hqp, hqi])
  | @sched p _ h' k hOn hSw hMove _ _ =>
    obtain ⟨hSect, hLk, hCond, hOther⟩ := hMove.quiet
    obtain ⟨-, -, -, ⟨b, -, hPark⟩, -⟩ := hMove.eff (hInv.codeP p)
    refine h.quiet hInv hStep hLk hCond ?_ ?_ fun l j q hq => ?_
    · rw [KSys.code_proc hOn, hSect]
    · rw [KSys.code_proc (by simpa using hOn)]
      simpa using Code.sect_parked hPark
    · by_cases hqp : q = p
      · subst hqp
        rcases hq with ⟨hState, hChan⟩ | ⟨hRun, -⟩
        · exact Or.inr ⟨hSw, hMove.asleep hState hChan⟩
        · simp at hRun
      · exact hq.of_states (Or.inl (hOther q hqp)) (Or.inl (by simp [hqp]))
  | proc hOn hSw hMove => exact h.run hInv hRange hOn hSw hMove
  | @save p hOn hSw =>
    have hSect := Code.sect_parked (hInv.engaged_switch hOn (by simp [hSw])).1
    refine h.quiet hInv hStep rfl rfl (by rwa [KSys.code_proc hOn]) ?_
      fun l j q hq => hq.of_states (Or.inl rfl) ?_
    · rw [KSys.code_proc (p := p) (by simpa using hOn)]
      simpa using hSect
    · by_cases hqp : q = p
      · exact Or.inr (Or.inl (by simp [hqp]))
      · exact Or.inl (by simp [hqp])
  | @leave p hOn hSw =>
    obtain ⟨hPark, hSched⟩ := hInv.engaged_switch hOn (by simp [hSw])
    refine h.quiet hInv hStep rfl rfl (by rw [KSys.code_proc hOn, Code.sect_parked hPark]) ?_
      fun l j q hq => hq.of_states (Or.inl rfl) ?_
    · rw [KSys.code_sched (by simp)]
      simp [hSched, Code.sect]
    · by_cases hqp : q = p
      · exact Or.inr (Or.inl (by simp [hqp]))
      · exact Or.inl (by simp [hqp])

theorem wakeInv_initial (cond : Nat × Nat → Bool) : WakeInv (KSys.initial cond) where
  lk _ _ := ⟨nofun, nofun⟩
  tested _ _ _ := nofun
  owed l j q _ hq := by
    rcases hq with ⟨hState, -⟩ | ⟨hSw, -⟩
    · by_cases hqi : q = initproc
      · simp [KSys.initial, hqi] at hState
      · simp [KSys.initial, hqi, Pcb.free] at hState
    · cases hSw

theorem wakeInv_run {tr : List (Nat × KOp)} (h : (kLts nproc).Run tr s) :
    WakeInv s :=
  h.invariant (I := fun _ s => WakeInv s)
    (by rintro _ ⟨cond, rfl⟩; exact wakeInv_initial cond)
    (fun _ _ _ _ hRun hWake hStep =>
      hWake.move (schedInv_run hRun) (rangeInv_run hRun) (kMove_of_step hStep))

/-! ## Results -/

/-- What the loop of `wakeup(ch)` does to a process. -/
def Pcb.WokenOrSame (ch : Option Chan) (b b' : Pcb) : Prop :=
  b' = b ∨ b.state = .sleeping ∧ b.chan = ch ∧ b' = { b with state := .runnable }

theorem Pcb.wakeup_spec (ch : Option Chan) (b : Pcb) : Pcb.WokenOrSame ch b (b.wakeup ch) := by
  unfold Pcb.wakeup
  split
  · rename_i h
    exact Or.inr ⟨h.1, h.2, rfl⟩
  · exact Or.inl rfl

theorem ClientMove.woken {held : Bool}
    (hMove : ClientMove nproc c me h (.wake ch i held k) op h' k') (q : Nat) :
    Pcb.WokenOrSame ch (h.proc q) (h'.proc q) := by
  cases hMove with
  | wakeTest =>
    by_cases hq : q = i
    · subst hq
      simpa using Pcb.wakeup_spec ch (h.proc q)
    · exact Or.inl (by simp [hq])
  | _ => exact Or.inl rfl

theorem KMove.woken (hMove : KMove nproc s c op s') {held : Bool}
    (hWake : s.code c = .wake ch i held k) (q : Nat) :
    Pcb.WokenOrSame ch (s.sh.proc q) (s'.sh.proc q) := by
  cases hMove with
  | wrap hOn hCode | grab hOn hCode _ _ | pick hOn hCode _ | pass hOn hCode _ | resume hOn hCode
  | back hOn hCode =>
    rw [KSys.code_sched hOn, hCode] at hWake
    cases hWake
  | irq hOn hMove =>
    rw [KSys.code_sched hOn] at hWake
    rw [hWake] at hMove
    exact hMove.woken q
  | exit hOn _ hCode _ | alloc hOn _ hCode _ =>
    rw [KSys.code_proc hOn, hCode] at hWake
    cases hWake
  | sched hOn _ hMove _ _ =>
    rw [KSys.code_proc hOn] at hWake
    rw [hWake] at hMove
    cases hMove
  | proc hOn _ hMove =>
    rw [KSys.code_proc hOn] at hWake
    rw [hWake] at hMove
    cases hMove with
    | yield hk => cases hk
    | client hMove => exact hMove.woken q
  | save hOn hSw | leave hOn hSw => exact Or.inl rfl

/-- The process that `wakeup` skips is the one that calls it. -/
theorem SchedInv.skipped (hInv : SchedInv s) {held : Bool} (hWake : s.code c = .wake ch i held k) (hProc : (s.cpu c).proc = some q) :
    (s.sh.proc q).state = .running := by
  cases hInv.engaged c q hProc with
  | about hOn hSched | returned hOn hSched =>
    rw [KSys.code_sched hOn, hSched] at hWake
    cases hWake
  | runs _ _ _ hState => exact hState
  | switching hOn _ _ hState =>
    rw [KSys.code_proc hOn] at hWake
    rw [hWake] at hState
    cases hState

/-- In every state that is reached: when the lock of a section is free, no process is `SLEEPING` on a
condition of the section that is true. A CPU inside `wakeup(ch)` changes only processes that are
`SLEEPING` on `ch`, which become `RUNNABLE`, and the process it skips is not `SLEEPING`. -/
theorem no_lost_wakeup {nproc : Nat} {tr : List (Nat × KOp)} {s : KSys}
    (h : (kLts nproc).Run tr s) :
    (∀ l j q, s.sh.lk l = none → s.sh.cond (l, j) = true →
      ¬ ((s.sh.proc q).state = .sleeping ∧ (s.sh.proc q).chan = some (.obj l j))) ∧
    ∀ c ch i held k, s.code c = .wake ch i held k →
      (∀ q, (s.cpu c).proc = some q → (s.sh.proc q).state ≠ .sleeping) ∧
      ∀ op s', (kLts nproc).step s (c, op) = some (.ok s') →
        ∀ q, Pcb.WokenOrSame ch (s.sh.proc q) (s'.sh.proc q) := by
  have hInv := schedInv_run h
  have hWake := wakeInv_run h
  refine ⟨fun l j q hFree hTrue hSleep => ?_, fun c ch i held k hCode => ⟨fun q hq hSleep => ?_, ?_⟩⟩
  · obtain ⟨c, hc⟩ := hWake.owed l j q hTrue (Or.inl hSleep)
    have hSect : (s.code c).sect = some l := Code.sect_owes hc
    rw [(hWake.lk l c).mpr hSect] at hFree
    cases hFree
  · rw [hInv.skipped hCode hq] at hSleep
    cases hSleep
  · intro op s' hStep
    exact (kMove_of_step hStep).woken hCode

/-- The first process sleeps on condition `(0, 0)`; an interrupt on the other CPU makes the
condition true and wakes it up. -/
def wakeByInterrupt : List (Nat × KOp) :=
  List.replicate 4 (0, .next) ++ [(0, .lock 0), (0, .sleep 0)] ++ List.replicate 6 (0, .next) ++
    [(1, .lock 0), (1, .set 0 true), (1, .wakeup 0), (1, .next), (1, .next), (1, .next), (1, .unlock)]

theorem no_lost_wakeup_interrupt :
    ∃ s, (kLts 1).Run wakeByInterrupt s ∧ s.sh.lk 0 = none ∧ s.sh.cond (0, 0) = true ∧
      (s.sh.proc 0).chan = some (.obj 0 0) ∧ (s.sh.proc 0).state ≠ .sleeping := by
  obtain ⟨s, hExec, hFree, hTrue, hChan⟩ : ∃ s, (kLts 1).exec (KSys.initial fun _ => false)
      wakeByInterrupt = some s ∧ s.sh.lk 0 = none ∧ s.sh.cond (0, 0) = true ∧
      (s.sh.proc 0).chan = some (.obj 0 0) := ⟨_, rfl, rfl, rfl, rfl⟩
  have hRun := Lts.run_of_exec (Lts.Run.start (KSys.init_initial 1 _)) hExec
  exact ⟨s, hRun, hFree, hTrue, hChan, fun hState =>
    (no_lost_wakeup hRun).1 0 0 0 hFree hTrue ⟨hState, hChan⟩⟩

end Xv6
