import Xv6.Proc.Family

/-!
# xv6 — `wait` and `exit`

`wait_lock` keeps parents, children that exit and parents that go to sleep in `wait` apart. A
`ZOMBIE` whose parent sleeps in `wait` exists only while its new parent `initproc` is being
woken up under the lock.
-/

namespace Xv6

variable {k k' : Code} {c nproc p q : Nat} {s s' : KSys} {h h' : Shared} {op : KOp}

/-! ## Places that matter -/

namespace Code

/-- A thread that holds `wait_lock`. -/
def wl : Code → Option Unit
  | .fork5 _ | .exit2 .. | .exit3 _ | .exit4 _ | .wait2 .. | .wait3 _ | .sleep1 .wait | .sleep2 .wait
  | .wake _ _ _ (.exit2 ..) | .wake _ _ _ (.exit3 _) => some ()
  | _ => none

/-- The scan of `wait` is past process `q`. -/
def scanned (q : Nat) : Code → Prop
  | .wait2 j _ | .wait3 j => q < j
  | .sleep1 .wait | .sleep2 .wait => True
  | _ => False

/-- In `exit`, the children are given away. -/
def late : Code → Prop
  | .exit3 _ | .exit4 _ | .wake _ _ _ (.exit3 _) => True
  | _ => False

/-- A thread in `exit` will come to process `r` in `wakeup(r)`. -/
def calls (r : Nat) : Code → Prop
  | .wake ch i _ (.exit2 ..) | .wake ch i _ (.exit3 _) => ch = some (.proc r) ∧ i ≤ r
  | _ => False

theorem wl_scanned (h : k.scanned q) : k.wl = some () := by
  cases k with
  | wait2 | wait3 => rfl
  | sleep1 x | sleep2 x =>
    cases x with
    | wait => rfl
    | lk => cases h
  | _ => cases h

theorem wl_late (h : k.late) : k.wl = some () := by
  cases k with
  | exit3 | exit4 => rfl
  | wake ch i held k =>
    cases k with
    | exit3 => rfl
    | _ => cases h
  | _ => cases h

theorem wl_calls {r : Nat} (h : k.calls r) : k.wl = some () := by
  cases k with
  | wake ch i held k =>
    cases k with
    | exit2 | exit3 => rfl
    | _ => cases h
  | _ => cases h

theorem not_scanned_of_calls {r : Nat} (h : k.calls r) : ¬ k.scanned q := by
  cases k with
  | wake => exact id
  | _ => cases h

section Wake

variable {ch : Option Chan} {i r : Nat} {held : Bool}

theorem wl_wake (h : k.afterWake = true) : (Code.wake ch i held k).wl = k.wl := by
  revert h
  cases k <;> simp [afterWake, wl]

theorem late_wake (h : k.afterWake = true) : (Code.wake ch i held k).late ↔ k.late := by
  revert h
  cases k <;> simp [afterWake, late]

theorem calls_wake (h : k.afterWake = true) :
    (Code.wake ch i held k).calls r ↔ k.wl = some () ∧ ch = some (.proc r) ∧ i ≤ r := by
  revert h
  cases k <;> simp [afterWake, calls, wl]

theorem not_scanned_afterWake (h : k.afterWake = true) : ¬ k.scanned r := by
  revert h
  cases k <;> simp [afterWake, scanned]

end Wake

theorem wl_lockFree (h : k.lockFree = true) : k.wl = none := by
  revert h
  cases k <;> simp [lockFree, wl]

theorem wl_resumable (h : k.resumable = true) : k.wl = none := by
  revert h
  cases k <;> simp [resumable, wl]

theorem wl_parked {st : ProcState} (h : k.parked = some st) : k.wl = none := by
  revert h
  cases k <;> simp [parked, wl]

theorem wl_inSched (h : k.inSched = true) : k.wl = none := by
  cases k with
  | sched1 | sched2 | sched3 | sched4 | crit => rfl
  | wake ch i held k =>
    cases k with
    | crit => rfl
    | _ => cases h
  | _ => cases h

end Code

/-- No parent changes, no process exits and none goes to sleep in `wait`. -/
structure SameFamily (s s' : KSys) : Prop where
  parent  : ∀ q, (s'.sh.proc q).parent = (s.sh.proc q).parent
  zombie  : ∀ q, (s'.sh.proc q).state = .zombie → (s.sh.proc q).state = .zombie
  waiting : ∀ q, s'.Asleep .wait q → s.Asleep .wait q

structure WaitInv (s : KSys) : Prop where
  wl      : ∀ (u : Unit) c, s.sh.wlock = some c ↔ (s.code c).wl = some u
  scanned : ∀ c p q, (s.cpu c).on = some p → (s.code c).scanned q →
    (s.sh.proc q).parent = some p → (s.sh.proc q).state ≠ .zombie
  child   : ∀ c p i, (s.cpu c).on = some p → s.code c = .wait3 i → (s.sh.proc i).parent = some p
  late    : ∀ c p r, (s.cpu c).on = some p → (s.code c).late → (s.sh.proc p).parent = some r →
    s.Asleep .wait r → (s.code c).calls r
  called  : ∀ q i, s.Asleep .wait q → (s.sh.proc i).parent = some q → (s.sh.proc i).state = .zombie →
    ∃ c, (s.code c).calls q

/-- Of two CPUs one does not hold `wait_lock`. -/
theorem WaitInv.other (h : WaitInv s) {d : Nat} (hd : d ≠ c)
    (hHeld : (s.code d).wl = some ()) : (s.code c).wl = none := by
  cases hc : (s.code c).wl with
  | none => rfl
  | some u =>
    have hEq := (h.wl () d).mpr hHeld
    rw [(h.wl u c).mpr hc] at hEq
    exact absurd (Option.some.inj hEq).symm hd

/-- CPU `c` moves; whoever changes the family holds `wait_lock`. -/
theorem WaitInv.step (h : WaitInv s) (hInv : SchedInv s)
    (hStep : CpuStep s s' c)
    (hWl : LockEff c (fun _ : Unit => s.sh.wlock) (s.code c).wl (fun _ => s'.sh.wlock) (s'.code c).wl)
    (hSame : (s.code c).wl = none → SameFamily s s')
    (hScanned : ∀ p q, (s'.cpu c).on = some p → (s'.code c).scanned q →
      (s'.sh.proc q).parent = some p → (s'.sh.proc q).state ≠ .zombie)
    (hChild : ∀ p i, (s'.cpu c).on = some p → s'.code c = .wait3 i → (s'.sh.proc i).parent = some p)
    (hLate : ∀ p r, (s'.cpu c).on = some p → (s'.code c).late → (s'.sh.proc p).parent = some r →
      s'.Asleep .wait r → (s'.code c).calls r)
    (hCalled : ∀ q i, s'.Asleep .wait q → (s'.sh.proc i).parent = some q →
      (s'.sh.proc i).state = .zombie → (s'.code c).calls q ∨ s.Asleep .wait q ∧
        (s.sh.proc i).parent = some q ∧ (s.sh.proc i).state = .zombie)
    (hCalls : ∀ q, s'.Asleep .wait q → (s.code c).calls q → (s'.code c).calls q) : WaitInv s' where
  wl := hWl.agree (f := fun d => (s.code d).wl) h.wl fun d hd => by rw [hStep.sameCode hInv hd]
  scanned d p q hOn hq hParent := by
    by_cases hd : d = c
    · subst hd
      exact hScanned p q hOn hq hParent
    · rw [hStep.cpu d hd] at hOn
      rw [hStep.sameCode hInv hd] at hq
      have hFam := hSame (h.other hd (Code.wl_scanned hq))
      rw [hFam.parent] at hParent
      exact fun hZombie => h.scanned d p q hOn hq hParent (hFam.zombie q hZombie)
  child d p i hOn hi := by
    by_cases hd : d = c
    · subst hd
      exact hChild p i hOn hi
    · rw [hStep.cpu d hd] at hOn
      rw [hStep.sameCode hInv hd] at hi
      have hFam := hSame (h.other hd (by rw [hi]; rfl))
      rw [hFam.parent]
      exact h.child d p i hOn hi
  late d p r hOn hLateD hParent hr := by
    by_cases hd : d = c
    · subst hd
      exact hLate p r hOn hLateD hParent hr
    · rw [hStep.cpu d hd] at hOn
      rw [hStep.sameCode hInv hd] at hLateD ⊢
      have hFam := hSame (h.other hd (Code.wl_late hLateD))
      rw [hFam.parent] at hParent
      exact h.late d p r hOn hLateD hParent (hFam.waiting r hr)
  called q i hq hParent hZombie := by
    rcases hCalled q i hq hParent hZombie with hc | ⟨hOldq, hOldP, hOldZ⟩
    · exact ⟨c, hc⟩
    · obtain ⟨d, hd⟩ := h.called q i hOldq hOldP hOldZ
      by_cases hdc : d = c
      · exact ⟨c, hCalls q hq (hdc ▸ hd)⟩
      · exact ⟨d, by rwa [hStep.sameCode hInv hdc]⟩

/-- A step outside of `wait_lock`. -/
theorem WaitInv.quiet (h : WaitInv s) (hInv : SchedInv s)
    (hStep : CpuStep s s' c) (hWl : s'.sh.wlock = s.sh.wlock) (hOld : (s.code c).wl = none)
    (hNew : (s'.code c).wl = none) (hSame : SameFamily s s') : WaitInv s' := by
  have hNot : ∀ {P : Prop}, ((s'.code c).wl = some ()) → P := fun hHeld => by
    rw [hNew] at hHeld
    cases hHeld
  refine h.step hInv hStep (.keep (by rw [hWl]) (hNew.trans hOld.symm)) (fun _ => hSame)
    (fun p q _ hq => hNot (Code.wl_scanned hq)) (fun p i _ hi => hNot (by rw [hi]; rfl))
    (fun p r _ hLate => hNot (Code.wl_late hLate)) (fun q i hq hParent hZombie => Or.inr ?_)
    (fun q _ hCalls => ?_)
  · rw [hSame.parent] at hParent
    exact ⟨hSame.waiting q hq, hParent, hSame.zombie i hZombie⟩
  · have hHeld := Code.wl_calls hCalls
    rw [hOld] at hHeld
    cases hHeld

/-! ## Steps of a process -/

/-- Process `q` is not one that a `wakeup(q)` still has to come to. -/
def Gone (nproc p : Nat) (k : Code) (h' : Shared) (q : Nat) : Prop :=
  nproc ≤ q ∨ q = p ∨ (∀ x, k.plock x = some q) ∧
    ¬ ((h'.proc q).state = .sleeping ∧ (h'.proc q).chan = some (.proc q))

/-- The effect of a step of process `p` on `wait_lock` and on what its holder knows. -/
structure WaitEff (nproc c p : Nat) (h : Shared) (k : Code) (h' : Shared) (k' : Code) : Prop where
  wl      : LockEff c (fun _ : Unit => h.wlock) k.wl (fun _ => h'.wlock) k'.wl
  sleeps  : k' = .sleep3 .wait → h'.proc = h.proc ∧ ∀ q, k.scanned q
  scanned : ∀ q, k'.scanned q → h'.proc = h.proc ∧
    (k.scanned q ∨ (h.proc q).parent ≠ some p ∨ (h.proc q).state ≠ .zombie)
  child   : ∀ i, k' = .wait3 i → (h'.proc i).parent = some p
  late    : k'.late → ∀ r, (h'.proc p).parent = some r →
    k'.calls r ∨ k.late ∧ (h.proc p).parent = some r
  calls   : ∀ q, k.calls q → k'.calls q ∨ Gone nproc p k h' q

/-- A step that does not lead to a place where anything is known. -/
theorem WaitEff.plain (hWl : LockEff c (fun _ : Unit => h.wlock) k.wl (fun _ => h'.wlock) k'.wl)
    (hSleeps : k' ≠ .sleep3 .wait) (hScanned : ∀ q, ¬ k'.scanned q) (hChild : ∀ i, k' ≠ .wait3 i)
    (hLate : ¬ k'.late) (hCalls : ∀ q, ¬ k.calls q) : WaitEff nproc c p h k h' k' where
  wl := hWl
  sleeps hk := absurd hk hSleeps
  scanned q hq := absurd hq (hScanned q)
  child i hi := absurd hi (hChild i)
  late hk := absurd hk hLate
  calls q hq := absurd hq (hCalls q)

/-- From one place without `wait_lock` to another. -/
theorem WaitEff.free (hWl : h'.wlock = h.wlock)
    (hOld : k.wl = none) (hNew : k'.wl = none) (hSleeps : k' ≠ .sleep3 .wait) :
    WaitEff nproc c p h k h' k' := by
  have hNot : k'.wl ≠ some () := by simp [hNew]
  refine .plain (.keep (by rw [hWl]) (hNew.trans hOld.symm)) hSleeps
    (fun q hq => hNot (Code.wl_scanned hq)) (fun i hi => hNot (by rw [hi]; rfl))
    (fun hLate => hNot (Code.wl_late hLate)) fun q hq => ?_
  simp [Code.wl_calls hq] at hOld

theorem not_sleep3_lockFree (h : k.lockFree = true) {x : SleepLock} : k ≠ .sleep3 x :=
  fun hk => by
    rw [hk] at h
    cases h

theorem ClientMove.waitEff
    (hMove : ClientMove nproc c (some p) h k op h' k') (hCode : k.inProc = true) :
    WaitEff nproc c p h k h' k' := by
  cases hMove with
  | set | wakeup => exact .free rfl rfl rfl Code.noConfusion
  | unlock =>
    have hk := Code.lockFree_of_crit (Or.inl hCode)
    exact .free rfl rfl (Code.wl_lockFree hk) (not_sleep3_lockFree hk)
  | @wakeEnd ch i _ hEnd =>
    have hk := Code.afterWake_of_wake (Or.inl hCode)
    refine ⟨.keep rfl (Code.wl_wake hk).symm, ?_, ?_, ?_, fun hLate r hr => Or.inr ⟨?_, hr⟩, fun q hq => ?_⟩
    · exact fun h => absurd hk (by rw [h]; exact Bool.noConfusion)
    · exact fun q hq => absurd hq (Code.not_scanned_afterWake hk)
    · exact fun i h => absurd hk (by rw [h]; exact Bool.noConfusion)
    · exact (Code.late_wake hk).mpr hLate
    · exact Or.inr (Or.inl (hEnd.trans ((Code.calls_wake hk).mp hq).2.2))
  | @wakeSkip ch i k _ hMe =>
    have hk := Code.afterWake_of_wake (Or.inl hCode)
    refine ⟨.keep rfl ((Code.wl_wake hk).trans (Code.wl_wake hk).symm), Code.noConfusion, fun _ => False.elim, fun _ => Code.noConfusion,
      fun hLate r hr => Or.inr ⟨(Code.late_wake hk).mpr ((Code.late_wake hk).mp hLate), hr⟩,
      fun q hq => ?_⟩
    obtain ⟨hWl, hCh, hiq⟩ := (Code.calls_wake hk).mp hq
    rcases Nat.lt_or_eq_of_le hiq with hlt | rfl
    · exact Or.inl ((Code.calls_wake hk).mpr ⟨hWl, hCh, hlt⟩)
    · exact Or.inr (Or.inr (Or.inl (Option.some.inj hMe).symm))
  | @wakeLock ch i k =>
    have hk := Code.afterWake_of_wake (Or.inl hCode)
    exact ⟨.keep rfl ((Code.wl_wake hk).trans (Code.wl_wake hk).symm), Code.noConfusion, fun _ => False.elim, fun _ => Code.noConfusion,
      fun hLate r hr => Or.inr ⟨(Code.late_wake hk).mpr ((Code.late_wake hk).mp hLate), hr⟩,
      fun q hq => Or.inl ((Code.calls_wake hk).mpr ((Code.calls_wake hk).mp hq))⟩
  | @wakeTest ch i k =>
    have hk := Code.afterWake_of_wake (Or.inl hCode)
    have hParent : (upd h.proc i ((h.proc i).wakeup ch) p).parent = (h.proc p).parent := by
      by_cases hp : p = i
      · rw [hp, upd_self, Pcb.wakeup_parent]
      · rw [upd_of_ne hp]
    refine ⟨.keep rfl ((Code.wl_wake hk).trans (Code.wl_wake hk).symm), Code.noConfusion, fun _ => False.elim, fun _ => Code.noConfusion,
      fun hLate r hr => Or.inr ⟨(Code.late_wake hk).mpr ((Code.late_wake hk).mp hLate),
        hParent.symm.trans hr⟩, fun q hq => ?_⟩
    obtain ⟨hWl, hCh, hiq⟩ := (Code.calls_wake hk).mp hq
    rcases Nat.lt_or_eq_of_le hiq with hlt | rfl
    · exact Or.inl ((Code.calls_wake hk).mpr ⟨hWl, hCh, hlt⟩)
    · refine Or.inr (Or.inr (Or.inr ⟨fun _ => rfl, fun hWaits => ?_⟩))
      obtain ⟨hState, hChan⟩ := hWaits
      simp only [Shared.unlockP_proc, Shared.setProc_proc, upd_self] at hState hChan
      exact Pcb.wakeup_chan hState (hChan.trans hCh.symm)
  | lock hk => exact .free rfl (Code.wl_lockFree hk) rfl Code.noConfusion

theorem ProcMove.waitEff (hMove : ProcMove nproc c p h k op h' k') (hCode : k.inProc = true)
    (hOut : ∀ q, nproc ≤ q → (h.proc q).parent = none) : WaitEff nproc c p h k h' k' := by
  cases hMove with
  | @sleepLock x =>
    cases x with
    | lk => exact .free rfl rfl rfl nofun
    | wait => exact ⟨.keep rfl rfl, nofun, fun q hq => ⟨rfl, Or.inl hq⟩, nofun, nofun, nofun⟩
  | @sleepRelease x =>
    cases x with
    | lk => exact .free rfl rfl rfl nofun
    | wait =>
      exact ⟨.release (i := ()) rfl rfl rfl, fun _ => ⟨rfl, fun _ => trivial⟩, nofun, nofun, nofun, nofun⟩
  | sleepRewait hFree | waitLock hFree =>
    exact ⟨.acquire (i := ()) hFree rfl rfl rfl, nofun, fun q hq => absurd hq (Nat.not_lt_zero q), nofun,
      nofun, nofun⟩
  | yield hk => exact .free rfl (Code.wl_lockFree hk) rfl nofun
  | yieldEnd =>
    have hk := (Code.inner (b := Code.inProc) hCode).1
    exact .free rfl rfl (Code.wl_lockFree hk) (not_sleep3_lockFree hk)
  | forkWait hFree | exitWait hFree =>
    exact .plain (.acquire (i := ()) hFree rfl rfl rfl) nofun nofun nofun nofun nofun
  | forkParent | waitNone | waitDeliver | waitFail =>
    exact .plain (.release (i := ()) rfl rfl rfl) nofun nofun nofun nofun nofun
  | exitWake =>
    refine ⟨.keep rfl rfl, nofun, nofun, nofun, fun _ r hr => Or.inl ⟨?_, Nat.zero_le r⟩, nofun⟩
    rw [hr]
    rfl
  | exitReparent | exitSkip => exact .plain (.keep rfl rfl) nofun nofun nofun nofun nofun
  | exitLock =>
    exact ⟨.keep rfl rfl, nofun, nofun, nofun, fun _ r hr => Or.inr ⟨trivial, hr⟩, nofun⟩
  | @waitSleep i kids hEnd =>
    refine ⟨.keep rfl rfl, nofun, fun q _ => ⟨rfl, ?_⟩, nofun, nofun, nofun⟩
    by_cases hq : q < i
    · exact Or.inl hq
    · rw [hOut q (by omega)]
      exact Or.inr (Or.inl nofun)
  | waitChild hi hChild =>
    refine ⟨.keep rfl rfl, nofun, fun q hq => ⟨rfl, Or.inl hq⟩, fun j hj => ?_, nofun, nofun⟩
    cases hj
    exact hChild
  | @waitSkip i kids hi hChild =>
    refine ⟨.keep rfl rfl, nofun, fun q (hq : q < i + 1) => ⟨rfl, ?_⟩, nofun, nofun, nofun⟩
    rcases Nat.lt_succ_iff_lt_or_eq.mp hq with hlt | rfl
    · exact Or.inl hlt
    · exact Or.inr (Or.inl hChild)
  | @waitAlive i hState =>
    refine ⟨.keep rfl rfl, nofun, fun q (hq : q < i + 1) => ⟨rfl, ?_⟩, nofun, nofun, nofun⟩
    rcases Nat.lt_succ_iff_lt_or_eq.mp hq with hlt | rfl
    · exact Or.inl hlt
    · exact Or.inr (Or.inr hState)
  | client hMove => exact hMove.waitEff hCode
  | sleepRelock => exact .free rfl rfl rfl nofun
  | _ => exact .free rfl rfl rfl nofun

theorem ClientMove.wlock {me : Option Nat}
    (hMove : ClientMove nproc c me h k op h' k') : h'.wlock = h.wlock := by
  cases hMove <;> rfl

/-- Only `sched` makes a `ZOMBIE`. -/
theorem StateEff.zombie {me : Option Nat} (hEff : StateEff me h k h') (hq : (h'.proc q).state = .zombie) : (h.proc q).state = .zombie := by
  rcases hEff q with hSame | ⟨-, hChange⟩
  · exact hSame.symm.trans hq
  · generalize (h.proc q).state = st at hChange
    rw [hq] at hChange
    cases hChange

/-- Children that are `ZOMBIE`s: only `reparent` gives one to another process, which it then calls. -/
theorem KinEff.zombie {me : Option Nat} (hKin : KinEff p h k h' k') (hEff : StateEff me h k h')
    (hKid : ∀ i, k.child = some i → (h.proc i).state = .used) {i : Nat}
    (hParent : (h'.proc i).parent = some q) (hZombie : (h'.proc i).state = .zombie) :
    k'.calls q ∨ (h.proc i).parent = some q ∧ (h.proc i).state = .zombie := by
  have hOld := hEff.zombie hZombie
  cases hKin with
  | same hSame => exact Or.inr ⟨(hSame.parent i).symm.trans hParent, hOld⟩
  | @link j hk hk' hProc =>
    have hUsed := hKid j (by rw [hk]; rfl)
    have hij : i ≠ j := fun h => by simp [h, hUsed] at hOld
    rw [hProc, upd_of_ne hij] at hParent
    exact Or.inr ⟨hParent, hOld⟩
  | @reparent j status hk hk' hChild hProc =>
    by_cases hij : i = j
    · rw [hProc, hij, upd_self] at hParent
      rw [hk']
      exact Or.inl ⟨congrArg (some ∘ Chan.proc) (Option.some.inj hParent), Nat.zero_le q⟩
    · rw [hProc, upd_of_ne hij] at hParent
      exact Or.inr ⟨hParent, hOld⟩
  | @reap j hk hk' hState hProc =>
    by_cases hij : i = j
    · rw [hProc, hij, upd_self] at hParent
      cases hParent
    · rw [hProc, upd_of_ne hij] at hParent
      exact Or.inr ⟨hParent, hOld⟩

/-- Parents change only under `wait_lock`. -/
theorem KinEff.parent (hKin : KinEff p h k h' k')
    (hWl : k.wl = none) (q : Nat) : (h'.proc q).parent = (h.proc q).parent := by
  cases hKin with
  | same hSame => exact hSame.parent q
  | link hk | reparent hk | reap hk =>
    rw [hk] at hWl
    cases hWl

section Run

/-- The loop of `wakeup` leaves nobody behind that waits. -/
theorem Gone.not_waiting (hGone : Gone nproc p (s.th p).code h q) (hInv : SchedInv s)
    (hRange : RangeInv nproc s) (hOn : (s.cpu c).on = some p) (hWaiting : s.Asleep .wait q)
    (hqp : q ≠ p) :
    ¬ ({ s with sh := h }.setTh p { s.th p with code := k }).Asleep .wait q := by
  intro hq
  rcases hGone with hEnd | hSelf | ⟨hLock, hNot⟩
  · have := hWaiting.lt hInv hRange
    omega
  · exact hqp hSelf
  · rcases hq with hq | ⟨hSw, hCode⟩
    · exact hNot hq
    · simp only [KSys.setTh_th, upd_of_ne hqp] at hSw hCode
      have hMe := hInv.not_held_of_sleep3 hSw hCode ((KSys.held_proc hOn).trans (hLock _))
      rw [hOn] at hMe
      exact hqp (Option.some.inj hMe).symm

theorem WaitInv.run (hWait : WaitInv s) (hInv : SchedInv s) (hRange : RangeInv nproc s)
    (hFam : FamilyInv s) (hOn : (s.cpu c).on = some p) (hSw : (s.th p).sw = .run)
    (hMove : ProcMove nproc c p s.sh (s.th p).code op h k) :
    WaitInv ({ s with sh := h }.setTh p { s.th p with code := k }) := by
  have hState := (hInv.engaged_run hOn hSw).1
  have hOut := fun q (hq : nproc ≤ q) => hFam.outside hRange hq
  have hWake := hMove.wakeEff (hInv.codeP p) hState
  have hKin := hMove.kin (hInv.codeP p) (hInv.kid p) (hFam.unlinked p) hOut
  have hEff := hMove.eff (hInv.codeP p) (hInv.kid p)
  have hW := hMove.waitEff (hInv.codeP p) hOut
  have hOld := KSys.code_proc hOn
  have hNew : ({ s with sh := h }.setTh p { s.th p with code := k }).code c = k := by
    rw [KSys.code_proc (p := p) (by simpa using hOn)]
    simp
  have hWaiting : ∀ q, ({ s with sh := h }.setTh p { s.th p with code := k }).Asleep .wait q →
      s.Asleep .wait q ∨ q = p ∧ k = .sleep3 .wait := fun q hq => hq.of_run (hWake.asleep q)
  -- the loop of `wakeup` comes to everybody who waits
  have hCalls : ∀ q, ({ s with sh := h }.setTh p { s.th p with code := k }).Asleep .wait q →
      (s.th p).code.calls q → k.calls q := by
    intro q hq hCalls
    have hNot : ¬ (s.th p).code.scanned q := Code.not_scanned_of_calls hCalls
    obtain hOldq | ⟨-, hk⟩ := hWaiting q hq
    · have hqp : q ≠ p := by
        rintro rfl
        rcases hOldq with ⟨hSleep, -⟩ | ⟨-, hCode⟩
        · simp [hState] at hSleep
        · rw [hCode] at hCalls
          cases hCalls
      exact (hW.calls q hCalls).resolve_right fun hGone =>
        hGone.not_waiting hInv hRange hOn hOldq hqp hq
    · exact absurd ((hW.sleeps hk).2 q) hNot
  have hStep := CpuStep.run hInv hOn hSw hEff (hMove.code (hInv.codeP p))
  have hMe : ∀ q, (s.cpu c).on = some q → q = p := fun q hq => by
    rw [hOn] at hq
    exact (Option.some.inj hq).symm
  refine hWait.step hInv hStep ?_ (fun hWl => ⟨?_, ?_, ?_⟩) ?_ ?_ ?_ ?_ ?_
  · rw [hOld, hNew]
    exact hW.wl
  · exact hKin.parent (by rwa [hOld] at hWl)
  · exact fun q hq => hEff.state.zombie hq
  · intro q hq
    refine (hWaiting q hq).resolve_right fun hGo => ?_
    have hk := hGo.2
    rw [hOld, Code.wl_scanned ((hW.sleeps hk).2 q)] at hWl
    cases hWl
  · intro p' q hp' hq hParent hZombie
    obtain rfl := hMe p' hp'
    rw [hNew] at hq
    obtain ⟨hSame, hKnown⟩ := hW.scanned q hq
    simp only [KSys.setTh_sh, hSame] at hParent hZombie
    rcases hKnown with hScanned | hNot | hNot
    · exact hWait.scanned c p' q hOn (by rwa [hOld]) hParent hZombie
    · exact hNot hParent
    · exact hNot hZombie
  · intro p' i hp' hi
    obtain rfl := hMe p' hp'
    rw [hNew] at hi
    exact hW.child i hi
  · intro p' r hp' hLate hParent hr
    obtain rfl := hMe p' hp'
    rw [hNew] at hLate ⊢
    rcases hW.late hLate r hParent with hCall | ⟨hOldLate, hOldParent⟩
    · exact hCall
    · have hOldr : s.Asleep .wait r := (hWaiting r hr).resolve_right fun hGo => by
        have hk := hGo.2
        rw [hk] at hLate
        cases hLate
      have := hWait.late c p' r hOn (by rwa [hOld]) hOldParent hOldr
      exact hCalls r hr (by rwa [hOld] at this)
  · intro q i hq hParent hZombie
    rw [hNew]
    refine (hKin.zombie hEff.state (hInv.kid p) hParent hZombie).imp id fun hOld => ?_
    obtain ⟨hOldP, hOldZ⟩ := hOld
    refine ⟨(hWaiting q hq).resolve_right ?_, hOldP, hOldZ⟩
    rintro ⟨rfl, hk⟩
    exact hWait.scanned c q i hOn (by rw [hOld]; exact (hW.sleeps hk).2 i) hOldP hOldZ
  · intro q hq hCall
    rw [hOld] at hCall
    rw [hNew]
    exact hCalls q hq hCall

end Run

/-! ## All steps -/

/-- Threads go on, processes stay as they are. -/
theorem SameFamily.of_threads (hProc : s'.sh.proc = s.sh.proc)
    (hTh : ∀ q, s'.th q = s.th q ∨ (s'.th q).sw ≠ .run ∨ ∀ x, (s'.th q).code ≠ .sleep3 x) :
    SameFamily s s' where
  parent q := by rw [hProc]
  zombie q hq := by rwa [hProc] at hq
  waiting q hq := hq.of_states (Or.inl (by rw [hProc])) (hTh q)

/-- A process that a scheduler takes, or that is allocated. -/
theorem SameFamily.of_one {i : Nat} {b : Pcb} (hProc : s'.sh.proc = upd s.sh.proc i b)
    (hParent : b.parent = (s.sh.proc i).parent) (hState : b.state ≠ .sleeping ∧ b.state ≠ .zombie)
    (hTh : ∀ q, s'.th q = s.th q ∨ (s'.th q).sw ≠ .run ∨ ∀ x, (s'.th q).code ≠ .sleep3 x) :
    SameFamily s s' := by
  have hCases : ∀ q, s'.sh.proc q = s.sh.proc q ∨ q = i ∧ s'.sh.proc q = b := fun q => by
    rw [hProc]
    by_cases hq : q = i
    · exact Or.inr ⟨hq, by rw [hq, upd_self]⟩
    · exact Or.inl (upd_of_ne hq)
  refine ⟨fun q => ?_, fun q hZombie => ?_, fun q hq => hq.of_states ?_ (hTh q)⟩
  · rcases hCases q with hq | ⟨rfl, hq⟩
    · rw [hq]
    · rw [hq, hParent]
  · rcases hCases q with hq | ⟨rfl, hq⟩
    · rwa [hq] at hZombie
    · rw [hq] at hZombie
      exact absurd hZombie hState.2
  · rcases hCases q with hq | ⟨rfl, hq⟩
    · exact Or.inl hq
    · exact Or.inr (by rw [hq]; exact hState.1)

/-- The thread of process `p` calls `sched`. -/
theorem WaitInv.sched
    (hWait : WaitInv s) (hInv : SchedInv s) (hOn : (s.cpu c).on = some p) (hSw : (s.th p).sw = .run)
    (hMove : SchedMove p s.sh (s.th p).code op h k) :
    WaitInv ({ s with sh := h }.setTh p { code := k, sw := .saving }) := by
  have hStep := CpuStep.sched hInv hOn hSw hMove
  have hOld := KSys.code_proc hOn
  have hNew : ({ s with sh := h }.setTh p { code := k, sw := .saving }).code c = k := by
    rw [KSys.code_proc (p := p) (by simpa using hOn)]
    simp
  have hTh : ∀ q, q ≠ p → upd s.th p ⟨k, .saving⟩ q = s.th q := fun q hq => upd_of_ne hq
  generalize hk : (s.th p).code = k₀ at hMove hOld
  cases hMove with
  | @sleep x =>
    refine hWait.quiet hInv hStep rfl (by rw [hOld]; rfl) (by rw [hNew]; rfl)
      ⟨fun q => ?_, fun q hq => ?_, fun q hq => ?_⟩
    · by_cases hqp : q = p <;> simp [hqp]
    · by_cases hqp : q = p
      · simp [hqp] at hq
      · simpa [hqp] using hq
    · by_cases hqp : q = p
      · subst hqp
        rcases hq with ⟨-, hChan⟩ | ⟨hRun, -⟩
        · cases x with
          | wait => exact Or.inr ⟨hSw, hk⟩
          | lk => simp [SleepLock.chan] at hChan
        · simp at hRun
      · exact hq.of_states (Or.inl (by simp [hqp])) (Or.inl (hTh q hqp))
  | yield =>
    refine hWait.quiet hInv hStep rfl (by rw [hOld]; rfl) (by rw [hNew]; rfl) (.of_one rfl rfl ?_ fun q => ?_)
    · simp
    · by_cases hqp : q = p
      · exact Or.inr (Or.inl (by simp [hqp]))
      · exact Or.inl (hTh q hqp)
  | @exit status =>
    have hWaiting : ∀ q, (KSys.setTh { s with sh := (s.sh.setProc p fun b =>
        { b with xstate := status, state := .zombie }).unlockW } p
        { code := .exit5, sw := .saving }).Asleep .wait q → s.Asleep .wait q := fun q hq => by
      by_cases hqp : q = p
      · exact hq.of_states (Or.inr (by simp [hqp])) (Or.inr (Or.inl (by simp [hqp])))
      · exact hq.of_states (Or.inl (by simp [hqp])) (Or.inl (hTh q hqp))
    refine hWait.step hInv hStep ?_ (fun hWl => ?_) (fun _ _ _ hq => ?_) (fun _ _ _ hi => ?_)
      (fun _ _ _ hLate => ?_) (fun q i hq hParent hZombie => Or.inr ?_) (fun q _ hCalls => ?_)
    · rw [hOld, hNew]
      exact .release (i := ()) rfl rfl rfl
    · rw [hOld] at hWl
      cases hWl
    · rw [hNew] at hq
      cases hq
    · rw [hNew] at hi
      cases hi
    · rw [hNew] at hLate
      cases hLate
    · have hOldq := hWaiting q hq
      by_cases hip : i = p
      · subst hip
        -- the parent was called before
        have hCall := hWait.late c i q hOn (by rw [hOld]; trivial) (by simpa using hParent) hOldq
        rw [hOld] at hCall
        cases hCall
      · exact ⟨hOldq, by simpa [hip] using hParent, by simpa [hip] using hZombie⟩
    · rw [hOld] at hCalls
      cases hCalls

theorem WaitInv.move (h : WaitInv s)
    (hInv : SchedInv s) (hRange : RangeInv nproc s) (hFam : FamilyInv s)
    (hMove : KMove nproc s c op s') : WaitInv s' := by
  have hStep := hMove.cpuStep hInv
  cases hMove with
  | wrap hOn hCode | grab hOn hCode _ _ | pass hOn hCode _ | back hOn hCode =>
    refine h.quiet hInv hStep rfl ?_ ?_ (.of_threads rfl fun _ => Or.inl rfl)
    · rw [KSys.code_sched hOn, hCode]
      rfl
    · rw [KSys.code_sched (by simpa using hOn)]
      simp [Code.wl]
  | pick hOn hCode _ =>
    refine h.quiet hInv hStep rfl ?_ ?_ (.of_one rfl rfl (by simp) fun _ => Or.inl rfl)
    · rw [KSys.code_sched hOn, hCode]
      rfl
    · rw [KSys.code_sched (by simpa using hOn)]
      simp [Code.wl]
  | @resume i hOn hCode =>
    have hResume := (hInv.about hOn hCode).2.2
    refine h.quiet hInv hStep rfl ?_ ?_ (.of_threads rfl fun q => ?_)
    · rw [KSys.code_sched hOn, hCode]
      rfl
    · rw [KSys.code_proc (p := i) (by simp), KSys.setTh_th, upd_self]
      exact Code.wl_resumable hResume
    · by_cases hqi : q = i
      · refine Or.inr (Or.inr fun x hx => ?_)
        simp only [KSys.setTh_th, hqi, upd_self] at hx
        rw [hx] at hResume
        cases hResume
      · exact Or.inl (by simp [hqi])
  | irq hOn hMove =>
    have hKin := hMove.kin (p := 0) (Or.inr (hInv.codeS c))
    have hWake := hMove.wakeEff (Or.inr (hInv.codeS c))
    have hEff := hMove.eff (Or.inr (hInv.codeS c)) none
    refine h.quiet hInv hStep hMove.wlock ?_ ?_ ⟨hKin.parent, fun q => hEff.state.zombie, ?_⟩
    · rw [KSys.code_sched hOn]
      exact Code.wl_inSched (hInv.codeS c)
    · rw [KSys.code_sched (by simpa using hOn)]
      simpa using Code.wl_inSched (hMove.code (Or.inr rfl) (hInv.codeS c)).1
    · rintro q (⟨hState, hChan⟩ | hRun)
      · obtain ⟨hOld, hSame⟩ := hWake.asleep q hState
        exact Or.inl ⟨hOld, hSame.symm.trans hChan⟩
      · exact Or.inr hRun
  | @exit p _ hOn _ hCode _ =>
    refine h.quiet hInv hStep rfl ?_ ?_ (.of_threads rfl fun q => ?_)
    · rw [KSys.code_proc hOn, hCode]
      rfl
    · rw [KSys.code_proc (by simpa using hOn)]
      simp [Code.wl]
    · by_cases hqp : q = p
      · exact Or.inr (Or.inr (by simp [hqp]))
      · exact Or.inl (by simp [hqp])
  | @alloc p i hOn _ hCode _ =>
    refine h.quiet hInv hStep rfl ?_ ?_ (.of_one (i := i) rfl rfl (by simp) fun q => ?_)
    · rw [KSys.code_proc hOn, hCode]
      rfl
    · rw [KSys.code_proc (s := s.allocated p i) hOn]
      simp [KSys.allocated, Code.wl]
    · by_cases hqp : q = p
      · exact Or.inr (Or.inr (by simp [KSys.allocated, hqp]))
      · by_cases hqi : q = i
        · subst hqi
          exact Or.inr (Or.inl (by simp [KSys.allocated, hqp]))
        · exact Or.inl (by simp [KSys.allocated, hqp, hqi])
  | sched hOn hSw hMove _ _ => exact h.sched hInv hOn hSw hMove
  | proc hOn hSw hMove => exact h.run hInv hRange hFam hOn hSw hMove
  | @save p hOn hSw =>
    have hWl := Code.wl_parked (hInv.engaged_switch hOn (by simp [hSw])).1
    refine h.quiet hInv hStep rfl (by rwa [KSys.code_proc hOn]) ?_ (.of_threads rfl fun q => ?_)
    · rw [KSys.code_proc (p := p) (by simpa using hOn)]
      simpa using hWl
    · by_cases hqp : q = p
      · exact Or.inr (Or.inl (by simp [hqp]))
      · exact Or.inl (by simp [hqp])
  | @leave p hOn hSw =>
    obtain ⟨hPark, hSched⟩ := hInv.engaged_switch hOn (by simp [hSw])
    refine h.quiet hInv hStep rfl (by rw [KSys.code_proc hOn, Code.wl_parked hPark]) ?_
      (.of_threads rfl fun q => ?_)
    · rw [KSys.code_sched (by simp)]
      simp [hSched, Code.wl]
    · by_cases hqp : q = p
      · exact Or.inr (Or.inl (by simp [hqp]))
      · exact Or.inl (by simp [hqp])

theorem waitInv_initial (cond : Nat × Nat → Bool) : WaitInv (KSys.initial cond) where
  wl _ _ := ⟨nofun, nofun⟩
  scanned _ _ _ := nofun
  child _ _ _ := nofun
  late _ _ _ := nofun
  called q i _ hParent := by
    by_cases hi : i = initproc
    · simp [KSys.initial, hi, Pcb.free] at hParent
    · simp [KSys.initial, hi, Pcb.free] at hParent

theorem waitInv_run {tr : List (Nat × KOp)} (h : (kLts nproc).Run tr s) :
    WaitInv s :=
  h.invariant (I := fun _ s => WaitInv s)
    (by rintro _ ⟨cond, rfl⟩; exact waitInv_initial cond)
    (fun _ _ _ _ hRun hWait hStep =>
      hWait.move (schedInv_run hRun) (rangeInv_run hRun) (familyInv_run hRun) (kMove_of_step hStep))

end Xv6
