import Xv6.Lib.Spin
import Xv6.Proc.Moves

/-!
# xv6 — a process runs on at most one CPU

The invariant `SchedInv` says which CPU holds which `p->lock`, read off from where its thread is,
and what the state of a process can be when a CPU runs it, is switching to or away from it, or has
nothing to do with it. It is kept by every step of every CPU. Results:

* `sched_exclusive` — the state of a process and the CPU it runs on.
-/

namespace Xv6

variable {k k' : Code} {me : Option Nat} {h h' : Shared} {c d i nproc p q : Nat} {op : KOp} {s s' : KSys}

/-! ## What the place of a thread says -/

namespace Code

/-- The process lock a thread holds; `me` is its own process. -/
def plock (me : Option Nat) : Code → Option Nat
  | .sched2 i | .sched3 i | .sched4 i | .kill2 _ i | .fork2 i | .fork3 i | .fork7 i | .wait3 i
  | .wake _ i true _ => some i
  | .sleep2 _ | .sleep3 _ | .sleep4 _ | .yield2 _ | .yield3 _ | .forkret | .exit4 _ | .exit5 => me
  | _ => none

/-- Where `wakeup` returns to. -/
def afterWake : Code → Bool
  | .crit .. | .exit2 .. | .exit3 _ => true
  | _ => false

/-- The code of the thread of a process. -/
def inProc : Code → Bool
  | .sched1 _ | .sched2 _ | .sched3 _ | .sched4 _ => false
  | .crit _ _ k | .yield1 k | .yield2 k | .yield3 k => k.lockFree && k.inProc
  | .wake _ _ _ k => k.afterWake && k.inProc
  | _ => true

/-- The code of the scheduler thread of a CPU. -/
def inSched : Code → Bool
  | .sched1 _ | .sched2 _ | .sched3 _ | .sched4 _ => true
  | .crit _ _ k => k.lockFree && k.inSched
  | .wake _ _ _ k => k.afterWake && k.inSched
  | _ => false

/-- The process a scheduler has chosen and not yet given up. -/
def chosen : Code → Option Nat
  | .sched3 i | .sched4 i => some i
  | _ => none

/-- The new process a thread is making, from `allocproc` to the end of `fork`. -/
def child : Code → Option Nat
  | .fork3 i | .fork4 i | .fork5 i | .fork6 i | .fork7 i => some i
  | .crit _ _ k | .wake _ _ _ k | .yield1 k | .yield2 k | .yield3 k => k.child
  | _ => none

/-- The state in which `sched` leaves the process. -/
def parked : Code → Option ProcState
  | .sleep4 _ => some .sleeping
  | .yield3 _ => some .runnable
  | .exit5 => some .zombie
  | _ => none

/-- Where a process goes on when it is scheduled. -/
def resumable : Code → Bool
  | .sleep4 _ | .yield3 _ | .forkret => true
  | _ => false

theorem plock_lockFree (h : k.lockFree = true) (me : Option Nat) : k.plock me = none := by
  revert h
  cases k <;> simp [lockFree, plock]

theorem plock_afterWake (h : k.afterWake = true) (me : Option Nat) :
    k.plock me = none := by
  revert h
  cases k <;> simp [afterWake, plock]

theorem chosen_lockFree (h : k.lockFree = true) : k.chosen = none := by
  revert h
  cases k <;> simp [lockFree, chosen]

theorem chosen_afterWake (h : k.afterWake = true) : k.chosen = none := by
  revert h
  cases k <;> simp [afterWake, chosen]

theorem child_inSched (h : k.inSched = true) : k.child = none := by
  induction k with
  | crit l d k ih | wake ch i d k ih =>
    rw [inSched, Bool.and_eq_true] at h
    exact ih h.2
  | _ => first | rfl | cases h

theorem plock_parked {st : ProcState} (h : k.parked = some st) (me : Option Nat) :
    k.plock me = me := by
  revert h
  cases k <;> simp [parked, plock]

theorem plock_resumable (h : k.resumable = true) (me : Option Nat) : k.plock me = me := by
  revert h
  cases k <;> simp [resumable, plock]

end Code

/-! ## Effects of the moves of a thread -/

/-- How a thread at `k` may change the state of a process whose lock it holds. -/
inductive StateChange (k : Code) (i : Nat) : ProcState → ProcState → Prop where
  | wake : StateChange k i .sleeping .runnable
  | reap : StateChange k i .zombie .unused
  | discard (hKid : k.child = some i) : StateChange k i .used .unused
  | publish (hKid : k.child = some i) : StateChange k i .used .runnable

/-- States change only under the lock. -/
def StateEff (me : Option Nat) (h : Shared) (k : Code) (h' : Shared) : Prop :=
  ∀ i, (h'.proc i).state = (h.proc i).state ∨
    k.plock me = some i ∧ StateChange k i (h.proc i).state (h'.proc i).state

theorem StateEff.refl (hProc : h'.proc = h.proc) :
    StateEff me h k h' := fun i => Or.inl (by rw [hProc])

/-- One process changes, under its lock. -/
theorem StateEff.one {b : Pcb} (hProc : h'.proc = upd h.proc i b) (hLock : k.plock me = some i)
    (hState : b.state = (h.proc i).state ∨ StateChange k i (h.proc i).state b.state) :
    StateEff me h k h' := by
  intro j
  rw [hProc]
  by_cases hj : j = i
  · subst hj
    rw [upd_self]
    exact hState.imp id fun hCh => ⟨hLock, hCh⟩
  · rw [upd_of_ne hj]
    exact Or.inl rfl

/-- One process changes and keeps its state. -/
theorem StateEff.same {b : Pcb}
    (hProc : h'.proc = upd h.proc i b) (hState : b.state = (h.proc i).state) :
    StateEff me h k h' := by
  intro j
  rw [hProc]
  by_cases hj : j = i
  · subst hj
    rw [upd_self]
    exact Or.inl hState
  · rw [upd_of_ne hj]
    exact Or.inl rfl

theorem Pcb.wakeup_state (ch : Option Chan) (b : Pcb) :
    (b.wakeup ch).state = b.state ∨ b.state = .sleeping ∧ (b.wakeup ch).state = .runnable := by
  unfold Pcb.wakeup
  split
  · rename_i hBoth
    exact Or.inr ⟨hBoth.1, rfl⟩
  · exact Or.inl rfl

theorem Pcb.kill_state (b : Pcb) :
    b.kill.state = b.state ∨ b.state = .sleeping ∧ b.kill.state = .runnable := by
  unfold Pcb.kill
  split
  · exact Or.inr ⟨‹_›, rfl⟩
  · exact Or.inl rfl

/-- The new process a thread is making stays `USED` until the thread lets go of it. -/
def KidEff (h : Shared) (k : Code) (h' : Shared) (k' : Code) : Prop :=
  k'.child = none ∨
    k'.child = k.child ∧ ∀ i, (h.proc i).state = .used → (h'.proc i).state = .used

theorem KidEff.refl (hChild : k'.child = k.child)
    (hProc : h'.proc = h.proc) : KidEff h k h' k' :=
  Or.inr ⟨hChild, fun i hi => by rw [hProc]; exact hi⟩

theorem KidEff.one {b : Pcb} (hChild : k'.child = k.child)
    (hProc : h'.proc = upd h.proc i b) (hState : (h.proc i).state = .used → b.state = .used) :
    KidEff h k h' k' := by
  refine Or.inr ⟨hChild, fun j hj => ?_⟩
  rw [hProc]
  by_cases hji : j = i
  · subst hji
    rw [upd_self]
    exact hState hj
  · rw [upd_of_ne hji]
    exact hj

/-- What a thread may do to processes and their locks. -/
structure Eff (c : Nat) (me : Option Nat) (h : Shared) (k : Code) (h' : Shared) (k' : Code) :
    Prop where
  lock  : LockEff c h.plock (k.plock me) h'.plock (k'.plock me)
  state : StateEff me h k h'
  kid   : KidEff h k h' k'

theorem Code.inner {b : Code → Bool} (h : (k.lockFree && b k) = true) :
    k.lockFree = true ∧ b k = true := by
  rwa [Bool.and_eq_true] at h

theorem Code.inner_wake {b : Code → Bool} (h : (k.afterWake && b k) = true) :
    k.afterWake = true ∧ b k = true := by
  rwa [Bool.and_eq_true] at h

theorem Code.lockFree_of_crit {l : Nat} {d : List Nat}
    (h : (Code.crit l d k).inProc = true ∨ (Code.crit l d k).inSched = true) :
    k.lockFree = true := by
  rcases h with h | h
  · exact (Code.inner (b := Code.inProc) h).1
  · exact (Code.inner (b := Code.inSched) h).1

theorem Code.afterWake_of_wake {ch : Option Chan} {held : Bool}
    (h : (Code.wake ch i held k).inProc = true ∨ (Code.wake ch i held k).inSched = true) :
    k.afterWake = true := by
  rcases h with h | h
  · exact (Code.inner_wake (b := Code.inProc) h).1
  · exact (Code.inner_wake (b := Code.inSched) h).1

/-- The effect of a critical section or of `wakeup`. -/
theorem ClientMove.eff
    (hMove : ClientMove nproc c me h k op h' k') (hCode : k.inProc = true ∨ k.inSched = true)
    (p : Option Nat) : Eff c p h k h' k' := by
  cases hMove with
  | set | wakeup | wakeSkip => exact ⟨.keep rfl rfl, .refl rfl, .refl rfl rfl⟩
  | unlock =>
    have hk := Code.lockFree_of_crit hCode
    exact ⟨.keep rfl (Code.plock_lockFree hk p), .refl rfl, .refl rfl rfl⟩
  | wakeEnd _ =>
    have hk := Code.afterWake_of_wake hCode
    exact ⟨.keep rfl (Code.plock_afterWake hk p), .refl rfl, .refl rfl rfl⟩
  | wakeLock _ _ hFree => exact ⟨.acquire hFree rfl rfl rfl, .refl rfl, .refl rfl rfl⟩
  | @wakeTest ch i k =>
    have hState := (h.proc i).wakeup_state ch
    refine ⟨.release rfl rfl rfl, StateEff.one rfl rfl ?_, KidEff.one rfl rfl fun hUsed => ?_⟩
    · rcases hState with hSame | ⟨hOld, hNew⟩
      · exact Or.inl hSame
      · rw [hOld, hNew]
        exact Or.inr .wake
    · rcases hState with hSame | ⟨hOld, -⟩
      · rw [hSame, hUsed]
      · rw [hOld] at hUsed
        cases hUsed
  | lock hk _ => exact ⟨.keep rfl (Code.plock_lockFree hk p).symm, .refl rfl, .refl rfl rfl⟩

/-- The effect of a step of process `p`. -/
theorem ProcMove.eff (hMove : ProcMove nproc c p h k op h' k') (hCode : k.inProc = true)
    (hKid : ∀ i, k.child = some i → (h.proc i).state = .used) : Eff c (some p) h k h' k' := by
  cases hMove with
  | sleep | sleepRelock | sleepRewait | kill | killEnd | fork | forkNone | forkWait | exitWait | exitWake
  | exitSkip | wait | waitLock | waitNone | waitSleep | waitSkip => exact ⟨.keep rfl rfl, .refl rfl, .refl rfl rfl⟩
  | sleepLock hFree => exact ⟨.acquire hFree rfl rfl rfl, .refl rfl, .refl rfl rfl⟩
  | @sleepRelease x => cases x <;> exact ⟨.keep rfl rfl, .refl rfl, .refl rfl rfl⟩
  | sleepTidy => exact ⟨.release rfl rfl rfl, .same rfl rfl, .one rfl rfl id⟩
  | yield hk => exact ⟨.keep rfl (Code.plock_lockFree hk _).symm, .refl rfl, .refl rfl rfl⟩
  | yieldLock hFree => exact ⟨.acquire hFree rfl rfl rfl, .refl rfl, .refl rfl rfl⟩
  | yieldEnd =>
    have hk := (Code.inner (b := Code.inProc) hCode).1
    exact ⟨.release rfl rfl (Code.plock_lockFree hk _), .refl rfl, .refl rfl rfl⟩
  | forkret | killMiss | forkSkip | forkCopy | waitAlive | waitFail =>
    exact ⟨.release rfl rfl rfl, .refl rfl, .refl rfl rfl⟩
  | killLock _ hFree => exact ⟨.acquire hFree rfl rfl rfl, .refl rfl, .refl rfl rfl⟩
  | @killHit pid i =>
    have hState := (h.proc i).kill_state
    refine ⟨.release rfl rfl rfl, StateEff.one rfl rfl ?_, KidEff.one rfl rfl fun hUsed => ?_⟩
    · rcases hState with hSame | ⟨hOld, hNew⟩
      · exact Or.inl hSame
      · rw [hOld, hNew]
        exact Or.inr .wake
    · rcases hState with hSame | ⟨hOld, -⟩
      · rw [hSame, hUsed]
      · rw [hOld] at hUsed
        cases hUsed
  | forkLock _ hFree => exact ⟨.acquire hFree rfl rfl rfl, .refl rfl, .refl rfl rfl⟩
  | @forkFail i =>
    refine ⟨.release rfl rfl rfl, StateEff.one rfl rfl (Or.inr ?_), Or.inl rfl⟩
    rw [hKid i rfl]
    exact .discard rfl
  | forkParent | exitReparent => exact ⟨.keep rfl rfl, .same rfl rfl, .one rfl rfl id⟩
  | forkRelock hFree => exact ⟨.acquire hFree rfl rfl rfl, .refl rfl, .refl rfl rfl⟩
  | @forkDone i =>
    refine ⟨.release rfl rfl rfl, StateEff.one rfl rfl (Or.inr ?_), Or.inl rfl⟩
    rw [hKid i rfl]
    exact .publish rfl
  | exitLock hFree => exact ⟨.acquire hFree rfl rfl rfl, .refl rfl, .refl rfl rfl⟩
  | waitChild _ _ hFree => exact ⟨.acquire hFree rfl rfl rfl, .refl rfl, .refl rfl rfl⟩
  | @waitDeliver i hState =>
    refine ⟨.release rfl rfl rfl, StateEff.one rfl rfl (Or.inr ?_), Or.inl rfl⟩
    rw [hState]
    exact .reap
  | client hMove => exact hMove.eff (Or.inl hCode) _

/-- The code of a process stays that of a process, and only `sched` leads to the end of `exit`. -/
theorem ClientMove.code
    (hMove : ClientMove nproc c me h k op h' k') {b : Code → Bool} (hb : b = Code.inProc ∨ b = Code.inSched)
    (hCode : b k = true) : b k' = true ∧ k' ≠ .exit5 := by
  have hCrit : ∀ l d k, b (.crit l d k) = (k.lockFree && b k) := by
    rcases hb with rfl | rfl <;> exact fun _ _ _ => rfl
  have hWake : ∀ ch i d k, b (.wake ch i d k) = (k.afterWake && b k) := by
    rcases hb with rfl | rfl <;> exact fun _ _ _ _ => rfl
  cases hMove with
  | set =>
    rw [hCrit] at hCode ⊢
    exact ⟨hCode, Code.noConfusion⟩
  | wakeup =>
    rw [hCrit] at hCode
    rw [hWake, hCrit]
    exact ⟨hCode, Code.noConfusion⟩
  | unlock =>
    rw [hCrit] at hCode
    obtain ⟨hFree, hCode⟩ := Code.inner hCode
    refine ⟨hCode, fun h => ?_⟩
    rw [h] at hFree
    cases hFree
  | wakeEnd _ =>
    rw [hWake] at hCode
    obtain ⟨hAfter, hCode⟩ := Code.inner_wake hCode
    refine ⟨hCode, fun h => ?_⟩
    rw [h] at hAfter
    cases hAfter
  | wakeSkip | wakeLock | wakeTest =>
    rw [hWake] at hCode ⊢
    exact ⟨hCode, Code.noConfusion⟩
  | lock hk _ =>
    rw [hCrit, hk, hCode]
    exact ⟨rfl, Code.noConfusion⟩

/-- A scheduler is interrupted only when it has no process. -/
theorem ClientMove.chosen (hMove : ClientMove nproc c me h k op h' k') (hCode : k.inSched = true) :
    k.chosen = none ∧ k'.chosen = none := by
  cases hMove with
  | unlock => exact ⟨rfl, Code.chosen_lockFree (Code.inner (b := Code.inSched) hCode).1⟩
  | wakeEnd => exact ⟨rfl, Code.chosen_afterWake (Code.inner_wake (b := Code.inSched) hCode).1⟩
  | lock hk _ => exact ⟨Code.chosen_lockFree hk, rfl⟩
  | _ => exact ⟨rfl, rfl⟩

theorem ProcMove.code (hMove : ProcMove nproc c p h k op h' k') (hCode : k.inProc = true) :
    k'.inProc = true ∧ k' ≠ .exit5 := by
  cases hMove with
  | yield hk => exact ⟨by rw [Code.inProc, hk, hCode]; rfl, Code.noConfusion⟩
  | yieldLock => exact ⟨hCode, Code.noConfusion⟩
  | yieldEnd =>
    obtain ⟨hFree, hCode⟩ := Code.inner (b := Code.inProc) hCode
    refine ⟨hCode, fun h => ?_⟩
    rw [h] at hFree
    cases hFree
  | client hMove => exact hMove.code (Or.inl rfl) hCode
  | _ => exact ⟨rfl, Code.noConfusion⟩

/-! ## The invariant -/

/-- Where the thread that CPU `c` runs is. -/
def KSys.code (s : KSys) (c : Nat) : Code :=
  match (s.cpu c).on with
  | none => (s.cpu c).sched
  | some p => (s.th p).code

/-- The process lock that CPU `c` holds. -/
def KSys.held (s : KSys) (c : Nat) : Option Nat := (s.code c).plock (s.cpu c).on

/-- A CPU `u` with `c->proc` = `p`, the thread `t` of `p` and its state. -/
inductive Engaged (p : Nat) (u : Cpu) (t : KThread) (st : ProcState) : Prop where
  /-- the scheduler is about to switch to `p` -/
  | about (hOn : u.on = none) (hSched : u.sched = .sched3 p) (hSw : t.sw = .off)
      (hState : st = .running) (hCode : t.code.resumable = true)
  | runs (hOn : u.on = some p) (hSched : u.sched = .sched4 p) (hSw : t.sw = .run)
      (hState : st = .running) (hCode : t.code ≠ .exit5)
  /-- in `swtch`, on the stack of `p` -/
  | switching (hOn : u.on = some p) (hSched : u.sched = .sched4 p)
      (hSw : t.sw = .saving ∨ t.sw = .leaving) (hState : t.code.parked = some st)
  /-- the scheduler has not yet released the lock of `p` -/
  | returned (hOn : u.on = none) (hSched : u.sched = .sched4 p) (hSw : t.sw = .off)
      (hState : t.code.parked = some st)

/-- A process, with thread `t`, that is no CPU's `c->proc`. -/
structure Resting (t : KThread) (st : ProcState) : Prop where
  sw      : t.sw = .off
  running : st ≠ .running
  resume  : st = .runnable ∨ st = .sleeping → t.code.resumable = true
  used    : st = .used → t.code = .forkret

structure SchedInv (s : KSys) : Prop where
  codeP   : ∀ p, (s.th p).code.inProc = true
  codeS   : ∀ c, (s.cpu c).sched.inSched = true
  locks   : ∀ i c, s.sh.plock i = some c ↔ s.held c = some i
  chosen  : ∀ c, (s.cpu c).proc = (s.cpu c).sched.chosen
  on      : ∀ c p, (s.cpu c).on = some p → (s.cpu c).proc = some p
  uniq    : ∀ c d p, (s.cpu c).proc = some p → (s.cpu d).proc = some p → c = d
  engaged : ∀ c p, (s.cpu c).proc = some p → Engaged p (s.cpu c) (s.th p) (s.sh.proc p).state
  rest    : ∀ p, (∀ c, (s.cpu c).proc ≠ some p) → Resting (s.th p) (s.sh.proc p).state
  kid     : ∀ p i, (s.th p).code.child = some i → (s.sh.proc i).state = .used
  kids    : ∀ p q i, (s.th p).code.child = some i → (s.th q).code.child = some i → p = q

/-! ## One CPU moves -/

namespace KSys

@[simp] theorem setCpu_sh (s : KSys) (c : Nat) (u : Cpu) : (s.setCpu c u).sh = s.sh := rfl
@[simp] theorem setCpu_th (s : KSys) (c : Nat) (u : Cpu) : (s.setCpu c u).th = s.th := rfl
@[simp] theorem setCpu_cpu (s : KSys) (c : Nat) (u : Cpu) : (s.setCpu c u).cpu = upd s.cpu c u := rfl
@[simp] theorem setTh_sh (s : KSys) (p : Nat) (t : KThread) : (s.setTh p t).sh = s.sh := rfl
@[simp] theorem setTh_cpu (s : KSys) (p : Nat) (t : KThread) : (s.setTh p t).cpu = s.cpu := rfl
@[simp] theorem setTh_th (s : KSys) (p : Nat) (t : KThread) : (s.setTh p t).th = upd s.th p t := rfl

theorem code_sched (hOn : (s.cpu c).on = none) :
    s.code c = (s.cpu c).sched := by
  rw [code, hOn]

theorem code_proc (hOn : (s.cpu c).on = some p) :
    s.code c = (s.th p).code := by
  rw [code, hOn]

theorem code_congr (hCpu : s'.cpu d = s.cpu d)
    (hTh : ∀ p, (s.cpu d).on = some p → s'.th p = s.th p) : s'.code d = s.code d := by
  cases hOn : (s.cpu d).on with
  | none => rw [code_sched hOn, code_sched (by rw [hCpu, hOn]), hCpu]
  | some p => rw [code_proc hOn, code_proc (by rw [hCpu, hOn]), hTh p hOn]

theorem held_sched (hOn : (s.cpu c).on = none) :
    s.held c = (s.cpu c).sched.plock none := by
  rw [held, code_sched hOn, hOn]

theorem held_proc (hOn : (s.cpu c).on = some p) :
    s.held c = (s.th p).code.plock (some p) := by
  rw [held, code_proc hOn, hOn]

end KSys

/-- What has to be checked when CPU `c` takes the system from `s` to `s'`. -/
structure CpuStep (s s' : KSys) (c : Nat) : Prop where
  cpu    : ∀ d, d ≠ c → s'.cpu d = s.cpu d
  keep   : ∀ d q, d ≠ c → (s.cpu d).proc = some q →
    s'.th q = s.th q ∧ (s'.sh.proc q).state = (s.sh.proc q).state
  code   : (s'.cpu c).sched.inSched = true
  lock   : LockEff c s.sh.plock (s.held c) s'.sh.plock (s'.held c)
  chosen : (s'.cpu c).proc = (s'.cpu c).sched.chosen
  on     : ∀ p, (s'.cpu c).on = some p → (s'.cpu c).proc = some p
  mine   : ∀ p, (s'.cpu c).proc = some p →
    Engaged p (s'.cpu c) (s'.th p) (s'.sh.proc p).state ∧ ∀ d, d ≠ c → (s.cpu d).proc ≠ some p
  rest   : ∀ q, (s'.cpu c).proc ≠ some q → (∀ d, d ≠ c → (s.cpu d).proc ≠ some q) →
    Resting (s'.th q) (s'.sh.proc q).state
  codeP  : ∀ p, (s'.th p).code.inProc = true
  kid    : ∀ p i, (s'.th p).code.child = some i → (s'.sh.proc i).state = .used
  kids   : ∀ p q i, (s'.th p).code.child = some i → (s'.th q).code.child = some i → p = q

/-- The thread on another CPU stays where it is. -/
theorem CpuStep.sameCode (h : CpuStep s s' c) (hInv : SchedInv s)
    (hd : d ≠ c) : s'.code d = s.code d :=
  KSys.code_congr (h.cpu d hd) fun p hOn => (h.keep d p hd (hInv.on d p hOn)).1

theorem CpuStep.inv (h : CpuStep s s' c) (hInv : SchedInv s) : SchedInv s' where
  codeP := h.codeP
  codeS d := by
    by_cases hd : d = c
    · exact hd ▸ h.code
    · rw [h.cpu d hd]
      exact hInv.codeS d
  locks := h.lock.agree hInv.locks fun d hd => by
    rw [KSys.held, h.sameCode hInv hd, h.cpu d hd, KSys.held]
  chosen d := by
    by_cases hd : d = c
    · exact hd ▸ h.chosen
    · rw [h.cpu d hd]
      exact hInv.chosen d
  on d p := by
    by_cases hd : d = c
    · exact hd ▸ h.on p
    · rw [h.cpu d hd]
      exact hInv.on d p
  uniq d e p hd he := by
    by_cases hdc : d = c
    · by_cases hec : e = c
      · rw [hdc, hec]
      · subst hdc
        rw [h.cpu e hec] at he
        exact absurd he ((h.mine p hd).2 e hec)
    · rw [h.cpu d hdc] at hd
      by_cases hec : e = c
      · subst hec
        exact absurd hd ((h.mine p he).2 d hdc)
      · rw [h.cpu e hec] at he
        exact hInv.uniq d e p hd he
  engaged d p hd := by
    by_cases hdc : d = c
    · subst hdc
      exact (h.mine p hd).1
    · rw [h.cpu d hdc] at hd ⊢
      rw [(h.keep d p hdc hd).1, (h.keep d p hdc hd).2]
      exact hInv.engaged d p hd
  rest p hp := h.rest p (hp c) fun d hd => by
    have := hp d
    rwa [h.cpu d hd] at this
  kid := h.kid
  kids := h.kids

namespace SchedInv

theorem rest_other (hInv : SchedInv s) (hc : (s.cpu c).proc ≠ some q)
    (hOther : ∀ d, d ≠ c → (s.cpu d).proc ≠ some q) : Resting (s.th q) (s.sh.proc q).state :=
  hInv.rest q fun d => by
    by_cases hd : d = c
    · exact hd ▸ hc
    · exact hOther d hd

/-- A CPU has a process only while the process runs or the CPU holds its lock. -/
theorem running_or_held (hInv : SchedInv s) (hProc : (s.cpu d).proc = some q) :
    (s.sh.proc q).state = .running ∨ s.held d = some q := by
  cases hInv.engaged d q hProc with
  | about hOn hSched | returned hOn hSched => exact Or.inr (by rw [KSys.held_sched hOn, hSched]; rfl)
  | runs _ _ _ hState => exact Or.inl hState
  | switching hOn _ _ hState => exact Or.inr (by rw [KSys.held_proc hOn, Code.plock_parked hState])

/-- A scheduler about to switch to process `i`. -/
theorem about (hInv : SchedInv s) (hOn : (s.cpu c).on = none)
    (hCode : (s.cpu c).sched = .sched3 i) :
    (s.th i).sw = .off ∧ (s.sh.proc i).state = .running ∧ (s.th i).code.resumable = true := by
  have hProc : (s.cpu c).proc = some i := by rw [hInv.chosen c, hCode]; rfl
  cases hInv.engaged c i hProc with
  | about _ _ hSw hState hResume => exact ⟨hSw, hState, hResume⟩
  | runs h | switching h => simp [hOn] at h
  | returned _ h => simp [hCode] at h

/-- The holder of a lock knows that no other CPU has the process, unless it runs. -/
theorem alone (hInv : SchedInv s) (hHeld : s.held c = some q)
    (hState : (s.sh.proc q).state ≠ .running) (d : Nat) (hd : d ≠ c) : (s.cpu d).proc ≠ some q := by
  intro hProc
  rcases hInv.running_or_held hProc with hRun | hLock
  · exact hState hRun
  · have hEq := (hInv.locks q d).mpr hLock
    rw [(hInv.locks q c).mpr hHeld] at hEq
    exact hd (Option.some.inj hEq).symm

/-- A process that some CPU has keeps its state when another CPU changes states under locks. -/
theorem state_engaged (hInv : SchedInv s)
    (hEff : StateEff me s.sh k h) (hHeld : s.held c = k.plock me)
    (hSelf : ∀ q, (s.sh.proc q).state ≠ .running → (s.cpu c).proc ≠ some q)
    (hq : (s.cpu d).proc = some q) : (h.proc q).state = (s.sh.proc q).state := by
  rcases hEff q with hSame | ⟨hLock, hChange⟩
  · exact hSame
  · have hState : (s.sh.proc q).state ≠ .running := fun h => by
      rw [h] at hChange
      cases hChange
    by_cases hd : d = c
    · exact absurd (hd ▸ hq) (hSelf q hState)
    · exact absurd hq (hInv.alone (hHeld.trans hLock) hState d hd)

end SchedInv

theorem Resting.of_parked {t : KThread} {st : ProcState} (hSw : t.sw = .off)
    (hState : t.code.parked = some st) : Resting t st := by
  refine ⟨hSw, ?_, ?_, ?_⟩ <;> revert hState <;> cases t.code <;>
    simp +contextual [Code.parked, Code.resumable] <;> rintro rfl <;> simp

theorem Resting.change {t : KThread} {st st' : ProcState} (h : Resting t st)
    (hChange : StateChange k i st st') : Resting t st' := by
  cases hChange with
  | wake => exact ⟨h.sw, nofun, fun _ => h.resume (Or.inr rfl), nofun⟩
  | reap | discard => exact ⟨h.sw, nofun, by simp, nofun⟩
  | publish => exact ⟨h.sw, nofun, fun _ => by rw [h.used rfl]; rfl, nofun⟩

theorem Resting.eff {t : KThread} (hRest : Resting t (h.proc i).state) (hEff : StateEff me h k h') :
    Resting t (h'.proc i).state := by
  rcases hEff i with hSame | ⟨-, hChange⟩
  · rwa [hSame]
  · exact hRest.change hChange

/-- Only the thread that makes a new process changes it. -/
theorem StateEff.used
    (hEff : StateEff me h k h') (hUsed : (h.proc i).state = .used) (hChild : k.child ≠ some i) :
    (h'.proc i).state = .used := by
  rcases hEff i with hSame | ⟨-, hChange⟩
  · rw [hSame, hUsed]
  · generalize (h'.proc i).state = st at hChange
    rw [hUsed] at hChange
    cases hChange with
    | discard hKid | publish hKid => exact absurd hKid hChild

/-! ## The moves of a scheduler -/

/-- The scheduler only takes a lock, releases one, or goes on to the next process. -/
theorem CpuStep.look (hInv : SchedInv s)
    (hOn : (s.cpu c).on = none) (hOld : (s.cpu c).sched.chosen = none) (hNew : k.chosen = none)
    (hCode : k.inSched = true) (hProc : h.proc = s.sh.proc)
    (hLock : LockEff c s.sh.plock ((s.cpu c).sched.plock none) h.plock (k.plock none)) :
    CpuStep s ({ s with sh := h }.setCpu c { s.cpu c with sched := k }) c := by
  have hNone : (s.cpu c).proc = none := (hInv.chosen c).trans hOld
  have hHeld : ({ s with sh := h }.setCpu c { s.cpu c with sched := k }).held c = k.plock none := by
    rw [KSys.held_sched (by simpa using hOn)]
    simp
  exact
    { cpu := fun d hd => by simp [hd]
      keep := fun d q hd hq => ⟨rfl, by simp [hProc]⟩
      code := by simpa using hCode
      lock := by rwa [KSys.held_sched hOn, hHeld]
      chosen := by simpa [hNew] using hNone
      on := fun p hp => by simp [hOn] at hp
      mine := fun p hp => by simp [hNone] at hp
      rest := fun q _ hOther => by
        simp only [KSys.setCpu_th, KSys.setCpu_sh, hProc]
        exact hInv.rest_other (by simp [hNone]) hOther
      codeP := hInv.codeP
      kid := fun p i hp => by simpa [hProc] using hInv.kid p i hp
      kids := hInv.kids }

theorem CpuStep.pick (hInv : SchedInv s) (hOn : (s.cpu c).on = none)
    (hCode : (s.cpu c).sched = .sched2 i) (hState : (s.sh.proc i).state = .runnable) :
    CpuStep s ({ s with sh := s.sh.setProc i fun b => { b with state := .running } }.setCpu c
      { s.cpu c with proc := some i, sched := .sched3 i }) c := by
  have hNone : (s.cpu c).proc = none := by rw [hInv.chosen c, hCode]; rfl
  have hHeld : s.held c = some i := by rw [KSys.held_sched hOn, hCode]; rfl
  have hAlone := hInv.alone hHeld (by simp [hState])
  have hRest := hInv.rest_other (by simp [hNone]) hAlone
  exact
    { cpu := fun d hd => by simp [hd]
      keep := fun d q hd hq => by
        have hqi : q ≠ i := fun h => hAlone d hd (h ▸ hq)
        exact ⟨rfl, by simp [hqi]⟩
      code := by simp [Code.inSched]
      lock := by
        rw [hHeld, KSys.held_sched (by simpa using hOn)]
        exact .keep rfl (by simp [Code.plock])
      chosen := by simp [Code.chosen]
      on := fun p hp => by simp [hOn] at hp
      mine := fun p hp => by
        obtain rfl : i = p := by simpa using hp
        refine ⟨.about (by simpa using hOn) (by simp) hRest.sw (by simp) ?_, hAlone⟩
        exact hRest.resume (Or.inl hState)
      rest := fun q hq hOther => by
        have hqi : q ≠ i := fun h => hq (by simp [h])
        simpa [hqi] using hInv.rest_other (by simp [hNone]) hOther
      codeP := hInv.codeP
      kid := fun p j hp => by
        have hUsed := hInv.kid p j hp
        have hji : j ≠ i := fun h => by simp [h, hState] at hUsed
        simpa [hji] using hUsed
      kids := hInv.kids }

theorem CpuStep.resume (hInv : SchedInv s) (hOn : (s.cpu c).on = none)
    (hCode : (s.cpu c).sched = .sched3 i) :
    CpuStep s ((s.setCpu c { s.cpu c with on := some i, sched := .sched4 i }).setTh i
      { s.th i with sw := .run }) c := by
  have hProc : (s.cpu c).proc = some i := by rw [hInv.chosen c, hCode]; rfl
  have hOther : ∀ d q, d ≠ c → (s.cpu d).proc = some q → q ≠ i := fun d q hd hq h =>
    hd (hInv.uniq d c i (h ▸ hq) hProc)
  obtain ⟨-, hState, hResume⟩ := hInv.about hOn hCode
  have hth : ∀ p, (upd s.th i ⟨(s.th i).code, .run⟩ p).code = (s.th p).code := fun p => by
    by_cases hp : p = i <;> simp [hp]
  exact
    { cpu := fun d hd => by simp [hd]
      keep := fun d q hd hq => by simp [hOther d q hd hq]
      code := by simp [Code.inSched]
      lock := by
        rw [KSys.held_sched hOn, hCode, KSys.held_proc (p := i) (by simp)]
        refine .keep rfl ?_
        rw [KSys.setTh_th, upd_self]
        exact Code.plock_resumable hResume _
      chosen := by simpa [Code.chosen] using hProc
      on := fun p hp => by simpa [hProc] using hp
      mine := fun p hp => by
        obtain rfl : i = p := by simpa [hProc] using hp
        refine ⟨.runs (by simp) (by simp) (by simp) hState ?_, fun d hd hq => hOther d i hd hq rfl⟩
        simp only [KSys.setTh_th, upd_self]
        intro h
        simp [h, Code.resumable] at hResume
      rest := fun q hq hRest => by
        have hqi : q ≠ i := fun h => hq (by simp [h, hProc])
        simpa [hqi] using hInv.rest_other (by simp [hProc, Ne.symm hqi]) hRest
      codeP := fun p => by simpa [hth] using hInv.codeP p
      kid := fun p j => by simpa [hth] using hInv.kid p j
      kids := fun p q j => by simpa [hth] using hInv.kids p q j }

theorem CpuStep.back (hInv : SchedInv s) (hOn : (s.cpu c).on = none)
    (hCode : (s.cpu c).sched = .sched4 i) :
    CpuStep s ({ s with sh := s.sh.unlockP i }.setCpu c
      { s.cpu c with proc := none, sched := .sched1 (i + 1) }) c := by
  have hProc : (s.cpu c).proc = some i := by rw [hInv.chosen c, hCode]; rfl
  have hRest : Resting (s.th i) (s.sh.proc i).state := by
    cases hInv.engaged c i hProc with
    | about _ h => simp [hCode] at h
    | runs h | switching h => simp [hOn] at h
    | returned _ _ hSw hState => exact .of_parked hSw hState
  exact
    { cpu := fun d hd => by simp [hd]
      keep := fun d q hd hq => ⟨rfl, rfl⟩
      code := by simp [Code.inSched]
      lock := by
        rw [KSys.held_sched hOn, hCode, KSys.held_sched (by simpa using hOn)]
        exact .release rfl rfl (by simp [Code.plock])
      chosen := by simp [Code.chosen]
      on := fun p hp => by simp [hOn] at hp
      mine := fun p hp => by simp at hp
      rest := fun q _ hOther => by
        by_cases hq : q = i
        · exact hq ▸ hRest
        · exact hInv.rest_other (by simpa [hProc] using Ne.symm hq) hOther
      codeP := hInv.codeP
      kid := hInv.kid
      kids := hInv.kids }

/-- A scheduler thread is interrupted, or goes on in the interrupt handler. -/
theorem CpuStep.irq (hInv : SchedInv s) (hOn : (s.cpu c).on = none)
    (hMove : ClientMove nproc c (s.cpu c).proc s.sh (s.cpu c).sched op h k) :
    CpuStep s ({ s with sh := h }.setCpu c { s.cpu c with sched := k }) c := by
  obtain ⟨hOld, hNew⟩ := hMove.chosen (hInv.codeS c)
  have hNone : (s.cpu c).proc = none := (hInv.chosen c).trans hOld
  have hEff := hMove.eff (Or.inr (hInv.codeS c)) none
  have hHeld : ({ s with sh := h }.setCpu c { s.cpu c with sched := k }).held c = k.plock none := by
    rw [KSys.held_sched (by simpa using hOn)]
    simp
  exact
    { cpu := fun d hd => by simp [hd]
      keep := fun d q hd hq =>
        ⟨rfl, hInv.state_engaged hEff.state (KSys.held_sched hOn) (by simp [hNone]) hq⟩
      code := by simpa using (hMove.code (Or.inr rfl) (hInv.codeS c)).1
      lock := by
        rw [KSys.held_sched hOn, hHeld]
        exact hEff.lock
      chosen := by simpa [hNew] using hNone
      on := fun p hp => by simp [hOn] at hp
      mine := fun p hp => by simp [hNone] at hp
      rest := fun q _ hOther =>
        (hInv.rest_other (by simp [hNone]) hOther).eff hEff.state
      codeP := hInv.codeP
      kid := fun p i hp => by
        refine hEff.state.used (hInv.kid p i hp) fun hChild => ?_
        rw [Code.child_inSched (hInv.codeS c)] at hChild
        cases hChild
      kids := hInv.kids }

/-! ## The moves of a process -/

theorem SchedInv.engaged_run (hInv : SchedInv s)
    (hOn : (s.cpu c).on = some p) (hSw : (s.th p).sw = .run) :
    (s.sh.proc p).state = .running ∧ (s.th p).code ≠ .exit5 ∧ (s.cpu c).sched = .sched4 p := by
  cases hInv.engaged c p (hInv.on c p hOn) with
  | about h | returned h => simp [hOn] at h
  | runs _ hSched _ hState hCode => exact ⟨hState, hCode, hSched⟩
  | switching _ _ h => simp [hSw] at h

theorem SchedInv.engaged_switch (hInv : SchedInv s)
    (hOn : (s.cpu c).on = some p) (hSw : (s.th p).sw ≠ .run) :
    (s.th p).code.parked = some (s.sh.proc p).state ∧ (s.cpu c).sched = .sched4 p := by
  cases hInv.engaged c p (hInv.on c p hOn) with
  | about h | returned h => simp [hOn] at h
  | runs _ _ h => exact absurd h hSw
  | switching _ hSched _ hState => exact ⟨hState, hSched⟩

/-- Another CPU has another process. -/
theorem SchedInv.other (hInv : SchedInv s) (hOn : (s.cpu c).on = some p) (hd : d ≠ c) (hq : (s.cpu d).proc = some q) : q ≠ p := fun h =>
  hd (hInv.uniq d c p (h ▸ hq) (hInv.on c p hOn))

/-- The thread of process `p` goes on. -/
theorem CpuStep.run (hInv : SchedInv s)
    (hOn : (s.cpu c).on = some p) (hSw : (s.th p).sw = .run)
    (hEff : Eff c (some p) s.sh (s.th p).code h k) (hCode : k.inProc = true ∧ k ≠ .exit5) :
    CpuStep s ({ s with sh := h }.setTh p { s.th p with code := k }) c := by
  obtain ⟨hState, -, hSched⟩ := hInv.engaged_run hOn hSw
  have hProc := hInv.on c p hOn
  have hSame : ∀ d q, (s.cpu d).proc = some q → (h.proc q).state = (s.sh.proc q).state :=
    fun d q hq => hInv.state_engaged hEff.state (KSys.held_proc hOn)
      (fun i hi hEq => hi (by rw [hProc] at hEq; cases hEq; exact hState)) hq
  exact
    { cpu := fun d hd => rfl
      keep := fun d q hd hq => ⟨by simp [hInv.other hOn hd hq], hSame d q hq⟩
      code := hInv.codeS c
      lock := by
        rw [KSys.held_proc hOn, KSys.held_proc (p := p) (by simpa using hOn)]
        simpa using hEff.lock
      chosen := hInv.chosen c
      on := hInv.on c
      mine := fun q hq => by
        obtain rfl : p = q := by simpa [hProc] using hq
        refine ⟨.runs hOn hSched (by simpa using hSw) ?_ (by simpa using hCode.2),
          fun d hd hq => hInv.other hOn hd hq rfl⟩
        exact (hSame c p hProc).trans hState
      rest := fun q hq hOther => by
        have hqp : q ≠ p := fun h => hq (h ▸ hProc)
        simpa [hqp] using (hInv.rest_other hq hOther).eff hEff.state
      codeP := fun q => by
        by_cases hqp : q = p
        · simpa [hqp] using hCode.1
        · simpa [hqp] using hInv.codeP q
      kid := fun q i hq => by
        by_cases hqp : q = p
        · subst hqp
          rw [KSys.setTh_th, upd_self] at hq
          rcases hEff.kid with hNone | ⟨hChild, hUsed⟩
          · simp [hNone] at hq
          · exact hUsed i (hInv.kid q i (hChild.symm.trans hq))
        · rw [KSys.setTh_th, upd_of_ne hqp] at hq
          exact hEff.state.used (hInv.kid q i hq) fun hChild => hqp (hInv.kids q p i hq hChild)
      kids := by
        have hSub : ∀ q i, (upd s.th p { s.th p with code := k } q).code.child = some i →
            (s.th q).code.child = some i := fun q i hq => by
          by_cases hqp : q = p
          · subst hqp
            rw [upd_self] at hq
            rcases hEff.kid with hNone | ⟨hChild, -⟩
            · simp [hNone] at hq
            · exact hChild.symm.trans hq
          · rwa [upd_of_ne hqp] at hq
        exact fun q r i hq hr => hInv.kids q r i (hSub q i hq) (hSub r i hr) }

theorem CpuStep.alloc (hInv : SchedInv s) (hOn : (s.cpu c).on = some p)
    (hSw : (s.th p).sw = .run) (hCode : (s.th p).code = .fork2 i)
    (hState : (s.sh.proc i).state = .unused) : CpuStep s (s.allocated p i) c := by
  obtain ⟨hRun, -, hSched⟩ := hInv.engaged_run hOn hSw
  have hProc := hInv.on c p hOn
  have hip : i ≠ p := fun h => by
    rw [h, hRun] at hState
    cases hState
  have hHeld : s.held c = some i := by rw [KSys.held_proc hOn, hCode]; rfl
  have hAlone := hInv.alone hHeld (by simp [hState])
  have hth : (s.allocated p i).th =
      upd (upd s.th i ⟨.forkret, .off⟩) p { s.th p with code := .fork3 i } := by
    simp [KSys.allocated]
  have hst : (s.allocated p i).sh.proc =
      upd s.sh.proc i { s.sh.proc i with pid := s.sh.nextpid, state := .used } := rfl
  have hUsed : ∀ j, (s.sh.proc j).state = .used → j ≠ i := fun j hj h => by
    simp [h, hState] at hj
  have hSub : ∀ q j, q ≠ p → ((s.allocated p i).th q).code.child = some j →
      (s.th q).code.child = some j := fun q j hqp hq => by
    rw [hth, upd_of_ne hqp] at hq
    by_cases hqi : q = i
    · simp [hqi, Code.child] at hq
    · rwa [upd_of_ne hqi] at hq
  have hNewKid : ∀ j, ((s.allocated p i).th p).code.child = some j → i = j := fun j hj => by
    simpa [hth, Code.child] using hj
  exact
    { cpu := fun d hd => rfl
      keep := fun d q hd hq => by
        have hqi : q ≠ i := fun h => hAlone d hd (h ▸ hq)
        rw [hth, hst]
        simp [hqi, hInv.other hOn hd hq]
      code := hInv.codeS c
      lock := by
        rw [hHeld, KSys.held_proc (s := s.allocated p i) hOn, hth]
        exact .keep rfl (by simp [Code.plock])
      chosen := hInv.chosen c
      on := hInv.on c
      mine := fun q hq => by
        obtain rfl : p = q := by simpa [hProc] using (show (s.cpu c).proc = some q from hq)
        refine ⟨.runs hOn hSched (by simpa [hth] using hSw) ?_ (by simp [hth]),
          fun d hd hq => hInv.other hOn hd hq rfl⟩
        rw [hst]
        simpa [Ne.symm hip] using hRun
      rest := fun q hq hOther => by
        have hqp : q ≠ p := fun h => hq (h ▸ hProc)
        by_cases hqi : q = i
        · subst hqi
          rw [hth, hst]
          simp only [upd_of_ne hqp, upd_self]
          exact ⟨rfl, by simp, by simp, fun _ => rfl⟩
        · rw [hth, hst]
          simpa [hqp, hqi] using hInv.rest_other hq hOther
      codeP := fun q => by
        rw [hth]
        by_cases hqp : q = p
        · simp [hqp, Code.inProc]
        · by_cases hqi : q = i
          · simp [hqi, hip, Code.inProc]
          · simpa [hqp, hqi] using hInv.codeP q
      kid := fun q j hq => by
        by_cases hqp : q = p
        · subst hqp
          rw [← hNewKid j hq, hst]
          simp
        · have hj := hInv.kid q j (hSub q j hqp hq)
          rw [hst]
          simpa [hUsed j hj] using hj
      kids := fun q r j hq hr => by
        by_cases hqp : q = p
        · by_cases hrp : r = p
          · rw [hqp, hrp]
          · subst hqp
            exact absurd (hNewKid j hq).symm (hUsed j (hInv.kid r j (hSub r j hrp hr)))
        · by_cases hrp : r = p
          · subst hrp
            exact absurd (hNewKid j hr).symm (hUsed j (hInv.kid q j (hSub q j hqp hq)))
          · exact hInv.kids q r j (hSub q j hqp hq) (hSub r j hrp hr) }

/-- What the three calls of `sched` have in common. -/
theorem SchedMove.eff (hMove : SchedMove p h k op h' k') (hCode : k.inProc = true) :
    h'.plock = h.plock ∧ k.plock (some p) = some p ∧ k'.inProc = true ∧
      (∃ b, h'.proc = upd h.proc p b ∧ k'.parked = some b.state) ∧
      (k'.child = none ∨ k'.child = k.child) := by
  cases hMove with
  | sleep | exit => exact ⟨rfl, rfl, rfl, ⟨_, rfl, rfl⟩, Or.inl rfl⟩
  | yield => exact ⟨rfl, rfl, hCode, ⟨_, rfl, rfl⟩, Or.inr rfl⟩

theorem CpuStep.sched (hInv : SchedInv s)
    (hOn : (s.cpu c).on = some p) (hSw : (s.th p).sw = .run)
    (hMove : SchedMove p s.sh (s.th p).code op h k) :
    CpuStep s ({ s with sh := h }.setTh p { code := k, sw := .saving }) c := by
  obtain ⟨hRun, -, hSched⟩ := hInv.engaged_run hOn hSw
  obtain ⟨hLock, hHeld, hCode, ⟨b, hst, hPark⟩, hKid⟩ := hMove.eff (hInv.codeP p)
  have hProc := hInv.on c p hOn
  have hSub : ∀ q j, (upd s.th p ⟨k, .saving⟩ q).code.child = some j →
      (s.th q).code.child = some j := fun q j hq => by
    by_cases hqp : q = p
    · subst hqp
      rw [upd_self] at hq
      rcases hKid with hNone | hChild
      · simp [hNone] at hq
      · exact hChild.symm.trans hq
    · rwa [upd_of_ne hqp] at hq
  exact
    { cpu := fun d hd => rfl
      keep := fun d q hd hq => by simp [hst, hInv.other hOn hd hq]
      code := hInv.codeS c
      lock := by
        rw [KSys.held_proc hOn, hHeld, KSys.held_proc (p := p) (by simpa using hOn)]
        exact .keep hLock (by simpa using Code.plock_parked hPark _)
      chosen := hInv.chosen c
      on := hInv.on c
      mine := fun q hq => by
        obtain rfl : p = q := by simpa [hProc] using hq
        exact ⟨.switching hOn hSched (by simp) (by simpa [hst] using hPark),
          fun d hd hq => hInv.other hOn hd hq rfl⟩
      rest := fun q hq hOther => by
        have hqp : q ≠ p := fun h => hq (h ▸ hProc)
        simpa [hst, hqp] using hInv.rest_other hq hOther
      codeP := fun q => by
        by_cases hqp : q = p
        · simpa [hqp] using hCode
        · simpa [hqp] using hInv.codeP q
      kid := fun q j hq => by
        have hUsed := hInv.kid q j (hSub q j hq)
        have hjp : j ≠ p := fun h => by simp [h, hRun] at hUsed
        simpa [hst, hjp] using hUsed
      kids := fun q r j hq hr => hInv.kids q r j (hSub q j hq) (hSub r j hr) }

/-- `swtch` goes on: the registers are stored, or the CPU leaves the stack. -/
theorem CpuStep.swtch {sw : Switch} {on : Option Nat} (hInv : SchedInv s)
    (hOn : (s.cpu c).on = some p) (hSw : (s.th p).sw ≠ .run)
    (hNew : sw = .leaving ∧ on = some p ∨ sw = .off ∧ on = none) :
    CpuStep s ((s.setTh p { s.th p with sw := sw }).setCpu c { s.cpu c with on := on }) c := by
  obtain ⟨hPark, hSched⟩ := hInv.engaged_switch hOn hSw
  have hProc := hInv.on c p hOn
  have hth : ∀ q, (upd s.th p ⟨(s.th p).code, sw⟩ q).code = (s.th q).code := fun q => by
    by_cases hq : q = p <;> simp [hq]
  exact
    { cpu := fun d hd => by simp [hd]
      keep := fun d q hd hq => by simp [hInv.other hOn hd hq]
      code := by simpa using hInv.codeS c
      lock := by
        rw [KSys.held_proc hOn, Code.plock_parked hPark]
        refine .keep rfl ?_
        rcases hNew with ⟨rfl, rfl⟩ | ⟨rfl, rfl⟩
        · rw [KSys.held_proc (p := p) (by simp), KSys.setCpu_th, KSys.setTh_th, hth]
          exact Code.plock_parked hPark _
        · rw [KSys.held_sched (by simp)]
          simp [hSched, Code.plock]
      chosen := by simpa using hInv.chosen c
      on := fun q hq => by
        rcases hNew with ⟨-, rfl⟩ | ⟨-, rfl⟩
        · simpa [hProc] using hq
        · simp at hq
      mine := fun q hq => by
        obtain rfl : p = q := by simpa [hProc] using hq
        refine ⟨?_, fun d hd hq => hInv.other hOn hd hq rfl⟩
        rcases hNew with ⟨rfl, rfl⟩ | ⟨rfl, rfl⟩
        · exact .switching (by simp) (by simpa using hSched) (by simp) (by simpa using hPark)
        · exact .returned (by simp) (by simpa using hSched) (by simp) (by simpa using hPark)
      rest := fun q hq hOther => by
        have hqp : q ≠ p := fun h => hq (by simp [h, hProc])
        simpa [hqp] using hInv.rest_other (by simpa using hq) hOther
      codeP := fun q => by simpa [hth] using hInv.codeP q
      kid := fun q j => by simpa [hth] using hInv.kid q j
      kids := fun q r j => by simpa [hth] using hInv.kids q r j }

/-! ## Runs -/

theorem KMove.cpuStep (hInv : SchedInv s)
    (hMove : KMove nproc s c op s') : CpuStep s s' c := by
  cases hMove with
  | wrap hOn hCode =>
    exact CpuStep.look hInv hOn (by rw [hCode]; rfl) rfl rfl rfl (.keep rfl (by rw [hCode]; rfl))
  | grab hOn hCode hi hFree =>
    exact CpuStep.look hInv hOn (by rw [hCode]; rfl) rfl rfl rfl
      (.acquire hFree (by rw [hCode]; rfl) rfl rfl)
  | pick hOn hCode hState => exact CpuStep.pick hInv hOn hCode hState
  | pass hOn hCode hState =>
    exact CpuStep.look hInv hOn (by rw [hCode]; rfl) rfl rfl rfl
      (.release (by rw [hCode]; rfl) rfl rfl)
  | resume hOn hCode => exact CpuStep.resume hInv hOn hCode
  | back hOn hCode => exact CpuStep.back hInv hOn hCode
  | irq hOn hMove => exact CpuStep.irq hInv hOn hMove
  | exit hOn hSw hCode hp =>
    refine CpuStep.run hInv hOn hSw ?_ ⟨rfl, Code.noConfusion⟩
    rw [hCode]
    exact ⟨.keep rfl rfl, .refl rfl, .refl rfl rfl⟩
  | alloc hOn hSw hCode hState => exact CpuStep.alloc hInv hOn hSw hCode hState
  | sched hOn hSw hMove _ _ => exact CpuStep.sched hInv hOn hSw hMove
  | @proc p _ _ _ hOn hSw hMove =>
    exact CpuStep.run hInv hOn hSw (hMove.eff (hInv.codeP p) (hInv.kid p))
      (hMove.code (hInv.codeP p))
  | @save p hOn hSw =>
    have hStep := CpuStep.swtch hInv hOn (by simp [hSw]) (Or.inl ⟨rfl, rfl⟩)
    have hSame : { s.cpu c with on := some p } = s.cpu c := by rw [← hOn]
    rw [hSame, KSys.setCpu, KSys.setTh_cpu, upd_eta] at hStep
    exact hStep
  | leave hOn hSw => exact CpuStep.swtch hInv hOn (by simp [hSw]) (Or.inr ⟨rfl, rfl⟩)

theorem schedInv_initial (cond : Nat × Nat → Bool) : SchedInv (KSys.initial cond) where
  codeP _ := rfl
  codeS _ := rfl
  locks _ _ := ⟨nofun, nofun⟩
  chosen _ := rfl
  on _ _ := nofun
  uniq _ _ _ := nofun
  engaged _ _ := nofun
  rest p _ := by
    refine ⟨rfl, ?_, fun _ => rfl, fun _ => rfl⟩
    show (upd (fun _ => Pcb.free) initproc { Pcb.free with state := .runnable, pid := 1 } p).state ≠ _
    by_cases hp : p = initproc <;> simp [hp, Pcb.free]
  kid _ _ := nofun
  kids _ _ _ := nofun

/-- The invariant holds in every state that is reached. -/
theorem schedInv_run {tr : List (Nat × KOp)} (h : (kLts nproc).Run tr s) :
    SchedInv s :=
  h.invariant (I := fun _ s => SchedInv s)
    (by rintro _ ⟨cond, rfl⟩; exact schedInv_initial cond)
    (fun _ _ _ _ _ hInv hStep => ((kMove_of_step hStep).cpuStep hInv).inv hInv)

/-- In every run, `sched` does not panic and `exit` does not return; the only panic is that of an init process that exits. -/
theorem sched_no_panic {tr : List (Nat × KOp)} {a : Nat × KOp} {e : KPanic} (h : (kLts nproc).Run tr s)
    (hStep : s.step nproc a = some (.error e)) : e = .initExiting ∧ (s.cpu a.1).on = some initproc := by
  have hInv := schedInv_run h
  obtain ⟨c, op⟩ := a
  unfold KSys.step at hStep
  split at hStep
  · simp at hStep
  · rename_i p hOn
    split at hStep
    · rename_i hSw
      obtain ⟨-, hExit, -⟩ := hInv.engaged_run hOn hSw
      have hHeld := KSys.held_proc hOn
      have hCode := hInv.codeP p
      generalize (s.th p).code = k at hStep hExit hHeld hCode
      unfold KSys.stepProc at hStep
      split at hStep
      · split at hStep
        · next hInit =>
          cases hStep
          exact ⟨rfl, hInit ▸ hOn⟩
        · cases hStep
      · exact absurd rfl hExit
      · split at hStep <;> cases hStep
      · split at hStep
        · rename_i h₁ k₁ hCall
          obtain ⟨hSame, hLock, -, ⟨b, hst, hb⟩, -⟩ := (schedMove_of_call hCall).eff hCode
          unfold KSys.sched at hStep
          split at hStep
          · rename_i hNot
            exact absurd (hSame ▸ (hInv.locks p c).mpr (hHeld.trans hLock)) hNot
          · split at hStep
            · rename_i hRunning
              rw [hst, upd_self] at hRunning
              exact absurd hRunning (Resting.of_parked (t := ⟨k₁, .off⟩) rfl hb).running
            · cases hStep
        · obtain ⟨_, _, hEq⟩ := Option.map_eq_some_iff.mp hStep
          cases hEq
    · cases hStep
    · cases hStep
    · cases hStep

theorem sched_no_panic_init : ∃ s e, (kLts 1).Run (List.replicate 4 (0, .next)) s ∧
    s.step 1 (0, .exit 7) = some (.error e) ∧ e = .initExiting := by
  obtain ⟨s, e, hExec, hStep⟩ : ∃ s e, (kLts 1).exec (KSys.initial fun _ => false) (List.replicate 4 (0, .next)) = some s ∧
      s.step 1 (0, .exit 7) = some (.error e) := ⟨_, _, rfl, rfl⟩
  have hRun := Lts.run_of_exec (Lts.Run.start (KSys.init_initial 1 _)) hExec
  exact ⟨s, e, hRun, hStep, (sched_no_panic hRun hStep).1⟩

/-- The context of a process is loaded by the step `resume` only, after its stack was left. -/
theorem KMove.resumed (hInv : SchedInv s)
    (hMove : KMove nproc s c op s') (hOn : (s.cpu c).on = none) (hNew : (s'.cpu c).on = some p) :
    (s.th p).sw = .off ∧ ∀ d, (s.cpu d).on ≠ some p := by
  cases hMove with
  | @resume i _ hCode =>
    obtain rfl : i = p := by simpa using hNew
    have hProc : (s.cpu c).proc = some i := by rw [hInv.chosen c, hCode]; rfl
    refine ⟨(hInv.about hOn hCode).1, fun d hd => ?_⟩
    have hdc := hInv.uniq d c i (hInv.on d i hd) hProc
    simp [hdc, hOn] at hd
  | wrap | grab | pick | pass | back | irq => simp [hOn] at hNew
  | exit h | alloc h | sched h | proc h | save h | leave h => simp [hOn] at h

/-- The slot of a process that ended, or that was never used, changes its state only while no
CPU has the process. -/
theorem KMove.slot (hInv : SchedInv s)
    (hMove : KMove nproc s c op s')
    (hOld : (s.sh.proc p).state = .zombie ∨ (s.sh.proc p).state = .unused)
    (hNew : (s'.sh.proc p).state ≠ (s.sh.proc p).state) (d : Nat) : (s.cpu d).proc ≠ some p := by
  -- whoever changes a state holds the lock
  have hEff : ∀ {me : Option Nat} {k : Code} {h : Shared}, StateEff me s.sh k h →
      s.held c = k.plock me → (s.cpu c).proc ≠ some p →
      (h.proc p).state ≠ (s.sh.proc p).state → (s.cpu d).proc ≠ some p := by
    intro me k h hEff hHeld hc hNew
    rcases hEff p with hSame | ⟨hLock, -⟩
    · exact absurd hSame hNew
    · by_cases hd : d = c
      · exact hd ▸ hc
      · refine hInv.alone (hHeld.trans hLock) (fun h => ?_) d hd
        simp [h] at hOld
  have hRunning : ∀ q, (s.sh.proc q).state = .running → q ≠ p := fun q hq h => by
    subst h
    simp [hq] at hOld
  cases hMove with
  | wrap | grab | pass | resume | back | exit | save | leave => exact absurd rfl hNew
  | @pick i hOn hCode hState =>
    have hpi : p ≠ i := fun h => by
      subst h
      simp [hState] at hOld
    exact absurd (by simp [hpi]) hNew
  | irq hOn hMove =>
    have hNone : (s.cpu c).proc = none := (hInv.chosen c).trans (hMove.chosen (hInv.codeS c)).1
    exact hEff (hMove.eff (Or.inr (hInv.codeS c)) none).state (KSys.held_sched hOn)
      (by simp [hNone]) hNew
  | @alloc q i hOn hSw hCode hState =>
    have hq := hRunning q (hInv.engaged_run hOn hSw).1
    by_cases hpi : p = i
    · subst hpi
      have hHeld : s.held c = some p := by rw [KSys.held_proc hOn, hCode]; rfl
      by_cases hd : d = c
      · subst hd
        simpa [hInv.on d q hOn] using hq
      · exact hInv.alone hHeld (by simp [hState]) d hd
    · exact absurd (by simp [KSys.allocated, hpi]) hNew
  | @sched q _ h k hOn hSw hMove _ _ =>
    have hq := hRunning q (hInv.engaged_run hOn hSw).1
    obtain ⟨-, -, -, ⟨b, hst, -⟩, -⟩ := hMove.eff (hInv.codeP q)
    exact absurd (by simp [hst, Ne.symm hq]) hNew
  | @proc q _ h k hOn hSw hMove =>
    have hq := hRunning q (hInv.engaged_run hOn hSw).1
    exact hEff (hMove.eff (hInv.codeP q) (hInv.kid q)).state (KSys.held_proc hOn)
      (by simpa [hInv.on c q hOn] using hq) hNew

/-- In every state that is reached, for a process whose lock is free: it is `RUNNING` if and only
if it is the `c->proc` of exactly one CPU, and a CPU on its stack runs it in that state. In every
step from there, a CPU goes to the stack of a process only when the process has left it and no
CPU is on it; and the slot of a `ZOMBIE` or `UNUSED` process is freed or taken only when no CPU
is on its stack. -/
theorem sched_exclusive {nproc : Nat} {tr : List (Nat × KOp)} {s : KSys}
    (h : (kLts nproc).Run tr s) (p : Nat) :
    (s.sh.plock p = none →
      ((s.sh.proc p).state = .running ↔ ∃! c, (s.cpu c).proc = some p) ∧
      ∀ c, (s.cpu c).on = some p → (s.sh.proc p).state = .running) ∧
    ∀ c op s', (kLts nproc).step s (c, op) = some (.ok s') →
      ((s.cpu c).on = none → (s'.cpu c).on = some p →
        (s.th p).sw = .off ∧ ∀ d, (s.cpu d).on ≠ some p) ∧
      ((s.sh.proc p).state = .zombie ∨ (s.sh.proc p).state = .unused →
        (s'.sh.proc p).state ≠ (s.sh.proc p).state → ∀ d, (s.cpu d).on ≠ some p) := by
  have hInv := schedInv_run h
  refine ⟨fun hFree => ?_, fun c op s' hStep => ?_⟩
  · have hRun : ∀ c, (s.cpu c).proc = some p → (s.sh.proc p).state = .running := fun c hc => by
      rcases hInv.running_or_held hc with hRun | hHeld
      · exact hRun
      · rw [(hInv.locks p c).mpr hHeld] at hFree
        cases hFree
    refine ⟨⟨fun hState => ?_, fun ⟨c, hc, _⟩ => hRun c hc⟩, fun c hc => hRun c (hInv.on c p hc)⟩
    obtain ⟨c, hc⟩ : ∃ c, (s.cpu c).proc = some p := by
      by_contra hNone
      exact (hInv.rest p fun c hc => hNone ⟨c, hc⟩).running hState
    exact ⟨c, hc, fun d hd => hInv.uniq d c p hd hc⟩
  · have hMove := kMove_of_step hStep
    exact ⟨hMove.resumed hInv, fun hOld hNew d hd => hMove.slot hInv hOld hNew d (hInv.on d p hd)⟩

/-- The first process runs. -/
theorem sched_exclusive_init :
    ∃ s, (kLts 1).Run (List.replicate 4 (0, .next)) s ∧ s.sh.plock 0 = none ∧
      (s.cpu 0).on = some 0 ∧ (s.sh.proc 0).state = .running := by
  obtain ⟨s, hExec, hFree, hOn⟩ : ∃ s, (kLts 1).exec (KSys.initial fun _ => false)
      (List.replicate 4 (0, .next)) = some s ∧ s.sh.plock 0 = none ∧ (s.cpu 0).on = some 0 :=
    ⟨_, rfl, rfl, rfl⟩
  have hRun := Lts.run_of_exec (Lts.Run.start (KSys.init_initial 1 _)) hExec
  exact ⟨s, hRun, hFree, hOn, ((sched_exclusive hRun 0).1 hFree).2 0 hOn⟩

end Xv6
