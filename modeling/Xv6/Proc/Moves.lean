import Xv6.Proc.Model

/-!
# xv6 — what a step of a CPU can do

The step functions of `Proc/Model.lean` as relations with one constructor for each statement:
`ClientMove` for critical sections and `wakeup`, `ProcMove` for the thread of a process,
`SchedMove` for the calls of `sched`, `KMove` for the system. Invariants are proved by cases on
them.
-/

namespace Xv6

variable {h h' : Shared} {c nproc p : Nat} {k k' : Code} {op : KOp}

namespace Shared

@[simp] theorem setProc_proc (h : Shared) (i : Nat) (f : Pcb → Pcb) :
    (h.setProc i f).proc = upd h.proc i (f (h.proc i)) := rfl
@[simp] theorem unlockP_proc (h : Shared) (i : Nat) : (h.unlockP i).proc = h.proc := rfl
@[simp] theorem unlockW_proc (h : Shared) : h.unlockW.proc = h.proc := rfl
@[simp] theorem unlockL_proc (h : Shared) (l : Nat) : (h.unlockL l).proc = h.proc := rfl

/-- CPU `c` has the lock of process `i`. -/
def gotP (h : Shared) (c i : Nat) : Shared := { h with plock := upd h.plock i (some c) }

def gotW (h : Shared) (c : Nat) : Shared := { h with wlock := some c }

def gotL (h : Shared) (c l : Nat) : Shared := { h with lk := upd h.lk l (some c) }

@[simp] theorem gotP_proc (h : Shared) (c i : Nat) : (h.gotP c i).proc = h.proc := rfl
@[simp] theorem gotW_proc (h : Shared) (c : Nat) : (h.gotW c).proc = h.proc := rfl
@[simp] theorem gotL_proc (h : Shared) (c l : Nat) : (h.gotL c l).proc = h.proc := rfl

theorem lockP_some {i : Nat} (hEq : h.lockP c i = some h') :
    h.plock i = none ∧ h' = h.gotP c i := by
  unfold lockP at hEq
  split at hEq
  · cases hEq
    exact ⟨‹_›, rfl⟩
  · cases hEq

theorem lockW_some (hEq : h.lockW c = some h') :
    h.wlock = none ∧ h' = h.gotW c := by
  unfold lockW at hEq
  split at hEq
  · cases hEq
    exact ⟨‹_›, rfl⟩
  · cases hEq

theorem lockL_some {l : Nat} (hEq : h.lockL c l = some h') :
    h.lk l = none ∧ h' = h.gotL c l := by
  unfold lockL at hEq
  split at hEq
  · cases hEq
    exact ⟨‹_›, rfl⟩
  · cases hEq

end Shared

/-! ## Critical sections and wakeup -/

inductive ClientMove (nproc c : Nat) (me : Option Nat) (h : Shared) :
    Code → KOp → Shared → Code → Prop where
  | set {l j : Nat} {d : List Nat} {b : Bool} {k : Code} :
      ClientMove nproc c me h (.crit l d k) (.set j b) { h with cond := upd h.cond (l, j) b }
        (.crit l (if b then j :: d else d.filter (· ≠ j)) k)
  | wakeup {l j : Nat} {d : List Nat} {k : Code} :
      ClientMove nproc c me h (.crit l d k) (.wakeup j) h
        (.wake (some (.obj l j)) 0 false (.crit l (d.filter (· ≠ j)) k))
  | unlock {l : Nat} {k : Code} :
      ClientMove nproc c me h (.crit l [] k) .unlock (h.unlockL l) k
  | wakeEnd {ch : Option Chan} {i : Nat} {k : Code} (hEnd : nproc ≤ i) :
      ClientMove nproc c me h (.wake ch i false k) .next h k
  | wakeSkip {ch : Option Chan} {i : Nat} {k : Code} (hi : i < nproc) (hMe : me = some i) :
      ClientMove nproc c me h (.wake ch i false k) .next h (.wake ch (i + 1) false k)
  | wakeLock {ch : Option Chan} {i : Nat} {k : Code} (hi : i < nproc) (hMe : me ≠ some i)
      (hFree : h.plock i = none) :
      ClientMove nproc c me h (.wake ch i false k) .next (h.gotP c i) (.wake ch i true k)
  | wakeTest {ch : Option Chan} {i : Nat} {k : Code} :
      ClientMove nproc c me h (.wake ch i true k) .next
        ((h.setProc i (Pcb.wakeup ch)).unlockP i) (.wake ch (i + 1) false k)
  | lock {l : Nat} {k : Code} (hk : k.lockFree = true) (hFree : h.lk l = none) :
      ClientMove nproc c me h k (.lock l) (h.gotL c l) (.crit l [] k)

theorem clientMove_of_step {me : Option Nat}
    (hStep : clientStep nproc c me h k op = some (h', k')) : ClientMove nproc c me h k op h' k' := by
  unfold clientStep at hStep
  split at hStep
  · cases hStep
    exact .set
  · cases hStep
    exact .wakeup
  · cases hStep
    exact .unlock
  · split at hStep
    · cases hStep
      exact .wakeEnd ‹_›
    · split at hStep
      · cases hStep
        exact .wakeSkip (by omega) ‹_›
      · rename_i hMe
        obtain ⟨h₁, hLock, hEq⟩ := Option.map_eq_some_iff.mp hStep
        obtain ⟨hFree, rfl⟩ := Shared.lockP_some hLock
        cases hEq
        exact .wakeLock (by omega) hMe hFree
  · cases hStep
    exact .wakeTest
  · split at hStep
    · obtain ⟨h₁, hLock, hEq⟩ := Option.map_eq_some_iff.mp hStep
      obtain ⟨hFree, rfl⟩ := Shared.lockL_some hLock
      cases hEq
      exact .lock ‹_› hFree
    · cases hStep
  · cases hStep

/-! ## The thread of a process -/

inductive ProcMove (nproc c p : Nat) (h : Shared) : Code → KOp → Shared → Code → Prop where
  | sleep {l j : Nat} (hCond : h.cond (l, j) = false) :
      ProcMove nproc c p h (.crit l [] .idle) (.sleep j) h (.sleep1 (.lk l j))
  | sleepLock {x : SleepLock} (hFree : h.plock p = none) :
      ProcMove nproc c p h (.sleep1 x) .next (h.gotP c p) (.sleep2 x)
  | sleepRelease {x : SleepLock} :
      ProcMove nproc c p h (.sleep2 x) .next (h.unlockX x) (.sleep3 x)
  | sleepTidy {x : SleepLock} :
      ProcMove nproc c p h (.sleep4 x) .next
        ((h.setProc p fun b => { b with chan := none }).unlockP p) (.sleep5 x)
  | sleepRelock {l j : Nat} (hFree : h.lk l = none) :
      ProcMove nproc c p h (.sleep5 (.lk l j)) .next (h.gotL c l) (.crit l [] .idle)
  | sleepRewait (hFree : h.wlock = none) :
      ProcMove nproc c p h (.sleep5 .wait) .next (h.gotW c) (.wait2 0 false)
  | yield {k : Code} (hk : k.lockFree = true) : ProcMove nproc c p h k .yield h (.yield1 k)
  | yieldLock {k : Code} (hFree : h.plock p = none) :
      ProcMove nproc c p h (.yield1 k) .next (h.gotP c p) (.yield2 k)
  | yieldEnd {k : Code} : ProcMove nproc c p h (.yield3 k) .next (h.unlockP p) k
  | forkret : ProcMove nproc c p h .forkret .next (h.unlockP p) .idle
  | kill {pid : BitVec 32} : ProcMove nproc c p h .idle (.kill pid) h (.kill1 pid 0)
  | killEnd {pid : BitVec 32} {i : Nat} (hEnd : nproc ≤ i) :
      ProcMove nproc c p h (.kill1 pid i) .next h .idle
  | killLock {pid : BitVec 32} {i : Nat} (hi : i < nproc) (hFree : h.plock i = none) :
      ProcMove nproc c p h (.kill1 pid i) .next (h.gotP c i) (.kill2 pid i)
  | killHit {pid : BitVec 32} {i : Nat} :
      ProcMove nproc c p h (.kill2 pid i) .next ((h.setProc i Pcb.kill).unlockP i) .idle
  | killMiss {pid : BitVec 32} {i : Nat} :
      ProcMove nproc c p h (.kill2 pid i) .next (h.unlockP i) (.kill1 pid (i + 1))
  | fork : ProcMove nproc c p h .idle .fork h (.fork1 0)
  | forkNone {i : Nat} (hEnd : nproc ≤ i) : ProcMove nproc c p h (.fork1 i) .next h .idle
  | forkLock {i : Nat} (hi : i < nproc) (hFree : h.plock i = none) :
      ProcMove nproc c p h (.fork1 i) .next (h.gotP c i) (.fork2 i)
  | forkSkip {i : Nat} (hState : (h.proc i).state ≠ .unused) :
      ProcMove nproc c p h (.fork2 i) .next (h.unlockP i) (.fork1 (i + 1))
  | forkCopy {i : Nat} : ProcMove nproc c p h (.fork3 i) .next (h.unlockP i) (.fork4 i)
  | forkFail {i : Nat} :
      ProcMove nproc c p h (.fork3 i) .fail ((h.setProc i fun _ => Pcb.free).unlockP i) .idle
  | forkWait {i : Nat} (hFree : h.wlock = none) :
      ProcMove nproc c p h (.fork4 i) .next (h.gotW c) (.fork5 i)
  | forkParent {i : Nat} :
      ProcMove nproc c p h (.fork5 i) .next
        ((h.setProc i fun b => { b with parent := some p }).unlockW) (.fork6 i)
  | forkRelock {i : Nat} (hFree : h.plock i = none) :
      ProcMove nproc c p h (.fork6 i) .next (h.gotP c i) (.fork7 i)
  | forkDone {i : Nat} :
      ProcMove nproc c p h (.fork7 i) .next
        ((h.setProc i fun b => { b with state := .runnable }).unlockP i) .idle
  | exitWait {status : Int} (hFree : h.wlock = none) :
      ProcMove nproc c p h (.exit1 status) .next (h.gotW c) (.exit2 status 0)
  | exitWake {status : Int} {i : Nat} (hEnd : nproc ≤ i) :
      ProcMove nproc c p h (.exit2 status i) .next h
        (.wake ((h.proc p).parent.map Chan.proc) 0 false (.exit3 status))
  | exitReparent {status : Int} {i : Nat} (hi : i < nproc) (hChild : (h.proc i).parent = some p) :
      ProcMove nproc c p h (.exit2 status i) .next
        (h.setProc i fun b => { b with parent := some initproc })
        (.wake (some (.proc initproc)) 0 false (.exit2 status (i + 1)))
  | exitSkip {status : Int} {i : Nat} (hi : i < nproc) (hChild : (h.proc i).parent ≠ some p) :
      ProcMove nproc c p h (.exit2 status i) .next h (.exit2 status (i + 1))
  | exitLock {status : Int} (hFree : h.plock p = none) :
      ProcMove nproc c p h (.exit3 status) .next (h.gotP c p) (.exit4 status)
  | wait : ProcMove nproc c p h .idle .wait h .wait1
  | waitLock (hFree : h.wlock = none) :
      ProcMove nproc c p h .wait1 .next (h.gotW c) (.wait2 0 false)
  | waitNone {i : Nat} {kids : Bool} (hEnd : nproc ≤ i) :
      ProcMove nproc c p h (.wait2 i kids) .next h.unlockW .idle
  | waitSleep {i : Nat} {kids : Bool} (hEnd : nproc ≤ i) :
      ProcMove nproc c p h (.wait2 i kids) .next h (.sleep1 .wait)
  | waitChild {i : Nat} {kids : Bool} (hi : i < nproc) (hChild : (h.proc i).parent = some p)
      (hFree : h.plock i = none) :
      ProcMove nproc c p h (.wait2 i kids) .next (h.gotP c i) (.wait3 i)
  | waitSkip {i : Nat} {kids : Bool} (hi : i < nproc) (hChild : (h.proc i).parent ≠ some p) :
      ProcMove nproc c p h (.wait2 i kids) .next h (.wait2 (i + 1) kids)
  | waitAlive {i : Nat} (hState : (h.proc i).state ≠ .zombie) :
      ProcMove nproc c p h (.wait3 i) .next (h.unlockP i) (.wait2 (i + 1) true)
  | waitDeliver {i : Nat} (hState : (h.proc i).state = .zombie) :
      ProcMove nproc c p h (.wait3 i) (.deliver p i (h.proc i).pid (h.proc i).xstate)
        (((h.setProc i fun _ => Pcb.free).unlockP i).unlockW) .idle
  | waitFail {i : Nat} (hState : (h.proc i).state = .zombie) :
      ProcMove nproc c p h (.wait3 i) .fail ((h.unlockP i).unlockW) .idle
  | client {k k' : Code} {op : KOp} {h' : Shared} (hMove : ClientMove nproc c (some p) h k op h' k') :
      ProcMove nproc c p h k op h' k'

/-- A lock was acquired on the way. -/
theorem map_lockP {i : Nat} (hEq : (h.lockP c i).map (fun h => (h, k)) = some (h', k')) :
    h.plock i = none ∧ h' = h.gotP c i ∧ k' = k := by
  obtain ⟨h₁, hLock, hPair⟩ := Option.map_eq_some_iff.mp hEq
  obtain ⟨hFree, rfl⟩ := Shared.lockP_some hLock
  cases hPair
  exact ⟨hFree, rfl, rfl⟩

theorem map_lockW (hEq : (h.lockW c).map (fun h => (h, k)) = some (h', k')) :
    h.wlock = none ∧ h' = h.gotW c ∧ k' = k := by
  obtain ⟨h₁, hLock, hPair⟩ := Option.map_eq_some_iff.mp hEq
  obtain ⟨hFree, rfl⟩ := Shared.lockW_some hLock
  cases hPair
  exact ⟨hFree, rfl, rfl⟩

theorem map_lockL {l : Nat} (hEq : (h.lockL c l).map (fun h => (h, k)) = some (h', k')) :
    h.lk l = none ∧ h' = h.gotL c l ∧ k' = k := by
  obtain ⟨h₁, hLock, hPair⟩ := Option.map_eq_some_iff.mp hEq
  obtain ⟨hFree, rfl⟩ := Shared.lockL_some hLock
  cases hPair
  exact ⟨hFree, rfl, rfl⟩

theorem procMove_of_sleepStep
    (hStep : sleepStep c p h k op = some (h', k')) : ProcMove nproc c p h k op h' k' := by
  unfold sleepStep at hStep
  split at hStep
  · split at hStep
    · cases hStep
      exact .sleep ‹_›
    · cases hStep
  · obtain ⟨hFree, rfl, rfl⟩ := map_lockP hStep
    exact .sleepLock hFree
  · cases hStep
    exact .sleepRelease
  · cases hStep
    exact .sleepTidy
  · obtain ⟨hFree, rfl, rfl⟩ := map_lockL hStep
    exact .sleepRelock hFree
  · obtain ⟨hFree, rfl, rfl⟩ := map_lockW hStep
    exact .sleepRewait hFree
  · split at hStep
    · cases hStep
      exact .yield ‹_›
    · cases hStep
  · obtain ⟨hFree, rfl, rfl⟩ := map_lockP hStep
    exact .yieldLock hFree
  · cases hStep
    exact .yieldEnd
  · cases hStep
    exact .forkret
  · cases hStep

theorem procMove_of_killStep
    (hStep : killStep nproc c h k op = some (h', k')) : ProcMove nproc c p h k op h' k' := by
  unfold killStep at hStep
  split at hStep
  · cases hStep
    exact .kill
  · split at hStep
    · cases hStep
      exact .killEnd ‹_›
    · obtain ⟨hFree, rfl, rfl⟩ := map_lockP hStep
      exact .killLock (by omega) hFree
  · split at hStep
    · cases hStep
      exact .killHit
    · cases hStep
      exact .killMiss
  · cases hStep

theorem procMove_of_forkStep
    (hStep : forkStep nproc c p h k op = some (h', k')) : ProcMove nproc c p h k op h' k' := by
  unfold forkStep at hStep
  split at hStep
  · cases hStep
    exact .fork
  · split at hStep
    · cases hStep
      exact .forkNone ‹_›
    · obtain ⟨hFree, rfl, rfl⟩ := map_lockP hStep
      exact .forkLock (by omega) hFree
  · split at hStep
    · cases hStep
      exact .forkSkip ‹_›
    · cases hStep
  · cases hStep
    exact .forkCopy
  · cases hStep
    exact .forkFail
  · obtain ⟨hFree, rfl, rfl⟩ := map_lockW hStep
    exact .forkWait hFree
  · cases hStep
    exact .forkParent
  · obtain ⟨hFree, rfl, rfl⟩ := map_lockP hStep
    exact .forkRelock hFree
  · cases hStep
    exact .forkDone
  · cases hStep

theorem procMove_of_exitStep
    (hStep : exitStep nproc c p h k op = some (h', k')) : ProcMove nproc c p h k op h' k' := by
  unfold exitStep at hStep
  split at hStep
  · obtain ⟨hFree, rfl, rfl⟩ := map_lockW hStep
    exact .exitWait hFree
  · split at hStep
    · cases hStep
      exact .exitWake ‹_›
    · split at hStep
      · cases hStep
        exact .exitReparent (by omega) ‹_›
      · cases hStep
        exact .exitSkip (by omega) ‹_›
  · obtain ⟨hFree, rfl, rfl⟩ := map_lockP hStep
    exact .exitLock hFree
  · cases hStep

theorem procMove_of_waitStep
    (hStep : waitStep nproc c p h k op = some (h', k')) : ProcMove nproc c p h k op h' k' := by
  unfold waitStep at hStep
  split at hStep
  · cases hStep
    exact .wait
  · obtain ⟨hFree, rfl, rfl⟩ := map_lockW hStep
    exact .waitLock hFree
  · split at hStep
    · split at hStep
      · cases hStep
        exact .waitNone ‹_›
      · cases hStep
        exact .waitSleep ‹_›
    · split at hStep
      · obtain ⟨hFree, rfl, rfl⟩ := map_lockP hStep
        exact .waitChild (by omega) ‹_› hFree
      · cases hStep
        exact .waitSkip (by omega) ‹_›
  · split at hStep
    · cases hStep
      exact .waitAlive ‹_›
    · cases hStep
  · split at hStep
    · rename_i hAll
      obtain ⟨hState, rfl, rfl, rfl, rfl⟩ := hAll
      cases hStep
      exact .waitDeliver hState
    · cases hStep
  · split at hStep
    · cases hStep
      exact .waitFail ‹_›
    · cases hStep
  · cases hStep

theorem procMove_of_step
    (hStep : procStep nproc c p h k op = some (h', k')) : ProcMove nproc c p h k op h' k' := by
  unfold procStep at hStep
  simp only [Option.orElse_eq_some] at hStep
  rcases hStep with hStep | ⟨-, hStep | ⟨-, hStep | ⟨-, hStep | ⟨-, hStep | ⟨-, hStep⟩⟩⟩⟩⟩
  · exact procMove_of_sleepStep hStep
  · exact procMove_of_killStep hStep
  · exact procMove_of_forkStep hStep
  · exact procMove_of_exitStep hStep
  · exact procMove_of_waitStep hStep
  · exact .client (clientMove_of_step hStep)

/-- The three calls of `sched`. -/
inductive SchedMove (p : Nat) (h : Shared) : Code → KOp → Shared → Code → Prop where
  | sleep {x : SleepLock} :
      SchedMove p h (.sleep3 x) .next
        (h.setProc p fun b => { b with chan := some (x.chan p), state := .sleeping }) (.sleep4 x)
  | yield {k : Code} :
      SchedMove p h (.yield2 k) .next (h.setProc p fun b => { b with state := .runnable }) (.yield3 k)
  | exit {status : Int} :
      SchedMove p h (.exit4 status) (.exited p (h.proc p).pid status)
        ((h.setProc p fun b => { b with xstate := status, state := .zombie }).unlockW) .exit5

theorem schedMove_of_call
    (hCall : schedCall p h k op = some (h', k')) : SchedMove p h k op h' k' := by
  unfold schedCall at hCall
  split at hCall
  · cases hCall
    exact .sleep
  · cases hCall
    exact .yield
  · split at hCall
    · rename_i hAll
      obtain ⟨rfl, rfl, rfl⟩ := hAll
      cases hCall
      exact .exit
    · cases hCall
  · cases hCall

/-! ## The system -/

namespace KSys

/-- The state after `allocproc` has taken slot `i`. -/
def allocated (s : KSys) (p i : Nat) : KSys :=
  ({ s with sh := { s.sh.setProc i fun b => { b with pid := s.sh.nextpid, state := .used } with
      nextpid := s.sh.nextpid + 1 } }.setTh i { code := .forkret, sw := .off }).setTh p
    { s.th p with code := .fork3 i }

end KSys

/-- A step of CPU `c`. The first group are those of its scheduler thread, the second those of the
process `p` that runs on it. -/
inductive KMove (nproc : Nat) (s : KSys) (c : Nat) : KOp → KSys → Prop where
  | wrap {i : Nat} (hOn : (s.cpu c).on = none) (hCode : (s.cpu c).sched = .sched1 i) :
      KMove nproc s c .next (s.setCpu c { s.cpu c with sched := .sched1 0 })
  | grab {i : Nat} (hOn : (s.cpu c).on = none) (hCode : (s.cpu c).sched = .sched1 i)
      (hi : i < nproc) (hFree : s.sh.plock i = none) :
      KMove nproc s c .next
        ({ s with sh := s.sh.gotP c i }.setCpu c { s.cpu c with sched := .sched2 i })
  | pick {i : Nat} (hOn : (s.cpu c).on = none) (hCode : (s.cpu c).sched = .sched2 i)
      (hState : (s.sh.proc i).state = .runnable) :
      KMove nproc s c .next
        ({ s with sh := s.sh.setProc i fun b => { b with state := .running } }.setCpu c
          { s.cpu c with proc := some i, sched := .sched3 i })
  | pass {i : Nat} (hOn : (s.cpu c).on = none) (hCode : (s.cpu c).sched = .sched2 i)
      (hState : (s.sh.proc i).state ≠ .runnable) :
      KMove nproc s c .next
        ({ s with sh := s.sh.unlockP i }.setCpu c { s.cpu c with sched := .sched1 (i + 1) })
  | resume {i : Nat} (hOn : (s.cpu c).on = none) (hCode : (s.cpu c).sched = .sched3 i) :
      KMove nproc s c .next
        ((s.setCpu c { s.cpu c with on := some i, sched := .sched4 i }).setTh i
          { s.th i with sw := .run })
  | back {i : Nat} (hOn : (s.cpu c).on = none) (hCode : (s.cpu c).sched = .sched4 i) :
      KMove nproc s c .next
        ({ s with sh := s.sh.unlockP i }.setCpu c
          { s.cpu c with proc := none, sched := .sched1 (i + 1) })
  | irq {op : KOp} {h : Shared} {k : Code} (hOn : (s.cpu c).on = none)
      (hMove : ClientMove nproc c (s.cpu c).proc s.sh (s.cpu c).sched op h k) :
      KMove nproc s c op ({ s with sh := h }.setCpu c { s.cpu c with sched := k })
  | exit {p : Nat} {status : Int} (hOn : (s.cpu c).on = some p) (hSw : (s.th p).sw = .run)
      (hCode : (s.th p).code = .idle) (hp : p ≠ initproc) :
      KMove nproc s c (.exit status) (s.setTh p { s.th p with code := .exit1 status })
  | alloc {p i : Nat} (hOn : (s.cpu c).on = some p) (hSw : (s.th p).sw = .run)
      (hCode : (s.th p).code = .fork2 i) (hState : (s.sh.proc i).state = .unused) :
      KMove nproc s c (.alloc p i s.sh.nextpid) (s.allocated p i)
  | sched {p : Nat} {op : KOp} {h : Shared} {k : Code} (hOn : (s.cpu c).on = some p)
      (hSw : (s.th p).sw = .run) (hMove : SchedMove p s.sh (s.th p).code op h k)
      (hLock : h.plock p = some c) (hState : (h.proc p).state ≠ .running) :
      KMove nproc s c op ({ s with sh := h }.setTh p { code := k, sw := .saving })
  | proc {p : Nat} {op : KOp} {h : Shared} {k : Code} (hOn : (s.cpu c).on = some p)
      (hSw : (s.th p).sw = .run) (hMove : ProcMove nproc c p s.sh (s.th p).code op h k) :
      KMove nproc s c op ({ s with sh := h }.setTh p { s.th p with code := k })
  | save {p : Nat} (hOn : (s.cpu c).on = some p) (hSw : (s.th p).sw = .saving) :
      KMove nproc s c .next (s.setTh p { s.th p with sw := .leaving })
  | leave {p : Nat} (hOn : (s.cpu c).on = some p) (hSw : (s.th p).sw = .leaving) :
      KMove nproc s c .next
        ((s.setTh p { s.th p with sw := .off }).setCpu c { s.cpu c with on := none })

theorem kMove_of_stepSched {s s' : KSys} (hOn : (s.cpu c).on = none)
    (hStep : s.stepSched nproc c (s.cpu c).sched op = some s') : KMove nproc s c op s' := by
  generalize hCode : (s.cpu c).sched = k at hStep
  unfold KSys.stepSched at hStep
  split at hStep
  · split at hStep
    · cases hStep
      exact .wrap hOn hCode
    · obtain ⟨h₁, hLock, hEq⟩ := Option.map_eq_some_iff.mp hStep
      obtain ⟨hFree, rfl⟩ := Shared.lockP_some hLock
      cases hEq
      exact .grab hOn hCode (by omega) hFree
  · split at hStep
    · cases hStep
      exact .pick hOn hCode ‹_›
    · cases hStep
      exact .pass hOn hCode ‹_›
  · cases hStep
    exact .resume hOn hCode
  · cases hStep
    exact .back hOn hCode
  · obtain ⟨⟨h₁, k₁⟩, hClient, hEq⟩ := Option.map_eq_some_iff.mp hStep
    cases hEq
    subst hCode
    exact .irq hOn (clientMove_of_step hClient)

theorem kMove_of_stepProc {s s' : KSys} (hOn : (s.cpu c).on = some p)
    (hSw : (s.th p).sw = .run) (hStep : s.stepProc nproc c p (s.th p).code op = some (.ok s')) :
    KMove nproc s c op s' := by
  generalize hCode : (s.th p).code = k at hStep
  unfold KSys.stepProc at hStep
  split at hStep
  · split at hStep
    · cases hStep
    · cases hStep
      exact .exit hOn hSw hCode ‹_›
  · cases hStep
  · split at hStep
    · rename_i hAll
      obtain ⟨hState, rfl, rfl, rfl⟩ := hAll
      cases hStep
      exact .alloc hOn hSw hCode hState
    · cases hStep
  · split at hStep
    · rename_i h₁ k₁ hCall
      subst hCode
      unfold KSys.sched at hStep
      split at hStep
      · cases hStep
      · split at hStep
        · cases hStep
        · rename_i hLock hState
          cases hStep
          exact .sched hOn hSw (schedMove_of_call hCall) (not_not.mp hLock) hState
    · obtain ⟨⟨h₁, k₁⟩, hProc, hEq⟩ := Option.map_eq_some_iff.mp hStep
      cases hEq
      subst hCode
      exact .proc hOn hSw (procMove_of_step hProc)

theorem kMove_of_step {s s' : KSys} {a : Nat × KOp}
    (hStep : s.step nproc a = some (.ok s')) : KMove nproc s a.1 a.2 s' := by
  obtain ⟨c, op⟩ := a
  unfold KSys.step at hStep
  split at hStep
  · rename_i hOn
    obtain ⟨s₁, hSched, hEq⟩ := Option.map_eq_some_iff.mp hStep
    cases hEq
    exact kMove_of_stepSched hOn hSched
  · rename_i p hOn
    split at hStep
    · rename_i hSw
      exact kMove_of_stepProc hOn hSw hStep
    · rename_i hSw hOp
      cases hStep
      rw [hOp]
      exact .save hOn hSw
    · rename_i hSw hOp
      cases hStep
      rw [hOp]
      exact .leave hOn hSw
    · cases hStep

end Xv6
