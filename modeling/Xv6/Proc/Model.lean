import Xv6.Lib.Lts
import Xv6.Lib.Upd
import Mathlib.Data.Option.Basic

/-!
# xv6 — processes and CPUs (`kernel/proc.c`)

Any number of CPUs, each running `scheduler()`, and `nproc` processes that call `fork`, `exit`,
`wait`, `kill`, `yield`, `sleep` and `wakeup`. What a thread does between two lock operations is
one step of the CPU it runs on, so that the steps of different CPUs interleave at the granularity of
the locks `p->lock` and `wait_lock`. `swtch` takes two steps: the registers are stored, then those
of the other thread are loaded; until the second one the CPU is still on the old stack.

Every kernel thread, be it that of a process or the scheduler of a CPU, is at some `Code`. A
timer interrupt makes the thread of a process call `yield` wherever it holds no lock; a device
interrupt makes any thread enter a critical section there, and return to where it was.

The rest of the kernel shows up as critical sections of numbered spin locks. Lock `l` protects the
conditions `(l, j)`, each with a channel of its own. Inside the section a thread may change a
condition and call `wakeup` and `sleep` on its channel. It sleeps only on a condition it found
false, and does not release the lock between making a condition true and the next `wakeup`.

Left out are the contents of processes (memory, files, name), `noff` and the interrupt flags.
-/

namespace Xv6

/-! ## Data -/

/-- `enum procstate` -/
inductive ProcState where
  | unused
  | used
  | sleeping
  | runnable
  | running
  | zombie
  deriving DecidableEq, Repr

/-- What a process can sleep on: a process (in `wait`), or the channel of condition `(l, j)`. -/
inductive Chan where
  | proc (p : Nat)
  | obj (l j : Nat)
  deriving DecidableEq, Repr

/-- The fields of `struct proc` that `p->lock` and `wait_lock` protect. A null pointer is `none`. -/
structure Pcb where
  state  : ProcState
  chan   : Option Chan
  killed : Bool
  xstate : Int
  pid    : BitVec 32
  parent : Option Nat

/-- `freeproc` -/
def Pcb.free : Pcb where
  state := .unused
  chan := none
  killed := false
  xstate := 0
  pid := 0
  parent := none

/-- The lock passed to `sleep`, with the condition that is waited for. -/
inductive SleepLock where
  | lk (l j : Nat)
  | wait
  deriving DecidableEq, Repr

/-- Where a kernel thread is. `k` is what follows. -/
inductive Code where
  /-- in user space, or in the kernel without locks -/
  | idle
  /-- `scheduler`: about to acquire the lock of process `i` -/
  | sched1 (i : Nat)
  /-- about to test its state -/
  | sched2 (i : Nat)
  /-- about to `swtch` to it -/
  | sched3 (i : Nat)
  /-- after `swtch` -/
  | sched4 (i : Nat)
  /-- in section `l`; `dirty`: conditions made true for which `wakeup` was not yet called -/
  | crit (l : Nat) (dirty : List Nat) (k : Code)
  /-- `wakeup(ch)`: about to acquire the lock of process `i`, or holding it -/
  | wake (ch : Option Chan) (i : Nat) (held : Bool) (k : Code)
  /-- `sleep`: about to acquire `p->lock` -/
  | sleep1 (x : SleepLock)
  /-- about to release `lk` -/
  | sleep2 (x : SleepLock)
  /-- about to set the state and call `sched` -/
  | sleep3 (x : SleepLock)
  /-- after `sched` -/
  | sleep4 (x : SleepLock)
  /-- about to reacquire `lk` -/
  | sleep5 (x : SleepLock)
  /-- `yield`: about to acquire `p->lock` -/
  | yield1 (k : Code)
  /-- about to set the state and call `sched` -/
  | yield2 (k : Code)
  /-- after `sched` -/
  | yield3 (k : Code)
  | forkret
  /-- `kill(pid)`: about to acquire the lock of process `i` -/
  | kill1 (pid : BitVec 32) (i : Nat)
  | kill2 (pid : BitVec 32) (i : Nat)
  /-- `fork`, `allocproc`: about to acquire the lock of process `i` -/
  | fork1 (i : Nat)
  /-- about to test its state -/
  | fork2 (i : Nat)
  /-- the new process `i` is allocated -/
  | fork3 (i : Nat)
  /-- about to acquire `wait_lock` -/
  | fork4 (i : Nat)
  /-- about to set its parent -/
  | fork5 (i : Nat)
  /-- about to acquire its lock again -/
  | fork6 (i : Nat)
  /-- about to make it `RUNNABLE` -/
  | fork7 (i : Nat)
  /-- `exit`: about to acquire `wait_lock` -/
  | exit1 (status : Int)
  /-- `reparent`, at process `i` -/
  | exit2 (status : Int) (i : Nat)
  /-- about to acquire `p->lock` -/
  | exit3 (status : Int)
  /-- about to become a `ZOMBIE` and call `sched` -/
  | exit4 (status : Int)
  /-- after `sched` -/
  | exit5
  /-- `wait`: about to acquire `wait_lock` -/
  | wait1
  /-- at process `i` of the scan -/
  | wait2 (i : Nat) (havekids : Bool)
  /-- holding the lock of the child `i` -/
  | wait3 (i : Nat)
  deriving DecidableEq, Repr

/-- The points at which a thread holds no lock and interrupts are on. -/
def Code.lockFree : Code → Bool
  | .idle | .sched1 _ | .sleep5 _ | .kill1 .. | .fork1 _ | .fork4 _ | .fork6 _ | .exit1 _
  | .wait1 => true
  | _ => false

/-- How far the thread of a process is in `swtch`. -/
inductive Switch where
  /-- it runs -/
  | run
  /-- about to store its registers -/
  | saving
  /-- they are stored -/
  | leaving
  /-- no CPU is on its stack -/
  | off
  deriving DecidableEq, Repr

structure KThread where
  code : Code
  sw   : Switch

/-- `proc`: `c->proc`. `on`: the process whose thread the CPU runs, `none` for its scheduler,
which is at `sched`. -/
structure Cpu where
  proc  : Option Nat
  on    : Option Nat
  sched : Code

/-- What all threads share. A lock is held by a CPU. -/
structure Shared where
  proc    : Nat → Pcb
  plock   : Nat → Option Nat
  wlock   : Option Nat
  lk      : Nat → Option Nat
  cond    : Nat × Nat → Bool
  nextpid : BitVec 32

structure KSys where
  sh  : Shared
  cpu : Nat → Cpu
  th  : Nat → KThread

inductive KPanic where
  /-- `panic("init exiting")` -/
  | initExiting
  /-- `panic("zombie exit")` -/
  | zombieExit
  /-- `panic("sched p->lock")` -/
  | schedLock
  /-- `panic("sched running")` -/
  | schedRunning
  deriving DecidableEq, Repr

/-- What a CPU does next; the numbers in `alloc`, `exited` and `deliver` are observed. -/
inductive KOp where
  | next
  /-- an interrupt, or the thread itself, enters section `l` -/
  | lock (l : Nat)
  | set (j : Nat) (b : Bool)
  | wakeup (j : Nat)
  | sleep (j : Nat)
  | unlock
  | yield
  | kill (pid : BitVec 32)
  | fork
  /-- `allocproc`, called by process `p`, takes slot `i` -/
  | alloc (p i : Nat) (pid : BitVec 32)
  /-- `fork` runs out of memory; `wait` cannot copy the status out -/
  | fail
  | exit (status : Int)
  /-- process `p` becomes a `ZOMBIE` -/
  | exited (p : Nat) (pid : BitVec 32) (status : Int)
  | wait
  /-- `wait` called by `p` returns the child in slot `i` -/
  | deliver (p i : Nat) (pid : BitVec 32) (status : Int)
  deriving DecidableEq, Repr

/-! ## Shared data -/

namespace Shared

def setProc (h : Shared) (i : Nat) (f : Pcb → Pcb) : Shared :=
  { h with proc := upd h.proc i (f (h.proc i)) }

/-- `acquire(&p->lock)` by CPU `c`; it spins while the lock is held. -/
def lockP (h : Shared) (c i : Nat) : Option Shared :=
  if h.plock i = none then some { h with plock := upd h.plock i (some c) } else none

def unlockP (h : Shared) (i : Nat) : Shared := { h with plock := upd h.plock i none }

/-- `acquire(&wait_lock)` -/
def lockW (h : Shared) (c : Nat) : Option Shared :=
  if h.wlock = none then some { h with wlock := some c } else none

def unlockW (h : Shared) : Shared := { h with wlock := none }

def lockL (h : Shared) (c l : Nat) : Option Shared :=
  if h.lk l = none then some { h with lk := upd h.lk l (some c) } else none

def unlockL (h : Shared) (l : Nat) : Shared := { h with lk := upd h.lk l none }

/-- `release(lk)` in `sleep` -/
def unlockX (h : Shared) : SleepLock → Shared
  | .lk l _ => h.unlockL l
  | .wait => h.unlockW

end Shared

/-- The body of the loop of `wakeup`. -/
def Pcb.wakeup (ch : Option Chan) (b : Pcb) : Pcb :=
  if b.state = .sleeping ∧ b.chan = ch then { b with state := .runnable } else b

/-- The body of the loop of `kill`. -/
def Pcb.kill (b : Pcb) : Pcb :=
  if b.state = .sleeping then { b with killed := true, state := .runnable }
  else { b with killed := true }

/-- The channel on which `sleep(chan, lk)` is called by process `p`. -/
def SleepLock.chan (p : Nat) : SleepLock → Chan
  | .lk l j => .obj l j
  | .wait => .proc p

/-- `initproc` -/
def initproc : Nat := 0

/-! ## Steps of a thread -/

/-- Critical sections and `wakeup`, in the thread of a process or of a scheduler; `me` is
`myproc()`. -/
def clientStep (nproc c : Nat) (me : Option Nat) (h : Shared) : Code → KOp → Option (Shared × Code)
  | .crit l d k, .set j b =>
    some ({ h with cond := upd h.cond (l, j) b }, .crit l (if b then j :: d else d.filter (· ≠ j)) k)
  | .crit l d k, .wakeup j =>
    some (h, .wake (some (.obj l j)) 0 false (.crit l (d.filter (· ≠ j)) k))
  | .crit l [] k, .unlock => some (h.unlockL l, k)
  | .wake ch i false k, .next =>
    if nproc ≤ i then some (h, k)
    else if me = some i then some (h, .wake ch (i + 1) false k)
    else (h.lockP c i).map fun h => (h, .wake ch i true k)
  | .wake ch i true k, .next =>
    some ((h.setProc i (Pcb.wakeup ch)).unlockP i, .wake ch (i + 1) false k)
  | k, .lock l =>
    if k.lockFree then (h.lockL c l).map fun h => (h, .crit l [] k) else none
  | _, _ => none

/-- `sleep`, `yield` and `forkret` in the thread of process `p`, but for the calls of `sched`. -/
def sleepStep (c p : Nat) (h : Shared) : Code → KOp → Option (Shared × Code)
  | .crit l [] .idle, .sleep j =>
    if h.cond (l, j) = false then some (h, .sleep1 (.lk l j)) else none
  | .sleep1 x, .next => (h.lockP c p).map fun h => (h, .sleep2 x)
  | .sleep2 x, .next => some (h.unlockX x, .sleep3 x)
  | .sleep4 x, .next => some ((h.setProc p fun b => { b with chan := none }).unlockP p, .sleep5 x)
  | .sleep5 (.lk l _), .next => (h.lockL c l).map fun h => (h, .crit l [] .idle)
  | .sleep5 .wait, .next => (h.lockW c).map fun h => (h, .wait2 0 false)
  -- a timer interrupt
  | k, .yield => if k.lockFree then some (h, .yield1 k) else none
  | .yield1 k, .next => (h.lockP c p).map fun h => (h, .yield2 k)
  | .yield3 k, .next => some (h.unlockP p, k)
  | .forkret, .next => some (h.unlockP p, .idle)
  | _, _ => none

def killStep (nproc c : Nat) (h : Shared) : Code → KOp → Option (Shared × Code)
  | .idle, .kill pid => some (h, .kill1 pid 0)
  | .kill1 pid i, .next =>
    if nproc ≤ i then some (h, .idle) else (h.lockP c i).map fun h => (h, .kill2 pid i)
  | .kill2 pid i, .next =>
    if (h.proc i).pid = pid then some ((h.setProc i Pcb.kill).unlockP i, .idle)
    else some (h.unlockP i, .kill1 pid (i + 1))
  | _, _ => none

/-- `fork` in process `p`, but for the moment `allocproc` takes a slot. -/
def forkStep (nproc c p : Nat) (h : Shared) : Code → KOp → Option (Shared × Code)
  | .idle, .fork => some (h, .fork1 0)
  | .fork1 i, .next =>
    if nproc ≤ i then some (h, .idle) else (h.lockP c i).map fun h => (h, .fork2 i)
  | .fork2 i, .next =>
    if (h.proc i).state ≠ .unused then some (h.unlockP i, .fork1 (i + 1)) else none
  | .fork3 i, .next => some (h.unlockP i, .fork4 i)
  | .fork3 i, .fail => some ((h.setProc i fun _ => Pcb.free).unlockP i, .idle)
  | .fork4 i, .next => (h.lockW c).map fun h => (h, .fork5 i)
  | .fork5 i, .next => some ((h.setProc i fun b => { b with parent := some p }).unlockW, .fork6 i)
  | .fork6 i, .next => (h.lockP c i).map fun h => (h, .fork7 i)
  | .fork7 i, .next => some ((h.setProc i fun b => { b with state := .runnable }).unlockP i, .idle)
  | _, _ => none

/-- `exit` in process `p` up to its last statements, with `reparent`. -/
def exitStep (nproc c p : Nat) (h : Shared) : Code → KOp → Option (Shared × Code)
  | .exit1 status, .next => (h.lockW c).map fun h => (h, .exit2 status 0)
  | .exit2 status i, .next =>
    if nproc ≤ i then
      some (h, .wake ((h.proc p).parent.map Chan.proc) 0 false (.exit3 status))
    else if (h.proc i).parent = some p then
      some (h.setProc i fun b => { b with parent := some initproc },
        .wake (some (.proc initproc)) 0 false (.exit2 status (i + 1)))
    else some (h, .exit2 status (i + 1))
  | .exit3 status, .next => (h.lockP c p).map fun h => (h, .exit4 status)
  | _, _ => none

def waitStep (nproc c p : Nat) (h : Shared) : Code → KOp → Option (Shared × Code)
  | .idle, .wait => some (h, .wait1)
  | .wait1, .next => (h.lockW c).map fun h => (h, .wait2 0 false)
  | .wait2 i havekids, .next =>
    if nproc ≤ i then
      if havekids = false ∨ (h.proc p).killed = true then some (h.unlockW, .idle)
      else some (h, .sleep1 .wait)
    else if (h.proc i).parent = some p then (h.lockP c i).map fun h => (h, .wait3 i)
    else some (h, .wait2 (i + 1) havekids)
  | .wait3 i, .next =>
    if (h.proc i).state ≠ .zombie then some (h.unlockP i, .wait2 (i + 1) true) else none
  | .wait3 i, .deliver q j pid status =>
    if (h.proc i).state = .zombie ∧ q = p ∧ j = i ∧ pid = (h.proc i).pid ∧
        status = (h.proc i).xstate then
      some (((h.setProc i fun _ => Pcb.free).unlockP i).unlockW, .idle)
    else none
  | .wait3 i, .fail =>
    if (h.proc i).state = .zombie then some ((h.unlockP i).unlockW, .idle) else none
  | _, _ => none

/-- The steps of the thread of process `p` that neither switch nor allocate; at most one of the
functions has something to do. -/
def procStep (nproc c p : Nat) (h : Shared) (k : Code) (op : KOp) : Option (Shared × Code) :=
  sleepStep c p h k op <|> killStep nproc c h k op <|> forkStep nproc c p h k op <|>
    exitStep nproc c p h k op <|> waitStep nproc c p h k op <|> clientStep nproc c (some p) h k op

/-- The steps of a process that end in `sched`: the shared data and the code after `sched`. -/
def schedCall (p : Nat) (h : Shared) : Code → KOp → Option (Shared × Code)
  | .sleep3 x, .next =>
    some (h.setProc p fun b => { b with chan := some (x.chan p), state := .sleeping }, .sleep4 x)
  | .yield2 k, .next => some (h.setProc p fun b => { b with state := .runnable }, .yield3 k)
  | .exit4 status, .exited q pid st =>
    if q = p ∧ pid = (h.proc p).pid ∧ st = status then
      some ((h.setProc p fun b => { b with xstate := status, state := .zombie }).unlockW, .exit5)
    else none
  | _, _ => none

namespace KSys

def setCpu (s : KSys) (c : Nat) (u : Cpu) : KSys := { s with cpu := upd s.cpu c u }

def setTh (s : KSys) (p : Nat) (t : KThread) : KSys := { s with th := upd s.th p t }

/-- `sched()` in process `p` on CPU `c`, up to `swtch`. -/
def sched (s : KSys) (c p : Nat) (h : Shared) (k : Code) : Except KPanic KSys :=
  if h.plock p ≠ some c then .error .schedLock
  else if (h.proc p).state = .running then .error .schedRunning
  else .ok ({ s with sh := h }.setTh p { code := k, sw := .saving })

/-- The scheduler thread of CPU `c`. -/
def stepSched (nproc : Nat) (s : KSys) (c : Nat) : Code → KOp → Option KSys
  | .sched1 i, .next =>
    -- the loop over the process table starts again
    if nproc ≤ i then some (s.setCpu c { s.cpu c with sched := .sched1 0 })
    else (s.sh.lockP c i).map fun h =>
      { s with sh := h }.setCpu c { s.cpu c with sched := .sched2 i }
  | .sched2 i, .next =>
    if (s.sh.proc i).state = .runnable then
      some ({ s with sh := s.sh.setProc i fun b => { b with state := .running } }.setCpu c
        { s.cpu c with proc := some i, sched := .sched3 i })
    else some ({ s with sh := s.sh.unlockP i }.setCpu c { s.cpu c with sched := .sched1 (i + 1) })
  | .sched3 i, .next =>
    some ((s.setCpu c { s.cpu c with on := some i, sched := .sched4 i }).setTh i
      { s.th i with sw := .run })
  | .sched4 i, .next =>
    some ({ s with sh := s.sh.unlockP i }.setCpu c
      { s.cpu c with proc := none, sched := .sched1 (i + 1) })
  | k, op =>
    (clientStep nproc c (s.cpu c).proc s.sh k op).map fun (h, k) =>
      { s with sh := h }.setCpu c { s.cpu c with sched := k }

/-- The thread of process `p`, running on CPU `c`. -/
def stepProc (nproc : Nat) (s : KSys) (c p : Nat) : Code → KOp → Option (Except KPanic KSys)
  | .idle, .exit status =>
    if p = initproc then some (.error .initExiting)
    else some (.ok (s.setTh p { s.th p with code := .exit1 status }))
  | .exit5, .next => some (.error .zombieExit)
  | .fork2 i, .alloc q j pid =>
    if (s.sh.proc i).state = .unused ∧ q = p ∧ j = i ∧ pid = s.sh.nextpid then
      some (.ok (({ s with sh := { s.sh.setProc i fun b =>
          { b with pid := s.sh.nextpid, state := .used } with nextpid := s.sh.nextpid + 1 } }.setTh i
          { code := .forkret, sw := .off }).setTh p { s.th p with code := .fork3 i }))
    else none
  | k, op =>
    match schedCall p s.sh k op with
    | some (h, k) => some (s.sched c p h k)
    | none =>
      (procStep nproc c p s.sh k op).map fun (h, k) =>
        .ok ({ s with sh := h }.setTh p { s.th p with code := k })

/-- One step of CPU `c`. -/
def step (nproc : Nat) (s : KSys) (a : Nat × KOp) : Option (Except KPanic KSys) :=
  match (s.cpu a.1).on with
  | none => (s.stepSched nproc a.1 (s.cpu a.1).sched a.2).map .ok
  | some p =>
    match (s.th p).sw, a.2 with
    | .run, op => s.stepProc nproc a.1 p (s.th p).code op
    -- swtch
    | .saving, .next => some (.ok (s.setTh p { s.th p with sw := .leaving }))
    | .leaving, .next =>
      some (.ok ((s.setTh p { s.th p with sw := .off }).setCpu a.1 { s.cpu a.1 with on := none }))
    | _, _ => none

end KSys

/-- After `userinit`: the first process is `RUNNABLE`, all CPUs enter `scheduler`. -/
def KSys.initial (cond : Nat × Nat → Bool) : KSys where
  sh := {
    proc := upd (fun _ => Pcb.free) initproc { Pcb.free with state := .runnable, pid := 1 }
    plock := fun _ => none
    wlock := none
    lk := fun _ => none
    cond := cond
    nextpid := 2 }
  cpu := fun _ => { proc := none, on := none, sched := .sched1 0 }
  th := fun _ => { code := .forkret, sw := .off }

/-- The system with `nproc` process slots; labels are a CPU and what it does. -/
def kLts (nproc : Nat) : Lts KSys (Nat × KOp) KPanic where
  init s := ∃ cond, s = KSys.initial cond
  step := KSys.step nproc

theorem KSys.init_initial (nproc : Nat) (cond : Nat × Nat → Bool) :
    (kLts nproc).init (KSys.initial cond) := ⟨cond, rfl⟩

end Xv6
