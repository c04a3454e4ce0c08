import Xv6.Proc.Model

/-!
# xv6 — interrupts and kernel threads (`kernel/spinlock.c`, `kernel/proc.c`)

Each CPU has an interrupt enable flag, a count `noff` of the `push_off`s that are not undone, and in
`intena` whether interrupts were enabled before the first of them. Locks are acquired inside
`push_off`, so that `noff` also counts the locks that are held.

A CPU runs its scheduler or the kernel thread of a process. A thread makes any calls of `acquire`,
`release`, `push_off` and `pop_off`, in any order, but undoes only what it has done. A process
calls `sched` while it holds its own lock and nothing else, and goes on later, on any CPU. Where
interrupts are enabled, a thread may be interrupted; this also happens inside `push_off`, between
`intr_get` and `intr_off`. The interrupt handler is code of the thread like any other, and returns
when it has undone what it has done.

`noff` is an `int`; here it is an integer, as if it could not overflow.
-/

namespace Xv6.Intr

/-! ## Data -/

/-- Kernel threads: the scheduler of CPU `c`, process `p`. -/
inductive Tid where
  | scheduler (c : Nat)
  | proc (p : Nat)
  deriving DecidableEq, Repr

/-- `proc[p].lock`, or one of the other spin locks. -/
inductive LockId where
  | proc (p : Nat)
  | other (l : Nat)
  deriving DecidableEq, Repr

/-- `struct cpu`, with the flag `SIE` of `sstatus`. -/
structure Cpu where
  intr   : Bool
  noff   : Int
  intena : Bool
  proc   : Option Nat
  deriving DecidableEq, Repr

/-- Where a thread is. -/
inductive Pc where
  /-- between calls -/
  | code
  /-- in `push_off` after `intr_get` returned `old`; `lk` is the lock if it was called by `acquire` -/
  | pushing (old : Bool) (lk : Option LockId)
  /-- in the loop of `acquire` -/
  | spinning (lk : LockId)
  /-- as set up by `allocproc` -/
  | forkret
  /-- in `sched`, after `swtch` has stored the registers -/
  | switched (intena : Bool)
  /-- in `scheduler`, while a process runs -/
  | away
  /-- in `scheduler`, about to release the lock of the process that has run -/
  | back
  deriving DecidableEq, Repr

/-- `held`: the locks acquired and not released; `offs`: the other `push_off`s that are not undone;
`traps`: where the thread was interrupted, if it is in an interrupt handler. -/
structure Thread where
  pc    : Pc
  held  : List LockId
  offs  : Nat
  traps : List Pc
  deriving DecidableEq, Repr

/-- How many `push_off`s a thread has to undo. -/
def Thread.count (t : Thread) : Nat :=
  t.held.length + t.offs + match t.pc with
    | .spinning _ => 1
    | _ => 0

/-- A process that has not yet run. -/
def Thread.new : Thread := { pc := .forkret, held := [], offs := 0, traps := [] }

/-- `lock`: the CPU that has locked it, if it is locked. -/
structure IntrSys where
  cpu   : Nat → Cpu
  th    : Tid → Thread
  lock  : LockId → Option Nat
  state : Nat → ProcState

inductive IntrPanic where
  /-- `panic("acquire")` -/
  | acquire
  /-- `panic("release")` -/
  | release
  /-- `panic("pop_off - interruptible")` -/
  | popInterruptible
  /-- `panic("pop_off")` -/
  | pop
  /-- `panic("sched p->lock")` -/
  | schedLock
  /-- `panic("sched locks")` -/
  | schedLocks
  /-- `panic("sched interruptible")` -/
  | schedInterruptible
  deriving DecidableEq, Repr

/-! ## push_off and pop_off -/

/-- `push_off` after `int old = intr_get()`. -/
def Cpu.pushOff (c : Cpu) (old : Bool) : Cpu :=
  let c := { c with intr := false }
  let c := if c.noff = 0 then { c with intena := old } else c
  { c with noff := c.noff + 1 }

def Cpu.popOff (c : Cpu) : Except IntrPanic Cpu :=
  if c.intr then .error .popInterruptible
  else if c.noff < 1 then .error .pop
  else
    let c := { c with noff := c.noff - 1 }
    .ok (if c.noff = 0 ∧ c.intena then { c with intr := true } else c)

/-! ## Steps -/

/-- The next step of CPU `c`, which runs thread `t`. -/
inductive IntrAct where
  /-- `push_off` is called, by `acquire(lk)` or by itself, and reads the flag -/
  | intrGet (c : Nat) (t : Tid) (lk : Option LockId)
  /-- the rest of `push_off`; the flag was `old` -/
  | pushOff (c : Nat) (t : Tid) (old : Bool)
  /-- the loop of `acquire` ends -/
  | take (c : Nat) (t : Tid)
  | popOff (c : Nat) (t : Tid)
  | release (c : Nat) (t : Tid) (lk : LockId)
  | intrOn (c : Nat) (t : Tid)
  | intrOff (c : Nat) (t : Tid)
  /-- an interrupt is taken -/
  | trap (c : Nat) (t : Tid)
  /-- the interrupt handler returns -/
  | sret (c : Nat) (t : Tid)
  /-- `p->state = st`, by a thread that holds `p->lock` -/
  | setState (c : Nat) (t : Tid) (p : Nat) (st : ProcState)
  /-- process `p` sets `p->state = st` and calls `sched` -/
  | sched (c p : Nat) (st : ProcState)
  /-- the scheduler switches to process `p`, which runs for the first time or returns to `sched` -/
  | swtch (c p : Nat) (first : Bool)
  deriving DecidableEq, Repr

/-- The changes of `p->state` that a thread other than `p` itself makes: in `allocproc`, `fork`, `freeproc`, and in `wakeup` and
`kill`. -/
def mayChange : ProcState → ProcState → Bool
  | .unused, .used => true
  | .used, .runnable => true
  | .used, .unused => true
  | .sleeping, .runnable => true
  | .zombie, .unused => true
  | _, _ => false

namespace IntrSys

/-- The thread that CPU `c` runs. -/
def running (s : IntrSys) (c : Nat) : Tid :=
  match (s.cpu c).proc with
  | some p => .proc p
  | none => .scheduler c

def setCpu (s : IntrSys) (c : Nat) (k : Cpu) : IntrSys := { s with cpu := upd s.cpu c k }
def setTh (s : IntrSys) (t : Tid) (th : Thread) : IntrSys := { s with th := upd s.th t th }

/-- `swtch` between process `p`, now in state `st`, and the scheduler of CPU `c`, which are then at `tp` and `ts`. -/
def swtch (s : IntrSys) (c p : Nat) (st : ProcState) (k : Cpu) (tp ts : Thread) : IntrSys :=
  { s with cpu := upd s.cpu c k, th := upd (upd s.th (.proc p) tp) (.scheduler c) ts, state := upd s.state p st }

/-- `s.Code c t`: CPU `c` runs thread `t`, which is between calls. -/
def Code (s : IntrSys) (c : Nat) (t : Tid) : Prop := s.running c = t ∧ (s.th t).pc = .code

instance (s : IntrSys) (c : Nat) (t : Tid) : Decidable (s.Code c t) := inferInstanceAs (Decidable (_ ∧ _))

def act (s : IntrSys) : IntrAct → Option (Except IntrPanic IntrSys)
  | .intrGet c t lk =>
    if s.Code c t then some (.ok (s.setTh t { s.th t with pc := .pushing (s.cpu c).intr lk })) else none
  | .pushOff c t old =>
    match (s.th t).pc with
    | .pushing old' lk =>
      if s.running c = t ∧ old = old' then
        let s := s.setCpu c ((s.cpu c).pushOff old)
        match lk with
        | none => some (.ok (s.setTh t { s.th t with pc := .code, offs := (s.th t).offs + 1 }))
        | some lk =>
          -- holding(lk)
          if s.lock lk = some c then some (.error .acquire)
          else some (.ok (s.setTh t { s.th t with pc := .spinning lk }))
      else none
    | _ => none
  | .take c t =>
    match (s.th t).pc with
    | .spinning lk =>
      if s.running c = t ∧ s.lock lk = none then
        some (.ok ({ s with lock := upd s.lock lk (some c) }.setTh t { s.th t with pc := .code, held := lk :: (s.th t).held }))
      else none
    | _ => none
  | .popOff c t =>
    if s.Code c t ∧ 0 < (s.th t).offs then
      some ((s.cpu c).popOff.map fun k => (s.setCpu c k).setTh t { s.th t with offs := (s.th t).offs - 1 })
    else none
  | .release c t lk =>
    if s.running c = t ∧ ((s.th t).pc = .code ∨ (s.th t).pc = .back) ∧ lk ∈ (s.th t).held then
      if s.lock lk ≠ some c then some (.error .release)
      else some ((s.cpu c).popOff.map fun k => ({ s with lock := upd s.lock lk none }.setCpu c k).setTh t
        { s.th t with pc := .code, held := (s.th t).held.erase lk })
    else none
  | .intrOn c t =>
    if s.Code c t ∧ (s.th t).count = 0 then some (.ok (s.setCpu c { s.cpu c with intr := true })) else none
  | .intrOff c t =>
    if s.Code c t then some (.ok (s.setCpu c { s.cpu c with intr := false })) else none
  | .trap c t =>
    if s.running c = t ∧ (s.cpu c).intr = true then
      some (.ok ((s.setCpu c { s.cpu c with intr := false }).setTh t
        { s.th t with pc := .code, traps := (s.th t).pc :: (s.th t).traps }))
    else none
  | .sret c t =>
    match (s.th t).traps with
    | pc :: traps =>
      if s.Code c t ∧ (s.th t).count = 0 then
        some (.ok ((s.setCpu c { s.cpu c with intr := true }).setTh t { s.th t with pc, traps }))
      else none
    | [] => none
  | .setState c t p st =>
    if s.Code c t ∧ .proc p ∈ (s.th t).held ∧ mayChange (s.state p) st then
      let s := { s with state := upd s.state p st }
      some (.ok (if st = .used then s.setTh (.proc p) .new else s))
    else none
  | .sched c p st =>
    if s.Code c (.proc p) ∧ (s.th (.proc p)).held = [.proc p] ∧ (s.th (.proc p)).offs = 0 ∧
        (st = .runnable ∨ st = .sleeping ∨ st = .zombie) then
      if s.lock (.proc p) ≠ some c then some (.error .schedLock)
      else if (s.cpu c).noff ≠ 1 then some (.error .schedLocks)
      else if (s.cpu c).intr then some (.error .schedInterruptible)
      else
        -- the scheduler sets c->proc = 0 when it goes on
        some (.ok (s.swtch c p st { s.cpu c with proc := none }
          { s.th (.proc p) with pc := .switched (s.cpu c).intena } { s.th (.scheduler c) with pc := .back }))
    else none
  | .swtch c p first =>
    if s.Code c (.scheduler c) ∧ (s.th (.scheduler c)).held = [.proc p] ∧ (s.th (.scheduler c)).offs = 0 ∧
        (s.th (.scheduler c)).traps = [] ∧ s.state p = .runnable then
      match (s.th (.proc p)).pc, first with
      | .forkret, true =>
        some (.ok (s.swtch c p .running { s.cpu c with proc := some p }
          { pc := .code, held := [.proc p], offs := 0, traps := [] } { s.th (.scheduler c) with pc := .away }))
      | .switched intena, false =>
        -- mycpu()->intena = intena
        some (.ok (s.swtch c p .running { s.cpu c with proc := some p, intena }
          { s.th (.proc p) with pc := .code } { s.th (.scheduler c) with pc := .away }))
      | _, _ => none
    else none

/-- All CPUs are about to enter `scheduler`, with interrupts off, and there are no processes. -/
def initial : IntrSys where
  cpu := fun _ => { intr := false, noff := 0, intena := false, proc := none }
  th
    | .scheduler _ => { pc := .code, held := [], offs := 0, traps := [] }
    | .proc _ => .new
  lock := fun _ => none
  state := fun _ => .unused

end IntrSys

/-- Any number of CPUs and processes. -/
def intrLts : Lts IntrSys IntrAct IntrPanic where
  init s := s = .initial
  step := IntrSys.act

/-! ## Histories -/

/-- `count`: the `push_off`s of a thread that are not undone; `base`: were interrupts enabled for it at the one that raised the
count from 0? -/
structure Book where
  count : Nat
  base  : Bool
  deriving DecidableEq, Repr

def IntrAct.record (b : Tid → Book) : IntrAct → Tid → Book
  | .pushOff _ t old => upd b t ⟨(b t).count + 1, if (b t).count = 0 then old else (b t).base⟩
  | .popOff _ t => upd b t { b t with count := (b t).count - 1 }
  | .release _ t _ => upd b t { b t with count := (b t).count - 1 }
  -- the scheduler has acquired the lock of the process for it
  | .swtch c p true => upd b (.proc p) ⟨1, (b (.scheduler c)).base⟩
  | _ => b

/-- The books of all threads. -/
def ledger (tr : List IntrAct) : Tid → Book := tr.foldl IntrAct.record fun _ => ⟨0, false⟩

/-- The CPU and the thread of an action that undoes a `push_off`. -/
def IntrAct.undoes : IntrAct → Option (Nat × Tid)
  | .popOff c t | .release c t _ => some (c, t)
  | _ => none

end Xv6.Intr
