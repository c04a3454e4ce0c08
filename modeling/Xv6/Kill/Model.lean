import Xv6.Console.Model
import Xv6.Pipe.Model

/-!
# xv6 — `kill` and the calls that wait (`kernel/proc.c`, `pipe.c`, `console.c`, `sysproc.c`)

The five loops that test `p->killed` before they sleep: those of `wait`, `pipewrite`, `piperead`,
`consoleread` and `sys_sleep`. Each runs under the lock of the object it waits for. `sleep` takes
`p->lock`, releases that lock, makes the process `SLEEPING` and gives up the CPU; `kill` takes `p->lock`
only, sets `killed` and makes a sleeping process `RUNNABLE`. A turn of a loop is a step, `sleep` is
one, and `kill` is two, between which it holds the lock of its victim.

Everything else the kernel does shows up in two ways: an object may change in any way while its
lock is free, and `wakeup` may be called on any channel at any time.
-/

namespace Xv6.Kill

/-- What the loops look at. `kids p` lists the children of process `p`; a child is `true` when it is a
`ZOMBIE`. -/
structure Objs where
  pipe  : Pipe
  cons  : Cons
  ticks : BitVec 32
  kids  : Nat → List Bool

/-- `pi->lock`, `cons.lock`, `tickslock` and `wait_lock` -/
inductive Lock where
  | pipe
  | cons
  | ticks
  | wait
  deriving DecidableEq, Repr

/-- `&pi->nwrite`, `&pi->nread`, `&cons.r`, `&ticks` and a process -/
inductive Chan where
  | nwrite
  | nread
  | cons
  | ticks
  | proc (p : Nat)
  deriving DecidableEq, Repr

/-- A call in its loop, with its local variables. -/
inductive Call where
  | wait
  | pipewrite (src : Nat → Option UInt8) (n : Int) (i : Nat)
  | piperead
  | consoleread (target n : BitVec 32)
  | sysSleep (ticks0 n : BitVec 32)

def Call.lock : Call → Lock
  | .wait => .wait
  | .pipewrite .. => .pipe
  | .piperead => .pipe
  | .consoleread .. => .cons
  | .sysSleep .. => .ticks

def Call.chan (p : Nat) : Call → Chan
  | .wait => .proc p
  | .pipewrite .. => .nwrite
  | .piperead => .nread
  | .consoleread .. => .cons
  | .sysSleep .. => .ticks

/-- What a turn of a loop comes to. -/
inductive Turn where
  /-- the loop ends; what the call does after it does not sleep -/
  | leave
  /-- `sleep(chan, lk)` is called -/
  | sleep
  /-- the next turn -/
  | again (o : Objs) (c : Call)

/-- One turn of the loop of process `p`; `killed` is `p->killed` when the turn reads it. -/
def Call.turn (o : Objs) (p : Nat) (killed : Bool) : Call → Turn
  | .wait =>
    -- a child that has exited is freed; if(!havekids || p->killed) return -1
    if (o.kids p).any id then .leave
    else if (o.kids p).isEmpty ∨ killed = true then .leave
    else .sleep
  | .pipewrite src n i =>
    match o.pipe.writeTurn killed src n i with
    | .abort => .leave
    | .full => .sleep
    | .put ch => .again { o with pipe := o.pipe.put ch } (.pipewrite src n (i + 1))
    | .stop _ => .leave
  | .piperead =>
    match o.pipe.waitTurn killed with
    | .empty => .sleep
    | _ => .leave
  | .consoleread target n =>
    match o.cons.turn target n with
    | .empty => if killed then .leave else .sleep
    | .take c =>
      if c = newline then .leave
      else .again { o with cons := o.cons.next } (.consoleread target (n - 1))
    | _ => .leave
  | .sysSleep ticks0 n =>
    if (o.ticks - ticks0).ult n then if killed then .leave else .sleep
    else .leave

/-- Where a process is: in none of the calls, about to acquire the lock, in the loop with the lock held, in
`sleep` about to acquire `p->lock`, or in `sleep` after it has given up the CPU. -/
inductive Pc where
  | idle
  | enter (c : Call)
  | loop (c : Call)
  | toSleep (c : Call)
  | asleep (c : Call)

/-- `sleeping` is the channel while the process is `SLEEPING`; `kill` says that a `kill` of this process
holds `p->lock`. -/
structure Proc where
  killed   : Bool
  sleeping : Option Chan
  kill     : Bool
  pc       : Pc

structure Sys where
  objs : Objs
  lock : Lock → Bool
  proc : Nat → Proc

inductive Act where
  /-- process `p` starts a call -/
  | call (p : Nat) (c : Call)
  /-- `p` gets the lock, for the first time or at the end of `sleep` -/
  | acquire (p : Nat)
  /-- a turn of the loop of `p` -/
  | turn (p : Nat)
  /-- `sleep` gets `p->lock`: `p` is `SLEEPING` and the lock of its object is released -/
  | sleep (p : Nat)
  /-- `kill` gets the lock of `p` and sets `killed` -/
  | kill (p : Nat)
  /-- `kill` wakes `p` up and releases its lock -/
  | killed (p : Nat)
  /-- the turn of a `wakeup(chan)` for process `p` -/
  | wakeup (chan : Chan) (p : Nat)
  /-- an object whose lock is free changes -/
  | change (l : Lock) (o : Objs)
  /-- a process that is in no call has exited, and another one takes its slot -/
  | renew (p : Nat)

namespace Sys

def setProc (s : Sys) (p : Nat) (f : Proc → Proc) : Sys :=
  { s with proc := upd s.proc p (f (s.proc p)) }

def setPc (s : Sys) (p : Nat) (pc : Pc) : Sys := s.setProc p fun x => { x with pc := pc }

def setLock (s : Sys) (l : Lock) (b : Bool) : Sys := { s with lock := upd s.lock l b }

/-- The object of lock `l` becomes that of `o`. -/
def Objs.put (l : Lock) (o o' : Objs) : Objs :=
  match l with
  | .pipe => { o with pipe := o'.pipe }
  | .cons => { o with cons := o'.cons }
  | .ticks => { o with ticks := o'.ticks }
  | .wait => { o with kids := o'.kids }

/-- A turn of the loop of `p` comes to `t`. -/
def afterTurn (s : Sys) (p : Nat) (c : Call) : Turn → Sys
  | .leave => (s.setPc p .idle).setLock c.lock false
  | .sleep => s.setPc p (.toSleep c)
  | .again o c' => { s with objs := o }.setPc p (.loop c')

def step (s : Sys) : Act → Option (Except Empty Sys)
  | .call p c =>
    match (s.proc p).pc with
    | .idle => some (.ok (s.setPc p (.enter c)))
    | _ => none
  | .acquire p =>
    match (s.proc p).pc with
    | .enter c =>
      if s.lock c.lock then none else some (.ok ((s.setPc p (.loop c)).setLock c.lock true))
    | .asleep c =>
      -- the process runs again only after it has been woken up
      if s.lock c.lock ∨ (s.proc p).sleeping ≠ none then none
      else some (.ok ((s.setPc p (.loop c)).setLock c.lock true))
    | _ => none
  | .turn p =>
    match (s.proc p).pc with
    | .loop c => some (.ok (s.afterTurn p c (c.turn s.objs p (s.proc p).killed)))
    | _ => none
  | .sleep p =>
    match (s.proc p).pc with
    | .toSleep c =>
      if (s.proc p).kill then none
      else some (.ok ((s.setProc p fun x =>
        { x with sleeping := some (c.chan p), pc := .asleep c }).setLock c.lock false))
    | _ => none
  | .kill p =>
    if (s.proc p).kill then none
    else some (.ok (s.setProc p fun x => { x with killed := true, kill := true }))
  | .killed p =>
    if (s.proc p).kill then
      some (.ok (s.setProc p fun x => { x with sleeping := none, kill := false }))
    else none
  | .wakeup chan p =>
    if (s.proc p).kill then none
    else some (.ok (s.setProc p fun x =>
      if x.sleeping = some chan then { x with sleeping := none } else x))
  | .change l o => if s.lock l then none else some (.ok { s with objs := Objs.put l s.objs o })
  | .renew p =>
    match (s.proc p).pc with
    | .idle =>
      if (s.proc p).kill then none else some (.ok (s.setProc p fun x => { x with killed := false }))
    | _ => none

end Sys

/-- Any objects, and processes that are in none of the calls and not killed. -/
def killLts : Lts Sys Act Empty where
  init s := (∀ l, s.lock l = false) ∧
    ∀ p, s.proc p = { killed := false, sleeping := none, kill := false, pc := .idle }
  step := Sys.step

end Xv6.Kill
