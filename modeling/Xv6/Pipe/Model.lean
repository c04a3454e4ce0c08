import Xv6.Lib.Lts
import Xv6.Lib.RingBuf

/-!
# xv6 — pipes (`kernel/pipe.c`)

One pipe and the processes that use it. `pipewrite`, `piperead` and `pipeclose` run under `pi->lock`;
one turn of their loops is a step, so that a `kill` can come between any two turns. `sleep` gives
the lock up and `wakeup` makes all sleepers of a channel runnable again; a process that was
woken, by `wakeup` or by `kill`, first has to get the lock back.

Calls come at any time and in any number, also on an end that was closed before: the descriptors
that allow them are the business of `file.c`. What a process has at the address it
passes is part of the call: the bytes of its buffer up to the first that cannot be copied in, and
which bytes of it can be copied out to.
-/

namespace Xv6

def PIPESIZE : Nat := 512

/-- `struct pipe`; its ring buffer holds `data`, `nread` and `nwrite`. -/
structure Pipe extends RingBuf 32 UInt8 where
  readopen  : Bool
  writeopen : Bool

/-- What processes sleep on: `&pi->nread` or `&pi->nwrite`. -/
inductive PipeChan where
  | nread
  | nwrite
  deriving DecidableEq, Repr

/-- Outcome of one turn of the loop of `pipewrite`. -/
inductive WriteTurn where
  /-- `return -1` -/
  | abort
  /-- the pipe is full: `wakeup(&pi->nread); sleep(&pi->nwrite, &pi->lock)` -/
  | full
  /-- the byte goes into the pipe -/
  | put (ch : UInt8)
  /-- the loop ends, or `copyin` fails: `wakeup(&pi->nread)`, return `i` -/
  | stop (i : Nat)
  deriving DecidableEq, Repr

/-- Outcome of one turn of the loops of `piperead`. -/
inductive ReadTurn where
  /-- `return -1` -/
  | abort
  /-- the pipe is empty: `sleep(&pi->nread, &pi->lock)` -/
  | empty
  /-- the first loop ends -/
  | go
  /-- a byte is taken out of the pipe and copied to the user -/
  | take (ch : UInt8)
  /-- a byte is taken out and `copyout` fails: `wakeup(&pi->nwrite)`, return `i` -/
  | lose (ch : UInt8) (i : Nat)
  /-- the second loop ends: `wakeup(&pi->nwrite)`, return `i` -/
  | stop (i : Nat)
  deriving DecidableEq, Repr

namespace Pipe

/-- The pipe as `pipealloc` leaves it; the page it is in is not cleared. -/
def alloc (data : Nat → UInt8) : Pipe where
  data := data
  nread := 0
  nwrite := 0
  readopen := true
  writeopen := true

def full (pi : Pipe) : Bool := pi.nwrite = pi.nread + BitVec.ofNat 32 PIPESIZE

def empty (pi : Pipe) : Bool := pi.nread = pi.nwrite

/-- `pi->data[pi->nwrite++ % PIPESIZE] = ch` -/
def put (pi : Pipe) (ch : UInt8) : Pipe := { pi with toRingBuf := pi.push PIPESIZE ch }

/-- `ch = pi->data[pi->nread++ % PIPESIZE]` -/
def take (pi : Pipe) : UInt8 × Pipe := (pi.head PIPESIZE, { pi with toRingBuf := pi.pop })

/-- One turn of `while(i < n)` in `pipewrite`; `src i` is the byte `copyin` gets from `addr + i`. -/
def writeTurn (pi : Pipe) (killed : Bool) (src : Nat → Option UInt8) (n : Int) (i : Nat) :
    WriteTurn :=
  if (i : Int) < n then
    if pi.readopen = false ∨ killed = true then .abort
    else if pi.full then .full
    else match src i with
      | some ch => .put ch
      | none => .stop i
  else .stop i

/-- One turn of `while(pi->nread == pi->nwrite && pi->writeopen)` in `piperead`. -/
def waitTurn (pi : Pipe) (killed : Bool) : ReadTurn :=
  if pi.empty ∧ pi.writeopen = true then
    if killed then .abort else .empty
  else .go

/-- One turn of `for(i = 0; i < n; i++)` in `piperead`; `ok i` says whether `copyout` to `addr + i`
succeeds. -/
def copyTurn (pi : Pipe) (ok : Nat → Bool) (n : Int) (i : Nat) : ReadTurn :=
  if (i : Int) < n then
    if pi.empty then .stop i
    else if ok i then .take pi.take.1 else .lose pi.take.1 i
  else .stop i

/-- `pipeclose(pi, writable)` -/
def close (pi : Pipe) (writable : Bool) : Pipe :=
  if writable then { pi with writeopen := false } else { pi with readopen := false }

end Pipe

/-- The channel whose sleepers `pipeclose` wakes up. -/
def closeWakes (writable : Bool) : PipeChan := if writable then .nread else .nwrite

/-! ## Processes -/

/-- Where a process is. In `wEnter` and `rEnter` it is about to acquire `pi->lock`, in
`wSleep` and `rSleep` it is in `sleep`, in the other states inside a call it holds the lock. -/
inductive PipePc where
  | idle
  | wEnter (src : Nat → Option UInt8) (n : Int)
  | wLoop (src : Nat → Option UInt8) (n : Int) (i : Nat)
  | wSleep (src : Nat → Option UInt8) (n : Int) (i : Nat)
  | rEnter (ok : Nat → Bool) (n : Int)
  | rWait (ok : Nat → Bool) (n : Int)
  | rSleep (ok : Nat → Bool) (n : Int)
  | rCopy (ok : Nat → Bool) (n : Int) (i : Nat)

/-- `sleeping`: the channel on which the process is `SLEEPING`. -/
structure PipeProc where
  killed   : Bool
  sleeping : Option PipeChan
  pc       : PipePc

structure PipeSys where
  pipe : Pipe
  lock : Option Nat
  proc : Nat → PipeProc

inductive PipeAct where
  /-- process `p` calls `pipewrite` or `piperead` -/
  | callWrite (p : Nat) (src : Nat → Option UInt8) (n : Int)
  | callRead (p : Nat) (ok : Nat → Bool) (n : Int)
  /-- `p` gets `pi->lock`, for the first time or at the end of `sleep` -/
  | acquire (p : Nat)
  /-- a turn of a loop of `p` -/
  | write (p : Nat) (t : WriteTurn)
  | read (p : Nat) (t : ReadTurn)
  /-- somebody closes an end -/
  | close (writable : Bool)
  /-- somebody kills `p` -/
  | kill (p : Nat)

namespace PipeSys

def setPc (s : PipeSys) (p : Nat) (pc : PipePc) : PipeSys :=
  { s with proc := upd s.proc p { s.proc p with pc := pc } }

/-- `wakeup(chan)` -/
def wakeup (s : PipeSys) (chan : PipeChan) : PipeSys :=
  { s with proc := fun q =>
      if (s.proc q).sleeping = some chan then { s.proc q with sleeping := none } else s.proc q }

/-- `sleep(chan, &pi->lock)` up to the point where the process is woken -/
def sleep (s : PipeSys) (p : Nat) (chan : PipeChan) (pc : PipePc) : PipeSys :=
  { s with lock := none, proc := upd s.proc p { s.proc p with sleeping := some chan, pc := pc } }

/-- `release(&pi->lock)`, and the call returns -/
def ret (s : PipeSys) (p : Nat) : PipeSys := { s.setPc p .idle with lock := none }

/-- `kill` of process `p` -/
def kill (s : PipeSys) (p : Nat) : PipeSys :=
  { s with proc := upd s.proc p { s.proc p with killed := true, sleeping := none } }

/-- The statement at which process `p` goes on once it has the lock. -/
def entered : PipePc → Option PipePc
  | .wEnter src n => some (.wLoop src n 0)
  | .wSleep src n i => some (.wLoop src n i)
  | .rEnter ok n => some (.rWait ok n)
  | .rSleep ok n => some (.rWait ok n)
  | _ => none

/-- Process `p` is in the loop of `pipewrite`, and its turn comes out as `t`. -/
def afterWrite (s : PipeSys) (p : Nat) (src : Nat → Option UInt8) (n : Int) (i : Nat) :
    WriteTurn → PipeSys
  | .abort => s.ret p
  | .full => (s.wakeup .nread).sleep p .nwrite (.wSleep src n i)
  | .put ch => { s with pipe := s.pipe.put ch }.setPc p (.wLoop src n (i + 1))
  | .stop _ => (s.wakeup .nread).ret p

/-- Process `p` is in a loop of `piperead`. -/
def afterRead (s : PipeSys) (p : Nat) (ok : Nat → Bool) (n : Int) (i : Nat) : ReadTurn → PipeSys
  | .abort => s.ret p
  | .empty => s.sleep p .nread (.rSleep ok n)
  | .go => s.setPc p (.rCopy ok n 0)
  | .take _ => { s with pipe := s.pipe.take.2 }.setPc p (.rCopy ok n (i + 1))
  | .lose _ _ => ({ s with pipe := s.pipe.take.2 }.wakeup .nwrite).ret p
  | .stop _ => (s.wakeup .nwrite).ret p

def step (s : PipeSys) : PipeAct → Option (Except Empty PipeSys)
  | .callWrite p src n =>
    match (s.proc p).pc with
    | .idle => some (.ok (s.setPc p (.wEnter src n)))
    | _ => none
  | .callRead p ok n =>
    match (s.proc p).pc with
    | .idle => some (.ok (s.setPc p (.rEnter ok n)))
    | _ => none
  | .acquire p =>
    if s.lock = none ∧ (s.proc p).sleeping = none then
      match entered (s.proc p).pc with
      | some pc => some (.ok { s.setPc p pc with lock := some p })
      | none => none
    else none
  | .write p t =>
    match (s.proc p).pc with
    | .wLoop src n i =>
      if s.pipe.writeTurn (s.proc p).killed src n i = t then some (.ok (s.afterWrite p src n i t))
      else none
    | _ => none
  | .read p t =>
    match (s.proc p).pc with
    | .rWait ok n =>
      if s.pipe.waitTurn (s.proc p).killed = t then some (.ok (s.afterRead p ok n 0 t)) else none
    | .rCopy ok n i =>
      if s.pipe.copyTurn ok n i = t then some (.ok (s.afterRead p ok n i t)) else none
    | _ => none
  | .close writable =>
    if s.lock = none then
      some (.ok ({ s with pipe := s.pipe.close writable }.wakeup (closeWakes writable)))
    else none
  | .kill p => some (.ok (s.kill p))

end PipeSys

/-- A new pipe; processes may have been killed before they use it. -/
def pipeLts : Lts PipeSys PipeAct Empty where
  init s := (∃ data, s.pipe = Pipe.alloc data) ∧ s.lock = none ∧
    ∀ p, (s.proc p).sleeping = none ∧ (s.proc p).pc = .idle
  step := PipeSys.step

/-- The byte an action puts into the pipe, if any. -/
def PipeAct.put : PipeAct → List UInt8
  | .write _ (.put ch) => [ch]
  | _ => []

/-- The byte an action takes out of the pipe, if any. -/
def PipeAct.taken : PipeAct → List UInt8
  | .read _ (.take ch) => [ch]
  | .read _ (.lose ch _) => [ch]
  | _ => []

def bytesPut (tr : List PipeAct) : List UInt8 := tr.flatMap PipeAct.put

def bytesTaken (tr : List PipeAct) : List UInt8 := tr.flatMap PipeAct.taken

/-- The last call of `pipewrite` by process `p`: its buffer, its count, and the bytes it has put
into the pipe. -/
structure WriteCall where
  src : Nat → Option UInt8
  n   : Int
  put : List UInt8

/-- What an action adds to the last call of `p`. -/
def WriteCall.note (p : Nat) (c : Option WriteCall) : PipeAct → Option WriteCall
  | .callWrite q src n => if q = p then some { src := src, n := n, put := [] } else c
  | .write q (.put ch) => if q = p then c.map fun c => { c with put := c.put ++ [ch] } else c
  | _ => c

def lastWrite (p : Nat) (tr : List PipeAct) : Option WriteCall :=
  tr.foldl (WriteCall.note p) none

end Xv6
