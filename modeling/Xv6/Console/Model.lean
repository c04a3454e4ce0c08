import Xv6.Lib.Lts
import Xv6.Lib.RingBuf

/-!
# xv6 — console input (`kernel/console.c`)

The interrupt handler `consoleintr` puts typed characters into `cons.buf` and edits the line that is
being typed; `consoleread` copies finished lines to user memory. Both run under `cons.lock`: the
handler is one step, and so is each turn of the loop of `consoleread`, which keeps the lock
from turn to turn but for the time it sleeps. Calls of `consoleread` follow one another; the
processes that make them are not killed and can be copied out to.

The three indices `r`, `w` and `e` are `uint`s that are never reduced; the cell of an index is the
index modulo `INPUT_BUF`.
-/

namespace Xv6

def INPUT_BUF : Nat := 128

/-- `C(x)`, Control-x -/
def ctrl (x : Char) : UInt8 := x.toUInt8 - '@'.toUInt8

/-- `'\n'` -/
def newline : UInt8 := 10

/-- `cons`; its ring buffer holds `buf`, with `r` as its `nread` and `e` as its `nwrite`. -/
structure Cons extends RingBuf 32 UInt8 where
  w : BitVec 32

namespace Cons

/-- Read index -/
def r (s : Cons) : BitVec 32 := s.nread

/-- Edit index -/
def e (s : Cons) : BitVec 32 := s.nwrite

/-- `cons.e--` -/
def back (s : Cons) : Cons := { s with toRingBuf := s.toRingBuf.back }

/-- `cons.buf[cons.e++ % INPUT_BUF] = c` -/
def put (s : Cons) (c : UInt8) : Cons := { s with toRingBuf := s.push INPUT_BUF c }

/-- `cons.w = cons.e` -/
def commit (s : Cons) : Cons := { s with w := s.nwrite }

/-- `cons.r++` -/
def next (s : Cons) : Cons := { s with toRingBuf := s.pop }

/-- The loop of `case C('U')`; every turn brings `e` closer to `w`. -/
def killLine : (fuel : Nat) → Cons → Cons
  | 0, s => s
  | fuel + 1, s =>
    if s.e ≠ s.w ∧ s.last INPUT_BUF ≠ newline then killLine fuel s.back else s

/-- `consoleintr(c)`: the new state, and whether the sleepers of `&cons.r` are woken up. -/
def intr (s : Cons) (c : UInt8) : Cons × Bool :=
  if c = ctrl 'P' then (s, false)
  else if c = ctrl 'U' then (killLine (s.e - s.w).toNat s, false)
  else if c = ctrl 'H' ∨ c = 0x7f then (if s.e ≠ s.w then s.back else s, false)
  else if c ≠ 0 ∧ (s.e - s.r).toNat < INPUT_BUF then
    let c := if c = 13 then newline else c
    let s := s.put c
    if c = newline ∨ c = ctrl 'D' ∨ s.e = s.r + BitVec.ofNat 32 INPUT_BUF then (s.commit, true)
    else (s, false)
  else (s, false)

end Cons

/-- Outcome of one turn of the loop of `consoleread`. -/
inductive ConsTurn where
  /-- there is no input: `sleep(&cons.r, &cons.lock)` -/
  | empty
  /-- `^D`; `saved` says whether it is left for the next call -/
  | eof (saved : Bool)
  /-- a byte is copied to the user -/
  | take (c : UInt8)
  /-- the loop ends -/
  | done
  deriving DecidableEq, Repr

/-- One turn of `while(n > 0)`. -/
def Cons.turn (s : Cons) (target n : BitVec 32) : ConsTurn :=
  if 0 < n.toInt then
    if s.r = s.w then .empty
    else
      let c := s.head INPUT_BUF
      if c = ctrl 'D' then .eof (n.ult target) else .take c
  else .done

/-- Where the reader is: in no call, about to acquire `cons.lock`, in the loop with the lock held, or in
`sleep`, where `woken` says that `wakeup` has made it runnable again. -/
inductive ConsPc where
  | idle
  | enter (n : BitVec 32)
  | loop (target n : BitVec 32)
  | asleep (target n : BitVec 32) (woken : Bool)
  deriving DecidableEq, Repr

structure ConsSys where
  cons : Cons
  pc   : ConsPc

inductive ConsAct where
  /-- a character is typed -/
  | type (c : UInt8)
  /-- a process calls `consoleread(1, dst, n)` -/
  | call (n : BitVec 32)
  /-- the reader gets `cons.lock`, for the first time or at the end of `sleep` -/
  | acquire
  /-- a turn of the loop -/
  | turn (t : ConsTurn)
  deriving DecidableEq, Repr

namespace ConsSys

/-- `wakeup(&cons.r)` -/
def wakeup : ConsPc → ConsPc
  | .asleep target n _ => .asleep target n true
  | pc => pc

/-- The reader's turn comes out as `t`. -/
def afterTurn (s : ConsSys) (target n : BitVec 32) : ConsTurn → ConsSys
  | .empty => { s with pc := .asleep target n false }
  | .eof saved => { cons := if saved then s.cons else s.cons.next, pc := .idle }
  | .take c => { cons := s.cons.next, pc := if c = newline then .idle else .loop target (n - 1) }
  | .done => { s with pc := .idle }

/-- Does the reader hold `cons.lock`? -/
def locked : ConsPc → Bool
  | .loop _ _ => true
  | _ => false

def step (s : ConsSys) : ConsAct → Option (Except Empty ConsSys)
  | .type c =>
    if locked s.pc then none
    else
      let (cons, wake) := s.cons.intr c
      some (.ok { cons, pc := if wake then wakeup s.pc else s.pc })
  | .call n =>
    match s.pc with
    | .idle => some (.ok { s with pc := .enter n })
    | _ => none
  | .acquire =>
    match s.pc with
    | .enter n => some (.ok { s with pc := .loop n n })
    | .asleep target n true => some (.ok { s with pc := .loop target n })
    | _ => none
  | .turn t =>
    match s.pc with
    | .loop target n => if s.cons.turn target n = t then some (.ok (s.afterTurn target n t)) else none
    | _ => none

end ConsSys

/-- The console from its start on: all of `cons` is zero. -/
def consLts : Lts ConsSys ConsAct Empty where
  init s := s = { cons := { data := fun _ => 0, nread := 0, nwrite := 0, w := 0 }, pc := .idle }
  step := ConsSys.step

end Xv6
