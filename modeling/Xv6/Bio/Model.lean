import Xv6.Log.Group

/-!
# xv6 — buffer cache and log together (`kernel/bio.c`, `kernel/log.c`)

`Bcache` is the buffer cache: the array of buffers and the list through them, from
`head.next` (most recently used) to `head.prev`. `bget`, `brelse`, `bpin` and `bunpin` are its
sections under `bcache.lock`.

`BioSys` is the running system: `N` processes that read blocks with `bread`, change buffers
inside transactions and log them, while the process whose `end_op` is the last one runs
`commit`. What a process does between two lock operations is one step. A `bread` takes three
steps (the reference is counted in `bget`, the sleep-lock is waited for, an invalid buffer is
read from disk), a `brelse` two.

Processes other than the committing one follow the rules of `log.c`: they change a buffer only
while they hold it inside a transaction, `log_write` it before they release it, and leave the
log region alone.
-/

namespace Xv6

/-! ## The buffer cache -/

/-- `struct buf`; `lock` is the process that holds the sleep-lock. -/
structure Buf where
  valid   : Bool
  dev     : Nat
  blockno : Nat
  lock    : Option Nat
  refcnt  : Nat
  data    : Block

structure Bcache where
  buf : Nat → Buf
  lru : List Nat

namespace Bcache

/-- `binit`: each buffer is put in front of the ones before it. -/
def binit : Bcache where
  buf := fun _ => { valid := false, dev := 0, blockno := 0, lock := none, refcnt := 0, data := zeroBlock }
  lru := (List.range NBUF).reverse

def set (c : Bcache) (i : Nat) (b : Buf) : Bcache :=
  { c with buf := Function.update c.buf i b }

/-- Is the block already cached? -/
def lookup (c : Bcache) (dev blockno : Nat) : Option Nat :=
  c.lru.find? fun i => (c.buf i).dev == dev && (c.buf i).blockno == blockno

/-- The least recently used buffer without references. -/
def victim (c : Bcache) : Option Nat :=
  c.lru.reverse.find? fun i => (c.buf i).refcnt == 0

/-- `bget` up to its `acquiresleep`; `none` is `panic("bget: no buffers")`. -/
def bget (c : Bcache) (dev blockno : Nat) : Option (Nat × Bcache) :=
  match c.lookup dev blockno with
  | some i => some (i, c.set i { c.buf i with refcnt := (c.buf i).refcnt + 1 })
  | none =>
    match c.victim with
    | some i => some (i, c.set i { c.buf i with dev, blockno, valid := false, refcnt := 1 })
    | none => none

/-- The section of `brelse` under `bcache.lock`. -/
def drop (c : Bcache) (i : Nat) : Bcache :=
  let c := c.set i { c.buf i with refcnt := (c.buf i).refcnt - 1 }
  -- no one is waiting for it: move it to the front
  if (c.buf i).refcnt = 0 then { c with lru := i :: c.lru.erase i } else c

def bpin (c : Bcache) (i : Nat) : Bcache :=
  c.set i { c.buf i with refcnt := (c.buf i).refcnt + 1 }

def bunpin (c : Bcache) (i : Nat) : Bcache :=
  c.set i { c.buf i with refcnt := (c.buf i).refcnt - 1 }

end Bcache

/-! ## Processes -/

/-- The statements of `commit`. Numbers are the loop index `tail` and the buffers that the
local variables point to. -/
inductive CommitPc where
  -- write_log: to = bread(..); from = bread(..); memmove; bwrite(to); brelse(from); brelse(to)
  | logTo (tail : Nat)
  | logFrom (tail dst : Nat)
  | logCopy (tail dst src : Nat)
  | logWrite (tail dst src : Nat)
  | logRelFrom (tail dst src : Nat)
  | logRelTo (tail dst : Nat)
  -- write_head, the first time (`erase = false`) and the second
  | headRead (erase : Bool)
  | headFill (erase : Bool) (hb : Nat)
  | headWrite (erase : Bool) (hb : Nat)
  | headRel (erase : Bool) (hb : Nat)
  -- install_trans: lbuf, dbuf, memmove, bwrite(dbuf), bunpin(dbuf), brelse(lbuf), brelse(dbuf)
  | insLog (tail : Nat)
  | insDst (tail src : Nat)
  | insCopy (tail src dst : Nat)
  | insWrite (tail src dst : Nat)
  | insUnpin (tail src dst : Nat)
  | insRelLog (tail src dst : Nat)
  | insRelDst (tail dst : Nat)
  -- log.lh.n = 0
  | clear
  | ret
  deriving DecidableEq, Repr

/-- Where a process is: as in `OpPc`, with the statements of `commit` spelled out. -/
inductive BioPc where
  | idle
  | waiting
  | inOp
  | commitCalled
  | commit (c : CommitPc)
  deriving DecidableEq, Repr

/-- A process in the middle of a `bread` of block `b` (waiting for the lock of buffer `i`, or
holding it), or of a `brelse`. -/
inductive Busy where
  | free
  | locking (i b : Nat)
  | loading (i b : Nat)
  | releasing (i : Nat)
  deriving DecidableEq, Repr

/-- `held`: the buffers returned by `bread` and not yet released; `dirty`: those among them that
were changed since they were last logged. -/
structure Thread where
  pc    : BioPc
  held  : List Nat
  dirty : List Nat
  busy  : Busy

namespace BioPc

/-- Not in `begin_op` and not in a commit: the process runs file system code. -/
def isUser : BioPc → Bool
  | .idle | .inOp => true
  | _ => false

/-- The block that the current statement of `commit` reads. -/
def readArg (l : Log) : BioPc → Option Nat
  | .commit (.logTo tail) => some (l.start + tail + 1)
  | .commit (.logFrom tail _) => some (l.lh.getD tail 0)
  | .commit (.headRead _) => some l.start
  | .commit (.insLog tail) => some (l.start + tail + 1)
  | .commit (.insDst tail _) => some (l.lh.getD tail 0)
  | _ => none

/-- The statement after a `bread` that returned buffer `i`. -/
def afterRead (i : Nat) : BioPc → BioPc
  | .commit (.logTo tail) => .commit (.logFrom tail i)
  | .commit (.logFrom tail dst) => .commit (.logCopy tail dst i)
  | .commit (.headRead e) => .commit (.headFill e i)
  | .commit (.insLog tail) => .commit (.insDst tail i)
  | .commit (.insDst tail src) => .commit (.insCopy tail src i)
  | pc => pc

/-- Destination and source of the current `memmove` of `commit`. -/
def copyArgs : BioPc → Option (Nat × Nat)
  | .commit (.logCopy _ dst src) => some (dst, src)
  | .commit (.insCopy _ src dst) => some (dst, src)
  | _ => none

/-- The buffer that the current statement of `commit` writes to disk. -/
def writeArg : BioPc → Option Nat
  | .commit (.logWrite _ dst _) => some dst
  | .commit (.headWrite _ hb) => some hb
  | .commit (.insWrite _ _ dst) => some dst
  | _ => none

/-- The buffer that the current statement of `commit` releases. -/
def relArg : BioPc → Option Nat
  | .commit (.logRelFrom _ _ src) => some src
  | .commit (.logRelTo _ dst) => some dst
  | .commit (.headRel _ hb) => some hb
  | .commit (.insRelLog _ src _) => some src
  | .commit (.insRelDst _ dst) => some dst
  | _ => none

/-- The statement after a `brelse` of `commit`, loop tests included. -/
def afterRel (l : Log) : BioPc → BioPc
  | .commit (.logRelFrom tail dst _) => .commit (.logRelTo tail dst)
  | .commit (.logRelTo tail _) =>
    if tail + 1 < l.lh.length then .commit (.logTo (tail + 1)) else .commit (.headRead false)
  | .commit (.headRel false _) =>
    if 0 < l.lh.length then .commit (.insLog 0) else .commit .clear
  | .commit (.headRel true _) => .commit .ret
  | .commit (.insRelLog tail _ dst) => .commit (.insRelDst tail dst)
  | .commit (.insRelDst tail _) =>
    if tail + 1 < l.lh.length then .commit (.insLog (tail + 1)) else .commit .clear
  | pc => pc

/-- The statement after a `memmove` or `bwrite` of `commit`. -/
def after : BioPc → BioPc
  | .commit (.logCopy tail dst src) => .commit (.logWrite tail dst src)
  | .commit (.logWrite tail dst src) => .commit (.logRelFrom tail dst src)
  | .commit (.headWrite e hb) => .commit (.headRel e hb)
  | .commit (.insCopy tail src dst) => .commit (.insWrite tail src dst)
  | .commit (.insWrite tail src dst) => .commit (.insUnpin tail src dst)
  | pc => pc

end BioPc

/-! ## The system -/

inductive BioPanic where
  /-- `panic("bget: no buffers")` -/
  | noBuffers
  /-- `panic("bwrite")` -/
  | bwrite
  /-- `panic("brelse")` -/
  | brelse
  | log (e : LogPanic)
  deriving DecidableEq, Repr

structure BioSys where
  cache : Bcache
  disk  : Disk
  log   : Log
  th    : Nat → Thread

/-- The steps of process `p`. Labels carry what the step observes. -/
inductive BioAct where
  | call (p : Nat)
  | sleep (p : Nat)
  | enter (p : Nat)
  | leave (p : Nat)
  -- `commit` is entered; `work`: the test log.lh.n > 0
  | commitStart (p : Nat) (work : Bool)
  | clear (p : Nat)
  | commitDone (p : Nat)
  -- the three steps of `bread`; the last returns buffer `i` for block `b`
  | bget (p b : Nat)
  | lock (p : Nat)
  | load (p i b : Nat)
  -- buffer `i` of block `b` is changed to `v`; it is logged (and pinned)
  | modify (p i b : Nat) (v : Block)
  | logWrite (p i b : Nat) (pin : Bool)
  -- the two steps of `brelse`
  | unlock (p i : Nat)
  | drop (p : Nat)
  -- statements of `commit`
  | copy (p : Nat)
  | fill (p : Nat)
  | bwrite (p : Nat)
  | unpin (p b : Nat)

namespace BioAct

def proc : BioAct → Nat
  | call p | sleep p | enter p | leave p | commitStart p _ | clear p | commitDone p
  | bget p _ | lock p | load p _ _ | modify p _ _ _ | logWrite p _ _ _ | unlock p _ | drop p
  | copy p | fill p | bwrite p | unpin p _ => p

end BioAct

namespace BioSys

def setTh (s : BioSys) (p : Nat) (t : Thread) : BioSys :=
  { s with th := Function.update s.th p t }

def setBuf (s : BioSys) (i : Nat) (b : Buf) : BioSys :=
  { s with cache := s.cache.set i b }

/-- May process `p` ask for block `b` now? -/
def mayRead (s : BioSys) (t : Thread) (b : Nat) : Bool :=
  t.busy == .free &&
    (t.pc.isUser && decide (s.log.Home b) || t.pc.readArg s.log == some b)

/-- May process `p` release buffer `i` now? -/
def mayRelease (t : Thread) (i : Nat) : Bool :=
  t.busy == .free &&
    (t.pc.isUser && decide (i ∈ t.held ∧ i ∉ t.dirty) || t.pc.relArg == some i)

/-- One step of process `p` (with thread `t`). -/
def act (s : BioSys) (p : Nat) (t : Thread) : BioAct → Option (Except BioPanic BioSys)
  | .call _ =>
    if t.pc = .idle ∧ t.busy = .free then some (.ok (s.setTh p { t with pc := .waiting })) else none
  | .sleep _ => if t.pc = .waiting ∧ s.log.beginOp = none then some (.ok s) else none
  | .enter _ =>
    if t.pc = .waiting then
      match s.log.beginOp with
      | some l => some (.ok ({ s with log := l }.setTh p { t with pc := .inOp }))
      | none => none
    else none
  | .leave _ =>
    -- every buffer changed in the operation has been logged
    if t.pc = .inOp ∧ t.busy = .free ∧ t.dirty = [] then
      match s.log.endOp with
      | .ok (l, doCommit) => some (.ok ({ s with log := l }.setTh p
          { t with pc := if doCommit then .commitCalled else .idle }))
      | .error e => some (.error (.log e))
    else none
  | .commitStart _ work =>
    if t.pc = .commitCalled ∧ work = decide (0 < s.log.lh.length) then
      some (.ok (s.setTh p { t with pc := .commit (if work then .logTo 0 else .ret) }))
    else none
  | .clear _ =>
    if t.pc = .commit .clear then
      some (.ok ({ s with log := { s.log with lh := [] } }.setTh p
        { t with pc := .commit (.headRead true) }))
    else none
  | .commitDone _ =>
    if t.pc = .commit .ret then
      some (.ok ({ s with log := { s.log with committing := false } }.setTh p { t with pc := .idle }))
    else none
  | .bget _ b =>
    if s.mayRead t b then
      match s.cache.bget ROOTDEV b with
      | some (i, c) => some (.ok ({ s with cache := c }.setTh p { t with busy := .locking i b }))
      | none => some (.error .noBuffers)
    else none
  | .lock _ =>
    match t.busy with
    | .locking i b =>
      -- acquiresleep
      if (s.cache.buf i).lock = none then
        some (.ok ((s.setBuf i { s.cache.buf i with lock := some p }).setTh p
          { t with busy := .loading i b }))
      else none
    | _ => none
  | .load _ i b =>
    let data := if (s.cache.buf i).valid then (s.cache.buf i).data else s.disk (s.cache.buf i).blockno
    if t.busy = .loading i b then
      some (.ok ((s.setBuf i { s.cache.buf i with valid := true, data }).setTh p
        { t with busy := .free, held := i :: t.held, pc := t.pc.afterRead i }))
    else none
  | .modify _ i b v =>
    if t.pc = .inOp ∧ t.busy = .free ∧ i ∈ t.held ∧ (s.cache.buf i).blockno = b then
      some (.ok ((s.setBuf i { s.cache.buf i with data := v }).setTh p
        { t with dirty := i :: t.dirty }))
    else none
  | .logWrite _ i b pin =>
    if t.pc = .inOp ∧ t.busy = .free ∧ i ∈ t.held ∧ (s.cache.buf i).blockno = b then
      match s.log.logWrite b with
      | .ok (l, pin') =>
        if pin = pin' then
          some (.ok ({ s with log := l, cache := if pin then s.cache.bpin i else s.cache }.setTh p
            { t with dirty := t.dirty.filter (· != i) }))
        else none
      | .error e => some (.error (.log e))
    else none
  | .unlock _ i =>
    if mayRelease t i then
      if (s.cache.buf i).lock = some p then
        some (.ok ((s.setBuf i { s.cache.buf i with lock := none }).setTh p
          { t with held := t.held.erase i, busy := .releasing i }))
      else some (.error .brelse)
    else none
  | .drop _ =>
    match t.busy with
    | .releasing i => some (.ok ({ s with cache := s.cache.drop i }.setTh p
        { t with busy := .free, pc := t.pc.afterRel s.log }))
    | _ => none
  | .copy _ =>
    match t.pc.copyArgs with
    | some (dst, src) =>
      some (.ok ((s.setBuf dst { s.cache.buf dst with data := (s.cache.buf src).data }).setTh p
        { t with pc := t.pc.after }))
    | none => none
  | .fill _ =>
    match t.pc with
    | .commit (.headFill e hb) =>
      let v := fillHead (s.cache.buf hb).data s.log.lh
      some (.ok ((s.setBuf hb { s.cache.buf hb with data := v }).setTh p
        { t with pc := .commit (.headWrite e hb) }))
    | _ => none
  | .bwrite _ =>
    match t.pc.writeArg with
    | some i =>
      let d := Function.update s.disk (s.cache.buf i).blockno (s.cache.buf i).data
      if (s.cache.buf i).lock = some p then
        some (.ok ({ s with disk := d }.setTh p { t with pc := t.pc.after }))
      else some (.error .bwrite)
    | none => none
  | .unpin _ b =>
    match t.pc with
    | .commit (.insUnpin tail src dst) =>
      if (s.cache.buf dst).blockno = b then
        some (.ok ({ s with cache := s.cache.bunpin dst }.setTh p
          { t with pc := .commit (.insRelLog tail src dst) }))
      else none
    | _ => none

/-- After `binit` and `initlog` on disk `d`. -/
def initial (start size : Nat) (d : Disk) : BioSys where
  cache := Bcache.binit
  disk := d
  log := { start, size, outstanding := 0, committing := false, lh := [] }
  th := fun _ => { pc := .idle, held := [], dirty := [], busy := .free }

def step (n : Nat) (s : BioSys) (a : BioAct) : Option (Except BioPanic BioSys) :=
  if a.proc < n then s.act a.proc (s.th a.proc) a else none

end BioSys

/-- `n` processes over a disk with contents `d` and a log of `size` blocks at `start`. -/
def bioLts (n start size : Nat) (d : Disk) : Lts BioSys BioAct BioPanic where
  init := fun s => s = BioSys.initial start size d
  step := BioSys.step n

/-! ## Histories -/

/-- The array of blocks that the history has written, starting from `d`. -/
def latest (d : Disk) (tr : List BioAct) : Disk :=
  tr.foldl (fun d a => match a with
    | .modify _ _ b v => Function.update d b v
    | _ => d) d

/-- The pins of the history: taken by `log_write`, released by `bunpin`. -/
def pins (tr : List BioAct) : List Nat :=
  tr.foldl (fun ps a => match a with
    | .logWrite _ _ b true => ps ++ [b]
    | .unpin _ b => ps.erase b
    | _ => ps) []

end Xv6
