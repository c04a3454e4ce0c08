import Xv6.Lib.Lts
import Xv6.Lib.RingBuf
import Xv6.Params

/-!
# xv6 — the disk driver (`kernel/virtio_disk.c`)

Any number of processes call `virtio_disk_rw`, each with a buffer whose sleep-lock it holds, as
`bread` and `bwrite` do. The device takes the heads of chains out of the avail ring, works on
several at once, and completes them in any order: it writes 0 to the status byte that the chain
points to and appends the head to the used ring. The interrupt handler `virtio_disk_intr` runs at any
time, on any CPU.

What a thread does with `disk.vdisk_lock` between two points at which the device or another thread
can interfere is one step; the device does not care about the lock. A process that sleeps in
`virtio_disk_rw` may be woken up at any time (`kill` does that too) and looks again.

The `nread` of the avail ring is the private index of the device, that of the used ring is
`disk.used_idx`. Contents of buffers and the `len` of used entries, which nobody reads, are left out.
-/

namespace Xv6

/-! ## Data -/

/-- this many virtio descriptors -/
abbrev NUM : Nat := 8

/-- chained with another descriptor -/
abbrev VRING_DESC_F_NEXT : BitVec 16 := 1
/-- device writes (vs read) -/
abbrev VRING_DESC_F_WRITE : BitVec 16 := 2

/-- What a descriptor can point to: `disk.ops[i]`, the data of a buffer, `disk.info[i].status`. -/
inductive VAddr where
  | null
  | op (i : Nat)
  | data (b : Nat)
  | status (i : Nat)
  deriving DecidableEq, Repr

/-- `struct virtq_desc` -/
structure VDesc where
  addr  : VAddr
  len   : Nat
  flags : BitVec 16
  next  : Nat
  deriving DecidableEq

/-- `struct virtio_blk_req` without `reserved` -/
structure BlkReq where
  type   : Nat
  sector : Nat

/-- `disk.info[i]` -/
structure VInfo where
  b      : Option Nat
  status : BitVec 8

/-- `disk`, and `b->disk` of all buffers. -/
structure VDisk where
  free  : Nat → Bool
  desc  : Nat → VDesc
  ops   : Nat → BlkReq
  info  : Nat → VInfo
  avail : RingBuf 16 Nat
  used  : RingBuf 16 Nat
  bdisk : Nat → Bool

inductive VPanic where
  /-- `panic("free_desc 1")` -/
  | freeDesc1
  /-- `panic("free_desc 2")` -/
  | freeDesc2
  /-- `panic("virtio_disk_intr status")` -/
  | intrStatus
  /-- `info[id].b` is null -/
  | nullBuf
  /-- the loop of `free_chain` does not end -/
  | endless
  deriving DecidableEq, Repr

/-! ## Descriptors -/

namespace VDisk

/-- `alloc_desc`; `none` is -1. -/
def alloc_desc (d : VDisk) : Option (Nat × VDisk) :=
  ((List.range NUM).find? fun i => d.free i).map fun i => (i, { d with free := upd d.free i false })

/-- `free_desc`, but for its `wakeup`. -/
def free_desc (d : VDisk) (i : Nat) : Except VPanic VDisk :=
  if NUM ≤ i then .error .freeDesc1
  else if d.free i then .error .freeDesc2
  else .ok { d with
    desc := upd d.desc i { addr := .null, len := 0, flags := 0, next := 0 }
    free := upd d.free i true }

/-- `free_chain`; at most `fuel` turns of its loop. -/
def free_chain : Nat → VDisk → Nat → Except VPanic VDisk
  | 0, _, _ => .error .endless
  | fuel + 1, d, i =>
    let flag := (d.desc i).flags
    let nxt := (d.desc i).next
    (d.free_desc i).bind fun d =>
      if flag &&& VRING_DESC_F_NEXT ≠ 0 then free_chain fuel d nxt else .ok d

/-- `for(int j = 0; j < i; j++) free_desc(idx[j]);` -/
def free_descs (d : VDisk) (idx : List Nat) : Except VPanic VDisk := idx.foldlM free_desc d

/-- The loop of `alloc3_desc`, with `n` turns left. -/
def alloc_loop : Nat → VDisk → List Nat → Except VPanic (Option (List Nat) × VDisk)
  | 0, d, idx => .ok (some idx, d)
  | n + 1, d, idx =>
    match d.alloc_desc with
    | some (i, d) => alloc_loop n d (idx ++ [i])
    | none => (d.free_descs idx).map fun d => (none, d)

/-- `alloc3_desc`; `none` is -1. -/
def alloc3_desc (d : VDisk) : Except VPanic (Option (List Nat) × VDisk) := alloc_loop 3 d []

end VDisk

/-! ## Processes -/

/-- A call of `virtio_disk_rw`. -/
structure VReq where
  b       : Nat
  blockno : Nat
  write   : Bool
  deriving DecidableEq, Repr

/-- `idx[3]` -/
structure VChain where
  fst : Nat
  snd : Nat
  trd : Nat
  deriving DecidableEq, Repr

def VChain.idx (t : VChain) : List Nat := [t.fst, t.snd, t.trd]

/-- Where a process is in `virtio_disk_rw`. -/
inductive VPc where
  | idle
  /-- about to acquire `vdisk_lock` -/
  | want (r : VReq)
  /-- at the head of the first loop -/
  | alloc (r : VReq)
  /-- asleep on `&disk.free[0]` -/
  | noDesc (r : VReq)
  /-- about to format the descriptors -/
  | format (r : VReq) (t : VChain)
  /-- at the head of the second loop -/
  | check (r : VReq) (t : VChain)
  /-- asleep on `b` -/
  | pending (r : VReq) (t : VChain)
  deriving DecidableEq, Repr

inductive VHolder where
  | proc (p : Nat)
  | intr
  deriving DecidableEq, Repr

/-- `owner`: who holds the sleep-lock of a buffer. `dev`: the chains the device works on. -/
structure VSys where
  d     : VDisk
  lock  : Option VHolder
  pc    : Nat → VPc
  owner : Nat → Option Nat
  dev   : List Nat

inductive VAct where
  /-- sleep-locks of buffers -/
  | acquiresleep (p b : Nat)
  | releasesleep (p b : Nat)
  /-- `virtio_disk_rw` is called -/
  | call (p : Nat) (r : VReq)
  | acquire (p : Nat)
  | alloc (p : Nat)
  /-- the request goes to the device; `h` is `idx[0]` -/
  | submit (p h : Nat)
  | sleep (p : Nat)
  /-- `virtio_disk_rw` returns -/
  | ret (p : Nat)
  /-- the device takes the next chain -/
  | take
  /-- the device completes the chain of head `h` -/
  | complete (h : Nat)
  /-- `virtio_disk_intr` acquires the lock -/
  | intrBegin
  /-- a turn of its loop; `id` is the entry of the used ring -/
  | intr (id : Nat)
  | intrEnd
  deriving DecidableEq, Repr

namespace VDisk

/-- The middle of `virtio_disk_rw`: the descriptors are formatted and the chain is put into the
avail ring. -/
def submit (d : VDisk) (r : VReq) (t : VChain) : VDisk :=
  { d with
    ops := upd d.ops t.fst { type := if r.write then 1 else 0, sector := r.blockno * (BSIZE / 512) }
    desc :=
      let desc := upd d.desc t.fst
        { addr := .op t.fst, len := 16, flags := VRING_DESC_F_NEXT, next := t.snd }
      let desc := upd desc t.snd
        { addr := .data r.b, len := BSIZE,
          flags := (if r.write then 0 else VRING_DESC_F_WRITE) ||| VRING_DESC_F_NEXT, next := t.trd }
      upd desc t.trd { addr := .status t.fst, len := 1, flags := VRING_DESC_F_WRITE, next := 0 }
    info := upd d.info t.fst { b := some r.b, status := 0xff }
    bdisk := upd d.bdisk r.b true
    avail := d.avail.push NUM t.fst }

/-- The end of `virtio_disk_rw`. -/
def finish (d : VDisk) (t : VChain) : Except VPanic VDisk :=
  free_chain (NUM + 1) { d with info := upd d.info t.fst { d.info t.fst with b := none } } t.fst

/-- The status byte that the chain of head `h` points to. -/
def statusOf (d : VDisk) (h : Nat) : VAddr :=
  (d.desc (d.desc (d.desc h).next).next).addr

end VDisk

namespace VSys

def setPc (s : VSys) (p : Nat) (c : VPc) : VSys := { s with pc := upd s.pc p c }

def step (s : VSys) : VAct → Option (Except VPanic VSys)
  | .acquiresleep p b =>
    if s.owner b = none then some (.ok { s with owner := upd s.owner b (some p) }) else none
  | .releasesleep p b =>
    if s.pc p = .idle ∧ s.owner b = some p then
      some (.ok { s with owner := upd s.owner b none })
    else none
  | .call p r =>
    if s.pc p = .idle ∧ s.owner r.b = some p then some (.ok (s.setPc p (.want r))) else none
  | .acquire p =>
    if s.lock = none then
      match s.pc p with
      | .want r | .noDesc r => some (.ok ({ s with lock := some (.proc p) }.setPc p (.alloc r)))
      | .pending r t => some (.ok ({ s with lock := some (.proc p) }.setPc p (.check r t)))
      | _ => none
    else none
  | .alloc p =>
    match s.pc p with
    | .alloc r =>
      match s.d.alloc3_desc with
      | .error e => some (.error e)
      | .ok (some [i, j, k], d) => some (.ok ({ s with d }.setPc p (.format r ⟨i, j, k⟩)))
      | .ok (_, d) => some (.ok ({ s with d, lock := none }.setPc p (.noDesc r)))
    | _ => none
  | .submit p h =>
    match s.pc p with
    | .format r t =>
      if h = t.fst then some (.ok ({ s with d := s.d.submit r t }.setPc p (.check r t))) else none
    | _ => none
  | .sleep p =>
    match s.pc p with
    | .check r t =>
      if s.d.bdisk r.b then some (.ok ({ s with lock := none }.setPc p (.pending r t))) else none
    | _ => none
  | .ret p =>
    match s.pc p with
    | .check r t =>
      if s.d.bdisk r.b then none
      else some ((s.d.finish t).map fun d => { s with d, lock := none }.setPc p .idle)
    | _ => none
  | .take =>
    if s.d.avail.nread = s.d.avail.nwrite then none
    else some (.ok { s with
      d := { s.d with avail := s.d.avail.pop }, dev := s.d.avail.head NUM :: s.dev })
  | .complete h =>
    if h ∈ s.dev then
      match s.d.statusOf h with
      | .status i => some (.ok { s with
          d := { s.d with info := upd s.d.info i { s.d.info i with status := 0 }, used := s.d.used.push NUM h }
          dev := s.dev.erase h })
      | _ => none
    else none
  | .intrBegin => if s.lock = none then some (.ok { s with lock := some .intr }) else none
  | .intr id =>
    if s.lock = some .intr ∧ s.d.used.nread ≠ s.d.used.nwrite ∧ id = s.d.used.head NUM then
      if (s.d.info id).status ≠ 0 then some (.error .intrStatus)
      else
        match (s.d.info id).b with
        | none => some (.error .nullBuf)
        | some b => some (.ok { s with d := { s.d with bdisk := upd s.d.bdisk b false, used := s.d.used.pop } })
    else none
  | .intrEnd =>
    if s.lock = some .intr ∧ s.d.used.nread = s.d.used.nwrite then some (.ok { s with lock := none })
    else none

/-- After `virtio_disk_init`. -/
def initial : VSys where
  d := {
    free := fun _ => true
    desc := fun _ => { addr := .null, len := 0, flags := 0, next := 0 }
    ops := fun _ => { type := 0, sector := 0 }
    info := fun _ => { b := none, status := 0 }
    avail := { data := fun _ => 0, nread := 0, nwrite := 0 }
    used := { data := fun _ => 0, nread := 0, nwrite := 0 }
    bdisk := fun _ => false }
  lock := none
  pc := fun _ => .idle
  owner := fun _ => none
  dev := []

end VSys

def virtioLts : Lts VSys VAct VPanic where
  init s := s = .initial
  step := VSys.step

end Xv6
