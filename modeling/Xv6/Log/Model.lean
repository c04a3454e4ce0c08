import Xv6.Params

/-!
# xv6 — the redo log (`kernel/log.c`)

First the state that `log.lock` protects (`Log`) and the three sections of
code that run under that lock, as functions of it: one turn of the loop of
`begin_op`, `log_write`, and the first section of `end_op`.

Then the code that moves blocks: `write_log`, `write_head`, `install_trans`,
`commit` and `recover_from_log`, over a machine with a disk and a buffer
cache. Only `bwrite` reaches the disk. Since the machine may lose power
between any two block writes, it also keeps `stops`, the disk contents that
existed so far; the cache, the in-memory header and everything else is lost
when it stops.
-/

namespace Xv6

/-- The panics of `log.c`. -/
inductive LogPanic where
  /-- `panic("too big a transaction")` in `log_write` -/
  | tooBig
  /-- `panic("log_write outside of trans")` in `log_write` -/
  | outsideTrans
  /-- `panic("log.committing")` in `end_op` -/
  | committing
  deriving DecidableEq, Repr

/-- `struct log`. The first `lh.n` entries of `lh.block` are the list `lh`;
entries beyond are never read. -/
structure Log where
  start       : Nat
  size        : Nat
  /-- how many FS sys calls are executing -/
  outstanding : Nat
  /-- in `commit()`, please wait -/
  committing  : Bool
  lh          : List Nat
  deriving DecidableEq, Repr

namespace Log

/-- A block outside the log region. -/
def Home (l : Log) (b : Nat) : Prop := b < l.start ∨ l.start + l.size ≤ b

instance (l : Log) (b : Nat) : Decidable (l.Home b) :=
  inferInstanceAs (Decidable (b < l.start ∨ l.start + l.size ≤ b))

/-- One turn of the loop of `begin_op`, with the lock held: `none` when the
caller goes to sleep. -/
def beginOp (l : Log) : Option Log :=
  if l.committing then none
  else if l.lh.length + (l.outstanding + 1) * MAXOPBLOCKS > LOGSIZE then
    -- this op might exhaust log space; wait for commit
    none
  else some { l with outstanding := l.outstanding + 1 }

/-- The scan of `log_write`: the index of block `b` in the header, or `lh.n`. -/
def absorbIdx (lh : List Nat) (b : Nat) : Nat := lh.findIdx (· == b)

/-- `log_write`, as far as the log is concerned; the flag says whether the
block is new to the transaction, in which case the buffer is pinned. -/
def logWrite (l : Log) (b : Nat) : Except LogPanic (Log × Bool) :=
  if LOGSIZE ≤ l.lh.length ∨ l.size - 1 ≤ l.lh.length then .error .tooBig
  else if l.outstanding < 1 then .error .outsideTrans
  else
    let i := absorbIdx l.lh b
    if i = l.lh.length then .ok ({ l with lh := l.lh ++ [b] }, true)
    else .ok ({ l with lh := l.lh.set i b }, false)

/-- The first locked section of `end_op`; the flag is `do_commit`. -/
def endOp (l : Log) : Except LogPanic (Log × Bool) :=
  let l := { l with outstanding := l.outstanding - 1 }
  if l.committing then .error .committing
  else if l.outstanding = 0 then .ok ({ l with committing := true }, true)
  else .ok (l, false)

theorem absorbIdx_eq_length {lh : List Nat} {b : Nat} :
    absorbIdx lh b = lh.length ↔ b ∉ lh := by
  rw [absorbIdx, List.findIdx_eq_length]
  constructor
  · intro h hb
    simpa using h b hb
  · rintro h x hx
    have hNe : x ≠ b := fun hEq => h (hEq ▸ hx)
    simpa using hNe

/-- Log absorption stores a block number over itself. -/
theorem set_absorbIdx (lh : List Nat) (b : Nat) : lh.set (absorbIdx lh b) b = lh := by
  rw [absorbIdx]
  by_cases h : lh.findIdx (· == b) < lh.length
  · have hAt : lh[lh.findIdx (· == b)] = b := by
      simpa using List.findIdx_getElem (p := (· == b)) (w := h)
    have hSet := List.set_getElem_self h
    rwa [hAt] at hSet
  · exact List.set_eq_of_length_le (Nat.not_lt.mp h)

/-- What a `log_write` that does not panic does to the log. -/
theorem logWrite_ok {l l' : Log} {b : Nat} {pin : Bool} (h : l.logWrite b = .ok (l', pin)) :
    l.lh.length < LOGSIZE ∧ l.lh.length < l.size - 1 ∧ 1 ≤ l.outstanding ∧
      pin = decide (b ∉ l.lh) ∧
      l' = { l with lh := if b ∈ l.lh then l.lh else l.lh ++ [b] } := by
  unfold logWrite at h
  split at h
  · cases h
  · rename_i hSpace
    split at h
    · cases h
    · rename_i hOut
      refine ⟨by omega, by omega, by omega, ?_⟩
      dsimp only at h
      split at h
      · rename_i hIdx
        have hb := absorbIdx_eq_length.mp hIdx
        cases h
        simp [hb]
      · rename_i hIdx
        have hb : b ∈ l.lh := by
          by_contra hb
          exact hIdx (absorbIdx_eq_length.mpr hb)
        cases h
        simp [hb, set_absorbIdx]

end Log

/-! ## The machine -/

/-- The machine as `log.c` sees it: disk, buffer cache (contents of the valid
buffers), the log, and the disk contents at which it could have stopped. -/
structure Machine where
  disk  : Disk
  cache : Nat → Option Block
  log   : Log
  stops : List Disk

namespace Machine

/-- Contents of the buffer that `bread(b)` returns. -/
def buf (m : Machine) (b : Nat) : Block := (m.cache b).getD (m.disk b)

/-- `bread`: bring the block into the cache. -/
def bread (m : Machine) (b : Nat) : Machine :=
  { m with cache := Function.update m.cache b (some (m.buf b)) }

/-- Store `v` in the cached copy of block `b`. -/
def setBuf (m : Machine) (b : Nat) (v : Block) : Machine :=
  { m with cache := Function.update m.cache b (some v) }

/-- `bwrite`: one atomic, durable block write. -/
def bwrite (m : Machine) (b : Nat) : Machine :=
  let d := Function.update m.disk b (m.buf b)
  { m with disk := d, stops := m.stops ++ [d] }

/-- `memmove(dst->data, src->data, BSIZE)`. -/
def memmove (m : Machine) (dst src : Nat) : Machine := m.setBuf dst (m.buf src)

end Machine

/-! ## The on-disk header -/

/-- `hb->n = log.lh.n; hb->block[i] = log.lh.block[i]` for `i < n`. -/
def fillHead (hb : Block) (lh : List Nat) : Block :=
  ByteBuf.setFields (ByteBuf.setField hb 0 4 lh.length) 4 4 lh

/-- `lh->n`, a signed 32-bit int: a negative value runs no loop. -/
def headN (hb : Block) : Nat :=
  let n := ByteBuf.field hb 0 4
  if n < 2 ^ 31 then n else 0

/-- The first `lh->n` entries of `lh->block`. -/
def headBlocks (hb : Block) : List Nat := ByteBuf.fields hb 4 4 (headN hb)

/-! ## log.c -/

/-- The loop of `write_log` from index `tail` on. -/
def writeLogFrom (m : Machine) (tail : Nat) : List Nat → Machine
  | [] => m
  | b :: rest =>
    let m := m.bread (m.log.start + tail + 1)
    let m := m.bread b
    let m := m.memmove (m.log.start + tail + 1) b
    let m := m.bwrite (m.log.start + tail + 1)
    writeLogFrom m (tail + 1) rest

/-- Copy modified blocks from cache to log. -/
def writeLog (m : Machine) : Machine := writeLogFrom m 0 m.log.lh

/-- Write in-memory log header to disk. -/
def writeHead (m : Machine) : Machine :=
  let m := m.bread m.log.start
  let m := m.setBuf m.log.start (fillHead (m.buf m.log.start) m.log.lh)
  m.bwrite m.log.start

/-- The loop of `install_trans` from index `tail` on. -/
def installFrom (m : Machine) (tail : Nat) : List Nat → Machine
  | [] => m
  | b :: rest =>
    let m := m.bread (m.log.start + tail + 1)
    let m := m.bread b
    let m := m.memmove b (m.log.start + tail + 1)
    let m := m.bwrite b
    installFrom m (tail + 1) rest

/-- Copy committed blocks from log to their home location. -/
def installTrans (m : Machine) : Machine := installFrom m 0 m.log.lh

/-- Read the log header from disk into the in-memory log header. -/
def readHead (m : Machine) : Machine :=
  let m := m.bread m.log.start
  { m with log := { m.log with lh := headBlocks (m.buf m.log.start) } }

/-- `log.lh.n = 0` -/
def clearHead (m : Machine) : Machine := { m with log := { m.log with lh := [] } }

/-- `recover_from_log` -/
def recoverFromLog (m : Machine) : Machine :=
  writeHead (clearHead (installTrans (readHead m)))

/-- `commit` -/
def commit (m : Machine) : Machine :=
  if 0 < m.log.lh.length then
    writeHead (clearHead (installTrans (writeHead (writeLog m))))
  else m

/-- The machine after power-on with disk `d`: memory is clear, and `initlog`
has set `log.start` and `log.size` from the superblock. -/
def boot (start size : Nat) (d : Disk) : Machine where
  disk := d
  cache := fun _ => none
  log := { start, size, outstanding := 0, committing := false, lh := [] }
  stops := [d]

/-- Inside a transaction: `bread(b)`, overwrite the buffer with `v`,
`log_write` it. -/
def update (m : Machine) (b : Nat) (v : Block) : Except LogPanic Machine := do
  let m := m.bread b
  let m := m.setBuf b v
  let (log, _) ← m.log.logWrite b
  return { m with log }

/-- A sequence of updates in one transaction. -/
def updates (m : Machine) : List (Nat × Block) → Except LogPanic Machine
  | [] => .ok m
  | (b, v) :: ups => do
    let m ← update m b v
    updates m ups

end Xv6
