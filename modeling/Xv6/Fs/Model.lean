import Xv6.Fs.Format
import Xv6.Lib.Hoare
import Xv6.Lib.Upd

/-!
# xv6 — inodes, directories and paths (`kernel/fs.c`)

The functions of `fs.c`, one definition each, as programs over the state they share: the
blocks as `bread` returns them, the superblock and the inode table. A pointer to an inode is the
index of its entry in the table.

Below this file lie the log and the buffer cache. `buf b` is the block `bread(dev, b)` returns,
`disk b` the block as it was when last passed to `log_write`: the two differ only when a buffer was
changed and not logged, and such a change is lost when the buffer is recycled (`evict`).
Transactions (`begin_op`, `end_op`) have no effect on either.

`panic` ends the run. So does waiting for a lock that nobody else holds (`blocked`): system calls
run one after the other here, so a call that finds an inode locked would wait for itself.
-/

namespace Xv6.Fs

open ByteBuf Hoare

/-- Why a call does not return: the `panic`s of `fs.c` and `sysfile.c`. -/
inductive Panic where
  | invalidFileSystem
  | ballocOutOfBlocks
  | freeingFreeBlock
  | iallocNoInodes
  | igetNoInodes
  | ilock
  | ilockNoType
  | iunlock
  | bmapOutOfRange
  | dirlookupNotDir
  | dirlookupRead
  | dirlinkRead
  | dirlink
  | isdiremptyReadi
  | unlinkNlink
  | unlinkWritei
  | createDots
  | createDirlink
  | blocked
  deriving DecidableEq, Repr

/-- `struct inode`; `din` are the fields that are a copy of the inode on disk. -/
structure Inode where
  dev    : Nat
  inum   : Nat
  ref    : Nat
  locked : Bool
  valid  : Bool
  din    : Dinode

/-- An entry of the table before its first use. -/
def Inode.empty : Inode where
  dev := 0
  inum := 0
  ref := 0
  locked := false
  valid := false
  din := Dinode.zero

structure Core where
  buf    : Disk
  disk   : Disk
  sb     : Superblock
  itable : Nat → Inode

abbrev M := Prog Core Panic

/-! ## Buffers and table entries -/

/-- `bread(dev, b)` -/
def bread (b : Nat) : M Block := do return (← get).buf b

/-- Change the data of the buffer of block `b`. -/
def setBuf (b : Nat) (v : Block) : M Unit :=
  modify fun c => { c with buf := upd c.buf b v }

/-- `log_write(bp)` -/
def logWrite (b : Nat) : M Unit :=
  modify fun c => { c with disk := upd c.disk b (c.buf b) }

/-- The buffer of block `b` is recycled. -/
def evict (b : Nat) : M Unit :=
  modify fun c => { c with buf := upd c.buf b (c.disk b) }

/-- `*ip` -/
def inode (k : Nat) : M Inode := do return (← get).itable k

def setInode (k : Nat) (f : Inode → Inode) : M Unit :=
  modify fun c => { c with itable := upd c.itable k (f (c.itable k)) }

/-- Change fields of `*ip` that also live on disk. -/
def setDin (k : Nat) (f : Dinode → Dinode) : M Unit :=
  setInode k fun ip => { ip with din := f ip.din }

/-! ## Blocks -/

/-- Zero a block. -/
def bzero (bno : Nat) : M Unit := do
  setBuf bno zeroBlock
  logWrite bno

/-- The rounds of `balloc` for the bitmap blocks of `b`, `b + BPB`, …; `fuel` of them. -/
def ballocFrom : (fuel : Nat) → (b : Nat) → M Nat
  | 0, _ => throw .ballocOutOfBlocks
  | fuel + 1, b => do
    let sb := (← get).sb
    if b < sb.size then
      let bp ← bread (sb.bblock b)
      -- for(bi = 0; bi < BPB && b + bi < sb.size; bi++)
      match (List.range (min BPB (sb.size - b))).find? fun bi => !bit bp bi with
      | some bi =>
        setBuf (sb.bblock b) (setBit bp bi)
        logWrite (sb.bblock b)
        bzero (b + bi)
        return b + bi
      | none => ballocFrom fuel (b + BPB)
    else throw .ballocOutOfBlocks

/-- Allocate a zeroed disk block. -/
def balloc : M Nat := do
  ballocFrom ((← get).sb.size / BPB + 1) 0

/-- Free a disk block. -/
def bfree (b : Nat) : M Unit := do
  let sb := (← get).sb
  let bp ← bread (sb.bblock b)
  if bit bp (b % BPB) then
    setBuf (sb.bblock b) (clearBit bp (b % BPB))
    logWrite (sb.bblock b)
  else throw .freeingFreeBlock

/-! ## Inodes -/

/-- The entry in use for `(dev, inum)`. -/
def Core.lookup (c : Core) (dev inum : Nat) : Option Nat :=
  (List.range NINODE).find? fun k =>
    0 < (c.itable k).ref ∧ (c.itable k).dev = dev ∧ (c.itable k).inum = inum

/-- The first free entry. -/
def Core.empty (c : Core) : Option Nat :=
  (List.range NINODE).find? fun k => (c.itable k).ref = 0

/-- Find the inode with number `inum` on device `dev` and return the in-memory copy. -/
def iget (dev inum : Nat) : M Nat := do
  let c ← get
  match c.lookup dev inum with
  | some k =>
    setInode k fun ip => { ip with ref := ip.ref + 1 }
    return k
  | none =>
    match c.empty with
    | some k =>
      setInode k fun ip => { ip with dev := dev, inum := inum, ref := 1, valid := false }
      return k
    | none => throw .igetNoInodes

/-- Inode `i` as it is on disk. -/
def Core.dinode (c : Core) (i : Nat) : Dinode := Dinode.read (c.buf (c.sb.iblock i)) (i % IPB)

/-- Allocate an inode on device `dev`, with type `type`. -/
def ialloc (dev : Nat) (type : BitVec 16) : M Nat := do
  let c ← get
  -- for(inum = 1; inum < sb.ninodes; inum++)
  match (List.range' 1 (c.sb.ninodes - 1)).find? fun i => (c.dinode i).type = 0 with
  | some i =>
    let bp ← bread (c.sb.iblock i)
    setBuf (c.sb.iblock i) (Dinode.write bp (i % IPB) { Dinode.zero with type := type })
    logWrite (c.sb.iblock i)
    iget dev i
  | none => throw .iallocNoInodes

/-- Copy a modified in-memory inode to disk. -/
def iupdate (k : Nat) : M Unit := do
  let sb := (← get).sb
  let ip ← inode k
  let bp ← bread (sb.iblock ip.inum)
  setBuf (sb.iblock ip.inum) (Dinode.write bp (ip.inum % IPB) ip.din)
  logWrite (sb.iblock ip.inum)

/-- Increment reference count for `ip`. -/
def idup (k : Nat) : M Nat := do
  setInode k fun ip => { ip with ref := ip.ref + 1 }
  return k

/-- `acquiresleep(&ip->lock)` -/
def acquiresleep (k : Nat) : M Unit := do
  when (← inode k).locked (throw .blocked)
  setInode k fun ip => { ip with locked := true }

/-- `releasesleep(&ip->lock)` -/
def releasesleep (k : Nat) : M Unit :=
  setInode k fun ip => { ip with locked := false }

/-- Lock the given inode. Reads the inode from disk if necessary. -/
def ilock (k : Nat) : M Unit := do
  when ((← inode k).ref < 1) (throw .ilock)
  acquiresleep k
  let ip ← inode k
  when (ip.valid = false) do
    let din := (← get).dinode ip.inum
    setInode k fun ip => { ip with din := din, valid := true }
    when (din.type = 0) (throw .ilockNoType)

/-- Unlock the given inode. -/
def iunlock (k : Nat) : M Unit := do
  let ip ← inode k
  when (ip.locked = false ∨ ip.ref < 1) (throw .iunlock)
  releasesleep k

/-- Block number `j` of the in-memory inode. -/
def Inode.addr (ip : Inode) (j : Fin (NDIRECT + 1)) : Nat := (ip.din.addrs j).toNat

def Dinode.setAddr (di : Dinode) (j : Fin (NDIRECT + 1)) (b : Nat) : Dinode :=
  { di with addrs := upd di.addrs j (BitVec.ofNat 32 b) }

/-- One round of the first loop of `itrunc`. -/
def itruncDirect (k : Nat) (i : Fin NDIRECT) : M Unit := do
  let addr := (← inode k).addr i.castSucc
  when (addr ≠ 0) do
    bfree addr
    setDin k fun di => Dinode.setAddr di i.castSucc 0

/-- One round of the second loop, `a` being the indirect block. -/
def itruncEntry (a : Block) (j : Nat) : M Unit :=
  when (indirect a j ≠ 0) (bfree (indirect a j))

/-- The second half of `itrunc`: the indirect block and its entries. -/
def itruncIndirect (k : Nat) : M Unit := do
  let addr := (← inode k).addr (Fin.last NDIRECT)
  when (addr ≠ 0) do
    let bp ← bread addr
    (List.range NINDIRECT).forM (itruncEntry bp)
    bfree addr
    setDin k fun di => Dinode.setAddr di (Fin.last NDIRECT) 0

/-- Both loops. -/
def itruncBlocks (k : Nat) : M Unit := do
  (List.finRange NDIRECT).forM (itruncDirect k)
  itruncIndirect k

/-- Truncate inode (discard contents). -/
def itrunc (k : Nat) : M Unit := do
  itruncBlocks k
  setDin k fun di => { di with size := 0 }
  iupdate k

/-- Drop a reference to an in-memory inode; the last one to an inode without links frees it. -/
def iput (k : Nat) : M Unit := do
  let ip ← inode k
  when (ip.ref = 1 ∧ ip.valid = true ∧ ip.din.nlink = 0) do
    acquiresleep k
    itrunc k
    setDin k fun di => { di with type := 0 }
    iupdate k
    setInode k fun ip => { ip with valid := false }
    releasesleep k
  setInode k fun ip => { ip with ref := ip.ref - 1 }

/-- Common idiom: unlock, then put. -/
def iunlockput (k : Nat) : M Unit := do
  iunlock k
  iput k

/-! ## Inode content -/

/-- `ip->addrs[j]`, allocated if it is zero. -/
def bmapSlot (k : Nat) (j : Fin (NDIRECT + 1)) : M Nat := do
  let addr := (← inode k).addr j
  if addr = 0 then
    let addr ← balloc
    setDin k fun di => Dinode.setAddr di j addr
    return addr
  else return addr

/-- Entry `j` of the indirect block `ind`, allocated if it is zero. -/
def bmapEntry (ind j : Nat) : M Nat := do
  let bp ← bread ind
  let addr := indirect bp j
  if addr = 0 then
    let addr ← balloc
    setBuf ind (setIndirect bp j addr)
    logWrite ind
    return addr
  else return addr

/-- Return the disk block address of the `bn`th block in inode `ip`.
If there is no such block, `bmap` allocates one. -/
def bmap (k bn : Nat) : M Nat := do
  if h : bn < NDIRECT then
    bmapSlot k ⟨bn, Nat.lt_succ_of_lt h⟩
  else if bn - NDIRECT < NINDIRECT then
    bmapEntry (← bmapSlot k (Fin.last NDIRECT)) (bn - NDIRECT)
  else throw .bmapOutOfRange

/-- The loop of `readi`: the bytes read, or `none` when a copy fails. `ok tot m` says
whether the `m` bytes at `dst + tot` can be written. -/
def readiLoop (k : Nat) (ok : Nat → Nat → Bool) (n : Nat) :
    (fuel tot off : Nat) → M (Option (List UInt8))
  | 0, _, _ => return some []
  | fuel + 1, tot, off => do
    if tot < n then
      let bp ← bread (← bmap k (off / BSIZE))
      let m := min (n - tot) (BSIZE - off % BSIZE)
      if ok tot m then
        let rest ← readiLoop k ok n fuel (tot + m) (off + m)
        return rest.map fun l => (List.range m).map (fun j => peek bp (off % BSIZE + j)) ++ l
      else return none
    else return some []

/-- Read data from inode: the bytes read, `none` for -1. -/
def readi (k : Nat) (ok : Nat → Nat → Bool) (off n : Nat) : M (Option (List UInt8)) := do
  let size := (← inode k).din.size.toNat
  if size < off ∨ (off + n) % 2 ^ 32 < off then return some []
  else
    let n := if size < off + n then size - off else n
    readiLoop k ok n n 0 off

/-- A kernel address can always be written. -/
def kernel : Nat → Nat → Bool := fun _ _ => true

/-- How many of the `m` bytes at `src + tot` can be read. -/
def copied (src : Nat → Option UInt8) (tot m : Nat) : Nat :=
  ((List.range m).find? fun j => (src (tot + j)).isNone).getD m

/-- The loop of `writei`; returns `tot` and `off`. -/
def writeiLoop (k : Nat) (src : Nat → Option UInt8) (n : Nat) :
    (fuel tot off : Nat) → M (Nat × Nat)
  | 0, tot, off => return (tot, off)
  | fuel + 1, tot, off => do
    if tot < n then
      let b ← bmap k (off / BSIZE)
      let bp ← bread b
      let m := min (n - tot) (BSIZE - off % BSIZE)
      let done := copied src tot m
      setBuf b (poke bp (off % BSIZE) done fun j => (src (tot + j)).getD 0)
      if done = m then
        logWrite b
        writeiLoop k src n fuel (tot + m) (off + m)
      else return (tot, off)
    else return (tot, off)

/-- Write data to inode: the number of bytes written, `none` for -1. -/
def writei (k : Nat) (src : Nat → Option UInt8) (off n : Nat) : M (Option Nat) := do
  let size := (← inode k).din.size.toNat
  if size < off ∨ (off + n) % 2 ^ 32 < off then return none
  else if MAXFILE * BSIZE < off + n then return none
  else
    let (tot, off) ← writeiLoop k src n n 0 off
    when ((← inode k).din.size.toNat < off) do
      setDin k fun di => { di with size := BitVec.ofNat 32 off }
    iupdate k
    return some tot

/-- The bytes of a kernel buffer as a source of `writei`. -/
def ofList (l : List UInt8) : Nat → Option UInt8 := fun j => some (l.getD j 0)

/-! ## Directories -/

/-- `strncmp(p, q, n)` of `kernel/string.c`; a string ends before its terminating NUL. -/
def strncmp : (p q : List UInt8) → Nat → Int
  | _, _, 0 => 0
  | p, q, n + 1 =>
    let a := p.headD 0
    let b := q.headD 0
    if a ≠ 0 ∧ a = b then strncmp p.tail q.tail n else (a.toNat : Int) - b.toNat

/-- `strncpy(s, t, n)`: the `n` bytes stored at `s`. -/
def strncpy : (t : List UInt8) → Nat → List UInt8
  | _, 0 => []
  | t, n + 1 =>
    let b := t.headD 0
    if b ≠ 0 then b :: strncpy t.tail n else List.replicate (n + 1) 0

def namecmp (s t : List UInt8) : Int := strncmp s t DIRSIZ

/-- The loop of `dirlookup`, `dirlink` and `isdirempty` over the entries of a directory from
offset `off` on: the offset where it ends, and the entry that stopped it. -/
def scanLoop (k : Nat) (err : Panic) (stop : Dirent → Bool) :
    (fuel off : Nat) → M (Nat × Option Dirent)
  | 0, off => return (off, none)
  | fuel + 1, off => do
    if off < (← inode k).din.size.toNat then
      match ← readi k kernel off 16 with
      | some l =>
        if l.length ≠ 16 then throw err
        else if stop (Dirent.ofBytes l) then return (off, some (Dirent.ofBytes l))
        else scanLoop k err stop fuel (off + 16)
      | none => throw err
    else return (off, none)

def scan (k : Nat) (err : Panic) (stop : Dirent → Bool) (off : Nat) :
    M (Nat × Option Dirent) := do
  scanLoop k err stop ((← inode k).din.size.toNat / 16 + 1) off

/-- Look for a directory entry in a directory; also its byte offset (`*poff`). -/
def dirlookup (dp : Nat) (name : List UInt8) : M (Option (Nat × Nat)) := do
  when ((← inode dp).din.type ≠ T_DIR) (throw .dirlookupNotDir)
  match ← scan dp .dirlookupRead (fun de => de.inum ≠ 0 ∧ namecmp name de.name = 0) 0 with
  | (off, some de) => return some (← iget (← inode dp).dev de.inum, off)
  | (_, none) => return none

/-- Write a new directory entry `(name, inum)` into the directory `dp`; false for -1. -/
def dirlink (dp : Nat) (name : List UInt8) (inum : Nat) : M Bool := do
  match ← dirlookup dp name with
  | some (ip, _) =>
    iput ip
    return false
  | none =>
    let (off, _) ← scan dp .dirlinkRead (fun de => de.inum = 0) 0
    let de : Dirent := { inum := inum, name := strncpy name DIRSIZ }
    when ((← writei dp (ofList de.toBytes) off 16) ≠ some 16) (throw .dirlink)
    return true

/-! ## Paths -/

/-- `'/'` -/
def slash : UInt8 := 47

/-- Copy the next path element from `path` into `name`; the rest of the path and the new
content of the name buffer, `none` if there is no name to remove. -/
def skipelem (path name : List UInt8) : Option (List UInt8 × List UInt8) :=
  let path := path.dropWhile (· = slash)
  if path = [] then none
  else
    let s := path.takeWhile (· ≠ slash)
    let name := if DIRSIZ ≤ s.length then s.take DIRSIZ else s ++ 0 :: name.drop (s.length + 1)
    some ((path.dropWhile (· ≠ slash)).dropWhile (· = slash), name)

/-- The loop of `namex`; every round shortens the path, so `path.length + 1` rounds suffice. -/
def namexLoop (nameiparent : Bool) :
    (fuel ip : Nat) → (path name : List UInt8) → M (Option Nat × List UInt8)
  | 0, _, _, name => return (none, name)
  | fuel + 1, ip, path, name =>
    match skipelem path name with
    | some (path, name) => do
      ilock ip
      if (← inode ip).din.type ≠ T_DIR then
        iunlockput ip
        return (none, name)
      else if nameiparent ∧ path = [] then
        -- Stop one level early.
        iunlock ip
        return (some ip, name)
      else
        match ← dirlookup ip name with
        | none =>
          iunlockput ip
          return (none, name)
        | some (next, _) =>
          iunlockput ip
          namexLoop nameiparent fuel next path name
    | none => do
      if nameiparent then
        iput ip
        return (none, name)
      else return (some ip, name)

/-- Look up and return the inode for a path name, or its parent and the last path element. -/
def namex (cwd : Nat) (path : List UInt8) (nameiparent : Bool) : M (Option Nat × List UInt8) := do
  let ip ← if path.head? = some slash then iget ROOTDEV ROOTINO else idup cwd
  -- `char name[DIRSIZ]` on the stack
  namexLoop nameiparent (path.length + 1) ip path (List.replicate DIRSIZ 0)

def namei (cwd : Nat) (path : List UInt8) : M (Option Nat) := do
  return (← namex cwd path false).1

def nameiparent (cwd : Nat) (path : List UInt8) : M (Option Nat × List UInt8) :=
  namex cwd path true

end Xv6.Fs
