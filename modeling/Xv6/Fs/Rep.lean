import Xv6.Fs.Model
import Xv6.Lib.Owner
import Mathlib.Data.Multiset.Count
import Mathlib.Data.Finset.Insert

/-!
# xv6 — what the file-system state means

The users of `fs.c` see numbered inodes, each with a type, a link count and a string of bytes,
and pointers to them. `Abs` is that view. `Rep g c` says that the state `c` represents `g`: the
bytes of every inode are found through its block addresses, the bitmap marks exactly the blocks
in use, each block is used once, the inode table holds a copy of every loaded inode and counts the
references to it.

Inside an operation the in-memory copy of a locked inode can be ahead of the disk. `RepD D U g c` is
the relation with the current inodes `D` given explicitly, and for a set `U` of inodes that
`iupdate` has not yet written.
-/

namespace Xv6

open ByteBuf

/-- Number of blocks before the data blocks. -/
def Superblock.nmeta (sb : Superblock) : Nat := sb.size - sb.nblocks

/-- The areas of the disk lie one after the other. -/
structure Superblock.Layout (sb : Superblock) : Prop where
  iblock_lt : ∀ i < sb.ninodes, sb.iblock i < sb.bmapstart
  bmap_lt   : sb.bmapstart < sb.nmeta
  bblock_lt : ∀ b < sb.size, sb.bblock b < sb.nmeta
  size_lt   : sb.size < 2 ^ 32

namespace Fs

open Owner

/-! ## Reading the disk -/

def dinodeAt (sb : Superblock) (B : Disk) (i : Nat) : Dinode :=
  Dinode.read (B (sb.iblock i)) (i % IPB)

/-- The bitmap marks block `b`. -/
def marked (sb : Superblock) (B : Disk) (b : Nat) : Bool := bit (B (sb.bblock b)) (b % BPB)

/-- The places of an inode where a block number is kept: `addrs[p]` for `p ≤ NDIRECT`, then the
entries of the indirect block. -/
def addrAt (B : Disk) (di : Dinode) (p : Nat) : Nat :=
  if h : p < NDIRECT + 1 then (di.addrs ⟨p, h⟩).toNat
  else if di.addrs (Fin.last NDIRECT) = 0 ∨ NINDIRECT ≤ p - (NDIRECT + 1) then 0
  else indirect (B (di.addrs (Fin.last NDIRECT)).toNat) (p - (NDIRECT + 1))

/-- The place for block index `bn`. -/
def place (bn : Nat) : Nat := if bn < NDIRECT then bn else bn + 1

/-- The block numbers kept by all allocated inodes. -/
def addrs (sb : Superblock) (D : Nat → Dinode) (B : Disk) (x : Nat × Nat) : Nat :=
  if x.1 < sb.ninodes ∧ (D x.1).type ≠ 0 then addrAt B (D x.1) x.2 else 0

/-- A data block the bitmap marks. -/
def InUse (sb : Superblock) (B : Disk) (b : Nat) : Prop :=
  sb.nmeta ≤ b ∧ b < sb.size ∧ marked sb B b = true

/-! ## The abstract state -/

/-- An inode as its users see it; `used` are the blocks it occupies, `holes` the block indices below its
size that may have no block. -/
structure Node where
  type  : BitVec 16
  major : BitVec 16
  minor : BitVec 16
  nlink : BitVec 16
  size  : Nat
  data  : Nat → UInt8
  used  : Finset Nat
  holes : Set Nat

/-- A free inode. -/
def Node.free : Node where
  type := 0
  major := 0
  minor := 0
  nlink := 0
  size := 0
  data := fun _ => 0
  used := ∅
  holes := ∅

/-- A pointer to an inode: the entry of the table, and the inode it is in use for. -/
structure Ref where
  slot : Nat
  inum : Nat
  deriving DecidableEq

/-- The superblock, the inodes, the pointers to them, the locked entries of the table and the inodes
of which the table has a valid copy. -/
structure Abs where
  sb     : Superblock
  node   : Nat → Node
  refs   : Multiset Ref
  locks  : Finset Nat
  loaded : Set Nat

/-- Inode `i` becomes `n`. -/
def Abs.setNode (g : Abs) (i : Nat) (n : Node) : Abs := { g with node := upd g.node i n }

@[simp] theorem Abs.setNode_self (g : Abs) (i : Nat) (n : Node) : (g.setNode i n).node i = n :=
  upd_self ..

@[simp] theorem Abs.setNode_of_ne {g : Abs} {i j : Nat} {n : Node} (h : j ≠ i) :
    (g.setNode i n).node j = g.node j :=
  upd_of_ne h

/-! ## The relation -/

/-- The inode `di` found on the disk `B` looks like `n`; `synced` when its size is current. -/
structure NodeOk (B : Disk) (di : Dinode) (n : Node) (synced : Prop) : Prop where
  type   : n.type = di.type
  free   : di.type = 0 → n = Node.free
  major  : di.type ≠ 0 → n.major = di.major
  minor  : di.type ≠ 0 → n.minor = di.minor
  nlink  : di.type ≠ 0 → n.nlink = di.nlink
  size   : di.type ≠ 0 → synced → n.size = di.size.toNat
  bound  : n.size ≤ MAXFILE * BSIZE
  mapped : ∀ bn ∉ n.holes, bn * BSIZE < n.size → addrAt B di (place bn) ≠ 0
  data   : ∀ o < n.size, o / BSIZE ∉ n.holes →
    peek (B (addrAt B di (place (o / BSIZE)))) (o % BSIZE) = n.data o
  used   : di.type ≠ 0 → ∀ b, b ∈ n.used ↔ b ≠ 0 ∧ ∃ p, addrAt B di p = b

/-- The inode table `t` holds the references and copies of `g`. -/
structure TableOk (sb : Superblock) (D : Nat → Dinode) (g : Abs) (t : Nat → Inode) : Prop where
  ref    : ∀ k, (t k).ref = (g.refs.map Ref.slot).count k
  slot   : ∀ r ∈ g.refs, r.slot < NINODE
  dev    : ∀ r ∈ g.refs, (t r.slot).dev = ROOTDEV
  inum   : ∀ r ∈ g.refs, (t r.slot).inum = r.inum
  range  : ∀ r ∈ g.refs, 1 ≤ r.inum ∧ r.inum < sb.ninodes
  uniq   : ∀ r ∈ g.refs, ∀ r' ∈ g.refs, r.inum = r'.inum → r = r'
  valid  : ∀ r ∈ g.refs, (t r.slot).valid = true ↔ r.inum ∈ g.loaded
  copy   : ∀ r ∈ g.refs, r.inum ∈ g.loaded → (t r.slot).din = D r.inum
  loaded : ∀ i ∈ g.loaded, ∃ r ∈ g.refs, r.inum = i
  typed  : ∀ i ∈ g.loaded, (D i).type ≠ 0
  locked : ∀ k, (t k).locked = true ↔ k ∈ g.locks
  held   : ∀ k ∈ g.locks, ∃ r ∈ g.refs, r.slot = k ∧ r.inum ∈ g.loaded

/-- Block `b` may hold changes that are not logged: a data block of a file, or a block not in
use. -/
def Loose (sb : Superblock) (D : Nat → Dinode) (B : Disk) (b : Nat) : Prop :=
  sb.nmeta ≤ b ∧ ∀ x, addrs sb D B x = b → x.2 ≠ NDIRECT ∧ (D x.1).type ≠ T_DIR

structure RepD (D : Nat → Dinode) (U : Set Nat) (g : Abs) (c : Core) : Prop where
  sb     : c.sb = g.sb
  layout : c.sb.Layout
  table  : TableOk c.sb D g c.itable
  synced : ∀ i < c.sb.ninodes, i ∉ U → dinodeAt c.sb c.buf i = D i
  nodes  : ∀ i < c.sb.ninodes, NodeOk c.buf (D i) (g.node i) (i ∉ U)
  owns   : Owns (addrs c.sb D c.buf) (InUse c.sb c.buf)
  system : ∀ b < c.sb.nmeta, marked c.sb c.buf b = true
  logged : ∀ b, c.buf b ≠ c.disk b → Loose c.sb D c.buf b

/-- The state `c` represents `g`. -/
def Rep (g : Abs) (c : Core) : Prop := ∃ D, RepD D ∅ g c

end Fs

end Xv6
