import Xv6.Fs.Calls

/-!
# xv6 — the image builder (`mkfs/mkfs.c`)

`main files` is the image `mkfs fs.img files…` writes, `none` when an assertion fails or the program
dies. An input file is its argument and its bytes. The image file has `FSSIZE` zero blocks at first;
`img` is what `wsect` has written so far.
-/

namespace Xv6.Mkfs

open ByteBuf Fs

abbrev NINODES : Nat := 200

def nbitmap : Nat := FSSIZE / (BSIZE * 8) + 1
def ninodeblocks : Nat := NINODES / IPB + 1

/-- Number of meta blocks (boot, sb, nlog, inode, bitmap). -/
def nmeta : Nat := 2 + nlog + ninodeblocks + nbitmap

def sb : Superblock where
  magic := FSMAGIC
  size := FSSIZE
  nblocks := FSSIZE - nmeta
  ninodes := NINODES
  nlog := nlog
  logstart := 2
  inodestart := 2 + nlog
  bmapstart := 2 + nlog + ninodeblocks

structure Image where
  img       : Disk
  freeinode : Nat
  freeblock : Nat

def wsect (m : Image) (sec : Nat) (v : Block) : Image :=
  { m with img := upd m.img sec v }

/-- Beyond the end of the file `read` returns 0 and `rsect` dies. A block is read before it is written,
so the file keeps its length. -/
def rsect (m : Image) (sec : Nat) : Option Block := if sec < FSSIZE then some (m.img sec) else none

def rinode (m : Image) (inum : Nat) : Option Dinode := do
  let buf ← rsect m (sb.iblock inum)
  return Dinode.read buf (inum % IPB)

def winode (m : Image) (inum : Nat) (din : Dinode) : Option Image := do
  let buf ← rsect m (sb.iblock inum)
  return wsect m (sb.iblock inum) (Dinode.write buf (inum % IPB) din)

def ialloc (m : Image) (type : BitVec 16) : Option (Image × Nat) := do
  let inum := m.freeinode
  let m ← winode { m with freeinode := inum + 1 } inum { Dinode.zero with type := type, nlink := 1 }
  return (m, inum)

/-- `din.addrs[j]`, allocated if it is zero. -/
def slot (m : Image) (din : Dinode) (j : Fin (NDIRECT + 1)) : Image × Dinode :=
  if din.addrs j = 0 then
    ({ m with freeblock := m.freeblock + 1 }, Dinode.setAddr din j m.freeblock)
  else (m, din)

/-- The block for block index `fbn` of the inode, allocated if there is none. -/
def mapBlock (m : Image) (din : Dinode) (fbn : Nat) : Option (Image × Dinode × Nat) :=
  if h : fbn < NDIRECT then
    let j : Fin (NDIRECT + 1) := ⟨fbn, Nat.lt_succ_of_lt h⟩
    let (m, din) := slot m din j
    some (m, din, (din.addrs j).toNat)
  else do
    let (m, din) := slot m din (Fin.last NDIRECT)
    let ind := (din.addrs (Fin.last NDIRECT)).toNat
    let a ← rsect m ind
    if indirect a (fbn - NDIRECT) = 0 then
      let x := m.freeblock
      return (wsect { m with freeblock := x + 1 } ind (setIndirect a (fbn - NDIRECT) x), din, x)
    else return (m, din, indirect a (fbn - NDIRECT))

def iappendLoop : (fuel : Nat) → Image → Dinode → (off : Nat) → (p : List UInt8) →
    Option (Image × Dinode × Nat)
  | 0, m, din, off, _ => some (m, din, off)
  | fuel + 1, m, din, off, p =>
    if p = [] then some (m, din, off)
    else do
      let fbn := off / BSIZE
      if fbn < MAXFILE then
        let (m, din, x) ← mapBlock m din fbn
        let n1 := min p.length ((fbn + 1) * BSIZE - off)
        let buf ← rsect m x
        let m := wsect m x (poke buf (off - fbn * BSIZE) n1 fun j => p.getD j 0)
        iappendLoop fuel m din (off + n1) (p.drop n1)
      else none

def iappend (m : Image) (inum : Nat) (xp : List UInt8) : Option Image := do
  let din ← rinode m inum
  let (m, din, off) ← iappendLoop xp.length m din din.size.toNat xp
  winode m inum { din with size := BitVec.ofNat 32 off }

/-- `"user/"` -/
def user : List UInt8 := [117, 115, 101, 114, 47]

/-- The name a file gets: without "user/", without a leading `_`; no slash is allowed. -/
def shortname (arg : List UInt8) : Option (List UInt8) :=
  let s := if user.isPrefixOf arg then arg.drop 5 else arg
  if slash ∈ s then none
  else some (if s.head? = some 95 then s.tail else s)

/-- `while((cc = read(fd, buf, sizeof(buf))) > 0) iappend(inum, buf, cc);` -/
def copyFile (inum : Nat) : (fuel : Nat) → Image → (data : List UInt8) → Option Image
  | 0, m, _ => some m
  | fuel + 1, m, data =>
    if data = [] then some m
    else do
      let m ← iappend m inum (data.take BSIZE)
      copyFile inum fuel m (data.drop BSIZE)

/-- One round of the loop over the arguments. -/
def addFile (m : Image) (f : List UInt8 × List UInt8) : Option Image := do
  let name ← shortname f.1
  let (m, inum) ← ialloc m T_FILE
  let m ← iappend m ROOTINO (Dirent.toBytes { inum := inum, name := strncpy name DIRSIZ })
  copyFile inum f.2.length m f.2

/-- The bitmap block of an image whose first `used` blocks are allocated. -/
def bitmap (used : Nat) : Block :=
  (List.range used).foldl setBit zeroBlock

/-- Fix size of root inode dir, write the bitmap. -/
def finish (m : Image) : Option Disk := do
  let din ← rinode m ROOTINO
  let off := (din.size.toNat / BSIZE + 1) * BSIZE
  let m ← winode m ROOTINO { din with size := BitVec.ofNat 32 off }
  -- assert(used < BSIZE*8)
  if m.freeblock < BSIZE * 8 then return (wsect m sb.bmapstart (bitmap m.freeblock)).img else none

/-- The image before the files are added: the superblock and a root directory. -/
def root : Option Image := do
  let m : Image := { img := fun _ => zeroBlock, freeinode := 1, freeblock := nmeta }
  let m := wsect m 1 (Superblock.write zeroBlock sb)
  let (m, rootino) ← ialloc m T_DIR
  let m ← iappend m rootino (Dirent.toBytes { inum := rootino, name := strncpy dot DIRSIZ })
  iappend m rootino (Dirent.toBytes { inum := rootino, name := strncpy dotdot DIRSIZ })

def main (files : List (List UInt8 × List UInt8)) : Option Disk := do
  let m ← files.foldlM addFile (← root)
  finish m

end Xv6.Mkfs
