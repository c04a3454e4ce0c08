import Xv6.Lib.Bytes

/-!
# xv6 — system parameters and the disk

Constants of `kernel/param.h` and `kernel/fs.h`, and the raw disk: an array of
`BSIZE`-byte blocks. There is one disk (`virtio_disk_rw` addresses it by block
number alone), so a device number appears only where the code compares it.
-/

namespace Xv6

/-! ## kernel/param.h -/

/-- open files per process -/
abbrev NOFILE : Nat := 16
/-- open files per system -/
abbrev NFILE : Nat := 100
/-- maximum number of active i-nodes -/
abbrev NINODE : Nat := 50
/-- maximum major device number -/
abbrev NDEV : Nat := 10
/-- device number of file system root disk -/
abbrev ROOTDEV : Nat := 1
/-- max # of blocks any FS op writes -/
abbrev MAXOPBLOCKS : Nat := 10
/-- max data blocks in on-disk log -/
abbrev LOGSIZE : Nat := MAXOPBLOCKS * 3
/-- size of disk block cache -/
abbrev NBUF : Nat := MAXOPBLOCKS * 3
/-- size of file system in blocks -/
abbrev FSSIZE : Nat := 1000
/-- maximum file path name -/
abbrev MAXPATH : Nat := 128
/-- maximum number of processes -/
abbrev NPROC : Nat := 64

/-! ## kernel/fs.h -/

/-- root i-number -/
abbrev ROOTINO : Nat := 1
/-- block size -/
abbrev BSIZE : Nat := 1024
abbrev FSMAGIC : Nat := 0x10203040
abbrev NDIRECT : Nat := 12
abbrev NINDIRECT : Nat := BSIZE / 4
abbrev MAXFILE : Nat := NDIRECT + NINDIRECT
/-- inodes per block -/
abbrev IPB : Nat := BSIZE / 64
/-- bitmap bits per block -/
abbrev BPB : Nat := BSIZE * 8
abbrev DIRSIZ : Nat := 14

/-! ## mkfs/mkfs.c -/

/-- log blocks of the image `mkfs` writes, the header block included -/
abbrev nlog : Nat := LOGSIZE

/-! ## The disk -/

/-- One disk block. -/
abbrev Block := ByteBuf.Buf BSIZE

/-- The contents of the disk, by block number. -/
abbrev Disk := Nat → Block

/-- The all-zero block. -/
def zeroBlock : Block := fun _ => 0

end Xv6
