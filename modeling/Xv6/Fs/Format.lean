import Xv6.Params
import Mathlib.Data.BitVec

/-!
# xv6 — the on-disk format (`kernel/fs.h`)

What the bytes of a block mean: the superblock, sixteen inodes to an inode block, one bit for
each block in the bitmap, block numbers in an indirect block, sixteen-byte directory entries.
Each comes with the two lemmas that all proofs use: what is read back after a write, and
that a write to another place is not seen.
-/

namespace ByteBuf

variable {n : Nat}

theorem field_setFields_above {b : Buf n} {off k w o : Nat} {xs : List Nat}
    (h : off + k * xs.length ≤ o) : field (setFields b off k xs) o w = field b o w := by
  induction xs generalizing b off with
  | nil => rfl
  | cons x xs ih =>
    rw [List.length_cons, Nat.mul_succ] at h
    rw [setFields, ih (by omega), field_setField_disjoint (Or.inr (by omega))]

end ByteBuf

namespace Xv6

open ByteBuf

theorem peek_zeroBlock (i : Nat) : peek zeroBlock i = 0 := by
  unfold peek zeroBlock
  split <;> rfl

theorem field_zeroBlock (off k : Nat) : field zeroBlock off k = 0 := by
  rw [field, show (fun i => peek zeroBlock (off + i)) = fun _ => 0 from
    funext fun _ => peek_zeroBlock _, le_zero]

/-! ## The superblock -/

structure Superblock where
  magic      : Nat
  size       : Nat
  nblocks    : Nat
  ninodes    : Nat
  nlog       : Nat
  logstart   : Nat
  inodestart : Nat
  bmapstart  : Nat
  deriving DecidableEq, Repr

namespace Superblock

/-- `memmove(sb, bp->data, sizeof(*sb))` -/
def read (b : Block) : Superblock where
  magic := field b 0 4
  size := field b 4 4
  nblocks := field b 8 4
  ninodes := field b 12 4
  nlog := field b 16 4
  logstart := field b 20 4
  inodestart := field b 24 4
  bmapstart := field b 28 4

/-- `memmove(buf, &sb, sizeof(sb))` -/
def write (b : Block) (sb : Superblock) : Block :=
  setFields b 0 4 [sb.magic, sb.size, sb.nblocks, sb.ninodes, sb.nlog, sb.logstart,
    sb.inodestart, sb.bmapstart]

/-- Block containing inode `i`. -/
def iblock (sb : Superblock) (i : Nat) : Nat := i / IPB + sb.inodestart

/-- Block of free map containing bit for block `b`. -/
def bblock (sb : Superblock) (b : Nat) : Nat := b / BPB + sb.bmapstart

end Superblock

/-! ## Inodes -/

/-- `struct dinode`. The numbers are those of the machine: `short` is signed when compared. -/
structure Dinode where
  type  : BitVec 16
  major : BitVec 16
  minor : BitVec 16
  nlink : BitVec 16
  size  : BitVec 32
  addrs : Fin (NDIRECT + 1) → BitVec 32
  deriving DecidableEq

def T_DIR : BitVec 16 := 1
def T_FILE : BitVec 16 := 2
def T_DEVICE : BitVec 16 := 3

namespace Dinode

def zero : Dinode where
  type := 0
  major := 0
  minor := 0
  nlink := 0
  size := 0
  addrs := fun _ => 0

/-- `(struct dinode*)bp->data + k` -/
def read (b : Block) (k : Nat) : Dinode where
  type := BitVec.ofNat 16 (field b (64 * k) 2)
  major := BitVec.ofNat 16 (field b (64 * k + 2) 2)
  minor := BitVec.ofNat 16 (field b (64 * k + 4) 2)
  nlink := BitVec.ofNat 16 (field b (64 * k + 6) 2)
  size := BitVec.ofNat 32 (field b (64 * k + 8) 4)
  addrs := fun j => BitVec.ofNat 32 (field b (64 * k + 12 + 4 * j.val) 4)

/-- Store all fields of inode `k` of a block. -/
def write (b : Block) (k : Nat) (di : Dinode) : Block :=
  let b := setFields b (64 * k) 2 [di.type.toNat, di.major.toNat, di.minor.toNat, di.nlink.toNat]
  let b := setField b (64 * k + 8) 4 di.size.toNat
  setFields b (64 * k + 12) 4 (List.ofFn fun j => (di.addrs j).toNat)

theorem read_zeroBlock (k : Nat) : read zeroBlock k = zero := by
  simp only [read, field_zeroBlock]
  rfl

theorem read_write_same {b : Block} {k : Nat} (di : Dinode) (hk : k < IPB) :
    read (write b k di) k = di := by
  have hB : IPB = 16 := rfl
  have hN : BSIZE = 1024 := rfl
  -- the fields of the head, before `size` and the addresses were stored
  have hHead : ∀ j < 4, ∀ x, [di.type.toNat, di.major.toNat, di.minor.toNat, di.nlink.toNat][j]? = some x →
      field (write b k di) (64 * k + 2 * j) 2 = x % 256 ^ 2 := by
    intro j hj x hx
    obtain ⟨hLen, hx⟩ := List.getElem?_eq_some_iff.mp hx
    rw [write, field_setFields_below (by omega), field_setField_disjoint (Or.inl (by omega)),
      field_setFields hLen (by simp; omega), hx]
  have hAddr : ∀ j : Fin (NDIRECT + 1),
      field (write b k di) (64 * k + 12 + 4 * j.val) 4 = (di.addrs j).toNat % 256 ^ 4 := by
    intro j
    have hj := j.isLt
    rw [write, field_setFields (by simp) (by simp; omega), List.getElem_ofFn]
  have hSize : field (write b k di) (64 * k + 8) 4 = di.size.toNat % 256 ^ 4 := by
    rw [write, field_setFields_below (by omega), field_setField_same (by omega)]
  cases di with
  | mk type major minor nlink size addrs =>
    have h0 := hHead 0 (by omega) _ rfl
    have h1 := hHead 1 (by omega) _ rfl
    have h2 := hHead 2 (by omega) _ rfl
    have h3 := hHead 3 (by omega) _ rfl
    simp only [Nat.mul_zero, Nat.add_zero, Nat.mul_one, Nat.reduceMul] at h0 h1 h2 h3
    simp only [read, h0, h1, h2, h3, hSize, hAddr, mk.injEq]
    refine ⟨?_, ?_, ?_, ?_, ?_, ?_⟩
    · apply BitVec.eq_of_toNat_eq; simp; omega
    · apply BitVec.eq_of_toNat_eq; simp; omega
    · apply BitVec.eq_of_toNat_eq; simp; omega
    · apply BitVec.eq_of_toNat_eq; simp; omega
    · apply BitVec.eq_of_toNat_eq; simp; omega
    · funext j
      apply BitVec.eq_of_toNat_eq; simp; omega

theorem read_write_other {b : Block} {k k' : Nat} (di : Dinode) (h : k' ≠ k) :
    read (write b k di) k' = read b k' := by
  have hField : ∀ o w, 64 * k' ≤ o → o + w ≤ 64 * k' + 64 →
      field (write b k di) o w = field b o w := by
    intro o w ho hw
    have hLen : (List.ofFn fun j => (di.addrs j).toNat).length = 13 := List.length_ofFn
    obtain hlt | hgt := Nat.lt_or_gt_of_ne h
    · rw [write, field_setFields_below (by omega), field_setField_disjoint (Or.inl (by omega)),
        field_setFields_below (by omega)]
    · rw [write, field_setFields_above (by omega), field_setField_disjoint (Or.inr (by omega)),
        field_setFields_above (by simp; omega)]
  unfold read
  rw [hField _ 2 (by omega) (by omega), hField _ 2 (by omega) (by omega),
    hField _ 2 (by omega) (by omega), hField _ 2 (by omega) (by omega),
    hField _ 4 (by omega) (by omega)]
  congr 1
  funext j
  have hj : j.val < 13 := j.isLt
  rw [hField _ 4 (by omega) (by omega)]

end Dinode

/-! ## The bitmap -/

/-- `1 << (bi % 8)` -/
def bitMask (bi : Nat) : UInt8 := UInt8.ofNat (1 <<< (bi % 8))

/-- `bp->data[bi/8] & m` -/
def bit (bp : Block) (bi : Nat) : Bool := peek bp (bi / 8) &&& bitMask bi != 0

/-- `bp->data[bi/8] |= m` -/
def setBit (bp : Block) (bi : Nat) : Block :=
  poke bp (bi / 8) 1 fun _ => peek bp (bi / 8) ||| bitMask bi

/-- `bp->data[bi/8] &= ~m` -/
def clearBit (bp : Block) (bi : Nat) : Block :=
  poke bp (bi / 8) 1 fun _ => peek bp (bi / 8) &&& ~~~ bitMask bi

theorem bitMask_toBitVec (bi : Nat) : (bitMask bi).toBitVec = BitVec.twoPow 8 (bi % 8) := by
  have hAll : ∀ k < 8, (UInt8.ofNat (1 <<< k)).toBitVec = BitVec.twoPow 8 k := by decide
  exact hAll _ (Nat.mod_lt _ (by decide))

theorem bit_eq_getLsbD (bp : Block) (bi : Nat) :
    bit bp bi = (peek bp (bi / 8)).toBitVec.getLsbD (bi % 8) := by
  have hk : bi % 8 < 8 := Nat.mod_lt _ (by decide)
  have hPow : BitVec.twoPow 8 (bi % 8) ≠ 0 := by
    intro h
    have := congrArg BitVec.toNat h
    rw [BitVec.toNat_twoPow_of_lt hk] at this
    exact absurd this (by simp)
  rw [bit, bne, Bool.eq_iff_iff, Bool.not_eq_true', beq_eq_false_iff_ne, ne_eq, ← UInt8.toBitVec_inj,
    UInt8.toBitVec_and, bitMask_toBitVec, BitVec.and_twoPow]
  cases (peek bp (bi / 8)).toBitVec.getLsbD (bi % 8) with
  | true => simpa using hPow
  | false => simp

theorem bit_setBit {bp : Block} {i j : Nat} (hi : i < BPB) :
    bit (setBit bp i) j = (decide (j = i) || bit bp j) := by
  have hB : BPB = 8192 := rfl
  have hN : BSIZE = 1024 := rfl
  have hk : j % 8 < 8 := Nat.mod_lt _ (by decide)
  rw [bit_eq_getLsbD, bit_eq_getLsbD, setBit, peek_poke]
  split
  · rename_i hIn
    have hDiv : j / 8 = i / 8 := by omega
    rw [hDiv, UInt8.toBitVec_or, BitVec.getLsbD_or, bitMask_toBitVec, BitVec.getLsbD_twoPow]
    have : decide (i % 8 < 8) = true := by simp; omega
    by_cases hji : j = i
    · subst hji
      simp [this]
    · have hne : i % 8 ≠ j % 8 := by omega
      simp [hji, hne]
  · rename_i hOut
    have hji : j ≠ i := by omega
    simp [hji]

theorem bit_clearBit {bp : Block} {i j : Nat} (hi : i < BPB) :
    bit (clearBit bp i) j = (decide (j ≠ i) && bit bp j) := by
  have hB : BPB = 8192 := rfl
  have hN : BSIZE = 1024 := rfl
  have hk : j % 8 < 8 := Nat.mod_lt _ (by decide)
  rw [bit_eq_getLsbD, bit_eq_getLsbD, clearBit, peek_poke]
  split
  · rename_i hIn
    have hDiv : j / 8 = i / 8 := by omega
    rw [hDiv, UInt8.toBitVec_and, UInt8.toBitVec_not, BitVec.getLsbD_and, BitVec.getLsbD_not,
      bitMask_toBitVec, BitVec.getLsbD_twoPow]
    by_cases hji : j = i
    · subst hji
      simp [hk]
    · have hne : i % 8 ≠ j % 8 := by omega
      simp [hji, hne, hk]
  · rename_i hOut
    have hji : j ≠ i := by omega
    simp [hji]

/-! ## Indirect blocks and directory entries -/

/-- `((uint*)bp->data)[j]` -/
def indirect (bp : Block) (j : Nat) : Nat := field bp (4 * j) 4

/-- `a[j] = addr` -/
def setIndirect (bp : Block) (j addr : Nat) : Block := setField bp (4 * j) 4 addr

theorem indirect_setIndirect_same {bp : Block} {j addr : Nat} (hj : j < NINDIRECT)
    (ha : addr < 2 ^ 32) : indirect (setIndirect bp j addr) j = addr := by
  have hI : NINDIRECT = 256 := rfl
  have hN : BSIZE = 1024 := rfl
  rw [indirect, setIndirect, field_setField_same (by omega)]
  exact Nat.mod_eq_of_lt (by omega)

theorem indirect_setIndirect_other {bp : Block} {j k addr : Nat} (h : k ≠ j) :
    indirect (setIndirect bp j addr) k = indirect bp k := by
  rw [indirect, setIndirect, field_setField_disjoint (by omega)]
  rfl

theorem indirect_zeroBlock (j : Nat) : indirect zeroBlock j = 0 := field_zeroBlock ..

/-- `struct dirent`; the name is the `DIRSIZ` bytes of the field. -/
structure Dirent where
  inum : Nat
  name : List UInt8
  deriving DecidableEq, Repr

namespace Dirent

/-- The sixteen bytes of an entry, read as a `struct dirent`. -/
def ofBytes (l : List UInt8) : Dirent where
  inum := (l.getD 0 0).toNat + 256 * (l.getD 1 0).toNat
  name := l.drop 2

/-- The bytes of an entry; the number is cut to a `ushort`. -/
def toBytes (de : Dirent) : List UInt8 := leByte de.inum 0 :: leByte de.inum 1 :: de.name

theorem ofBytes_toBytes (de : Dirent) :
    ofBytes de.toBytes = { de with inum := de.inum % 2 ^ 16 } := by
  have h := le_leByte 2 de.inum
  simp only [le, Nat.mul_zero, Nat.add_zero] at h
  simp only [ofBytes, toBytes, mk.injEq]
  refine ⟨?_, rfl⟩
  simpa using h

end Dirent

end Xv6
