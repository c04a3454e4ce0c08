import Xv6.Lib.Bytes
import Xv6.Lib.Hoare
import Xv6.Lib.Upd

/-!
# xv6 — physical pages and page tables (`kernel/kalloc.c`, `kernel/vm.c`)

The functions of `kalloc.c` and `vm.c` on user page tables, as programs over the free list and the
bytes of the physical pages. Addresses and sizes are natural numbers below `2 ^ 64`; where the code
adds two of them the sum is taken modulo `2 ^ 64`. A page table is a page of 512 words, each of them
a page-table entry.
-/

namespace Xv6.Vm

open Hoare ByteBuf

/-! ## memlayout.h, riscv.h -/

/-- bytes per page -/
abbrev PGSIZE : Nat := 4096
abbrev KERNBASE : Nat := 0x80000000
abbrev PHYSTOP : Nat := KERNBASE + 128 * 1024 * 1024
abbrev MAXVA : Nat := 2 ^ 38
abbrev TRAMPOLINE : Nat := MAXVA - PGSIZE
abbrev TRAPFRAME : Nat := TRAMPOLINE - PGSIZE

/-- Unsigned arithmetic. -/
def u64 (n : Nat) : Nat := n % 2 ^ 64

def PGROUNDUP (sz : Nat) : Nat := u64 (sz + PGSIZE - 1) / PGSIZE * PGSIZE
def PGROUNDDOWN (a : Nat) : Nat := a / PGSIZE * PGSIZE

/-- The 9 bits of a page-table index. -/
def PX (level va : Nat) : Nat := va / 2 ^ (12 + 9 * level) % 512

/-- valid -/
abbrev PTE_V : BitVec 10 := 1
abbrev PTE_R : BitVec 10 := 2
abbrev PTE_W : BitVec 10 := 4
abbrev PTE_X : BitVec 10 := 8
/-- user can access -/
abbrev PTE_U : BitVec 10 := 16

/-- `pte_t` -/
abbrev Pte := BitVec 64

/-- `PTE2PA(pte)` -/
def Pte.pa (w : Pte) : Nat := ((w >>> 10) <<< 12).toNat

/-- `PTE_FLAGS(pte)` -/
def Pte.flags (w : Pte) : BitVec 10 := w.setWidth 10

/-- `PA2PTE(pa) | flags` -/
def PA2PTE (pa : Nat) (flags : BitVec 10) : Pte := (BitVec.ofNat 64 pa >>> 12) <<< 10 ||| flags.setWidth 64

def Pte.valid (w : Pte) : Bool := w.flags &&& PTE_V != 0

/-- `pte & (PTE_R|PTE_W|PTE_X)` -/
def Pte.rwx (w : Pte) : Bool := w.flags &&& (PTE_R ||| PTE_W ||| PTE_X) != 0

def Pte.user (w : Pte) : Bool := w.flags &&& PTE_U != 0

/-- Where the linker puts the kernel: `end` and `trampoline`. -/
structure Layout where
  kend       : Nat
  trampoline : Nat
  base       : KERNBASE ≤ trampoline
  aligned    : trampoline % PGSIZE = 0
  inKernel   : trampoline + PGSIZE ≤ kend
  fits       : kend ≤ PHYSTOP

abbrev Page := ByteBuf.Buf PGSIZE

/-- `page x` are the bytes of the page at address `x`. -/
structure Mem where
  freelist : List Nat
  page     : Nat → Page

inductive Panic where
  | kfree
  | walk
  | mappagesSize
  | mappagesRemap
  | uvmunmapAligned
  | uvmunmapWalk
  | uvmunmapNotMapped
  | uvmunmapNotLeaf
  | inituvm
  | freewalkLeaf
  | uvmcopyPte
  | uvmcopyNotPresent
  | uvmclear
  | loadseg
  /-- a loop does not end -/
  | endless
  deriving DecidableEq, Repr

abbrev M := Prog Mem Panic

/-! ## kalloc.c -/

/-- The page at `pa` is written. -/
def store (pa : Nat) (f : Page → Page) : M Unit :=
  modify fun m => { m with page := upd m.page pa (f (m.page pa)) }

/-- `memset(pa, c, PGSIZE)` -/
def memset (pa : Nat) (c : UInt8) : M Unit := store pa fun _ _ => c

/-- `memmove(dst, src, PGSIZE)` -/
def memmove (dst src : Nat) : M Unit := do
  let bytes := (← get).page src
  store dst fun _ => bytes

/-- `memmove(pa + off, src, n)` of the bytes `l` into a page. -/
def putBytes (pa off : Nat) (l : List UInt8) : M Unit :=
  store pa fun b => poke b off l.length fun j => l.getD j 0

/-- Allocate one page of physical memory. -/
def kalloc : M (Option Nat) := do
  match (← get).freelist with
  | [] => return none
  | r :: next =>
    modify fun m => { m with freelist := next }
    -- fill with junk
    memset r 5
    return some r

/-- Free the page of physical memory `pa`. -/
def kfree (L : Layout) (pa : Nat) : M Unit := do
  when (pa % PGSIZE ≠ 0 ∨ pa < L.kend ∨ PHYSTOP ≤ pa) (throw .kfree)
  -- fill with junk to catch dangling refs
  memset pa 1
  modify fun m => { m with freelist := pa :: m.freelist }

/-! ## Page tables -/

/-- Word `i` of the page `x`. -/
def Mem.word (m : Mem) (x i : Nat) : Pte := BitVec.ofNat 64 (field (m.page x) (8 * i) 8)

/-- Entry `i` of the table `pt`. -/
def entry (pt i : Nat) : M Pte := do return (← get).word pt i

def setEntry (pt i : Nat) (w : Pte) : M Unit := store pt fun b => setField b (8 * i) 8 w.toNat

/-- A turn of the loop of `walk`: the table of the next level. -/
def walkLevel (pt level va : Nat) (alloc : Bool) : M (Option Nat) := do
  let pte ← entry pt (PX level va)
  if pte.valid then return some pte.pa
  else if alloc then
    match ← kalloc with
    | none => return none
    | some next =>
      memset next 0
      setEntry pt (PX level va) (PA2PTE next PTE_V)
      return some next
  else return none

/-- The loop of `walk` from `level` down. -/
def walkLoop (va : Nat) (alloc : Bool) : (level pt : Nat) → M (Option (Nat × Nat))
  | 0, pt => return some (pt, PX 0 va)
  | level + 1, pt => do
    match ← walkLevel pt (level + 1) va alloc with
    | none => return none
    | some next => walkLoop va alloc level next

/-- The PTE of `va`: the table it is in and its index there. -/
def walk (pt va : Nat) (alloc : Bool) : M (Option (Nat × Nat)) := do
  when (MAXVA ≤ va) (throw .walk)
  walkLoop va alloc 2 pt

/-- Look up a virtual address; 0 if it is not mapped for users. -/
def walkaddr (pt va : Nat) : M Nat := do
  if MAXVA ≤ va then return 0
  else match ← walk pt va false with
    | none => return 0
    | some (t, i) =>
      let pte ← entry t i
      if pte.valid && pte.user then return pte.pa else return 0

/-- The loop of `mappages`, `n` turns before its last one. -/
def mapLoop (pt : Nat) (perm : BitVec 10) : (n a pa : Nat) → M Bool
  | n, a, pa => do
    match ← walk pt a true with
    | none => return false
    | some (t, i) =>
      when ((← entry t i).valid) (throw .mappagesRemap)
      setEntry t i (PA2PTE pa (perm ||| PTE_V))
      match n with
      | 0 => return true
      | n + 1 => mapLoop pt perm n (u64 (a + PGSIZE)) (u64 (pa + PGSIZE))

/-- Create PTEs for virtual addresses starting at `va`; false is -1. -/
def mappages (pt va size pa : Nat) (perm : BitVec 10) : M Bool := do
  when (size = 0) (throw .mappagesSize)
  let a := PGROUNDDOWN va
  let last := PGROUNDDOWN (u64 (va + size - 1))
  mapLoop pt perm (u64 (last + 2 ^ 64 - a) / PGSIZE) a pa

/-- The loop of `uvmunmap`; it makes at most `npages` turns. -/
def unmapLoop (L : Layout) (pt last : Nat) (do_free : Bool) : (n a : Nat) → M Unit
  | 0, _ => return ()
  | n + 1, a =>
    when (a < last) do
      match ← walk pt a false with
      | none => throw .uvmunmapWalk
      | some (t, i) =>
        let pte ← entry t i
        when (!pte.valid) (throw .uvmunmapNotMapped)
        when (pte.flags = PTE_V) (throw .uvmunmapNotLeaf)
        when (do_free = true) (kfree L pte.pa)
        setEntry t i 0
        unmapLoop L pt last do_free n (u64 (a + PGSIZE))

/-- Remove `npages` of mappings starting from `va`. -/
def uvmunmap (L : Layout) (pt va npages : Nat) (do_free : Bool) : M Unit := do
  when (va % PGSIZE ≠ 0) (throw .uvmunmapAligned)
  unmapLoop L pt (u64 (va + npages * PGSIZE)) do_free npages va

/-- Create an empty user page table. -/
def uvmcreate : M (Option Nat) := do
  match ← kalloc with
  | none => return none
  | some pt =>
    memset pt 0
    return some pt

/-- An `int` as a `uint64`. -/
def ofInt32 (n : Nat) : Nat := ((BitVec.ofNat 32 n).signExtend 64).toNat

/-- Deallocate user pages to bring the process size from `oldsz` to `newsz`. -/
def uvmdealloc (L : Layout) (pt oldsz newsz : Nat) : M Nat := do
  if oldsz ≤ newsz then return oldsz
  else
    when (PGROUNDUP newsz < PGROUNDUP oldsz) do
      let npages := ofInt32 ((PGROUNDUP oldsz - PGROUNDUP newsz) / PGSIZE)
      uvmunmap L pt (PGROUNDUP newsz) npages true
    return newsz

/-- The loop of `uvmalloc`. Each turn but the last takes a page, so there are not more of them than
physical pages. -/
def allocLoop (L : Layout) (pt oldsz newsz : Nat) : (fuel a : Nat) → M Nat
  | 0, _ => throw .endless
  | fuel + 1, a => do
    if a < newsz then
      match ← kalloc with
      | none =>
        let _ ← uvmdealloc L pt a oldsz
        return 0
      | some mem =>
        memset mem 0
        if ← mappages pt a PGSIZE mem (PTE_W ||| PTE_X ||| PTE_R ||| PTE_U) then
          allocLoop L pt oldsz newsz fuel (u64 (a + PGSIZE))
        else
          kfree L mem
          let _ ← uvmdealloc L pt a oldsz
          return 0
    else return newsz

/-- Grow a process from `oldsz` to `newsz`; returns the new size or 0 on error. -/
def uvmalloc (L : Layout) (pt oldsz newsz : Nat) : M Nat := do
  if newsz < oldsz then return oldsz
  else
    let oldsz := PGROUNDUP oldsz
    allocLoop L pt oldsz newsz (PHYSTOP / PGSIZE + 1) oldsz

/-- Recursively free page-table pages; page tables have `depth` levels. -/
def freewalk (L : Layout) : (depth pt : Nat) → M Unit
  | 0, _ => throw .endless
  | depth + 1, pt => do
    (List.range 512).forM fun i => do
      let pte ← entry pt i
      if pte.valid && !pte.rwx then
        -- this PTE points to a lower-level page table
        freewalk L depth pte.pa
        setEntry pt i 0
      else when (pte.valid = true) (throw .freewalkLeaf)
    kfree L pt

/-- Free user memory pages, then free page-table pages. -/
def uvmfree (L : Layout) (pt sz : Nat) : M Unit := do
  when (0 < sz) (uvmunmap L pt 0 (PGROUNDUP sz / PGSIZE) true)
  freewalk L 3 pt

/-- The loop of `uvmcopy`; false is -1. -/
def copyLoop (L : Layout) (old new sz : Nat) : (fuel i : Nat) → M Bool
  | 0, _ => throw .endless
  | fuel + 1, i => do
    if i < sz then
      match ← walk old i false with
      | none => throw .uvmcopyPte
      | some (t, k) =>
        let pte ← entry t k
        when (!pte.valid) (throw .uvmcopyNotPresent)
        match ← kalloc with
        | none =>
          uvmunmap L new 0 (i / PGSIZE) true
          return false
        | some mem =>
          memmove mem pte.pa
          if ← mappages new i PGSIZE mem pte.flags then copyLoop L old new sz fuel (u64 (i + PGSIZE))
          else
            kfree L mem
            uvmunmap L new 0 (i / PGSIZE) true
            return false
    else return true

/-- Copy a parent's memory into a child's page table. -/
def uvmcopy (L : Layout) (old new sz : Nat) : M Bool := copyLoop L old new sz (sz / PGSIZE + 2) 0

/-- Mark a PTE invalid for user access. -/
def uvmclear (pt va : Nat) : M Unit := do
  match ← walk pt va false with
  | none => throw .uvmclear
  | some (t, i) =>
    let pte ← entry t i
    setEntry t i (pte &&& ~~~PTE_U.setWidth 64)

/-- The loop of `copyout`; each turn copies at least one byte. -/
def copyoutLoop (pt : Nat) : (fuel dstva : Nat) → (src : List UInt8) → M Bool
  | _, _, [] => return true
  | 0, _, _ => throw .endless
  | fuel + 1, dstva, src => do
    let va0 := PGROUNDDOWN dstva
    let pa0 ← walkaddr pt va0
    if pa0 = 0 then return false
    else
      let n := min (PGSIZE - (dstva - va0)) src.length
      putBytes pa0 (dstva - va0) (src.take n)
      copyoutLoop pt fuel (u64 (va0 + PGSIZE)) (src.drop n)

/-- Copy from kernel to user: the bytes `src` to `dstva`; false is -1. -/
def copyout (pt dstva : Nat) (src : List UInt8) : M Bool := copyoutLoop pt src.length dstva src

/-- The `n` bytes at `pa + off`. -/
def getBytes (pa off n : Nat) : M (List UInt8) := do
  let b := (← get).page pa
  return (List.range n).map fun j => peek b (off + j)

/-- The loop of `copyin`, `len` bytes left; the bytes are what it has written to `dst`. -/
def copyinLoop (pt : Nat) : (fuel srcva len : Nat) → M (Bool × List UInt8)
  | _, _, 0 => return (true, [])
  | 0, _, _ => throw .endless
  | fuel + 1, srcva, len + 1 => do
    let va0 := PGROUNDDOWN srcva
    let pa0 ← walkaddr pt va0
    if pa0 = 0 then return (false, [])
    else
      let n := min (PGSIZE - (srcva - va0)) (len + 1)
      let l ← getBytes pa0 (srcva - va0) n
      let (ok, rest) ← copyinLoop pt fuel (u64 (va0 + PGSIZE)) (len + 1 - n)
      return (ok, l ++ rest)

/-- Copy from user to kernel: `len` bytes from `srcva`; false is -1. -/
def copyin (pt srcva len : Nat) : M (Bool × List UInt8) := copyinLoop pt len srcva len

/-- The inner loop of `copyinstr`, `n` turns left: whether it meets a NUL, and what it writes to `dst`. -/
def strLoop (b : Page) : (n p : Nat) → Bool × List UInt8
  | 0, _ => (false, [])
  | n + 1, p =>
    if peek b p = 0 then (true, [0])
    else
      let (got_null, l) := strLoop b n (p + 1)
      (got_null, peek b p :: l)

/-- The loop of `copyinstr`. -/
def copyinstrLoop (pt : Nat) : (fuel srcva max : Nat) → M (Bool × List UInt8)
  | _, _, 0 => return (false, [])
  | 0, _, _ => throw .endless
  | fuel + 1, srcva, max + 1 => do
    let va0 := PGROUNDDOWN srcva
    let pa0 ← walkaddr pt va0
    if pa0 = 0 then return (false, [])
    else
      let n := min (PGSIZE - (srcva - va0)) (max + 1)
      let (got_null, l) := strLoop ((← get).page pa0) n (srcva - va0)
      if got_null then return (true, l)
      else
        let (ok, rest) ← copyinstrLoop pt fuel (u64 (va0 + PGSIZE)) (max + 1 - n)
        return (ok, l ++ rest)

/-- Copy a null-terminated string from user to kernel, at most `max` bytes; false is -1. -/
def copyinstr (pt srcva max : Nat) : M (Bool × List UInt8) := copyinstrLoop pt max srcva max

/-- Load the user initcode into address 0; `kalloc` must succeed. -/
def uvminit (pt : Nat) (src : List UInt8) : M Bool := do
  when (PGSIZE ≤ src.length) (throw .inituvm)
  match ← kalloc with
  | none => return false
  | some mem =>
    memset mem 0
    let ok ← mappages pt 0 PGSIZE mem (PTE_W ||| PTE_R ||| PTE_X ||| PTE_U)
    putBytes mem 0 src
    return ok

/-! ## proc.c -/

/-- A user page table with no user memory, but with trampoline and trapframe pages. -/
def proc_pagetable (L : Layout) (trapframe : Nat) : M (Option Nat) := do
  match ← uvmcreate with
  | none => return none
  | some pt =>
    if ← mappages pt TRAMPOLINE PGSIZE L.trampoline (PTE_R ||| PTE_X) then
      if ← mappages pt TRAPFRAME PGSIZE trapframe (PTE_R ||| PTE_W) then return some pt
      else
        uvmunmap L pt TRAMPOLINE 1 false
        uvmfree L pt 0
        return none
    else
      uvmfree L pt 0
      return none

/-- Free a process's page table, and free the physical memory it refers to. -/
def proc_freepagetable (L : Layout) (pt sz : Nat) : M Unit := do
  uvmunmap L pt TRAMPOLINE 1 false
  uvmunmap L pt TRAPFRAME 1 false
  uvmfree L pt sz

end Xv6.Vm
