import Xv6.Fs.Calls
import Xv6.Lib.Lts
import Xv6.Vm.Model

/-!
# xv6 — processes, files and system calls

The process table, the file table and the system calls on them, over the file system (`fs.c`) and
the memory of the machine (`kalloc.c`, `vm.c`): `kernel/file.c`, `kernel/sysfile.c`, `kernel/exec.c`,
what `kernel/pipe.c` does with open and closed ends, and what `kernel/proc.c` does with memory,
files and the family of processes. A call is one step of the system (`sysLts`): the calls of all
processes follow one another, in any order.

What a call takes from the user is in its label: a string as the bytes at its address (`none`: not
readable), the source of a `write` byte by byte, whether the parts of a `read`'s destination can be
written. The bytes that go through a device or a pipe are not part of the system: what reading or
writing one returns is given by the label too. Between calls processes write to their memory
(`store`); what `read` and `fstat` put there is such a step. While a process runs its registers
change, and they are in its trapframe when it enters the kernel (`trap`); so is what a call returns.
A call that has to wait is a process that sleeps between two calls (`sleep`, `wakeup`, `resume`).

A pipe is named by the address of its page. The trampoline and the other pages of the kernel
image are left out.
-/

namespace Xv6.Sys

open Hoare ByteBuf
open Vm (Layout Page PGSIZE u64 PGROUNDUP)

/-! ## State -/

inductive FdType where
  | none
  | pipe
  | inode
  | device
  deriving DecidableEq, Repr

/-- `struct file` -/
structure File where
  type     : FdType
  ref      : Nat
  readable : Bool
  writable : Bool
  pipe     : Nat
  ip       : Nat
  off      : Nat
  major    : BitVec 16

def File.empty : File where
  type := .none
  ref := 0
  readable := false
  writable := false
  pipe := 0
  ip := 0
  off := 0
  major := 0

/-- `struct pipe`, but for what is in it. -/
structure Pipe where
  readopen  : Bool
  writeopen : Bool
  deriving DecidableEq, Repr

/-- `enum procstate`; `runnable` is a process that runs, too. -/
inductive Life where
  | unused
  | used
  | sleeping
  | runnable
  | zombie
  deriving DecidableEq, Repr

/-- `struct proc` -/
structure Proc where
  state     : Life
  chan      : Option Nat
  killed    : Bool
  xstate    : BitVec 32
  pid       : BitVec 32
  parent    : Option Nat
  sz        : Nat
  pagetable : Option Nat
  trapframe : Option Nat
  ofile     : Nat → Option Nat
  cwd       : Option Nat
  name      : ByteBuf.Buf 16

def Proc.unused : Proc where
  state := .unused
  chan := none
  killed := false
  xstate := 0
  pid := 0
  parent := none
  sz := 0
  pagetable := none
  trapframe := none
  ofile := fun _ => none
  cwd := none
  name := fun _ => 0

/-- `pipe x` is the pipe in page `x`, `outstanding` the number of open transactions. `ktab` and `kstack`
are the pages that the kernel's page table and the kernel stacks took when the system was started. -/
structure State where
  core        : Fs.Core
  mem         : Vm.Mem
  ftable      : Nat → File
  pipe        : Nat → Option Pipe
  proc        : Nat → Proc
  nextpid     : BitVec 32
  outstanding : Int
  ktab        : List Nat
  kstack      : List Nat

inductive Panic where
  | fs (e : Fs.Panic)
  | vm (e : Vm.Panic)
  | filedup
  | fileclose
  | fileread
  | filewrite
  | initExiting
  /-- `userinit` found no memory -/
  | userinit
  /-- a pipe is used after its page was freed -/
  | deadPipe
  /-- a null pointer is followed -/
  | null
  deriving DecidableEq, Repr

abbrev S := Prog State Panic

/-- A function of `fs.c`. -/
def fs {α : Type} (m : Fs.M α) : S α := zoom State.core (fun s c => { s with core := c }) .fs m

/-- A function of `kalloc.c` or `vm.c`. -/
def vm {α : Type} (m : Vm.M α) : S α := zoom State.mem (fun s m => { s with mem := m }) .vm m

def file (f : Nat) : S File := do return (← get).ftable f

def setFile (f : Nat) (g : File → File) : S Unit :=
  modify fun s => { s with ftable := upd s.ftable f (g (s.ftable f)) }

def setPipe (x : Nat) (pi : Option Pipe) : S Unit :=
  modify fun s => { s with pipe := upd s.pipe x pi }

def proc (p : Nat) : S Proc := do return (← get).proc p

def setProc (p : Nat) (g : Proc → Proc) : S Unit :=
  modify fun s => { s with proc := upd s.proc p (g (s.proc p)) }

/-- Follow a pointer. -/
def deref (x : Option Nat) : S Nat :=
  match x with
  | some x => return x
  | none => throw .null

/-- `if(x) m(x)` -/
def ifPtr (x : Option Nat) (m : Nat → S Unit) : S Unit :=
  match x with
  | some x => m x
  | none => pure ()

/-- A transaction of the log starts. -/
def beginOp : S Unit := modify fun s => { s with outstanding := s.outstanding + 1 }

def endOp : S Unit := modify fun s => { s with outstanding := s.outstanding - 1 }

/-! ## file.c, pipe.c -/

/-- Allocate a file structure. -/
def filealloc : S (Option Nat) := do
  let s ← get
  match (List.range NFILE).find? fun f => (s.ftable f).ref = 0 with
  | some f =>
    setFile f fun f => { f with ref := 1 }
    return some f
  | none => return none

/-- Increment ref count for file `f`. -/
def filedup (f : Nat) : S Nat := do
  when ((← file f).ref < 1) (throw .filedup)
  setFile f fun f => { f with ref := f.ref + 1 }
  return f

def pipeclose (L : Layout) (x : Nat) (writable : Bool) : S Unit := do
  match (← get).pipe x with
  | none => throw .deadPipe
  | some pi =>
    let pi := if writable then { pi with writeopen := false } else { pi with readopen := false }
    if pi.readopen = false ∧ pi.writeopen = false then
      setPipe x none
      vm (Vm.kfree L x)
    else setPipe x (some pi)

/-- Close file `f`. -/
def fileclose (L : Layout) (f : Nat) : S Unit := do
  let ff ← file f
  when (ff.ref < 1) (throw .fileclose)
  if 1 < ff.ref then setFile f fun f => { f with ref := f.ref - 1 }
  else
    setFile f fun f => { f with ref := 0, type := .none }
    match ff.type with
    | .pipe => pipeclose L ff.pipe ff.writable
    | .inode | .device =>
      beginOp
      fs (Fs.iput ff.ip)
      endOp
    | .none => return ()

/-- Get metadata about file `f`: the inode's number, type, link count and size. -/
def filestat (f : Nat) (ok : Bool) : S (Option (Nat × Dinode)) := do
  let ff ← file f
  if ff.type = .inode ∨ ff.type = .device then
    fs (Fs.ilock ff.ip)
    let ip ← fs (Fs.inode ff.ip)
    fs (Fs.iunlock ff.ip)
    return if ok then some (ip.inum, ip.din) else none
  else return none

/-- Read from file `f`; `n` is the `int` of the call as `readi` sees it. -/
def fileread (f : Nat) (ok : Nat → Nat → Bool) (n : Nat) (ext : Int) : S Int := do
  let ff ← file f
  if ff.readable = false then return -1
  else match ff.type with
    | .pipe => return ext
    | .device => return ext
    | .inode =>
      fs (Fs.ilock ff.ip)
      let r ← fs (Fs.readi ff.ip ok ff.off n)
      match r with
      | some l => setFile f fun ff => { ff with off := ff.off + l.length }
      | none => pure ()
      fs (Fs.iunlock ff.ip)
      return match r with
        | some l => l.length
        | none => -1
    | .none => throw .fileread

/-- The loop of `filewrite`, from byte `i` of the source on; the bytes written. -/
def filewriteLoop (f : Nat) (src : Nat → Option UInt8) (n : Nat) : (fuel i : Nat) → S Nat
  | 0, i => return i
  | fuel + 1, i => do
    if i < n then
      -- write a few blocks at a time to avoid exceeding the maximum log transaction size
      let n1 := min (n - i) ((MAXOPBLOCKS - 1 - 1 - 2) / 2 * BSIZE)
      beginOp
      let ip := (← file f).ip
      fs (Fs.ilock ip)
      let r ← fs (Fs.writei ip (fun j => src (i + j)) (← file f).off n1)
      setFile f fun ff => { ff with off := ff.off + r.getD 0 }
      fs (Fs.iunlock ip)
      endOp
      if r = some n1 then filewriteLoop f src n fuel (i + n1) else return i
    else return i

/-- Write to file `f`. -/
def filewrite (f : Nat) (src : Nat → Option UInt8) (n : Int) (ext : Int) : S Int := do
  let ff ← file f
  if ff.writable = false then return -1
  else match ff.type with
    | .pipe => return ext
    | .device => return ext
    | .inode =>
      let i ← filewriteLoop f src n.toNat n.toNat 0
      return if (i : Int) = n then n else -1
    | .none => throw .filewrite

/-- `pipealloc`; `none` is -1. -/
def pipealloc (L : Layout) : S (Option (Nat × Nat)) := do
  match ← filealloc with
  | none => return none
  | some f0 =>
    match ← filealloc with
    | none =>
      fileclose L f0
      return none
    | some f1 =>
      match ← vm Vm.kalloc with
      | none =>
        fileclose L f0
        fileclose L f1
        return none
      | some x =>
        setPipe x (some { readopen := true, writeopen := true })
        setFile f0 fun f => { f with type := .pipe, readable := true, writable := false, pipe := x }
        setFile f1 fun f => { f with type := .pipe, readable := false, writable := true, pipe := x }
        return some (f0, f1)

/-! ## sysfile.c -/

/-- The string at a user address, cut at its NUL; it must fit into `MAXPATH` bytes with it. -/
def argstr (s : Option (List UInt8)) : Option (List UInt8) :=
  match s with
  | some l =>
    let l := l.takeWhile (· ≠ 0)
    if l.length < MAXPATH then some l else none
  | none => none

/-- The file of a descriptor. -/
def argfd (p : Nat) (fd : Int) : S (Option Nat) := do
  if fd < 0 ∨ NOFILE ≤ fd then return none
  else return (← proc p).ofile fd.toNat

def setFd (p fd : Nat) (f : Option Nat) : S Unit :=
  setProc p fun pr => { pr with ofile := upd pr.ofile fd f }

/-- Allocate a file descriptor for the given file. -/
def fdalloc (p f : Nat) : S (Option Nat) := do
  let pr ← proc p
  match (List.range NOFILE).find? fun fd => (pr.ofile fd).isNone with
  | some fd =>
    setFd p fd (some f)
    return some fd
  | none => return none

def sysDup (p : Nat) (fd : Int) : S Int := do
  match ← argfd p fd with
  | some f =>
    match ← fdalloc p f with
    | some fd =>
      let _ ← filedup f
      return fd
    | none => return -1
  | none => return -1

def sysRead (p : Nat) (fd : Int) (ok : Nat → Nat → Bool) (n : Nat) (ext : Int) : S Int := do
  match ← argfd p fd with
  | some f => fileread f ok n ext
  | none => return -1

def sysWrite (p : Nat) (fd : Int) (src : Nat → Option UInt8) (n : Int) (ext : Int) : S Int := do
  match ← argfd p fd with
  | some f => filewrite f src n ext
  | none => return -1

def sysClose (L : Layout) (p : Nat) (fd : Int) : S Int := do
  match ← argfd p fd with
  | some f =>
    setFd p fd.toNat none
    fileclose L f
    return 0
  | none => return -1

def sysFstat (p : Nat) (fd : Int) (ok : Bool) : S Int := do
  match ← argfd p fd with
  | some f => return if (← filestat f ok).isSome then 0 else -1
  | none => return -1

/-- A call of the file system that is one transaction: `end_op` comes before each of its returns. -/
def transaction (m : Fs.M Int) : S Int := do
  beginOp
  let r ← fs m
  endOp
  return r

def sysLink (p : Nat) (old new : Option (List UInt8)) : S Int := do
  match argstr old, argstr new with
  | some old, some new => transaction (Fs.link (← deref (← proc p).cwd) old new)
  | _, _ => return -1

def sysUnlink (p : Nat) (path : Option (List UInt8)) : S Int := do
  match argstr path with
  | some path => transaction (Fs.unlink (← deref (← proc p).cwd) path)
  | none => return -1

def sysOpen (L : Layout) (p : Nat) (path : Option (List UInt8)) (omode : BitVec 32) : S Int := do
  match argstr path with
  | none => return -1
  | some path =>
    beginOp
    match ← fs (Fs.openInode (← deref (← proc p).cwd) path omode) with
    | none =>
      endOp
      return -1
    | some ip =>
      match ← filealloc with
      | none =>
        fs (Fs.iunlockput ip)
        endOp
        return -1
      | some f =>
        match ← fdalloc p f with
        | none =>
          fileclose L f
          fs (Fs.iunlockput ip)
          endOp
          return -1
        | some fd =>
          let din := (← fs (Fs.inode ip)).din
          setFile f fun ff =>
            if din.type = T_DEVICE then { ff with type := .device, major := din.major }
            else { ff with type := .inode, off := 0 }
          setFile f fun ff => { ff with
            ip := ip
            readable := omode &&& Fs.O_WRONLY = 0
            writable := omode &&& Fs.O_WRONLY ≠ 0 ∨ omode &&& Fs.O_RDWR ≠ 0 }
          when (omode &&& Fs.O_TRUNC ≠ 0 ∧ din.type = T_FILE) (fs (Fs.itrunc ip))
          fs (Fs.iunlock ip)
          endOp
          return fd

def sysMkdir (p : Nat) (path : Option (List UInt8)) : S Int := do
  match argstr path with
  | some path => transaction (Fs.make (← deref (← proc p).cwd) path T_DIR 0 0)
  | none => return -1

def sysMknod (p : Nat) (path : Option (List UInt8)) (major minor : BitVec 16) : S Int := do
  match argstr path with
  | some path => transaction (Fs.make (← deref (← proc p).cwd) path T_DEVICE major minor)
  | none => return -1

def sysChdir (p : Nat) (path : Option (List UInt8)) : S Int := do
  match argstr path with
  | none => return -1
  | some path =>
    let cwd ← deref (← proc p).cwd
    beginOp
    match ← fs (Fs.namei cwd path) with
    | none =>
      endOp
      return -1
    | some ip =>
      fs (Fs.ilock ip)
      if (← fs (Fs.inode ip)).din.type ≠ T_DIR then
        fs (Fs.iunlockput ip)
        endOp
        return -1
      else
        fs (Fs.iunlock ip)
        fs (Fs.iput cwd)
        endOp
        setProc p fun pr => { pr with cwd := some ip }
        return 0

/-- The `k` bytes of an integer in memory. -/
def leBytes (k x : Nat) : List UInt8 := (List.range k).map (leByte x)

def sysPipe (L : Layout) (p fdarray : Nat) : S Int := do
  match ← pipealloc L with
  | none => return -1
  | some (rf, wf) =>
    match ← fdalloc p rf with
    | none =>
      fileclose L rf
      fileclose L wf
      return -1
    | some fd0 =>
      match ← fdalloc p wf with
      | none =>
        setFd p fd0 none
        fileclose L rf
        fileclose L wf
        return -1
      | some fd1 =>
        let pt ← deref (← proc p).pagetable
        let ok ← if ← vm (Vm.copyout pt fdarray (leBytes 4 fd0)) then
            vm (Vm.copyout pt (u64 (fdarray + 4)) (leBytes 4 fd1))
          else pure false
        if ok then return 0
        else
          setFd p fd0 none
          setFd p fd1 none
          fileclose L rf
          fileclose L wf
          return -1

/-! ## exec.c -/

abbrev ELF_MAGIC : Nat := 0x464C457F
abbrev ELF_PROG_LOAD : Nat := 1
/-- max exec arguments -/
abbrev MAXARG : Nat := 32

/-- The field of `k` bytes at offset `off`. -/
def bytesAt (l : List UInt8) (off k : Nat) : Nat := le k fun i => l.getD (off + i) 0

/-- `struct proghdr` -/
structure ProgHdr where
  type   : Nat
  off    : Nat
  vaddr  : Nat
  filesz : Nat
  memsz  : Nat

def ProgHdr.ofBytes (l : List UInt8) : ProgHdr where
  type := bytesAt l 0 4
  off := bytesAt l 8 8
  vaddr := bytesAt l 16 8
  filesz := bytesAt l 32 8
  memsz := bytesAt l 40 8

/-- The loop of `loadseg`; `i`, `offset` and `sz` are `uint`. False is -1. -/
def loadLoop (pt va ip offset sz : Nat) : (fuel i : Nat) → S Bool
  | 0, _ => throw (.vm .endless)
  | fuel + 1, i => do
    if i < sz then
      let pa ← vm (Vm.walkaddr pt (u64 (va + i)))
      if pa = 0 then throw (.vm .loadseg)
      else
        let n := if sz - i < PGSIZE then sz - i else PGSIZE
        let l := (← fs (Fs.readi ip Fs.kernel ((offset + i) % 2 ^ 32) n)).getD []
        -- what was read is at `pa`, all of it or not
        vm (Vm.putBytes pa 0 l)
        if l.length = n then loadLoop pt va ip offset sz fuel ((i + PGSIZE) % 2 ^ 32) else return false
    else return true

/-- Load a program segment into `pt` at virtual address `va`. -/
def loadseg (pt va ip offset sz : Nat) : S Bool :=
  loadLoop pt va ip offset sz (sz / PGSIZE + 2) 0

/-- The loop of `exec` over the program headers, `n` of them left: whether all are loaded, and `sz`. -/
def loadProgram (L : Layout) (ip pt : Nat) : (n off sz : Nat) → S (Bool × Nat)
  | 0, _, sz => return (true, sz)
  | n + 1, off, sz => do
    match ← fs (Fs.readi ip Fs.kernel off 56) with
    | none => return (false, sz)
    | some l =>
      if l.length ≠ 56 then return (false, sz)
      else
        let ph := ProgHdr.ofBytes l
        if ph.type ≠ ELF_PROG_LOAD then loadProgram L ip pt n ((off + 56) % 2 ^ 32) sz
        else if ph.memsz < ph.filesz then return (false, sz)
        else if u64 (ph.vaddr + ph.memsz) < ph.vaddr then return (false, sz)
        else
          let sz1 ← vm (Vm.uvmalloc L pt sz (u64 (ph.vaddr + ph.memsz)))
          if sz1 = 0 then return (false, sz)
          else if ph.vaddr % PGSIZE ≠ 0 then return (false, sz1)
          else if ← loadseg pt ph.vaddr ip (ph.off % 2 ^ 32) (ph.filesz % 2 ^ 32) then
            loadProgram L ip pt n ((off + 56) % 2 ^ 32) sz1
          else return (false, sz1)

/-- Push the argument strings; the new `sp` and their addresses, `none` when they do not fit. -/
def pushArgs (pt stackbase : Nat) :
    (argv : List (List UInt8)) → (sp : Nat) → (ustack : List Nat) → Vm.M (Option (Nat × List Nat))
  | [], sp, ustack => return some (sp, ustack)
  | s :: argv, sp, ustack => do
    if MAXARG ≤ ustack.length then return none
    else
      let sp := u64 (sp + 2 ^ 64 - (s.length + 1))
      -- riscv sp must be 16-byte aligned
      let sp := sp - sp % 16
      if sp < stackbase then return none
      else if ← Vm.copyout pt sp (s ++ [0]) then pushArgs pt stackbase argv sp (ustack ++ [sp])
      else return none

/-- The stack of a new program of size `sz`: the final `sp`, `none` when not everything fits. -/
def pushStack (pt sz : Nat) (argv : List (List UInt8)) : Vm.M (Option Nat) := do
  let stackbase := sz - PGSIZE
  match ← pushArgs pt stackbase argv sz [] with
  | none => return none
  | some (sp, ustack) =>
    let ustack := ustack ++ [0]
    -- push the array of argv[] pointers
    let sp := u64 (sp + 2 ^ 64 - ustack.length * 8)
    let sp := sp - sp % 16
    if sp < stackbase then return none
    else if ← Vm.copyout pt sp (ustack.flatMap (leBytes 8)) then return some sp
    else return none

/-- The registers of a process that the kernel sets. -/
inductive Reg where
  | epc
  | sp
  | a0
  | a1
  deriving DecidableEq, Repr

/-- Where they are in `struct trapframe`. -/
def Reg.offset : Reg → Nat
  | .epc => 24
  | .sp => 48
  | .a0 => 112
  | .a1 => 120

/-- `p->trapframe->r = x` -/
def setReg (p : Nat) (r : Reg) (x : Nat) : S Unit := do
  vm (Vm.store (← deref (← proc p).trapframe) fun b => setField b r.offset 8 x)

/-- `safestrcpy(name, t, 16)`: the NUL of a short string is followed by another one. -/
def safestrcpy (name : ByteBuf.Buf 16) (t : List UInt8) : ByteBuf.Buf 16 :=
  poke name 0 (min (t.length + 2) 16) fun i => (t.take 15).getD i 0

/-- The loop that finds the last element of a path. -/
def lastElem : (last s : List UInt8) → List UInt8
  | last, [] => last
  | last, c :: s => lastElem (if c = Fs.slash then s else last) s

/-- The end of `exec`, when the program is loaded and its file closed: the stack, then the new
image takes the place of the old one. -/
def execStack (L : Layout) (p pt sz entry : Nat) (path : List UInt8) (argv : List (List UInt8)) : S Int := do
  let oldsz := (← proc p).sz
  let sz := PGROUNDUP sz
  let sz1 ← vm (Vm.uvmalloc L pt sz (u64 (sz + 2 * PGSIZE)))
  if sz1 = 0 then
    vm (Vm.proc_freepagetable L pt sz)
    return -1
  else
    vm (Vm.uvmclear pt (sz1 - 2 * PGSIZE))
    match ← vm (pushStack pt sz1 argv) with
    | some sp =>
      setReg p .a1 sp
      setProc p fun pr => { pr with name := safestrcpy pr.name (lastElem path path) }
      -- commit to the user image
      let oldpagetable ← deref (← proc p).pagetable
      setProc p fun pr => { pr with pagetable := some pt, sz := sz1 }
      setReg p .epc entry
      setReg p .sp sp
      vm (Vm.proc_freepagetable L oldpagetable oldsz)
      return argv.length
    | none =>
      vm (Vm.proc_freepagetable L pt sz1)
      return -1

def exec (L : Layout) (p : Nat) (path : List UInt8) (argv : List (List UInt8)) : S Int := do
  beginOp
  match ← fs (Fs.namei (← deref (← proc p).cwd) path) with
  | none =>
    endOp
    return -1
  | some ip =>
    fs (Fs.ilock ip)
    let elf := (← fs (Fs.readi ip Fs.kernel 0 64)).getD []
    if elf.length ≠ 64 ∨ bytesAt elf 0 4 ≠ ELF_MAGIC then
      fs (Fs.iunlockput ip)
      endOp
      return -1
    else
      match ← vm (Vm.proc_pagetable L (← deref (← proc p).trapframe)) with
      | none =>
        fs (Fs.iunlockput ip)
        endOp
        return -1
      | some pt =>
        match ← loadProgram L ip pt (bytesAt elf 56 2) (bytesAt elf 32 8 % 2 ^ 32) 0 with
        | (true, sz) =>
          fs (Fs.iunlockput ip)
          endOp
          execStack L p pt sz (bytesAt elf 24 8) path argv
        | (false, sz) =>
          vm (Vm.proc_freepagetable L pt sz)
          fs (Fs.iunlockput ip)
          endOp
          return -1

/-- What `sys_exec` finds at `uargv[i]`: an address that cannot be read, a null pointer, a pointer
to no string, or the bytes of a string. -/
inductive Arg where
  | badAddr
  | null
  | badStr
  | str (s : List UInt8)

/-- The loop of `sys_exec`, `n` turns left: the pages it took, and the strings in them. -/
def fetchArgs (args : Nat → Arg) :
    (n i : Nat) → (pages : List Nat) → (argv : List (List UInt8)) → S (List Nat × Option (List (List UInt8)))
  | 0, _, pages, _ => return (pages, none)
  | n + 1, i, pages, argv =>
    match args i with
    | .badAddr => return (pages, none)
    | .null => return (pages, some argv)
    | .badStr => do
      match ← vm Vm.kalloc with
      | none => return (pages, none)
      | some x => return (pages ++ [x], none)
    | .str s => do
      match ← vm Vm.kalloc with
      | none => return (pages, none)
      | some x =>
        let s := s.takeWhile (· ≠ 0)
        if s.length < PGSIZE then
          vm (Vm.putBytes x 0 (s ++ [0]))
          fetchArgs args n (i + 1) (pages ++ [x]) (argv ++ [s])
        else return (pages ++ [x], none)

def sysExec (L : Layout) (p : Nat) (path : Option (List UInt8)) (args : Nat → Arg) : S Int := do
  match argstr path with
  | none => return -1
  | some path =>
    let (pages, argv) ← fetchArgs args MAXARG 0 [] []
    let ret ← match argv with
      | some argv => exec L p path argv
      | none => pure (-1)
    pages.forM fun x => vm (Vm.kfree L x)
    return ret

/-! ## proc.c -/

/-- Free a proc structure and the data hanging from it. -/
def freeproc (L : Layout) (p : Nat) : S Unit := do
  ifPtr (← proc p).trapframe fun tf => vm (Vm.kfree L tf)
  ifPtr (← proc p).pagetable fun pt => do vm (Vm.proc_freepagetable L pt (← proc p).sz)
  setProc p fun pr => { pr with
    trapframe := none, pagetable := none, sz := 0, pid := 0, parent := none
    name := poke pr.name 0 1 fun _ => 0, chan := none, killed := false, xstate := 0, state := .unused }

def allocpid : S (BitVec 32) := do
  let pid := (← get).nextpid
  modify fun s => { s with nextpid := pid + 1 }
  return pid

/-- Look in the process table for an `UNUSED` proc and give it memory. -/
def allocproc (L : Layout) : S (Option Nat) := do
  let s ← get
  match (List.range NPROC).find? fun p => (s.proc p).state = .unused with
  | none => return none
  | some p =>
    let pid ← allocpid
    setProc p fun pr => { pr with pid := pid, state := .used }
    match ← vm Vm.kalloc with
    | none =>
      freeproc L p
      return none
    | some tf =>
      setProc p fun pr => { pr with trapframe := some tf }
      match ← vm (Vm.proc_pagetable L tf) with
      | none =>
        freeproc L p
        return none
      | some pt =>
        setProc p fun pr => { pr with pagetable := some pt }
        return some p

/-- Grow or shrink user memory by `n` bytes; the size is computed in 32 bits. -/
def growproc (L : Layout) (p : Nat) (n : BitVec 32) : S Int := do
  let pr ← proc p
  let pt ← deref pr.pagetable
  let sz := pr.sz % 2 ^ 32
  let newsz := (sz + n.toNat) % 2 ^ 32
  if 0 < n.toInt then
    let sz := (← vm (Vm.uvmalloc L pt sz newsz)) % 2 ^ 32
    if sz = 0 then return -1
    else
      setProc p fun pr => { pr with sz := sz }
      return 0
  else if n.toInt < 0 then
    let sz := (← vm (Vm.uvmdealloc L pt sz newsz)) % 2 ^ 32
    setProc p fun pr => { pr with sz := sz }
    return 0
  else
    setProc p fun pr => { pr with sz := sz }
    return 0

def sysSbrk (L : Layout) (p : Nat) (n : BitVec 32) : S Int := do
  let addr := (← proc p).sz
  if (← growproc L p n) < 0 then return -1 else return addr

/-- `np` gets the files of a process. -/
def dupFiles (ofile : Nat → Option Nat) (np : Nat) : S Unit :=
  (List.range NOFILE).forM fun fd => ifPtr (ofile fd) fun f => do
    let f ← filedup f
    setFd np fd (some f)

/-- `sizeof(struct trapframe)` -/
abbrev TRAPFRAMESIZE : Nat := 288

/-- The string in a buffer. -/
def cstring (b : ByteBuf.Buf 16) : List UInt8 := ((List.range 16).map (peek b)).takeWhile (· ≠ 0)

/-- Create a new process, copying the parent; `none` is -1. -/
def fork (L : Layout) (p : Nat) : S (Option Nat) := do
  match ← allocproc L with
  | none => return none
  | some np =>
    let pr ← proc p
    let pt ← deref pr.pagetable
    let npt ← deref (← proc np).pagetable
    if ← vm (Vm.uvmcopy L pt npt pr.sz) then
      setProc np fun n => { n with sz := pr.sz }
      -- copy saved user registers
      let regs := (← get).mem.page (← deref pr.trapframe)
      vm (Vm.store (← deref (← proc np).trapframe) fun b => poke b 0 TRAPFRAMESIZE (peek regs))
      -- cause fork to return 0 in the child
      setReg np .a0 0
      dupFiles pr.ofile np
      let cwd ← fs (Fs.idup (← deref pr.cwd))
      setProc np fun n => { n with
        cwd := some cwd, name := safestrcpy n.name (cstring pr.name), parent := some p, state := .runnable }
      return some np
    else
      freeproc L np
      return none

def sysFork (L : Layout) (p : Nat) : S Int := do
  match ← fork L p with
  | some np => return (← proc np).pid.toInt
  | none => return -1

/-- `initproc` -/
abbrev initproc : Nat := 0

/-- Close all open files of `p`. -/
def closeFiles (L : Layout) (p : Nat) : S Unit :=
  (List.range NOFILE).forM fun fd => do
    ifPtr ((← proc p).ofile fd) fun f => do
      fileclose L f
      setFd p fd none

/-- Exit the current process. -/
def exit (L : Layout) (p : Nat) (status : BitVec 32) : S Unit := do
  when (p = initproc) (throw .initExiting)
  closeFiles L p
  beginOp
  fs (Fs.iput (← deref (← proc p).cwd))
  endOp
  -- give any children to init
  modify fun s => { s with proc := fun q =>
    if (s.proc q).parent = some p then { s.proc q with parent := some initproc } else s.proc q }
  setProc p fun pr => { pr with state := .zombie, xstate := status, cwd := none }

/-- Wait for a child process to exit; `none` is -1: there is none that has, and the process has no
children or has been killed. -/
def wait (L : Layout) (p addr : Nat) : S (Option (BitVec 32)) := do
  let s ← get
  match (List.range NPROC).find? fun np =>
      (s.proc np).parent = some p ∧ (s.proc np).state = .zombie with
  | none => return none
  | some np =>
    let ok ← if addr ≠ 0 then
        vm (Vm.copyout (← deref (← proc p).pagetable) addr (leBytes 4 (s.proc np).xstate.toNat))
      else pure true
    if ok then
      freeproc L np
      return some (s.proc np).pid
    else return none

def sysWait (L : Layout) (p addr : Nat) : S Int := do
  match ← wait L p addr with
  | some pid => return pid.toInt
  | none => return -1

/-- Kill the process with the given pid. -/
def kill (pid : BitVec 32) : S Int := do
  let s ← get
  match (List.range NPROC).find? fun q => (s.proc q).pid = pid with
  | none => return -1
  | some q =>
    setProc q fun pr => { pr with killed := true }
    when ((← proc q).state = .sleeping) (setProc q fun pr => { pr with state := .runnable })
    return 0

/-- a user program that calls exec("/init") -/
def initcode : List UInt8 := [
  0x17, 0x05, 0x00, 0x00, 0x13, 0x05, 0x45, 0x02,
  0x97, 0x05, 0x00, 0x00, 0x93, 0x85, 0x35, 0x02,
  0x93, 0x08, 0x70, 0x00, 0x73, 0x00, 0x00, 0x00,
  0x93, 0x08, 0x20, 0x00, 0x73, 0x00, 0x00, 0x00,
  0xef, 0xf0, 0x9f, 0xff, 0x2f, 0x69, 0x6e, 0x69,
  0x74, 0x00, 0x00, 0x24, 0x00, 0x00, 0x00, 0x00,
  0x00, 0x00, 0x00, 0x00]

/-- Set up first user process. -/
def userinit (L : Layout) : S Unit := do
  match ← allocproc L with
  | none => throw .userinit
  | some p =>
    if ← vm (Vm.uvminit (← deref (← proc p).pagetable) initcode) then
      setProc p fun pr => { pr with sz := PGSIZE }
      setReg p .epc 0
      setReg p .sp PGSIZE
      -- "initcode"
      setProc p fun pr => { pr with name := safestrcpy pr.name [105, 110, 105, 116, 99, 111, 100, 101] }
      let cwd ← fs (Fs.namei 0 [Fs.slash])
      setProc p fun pr => { pr with cwd := cwd, state := .runnable }
    else throw .userinit

/-! ## The system -/

inductive Call where
  | open_ (path : Option (List UInt8)) (omode : BitVec 32)
  | mkdir (path : Option (List UInt8))
  | mknod (path : Option (List UInt8)) (major minor : BitVec 16)
  | link (old new : Option (List UInt8))
  | unlink (path : Option (List UInt8))
  | chdir (path : Option (List UInt8))
  | pipe (fdarray : BitVec 64)
  | close (fd : Int)
  | dup (fd : Int)
  | read (fd : Int) (ok : Nat → Nat → Bool) (n : BitVec 32) (ext : Int)
  | write (fd : Int) (src : Nat → Option UInt8) (n : BitVec 32) (ext : Int)
  | fstat (fd : Int) (ok : Bool)
  | exec (path : Option (List UInt8)) (args : Nat → Arg)
  | sbrk (n : BitVec 32)
  | fork
  | wait (addr : BitVec 64)
  | exit (status : BitVec 32)
  | kill (pid : BitVec 32)

def Call.run (L : Layout) (p : Nat) : Call → S Int
  | .open_ path omode => sysOpen L p path omode
  | .mkdir path => sysMkdir p path
  | .mknod path major minor => sysMknod p path major minor
  | .link old new => sysLink p old new
  | .unlink path => sysUnlink p path
  | .chdir path => sysChdir p path
  | .pipe fdarray => sysPipe L p fdarray.toNat
  | .close fd => sysClose L p fd
  | .dup fd => sysDup p fd
  | .read fd ok n ext => sysRead p fd ok n.toNat ext
  | .write fd src n ext => sysWrite p fd src n.toInt ext
  | .fstat fd ok => sysFstat p fd ok
  | .exec path args => sysExec L p path args
  | .sbrk n => sysSbrk L p n
  | .fork => sysFork L p
  | .wait addr => sysWait L p addr.toNat
  | .exit status => do
    Sys.exit L p status
    return 0
  | .kill pid => Sys.kill pid

inductive Act where
  /-- process `p` makes a call -/
  | call (p : Nat) (c : Call)
  /-- `p` writes to the page of its memory at `va` -/
  | store (p : Nat) (va : BitVec 64) (f : Page → Page)
  /-- the registers of `p` are saved in its trapframe -/
  | trap (p : Nat) (f : Page → Page)
  /-- `p` goes to sleep in a call -/
  | sleep (p chan : Nat)
  | wakeup (chan : Nat)
  /-- `sleep` returns -/
  | resume (p : Nat)
  /-- a buffer is recycled -/
  | evict (b : Nat)

/-- A store goes through where the page table lets users write. -/
def userStore (p va : Nat) (f : Page → Page) : S Unit := do
  let pa ← vm (Vm.walkaddr (← deref (← proc p).pagetable) (Vm.PGROUNDDOWN va))
  when (pa ≠ 0) (vm (Vm.store pa f))

def saveRegs (p : Nat) (f : Page → Page) : S Unit := do
  vm (Vm.store (← deref (← proc p).trapframe) f)

/-- A process that runs and is not in the middle of a call. -/
def State.Ready (s : State) (p : Nat) : Prop :=
  p < NPROC ∧ (s.proc p).state = .runnable ∧ (s.proc p).chan = none

instance (s : State) (p : Nat) : Decidable (s.Ready p) := inferInstanceAs (Decidable (_ ∧ _ ∧ _))

/-- The body of the loop of `wakeup`. -/
def Proc.wakeup (chan : Nat) (pr : Proc) : Proc :=
  if pr.state = .sleeping ∧ pr.chan = some chan then { pr with state := .runnable } else pr

def wakeup (chan : Nat) : S Unit := modify fun s => { s with proc := fun q => (s.proc q).wakeup chan }

def step (L : Layout) (s : State) : Act → Option (Except Panic State)
  | .call p c => if s.Ready p then some ((c.run L p s).map Prod.snd) else none
  | .store p va f => if s.Ready p then some ((userStore p va.toNat f s).map Prod.snd) else none
  | .trap p f => if s.Ready p then some ((saveRegs p f s).map Prod.snd) else none
  | .sleep p chan =>
    if s.Ready p then
      some ((setProc p (fun pr => { pr with chan := some chan, state := .sleeping }) s).map Prod.snd)
    else none
  | .wakeup chan => some ((wakeup chan s).map Prod.snd)
  | .resume p =>
    if p < NPROC ∧ (s.proc p).state = .runnable then
      some ((setProc p (fun pr => { pr with chan := none }) s).map Prod.snd)
    else none
  | .evict b => some ((fs (Fs.evict b) s).map Prod.snd)

/-- The pages that `kinit` puts on the free list. -/
def allPages (L : Layout) : List Nat :=
  (List.range ((Vm.PHYSTOP - PGROUNDUP L.kend) / PGSIZE)).map fun i => PGROUNDUP L.kend + i * PGSIZE

/-- `fsinit` and `userinit`, with the memory `mem` that the kernel has left. -/
def boot (L : Layout) (d : Disk) (mem : Vm.Mem) (ktab kstack : List Nat) : Except Panic State := do
  let sb := Superblock.read (d 1)
  if sb.magic ≠ FSMAGIC then throw (.fs .invalidFileSystem)
  let s : State := {
    core := { buf := d, disk := d, sb := sb, itable := fun _ => Fs.Inode.empty }
    mem, ktab, kstack
    ftable := fun _ => File.empty
    pipe := fun _ => none
    proc := fun _ => Proc.unused
    nextpid := 1
    outstanding := 0 }
  let (_, s) ← userinit L s
  return s

/-- The system started on the image `d`: the kernel's page table and the kernel stacks have taken
pages from the free list, then the first process is made. -/
def sysLts (L : Layout) (d : Disk) : Lts State Act Panic where
  init s := ∃ mem ktab kstack, kstack.length = NPROC ∧
    (mem.freelist ++ ktab ++ kstack).Perm (allPages L) ∧ boot L d mem ktab kstack = .ok s
  step := step L

end Xv6.Sys
