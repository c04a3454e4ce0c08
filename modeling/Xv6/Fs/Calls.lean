import Xv6.Fs.Model

/-!
# xv6 — the file-system side of system calls (`kernel/sysfile.c`)

What `link`, `unlink`, `open`, `mkdir` and `mknod` do once their arguments are fetched, as programs
over the same state as `fs.c`: the parts of these calls that touch neither the file table nor a process.
-/

namespace Xv6.Fs

open ByteBuf Hoare

/-- Create the path `new` as a link to the same inode as `old`. -/
def link (cwd : Nat) (old new : List UInt8) : M Int := do
  match ← namei cwd old with
  | none => return -1
  | some ip =>
    ilock ip
    if (← inode ip).din.type = T_DIR then
      iunlockput ip
      return -1
    else
      setDin ip fun di => { di with nlink := di.nlink + 1 }
      iupdate ip
      iunlock ip
      let (dp?, name) ← nameiparent cwd new
      let linked ← match dp? with
        | none => pure false
        | some dp =>
          ilock dp
          if (← inode dp).dev ≠ (← inode ip).dev then
            iunlockput dp
            pure false
          else if ← dirlink dp name (← inode ip).inum then
            iunlockput dp
            pure true
          else
            iunlockput dp
            pure false
      if linked then
        iput ip
        return 0
      else
        -- bad:
        ilock ip
        setDin ip fun di => { di with nlink := di.nlink - 1 }
        iupdate ip
        iunlockput ip
        return -1

/-- Is the directory `dp` empty except for "." and ".." ? -/
def isdirempty (dp : Nat) : M Bool := do
  return (← scan dp .isdiremptyReadi (fun de => de.inum ≠ 0) 32).2.isNone

/-- `"."` -/
def dot : List UInt8 := [46]

/-- `".."` -/
def dotdot : List UInt8 := [46, 46]

def unlink (cwd : Nat) (path : List UInt8) : M Int := do
  let (dp?, name) ← nameiparent cwd path
  match dp? with
  | none => return -1
  | some dp =>
    ilock dp
    -- Cannot unlink "." or "..".
    if namecmp name dot = 0 ∨ namecmp name dotdot = 0 then
      iunlockput dp
      return -1
    else match ← dirlookup dp name with
      | none =>
        iunlockput dp
        return -1
      | some (ip, off) =>
        ilock ip
        when ((← inode ip).din.nlink.toInt < 1) (throw .unlinkNlink)
        let type := (← inode ip).din.type
        let busy ← if type = T_DIR then (! ·) <$> isdirempty ip else pure false
        if busy then
          iunlockput ip
          iunlockput dp
          return -1
        else
          when ((← writei dp (ofList (List.replicate 16 0)) off 16) ≠ some 16)
            (throw .unlinkWritei)
          when (type = T_DIR) do
            setDin dp fun di => { di with nlink := di.nlink - 1 }
            iupdate dp
          iunlockput dp
          setDin ip fun di => { di with nlink := di.nlink - 1 }
          iupdate ip
          iunlockput ip
          return 0

/-- Find or make the inode for `path`; returns it locked. -/
def create (cwd : Nat) (path : List UInt8) (type major minor : BitVec 16) : M (Option Nat) := do
  let (dp?, name) ← nameiparent cwd path
  match dp? with
  | none => return none
  | some dp =>
    ilock dp
    match ← dirlookup dp name with
    | some (ip, _) =>
      iunlockput dp
      ilock ip
      let found := (← inode ip).din.type
      if type = T_FILE ∧ (found = T_FILE ∨ found = T_DEVICE) then return some ip
      else
        iunlockput ip
        return none
    | none =>
      let ip ← ialloc (← inode dp).dev type
      ilock ip
      setDin ip fun di => { di with major := major, minor := minor, nlink := 1 }
      iupdate ip
      when (type = T_DIR) do
        -- Create . and .. entries.
        setDin dp fun di => { di with nlink := di.nlink + 1 }
        iupdate dp
        when (!(← dirlink ip dot (← inode ip).inum)) (throw .createDots)
        when (!(← dirlink ip dotdot (← inode dp).inum)) (throw .createDots)
      when (!(← dirlink dp name (← inode ip).inum)) (throw .createDirlink)
      iunlockput dp
      return some ip

def O_WRONLY : BitVec 32 := 0x001
def O_RDWR : BitVec 32 := 0x002
def O_CREATE : BitVec 32 := 0x200
def O_TRUNC : BitVec 32 := 0x400

/-- The inode `sys_open` finds or makes for `path`, locked. -/
def openPath (cwd : Nat) (path : List UInt8) (omode : BitVec 32) : M (Option Nat) := do
  if omode &&& O_CREATE ≠ 0 then create cwd path T_FILE 0 0
  else match ← namei cwd path with
    | none => return none
    | some ip =>
      ilock ip
      if (← inode ip).din.type = T_DIR ∧ omode ≠ 0 then
        iunlockput ip
        return none
      else return some ip

/-- The same, after the check of a device's number. -/
def openInode (cwd : Nat) (path : List UInt8) (omode : BitVec 32) : M (Option Nat) := do
  match ← openPath cwd path omode with
  | none => return none
  | some ip =>
    let din := (← inode ip).din
    if din.type = T_DEVICE ∧ (din.major.toInt < 0 ∨ NDEV ≤ din.major.toInt) then
      iunlockput ip
      return none
    else return some ip

/-- `sys_mkdir` and `sys_mknod` after their arguments are fetched. -/
def make (cwd : Nat) (path : List UInt8) (type major minor : BitVec 16) : M Int := do
  match ← create cwd path type major minor with
  | none => return -1
  | some ip =>
    iunlockput ip
    return 0

end Xv6.Fs
