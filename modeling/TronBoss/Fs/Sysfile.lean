import TronBoss.Fs.Fs
import TronBoss.Proc.Table

/-!
# Files and the file-system calls

`file.c` and `sysfile.c`, with the parts of `fork`, `exit` and `exec` that touch files and inodes,
and `chmod`, `chown`, `chgrp` of `fs.c`. A call takes its arguments as fetched from user memory; an
argument that could not be fetched is `none`. Pipes are left out: no call here makes one.
-/

namespace TronBoss.Fs

open Lib Function

/-- `NFILE` of `param.h`. -/
def NFILE : Nat := 100

/-- `NOFILE` of `param.h`. -/
def NOFILE : Nat := 16

/-- `O_RDONLY` of `fcntl.h`. -/
def O_RDONLY : UInt32 := 0x000

/-- `O_WRONLY` of `fcntl.h`. -/
def O_WRONLY : UInt32 := 0x001

/-- `O_RDWR` of `fcntl.h`. -/
def O_RDWR : UInt32 := 0x002

/-- `O_CREATE` of `fcntl.h`. -/
def O_CREATE : UInt32 := 0x200

/-- `DEFAULT_UID` of `param.h`. -/
def DEFAULT_UID : UInt16 := 0

/-- `DEFAULT_GID` of `param.h`. -/
def DEFAULT_GID : UInt16 := 0

/-- `DEFAULT_MODE` of `param.h`, octal 755. -/
def DEFAULT_MODE : UInt32 := 0x1ed

/-! ## Calls that work on inodes only -/

/-- The name of a directory itself. -/
def dot : List UInt8 := [46]

/-- The name of the parent directory. -/
def dotdot : List UInt8 := [46, 46]

section
variable {σ : Type} [Layers σ] [Devices σ]

/-- The end of `sys_link` after the label `bad`. -/
def linkBad (ip : Fin NINODE) : Routine σ Int := do
  ilock ip
  updateInode ip fun x => { x with nlink := x.nlink - 1 }
  iunlockput ip
  endOp
  return -1

/-- `sys_link` in the directory that the new name goes into. -/
def linkEntry (dp ip : Fin NINODE) (inum : Nat) (name : List UInt8) : Routine σ Int := do
  ilock dp
  let r ← dirlink dp name inum
  if r < 0 then
    iunlockput dp
    linkBad ip
  else
    iunlockput dp
    iput ip
    endOp
    return 0

/-- `sys_link` from the new path on. -/
def linkNew (cwd ip : Fin NINODE) (inum : Nat) (new : List UInt8) : Routine σ Int := do
  match ← nameiparent cwd new with
  | none => linkBad ip
  | some (dp, name) => linkEntry dp ip inum name

def sysLink (cwd : Fin NINODE) (old new : List UInt8) : Routine σ Int := do
  beginOp
  match ← namei cwd old with
  | none =>
    endOp
    return -1
  | some ip =>
    ilock ip
    let x := (← fsState).icache ip
    if x.type = T_DIR then
      iunlockput ip
      endOp
      return -1
    else
      updateInode ip fun x => { x with nlink := x.nlink + 1 }
      iunlock ip
      linkNew cwd ip x.inum new

/-- The loop of `isdirempty`, from an offset on. -/
def isdiremptyFrom (dp : Fin NINODE) : Nat → Nat → Routine σ Bool
  | 0, _ => throw .diverge
  | k + 1, off => do
    let size := ((← fsState).icache dp).size.toNat
    if off < size then
      let de ← readDirent dp off "isdirempty: readi"
      if de.inum ≠ 0 then return false else isdiremptyFrom dp k (off + direntSize)
    else return true

def isdirempty (dp : Fin NINODE) : Routine σ Bool := do
  let size := ((← fsState).icache dp).size.toNat
  isdiremptyFrom dp (size / direntSize + 2) (2 * direntSize)

/-- The test of `sys_unlink`: a directory has to be empty. -/
def unlinkable (ip : Fin NINODE) (type : Int16) : Routine σ Bool :=
  if type = T_DIR then isdirempty ip else return true

/-- What `sys_unlink` does to the directory it takes the entry out of. -/
def unlinkParent (dp : Fin NINODE) (type : Int16) : Routine σ Unit :=
  if type = T_DIR then updateInode dp fun x => { x with nlink := x.nlink - 1 } else pure ()

/-- The end of `sys_unlink` after the label `bad`. -/
def unlinkBad (dp : Fin NINODE) : Routine σ Int := do
  iunlockput dp
  endOp
  return -1

/-- `sys_unlink` from the inode found under the name on. -/
def unlinkFound (dp ip : Fin NINODE) (off : Nat) : Routine σ Int := do
  ilock ip
  let x := (← fsState).icache ip
  panicIf (x.nlink < 1) "unlink: nlink < 1"
  let ok ← unlinkable ip x.type
  if ok = false then
    iunlockput ip
    unlinkBad dp
  else
    let de : Dirent := { inum := 0, name := List.replicate DIRSIZ 0 }
    let r ← writei dp de.encode off
    panicIf (r ≠ direntSize) "unlink: writei"
    unlinkParent dp x.type
    iunlockput dp
    updateInode ip fun x => { x with nlink := x.nlink - 1 }
    iunlockput ip
    endOp
    return 0

def sysUnlink (cwd : Fin NINODE) (path : List UInt8) : Routine σ Int := do
  beginOp
  match ← nameiparent cwd path with
  | none =>
    endOp
    return -1
  | some (dp, name) =>
    ilock dp
    if namecmp name dot = 0 ∨ namecmp name dotdot = 0 then unlinkBad dp
    else
      match ← dirlookup dp name with
      | none => unlinkBad dp
      | some (off, ip) => unlinkFound dp ip off

/-- What `create` does for a directory: the entries `.` and `..`. -/
def createDots (dp ip : Fin NINODE) (type : Int16) : Routine σ Unit := do
  if type = T_DIR then
    updateInode dp fun x => { x with nlink := x.nlink + 1 }
    let s ← fsState
    let r ← dirlink ip dot (s.icache ip).inum
    panicIf (r < 0) "create dots"
    let r ← dirlink ip dotdot (s.icache dp).inum
    panicIf (r < 0) "create dots"
  else pure ()

/-- `create` of a name that the directory does not have. -/
def createNew (dp : Fin NINODE) (name : List UInt8) (type major minor : Int16) :
    Routine σ (Fin NINODE) := do
  let ip ← ialloc type
  ilock ip
  updateInode ip fun x => { x with
    major, minor, nlink := 1, uid := DEFAULT_UID, gid := DEFAULT_GID, mode := DEFAULT_MODE }
  createDots dp ip type
  let x := (← fsState).icache ip
  let r ← dirlink dp name x.inum
  panicIf (r < 0) "create: dirlink"
  iunlockput dp
  return ip

/-- `create`. The inode comes back locked. -/
def create (cwd : Fin NINODE) (path : List UInt8) (type major minor : Int16) :
    Routine σ (Option (Fin NINODE)) := do
  match ← nameiparent cwd path with
  | none => return none
  | some (dp, name) =>
    ilock dp
    match ← dirlookup dp name with
    | some (_, ip) =>
      iunlockput dp
      ilock ip
      let x := (← fsState).icache ip
      if type = T_FILE ∧ x.type = T_FILE then return some ip
      else
        iunlockput ip
        return none
    | none =>
      let ip ← createNew dp name type major minor
      return some ip

/-- The end of `sys_mkdir` and `sys_mknod`, once `begin_op` is done and the arguments are fetched. -/
def createPut (cwd : Fin NINODE) (path : List UInt8) (type major minor : Int16) : Routine σ Int := do
  match ← create cwd path type major minor with
  | none =>
    endOp
    return -1
  | some ip =>
    iunlockput ip
    endOp
    return 0

/-- `sys_mkdir`, which fetches its argument inside of the transaction. -/
def sysMkdir (cwd : Fin NINODE) (path : Option (List UInt8)) : Routine σ Int := do
  beginOp
  match path with
  | none =>
    endOp
    return -1
  | some path => createPut cwd path T_DIR 0 0

def sysMknod (cwd : Fin NINODE) (args : Option (List UInt8 × Int16 × Int16)) : Routine σ Int := do
  beginOp
  match args with
  | none =>
    endOp
    return -1
  | some (path, major, minor) => createPut cwd path T_DEV major minor

/-- `chmod`, `chown` and `chgrp`: change an inode named by a path. -/
def chattr (cwd : Fin NINODE) (path : List UInt8) (f : Inode → Inode) : Routine σ Int := do
  beginOp
  match ← namei cwd path with
  | some temp =>
    ilock temp
    updateInode temp f
    iunlock temp
    endOp
    return 0
  | none =>
    endOp
    return -1

def chmod (cwd : Fin NINODE) (path : List UInt8) (mode : UInt32) : Routine σ Int :=
  chattr cwd path fun ip => { ip with mode }

def chown (cwd : Fin NINODE) (path : List UInt8) (owner : UInt16) : Routine σ Int :=
  chattr cwd path fun ip => { ip with uid := owner }

def chgrp (cwd : Fin NINODE) (path : List UInt8) (group : UInt16) : Routine σ Int :=
  chattr cwd path fun ip => { ip with gid := group }

/-- The part of `sys_open` that finds the inode, which comes back locked. Where there is none, the
transaction is over. -/
def openInode (cwd : Fin NINODE) (path : List UInt8) (omode : UInt32) :
    Routine σ (Option (Fin NINODE)) := do
  if omode &&& O_CREATE ≠ 0 then
    match ← create cwd path T_FILE 0 0 with
    | none =>
      endOp
      return none
    | some ip => return some ip
  else
    match ← namei cwd path with
    | none =>
      endOp
      return none
    | some ip =>
      ilock ip
      let x := (← fsState).icache ip
      if x.type = T_DIR ∧ omode ≠ O_RDONLY then
        iunlockput ip
        endOp
        return none
      else return some ip

end

/-- The cache entry that `userinit` gets for the root directory. -/
def rootEntry : Fin NINODE := ⟨0, NINODE_pos⟩

/-- The file system after `iinit` on a disk, with nothing cached. -/
def iinit (disk : Nat → Block) (console : Nat → Option (List UInt8)) : State where
  disk := disk
  sb := .decode (disk 1)
  icache _ := { Dinode.zero with inum := 0, ref := 0, busy := false, valid := false }
  console := console
  log := []

end TronBoss.Fs
