import Mathlib.Data.Fintype.Card
import TronBoss.File.Table
import TronBoss.Vm.Elf

/-!
# The file-system calls

The rest of `file.c` and `sysfile.c`, and `exec`, over the same layers as `fs.c`, with every `begin_op`
and `end_op` where the source has it, on each of the paths that return. An argument that could not be
fetched is `none`. What lies outside of the file system is told to a call: what a pipe returns, the
page that `kalloc` has, and to `exec` what becomes of the new memory.
-/

namespace TronBoss.Fs

open Lib Function
open Vm (Elfhdr Proghdr)

/-! ## `exec` -/

/-- The fields `uid` and `gid` of `struct proc`. -/
structure Cred where
  uid : UInt32
  gid : UInt32
  deriving DecidableEq, Repr

/-- The flags of `stat_mode_t`, by the number of their bit. -/
def Stat.flag (st : Stat) (bit : Nat) : Bool := st.mode.toNat.testBit bit

/-- The permission check of `exec`: `u_x`, `g_x` or `o_x`, by who runs the file. -/
def execAllowed (st : Stat) (c : Cred) : Bool :=
  if st.uid.toUInt32 = c.uid then st.flag 6
  else if st.gid.toUInt32 = c.gid then st.flag 3
  else st.flag 0

/-- `sizeof(struct elfhdr)`. -/
def elfhdrSize : Nat := 52

def ELF_MAGIC : Nat := 0x464C457F

/-- What `exec` finds outside of the file system: the ids of the process, the bytes of `elf` when
the read of the header failed, whether `setupkvm` had memory, the results of `allocuvm`, the
addresses that `walkpgdir` finds a page table for, and whether all went well after the segments. -/
structure ExecEnv where
  cred : Cred
  stack : List UInt8
  setupkvm : Bool
  allocuvm : Nat → UInt32 → UInt32 → UInt32
  mapped : UInt32 → Bool
  finish : Bool

section
variable {σ : Type} [Layers σ] [Devices σ]

/-- The loop of `loaduvm` from `i` on: whether all was read. -/
def loaduvmLoop (env : ExecEnv) (ip : Fin NINODE) (addr offset sz : UInt32) :
    Nat → UInt32 → Routine σ Bool
  | 0, _ => throw .diverge
  | k + 1, i =>
    if i < sz then do
      panicIf (env.mapped (addr + i) = false) "loaduvm: address should exist"
      let n := if sz - i < Vm.PGSIZE then sz - i else Vm.PGSIZE
      match ← readi ip (offset + i).toNat n.toNat with
      | none => return false
      | some bs =>
        if bs.length = n.toNat then loaduvmLoop env ip addr offset sz k (i + Vm.PGSIZE)
        else return false
    else return true

/-- `loaduvm`. The turns are as many as there are pages, and one. -/
def loaduvm (env : ExecEnv) (ip : Fin NINODE) (addr offset sz : UInt32) : Routine σ Bool := do
  panicIf (addr % Vm.PGSIZE ≠ 0) "loaduvm: addr must be page aligned"
  loaduvmLoop env ip addr offset sz (2 ^ 20 + 1) 0

/-- The loop of `exec` over the program headers: the size of the image, or `none` for `goto bad`. -/
def execSegments (env : ExecEnv) (ip : Fin NINODE) :
    Nat → Nat → UInt32 → UInt32 → Routine σ (Option UInt32)
  | 0, _, _, sz => return some sz
  | k + 1, i, off, sz => do
    match ← readi ip off.toNat Vm.proghdrSize with
    | none => return none
    | some bs =>
      let ph := Proghdr.decode bs
      if bs.length ≠ Vm.proghdrSize then return none
      else if ph.type ≠ Vm.ELF_PROG_LOAD then
        execSegments env ip k (i + 1) (off + UInt32.ofNat Vm.proghdrSize) sz
      else if ph.memsz < ph.filesz then return none
      else
        let sz := env.allocuvm i sz (ph.vaddr + ph.memsz)
        if sz = 0 then return none
        else
          let ok ← loaduvm env ip ph.vaddr ph.off ph.filesz
          if ok then execSegments env ip k (i + 1) (off + UInt32.ofNat Vm.proghdrSize) sz
          else return none

/-- The header that `exec` goes on with. A read that fails returns `-1`, which is not less than
`sizeof(elf)` as an unsigned number. -/
def execHeader (env : ExecEnv) (ip : Fin NINODE) : Routine σ (Option Elfhdr) := do
  match ← readi ip 0 elfhdrSize with
  | none => return some (.decode env.stack)
  | some bs => return if bs.length < elfhdrSize then none else some (.decode bs)

/-- The segments of the image, or `none` for `goto bad`. -/
def execLoad (env : ExecEnv) (ip : Fin NINODE) : Routine σ (Option UInt32) := do
  match ← execHeader env ip with
  | none => return none
  | some elf =>
    if elf.magic.toNat ≠ ELF_MAGIC then return none
    else if env.setupkvm = false then return none
    else execSegments env ip elf.phnum.toNat 0 elf.phoff 0

/-- The end of `exec` after the label `bad`, while the inode is locked. -/
def execBad (ip : Fin NINODE) : Routine σ Int := do
  iunlockput ip
  endOp
  return -1

def exec (cwd : Fin NINODE) (path : List UInt8) (env : ExecEnv) : Routine σ Int := do
  beginOp
  match ← namei cwd path with
  | none =>
    endOp
    return -1
  | some ip =>
    ilock ip
    let st ← stati ip
    if execAllowed st env.cred then
      match ← execLoad env ip with
      | none => execBad ip
      | some _ =>
        iunlockput ip
        endOp
        return if env.finish then 0 else -1
    else execBad ip

end

/-! ## Files -/

section
variable {σ : Type} [Layers σ] [Devices σ]

/-- The inodes of the file system, with the transactions around their use. -/
instance : Inodes σ where
  release ip := do
    beginOp
    iput ip
    endOp
  opened ip := do
    iunlock ip
    endOp
  unopened ip := do
    iunlockput ip
    endOp
  retain := idup

def filestat (f : Fin NFILE) : SysM σ (Option Stat) := do
  let x := (← get).file f
  if x.type = .inode then
    liftFs (ilock x.ip)
    let st ← liftFs (stati x.ip)
    liftFs (iunlock x.ip)
    return some st
  else return none

/-- `if(r > 0) f->off += r;` -/
def advance (f : Fin NFILE) (r : Int) : SysM σ Unit :=
  if 0 < r then modifyFile f fun x => { x with off := x.off + UInt32.ofNat r.toNat } else pure ()

/-- What `readi` returns: the number of bytes, or `-1`. -/
def readCount : Option (List UInt8) → Int
  | none => -1
  | some bs => bs.length

/-- `fileread`, with what a pipe would return. -/
def fileread (f : Fin NFILE) (n : UInt32) (piperead : Int) : SysM σ Int := do
  let x := (← get).file f
  if x.readable = false then return -1
  else
    match x.type with
    | .pipe => return piperead
    | .inode =>
      liftFs (ilock x.ip)
      let r ← liftFs (readi x.ip x.off.toNat n.toNat)
      advance f (readCount r)
      liftFs (iunlock x.ip)
      return readCount r
    | .none => throw (.panic "fileread")

/-- The most bytes that `filewrite` writes in a transaction. -/
def writeMax : Nat := (LOGSIZE - 1 - 1 - 2) / 2 * 512

/-- A turn of the loop of `filewrite`: what `writei` returned. -/
def filewriteChunk (f : Fin NFILE) (src : List UInt8) : SysM σ Int := do
  liftFs beginOp
  let x := (← get).file f
  liftFs (ilock x.ip)
  let r ← liftFs (writei x.ip src x.off.toNat)
  advance f r
  liftFs (iunlock x.ip)
  liftFs endOp
  return r

/-- The loop of `filewrite`, with the bytes `src` to go: whether it got through. -/
def filewriteLoop (f : Fin NFILE) : Nat → List UInt8 → SysM σ Bool
  | _, [] => return true
  | 0, _ :: _ => throw .diverge
  | k + 1, src@(_ :: _) => do
    let r ← filewriteChunk f (src.take writeMax)
    if r < 0 then return false
    else
      panicIf (r ≠ (src.take writeMax).length) "short filewrite"
      filewriteLoop f k (src.drop writeMax)

/-- `filewrite` of `n` bytes, of which there are none when `n` is negative. -/
def filewrite (f : Fin NFILE) (n : Int) (src : List UInt8) (pipewrite : Int) : SysM σ Int := do
  let x := (← get).file f
  if x.writable = false then return -1
  else
    match x.type with
    | .pipe => return pipewrite
    | .inode =>
      let done ← filewriteLoop f src.length src
      return if done ∧ n = src.length then n else -1
    | .none => throw (.panic "filewrite")

/-! ## Calls -/

/-- `sys_read`, with the number of bytes when the user's buffer passed `argptr`. -/
def sysRead (p : Fin NPROC) (fd : Int) (n : Option UInt32) (piperead : Int) : SysM σ Int :=
  onFile p fd n fun _ f n => fileread f n piperead

/-- `sys_write`, with the number and the bytes when the user's buffer passed `argptr`. -/
def sysWrite (p : Fin NPROC) (fd : Int) (buf : Option (Int × List UInt8)) (pipewrite : Int) :
    SysM σ Int :=
  onFile p fd buf fun _ f buf => filewrite f buf.1 buf.2 pipewrite

/-- `sys_fstat`, with whether the user's buffer passed `argptr`. -/
def sysFstat (p : Fin NPROC) (fd : Int) (st : Option Unit) : SysM σ Int :=
  onFile p fd st fun _ f _ => do
    match ← filestat f with
    | none => return -1
    | some _ => return 0

def sysOpen (p : Fin NPROC) (path : List UInt8) (omode : UInt32) : SysM σ Int := do
  let cwd ← cwdOf p
  liftFs beginOp
  match ← liftFs (openInode cwd path omode) with
  | none => return -1
  | some ip => openFile p ip omode

/-- `sys_chdir` to a path that was fetched. -/
def chdirTo (p : Fin NPROC) (cwd : Fin NINODE) (path : List UInt8) : SysM σ Int := do
  match ← liftFs (namei cwd path) with
  | none =>
    liftFs endOp
    return -1
  | some ip =>
    liftFs (ilock ip)
    let x := (← liftFs fsState).icache ip
    if x.type ≠ T_DIR then
      liftFs (iunlockput ip)
      liftFs endOp
      return -1
    else
      liftFs (iunlock ip)
      liftFs (iput cwd)
      liftFs endOp
      modifyProc p fun q => { q with cwd := some ip }
      return 0

def sysChdir (p : Fin NPROC) (path : Option (List UInt8)) : SysM σ Int := do
  let cwd ← cwdOf p
  liftFs beginOp
  match path with
  | none =>
    liftFs endOp
    return -1
  | some path => chdirTo p cwd path

end

/-! ## Runs -/

/-- A call, with its arguments as fetched. `pipe` and `fork` fail with `none` before they touch a
file. -/
inductive Call where
  | open (path : Option (List UInt8)) (omode : UInt32)
  | close (fd : Int)
  | read (fd : Int) (n : Option UInt32) (piperead : Int)
  | write (fd : Int) (buf : Option (Int × List UInt8)) (pipewrite : Int)
  | fstat (fd : Int) (st : Option Unit)
  | link (old new : Option (List UInt8))
  | unlink (path : Option (List UInt8))
  | mkdir (path : Option (List UInt8))
  | mknod (args : Option (List UInt8 × Int16 × Int16))
  | chdir (path : Option (List UInt8))
  | exec (path : Option (List UInt8)) (env : ExecEnv)
  | exit
  | chmod (path : Option (List UInt8)) (mode : UInt32)
  | chown (path : Option (List UInt8)) (owner : UInt16)
  | chgrp (path : Option (List UInt8)) (group : UInt16)
  | dup (fd : Int)
  | pipe (page : Option (Option UInt32))
  | fork (np : Option (Fin NPROC))

section
variable {σ : Type} [Layers σ] [Devices σ]

/-- A call on a path that is fetched before anything else: `-1` when it could not be. -/
def onPath (p : Fin NPROC) (path : Option (List UInt8))
    (f : Fin NINODE → List UInt8 → Routine σ Int) : SysM σ Int := do
  match path with
  | none => return -1
  | some path =>
    let cwd ← cwdOf p
    liftFs (f cwd path)

/-- A call of a process with its `cwd`. -/
def withCwd (p : Fin NPROC) (f : Fin NINODE → Routine σ Int) : SysM σ Int := do
  let cwd ← cwdOf p
  liftFs (f cwd)

/-- The call, made by the process `p`. -/
def Call.run (p : Fin NPROC) : Call → SysM σ Int
  | .open none _ => return -1
  | .open (some path) omode => sysOpen p path omode
  | .close fd => sysClose p fd
  | .read fd n r => sysRead p fd n r
  | .write fd buf r => sysWrite p fd buf r
  | .fstat fd st => sysFstat p fd st
  | .link none _ => return -1
  | .link (some old) new => onPath p new fun cwd new => sysLink cwd old new
  | .unlink path => onPath p path sysUnlink
  | .mkdir path => withCwd p fun cwd => sysMkdir cwd path
  | .mknod args => withCwd p fun cwd => sysMknod cwd args
  | .chdir path => sysChdir p path
  | .exec path env => onPath p path fun cwd path => Fs.exec cwd path env
  | .exit => Fs.exit p
  | .chmod path mode => onPath p path fun cwd path => Fs.chmod cwd path mode
  | .chown path owner => onPath p path fun cwd path => Fs.chown cwd path owner
  | .chgrp path group => onPath p path fun cwd path => Fs.chgrp cwd path group
  | .dup fd => sysDup p fd
  | .pipe none => return -1
  | .pipe (some page) => sysPipe p page
  | .fork none => return -1
  | .fork (some np) => Fs.fork p np

/-- The slot of the first process. -/
def firstSlot : Fin NPROC := ⟨0, NPROC_pos⟩

/-- The kernel after `userinit`: the only reference to an inode is the `cwd` of the first process,
the root directory. -/
def userinit (disk : Nat → Block) (console : Nat → Option (List UInt8)) (initproc : Fin NPROC) :
    Kernel State :=
  .start ((iinit disk console).setInode rootEntry
    { Dinode.zero with inum := ROOTINO, ref := 1, busy := false, valid := false })
    (fun _ => File.freePage) initproc

/-- A call that has been completed: who made it, and what it returned. -/
structure Step where
  p : Fin NPROC
  call : Call
  ret : Int

/-- A call of `chmod`, `chown` or `chgrp` that succeeded. -/
def Step.Leaks (st : Step) : Prop :=
  match st.call with
  | .chmod .. => st.ret = 0
  | .chown .. => st.ret = 0
  | .chgrp .. => st.ret = 0
  | _ => False

/-- The kernel gets from `k₀` to a state by completed calls, in any order and by any processes. -/
inductive Run (k₀ : Kernel σ) : List Step → Kernel σ → Prop where
  | init : Run k₀ [] k₀
  | step {steps : List Step} {k k' : Kernel σ} {p : Fin NPROC} {call : Call} {ret : Int} :
    Run k₀ steps k → call.run p k = .ok (ret, k') → Run k₀ (steps ++ [⟨p, call, ret⟩]) k'

/-! ## References to inodes -/

/-- The inode that a file in use refers to. -/
def File.inode? (x : File) : Option (Fin NINODE) :=
  if 0 < x.ref ∧ x.type = .inode then some x.ip else none

/-- The number of files in use that refer to an inode. -/
def Kernel.files (k : Kernel σ) (e : Fin NINODE) : Nat :=
  (Finset.univ.filter fun f => (k.file f).inode? = some e).card

/-- The number of processes whose `cwd` is an inode. -/
def Kernel.cwds (k : Kernel σ) (e : Fin NINODE) : Nat :=
  (Finset.univ.filter fun p => (k.proc p).cwd = some e).card

end

end TronBoss.Fs
