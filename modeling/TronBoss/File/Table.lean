import TronBoss.File.UserBuffer

/-!
# The file table

`ftable` of `file.c` with the descriptors of the processes and the pipes behind the files: the routines
that create and drop references to a `struct file`, on all their paths. They are written once for any
inodes behind the files, so that they can be used with the file system and without it. The page that
`kalloc` gives to `pipealloc` is an argument of the call, as is its failure.
-/

namespace TronBoss.Fs

open Lib Function
open File (FdType Pipe)

/-- What the file table asks of the inodes behind the files. -/
class Inodes (σ : Type) where
  /-- `begin_op(); iput(ip); end_op();` -/
  release : Fin NINODE → Routine σ Unit
  /-- `iunlock(ip); end_op();`, when `open` has a file for the inode. -/
  opened : Fin NINODE → Routine σ Unit
  /-- `iunlockput(ip); end_op();`, when it has none. -/
  unopened : Fin NINODE → Routine σ Unit
  /-- `idup(ip)`. -/
  retain : Fin NINODE → Routine σ (Fin NINODE)

/-- `struct file`. -/
structure File where
  type : FdType
  ref : Int
  readable : Bool
  writable : Bool
  pipe : UInt32
  ip : Fin NINODE
  off : UInt32

/-- The fields of `struct proc` that refer to files. A slot without a running process has no
`cwd`. -/
structure ProcFiles where
  cwd : Option (Fin NINODE)
  ofile : Fin NOFILE → Option (Fin NFILE)

/-- The file system, `ftable.file`, the processes, and the pages as pipes. `allocs` and `frees` count how
often a page was made a pipe and how often it was given to `kfree`. -/
structure Kernel (σ : Type) where
  fs : σ
  file : Fin NFILE → File
  proc : Fin NPROC → ProcFiles
  pipe : UInt32 → Pipe
  allocs : UInt32 → Nat
  frees : UInt32 → Nat
  initproc : Fin NPROC

/-- A routine that works on files. -/
abbrev SysM (σ : Type) : Type → Type := Routine (Kernel σ)

/-- The zeroed table with the first process, in the root directory. -/
def Kernel.start {σ : Type} (fs : σ) (pipe : UInt32 → Pipe) (initproc : Fin NPROC) : Kernel σ where
  fs := fs
  file _ := {
    type := .none, ref := 0, readable := false, writable := false, pipe := 0, ip := rootEntry, off := 0 }
  proc p := { cwd := if p = initproc then some rootEntry else none, ofile _ := none }
  pipe := pipe
  allocs _ := 0
  frees _ := 0
  initproc := initproc

section
variable {σ : Type}

/-- A routine of the file system, run by the kernel. -/
def liftFs {α : Type} (m : Routine σ α) : SysM σ α := zoom Kernel.fs (fun k fs => { k with fs }) m

/-- An assignment to fields of a file. -/
def modifyFile (f : Fin NFILE) (g : File → File) : SysM σ Unit :=
  modify fun k => { k with file := update k.file f (g (k.file f)) }

/-- An assignment to fields of a process. -/
def modifyProc (p : Fin NPROC) (g : ProcFiles → ProcFiles) : SysM σ Unit :=
  modify fun k => { k with proc := update k.proc p (g (k.proc p)) }

/-- `p->ofile[fd] = f`. -/
def setDesc (p : Fin NPROC) (fd : Fin NOFILE) (f : Option (Fin NFILE)) : SysM σ Unit :=
  modifyProc p fun q => { q with ofile := update q.ofile fd f }

/-- `proc->cwd`, of a process that runs. -/
def cwdOf (p : Fin NPROC) : SysM σ (Fin NINODE) := do
  match ((← get).proc p).cwd with
  | some e => return e
  | none => throw .disabled

/-! ## Files and pipes -/

def filealloc : SysM σ (Option (Fin NFILE)) := do
  let k ← get
  match (List.finRange NFILE).find? fun f => (k.file f).ref = 0 with
  | some f =>
    modifyFile f fun x => { x with ref := 1 }
    return some f
  | none => return none

def filedup (f : Fin NFILE) : SysM σ Unit := do
  let x := (← get).file f
  panicIf (x.ref < 1) "filedup"
  modifyFile f fun x => { x with ref := x.ref + 1 }

/-- `pipeclose`, which frees the page when both ends are closed. -/
def pipeclose (a : UInt32) (writable : Bool) : SysM σ Unit := do
  modify fun k => { k with pipe := update k.pipe a (File.pipeclose writable (k.pipe a)) }
  let p := (← get).pipe a
  if p.readopen = false ∧ p.writeopen = false then
    modify fun k => { k with frees := update k.frees a (k.frees a + 1) }
  else pure ()

/-- The end of `pipealloc`: the page becomes a pipe, and the files its ends. -/
def pipeinit (f0 f1 : Fin NFILE) (a : UInt32) : SysM σ Unit := do
  modify fun k => { k with
    pipe := update k.pipe a (File.pipealloc (k.pipe a).data)
    allocs := update k.allocs a (k.allocs a + 1) }
  modifyFile f0 fun x => { x with type := .pipe, readable := true, writable := false, pipe := a }
  modifyFile f1 fun x => { x with type := .pipe, readable := false, writable := true, pipe := a }

/-- `argfd`, of a fetched argument. -/
def argfd (p : Fin NPROC) (fd : Int) : SysM σ (Option (Fin NOFILE × Fin NFILE)) := do
  let q := (← get).proc p
  return if h : fd.toNat < NOFILE then
    if 0 ≤ fd then (q.ofile ⟨fd.toNat, h⟩).map fun f => (⟨fd.toNat, h⟩, f) else none
  else none

def fdalloc (p : Fin NPROC) (f : Fin NFILE) : SysM σ (Option (Fin NOFILE)) := do
  let q := (← get).proc p
  match (List.finRange NOFILE).find? fun fd => (q.ofile fd).isNone with
  | some fd =>
    setDesc p fd (some f)
    return some fd
  | none => return none

/-- A call on an open file: `-1` without one, or when another argument could not be fetched. -/
def onFile {γ : Type} (p : Fin NPROC) (fd : Int) (arg : Option γ)
    (m : Fin NOFILE → Fin NFILE → γ → SysM σ Int) : SysM σ Int := do
  match ← argfd p fd with
  | none => return -1
  | some (fd, f) =>
    match arg with
    | none => return -1
    | some a => m fd f a

def sysDup (p : Fin NPROC) (fd : Int) : SysM σ Int :=
  onFile p fd (some ()) fun _ f _ => do
    match ← fdalloc p f with
    | none => return -1
    | some fd =>
      filedup f
      return fd.val

/-- The loop of `fork` over the open files. -/
def forkFiles (p np : Fin NPROC) : SysM σ Unit :=
  (List.finRange NOFILE).forM fun fd => do
    match ((← get).proc p).ofile fd with
    | some f =>
      filedup f
      setDesc np fd (some f)
    | none => pure ()

/-! ## Calls that reach the inodes -/

variable [Inodes σ]

/-- What `fileclose` does with what was behind a file. -/
def fileput (ff : File) : SysM σ Unit :=
  match ff.type with
  | .pipe => pipeclose ff.pipe ff.writable
  | .inode => liftFs (Inodes.release ff.ip)
  | .none => pure ()

def fileclose (f : Fin NFILE) : SysM σ Unit := do
  let ff := (← get).file f
  panicIf (ff.ref < 1) "fileclose"
  if 0 < ff.ref - 1 then modifyFile f fun x => { x with ref := x.ref - 1 }
  else
    modifyFile f fun x => { x with ref := 0, type := .none }
    fileput ff

def sysClose (p : Fin NPROC) (fd : Int) : SysM σ Int :=
  onFile p fd (some ()) fun fd f _ => do
    setDesc p fd none
    fileclose f
    return 0

/-- The part of `sys_open` that makes a descriptor for the locked inode. -/
def openFile (p : Fin NPROC) (ip : Fin NINODE) (omode : UInt32) : SysM σ Int := do
  match ← filealloc with
  | none =>
    liftFs (Inodes.unopened ip)
    return -1
  | some f =>
    match ← fdalloc p f with
    | none =>
      fileclose f
      liftFs (Inodes.unopened ip)
      return -1
    | some fd =>
      liftFs (Inodes.opened ip)
      modifyFile f fun x => { x with
        type := .inode, ip, off := 0, readable := omode &&& O_WRONLY = 0,
        writable := omode &&& O_WRONLY ≠ 0 ∨ omode &&& O_RDWR ≠ 0 }
      return fd.val

/-- `pipealloc`, with what `kalloc` returns. A page that is a pipe is not free. -/
def pipealloc (page : Option UInt32) : SysM σ (Option (Fin NFILE × Fin NFILE)) := do
  match ← filealloc with
  | none => return none
  | some f0 =>
    match ← filealloc with
    | none =>
      fileclose f0
      return none
    | some f1 =>
      match page with
      | none =>
        fileclose f0
        fileclose f1
        return none
      | some a =>
        let k ← get
        require (k.allocs a = k.frees a)
        pipeinit f0 f1 a
        return some (f0, f1)

/-- `sys_pipe`, after the check of its argument. -/
def sysPipe (p : Fin NPROC) (page : Option UInt32) : SysM σ Int := do
  match ← pipealloc page with
  | none => return -1
  | some (rf, wf) =>
    match ← fdalloc p rf with
    | none =>
      fileclose rf
      fileclose wf
      return -1
    | some fd0 =>
      match ← fdalloc p wf with
      | none =>
        setDesc p fd0 none
        fileclose rf
        fileclose wf
        return -1
      | some _ => return 0

/-- `fork` into the slot that `allocproc` found, which has no process. -/
def fork (p np : Fin NPROC) : SysM σ Int := do
  let cwd ← cwdOf p
  let q := (← get).proc np
  require (q.cwd = none)
  forkFiles p np
  let cwd ← liftFs (Inodes.retain cwd)
  modifyProc np fun q => { q with cwd := some cwd }
  return 0

/-- The loop of `exit` over the open files. -/
def exitFiles (p : Fin NPROC) : SysM σ Unit :=
  (List.finRange NOFILE).forM fun fd => do
    match ((← get).proc p).ofile fd with
    | some f =>
      fileclose f
      setDesc p fd none
    | none => pure ()

def exit (p : Fin NPROC) : SysM σ Int := do
  let k ← get
  panicIf (p = k.initproc) "init exiting"
  let cwd ← cwdOf p
  exitFiles p
  liftFs (Inodes.release cwd)
  modifyProc p fun q => { q with cwd := none }
  return 0

end

end TronBoss.Fs
