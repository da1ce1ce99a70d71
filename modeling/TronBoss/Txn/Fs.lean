import TronBoss.Fs.Sysfile
import TronBoss.Log.Log

/-!
# The file system with its log, buffers and locks

The routines of `fs.c` and `sysfile.c` once more, over layers that `TronBoss.Fs` leaves out: the calls
of `log.c`, and the buffers that are taken with `bread` and given back with `brelse`. The logical disk
is the same. Next to it the state has `log.outstanding`, the buffers and inode locks that are held, and
what has been asked of the log so far. One process runs; a routine that would sleep does not return.
-/

namespace TronBoss.Txn

open Lib Fs

/-- What is asked of the log. -/
inductive LogOp where
  | beginOp
  | endOp
  | logWrite (blockno : Nat)
  deriving DecidableEq, Repr

/-- The file system with the header of the log, `log.outstanding`, the blocks of the buffers that are
`B_BUSY`, the inodes that are locked, and what has been asked of the log. -/
structure Sys where
  fs : Fs.State
  outstanding : Int
  bufs : List Nat
  locks : List (Fin NINODE)
  ops : List LogOp

abbrev TxM : Type → Type := Routine Sys

/-- What a routine does to the logical disk and the inode cache. -/
def onFs {α : Type} (m : FsM α) : TxM α := zoom Sys.fs (fun s fs => { s with fs }) m

/-! ## Buffers -/

/-- `bread`. A buffer that is busy would have to be waited for. -/
def bread (blockno : Nat) : TxM Block := do
  if blockno ∈ (← get).bufs then throw .diverge
  else
    let b ← onFs (Fs.bread blockno)
    modify fun s => { s with bufs := blockno :: s.bufs }
    return b

/-- `bwrite`, but for the data. -/
def bwrite (blockno : Nat) : TxM Unit := do
  panicIf (blockno ∉ (← get).bufs) "bwrite"

def brelse (blockno : Nat) : TxM Unit := do
  panicIf (blockno ∉ (← get).bufs) "brelse"
  modify fun s => { s with bufs := s.bufs.erase blockno }

/-! ## The log -/

def writeHead : TxM Unit := do
  let start := (← get).fs.sb.logstart
  let _ ← bread start
  bwrite start
  brelse start

def writeLog : TxM Unit := do
  let s ← get
  s.fs.log.zipIdx.forM fun (block, tail) => do
    let dst := s.fs.sb.logstart + tail + 1
    let _ ← bread dst
    let _ ← bread block
    bwrite dst
    brelse block
    brelse dst

def installTrans : TxM Unit := do
  let s ← get
  s.fs.log.zipIdx.forM fun (block, tail) => do
    let lbuf := s.fs.sb.logstart + tail + 1
    let _ ← bread lbuf
    let _ ← bread block
    bwrite block
    brelse lbuf
    brelse block

def commit : TxM Unit := do
  if 0 < (← get).fs.log.length then
    writeLog
    writeHead
    installTrans
    modify fun s => { s with fs := s.fs.commit }
    writeHead
  else pure ()

def beginOp : TxM Unit := do
  let s ← get
  if (LOGSIZE : Int) < s.fs.log.length + (s.outstanding + 1) * MAXOPBLOCKS then throw .diverge
  else
    modify fun s => { s with
      outstanding := s.outstanding + 1, ops := s.ops ++ [.beginOp] }

/-- `end_op`. Nobody else runs, so no commit is going on. -/
def endOp : TxM Unit := do
  modify fun s => { s with outstanding := s.outstanding - 1, ops := s.ops ++ [.endOp] }
  if (← get).outstanding = 0 then commit else pure ()

/-- The number of blocks that `log_write` takes into the log. -/
def logLimit (sb : Superblock) : Nat := min LOGSIZE (sb.nlog - 1)

/-- `log_write` of a buffer with new contents. -/
def logWrite (blockno : Nat) (b : Block) : TxM Unit := do
  let s ← get
  panicIf (LOGSIZE ≤ s.fs.log.length ∨ s.fs.sb.nlog ≤ s.fs.log.length + 1) "too big a transaction"
  panicIf (s.outstanding < 1) "log_write outside of trans"
  onFs (Fs.logWrite blockno b)
  modify fun s => { s with ops := s.ops ++ [.logWrite blockno] }

/-! ## Layers -/

/-- `I_BUSY` is set or cleared, and the inode is among those that are locked or no longer is. -/
def setBusy (e : Fin NINODE) (busy : Bool) : TxM Unit := do
  onFs (Fs.setBusy e busy)
  modify fun s => { s with locks := if busy then e :: s.locks else s.locks.erase e }

instance : Layers Sys where
  fsState := onFs fsState
  modifyFs f := onFs (modifyFs f)
  bread := bread
  brelse := brelse
  logWrite := logWrite
  setBusy := setBusy
  beginOp := beginOp
  endOp := endOp

/-- The console, which lets go of the inode while it waits. -/
instance : Devices Sys where
  consoleread e n := do
    iunlock e
    let r ← onFs (consoleread e n)
    ilock e
    return r
  consolewrite e n := do
    iunlock e
    ilock e
    return n

end TronBoss.Txn
