import TronBoss.Fs.Layout
import TronBoss.Lib.Hoare

/-!
# The file system

`fs.c`, function by function, over any layers of buffers, log and locks. The first such layers are
the logical disk, where a `log_write` takes effect at once: what the log and the buffer cache make of
the writes is the subject of `TronBoss.Log`, and `TronBoss.Txn` runs the same routines with
transactions and with buffers that are held. There is one device. A routine that would sleep on a
locked inode does not return, since nobody else runs.
-/

namespace TronBoss.Fs

open Lib Function

/-- `NINODE` of `param.h`. -/
def NINODE : Nat := 50

theorem NINODE_pos : 0 < NINODE := by decide

theorem one_lt_NINODE : 1 < NINODE := by decide

/-- `ROOTDEV` of `param.h`. -/
def ROOTDEV : Nat := 1

/-- `CONSOLE` of `file.h`, the only major device number that is registered in `devsw`. -/
def CONSOLE : Int16 := 1

/-- `struct inode`: the copy of the inode on disk, and the fields of the cache entry. -/
structure Inode extends Dinode where
  inum : Nat
  ref : Int
  busy : Bool
  valid : Bool

/-- `ip->addrs[k] = addr`. -/
def Inode.setAddr (ip : Inode) (k : Fin (NDIRECT + 1)) (addr : UInt32) : Inode :=
  { ip with addrs := update ip.addrs k addr }

/-- The state of the file system: the disk, `sb`, `icache.inode`, what the coming reads of the console
return, and the block numbers in the header of the log. -/
structure State where
  disk : Nat → Block
  sb : Superblock
  icache : Fin NINODE → Inode
  console : Nat → Option (List UInt8)
  log : List Nat

/-- The state with a block written. -/
def State.write (s : State) (blockno : Nat) (b : Block) : State :=
  { s with disk := update s.disk blockno b, log := absorb s.log blockno }

/-- The state after a `commit`, which leaves the header of the log empty. -/
def State.commit (s : State) : State := { s with log := [] }

/-- The state with a cache entry replaced. -/
def State.setInode (s : State) (e : Fin NINODE) (ip : Inode) : State :=
  { s with icache := update s.icache e ip }

/-- A routine of the file system. -/
abbrev FsM : Type → Type := Routine State

/-! ## Layers -/

/-- What `fs.c` uses, over a state that has the file system as a part: the file system, the buffers, the
log, and the locks of the inodes. -/
class Layers (σ : Type) where
  fsState : Routine σ State
  modifyFs : (State → State) → Routine σ Unit
  bread : Nat → Routine σ Block
  brelse : Nat → Routine σ Unit
  /-- `log_write` of a buffer with new contents. -/
  logWrite : Nat → Block → Routine σ Unit
  /-- An assignment to `I_BUSY`. -/
  setBusy : Fin NINODE → Bool → Routine σ Unit
  beginOp : Routine σ Unit
  endOp : Routine σ Unit

/-- The devices: a read of the console for an inode, and a write of so many bytes. -/
class Devices (σ : Type) where
  consoleread : Fin NINODE → Nat → Routine σ (Option (List UInt8))
  consolewrite : Fin NINODE → Nat → Routine σ Int

export Layers (fsState modifyFs bread brelse logWrite setBusy beginOp endOp)
export Devices (consoleread consolewrite)

/-- The logical disk, with the check of `idestart`. Nobody waits for a buffer, and there is no end to
the log: `Txn.logWrite` has the limit. -/
instance : Layers State where
  fsState := get
  modifyFs := modify
  bread blockno := do
    panicIf (FSSIZE ≤ blockno) "incorrect blockno"
    return (← get).disk blockno
  brelse _ := pure ()
  logWrite blockno b := modify fun s => s.write blockno b
  setBusy e busy := modify fun s => s.setInode e { s.icache e with busy }
  beginOp := pure ()
  endOp := pure ()

/-- A read of the console returns at most so many bytes, or `-1`. -/
instance : Devices State where
  consoleread _ n := do
    let s ← get
    modify fun s => { s with console := fun k => s.console (k + 1) }
    return (s.console 0).map fun bs => bs.take n
  consolewrite _ n := return n

section
variable {σ : Type} [Layers σ]

/-- An assignment to fields of a cache entry. -/
def modifyInode (e : Fin NINODE) (f : Inode → Inode) : Routine σ Unit :=
  modifyFs fun s => s.setInode e (f (s.icache e))

/-! ## Blocks -/

def readsb : Routine σ Superblock := do
  let bp ← bread 1
  brelse 1
  return .decode bp

def bzero (bno : Nat) : Routine σ Unit := do
  let _ ← bread bno
  logWrite bno .zero
  brelse bno

/-- The turns of the outer loop of `balloc`, from block `b` on. -/
def ballocFrom : Nat → Nat → Routine σ Nat
  | 0, _ => throw .diverge
  | k + 1, b => do
    let sb := (← fsState).sb
    if b < sb.size then
      let bp ← bread (BBLOCK b sb)
      -- the inner loop stops at the first clear bit
      match (List.range (min BPB (sb.size - b))).find? fun bi => !bp.bit bi with
      | some bi =>
        logWrite (BBLOCK b sb) (bp.setBit bi)
        brelse (BBLOCK b sb)
        bzero (b + bi)
        return b + bi
      | none =>
        brelse (BBLOCK b sb)
        ballocFrom k (b + BPB)
    else throw (.panic "balloc: out of blocks")

def balloc : Routine σ Nat := do
  let sb := (← fsState).sb
  ballocFrom (sb.size / BPB + 2) 0

/-- `bfree`, which reads the super block again. -/
def bfree (b : Nat) : Routine σ Unit := do
  let sb ← readsb
  modifyFs fun s => { s with sb }
  let bp ← bread (BBLOCK b sb)
  panicIf (bp.bit (b % BPB) = false) "freeing free block"
  logWrite (BBLOCK b sb) (bp.clearBit (b % BPB))
  brelse (BBLOCK b sb)

/-! ## Inodes -/

def iget (inum : Nat) : Routine σ (Fin NINODE) := do
  let s ← fsState
  match (List.finRange NINODE).find? fun e =>
      0 < (s.icache e).ref ∧ (s.icache e).inum = inum with
  | some e =>
    modifyInode e fun ip => { ip with ref := ip.ref + 1 }
    return e
  | none =>
    match (List.finRange NINODE).find? fun e => (s.icache e).ref = 0 with
    | some e =>
      modifyInode e fun ip => { ip with inum, ref := 1, busy := false, valid := false }
      return e
    | none => throw (.panic "iget: no inodes")

/-- The turns of the loop of `ialloc`, from inode `inum` on. -/
def iallocFrom (type : Int16) : Nat → Nat → Routine σ (Fin NINODE)
  | 0, _ => throw (.panic "ialloc: no inodes")
  | k + 1, inum => do
    let sb := (← fsState).sb
    let bp ← bread (IBLOCK inum sb)
    if (dinodeAt bp inum).type = 0 then
      logWrite (IBLOCK inum sb) (setDinode bp inum { Dinode.zero with type })
      brelse (IBLOCK inum sb)
      iget inum
    else
      brelse (IBLOCK inum sb)
      iallocFrom type k (inum + 1)

def ialloc (type : Int16) : Routine σ (Fin NINODE) := do
  let sb := (← fsState).sb
  iallocFrom type (sb.ninodes - 1) 1

def iupdate (e : Fin NINODE) : Routine σ Unit := do
  let s ← fsState
  let ip := s.icache e
  let bp ← bread (IBLOCK ip.inum s.sb)
  logWrite (IBLOCK ip.inum s.sb) (setDinode bp ip.inum ip.toDinode)
  brelse (IBLOCK ip.inum s.sb)

/-- Assignments to fields of an inode, followed by `iupdate`. -/
def updateInode (e : Fin NINODE) (f : Inode → Inode) : Routine σ Unit := do
  modifyInode e f
  iupdate e

def idup (e : Fin NINODE) : Routine σ (Fin NINODE) := do
  modifyInode e fun ip => { ip with ref := ip.ref + 1 }
  return e

/-- What `ilock` does with an inode that is not `I_VALID`. -/
def iload (e : Fin NINODE) : Routine σ Unit := do
  let s ← fsState
  let inum := (s.icache e).inum
  let bp ← bread (IBLOCK inum s.sb)
  modifyInode e fun ip => { ip with toDinode := dinodeAt bp inum, valid := true }
  brelse (IBLOCK inum s.sb)
  panicIf ((dinodeAt bp inum).type = 0) "ilock: no type"

def ilock (e : Fin NINODE) : Routine σ Unit := do
  let ip := (← fsState).icache e
  panicIf (ip.ref < 1) "ilock"
  if ip.busy then throw .diverge
  else
    setBusy e true
    if ip.valid then pure () else iload e

def iunlock (e : Fin NINODE) : Routine σ Unit := do
  let ip := (← fsState).icache e
  panicIf (ip.busy = false ∨ ip.ref < 1) "iunlock"
  setBusy e false

/-! ## Inode content -/

/-- `if((addr = ip->addrs[k]) == 0) ip->addrs[k] = addr = balloc(ip->dev);` -/
def bmapAddr (e : Fin NINODE) (k : Fin (NDIRECT + 1)) : Routine σ Nat := do
  let addr := ((← fsState).icache e).addrs k
  if addr = 0 then
    let b ← balloc
    modifyInode e fun ip => ip.setAddr k (UInt32.ofNat b)
    return b
  else return addr.toNat

/-- The part of `bmap` for a block that the indirect block lists. -/
def bmapIndirect (e : Fin NINODE) (bn : Nat) : Routine σ Nat := do
  let addr ← bmapAddr e (Fin.last NDIRECT)
  let bp ← bread addr
  if bp.read32 (4 * bn) = 0 then
    let b ← balloc
    logWrite addr (bp.write32 (4 * bn) (UInt32.ofNat b))
    brelse addr
    return b
  else
    brelse addr
    return (bp.read32 (4 * bn)).toNat

def bmap (e : Fin NINODE) (bn : Nat) : Routine σ Nat :=
  if bn < NDIRECT then bmapAddr e (Fin.ofNat (NDIRECT + 1) bn)
  else if bn - NDIRECT < NINDIRECT then bmapIndirect e (bn - NDIRECT)
  else throw (.panic "bmap: out of range")

/-- The body of the first loop of `itrunc`. -/
def itruncDirect (e : Fin NINODE) (k : Fin (NDIRECT + 1)) : Routine σ Unit := do
  let addr := ((← fsState).icache e).addrs k
  if addr = 0 then pure ()
  else
    bfree addr.toNat
    modifyInode e fun ip => ip.setAddr k 0

/-- The second loop of `itrunc`, over the entries of the indirect block. -/
def itruncEntries (bp : Block) : Routine σ Unit :=
  (List.range NINDIRECT).forM fun j =>
    if bp.read32 (4 * j) = 0 then pure () else bfree (bp.read32 (4 * j)).toNat

/-- What `itrunc` does with the indirect block. -/
def itruncIndirect (e : Fin NINODE) : Routine σ Unit := do
  let addr := ((← fsState).icache e).addrs (Fin.last NDIRECT)
  if addr = 0 then pure ()
  else
    let bp ← bread addr.toNat
    itruncEntries bp
    brelse addr.toNat
    itruncDirect e (Fin.last NDIRECT)

def itrunc (e : Fin NINODE) : Routine σ Unit := do
  ((List.finRange NDIRECT).map Fin.castSucc).forM (itruncDirect e)
  itruncIndirect e
  updateInode e fun ip => { ip with size := 0 }

/-- What `iput` does with an inode that has no links and no other references. -/
def ifree (e : Fin NINODE) : Routine σ Unit := do
  let ip := (← fsState).icache e
  panicIf (ip.busy = true) "iput busy"
  setBusy e true
  itrunc e
  updateInode e fun ip => { ip with type := 0 }
  modifyInode e fun ip => { ip with valid := false }
  setBusy e false

def iput (e : Fin NINODE) : Routine σ Unit := do
  let ip := (← fsState).icache e
  if ip.ref = 1 ∧ ip.valid ∧ ip.nlink = 0 then ifree e else pure ()
  modifyInode e fun ip => { ip with ref := ip.ref - 1 }

def iunlockput (e : Fin NINODE) : Routine σ Unit := do
  iunlock e
  iput e

/-- `struct stat`. -/
structure Stat where
  type : Int16
  dev : Nat
  ino : Nat
  nlink : Int16
  uid : UInt16
  gid : UInt16
  mode : UInt32
  size : UInt32
  deriving DecidableEq, Repr

def stati (e : Fin NINODE) : Routine σ Stat := do
  let ip := (← fsState).icache e
  return {
    type := ip.type, dev := ROOTDEV, ino := ip.inum, nlink := ip.nlink,
    uid := ip.uid, gid := ip.gid, mode := ip.mode, size := ip.size }

/-- The loop of `readi`, with `n` bytes to go. -/
def readiLoop (e : Fin NINODE) : Nat → Nat → Nat → Routine σ (List UInt8)
  | _, _, 0 => return []
  | 0, _, _ + 1 => throw .diverge
  | k + 1, off, n@(_ + 1) => do
    let b ← bmap e (off / BSIZE)
    let bp ← bread b
    let m := min n (BSIZE - off % BSIZE)
    brelse b
    let rest ← readiLoop e k (off + m) (n - m)
    return bp.read (off % BSIZE) m ++ rest

variable [Devices σ]

/-- `readi`: the bytes it stores at `dst`, or `none` for `-1`. -/
def readi (e : Fin NINODE) (off n : Nat) : Routine σ (Option (List UInt8)) := do
  let ip := (← fsState).icache e
  if ip.type = T_DEV then
    if ip.major = CONSOLE then consoleread e n else return none
  else if ip.size.toNat < off ∨ 2 ^ 32 ≤ off + n then return none
  else
    let bs ← readiLoop e n off (min n (ip.size.toNat - off))
    return some bs

/-- The body of the loop of `writei`, for bytes that go into one block. -/
def writeiChunk (e : Fin NINODE) (off : Nat) (src : List UInt8) : Routine σ Unit := do
  let b ← bmap e (off / BSIZE)
  let bp ← bread b
  logWrite b (bp.write (off % BSIZE) src)
  brelse b

/-- The loop of `writei`, with the bytes `src` to go. -/
def writeiLoop (e : Fin NINODE) : Nat → Nat → List UInt8 → Routine σ Unit
  | _, _, [] => return ()
  | 0, _, _ :: _ => throw .diverge
  | k + 1, off, src@(_ :: _) => do
    let m := min src.length (BSIZE - off % BSIZE)
    writeiChunk e off (src.take m)
    writeiLoop e k (off + m) (src.drop m)

/-- The end of `writei`: the file has grown. -/
def writeiGrow (e : Fin NINODE) (off : Nat) : Routine σ Unit := do
  let ip := (← fsState).icache e
  if ip.size.toNat < off then updateInode e fun ip => { ip with size := UInt32.ofNat off }
  else pure ()

/-- `writei` of the bytes `src`: their number, or `-1`. -/
def writei (e : Fin NINODE) (src : List UInt8) (off : Nat) : Routine σ Int := do
  let ip := (← fsState).icache e
  if ip.type = T_DEV then
    if ip.major = CONSOLE then consolewrite e src.length else return -1
  else if ip.size.toNat < off ∨ 2 ^ 32 ≤ off + src.length then return -1
  else if MAXFILE * BSIZE < off + src.length then return -1
  else
    writeiLoop e src.length off src
    -- with `n == 0` the loop leaves `off`, which is not past the end
    writeiGrow e (off + src.length)
    return src.length

/-! ## Directories -/

/-- A read of a whole directory entry, which panics when it comes back short. -/
def readDirent (dp : Fin NINODE) (off : Nat) (msg : String) : Routine σ Dirent := do
  match ← readi dp off direntSize with
  | some bs => if bs.length = direntSize then return .decode bs else throw (.panic msg)
  | none => throw (.panic msg)

/-- The loop of `dirlookup`, from an offset on. -/
def dirlookupFrom (dp : Fin NINODE) (name : List UInt8) :
    Nat → Nat → Routine σ (Option (Nat × Fin NINODE))
  | 0, _ => throw .diverge
  | k + 1, off => do
    let size := ((← fsState).icache dp).size.toNat
    if off < size then
      let de ← readDirent dp off "dirlink read"
      if de.inum ≠ 0 ∧ namecmp name de.name = 0 then
        let ip ← iget de.inum.toNat
        return some (off, ip)
      else dirlookupFrom dp name k (off + direntSize)
    else return none

/-- `dirlookup`: the inode and the offset of its entry. -/
def dirlookup (dp : Fin NINODE) (name : List UInt8) : Routine σ (Option (Nat × Fin NINODE)) := do
  let d := (← fsState).icache dp
  panicIf (d.type ≠ T_DIR) "dirlookup not DIR"
  dirlookupFrom dp name (d.size.toNat / direntSize + 2) 0

/-- The loop of `dirlink` that looks for an empty entry. -/
def dirlinkSlot (dp : Fin NINODE) : Nat → Nat → Routine σ Nat
  | 0, _ => throw .diverge
  | k + 1, off => do
    let size := ((← fsState).icache dp).size.toNat
    if off < size then
      let de ← readDirent dp off "dirlink read"
      if de.inum = 0 then return off else dirlinkSlot dp k (off + direntSize)
    else return off

def dirlink (dp : Fin NINODE) (name : List UInt8) (inum : Nat) : Routine σ Int := do
  match ← dirlookup dp name with
  | some (_, ip) =>
    iput ip
    return -1
  | none =>
    let size := ((← fsState).icache dp).size.toNat
    let off ← dirlinkSlot dp (size / direntSize + 2) 0
    let de : Dirent := { inum := UInt16.ofNat inum, name := strncpy DIRSIZ name }
    let r ← writei dp de.encode off
    panicIf (r ≠ direntSize) "dirlink"
    return 0

/-! ## Paths -/

end

/-- The character `/`. -/
def slash : UInt8 := 47

/-- `skipelem`: the next path element, cut to `DIRSIZ` characters, and the path after it. -/
def skipelem (path : List UInt8) : Option (List UInt8 × List UInt8) :=
  match path.dropWhile (· = slash) with
  | [] => none
  | s@(_ :: _) =>
    some ((s.takeWhile (· ≠ slash)).take DIRSIZ,
      (s.dropWhile (· ≠ slash)).dropWhile (· = slash))

section
variable {σ : Type} [Layers σ] [Devices σ]

/-- The loop of `namex`. The result is the inode and, for `nameiparent`, the final path element. -/
def namexFrom (nameiparent : Bool) :
    Nat → Fin NINODE → List UInt8 → Routine σ (Option (Fin NINODE × List UInt8))
  | 0, _, _ => throw .diverge
  | k + 1, ip, path =>
    match skipelem path with
    | none =>
      if nameiparent then do
        iput ip
        return none
      else return some (ip, [])
    | some (name, rest) => do
      ilock ip
      let d := (← fsState).icache ip
      if d.type ≠ T_DIR then
        iunlockput ip
        return none
      else if nameiparent ∧ rest = [] then
        iunlock ip
        return some (ip, name)
      else
        match ← dirlookup ip name with
        | none =>
          iunlockput ip
          return none
        | some (_, next) =>
          iunlockput ip
          namexFrom nameiparent k next rest

/-- Where `namex` starts. -/
def namexStart (cwd : Fin NINODE) (path : List UInt8) : Routine σ (Fin NINODE) :=
  if path.head? = some slash then iget ROOTINO else idup cwd

/-- `namex`, for a process with the given `cwd`. -/
def namex (cwd : Fin NINODE) (path : List UInt8) (nameiparent : Bool) :
    Routine σ (Option (Fin NINODE × List UInt8)) := do
  let ip ← namexStart cwd path
  namexFrom nameiparent (path.length + 1) ip path

def namei (cwd : Fin NINODE) (path : List UInt8) : Routine σ (Option (Fin NINODE)) := do
  let r ← namex cwd path false
  return r.map Prod.fst

def nameiparent (cwd : Fin NINODE) (path : List UInt8) :
    Routine σ (Option (Fin NINODE × List UInt8)) :=
  namex cwd path true

end

end TronBoss.Fs
