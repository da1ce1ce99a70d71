import TronBoss.Fs.Sysfile
import TronBoss.Log.Log

/-!
# Building the file system image

`mkfs.c`, function by function. An input file is its name and what the calls of `read` on it
returned. A failed `assert` or `exit(1)` stops the program.
-/

namespace TronBoss.Mkfs

open Lib Fs

def NINODES : Nat := 200

def nbitmap : Nat := FSSIZE / (BSIZE * 8) + 1

def ninodeblocks : Nat := NINODES / IPB + 1

def nmeta : Nat := 2 + nlog + ninodeblocks + nbitmap

def sb : Superblock where
  size := FSSIZE
  nblocks := FSSIZE - nmeta
  ninodes := NINODES
  nlog := nlog
  logstart := 2
  inodestart := 2 + nlog
  bmapstart := 2 + nlog + ninodeblocks

/-- The image file, `freeinode` and `freeblock`. -/
structure Image where
  img : Nat → Block
  freeinode : Nat
  freeblock : Nat

/-- A routine of `mkfs`. -/
abbrev MkfsM : Type → Type := Routine Image

def wsect (sec : Nat) (buf : Block) : MkfsM Unit :=
  modify fun m => { m with img := Function.update m.img sec buf }

/-- `rsect`. The image has `FSSIZE` sectors, and nothing is written past them without having been
read before. -/
def rsect (sec : Nat) : MkfsM Block := do
  panicIf (FSSIZE ≤ sec) "read"
  return (← get).img sec

def winode (inum : Nat) (ip : Dinode) : MkfsM Unit := do
  let buf ← rsect (IBLOCK inum sb)
  wsect (IBLOCK inum sb) (setDinode buf inum ip)

def rinode (inum : Nat) : MkfsM Dinode := do
  let buf ← rsect (IBLOCK inum sb)
  return dinodeAt buf inum

def ialloc (type : Int16) : MkfsM Nat := do
  let inum := (← get).freeinode
  modify fun m => { m with freeinode := inum + 1 }
  winode inum { Dinode.zero with
    type, nlink := 1, uid := DEFAULT_UID, gid := DEFAULT_GID, mode := DEFAULT_MODE }
  return inum

/-- The buffer that `balloc` fills. -/
def usedMap (used : Nat) : Block := (List.range used).foldl (fun buf i => buf.setBit i) .zero

def balloc (used : Nat) : MkfsM Unit := do
  panicIf (BSIZE * 8 ≤ used) "used < BSIZE*8"
  wsect sb.bmapstart (usedMap used)

/-- `freeblock++`. -/
def takeblock : MkfsM Nat := do
  let b := (← get).freeblock
  modify fun m => { m with freeblock := b + 1 }
  return b

/-- `if(xint(din.addrs[k]) == 0) din.addrs[k] = xint(freeblock++);` -/
def iappendAddr (din : Dinode) (k : Fin (NDIRECT + 1)) : MkfsM Dinode := do
  if din.addrs k = 0 then
    let b ← takeblock
    return din.withAddrs (Function.update din.addrs k (UInt32.ofNat b))
  else return din

/-- The part of `iappend` for a block that the indirect block lists. -/
def iappendIndirect (din : Dinode) (bn : Nat) : MkfsM (Nat × Dinode) := do
  let din ← iappendAddr din (Fin.last NDIRECT)
  let indirect ← rsect (din.addrs (Fin.last NDIRECT)).toNat
  if indirect.read32 (4 * bn) = 0 then
    let b ← takeblock
    wsect (din.addrs (Fin.last NDIRECT)).toNat (indirect.write32 (4 * bn) (UInt32.ofNat b))
    return (b, din)
  else return ((indirect.read32 (4 * bn)).toNat, din)

/-- The part of `iappend` that finds the sector of block `fbn`. -/
def iappendMap (din : Dinode) (fbn : Nat) : MkfsM (Nat × Dinode) := do
  panicIf (MAXFILE ≤ fbn) "fbn < MAXFILE"
  if fbn < NDIRECT then
    let din ← iappendAddr din (Fin.ofNat (NDIRECT + 1) fbn)
    return ((din.addrs (Fin.ofNat (NDIRECT + 1) fbn)).toNat, din)
  else iappendIndirect din (fbn - NDIRECT)

/-- The loop of `iappend`, with the bytes `p` to go. -/
def iappendLoop : Nat → Dinode → Nat → List UInt8 → MkfsM (Dinode × Nat)
  | _, din, off, [] => return (din, off)
  | 0, _, _, _ :: _ => throw .diverge
  | k + 1, din, off, p@(_ :: _) => do
    let fbn := off / BSIZE
    let (x, din) ← iappendMap din fbn
    let n1 := min p.length ((fbn + 1) * BSIZE - off)
    let buf ← rsect x
    wsect x (buf.write (off - fbn * BSIZE) (p.take n1))
    iappendLoop k din (off + n1) (p.drop n1)

def iappend (inum : Nat) (p : List UInt8) : MkfsM Unit := do
  let din ← rinode inum
  let (din, off) ← iappendLoop p.length din din.size.toNat p
  winode inum (din.withSize off)

/-- An argument of `mkfs`: the name of a file, and what the calls of `read` returned. -/
structure Input where
  name : List UInt8
  reads : List (List UInt8)

/-- The bytes of the file. -/
def Input.contents (f : Input) : List UInt8 := f.reads.flatten

/-- The name in the image, without a leading underscore. -/
def Input.entryName (f : Input) : List UInt8 :=
  if f.name.head? = some 95 then f.name.tail else f.name

/-- The directory entry for an inode. -/
def entry (inum : Nat) (name : List UInt8) : Dirent where
  inum := UInt16.ofNat inum
  name := strncpy DIRSIZ name

/-- The body of the loop of `main` over the input files. -/
def addFile (rootino : Nat) (f : Input) : MkfsM Unit := do
  panicIf (slash ∈ f.name) "index(argv[i], '/') == 0"
  let inum ← ialloc T_FILE
  iappend rootino (entry inum f.entryName).encode
  f.reads.forM (iappend inum)

/-- The end of `main`: the size of the root directory is rounded. -/
def fixRoot (rootino : Nat) : MkfsM Unit := do
  let din ← rinode rootino
  let off := din.size.toNat
  winode rootino (din.withSize ((off / BSIZE + 1) * BSIZE))

/-- `main`, after the image has been filled with zeroes. -/
def main (files : List Input) : MkfsM Unit := do
  wsect 1 (Bytes.zero.write 0 sb.encode)
  let rootino ← ialloc T_DIR
  panicIf (rootino ≠ ROOTINO) "rootino == ROOTINO"
  iappend rootino (entry rootino dot).encode
  iappend rootino (entry rootino dotdot).encode
  files.forM (addFile rootino)
  fixRoot rootino
  balloc (← get).freeblock

/-- The image of zeroes, with the globals as `main` sets them. -/
def zeroed : Image where
  img _ := .zero
  freeinode := 1
  freeblock := nmeta

end TronBoss.Mkfs
