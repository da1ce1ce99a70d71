import TronBoss.Log.Bio

/-!
# The on-disk format

The structures of `fs.h` and how they lie in blocks: the super block, inodes, directory entries.
A structure is decoded from the bytes of its range and encoded back into them; each has one
round-trip lemma, and an inode block has one lemma for reading any inode after storing one.
-/

namespace TronBoss.Fs

open Lib List

/-- `ROOTINO` of `fs.h`. -/
def ROOTINO : Nat := 1

/-- `NDIRECT` of `fs.h`, with `CS333_P5`. -/
def NDIRECT : Nat := 10

instance (priority := 1100) : NeZero (NDIRECT + 1) := ⟨by decide⟩

/-- `NINDIRECT` of `fs.h`. -/
def NINDIRECT : Nat := BSIZE / 4

/-- `MAXFILE` of `fs.h`. -/
def MAXFILE : Nat := NDIRECT + NINDIRECT

/-- `sizeof(struct dinode)`. -/
def dinodeSize : Nat := 64

/-- `IPB` of `fs.h`, inodes per block. -/
def IPB : Nat := BSIZE / dinodeSize

/-- `BPB` of `fs.h`, bitmap bits per block. -/
def BPB : Nat := BSIZE * 8

/-- `DIRSIZ` of `fs.h`. -/
def DIRSIZ : Nat := 14

/-- `sizeof(struct dirent)`. -/
def direntSize : Nat := 16

/-- `T_DIR` of `stat.h`. -/
def T_DIR : Int16 := 1

/-- `T_FILE` of `stat.h`. -/
def T_FILE : Int16 := 2

/-- `T_DEV` of `stat.h`. -/
def T_DEV : Int16 := 3

/-! ## The super block -/

/-- `struct superblock`. -/
structure Superblock where
  size : Nat
  nblocks : Nat
  ninodes : Nat
  nlog : Nat
  logstart : Nat
  inodestart : Nat
  bmapstart : Nat
  deriving DecidableEq, Repr

/-- The super block in a block, as `readsb` copies it. -/
def Superblock.decode (b : Block) : Superblock where
  size := (b.read32 0).toNat
  nblocks := (b.read32 4).toNat
  ninodes := (b.read32 8).toNat
  nlog := (b.read32 12).toNat
  logstart := (b.read32 16).toNat
  inodestart := (b.read32 20).toNat
  bmapstart := (b.read32 24).toNat

/-- The bytes of a super block. -/
def Superblock.encode (sb : Superblock) : List UInt8 :=
  [sb.size, sb.nblocks, sb.ninodes, sb.nlog, sb.logstart, sb.inodestart, sb.bmapstart].flatMap
    (leBytes 4)

/-- `IBLOCK`, the block that holds an inode. -/
def IBLOCK (i : Nat) (sb : Superblock) : Nat := (i / IPB + sb.inodestart) % 2 ^ 32

/-- `BBLOCK`, the block of the free map that holds the bit of a block. -/
def BBLOCK (b : Nat) (sb : Superblock) : Nat := (b / BPB + sb.bmapstart) % 2 ^ 32

/-! ## Inodes -/

/-- `struct dinode`. -/
structure Dinode where
  type : Int16
  major : Int16
  minor : Int16
  nlink : Int16
  uid : UInt16
  gid : UInt16
  mode : UInt32
  size : UInt32
  addrs : Fin (NDIRECT + 1) → UInt32

/-- A dinode of zero bytes. -/
def Dinode.zero : Dinode where
  type := 0
  major := 0
  minor := 0
  nlink := 0
  uid := 0
  gid := 0
  mode := 0
  size := 0
  addrs _ := 0

/-- The inode with other block numbers. -/
def Dinode.withAddrs (d : Dinode) (addrs : Fin (NDIRECT + 1) → UInt32) : Dinode := { d with addrs }

/-- The inode with another size. -/
def Dinode.withSize (d : Dinode) (size : Nat) : Dinode := { d with size := UInt32.ofNat size }

/-- The bytes of a `short`. -/
def shortBytes (x : Int16) : List UInt8 := leBytes 2 x.toUInt16.toNat

/-- The bytes of an inode. -/
def Dinode.encode (d : Dinode) : List UInt8 :=
  shortBytes d.type ++ (shortBytes d.major ++ (shortBytes d.minor ++ (shortBytes d.nlink ++
    (leBytes 2 d.uid.toNat ++ (leBytes 2 d.gid.toNat ++ (leBytes 4 d.mode.toNat ++
      (leBytes 4 d.size.toNat ++
        (List.finRange (NDIRECT + 1)).flatMap fun k => leBytes 4 (d.addrs k).toNat)))))))

/-- The `short` at an offset of a record. -/
def shortAt (bs : List UInt8) (off : Nat) : Int16 := Int16.ofNat (field bs off 2)

/-- The inode in a record of bytes. -/
def Dinode.decode (bs : List UInt8) : Dinode where
  type := shortAt bs 0
  major := shortAt bs 2
  minor := shortAt bs 4
  nlink := shortAt bs 6
  uid := UInt16.ofNat (field bs 8 2)
  gid := UInt16.ofNat (field bs 10 2)
  mode := UInt32.ofNat (field bs 12 4)
  size := UInt32.ofNat (field bs 16 4)
  addrs k := UInt32.ofNat (field bs (20 + 4 * k.val) 4)

/-- The inode `i` in the block that holds it. -/
def dinodeAt (b : Block) (i : Nat) : Dinode :=
  .decode (b.read (dinodeSize * (i % IPB)) dinodeSize)

/-- The block with the inode `i` stored in it. -/
def setDinode (b : Block) (i : Nat) (d : Dinode) : Block :=
  b.write (dinodeSize * (i % IPB)) d.encode

@[simp] theorem length_shortBytes (x : Int16) : (shortBytes x).length = 2 := length_leBytes 2 _

theorem Dinode.length_encode (d : Dinode) : d.encode.length = dinodeSize := by
  simp [Dinode.encode, dinodeSize, length_flatMap, map_const', NDIRECT]

theorem field_shortBytes (x : Int16) : Int16.ofNat (field (shortBytes x) 0 2) = x := by
  have hx : (UInt16.ofNat x.toUInt16.toNat).toInt16 = x := by
    rw [UInt16.ofNat_toNat]
    rfl
  rw [shortBytes, field_leBytes x.toUInt16.toNat_lt]
  exact hx

theorem field_u16 (x : UInt16) : UInt16.ofNat (field (leBytes 2 x.toNat) 0 2) = x := by
  rw [field_leBytes x.toNat_lt, UInt16.ofNat_toNat]

theorem field_u32 (x : UInt32) : UInt32.ofNat (field (leBytes 4 x.toNat) 0 4) = x := by
  rw [field_leBytes x.toNat_lt, UInt32.ofNat_toNat]

/-- Encoding an inode keeps all of it. -/
theorem Dinode.decode_encode (d : Dinode) : Dinode.decode d.encode = d := by
  have haddrs (k : Fin (NDIRECT + 1)) :
      UInt32.ofNat (field d.encode (20 + 4 * k.val) 4) = d.addrs k := by
    have hk : k.val < (List.finRange (NDIRECT + 1)).length := by
      rw [length_finRange]
      exact k.isLt
    simp (disch := simp; omega) only [Dinode.encode, field_append_right, length_shortBytes,
      length_leBytes]
    rw [show 20 + 4 * k.val - 2 - 2 - 2 - 2 - 2 - 2 - 4 - 4 = 4 * k.val by omega,
      field_flatMap (fun _ => length_leBytes 4 _) _ hk, getElem_finRange,
      leNat_leBytes_of_lt (UInt32.toNat_lt _), UInt32.ofNat_toNat]
    rfl
  cases d
  simp only [Dinode.decode, mk.injEq, shortAt]
  refine ⟨?_, ?_, ?_, ?_, ?_, ?_, ?_, ?_, funext haddrs⟩ <;>
    simp (disch := simp) [Dinode.encode, field_append_left, field_append_right, field_shortBytes,
      field_u16, field_u32]

/-- An inode block after storing an inode. -/
theorem dinodeAt_setDinode (b : Block) (i j : Nat) (d : Dinode) :
    dinodeAt (setDinode b i d) j = if i % IPB = j % IPB then d else dinodeAt b j := by
  have hj : j % IPB < 8 := Nat.mod_lt _ (by decide)
  have hlen : d.encode.length = 64 := d.length_encode
  split
  · rename_i h
    have hr : (setDinode b i d).read (dinodeSize * (i % IPB)) d.encode.length = d.encode :=
      Bytes.read_write (by simp only [dinodeSize, BSIZE]; omega)
    rw [d.length_encode] at hr
    rw [dinodeAt, ← h, hr, d.decode_encode]
  · rw [dinodeAt, setDinode, Bytes.read_write_of_disjoint, dinodeAt]
    · simp only [dinodeSize, BSIZE]; omega
    · simp only [dinodeSize]; omega

/-! ## Names and directory entries -/

/-- `strncmp` of `string.c`; the bytes after the end of a list are NUL. -/
def strncmp : Nat → List UInt8 → List UInt8 → Int
  | 0, _, _ => 0
  | n + 1, p, q =>
    if p.headD 0 ≠ 0 ∧ p.headD 0 = q.headD 0 then strncmp n p.tail q.tail
    else (p.headD 0).toNat - (q.headD 0).toNat

/-- `strncpy` of `string.c`: the `n` bytes it stores. -/
def strncpy : Nat → List UInt8 → List UInt8
  | 0, _ => []
  | n + 1, t => if t.headD 0 = 0 then List.replicate (n + 1) 0 else t.headD 0 :: strncpy n t.tail

def namecmp (s t : List UInt8) : Int := strncmp DIRSIZ s t

/-- The string of at most `n` characters in a buffer, up to its first NUL. -/
def cstr (n : Nat) (s : List UInt8) : List UInt8 := (s.take n).takeWhile (· ≠ 0)

theorem cstr_succ (n : Nat) (s : List UInt8) :
    cstr (n + 1) s = if s.headD 0 = 0 then [] else s.headD 0 :: cstr n s.tail := by
  cases s with
  | nil => rfl
  | cons c s => simp [cstr, takeWhile_cons]

/-- `strncmp` finds two buffers equal when they hold the same string. -/
theorem strncmp_eq_zero {n : Nat} {p q : List UInt8} :
    strncmp n p q = 0 ↔ cstr n p = cstr n q := by
  induction n generalizing p q with
  | zero => simp [strncmp, cstr]
  | succ n ih =>
    have hsub : ((p.headD 0).toNat : Int) - (q.headD 0).toNat = 0 ↔ p.headD 0 = q.headD 0 := by
      rw [← UInt8.toNat_inj]
      omega
    rw [strncmp, cstr_succ, cstr_succ]
    split
    · rename_i h
      rw [ih, if_neg h.1, if_neg (h.2 ▸ h.1), h.2]
      simp
    · rw [hsub]
      grind

@[simp] theorem length_strncpy (n : Nat) (t : List UInt8) : (strncpy n t).length = n := by
  induction n generalizing t with
  | zero => rfl
  | succ n ih =>
    rw [strncpy]
    split
    · simp
    · simp [ih]

/-- `strncpy` copies the string. -/
theorem cstr_strncpy (n : Nat) (t : List UInt8) : cstr n (strncpy n t) = cstr n t := by
  induction n generalizing t with
  | zero => rfl
  | succ n ih =>
    rw [cstr_succ, cstr_succ, strncpy]
    split
    · simp [replicate_succ]
    · rename_i h
      simp only [headD_cons, tail_cons, if_neg h, ih]

/-- `struct dirent`. -/
structure Dirent where
  inum : UInt16
  name : List UInt8
  deriving DecidableEq, Repr

/-- The directory entry in a record of bytes. -/
def Dirent.decode (bs : List UInt8) : Dirent where
  inum := UInt16.ofNat (field bs 0 2)
  name := (bs.drop 2).take DIRSIZ

/-- The bytes of a directory entry. -/
def Dirent.encode (de : Dirent) : List UInt8 := leBytes 2 de.inum.toNat ++ de.name

theorem Dirent.length_encode {de : Dirent} (h : de.name.length = DIRSIZ) :
    de.encode.length = direntSize := by
  rw [encode, length_append, length_leBytes, h]
  rfl

/-- Encoding a directory entry keeps all of it. -/
theorem Dirent.decode_encode {de : Dirent} (h : de.name.length = DIRSIZ) :
    Dirent.decode de.encode = de := by
  have hinum : UInt16.ofNat (field de.encode 0 2) = de.inum := by
    rw [encode, field_append_left (by simp), field_u16]
  have hname : (de.encode.drop 2).take DIRSIZ = de.name := by
    rw [encode, drop_left' (length_leBytes 2 _), take_of_length_le h.le]
  rw [decode, hinum, hname]

end TronBoss.Fs
