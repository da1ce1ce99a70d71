import TronBoss.Fs.Fs

/-!
# Executable files

The file that `exec` reads, and the headers of `elf.h` with the fields that `exec` looks at. They are
any bytes of the file: nothing here is checked.
-/

namespace TronBoss.Vm

open Lib
open Fs (Dinode T_DIR T_FILE T_DEV CONSOLE MAXFILE)

/-- A `uint` of a header. -/
def uintAt (bs : List UInt8) (off : Nat) : UInt32 := UInt32.ofNat (field bs off 4)

/-- `struct elfhdr`. -/
structure Elfhdr where
  magic : UInt32
  entry : UInt32
  phoff : UInt32
  phnum : UInt16
  deriving DecidableEq, Repr

/-- The header that the bytes of a file start with. -/
def Elfhdr.decode (bs : List UInt8) : Elfhdr where
  magic := uintAt bs 0
  entry := uintAt bs 24
  phoff := uintAt bs 28
  phnum := UInt16.ofNat (field bs 44 2)

/-- `struct proghdr`. -/
structure Proghdr where
  type : UInt32
  off : UInt32
  vaddr : UInt32
  filesz : UInt32
  memsz : UInt32
  deriving DecidableEq, Repr

/-- The program header in the bytes. -/
def Proghdr.decode (bs : List UInt8) : Proghdr where
  type := uintAt bs 0
  off := uintAt bs 4
  vaddr := uintAt bs 8
  filesz := uintAt bs 16
  memsz := uintAt bs 20

/-- `sizeof(struct proghdr)`. -/
def proghdrSize : Nat := 32

def ELF_PROG_LOAD : UInt32 := 1

end TronBoss.Vm
