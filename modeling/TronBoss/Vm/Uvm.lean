import TronBoss.Vm.PageTable

/-!
# User memory

The part of `vm.c` that works on the user part of a page directory, and `growproc`. A directory that a
function changes is an argument and a result.
-/

namespace TronBoss.Vm

open Lib

/-- `memmove` of bytes to a place in a page. -/
def Mem.poke (m : Mem) (pa : UInt32) (off : Nat) (bs : List UInt8) : Mem :=
  { m with frame := Function.update m.frame pa ((m.frame pa).write off bs) }

/-- The loop of `deallocuvm` from the page `a` on, in at most so many turns. -/
def deallocLoop (img : KernelImage) (oldsz : UInt32) : Nat → PgDir → UInt32 → Routine Mem PgDir
  | 0, _, _ => throw .diverge
  | k + 1, d, a =>
    if a < oldsz then
      if (d.pde (PDX a)).isNone then
        -- the rest of the table, as long as `a` is the first page of it
        deallocLoop img oldsz k d (a + (UInt32.ofNat NPTENTRIES - 1) * PGSIZE + PGSIZE)
      else if Present (d.pte a) then do
        let pa := PTE_ADDR (d.pte a)
        panicIf (pa = 0) "kfree"
        kfree img pa
        deallocLoop img oldsz k (d.setPte a 0) (a + PGSIZE)
      else deallocLoop img oldsz k d (a + PGSIZE)
    else return d

/-- `deallocuvm`: the directory, and the size that the function returns. -/
@[irreducible] def deallocuvm (img : KernelImage) (d : PgDir) (oldsz newsz : UInt32) :
    Routine Mem (PgDir × UInt32) := do
  if newsz ≥ oldsz then return (d, oldsz)
  else
    let d ← deallocLoop img oldsz turns d (PGROUNDUP newsz)
    return (d, newsz)

/-- The loop of `allocuvm` from the page `a` on, in at most so many turns. -/
def allocLoop (img : KernelImage) (oldsz newsz : UInt32) :
    Nat → PgDir → UInt32 → Routine Mem (PgDir × UInt32)
  | 0, _, _ => throw .diverge
  | k + 1, d, a =>
    if a < newsz then do
      match ← kalloc with
      | none =>
        let (d, _) ← deallocuvm img d newsz oldsz
        return (d, 0)
      | some mem =>
        modify fun m => m.fill mem 0
        -- the result of `mappages` is not looked at
        let (d, _) ← mappages d a PGSIZE mem (PTE_W ||| PTE_U)
        allocLoop img oldsz newsz k d (a + PGSIZE)
    else return (d, newsz)

/-- `allocuvm`: the directory, and the size that the function returns. -/
@[irreducible] def allocuvm (img : KernelImage) (d : PgDir) (oldsz newsz : UInt32) :
    Routine Mem (PgDir × UInt32) :=
  if newsz ≥ KERNBASE then return (d, 0)
  else if newsz < oldsz then return (d, oldsz)
  else allocLoop img oldsz newsz turns d (PGROUNDUP oldsz)

/-- `struct proc`, as far as its memory goes. -/
structure Proc where
  sz : UInt32
  pgdir : PgDir

/-- `growproc`: the process after it, and what the function returns. -/
def growproc (img : KernelImage) (p : Proc) (n : Int32) : Routine Mem (Proc × Int) := do
  let (d, sz) ←
    if 0 < n then allocuvm img p.pgdir p.sz (p.sz + n.toUInt32)
    else if n < 0 then deallocuvm img p.pgdir p.sz (p.sz + n.toUInt32)
    else pure (p.pgdir, p.sz)
  if n ≠ 0 ∧ sz = 0 then return ({ p with pgdir := d }, -1)
  else return ({ p with pgdir := d, sz := sz }, 0)

end TronBoss.Vm
