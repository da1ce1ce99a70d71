import TronBoss.Lib.Bytes
import TronBoss.Lib.Outcome

/-!
# The buffer cache

`bio.c` over a disk whose requests are synchronous. A buffer records who holds it, where the source
has the flag `B_BUSY`; a caller that would sleep on a busy buffer is a step that is not enabled.
There is one device, the disk with the file system, so a buffer has a block number or is still
unused (`dev == -1`).
-/

namespace TronBoss

open Lib

/-- `BSIZE` of `fs.h`. -/
def BSIZE : Nat := 512

/-- `FSSIZE` of `param.h`. -/
def FSSIZE : Nat := 2000

/-- `MAXOPBLOCKS` of `param.h`. -/
def MAXOPBLOCKS : Nat := 10

/-- `NBUF` of `param.h`. -/
def NBUF : Nat := MAXOPBLOCKS * 3

theorem NBUF_pos : 0 < NBUF := by decide

theorem one_lt_NBUF : 1 < NBUF := by decide

/-- The contents of a disk block. -/
abbrev Block : Type := Bytes BSIZE

/-- The disk. -/
abbrev Disk : Type := UInt32 → Block

/-- `struct buf`. -/
structure Buf (H : Type) where
  blockno : Option UInt32
  busy : Option H
  valid : Bool
  dirty : Bool
  data : Block

/-- `bcache` and the disk under it. `order` is the list through `next`, the most recently used
buffer first. -/
structure Bcache (H : Type) where
  disk : Disk
  buf : Fin NBUF → Buf H
  order : List (Fin NBUF)

section
variable {H : Type}

def binit (d : Disk) : Bcache H where
  disk := d
  buf _ := { blockno := none, busy := none, valid := false, dirty := false, data := .zero }
  order := (List.finRange NBUF).reverse

/-- An assignment to the fields of a buffer. -/
def Bcache.setBuf (c : Bcache H) (b : Fin NBUF) (x : Buf H) : Bcache H :=
  { c with buf := Function.update c.buf b x }

/-- `bget`: the buffer of a block, taken by `who`. -/
def bget (who : H) (blockno : UInt32) (c : Bcache H) : Except Stop (Fin NBUF × Bcache H) :=
  match c.order.find? fun b => (c.buf b).blockno = some blockno with
  | some b =>
    if (c.buf b).busy.isNone then .ok (b, c.setBuf b { c.buf b with busy := some who })
    else .error .disabled
  | none =>
    -- not cached: recycle the least recently used buffer that is not busy and clean
    match c.order.reverse.find? fun b => (c.buf b).busy.isNone && !(c.buf b).dirty with
    | some b =>
      .ok (b, c.setBuf b { c.buf b with
        blockno := some blockno, busy := some who, valid := false, dirty := false })
    | none => .error (.panic "bget: no buffers")

/-- `iderw`, and the check of `idestart`, over what a write leaves on the disk and what a read
leaves in the buffer. -/
def iderwBy (write : Block → Block) (read : Block → Block → Block) (b : Fin NBUF) (c : Bcache H) :
    Except Stop (Bcache H) := do
  let x := c.buf b
  panicIf (x.busy.isNone) "iderw: buf not busy"
  panicIf (x.valid ∧ ¬ x.dirty) "iderw: nothing to do"
  match x.blockno with
  | none => .error .outOfBounds
  | some blockno =>
    panicIf (FSSIZE ≤ blockno.toNat) "incorrect blockno"
    if x.dirty then
      return { c.setBuf b { x with valid := true, dirty := false } with
        disk := Function.update c.disk blockno (write x.data) }
    else
      return c.setBuf b { x with
        valid := true, dirty := false, data := read x.data (c.disk blockno) }

abbrev iderw : Fin NBUF → Bcache H → Except Stop (Bcache H) :=
  iderwBy (fun data => data) fun _ data => data

/-- `bread`, over what stands for `iderw`. -/
def breadBy (rw : Fin NBUF → Bcache H → Except Stop (Bcache H)) (who : H) (blockno : UInt32)
    (c : Bcache H) : Except Stop (Fin NBUF × Bcache H) := do
  let (b, c) ← bget who blockno c
  if (c.buf b).valid then return (b, c)
  else
    let c ← rw b c
    return (b, c)

abbrev bread : H → UInt32 → Bcache H → Except Stop (Fin NBUF × Bcache H) := breadBy iderw

/-- `bwrite`, over what stands for `iderw`. -/
def bwriteBy (rw : Fin NBUF → Bcache H → Except Stop (Bcache H)) (b : Fin NBUF) (c : Bcache H) :
    Except Stop (Bcache H) := do
  panicIf ((c.buf b).busy.isNone) "bwrite"
  rw b (c.setBuf b { c.buf b with dirty := true })

abbrev bwrite : Fin NBUF → Bcache H → Except Stop (Bcache H) := bwriteBy iderw

def brelse (b : Fin NBUF) (c : Bcache H) : Except Stop (Bcache H) := do
  panicIf ((c.buf b).busy.isNone) "brelse"
  return { c.setBuf b { c.buf b with busy := none } with order := b :: c.order.erase b }

end

/-! ## Logged blocks -/

section
variable {α : Type} [DecidableEq α] {log : List α} {n k : α}

/-- `log.lh.block[]` after `log_write`, which absorbs a block that is there already. -/
def absorb (log : List α) (blockno : α) : List α :=
  if blockno ∈ log then log else log ++ [blockno]

theorem mem_absorb : k ∈ absorb log n ↔ k ∈ log ∨ k = n := by
  unfold absorb
  split
  · next hn => exact ⟨.inl, fun hk => hk.elim id fun e => e ▸ hn⟩
  · simp

theorem nodup_absorb (h : log.Nodup) : (absorb log n).Nodup := by
  unfold absorb
  split
  · exact h
  · next hn =>
    refine List.nodup_append.2 ⟨h, by simp, ?_⟩
    rintro x hx y hy rfl
    rw [List.mem_singleton] at hy
    exact hn (hy ▸ hx)

end

end TronBoss
