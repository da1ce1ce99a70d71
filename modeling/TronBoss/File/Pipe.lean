import TronBoss.Lib.Outcome

/-!
# Pipes and console input

The data of `struct pipe` and of `input` of `console.c`, with what their routines do to it between
two points where they may sleep. The locks and the sleeping are left to the users of this module.
-/

namespace TronBoss.File

/-- `PIPESIZE` of `pipe.c`. -/
def PIPESIZE : UInt32 := 512

/-- `struct pipe`, without its lock. -/
structure Pipe where
  data : Nat → UInt8
  nread : UInt32
  nwrite : UInt32
  readopen : Bool
  writeopen : Bool

/-- The pipe that `pipealloc` makes of a page. -/
def pipealloc (data : Nat → UInt8) : Pipe where
  data := data
  nread := 0
  nwrite := 0
  readopen := true
  writeopen := true

/-- A free page as a pipe: `kfree` fills it with ones. -/
def freePage : Pipe where
  data _ := 1
  nread := 0x01010101
  nwrite := 0x01010101
  readopen := true
  writeopen := true

/-- The test of `pipe-full` in `pipewrite`. -/
def Pipe.full (p : Pipe) : Bool := p.nwrite == p.nread + PIPESIZE

/-- The test of `pipe-empty` in `piperead`. -/
def Pipe.empty (p : Pipe) : Bool := p.nread == p.nwrite

/-- `p->data[p->nwrite++ % PIPESIZE] = x`. -/
def Pipe.put (p : Pipe) (x : UInt8) : Pipe :=
  { p with
    data := Function.update p.data (p.nwrite % PIPESIZE).toNat x
    nwrite := p.nwrite + 1 }

/-- `p->data[p->nread++ % PIPESIZE]`. -/
def Pipe.get (p : Pipe) : UInt8 × Pipe :=
  (p.data (p.nread % PIPESIZE).toNat, { p with nread := p.nread + 1 })

/-- The copy loop of `piperead`, for the remaining number of bytes. -/
def pipereadCopy : Nat → Pipe → List UInt8 × Pipe
  | 0, p => ([], p)
  | n + 1, p =>
    if p.empty then ([], p)
    else
      let (x, p) := p.get
      let (xs, p) := pipereadCopy n p
      (x :: xs, p)

/-- The assignments of `pipeclose`. -/
def pipeclose (writable : Bool) (p : Pipe) : Pipe :=
  if writable then { p with writeopen := false } else { p with readopen := false }

/-- `INPUT_BUF` of `console.c`. -/
def INPUT_BUF : UInt32 := 128

/-- `input` of `console.c`. -/
structure Input where
  buf : Nat → UInt8
  r : UInt32
  w : UInt32
  e : UInt32

/-- `C(x)` of `console.c`. -/
def ctrl (x : Char) : UInt8 := x.toUInt8 - 64

/-- What one turn of the loop of `consoleread` does to the user's buffer. -/
inductive Turn where
  /-- `break` without a byte. -/
  | eof
  /-- A byte is stored, and the loop ends. -/
  | line (x : UInt8)
  /-- A byte is stored, and the loop goes on. -/
  | more (x : UInt8)
  deriving DecidableEq, Repr

/-- One turn of the loop of `consoleread`, when there is input. -/
def consolereadTurn (n : Int32) (target : UInt32) (b : Input) : Turn × Input :=
  let c := b.buf (b.r % INPUT_BUF).toNat
  let b := { b with r := b.r + 1 }
  if c = ctrl 'D' then
    -- a `^D` behind other bytes is kept for the next call
    if n.toUInt32 < target then (.eof, { b with r := b.r - 1 }) else (.eof, b)
  else if c = 10 then (.line c, b)
  else (.more c, b)

/-- The loop of `^U` in `consoleintr`, which stops at `input.w` after `fuel` turns. -/
def killLine : Nat → Input → Input
  | 0, b => b
  | fuel + 1, b =>
    if b.e ≠ b.w ∧ b.buf ((b.e - 1) % INPUT_BUF).toNat ≠ 10 then killLine fuel { b with e := b.e - 1 }
    else b

/-- What `consoleintr` does with a character, and whether it calls `wakeup(&input.r)`. The characters
that only set a flag for a listing change nothing. -/
def consoleintrChar (c : UInt8) (b : Input) : Input × Bool :=
  if c = ctrl 'P' then (b, false)
  else if c = ctrl 'U' then (killLine (b.e - b.w).toNat b, false)
  else if c = ctrl 'H' ∨ c = 0x7f then
    if b.e ≠ b.w then ({ b with e := b.e - 1 }, false) else (b, false)
  else if c = ctrl 'F' ∨ c = ctrl 'R' ∨ c = ctrl 'S' ∨ c = ctrl 'Z' then (b, false)
  else if c ≠ 0 ∧ b.e - b.r < INPUT_BUF then
    let c := if c = 13 then 10 else c
    let b := { b with buf := Function.update b.buf (b.e % INPUT_BUF).toNat c, e := b.e + 1 }
    if c = 10 ∨ c = ctrl 'D' ∨ b.e = b.r + INPUT_BUF then ({ b with w := b.e }, true)
    else (b, false)
  else (b, false)

end TronBoss.File
