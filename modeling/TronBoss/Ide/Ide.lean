import TronBoss.Lib.Hoare
import TronBoss.Lib.LinkedList
import TronBoss.Log.Bio

/-!
# The disk driver

`ide.c`, the device that it drives, and the processes that call it. `idelock` is held from the append
in `iderw` to the `sleep` or the return, from the end of a `sleep` to the next one or the return, and
by all of `ideintr`, so each of these parts is one step. The tests at the start of `iderw` come before
the lock and are a step of their own. `sleep` gives up `idelock` and goes to sleep at once, as far as
a `wakeup` under `idelock` can see.

A process gets a buffer from `bget`, which does not give out a block twice, and may change it as long
as it holds it and is not in `iderw`. The device raises one interrupt for each command.
-/

namespace TronBoss.Ide

open Lib Function

variable {P : Type}

/-! ## The device -/

/-- `IDE_DF` and `IDE_ERR`. -/
def errorBits : UInt8 := 0x20 ||| 0x01

/-- The registers `0x1f2` to `0x1f6`. -/
structure Regs where
  count : UInt8
  lba0 : UInt8
  lba1 : UInt8
  lba2 : UInt8
  head : UInt8
  deriving DecidableEq

/-- The drive that the registers select. -/
def Regs.drive (r : Regs) : Bool := r.head &&& 0x10 != 0

/-- The sector that the registers select. -/
def Regs.sector (r : Regs) : Nat :=
  r.lba0.toNat + 2 ^ 8 * r.lba1.toNat + 2 ^ 16 * r.lba2.toNat + 2 ^ 24 * (r.head &&& 0x0f).toNat

/-- `IDE_CMD_READ`, and `IDE_CMD_WRITE` with the data from `outsl`. -/
inductive Command where
  | read (r : Regs)
  | write (r : Regs) (data : Block)

/-- The device: the disks, the command it works on, what its status and data registers give when it
has none, and an interrupt that has not been delivered. -/
structure Device where
  disk : Bool → Nat → Block
  command : Option Command
  status : UInt8
  port : Block
  irq : Bool

/-- A write of one sector. -/
def Device.write (d : Device) (r : Regs) (data : Block) : Device :=
  { d with
    disk := update d.disk r.drive (update (d.disk r.drive) r.sector data) }

/-- The device is done with a command and reports a status. After an error the sector, or the data
register, holds some `junk`. -/
def Device.complete (d : Device) (status : UInt8) (junk : Block) : Command → Device
  | .read r =>
    { d with
      command := none, status, irq := true
      port := if status &&& errorBits = 0 then d.disk r.drive r.sector else junk }
  | .write r data =>
    { d.write r (if status &&& errorBits = 0 then data else junk) with
      command := none, status, irq := true }

/-! ## The driver -/

/-- `struct buf`, without the links. The flag `B_BUSY` records who holds the buffer. -/
structure Buf (P : Type) where
  dev : UInt32
  blockno : UInt32
  busy : Option P
  valid : Bool
  dirty : Bool
  data : Block

/-- `(b->flags & (B_VALID|B_DIRTY)) == B_VALID`. -/
def Buf.done (x : Buf P) : Bool := x.valid && !x.dirty

/-- Where a process is. In `iderw` it waits for the buffer `b`, and `want` is what it has asked to be
written, if anything. -/
inductive Pc where
  | out
  /-- In `iderw`, after the tests. -/
  | called (b : Fin NBUF) (want : Option Block)
  /-- In the `sleep` of `iderw`. -/
  | asleep (b : Fin NBUF) (want : Option Block)
  /-- In the `sleep` of `iderw`, woken up. -/
  | awake (b : Fin NBUF) (want : Option Block)

/-- The process is not in `iderw`. -/
def Pc.isOut : Pc → Bool
  | .out => true
  | _ => false

/-- What happens to a request. -/
inductive Event where
  | arrive (b : Fin NBUF)
  | start (b : Fin NBUF)
  | finish (b : Fin NBUF)
  deriving DecidableEq

/-- The machine. `qnext` is the field of the buffers, and `log` is what has happened to the requests
so far. -/
structure Driver (P : Type) where
  buf : Fin NBUF → Buf P
  qnext : Fin NBUF → Option (Fin NBUF)
  idequeue : Option (Fin NBUF)
  havedisk1 : Bool
  device : Device
  proc : P → Pc
  log : List Event

/-- A routine of the driver. -/
abbrev IdeM (P : Type) : Type → Type := Routine (Driver P)

def Driver.setBuf (s : Driver P) (b : Fin NBUF) (x : Buf P) : Driver P :=
  { s with buf := update s.buf b x }

def Driver.setProc [DecidableEq P] (s : Driver P) (p : P) (x : Pc) : Driver P :=
  { s with proc := update s.proc p x }

def Driver.record (s : Driver P) (e : Event) : Driver P := { s with log := s.log ++ [e] }

def Driver.setNext (s : Driver P) (b : Fin NBUF) (x : Option (Fin NBUF)) : Driver P :=
  { s with qnext := update s.qnext b x }

/-- `idewait`. The device is busy as long as it works on a command. -/
def idewait (checkerr : Bool) : IdeM P Int := do
  let d := (← get).device
  match d.command with
  | some _ => throw .diverge
  | none => if checkerr ∧ d.status &&& errorBits ≠ 0 then return -1 else return 0

/-- The registers that `idestart` sets. -/
def Buf.regs (x : Buf P) : Regs where
  count := 1
  lba0 := x.blockno.toUInt8
  lba1 := (x.blockno >>> 8).toUInt8
  lba2 := (x.blockno >>> 16).toUInt8
  head := (0xe0 : UInt8) ||| ((x.dev &&& 1).toUInt8 <<< 4) ||| ((x.blockno >>> 24).toUInt8 &&& 0x0f)

/-- The command that `idestart` gives. -/
def Buf.command (x : Buf P) : Command :=
  if x.dirty then .write x.regs x.data else .read x.regs

def idestart : Option (Fin NBUF) → IdeM P Unit
  | none => throw (.panic "idestart")
  | some b => do
    let x := (← get).buf b
    panicIf (FSSIZE ≤ x.blockno.toNat) "incorrect blockno"
    let _ ← idewait false
    modify fun s => { s with device := { s.device with command := some x.command } }.record (.start b)

/-- A process that sleeps on the buffer wakes up. -/
def Pc.wakeup (b : Fin NBUF) : Pc → Pc
  | .asleep b' want => if b' = b then .awake b' want else .asleep b' want
  | pc => pc

/-- `wakeup(b)`. -/
def wakeup (b : Fin NBUF) : IdeM P Unit :=
  modify fun s => { s with proc := fun p => (s.proc p).wakeup b }

/-- `insl(0x1f0, b->data, BSIZE/4)`. -/
def insl (b : Fin NBUF) : IdeM P Unit :=
  modify fun s => s.setBuf b { s.buf b with data := s.device.port }

/-- `if(!(b->flags & B_DIRTY) && idewait(1) >= 0) insl(...)`. -/
def readData (b : Fin NBUF) : IdeM P Unit := do
  if ((← get).buf b).dirty = false then
    if 0 ≤ (← idewait true) then insl b

/-- `if(idequeue != 0) idestart(idequeue)`. -/
def startNext : IdeM P Unit := do
  let s ← get
  if s.idequeue ≠ none then idestart s.idequeue

def ideintr : IdeM P Unit := do
  match (← get).idequeue with
  | none => return
  | some b => do
    modify fun s => { s with idequeue := s.qnext b }
    readData b
    modify fun s => (s.setBuf b { s.buf b with valid := true, dirty := false }).record (.finish b)
    wakeup b
    startNext

/-- The tests of `iderw`. -/
def iderwTests (b : Fin NBUF) : IdeM P Unit := do
  let s ← get
  panicIf ((s.buf b).busy.isNone) "iderw: buf not busy"
  panicIf ((s.buf b).done) "iderw: nothing to do"
  panicIf ((s.buf b).dev ≠ 0 ∧ ¬ s.havedisk1) "iderw: ide disk 1 not present"

/-- The loop of `iderw` that appends the buffer to the queue. -/
def enqueue (b : Fin NBUF) : IdeM P Unit := do
  modify fun s => s.setNext b none
  let s ← get
  match s.idequeue with
  | none => modify fun s => { s with idequeue := some b }
  | some h =>
    let last ← (terminating (lastNode s.qnext (NBUF + 1) h) : Except Stop (Fin NBUF))
    modify fun s => s.setNext last (some b)

/-- The append of `iderw`, and the start of the device if it is idle. -/
def iderwAppend (b : Fin NBUF) : IdeM P Unit := do
  enqueue b
  modify fun s => s.record (.arrive b)
  if (← get).idequeue = some b then idestart (some b)

variable [DecidableEq P]

/-- The head of the loop of `iderw`: the process returns or goes to sleep. -/
def iderwLoop (p : P) (b : Fin NBUF) (want : Option Block) : IdeM P Unit :=
  modify fun s => s.setProc p (if (s.buf b).done then .out else .asleep b want)

/-! ## The steps of the machine -/

/-- The steps: what a process does with the buffers it holds, its calls of `iderw`, and what the
device does. -/
inductive Act (P : Type) where
  | bget (p : P) (b : Fin NBUF) (dev blockno : UInt32)
  /-- The holder changes the contents of a buffer, and sets `B_DIRTY` if it wants to. -/
  | edit (p : P) (b : Fin NBUF) (data : Block) (dirty : Bool)
  | brelse (p : P) (b : Fin NBUF)
  | iderw (p : P) (b : Fin NBUF)
  /-- The process in `iderw` gets `idelock`. -/
  | acquire (p : P)
  /-- The process is woken up by something else than the driver, such as `kill`. -/
  | wake (p : P)
  | complete (status : UInt8) (junk : Block)
  | ideintr

/-- No other buffer that is in use has the block. -/
def Driver.Unused (s : Driver P) (b : Fin NBUF) (dev blockno : UInt32) : Prop :=
  ∀ b', b' ≠ b → (s.buf b').busy ≠ none → ¬ ((s.buf b').dev = dev ∧ (s.buf b').blockno = blockno)

instance Driver.decidableUnused (s : Driver P) (b : Fin NBUF) (dev blockno : UInt32) :
    Decidable (s.Unused b dev blockno) :=
  inferInstanceAs (Decidable (∀ b', b' ≠ b → (s.buf b').busy ≠ none → ¬ _))

/-- `bget`, when it does not go to sleep and takes the buffer `b`: it has the block already, or it is
recycled. -/
def Buf.take (p : P) (dev blockno : UInt32) (x : Buf P) : Buf P :=
  if x.dev = dev ∧ x.blockno = blockno then { x with busy := some p }
  else { x with dev, blockno, busy := some p, valid := false, dirty := false }

/-- The step of a process with `idelock`. -/
def Driver.locked (p : P) : Pc → IdeM P Unit
  | .called b want => do
    iderwAppend b
    iderwLoop p b want
  | .awake b want => iderwLoop p b want
  | _ => throw .disabled

/-- One step of the machine. -/
def Driver.step : Act P → IdeM P Unit
  | .bget p b dev blockno => do
    let s ← get
    -- the file system is on one of the two disks that the driver knows
    require ((s.proc p).isOut ∧ dev < 2 ∧ (s.buf b).busy = none ∧ s.Unused b dev blockno)
    require ((s.buf b).dev = dev ∧ (s.buf b).blockno = blockno ∨ (s.buf b).dirty = false)
    set (s.setBuf b ((s.buf b).take p dev blockno))
  | .edit p b data dirty => do
    let s ← get
    require ((s.proc p).isOut ∧ (s.buf b).busy = some p)
    set (s.setBuf b { s.buf b with data, dirty := (s.buf b).dirty || dirty })
  | .brelse p b => do
    let s ← get
    require ((s.proc p).isOut ∧ (s.buf b).busy = some p)
    set (s.setBuf b { s.buf b with busy := none })
  | .iderw p b => do
    let s ← get
    require ((s.proc p).isOut ∧ (s.buf b).busy = some p)
    iderwTests b
    set (s.setProc p (.called b (if (s.buf b).dirty then some (s.buf b).data else none)))
  | .acquire p => do
    let s ← get
    Driver.locked p (s.proc p)
  | .wake p => do
    let s ← get
    match s.proc p with
    | .asleep b want => set (s.setProc p (.awake b want))
    | _ => throw .disabled
  | .complete status junk => do
    let s ← get
    match s.device.command with
    | some c => set { s with device := s.device.complete status junk c }
    | none => throw .disabled
  | .ideintr => do
    let s ← get
    -- an interrupt of the device, or a spurious one that finds no request
    require (s.device.irq ∨ s.idequeue = none)
    set { s with device := { s.device with irq := false } }
    TronBoss.Ide.ideintr

/-- The machine after `binit` and `ideinit`. -/
def Driver.start (disk : Bool → Nat → Block) (havedisk1 : Bool) : Driver P where
  buf _ := { dev := -1, blockno := 0, busy := none, valid := false, dirty := false, data := .zero }
  qnext _ := none
  idequeue := none
  havedisk1
  device := { disk, command := none, status := 0x40, port := .zero, irq := false }
  proc _ := .out
  log := []

/-- A sequence of steps. -/
def Driver.run (as : List (Act P)) : IdeM P Unit := as.forM Driver.step

/-- The device reports no error. -/
def Act.NoError : Act P → Prop
  | .complete status _ => status &&& errorBits = 0
  | _ => True

instance Act.decidableNoError : (a : Act P) → Decidable a.NoError
  | .complete status _ => inferInstanceAs (Decidable (status &&& errorBits = 0))
  | .bget .. | .edit .. | .brelse .. | .iderw .. | .acquire .. | .wake .. | .ideintr =>
    inferInstanceAs (Decidable True)

end TronBoss.Ide
