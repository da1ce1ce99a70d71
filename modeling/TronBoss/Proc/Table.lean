import Mathlib.Algebra.GroupWithZero.Nat
import TronBoss.Lib.LinkedList
import TronBoss.Lib.Outcome

/-!
# The process table and its list routines

`ptable` of `proc.c` in the `CS333_P3P4` build: the `NPROC` slots, the heads of the state lists
(`struct StateLists`) and the globals the routines of `proc.c` read. The `next` field of a slot is
kept apart from the rest of `struct proc`, next to the list heads, since only the list routines
touch it; these routines therefore act on `Links` and leave everything else alone by construction.
-/

namespace TronBoss

open Lib Function

/-- `NPROC` of `param.h`. -/
def NPROC : Nat := 64

theorem NPROC_pos : 0 < NPROC := by decide

/-- The lowest priority, `MAX` of `proc.c`. -/
def MAX : Nat := 5

instance (priority := 1100) : NeZero (MAX + 1) := ⟨by decide⟩

def DEFAULT_PRIORITY : UInt32 := 0

def DEFAULT_BUDGET : UInt32 := 300

def TICKS_TO_PROMOTE : UInt32 := 1100

/-- A pointer into `ptable.proc`. -/
abbrev Slot := Fin NPROC

instance : LawfulBEq Slot := inferInstance

/-- `enum procstate` of `proc.h`. -/
inductive ProcState where
  | unused | embryo | sleeping | runnable | running | zombie
  deriving DecidableEq, Repr

/-- A sleep channel: null, a process (as `wait` uses), or any other kernel address. -/
inductive Chan where
  | null
  | proc (p : Slot)
  | addr (a : Nat)
  deriving DecidableEq, Repr

/-- The channel a possibly null process pointer stands for. -/
def Chan.ofPtr : Option Slot → Chan
  | none => .null
  | some p => .proc p

/-- The fields of `struct proc` that the routines of `proc.c` use, except `next`. -/
structure Proc where
  state : ProcState
  pid : UInt32
  parent : Option Slot
  chan : Chan
  killed : Bool
  sz : UInt32
  uid : UInt32
  gid : UInt32
  startTicks : UInt32
  cpuTicksTotal : UInt32
  cpuTicksIn : UInt32
  priority : UInt32
  budget : UInt32
  deriving DecidableEq, Repr

/-- A slot of the zeroed table. -/
def Proc.zero : Proc where
  state := .unused
  pid := 0
  parent := none
  chan := .null
  killed := false
  sz := 0
  uid := 0
  gid := 0
  startTicks := 0
  cpuTicksTotal := 0
  cpuTicksIn := 0
  priority := 0
  budget := 0

/-- The list heads of `struct StateLists`. -/
inductive ListId where
  | ready (i : Fin (MAX + 1))
  | free | sleep | zombie | running | embryo
  deriving DecidableEq, Repr

/-- The list heads and the `next` fields. -/
structure Links where
  head : ListId → Option Slot
  next : Slot → Option Slot

/-- `ptable`, with the other globals that the routines of `proc.c` use. -/
structure PTable where
  proc : Slot → Proc
  links : Links
  promoteAtTime : UInt32
  initproc : Option Slot
  nextpid : UInt32
  ticks : UInt32

/-- Update one slot. -/
def PTable.modProc (t : PTable) (p : Slot) (f : Proc → Proc) : PTable :=
  { t with proc := update t.proc p (f (t.proc p)) }

/-- The turns a loop over one state list may take: one for every slot, and one to see the null. -/
def listFuel : Nat := NPROC + 1

/-! ## General state list routines -/

/-- `*sLists = q;` -/
def Links.setHead (k : Links) (l : ListId) (q : Option Slot) : Links :=
  { k with head := update k.head l q }

/-- `p->next = q;` -/
def Links.setNext (k : Links) (p : Slot) (q : Option Slot) : Links :=
  { k with next := update k.next p q }

def addtofrontoflist (l : ListId) (p : Option Slot) (k : Links) : Links :=
  match p with
  | none => k
  | some p => (k.setNext p (k.head l)).setHead l (some p)

/-- `removefromfront`; the source overwrites its argument `p` before reading it. -/
def removefromfront (l : ListId) (k : Links) : Int × Links :=
  match k.head l with
  | none => (-1, k)
  | some p => (0, (k.setHead l (k.next p)).setNext p none)

/-- The `while(current)` loop of `removefromlist`. -/
def removefromlistLoop (p : Slot) (k : Links) : Nat → Slot → Option Slot → Option (Int × Links)
  | 0, _, _ => none
  | _ + 1, _, none => some (-1, k)
  | fuel + 1, previous, some current =>
    if current = p then some (0, (k.setNext previous (k.next p)).setNext p none)
    else removefromlistLoop p k fuel current (k.next current)

def removefromlist (l : ListId) (p : Option Slot) (k : Links) : Except Stop (Int × Links) :=
  match p, k.head l with
  | none, _ => .ok (-1, k)
  | some _, none => .ok (-1, k)
  | some p, some current =>
    if current = p then .ok (0, (k.setHead l (k.next current)).setNext p none)
    else terminating (removefromlistLoop p k listFuel current (k.next current))

def addtoreadyprioritylist (l : ListId) (p : Option Slot) (k : Links) :
    Except Stop (Int × Links) :=
  match p with
  | none => .ok (-1, k)
  | some p =>
    match k.head l with
    | none => .ok (0, (k.setNext p none).setHead l (some p))
    | some current => do
      let current ← terminating (lastNode k.next listFuel current)
      return (0, (k.setNext current (some p)).setNext p none)

/-- `&ptable.pLists.ready[priority]`. -/
def readyList (priority : UInt32) : Except Stop ListId :=
  if h : priority.toNat < MAX + 1 then .ok (.ready ⟨priority.toNat, h⟩) else .error .outOfBounds

def assertstate (p : Slot) (state : ProcState) (t : PTable) : Except Stop Unit :=
  panicIf ((t.proc p).state ≠ state) "ERROR: unexpected process state. "

/-- The search loop that `kill`, `wait`, `checkforchildren` and `setprocpriority` run over one
list. -/
def PTable.search (t : PTable) (l : ListId) (q : Proc → Bool) : Except Stop (Option Slot) :=
  terminating (findNode t.links.next (fun p => q (t.proc p)) listFuel (t.links.head l))

/-- A loop that changes fields of every process of one list. -/
def PTable.forList (t : PTable) (l : ListId) (f : Proc → Proc) : Except Stop PTable :=
  terminating (forNodes (fun t => t.links.next) (fun p t => t.modProc p f) listFuel
    (t.links.head l) t)

def checkforchildren (l : ListId) (parent : Slot) (t : PTable) : Except Stop Int := do
  let child ← t.search l fun p => p.parent = some parent
  return if child.isSome then 0 else -1

def adoptzombiechildren (l : ListId) (parent : Slot) (t : PTable) : Except Stop PTable :=
  t.forList l fun p => if p.parent = some parent then { p with parent := t.initproc } else p

end TronBoss
