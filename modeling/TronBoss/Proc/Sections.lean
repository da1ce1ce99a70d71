import TronBoss.Proc.Table

/-!
# The sections of `proc.c` that hold `ptable.lock`

Every routine of `proc.c` in the `CS333_P3P4` build, cut at its `acquire` and `release` of
`ptable.lock`: a definition here is what one processor does while it holds the lock, so the
interleavings of the routines are the sequences of these sections. `sched` only updates the
accounting of the process that leaves the processor; the switch itself is a step of the system
(`TronBoss.Proc.System`).
-/

namespace TronBoss

open Lib

/-! ## Creation of processes -/

/-- The first section of `allocproc`: take a slot off the free list and make it an embryo. `none`
is the null pointer that `allocproc` returns when there is no free slot. -/
def allocprocTake (t : PTable) : Except Stop (Option Slot × PTable) :=
  match t.links.head .free with
  | none => .ok (none, t)
  | some p => do
    let (rc, k) := removefromfront .free t.links
    panicIf (rc < 0) "Failed to remove from embryo."
    let t := { t with links := k }
    assertstate p .unused t
    let t := t.modProc p fun q => { q with state := .embryo }
    let t := { t with links := addtofrontoflist .embryo (some p) t.links }
    let t := t.modProc p fun q => { q with pid := t.nextpid }
    return (some p, { t with nextpid := t.nextpid + 1 })

/-- An embryo goes back to the free list: the second section of `allocproc` when there is no memory
for a kernel stack, and the section of `fork` when `copyuvm` fails. The two differ in the text of
the panic only. -/
def unallocproc (msg : String) (p : Slot) (t : PTable) : Except Stop PTable := do
  let (rc, k) ← removefromlist .embryo (some p) t.links
  panicIf (rc < 0) msg
  let t := { t with links := k }
  assertstate p .embryo t
  let t := t.modProc p fun q => { q with state := .unused }
  return { t with links := addtofrontoflist .free (some p) t.links }

/-- The second section of `allocproc`, when `kalloc` fails. -/
def allocprocFail : Slot → PTable → Except Stop PTable :=
  unallocproc "Failure removing from embryo list in allocproc."

/-- The section of `fork` when `copyuvm` fails. -/
def forkFail : Slot → PTable → Except Stop PTable :=
  unallocproc "Failure to remove from embryo list in userinit"

/-- The rest of `allocproc`, which sets the accounting fields without holding the lock. -/
def allocprocInit (p : Slot) (t : PTable) : PTable :=
  t.modProc p fun q =>
    { q with startTicks := t.ticks, cpuTicksTotal := 0, cpuTicksIn := 0,
             budget := DEFAULT_BUDGET, priority := DEFAULT_PRIORITY }

/-- The part of `fork` between `copyuvm` and the last section, which copies the parent's fields
without holding the lock. -/
def forkCopy (proc np : Slot) (t : PTable) : PTable :=
  t.modProc np fun q =>
    { q with sz := (t.proc proc).sz, parent := some proc, uid := (t.proc proc).uid,
             gid := (t.proc proc).gid }

/-- The last section of `fork`. -/
def forkReady (np : Slot) (t : PTable) : Except Stop PTable := do
  let (rc, k) ← removefromlist .embryo (some np) t.links
  panicIf (rc < 0) "Failure to remove from embryo list in userinit"
  let t := { t with links := k }
  assertstate np .embryo t
  let t := t.modProc np fun q => { q with state := .runnable }
  let (rc, k) ← addtoreadyprioritylist (← readyList (t.proc np).priority) (some np) t.links
  panicIf (rc < 0) "Failure to add to ready list in fork"
  return { t with links := k }

/-- The table of the zeroed kernel memory. -/
def PTable.zero : PTable where
  proc _ := .zero
  links := { head := fun _ => none, next := fun _ => none }
  promoteAtTime := 0
  initproc := none
  nextpid := 1
  ticks := 0

/-- The first section of `userinit`: empty every list and put every slot on the free list. -/
def userinitLists (t : PTable) : PTable :=
  let k : Links := { t.links with head := fun _ => none }
  { t with links := (List.finRange NPROC).foldl (fun k p => addtofrontoflist .free (some p) k) k }

/-- The last section of `userinit`, on the embryo that `allocproc` returned. -/
def userinitReady (p : Slot) (t : PTable) : Except Stop PTable := do
  let t := { t with promoteAtTime := TICKS_TO_PROMOTE }
  let (rc, k) ← removefromlist .embryo (some p) t.links
  panicIf (rc < 0) "Failure to remove from embryo list in userinit"
  let t := { t with links := k }
  assertstate p .embryo t
  let t := t.modProc p fun q => { q with state := .runnable }
  return { t with links := (t.links.setNext p none).setHead (.ready 0) (some p) }

/-- `userinit`. A null `allocproc` is dereferenced by the source; it does not happen, since the
free list has just been filled and `kalloc` has all of memory. -/
def userinit (t : PTable) : Except Stop PTable := do
  let t := userinitLists t
  let (p, t) ← allocprocTake t
  match p with
  | none => .error .outOfBounds
  | some p =>
    let t := allocprocInit p t
    let t := { t with initproc := some p }
    -- `p->sz = PGSIZE`, `p->uid = DEFAULT_UID`, `p->gid = DEFAULT_GID`
    let t := t.modProc p fun q => { q with sz := 4096, uid := 0, gid := 0 }
    userinitReady p t

/-! ## Leaving the processor -/

/-- `sched`: charge the time since the dispatch to `proc`, and check that it left the state
`RUNNING`. -/
def sched (proc : Slot) (t : PTable) : Except Stop PTable := do
  let t := t.modProc proc fun q =>
    { q with cpuTicksTotal := q.cpuTicksTotal + (t.ticks - q.cpuTicksIn) }
  panicIf ((t.proc proc).state = .running) "sched running"
  return t

/-- The budget update that `yield` and `sleep` share, with demotion when the budget is used up;
`budget` is unsigned, so `budget <= 0` is `budget == 0`. -/
def chargeBudget (ticks : UInt32) (q : Proc) : Proc :=
  let q := { q with budget := q.budget - (ticks - q.cpuTicksIn) }
  if q.budget ≤ 0 then
    if q.priority ≠ UInt32.ofNat MAX then
      { q with priority := q.priority + 1, budget := DEFAULT_BUDGET }
    else { q with budget := DEFAULT_BUDGET }
  else q

/-- `yield`, which ignores the result of `removefromlist`. -/
def yield (proc : Slot) (t : PTable) : Except Stop PTable := do
  let (_, k) ← removefromlist .running (some proc) t.links
  let t := { t with links := k }
  assertstate proc .running t
  let t := t.modProc proc fun q => chargeBudget t.ticks { q with state := .runnable }
  let (rc, k) ← addtoreadyprioritylist (← readyList (t.proc proc).priority) (some proc) t.links
  panicIf (rc < 0) "Failure to add to ready list in yield"
  sched proc { t with links := k }

/-- `sleep`, up to its call of `sched`. -/
def sleep (chan : Chan) (proc : Slot) (t : PTable) : Except Stop PTable := do
  let t := t.modProc proc fun q => { q with chan := chan }
  let (rc, k) ← removefromlist .running (some proc) t.links
  panicIf (rc < 0) "Failed to remove from running list in sleep "
  let t := { t with links := k }
  assertstate proc .running t
  let t := t.modProc proc fun q => { chargeBudget t.ticks q with state := .sleeping }
  sched proc { t with links := addtofrontoflist .sleep (some proc) t.links }

/-! ## Waking up -/

/-- The branch of `wakeup1` for a process that sleeps on the channel. -/
def wakeup1Proc (p : Slot) (t : PTable) : Except Stop PTable := do
  let (rc, k) ← removefromlist .sleep (some p) t.links
  let t := { t with links := k }
  if rc = 0 then
    assertstate p .sleeping t
    let t := t.modProc p fun q => { q with state := .runnable }
    let (rc, k) ← addtoreadyprioritylist (← readyList (t.proc p).priority) (some p) t.links
    panicIf (rc < 0) "Failed to add to ready list in wakeup1."
    return { t with links := k }
  else return t

/-- The `while(p)` loop of `wakeup1`, which reads `p->next` before it unlinks `p`. -/
def wakeup1Loop (chan : Chan) : Nat → Option Slot → PTable → Except Stop PTable
  | 0, _, _ => .error .diverge
  | _ + 1, none, t => .ok t
  | fuel + 1, some p, t => do
    let temp := t.links.next p
    let t ← if (t.proc p).chan = chan then wakeup1Proc p t else .ok t
    wakeup1Loop chan fuel temp t

def wakeup1 (chan : Chan) (t : PTable) : Except Stop PTable :=
  wakeup1Loop chan listFuel (t.links.head .sleep) t

/-- `killed = 1` for the first process of a list that has the pid; `none` when there is none. -/
def killOn (l : ListId) (pid : UInt32) (t : PTable) : Except Stop (Option PTable) := do
  let p ← t.search l fun q => q.pid = pid
  return p.map fun p => t.modProc p fun q => { q with killed := true }

/-- The loop of `kill` over the ready lists, from `ready[i]` on. -/
def killReady (pid : UInt32) (t : PTable) : List (Fin (MAX + 1)) → Except Stop (Option PTable)
  | [] => .ok none
  | i :: is => do
    match ← killOn (.ready i) pid t with
    | some t => return some t
    | none => killReady pid t is

/-- `kill`. The result is the return value and the new table. -/
def kill (pid : Int32) (t : PTable) : Except Stop (Int × PTable) := do
  match ← t.search .sleep fun q => q.pid = pid.toUInt32 with
  | some p =>
    let (rc, k) ← removefromlist .sleep (some p) t.links
    panicIf (rc < 0) "failure to remove from sleep list in kill. "
    let t := { t with links := k }
    assertstate p .sleeping t
    let t := t.modProc p fun q => { q with state := .runnable, killed := true }
    let (rc, k) ← addtoreadyprioritylist (← readyList (t.proc p).priority) (some p) t.links
    panicIf (rc < 0) "Failure to add to ready list in yield"
    return (0, { t with links := k })
  | none =>
    match ← killOn .embryo pid.toUInt32 t with
    | some t => return (0, t)
    | none =>
      match ← killReady pid.toUInt32 t (List.finRange (MAX + 1)) with
      | some t => return (0, t)
      | none =>
        match ← killOn .running pid.toUInt32 t with
        | some t => return (0, t)
        | none => return (-1, t)

/-! ## Exit and wait -/

/-- The loop of `exit` that adopts the children on the ready lists. -/
def adoptReady (proc : Slot) (t : PTable) : List (Fin (MAX + 1)) → Except Stop PTable
  | [] => .ok t
  | i :: is => do
    let t ← adoptzombiechildren (.ready i) proc t
    adoptReady proc t is

/-- One turn of the loop of `exit` over the zombie list: a zombie child goes to `initproc`, which
is woken. -/
def adoptZombie (proc p : Slot) (t : PTable) : Except Stop PTable :=
  if (t.proc p).parent = some proc then
    wakeup1 (.ofPtr t.initproc) (t.modProc p fun q => { q with parent := t.initproc })
  else .ok t

/-- The loop of `exit` over the zombie list. -/
def adoptZombies (proc : Slot) : Nat → Option Slot → PTable → Except Stop PTable
  | 0, _, _ => .error .diverge
  | _ + 1, none, t => .ok t
  | fuel + 1, some p, t => do
    let t ← adoptZombie proc p t
    adoptZombies proc fuel (t.links.next p) t

/-- The part of `exit` that passes the children of `proc` to `initproc`. -/
def exitReparent (proc : Slot) (t : PTable) : Except Stop PTable := do
  let t ← adoptzombiechildren .embryo proc t
  let t ← adoptReady proc t (List.finRange (MAX + 1))
  let t ← adoptzombiechildren .sleep proc t
  let t ← adoptzombiechildren .running proc t
  adoptZombies proc listFuel (t.links.head .zombie) t

/-- The rest of `exit`, in which the process becomes a zombie. -/
def exitZombie (proc : Slot) (t : PTable) : Except Stop PTable := do
  let (rc, k) ← removefromlist .running (some proc) t.links
  panicIf (rc < 0) "Failure to remove from running list in exit"
  let t := { t with links := k }
  assertstate proc .running t
  let t := t.modProc proc fun q => { q with state := .zombie }
  sched proc { t with links := addtofrontoflist .zombie (some proc) t.links }

/-- `exit`, from its `acquire` to `sched`; `proc == initproc` is the check at its start. -/
def exit (proc : Slot) (t : PTable) : Except Stop PTable := do
  panicIf (some proc = t.initproc) "init exiting"
  let t ← wakeup1 (.ofPtr (t.proc proc).parent) t
  let t ← exitReparent proc t
  exitZombie proc t

/-- What one turn of the loop of `wait` does. -/
inductive WaitResult where
  /-- `wait` returns this value, an `int`: the `uint` field `pid` of the child is converted. -/
  | ret (v : Int32)
  /-- `wait` went to sleep on `proc`, still inside the loop. -/
  | slept
  deriving DecidableEq, Repr

/-- The loop of `wait` over the ready lists that looks for children. -/
def childOnReady (proc : Slot) (t : PTable) : List (Fin (MAX + 1)) → Except Stop Bool
  | [] => .ok false
  | i :: is => do
    let rc ← checkforchildren (.ready i) proc t
    let b ← childOnReady proc t is
    return (rc = 0) || b

/-- One turn of the loop of `wait`: reap a zombie child, give up, or sleep. -/
def wait (proc : Slot) (t : PTable) : Except Stop (WaitResult × PTable) := do
  let embryo ← checkforchildren .embryo proc t
  let running ← checkforchildren .running proc t
  let sleeping ← checkforchildren .sleep proc t
  let ready ← childOnReady proc t (List.finRange (MAX + 1))
  let havekids := embryo = 0 ∨ running = 0 ∨ sleeping = 0 ∨ ready
  match ← t.search .zombie fun q => q.parent = some proc with
  | some p =>
    let (rc, k) ← removefromlist .zombie (some p) t.links
    panicIf (rc < 0) "Failure to remove from zombie list in wait"
    let t := { t with links := k }
    assertstate p .zombie t
    let pid := (t.proc p).pid
    let t := t.modProc p fun q =>
      { q with state := .unused, pid := 0, parent := none, killed := false }
    return (.ret pid.toInt32, { t with links := addtofrontoflist .free (some p) t.links })
  | none =>
    if ¬ havekids ∨ (t.proc proc).killed then return (.ret (-1), t)
    else
      let t ← sleep (.proc proc) proc t
      return (.slept, t)

/-! ## Priorities -/

/-- `setprocpriority`: `-1` when the process already has the priority, `1` when it was set, `0`
when the pid is not on the list. -/
def setprocpriority (l : ListId) (pid priority : UInt32) (t : PTable) :
    Except Stop (Int × PTable) := do
  match ← t.search l fun q => q.pid = pid with
  | none => return (0, t)
  | some p =>
    if (t.proc p).priority = priority then return (-1, t)
    else return (1, t.modProc p fun q => { q with priority := priority, budget := DEFAULT_BUDGET })

/-- `setreadyprocpriority`, from `ready[i]` on. -/
def setreadyprocpriority (pid priority : UInt32) (t : PTable) :
    List (Fin (MAX + 1)) → Except Stop (Int × PTable)
  | [] => .ok (0, t)
  | i :: is => do
    match ← t.search (.ready i) fun q => q.pid = pid with
    | none => setreadyprocpriority pid priority t is
    | some p =>
      if (t.proc p).priority = priority then return (-1, t)
      else
        let t := t.modProc p fun q => { q with priority := priority, budget := DEFAULT_BUDGET }
        let (rc, k) ← removefromlist (.ready i) (some p) t.links
        panicIf (rc < 0) "Error: Removing from ready list in setreadyprocpriority routine."
        let t := { t with links := k }
        let (rc, k) ← addtoreadyprioritylist (← readyList (t.proc p).priority) (some p) t.links
        panicIf (rc < 0) "Error: Adding to ready list in setreadyprocpriority routine."
        return (1, { t with links := k })

def setpriority (pid priority : Int32) (t : PTable) : Except Stop (Int × PTable) := do
  if pid < 0 ∨ 32767 < pid then return (-2, t)
  else if priority < 0 ∨ Int32.ofNat MAX < priority then return (-3, t)
  else
    let (rc, t) ← setprocpriority .running pid.toUInt32 priority.toUInt32 t
    if rc = -1 then return (-5, t)
    else if rc = 1 then return (0, t)
    else
      let (rc, t) ← setprocpriority .sleep pid.toUInt32 priority.toUInt32 t
      if rc = -1 then return (-5, t)
      else if rc = 1 then return (0, t)
      else
        let (rc, t) ←
          setreadyprocpriority pid.toUInt32 priority.toUInt32 t (List.finRange (MAX + 1))
        if rc = -1 then return (-5, t)
        else if rc = 1 then return (0, t)
        else return (-4, t)

def promotiononotherlists (l : ListId) (t : PTable) : Except Stop PTable :=
  t.forList l fun q =>
    if q.priority ≠ DEFAULT_PRIORITY then { q with priority := q.priority - 1 } else q

/-- `promotiononreadylists`, from `ready[j + 1]` to `ready[j]`. The priorities are set by a walk
from the old head `p2` of `ready[j + 1]`. -/
def promotiononreadylists (j : Fin MAX) (t : PTable) : Except Stop PTable := do
  let upper : ListId := .ready j.castSucc
  let lower : ListId := .ready j.succ
  let p2 := t.links.head lower
  let promote (t : PTable) : Except Stop PTable :=
    terminating (forNodes (fun t => t.links.next)
      (fun p t => t.modProc p fun q => { q with priority := UInt32.ofNat j }) listFuel p2 t)
  match t.links.head upper with
  | none =>
    let t ← promote { t with links := t.links.setHead upper p2 }
    return { t with links := t.links.setHead lower none }
  | some p1 =>
    let p1 ← terminating (lastNode t.links.next listFuel p1)
    let t ← promote { t with links := t.links.setNext p1 p2 }
    return { t with links := t.links.setHead lower none }

/-- `promotiononreadylists(j)` for the indices `j` in turn. -/
def promoteReady (t : PTable) : List (Fin MAX) → Except Stop PTable
  | [] => .ok t
  | j :: js => do
    let t ← promotiononreadylists j t
    promoteReady t js

/-- The promotion that the scheduler makes when its time has come. -/
def promotion (t : PTable) : Except Stop PTable := do
  if t.promoteAtTime = t.ticks then
    let t ← promotiononotherlists .sleep t
    let t ← promotiononotherlists .running t
    let t ← promoteReady t (List.finRange MAX)
    return { t with promoteAtTime := t.ticks + TICKS_TO_PROMOTE }
  else return t

/-- One turn of the loop of `scheduler` at index `i`, after the check for promotion: dispatch the
head of `ready[i]`, if there is one. -/
def dispatch (i : Fin (MAX + 1)) (t : PTable) : Except Stop (Option Slot × PTable) := do
  match t.links.head (.ready i) with
  | none => return (none, t)
  | some p =>
    let (rc, k) := removefromfront (← readyList (t.proc p).priority) t.links
    panicIf (rc < 0) "Failed to remove from ready list in scheduler."
    let t := { t with links := k }
    assertstate p .runnable t
    let t := t.modProc p fun q => { q with state := .running }
    let t := { t with links := addtofrontoflist .running (some p) t.links }
    let t := t.modProc p fun q => { q with cpuTicksIn := t.ticks }
    return (some p, t)

end TronBoss
