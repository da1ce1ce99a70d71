import TronBoss.Proc.Sections

/-!
# The processors and their interleavings

The machine that runs `proc.c`: the process table, what each processor is doing, where each process
is inside a routine that spans several sections, and who holds `ptable.lock`. A step is one section
that holds the lock, or the part of `allocproc` and `fork` between two sections, or a clock tick.
A section starts only when the lock is free; a processor that enters the scheduler through `sched`
keeps the lock until the scheduler dispatches a process or ends its loop.
-/

namespace TronBoss

open Lib

/-- `NCPU` of `param.h`. -/
def NCPU : Nat := 8

/-- The first processor. -/
def cpu0 : Fin NCPU := ⟨0, by decide⟩

/-- The second processor. -/
def cpu1 : Fin NCPU := ⟨1, by decide⟩

/-- What a processor is doing. -/
inductive CpuState where
  /-- In `scheduler`, outside the lock. -/
  | idle
  /-- In the loop of `scheduler` at index `i`, holding the lock. -/
  | loop (i : Fin (MAX + 1))
  /-- Running the process `p`; `last` records that the loop of `scheduler` was at index `MAX`, so
  that it ends when the process comes back. -/
  | run (p : Slot) (last : Bool)
  deriving DecidableEq, Repr

/-- Where a process is, when it is inside a routine that spans several sections. -/
inductive Cont where
  /-- In none of these routines. -/
  | other
  /-- In `allocproc` called by `fork`, with the embryo `np` that has no kernel stack yet. -/
  | alloc (np : Slot)
  /-- In `fork`, before `copyuvm`. -/
  | fork (np : Slot)
  /-- In `fork`, before its last section. -/
  | copied (np : Slot)
  /-- In `sleep`, called with a lock other than `ptable.lock`. -/
  | asleep
  /-- In `sleep`, called by `wait`. -/
  | wait
  deriving DecidableEq, Repr

/-- The embryo that a process is making. -/
def Cont.embryo? : Cont → Option Slot
  | .alloc np | .fork np | .copied np => some np
  | _ => none

/-- The machine. -/
structure Sys where
  t : PTable
  cpu : Fin NCPU → CpuState
  cont : Slot → Cont
  lock : Option (Fin NCPU)

/-- The steps. The processor that makes a step is `c`; `ok` is whether a memory allocation of
`fork` succeeds. A wakeup may also come from an interrupt handler on any processor. -/
inductive Act where
  | fork (c : Fin NCPU)
  | forkStack (c : Fin NCPU) (ok : Bool)
  | forkImage (c : Fin NCPU) (ok : Bool)
  | forkDone (c : Fin NCPU)
  | exit (c : Fin NCPU)
  | wait (c : Fin NCPU)
  | yield (c : Fin NCPU)
  | sleep (c : Fin NCPU) (chan : Chan)
  | wakeup (chan : Chan)
  | kill (c : Fin NCPU) (pid : Int32)
  | setpriority (c : Fin NCPU) (pid priority : Int32)
  | fault (c : Fin NCPU)
  | enter (c : Fin NCPU)
  | turn (c : Fin NCPU)
  | tick
  deriving DecidableEq, Repr

/-- The sections of a `fork` that succeeds. -/
def forkActs (c : Fin NCPU) : List Act :=
  [.fork c, .forkStack c true, .forkImage c true, .forkDone c]

/-- The process a processor runs, `proc` of `proc.h`. -/
def Sys.current (s : Sys) (c : Fin NCPU) : Except Stop (Slot × Bool) :=
  match s.cpu c with
  | .run p last => .ok (p, last)
  | _ => .error .disabled

def Sys.setCpu (s : Sys) (c : Fin NCPU) (x : CpuState) : Sys :=
  { s with cpu := Function.update s.cpu c x }

def Sys.setCont (s : Sys) (p : Slot) (x : Cont) : Sys :=
  { s with cont := Function.update s.cont p x }

/-- The switch from a process to the scheduler, which goes on with its loop: from the start, or to
its end and the release of the lock. -/
def Sys.swtch (s : Sys) (c : Fin NCPU) (last : Bool) : Sys :=
  if last then { s.setCpu c .idle with lock := none }
  else { s.setCpu c (.loop 0) with lock := some c }

/-- The switch from the scheduler to a process. A process that was in `sleep` clears its channel;
one that was in `wait` goes on with its loop under the lock, and every other one releases it. -/
def Sys.resume (s : Sys) (c : Fin NCPU) (p : Slot) (last : Bool) : Sys :=
  let s := s.setCpu c (.run p last)
  match s.cont p with
  | .wait => { s with t := s.t.modProc p fun q => { q with chan := .null } }
  | .asleep =>
    { s.setCont p .other with
      t := s.t.modProc p fun q => { q with chan := .null }
      lock := none }
  | _ => { s with lock := none }

/-- One step of the machine. -/
def Sys.step (s : Sys) : Act → Except Stop Sys
  | .fork c => do
    let (p, _) ← s.current c
    require (s.lock = none ∧ s.cont p = .other)
    match ← allocprocTake s.t with
    | (none, t) => return { s with t := t }
    | (some np, t) => return { s.setCont p (.alloc np) with t := t }
  | .forkStack c ok => do
    let (p, _) ← s.current c
    match s.cont p with
    | .alloc np =>
      if ok then return { s.setCont p (.fork np) with t := allocprocInit np s.t }
      else
        require (s.lock = none)
        let t ← allocprocFail np s.t
        return { s.setCont p .other with t := t }
    | _ => .error .disabled
  | .forkImage c ok => do
    let (p, _) ← s.current c
    match s.cont p with
    | .fork np =>
      if ok then return { s.setCont p (.copied np) with t := forkCopy p np s.t }
      else
        require (s.lock = none)
        let t ← forkFail np s.t
        return { s.setCont p .other with t := t }
    | _ => .error .disabled
  | .forkDone c => do
    let (p, _) ← s.current c
    match s.cont p with
    | .copied np =>
      require (s.lock = none)
      let t ← forkReady np s.t
      return { s.setCont p .other with t := t }
    | _ => .error .disabled
  | .exit c => do
    let (p, last) ← s.current c
    require (s.lock = none ∧ s.cont p = .other)
    let t ← exit p s.t
    return { s with t := t }.swtch c last
  | .wait c => do
    let (p, last) ← s.current c
    require ((s.lock = none ∧ s.cont p = .other) ∨ (s.lock = some c ∧ s.cont p = .wait))
    match ← wait p s.t with
    | (.ret _, t) => return { s.setCont p .other with t := t, lock := none }
    | (.slept, t) => return { s.setCont p .wait with t := t }.swtch c last
  | .yield c => do
    let (p, last) ← s.current c
    require (s.lock = none)
    let t ← yield p s.t
    return { s with t := t }.swtch c last
  | .sleep c chan => do
    let (p, last) ← s.current c
    require (s.lock = none ∧ s.cont p = .other)
    let t ← sleep chan p s.t
    return { s.setCont p .asleep with t := t }.swtch c last
  | .wakeup chan => do
    require (s.lock = none)
    let t ← wakeup1 chan s.t
    return { s with t := t }
  | .kill c pid => do
    let (p, _) ← s.current c
    require (s.lock = none ∧ s.cont p = .other)
    let (_, t) ← kill pid s.t
    return { s with t := t }
  | .setpriority c pid priority => do
    let (p, _) ← s.current c
    require (s.lock = none ∧ s.cont p = .other)
    let (_, t) ← setpriority pid priority s.t
    return { s with t := t }
  | .fault c => do
    let (p, _) ← s.current c
    require (s.cont p = .other)
    return { s with t := s.t.modProc p fun q => { q with killed := true } }
  | .enter c => do
    require (s.lock = none ∧ s.cpu c = .idle)
    return { s.setCpu c (.loop 0) with lock := some c }
  | .turn c =>
    match s.cpu c with
    | .loop i => do
      require (s.lock = some c)
      let t ← promotion s.t
      match ← dispatch i t with
      | (some p, t) => return { s with t := t }.resume c p (i = Fin.last MAX)
      | (none, t) =>
        if h : i.val + 1 < MAX + 1 then
          return { s.setCpu c (.loop ⟨i.val + 1, h⟩) with t := t }
        else return { s.setCpu c .idle with t := t, lock := none }
    | _ => .error .disabled
  | .tick => return { s with t := { s.t with ticks := s.t.ticks + 1 } }

/-- The machine when `userinit` has returned the table `t`: no processor runs a process. -/
def Sys.init (t : PTable) : Sys where
  t := t
  cpu _ := .idle
  cont _ := .other
  lock := none

/-- The states that the machine reaches from `userinit`. -/
inductive Sys.Reachable : Sys → Prop
  | init {t : PTable} : userinit .zero = .ok t → Reachable (.init t)
  | step {s s' : Sys} {a : Act} : Reachable s → s.step a = .ok s' → Reachable s'

/-- The states reached from `s₀` by steps that all satisfy a condition. -/
inductive Sys.Run (P : Sys → Act → Prop) (s₀ : Sys) : Sys → Prop
  | refl : Run P s₀ s₀
  | step {s s' : Sys} {a : Act} : Run P s₀ s → P s a → s.step a = .ok s' → Run P s₀ s'

theorem Sys.Run.reachable {P : Sys → Act → Prop} {s0 s : Sys} (h : Sys.Run P s0 s)
    (h0 : s0.Reachable) : s.Reachable := by
  induction h with
  | refl => exact h0
  | step _ _ hs ih => exact ih.step hs

/-- The steps `as` one after the other. -/
def Sys.run (s : Sys) (as : List Act) : Except Stop Sys := as.foldlM Sys.step s

/-- A run from a reachable state ends in one. -/
theorem Sys.Reachable.run {as : List Act} {s s' : Sys} (h : s.Reachable) (hr : s.run as = .ok s') :
    s'.Reachable :=
  foldlM_keeps (fun _ => Sys.Reachable.step) h hr

/-- The steps `as` one after the other, each of which has to satisfy a condition. -/
def Sys.runIf (P : Sys → Act → Prop) [∀ s a, Decidable (P s a)] (s : Sys) (as : List Act) :
    Except Stop Sys :=
  as.foldlM (fun s a => do
    require (P s a)
    s.step a) s

theorem Sys.Run.of_runIf {P : Sys → Act → Prop} [∀ s a, Decidable (P s a)] {as : List Act}
    {s s' : Sys} (h : s.runIf P as = .ok s') : Sys.Run P s s' := by
  refine foldlM_keeps (P := Sys.Run P s) (fun _ hx hy => ?_) .refl h
  obtain ⟨hP, hs⟩ := require_bind_eq_ok hy
  exact hx.step hP hs

end TronBoss
