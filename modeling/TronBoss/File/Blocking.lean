import TronBoss.File.Pipe
import TronBoss.Proc.Frame

/-!
# Processes that block in pipes and in the console

`pipewrite`, `piperead`, `pipeclose` and `consoleread` on top of the machine of
`TronBoss.Proc.System`, cut at every `acquire` and `release`, with the console interrupt on any
processor. The routines test `proc->killed` under the lock of the pipe or of the console, and `kill`
sets it under `ptable.lock`: between the test and the `acquire(&ptable.lock)` of `sleep` a process
holds only the former.
-/

namespace TronBoss.File

open Lib Function

/-- The locks of the pipes, by the address of the page, and `cons.lock`. -/
inductive DevLock where
  | pipe (a : Nat)
  | cons
  deriving DecidableEq, Repr

/-- A call of one of the routines. -/
inductive Call where
  /-- `pipewrite`, with the bytes it has not written yet. -/
  | pipewrite (a : Nat) (addr : List UInt8) (n : Int32)
  | piperead (a : Nat) (n : Int32)
  | pipeclose (a : Nat) (writable : Bool)
  /-- `consoleread`, with the bytes it still wants. -/
  | consoleread (n : Int32) (target : UInt32)
  deriving DecidableEq, Repr

/-- Where a process is in such a call. -/
inductive Point where
  /-- Before the first `acquire`. -/
  | start
  /-- With the lock, before the test of the loop. -/
  | top
  /-- In `pipewrite` with the lock, before `wakeup(&p->nread)` in the loop. -/
  | wake
  /-- In `sleep` with the lock, before `acquire(&ptable.lock)`. -/
  | call
  /-- In `sleep` with both locks, before `release(lk)`. -/
  | both
  /-- In `sleep` with `ptable.lock`, before it goes to sleep. -/
  | last
  /-- In `sleep`, asleep or on the way back to `acquire(lk)`. -/
  | asleep
  /-- With the lock, before the last `wakeup`. -/
  | finish (ret : Int32)
  /-- With the lock, before the last `release`. -/
  | leave (ret : Int32)
  deriving DecidableEq, Repr

/-- The process has a lock, so that it is not preempted. -/
def Point.locked : Point → Bool
  | .start | .asleep => false
  | _ => true

/-- The process has seen that it is not killed, and has not got `ptable.lock` yet. -/
def Point.window : Point → Bool
  | .wake | .call => true
  | _ => false

/-- Where a processor is in `consoleintr`. -/
inductive IntrPoint where
  /-- Somewhere else. -/
  | out
  /-- With `cons.lock`, before the next `getc`. -/
  | getc
  /-- With `cons.lock`, before `wakeup(&input.r)`. -/
  | wake
  deriving DecidableEq, Repr

/-- The machine with the pipes and the console. -/
structure Blk where
  sys : Sys
  pipe : Nat → Pipe
  input : Input
  lk : DevLock → Option (Fin NCPU)
  pos : Slot → Option (Call × Point)
  /-- The bytes that the reads of a process have stored in its memory. -/
  user : Slot → List UInt8
  /-- What the last call of a process returned. -/
  ret : Slot → Int32
  intr : Fin NCPU → IntrPoint

/-- The steps: of the process that a processor runs, of `consoleintr`, and of the rest of the
kernel. -/
inductive BlkAct where
  | begin (c : Fin NCPU) (call : Call)
  /-- `acquire` of the lock, at the start or at the end of `sleep`. -/
  | acquire (c : Fin NCPU)
  /-- The tests of the loop, and what the routine does until the next one or the next `wakeup`. -/
  | test (c : Fin NCPU)
  /-- `wakeup` in the loop of `pipewrite`, or at the end of a routine. -/
  | wakeup (c : Fin NCPU)
  /-- `acquire(&ptable.lock)` in `sleep`. -/
  | lockTable (c : Fin NCPU)
  /-- `release(lk)` in `sleep`. -/
  | unlock (c : Fin NCPU)
  /-- The section of `sleep`. -/
  | sleep (c : Fin NCPU)
  /-- `release` at the end. -/
  | leave (c : Fin NCPU)
  | intrAcquire (c : Fin NCPU)
  | intrChar (c : Fin NCPU) (x : UInt8)
  | intrWakeup (c : Fin NCPU)
  | intrRelease (c : Fin NCPU)
  | pipealloc (a : Nat)
  | env (a : Act)
  deriving DecidableEq, Repr

/-- The processor holds a lock for one of the routines. -/
def Blk.Busy (m : Blk) (c : Fin NCPU) : Prop :=
  m.intr c ≠ .out ∨ ∃ p b, m.sys.cpu c = .run p b ∧ (m.pos p).any (·.2.locked)

/-- The process is inside one of the routines. -/
def Blk.Inside (m : Blk) (p : Slot) : Prop := (m.pos p).isSome

instance Blk.decidableBusy (m : Blk) (c : Fin NCPU) : Decidable (m.Busy c) :=
  inferInstanceAs (Decidable (_ ∨ _))

instance Blk.decidableInside (m : Blk) (p : Slot) : Decidable (m.Inside p) :=
  inferInstanceAs (Decidable (_ = _))

def Blk.setPos (m : Blk) (p : Slot) (x : Option (Call × Point)) : Blk :=
  { m with pos := update m.pos p x }

def Blk.setPipe (m : Blk) (a : Nat) (x : Pipe) : Blk :=
  { m with pipe := update m.pipe a x }

def Blk.setLk (m : Blk) (l : DevLock) (x : Option (Fin NCPU)) : Blk :=
  { m with lk := update m.lk l x }

/-- The bytes that a routine stores at the end of what it has stored. -/
def Blk.store (m : Blk) (p : Slot) (xs : List UInt8) : Blk :=
  { m with user := update m.user p (m.user p ++ xs) }

def Blk.setIntr (m : Blk) (c : Fin NCPU) (x : IntrPoint) : Blk :=
  { m with intr := update m.intr c x }

/-- The channel `&p->nread` of the pipe in the page at `a`. -/
def nreadChan (a : Nat) : Chan := .addr (a + 564)

/-- The channel `&p->nwrite` of the pipe in the page at `a`. -/
def nwriteChan (a : Nat) : Chan := .addr (a + 568)

/-- The call has just been made: nothing is written or read yet. -/
def Call.Fresh : Call → Prop
  | .pipewrite _ addr n => addr.length = n.toInt.toNat
  | .consoleread n target => target = n.toUInt32
  | _ => True

instance : (call : Call) → Decidable call.Fresh
  | .pipewrite _ addr n => inferInstanceAs (Decidable (addr.length = n.toInt.toNat))
  | .consoleread n target => inferInstanceAs (Decidable (target = n.toUInt32))
  | .piperead _ _ | .pipeclose _ _ => inferInstanceAs (Decidable True)

/-- The lock of a routine. -/
def Call.lock : Call → DevLock
  | .pipewrite a _ _ | .piperead a _ | .pipeclose a _ => .pipe a
  | .consoleread _ _ => .cons

/-- The loop of a routine from its test: the routine has to sleep, or it does a part of its work and
goes on, or it is done. -/
def Blk.test (m : Blk) (p : Slot) : Call → Blk × Call × Point
  | .pipewrite a [] n => (m, .pipewrite a [] n, .finish n)
  | .pipewrite a (x :: xs) n =>
    if (m.pipe a).full then
      if (m.pipe a).readopen = false ∨ (m.sys.t.proc p).killed then
        (m, .pipewrite a (x :: xs) n, .leave (-1))
      else (m, .pipewrite a (x :: xs) n, .wake)
    else (m.setPipe a ((m.pipe a).put x), .pipewrite a xs n, .top)
  | .piperead a n =>
    if (m.pipe a).empty ∧ (m.pipe a).writeopen then
      if (m.sys.t.proc p).killed then (m, .piperead a n, .leave (-1))
      else (m, .piperead a n, .call)
    else
      let (xs, x) := pipereadCopy n.toInt.toNat (m.pipe a)
      ((m.setPipe a x).store p xs, .piperead a n, .finish (.ofNat xs.length))
  | .pipeclose a writable =>
    (m.setPipe a (pipeclose writable (m.pipe a)), .pipeclose a writable, .finish 0)
  | .consoleread n target =>
    if 0 < n then
      if m.input.r = m.input.w then
        if (m.sys.t.proc p).killed then (m, .consoleread n target, .leave (-1))
        else (m, .consoleread n target, .call)
      else
        match consolereadTurn n target m.input with
        | (.eof, b) =>
          ({ m with input := b }, .consoleread n target, .leave (target - n.toUInt32).toInt32)
        | (.line x, b) =>
          ({ m with input := b }.store p [x], .consoleread (n - 1) target,
            .leave (target - (n - 1).toUInt32).toInt32)
        | (.more x, b) => ({ m with input := b }.store p [x], .consoleread (n - 1) target, .top)
    else (m, .consoleread n target, .leave (target - n.toUInt32).toInt32)

section
variable (inputR : Nat)

/-- The channel on which a routine sleeps, where `inputR` is the address of `input.r`. -/
def Call.chan : Call → Chan
  | .pipewrite a _ _ => nwriteChan a
  | .piperead a _ => nreadChan a
  | .pipeclose _ _ => .null
  | .consoleread _ _ => .addr inputR

/-- The channel that a routine wakes up in its loop, and at its end. -/
def Call.wakes : Call → Chan
  | .pipewrite a _ _ | .pipeclose a true => nreadChan a
  | .piperead a _ | .pipeclose a false => nwriteChan a
  | .consoleread _ _ => .null

/-- One step. -/
def Blk.step (m : Blk) : BlkAct → Except Stop Blk
  | .begin c call => do
    let (p, _) ← m.sys.current c
    require (m.pos p = none ∧ m.sys.cont p = .other ∧ ¬ m.Busy c ∧ call.Fresh)
    return m.setPos p (some (call, .start))
  | .acquire c => do
    let (p, _) ← m.sys.current c
    match m.pos p with
    | some (call, pt) =>
      require (pt.locked = false ∧ ¬ m.Busy c ∧ m.lk call.lock = none)
      return (m.setLk call.lock (some c)).setPos p (some (call, .top))
    | none => .error .disabled
  | .test c => do
    let (p, _) ← m.sys.current c
    match m.pos p with
    | some (call, .top) =>
      let (m, call, pt) := m.test p call
      return m.setPos p (some (call, pt))
    | _ => .error .disabled
  | .wakeup c => do
    let (p, _) ← m.sys.current c
    require (m.sys.lock = none)
    match m.pos p with
    | some (call, .wake) =>
      let t ← wakeup1 call.wakes m.sys.t
      return { m with sys := { m.sys with t := t } }.setPos p (some (call, .call))
    | some (call, .finish ret) =>
      let t ← wakeup1 call.wakes m.sys.t
      return { m with sys := { m.sys with t := t } }.setPos p (some (call, .leave ret))
    | _ => .error .disabled
  | .lockTable c => do
    let (p, _) ← m.sys.current c
    require (m.sys.lock = none)
    match m.pos p with
    | some (call, .call) =>
      return { m with sys := { m.sys with lock := some c } }.setPos p (some (call, .both))
    | _ => .error .disabled
  | .unlock c => do
    let (p, _) ← m.sys.current c
    match m.pos p with
    | some (call, .both) => return (m.setLk call.lock none).setPos p (some (call, .last))
    | _ => .error .disabled
  | .sleep c => do
    let (p, last) ← m.sys.current c
    match m.pos p with
    | some (call, .last) =>
      let t ← sleep (call.chan inputR) p m.sys.t
      let s := { m.sys.setCont p .asleep with t := t }
      return { m with sys := s.swtch c last }.setPos p (some (call, .asleep))
    | _ => .error .disabled
  | .leave c => do
    let (p, _) ← m.sys.current c
    match m.pos p with
    | some (call, .leave ret) =>
      return { m.setLk call.lock none with ret := update m.ret p ret }.setPos p none
    | _ => .error .disabled
  | .intrAcquire c => do
    require (¬ m.Busy c ∧ (∀ i, m.sys.cpu c ≠ .loop i) ∧ m.lk .cons = none)
    return (m.setLk .cons (some c)).setIntr c .getc
  | .intrChar c x => do
    require (m.intr c = .getc)
    let (b, wakes) := consoleintrChar x m.input
    return { m with input := b }.setIntr c (if wakes then .wake else .getc)
  | .intrWakeup c => do
    require (m.intr c = .wake ∧ m.sys.lock = none)
    let t ← wakeup1 (.addr inputR) m.sys.t
    return { m with sys := { m.sys with t := t } }.setIntr c .getc
  | .intrRelease c => do
    require (m.intr c = .getc)
    return (m.setLk .cons none).setIntr c .out
  | .pipealloc a => do
    require (m.lk (.pipe a) = none ∧ (m.pipe a).readopen = false ∧ (m.pipe a).writeopen = false)
    return m.setPipe a (pipealloc (m.pipe a).data)
  | .env a => do
    require (m.sys.Env m.Busy m.Inside a)
    let s ← m.sys.step a
    return { m with sys := s }

/-- The running machine `s` with its pipes and its console input, before any of the calls. -/
def Blk.start (s : Sys) (pipe : Nat → Pipe) (input : Input) : Blk where
  sys := s
  pipe := pipe
  input := input
  lk _ := none
  pos _ := none
  user _ := []
  ret _ := 0
  intr _ := .out

/-- The states that are reached from a running machine by steps that satisfy a condition. -/
inductive Blk.Reachable (P : Blk → BlkAct → Prop) : Blk → Prop
  | start {s : Sys} {pipe : Nat → Pipe} {input : Input} : s.Reachable →
    Reachable P (.start s pipe input)
  | step {m m' : Blk} {a : BlkAct} : Reachable P m → P m a → m.step inputR a = .ok m' →
    Reachable P m'

end

/-- No `kill` hits a process between its test of `proc->killed` and the `acquire(&ptable.lock)` of
`sleep`. -/
def Blk.NoHit (m : Blk) (a : BlkAct) : Prop :=
  ∀ c pid p, a = .env (.kill c pid) → (m.pos p).any (·.2.window) →
    (m.sys.t.proc p).pid ≠ pid.toUInt32

/-- The process has seen that it is not killed, and goes to sleep. -/
def Point.committed : Point → Bool
  | .wake | .call | .both | .last => true
  | _ => false

/-- What holds between two steps. -/
structure Blk.Ok (m : Blk) : Prop where
  inv : m.sys.Inv
  cont : ∀ p call x, m.pos p = some (call, x) → (m.sys.cont p).embryo? = none
  runs : ∀ p call x, m.pos p = some (call, x) → x.locked → ∃ c b, m.sys.cpu c = .run p b ∧
    (x = .both ∨ x = .last → m.sys.lock = some c)
  unkilled : ∀ p call x, m.pos p = some (call, x) →
    x.committed ∨ (m.sys.t.proc p).state = .sleeping → (m.sys.t.proc p).killed = false

section
variable {inputR : Nat} {m m' : Blk} {c : Fin NCPU} {p : Slot} {b : Bool}

/-- A step of a process on its processor, from what it does to the process itself and what it
leaves of the other ones. -/
theorem Blk.Ok.move {y : Option (Call × Point)} (h : m.Ok) (hc : m.sys.cpu c = .run p b)
    (hI : m'.sys.Inv) (hpos : m'.pos = update m.pos p y)
    (hq : ∀ q, q ≠ p → m'.sys.cont q = m.sys.cont q ∧
      (m'.sys.t.proc q).killed = (m.sys.t.proc q).killed ∧
      ((m'.sys.t.proc q).state = .sleeping → (m.sys.t.proc q).state = .sleeping))
    (hd : ∀ d, d ≠ c → m'.sys.cpu d = m.sys.cpu d ∧
      (m.sys.lock = some d → m'.sys.lock = some d))
    (hp : ∀ call x, y = some (call, x) → (m'.sys.cont p).embryo? = none ∧
      (x.locked → m'.sys.cpu c = .run p b ∧ (x = .both ∨ x = .last → m'.sys.lock = some c)) ∧
      (x.committed ∨ (m'.sys.t.proc p).state = .sleeping → (m'.sys.t.proc p).killed = false)) :
    m'.Ok := by
  have hself : m'.pos p = y := by rw [hpos, update_self]
  have hother : ∀ q, q ≠ p → m'.pos q = m.pos q := fun q hne => by
    rw [hpos, update_of_ne hne]
  refine ⟨hI, fun q call x hx => ?_, fun q call x hx hl => ?_, fun q call x hx => ?_⟩
  · rcases eq_or_ne q p with rfl | hne
    · exact (hp call x (hself.symm.trans hx)).1
    · rw [hother q hne] at hx
      rw [(hq q hne).1]
      exact h.cont q call x hx
  · rcases eq_or_ne q p with rfl | hne
    · obtain ⟨h1, h2⟩ := (hp call x (hself.symm.trans hx)).2.1 hl
      exact ⟨c, b, h1, h2⟩
    · rw [hother q hne] at hx
      obtain ⟨d, b', h1, h2⟩ := h.runs q call x hx hl
      have hdc : d ≠ c := by
        rintro rfl
        exact hne (CpuState.run.inj (h1.symm.trans hc)).1
      exact ⟨d, b', (hd d hdc).1.trans h1, fun hx => (hd d hdc).2 (h2 hx)⟩
  · rcases eq_or_ne q p with rfl | hne
    · exact (hp call x (hself.symm.trans hx)).2.2
    · obtain ⟨-, h2, h3⟩ := hq q hne
      rw [hother q hne] at hx
      rw [h2]
      exact fun hy => h.unkilled q call x hx (hy.imp_right h3)

/-- A step of a process that changes nothing of the machine below but its place. -/
theorem Blk.Ok.goto {y : Option (Call × Point)} (h : m.Ok) (hc : m.sys.cpu c = .run p b)
    (hsys : m'.sys = m.sys) (hpos : m'.pos = update m.pos p y)
    (hcont : (m.sys.cont p).embryo? = none)
    (hp : ∀ call x, y = some (call, x) → (x = .both ∨ x = .last → m.sys.lock = some c) ∧
      (x.committed → (m.sys.t.proc p).killed = false)) : m'.Ok := by
  refine h.move hc (hsys ▸ h.inv) hpos (fun q _ => ?_) (fun d _ => ?_) (fun call x hx => ?_)
  · rw [hsys]
    exact ⟨rfl, rfl, id⟩
  · rw [hsys]
    exact ⟨rfl, id⟩
  · rw [hsys]
    refine ⟨hcont, fun _ => ⟨hc, (hp call x hx).1⟩, fun hy => (hp call x hx).2 ?_⟩
    exact hy.resolve_right fun hst => absurd (hst.symm.trans (h.inv.running c p b hc)) nofun

theorem Blk.Ok.same (h : m.Ok) (hsys : m'.sys = m.sys) (hpos : m'.pos = m.pos) : m'.Ok := by
  refine ⟨hsys ▸ h.inv, ?_, ?_, ?_⟩
  · rw [hsys, hpos]
    exact h.cont
  · rw [hsys, hpos]
    exact h.runs
  · rw [hsys, hpos]
    exact h.unkilled

/-- What a test leaves alone, and that a process which it sends to sleep is not killed. -/
structure Blk.Tested (m : Blk) (p : Slot) (r : Blk × Call × Point) : Prop where
  sys : r.1.sys = m.sys
  pos : r.1.pos = m.pos
  unlocked : r.2.2 ≠ .both ∧ r.2.2 ≠ .last
  unkilled : r.2.2.committed → (m.sys.t.proc p).killed = false

/-- A test changes no process, and sends none to sleep that is killed. -/
theorem Blk.test_spec (m : Blk) (p : Slot) (call : Call) : m.Tested p (m.test p call) := by
  have hgo : ∀ {m' : Blk} {call x}, m'.sys = m.sys → m'.pos = m.pos →
      x = .top ∨ (∃ r, x = .finish r) ∨ (∃ r, x = .leave r) → m.Tested p (m', call, x) := by
    rintro m' call x hs hp (rfl | ⟨r, rfl⟩ | ⟨r, rfl⟩) <;> exact ⟨hs, hp, ⟨nofun, nofun⟩, nofun⟩
  have hwait : ∀ {call x}, x = .wake ∨ x = .call → ¬ (m.sys.t.proc p).killed →
      m.Tested p (m, call, x) := by
    rintro call x (rfl | rfl) hk <;>
      exact ⟨rfl, rfl, ⟨nofun, nofun⟩, fun _ => Bool.eq_false_iff.2 hk⟩
  fun_cases Blk.test m p call with
  | case1 | case7 | case8 => exact hgo rfl rfl (.inr (.inl ⟨_, rfl⟩))
  | case2 | case5 | case9 | case11 | case12 | case14 => exact hgo rfl rfl (.inr (.inr ⟨_, rfl⟩))
  | case3 _ _ _ _ _ hk => exact hwait (.inl rfl) fun h => hk (.inr h)
  | case4 | case13 => exact hgo rfl rfl (.inl rfl)
  | case6 _ _ _ hk | case10 _ _ _ _ hk => exact hwait (.inr rfl) hk

section
variable (h : m.Ok)
include h

theorem Blk.Ok.step_begin {call : Call} (hs : m.step inputR (.begin c call) = .ok m') : m'.Ok := by
  obtain ⟨p, b, hc, hs⟩ := Sys.current_eq_ok hs
  obtain ⟨⟨-, hcont, -⟩, hs⟩ := require_bind_eq_ok hs
  cases hs
  refine h.goto hc rfl rfl (by rw [hcont]; rfl) ?_
  rintro _ _ ⟨⟩
  exact ⟨by simp, nofun⟩

theorem Blk.Ok.step_acquire (hs : m.step inputR (.acquire c) = .ok m') : m'.Ok := by
  obtain ⟨p, b, hc, hs⟩ := Sys.current_eq_ok hs
  dsimp only at hs
  split at hs
  · next call x hp =>
    obtain ⟨-, hs⟩ := require_bind_eq_ok hs
    cases hs
    refine h.goto hc rfl rfl (h.cont p _ _ hp) ?_
    rintro _ _ ⟨⟩
    exact ⟨by simp, nofun⟩
  · cases hs

theorem Blk.Ok.step_test (hs : m.step inputR (.test c) = .ok m') : m'.Ok := by
  obtain ⟨p, b, hc, hs⟩ := Sys.current_eq_ok hs
  dsimp only at hs
  split at hs
  · next call hp =>
    cases hs
    have ht := m.test_spec p call
    refine h.goto hc ht.sys (congrArg (update · p _) ht.pos) (h.cont p _ _ hp) ?_
    rintro _ _ ⟨⟩
    exact ⟨fun hx => absurd hx (by simp [ht.unlocked]), ht.unkilled⟩
  · cases hs

/-- `sleep` takes `ptable.lock` under the lock of its caller. -/
theorem Blk.Ok.step_lockTable (hs : m.step inputR (.lockTable c) = .ok m') :
    m'.Ok := by
  obtain ⟨p, b, hc, hs⟩ := Sys.current_eq_ok hs
  obtain ⟨hl, hs⟩ := require_bind_eq_ok hs
  split at hs
  · next call hp =>
    cases hs
    refine h.move hc (h.inv.setLock _) rfl (fun q _ => ⟨rfl, rfl, id⟩)
      (fun d _ => ⟨rfl, fun hd => absurd (hl.symm.trans hd) nofun⟩) ?_
    rintro _ _ ⟨⟩
    exact ⟨h.cont p _ _ hp, fun _ => ⟨hc, fun _ => rfl⟩,
      fun _ => h.unkilled p _ _ hp (.inl rfl)⟩
  · cases hs

/-- `sleep` gives up the lock of its caller under `ptable.lock`. -/
theorem Blk.Ok.step_unlock (hs : m.step inputR (.unlock c) = .ok m') : m'.Ok := by
  obtain ⟨p, b, hc, hs⟩ := Sys.current_eq_ok hs
  dsimp only at hs
  split at hs
  · next call hp =>
    cases hs
    refine h.goto hc rfl rfl (h.cont p _ _ hp) ?_
    rintro _ _ ⟨⟩
    obtain ⟨d, b', hd, hl⟩ := h.runs p _ _ hp rfl
    rw [← h.inv.one c d p b b' hc hd] at hl
    exact ⟨fun _ => hl (.inl rfl), fun _ => h.unkilled p _ _ hp (.inl rfl)⟩
  · cases hs

theorem Blk.Ok.step_leave (hs : m.step inputR (.leave c) = .ok m') : m'.Ok := by
  obtain ⟨p, b, hc, hs⟩ := Sys.current_eq_ok hs
  dsimp only at hs
  split at hs
  · next call ret hp =>
    cases hs
    refine h.goto hc rfl rfl (h.cont p _ _ hp) ?_
    rintro _ _ ⟨⟩
  · cases hs

/-- `sleep` of a process inside a call. -/
theorem Blk.Ok.step_sleep (hs : m.step inputR (.sleep c) = .ok m') : m'.Ok := by
  obtain ⟨p, b, hc, hs⟩ := Sys.current_eq_ok hs
  dsimp only at hs
  split at hs
  · next call hp =>
    obtain ⟨L, hL⟩ := h.inv.table
    obtain ⟨k, L', hL', heq⟩ := sleep_spec (call.chan inputR) hL (h.inv.running c p b hc)
    rw [heq, ok_bind] at hs
    cases hs
    obtain ⟨d, b', hd, hl⟩ := h.runs p _ _ hp rfl
    rw [← h.inv.one c d p b b' hc hd] at hl
    have hlock : m.sys.lock = some c := hl (.inr rfl)
    have hcont := h.cont p _ _ hp
    refine h.move hc ?_ rfl (fun q hq => ?_)
      (fun d hd => ⟨Sys.swtch_cpu_of_ne hd b, fun hx => ?_⟩) ?_
    · exact (h.inv.setCont (x := .asleep) hcont.symm).leave hc ⟨L', hL'⟩
        fun q hne => .inl (update_state _ q hne)
    · simp only [Blk.setPos, Sys.swtch_cont, Sys.swtch_t, Sys.setCont, update_of_ne hq,
        imp_self, and_self]
    · exact absurd (Option.some.inj (hlock.symm.trans hx)).symm hd
    · rintro _ _ ⟨⟩
      refine ⟨?_, by rintro ⟨⟩, fun _ => ?_⟩
      · simp [Blk.setPos, Sys.setCont, Cont.embryo?]
      · obtain ⟨_, _, _, e⟩ := (m.sys.t.proc p).slept_eq m.sys.t.ticks (call.chan inputR)
        simp only [Blk.setPos, Sys.swtch_t, update_self, e]
        exact h.unkilled p _ _ hp (.inl rfl)
  · cases hs

/-- `wakeup` by a process inside a call. -/
theorem Blk.Ok.step_wakeup (hs : m.step inputR (.wakeup c) = .ok m') : m'.Ok := by
  obtain ⟨p, b, hc, hs⟩ := Sys.current_eq_ok hs
  obtain ⟨hl, hs⟩ := require_bind_eq_ok hs
  split at hs
  · next call hp =>
    obtain ⟨t, ht, hs⟩ := bind_eq_ok.1 hs
    cases hs
    obtain ⟨hI, hw⟩ := h.inv.wakeup1 ht
    refine h.move hc hI rfl (fun q _ => ⟨rfl, hw q⟩) (fun d _ => ⟨rfl, id⟩) ?_
    rintro _ _ ⟨⟩
    refine ⟨h.cont p _ _ hp, fun _ => ⟨hc, by simp⟩, fun _ => ?_⟩
    exact (hw p).1.trans (h.unkilled p _ _ hp (.inl rfl))
  · next call ret hp =>
    obtain ⟨t, ht, hs⟩ := bind_eq_ok.1 hs
    cases hs
    obtain ⟨hI, hw⟩ := h.inv.wakeup1 ht
    refine h.move hc hI rfl (fun q _ => ⟨rfl, hw q⟩) (fun d _ => ⟨rfl, id⟩) ?_
    rintro _ _ ⟨⟩
    refine ⟨h.cont p _ _ hp, fun _ => ⟨hc, by simp⟩, ?_⟩
    rintro (hx | hst)
    · cases hx
    · exact absurd ((hw p).2 hst |>.symm.trans (h.inv.running c p b hc)) nofun
  · cases hs

theorem Blk.Ok.step_intrWakeup (hs : m.step inputR (.intrWakeup c) = .ok m') :
    m'.Ok := by
  obtain ⟨-, hs⟩ := require_bind_eq_ok hs
  obtain ⟨t, ht, hs⟩ := bind_eq_ok.1 hs
  cases hs
  obtain ⟨hI, hw⟩ := h.inv.wakeup1 ht
  exact ⟨hI, h.cont, h.runs,
    fun p call x hp hx => (hw p).1.trans (h.unkilled p call x hp (hx.imp_right (hw p).2))⟩

/-- The rest of the kernel: a process that holds `ptable.lock` cannot be hit by a `kill`, and one in
the window is not by assumption. -/
theorem Blk.Ok.step_env {a : Act} (hno : m.NoHit (.env a))
    (hs : m.step inputR (.env a) = .ok m') : m'.Ok := by
  obtain ⟨he, hs⟩ := require_bind_eq_ok hs
  obtain ⟨s, hs', hs⟩ := bind_eq_ok.1 hs
  cases hs
  have hsp := he.spares h.inv hs'
  have hin : ∀ {p call x}, m.pos p = some (call, x) → m.Inside p := by
    intro p call x hp
    rw [Blk.Inside, hp]
    rfl
  have hbusy : ∀ {p call x c b}, m.pos p = some (call, x) → x.locked → m.sys.cpu c = .run p b →
      m.Busy c := by
    intro p call x c b hp hx hc
    refine .inr ⟨p, b, hc, ?_⟩
    rw [hp]
    exact hx
  refine ⟨h.inv.of_step hs', fun p call x hp => ?_, fun p call x hp hx => ?_, fun p call x hp => ?_⟩
  · rcases hsp.cont p (hin hp) with hc | ⟨-, hc⟩
    · rw [hc]
      exact h.cont p call x hp
    · rw [hc]
      rfl
  · obtain ⟨c, b, hc, hl⟩ := h.runs p call x hp hx
    have hb := hbusy hp hx hc
    exact ⟨c, b, (hsp.cpu c hb).trans hc, fun hy => hsp.lock c hb (hl hy)⟩
  · rintro (hx | hst)
    · have hlk : x.locked := by cases x <;> first | rfl | cases hx
      obtain ⟨c, b, hc, hl⟩ := h.runs p call x hp hlk
      rcases hsp.killed p (hin hp) (h.inv.running c p b hc) with hk | ⟨d, pid, rfl, hpid⟩
      · exact hk.trans (h.unkilled p call x hp (.inl hx))
      · obtain ⟨q, _, -, hk⟩ := Sys.current_eq_ok hs'
        obtain ⟨⟨hfree, -⟩, -⟩ := require_bind_eq_ok hk
        have hnl : ¬ (x = .both ∨ x = .last) := fun hy =>
          absurd (hfree.symm.trans (hl hy)) nofun
        have hwin : x.window := by
          cases x with
          | both => exact absurd (.inl rfl) hnl
          | last => exact absurd (.inr rfl) hnl
          | wake | call => rfl
          | _ => cases hx
        exact absurd hpid (hno d pid p rfl (by rw [hp]; exact hwin))
    · obtain ⟨hst', -, hk⟩ := hsp.asleep p (hin hp) hst
      exact hk.trans (h.unkilled p call x hp (.inr hst'))

/-- A step that meets the condition keeps the invariant. -/
theorem Blk.Ok.step {a : BlkAct} (hno : m.NoHit a) (hs : m.step inputR a = .ok m') :
    m'.Ok := by
  cases a with
  | begin c call => exact h.step_begin hs
  | acquire c => exact h.step_acquire hs
  | test c => exact h.step_test hs
  | wakeup c => exact h.step_wakeup hs
  | lockTable c => exact h.step_lockTable hs
  | unlock c => exact h.step_unlock hs
  | sleep c => exact h.step_sleep hs
  | leave c => exact h.step_leave hs
  | intrAcquire c | intrChar c x | intrRelease c | pipealloc a =>
    obtain ⟨-, hs⟩ := require_bind_eq_ok hs
    cases hs
    exact h.same rfl rfl
  | intrWakeup c => exact h.step_intrWakeup hs
  | env a => exact h.step_env hno hs

end

theorem Blk.Reachable.ok (h : m.Reachable inputR Blk.NoHit) : m.Ok := by
  induction h with
  | start hs => exact ⟨hs.inv, nofun, nofun, nofun⟩
  | step _ hno hs ih => exact ih.step hno hs

/-- When no `kill` comes between the test and the `acquire` of `sleep`, no process sleeps in a pipe
or in the console with `killed` set. -/
theorem killed_not_blocked (h : m.Reachable inputR Blk.NoHit) :
    ¬ ∃ p call x, m.pos p = some (call, x) ∧ (m.sys.t.proc p).state = .sleeping ∧
      (m.sys.t.proc p).chan = call.chan inputR ∧ (m.sys.t.proc p).killed := by
  rintro ⟨p, call, x, hp, hst, -, hk⟩
  exact absurd ((h.ok.unkilled p call x hp (.inr hst)).symm.trans hk) nofun

/-- Empty pipes and an empty input buffer when `userinit` has returned. -/
def Blk.booted : Blk :=
  .start (.init TronBoss.booted) (fun _ => pipealloc fun _ => 0) ⟨fun _ => 0, 0, 0, 0⟩

/-- The first process forks, and its child comes to sleep in `piperead` up to the call of `sleep`. -/
def forkReadRun : List BlkAct :=
  [.env (.enter cpu0), .env (.turn cpu0), .env (.fork cpu0), .env (.forkStack cpu0 true),
    .env (.forkImage cpu0 true), .env (.forkDone cpu0), .env (.enter cpu1), .env (.turn cpu1),
    .begin cpu1 (.piperead 0 1), .acquire cpu1, .test cpu1]

/-- The child goes to sleep, and the scheduler of its processor finds nothing else to run. -/
def sleepRun : List BlkAct :=
  [BlkAct.lockTable cpu1, .unlock cpu1, .sleep cpu1] ++ List.replicate 6 (BlkAct.env (.turn cpu1))

/-- A `kill` after the child has gone to sleep leaves it awake. -/
theorem killed_not_blocked_sleepRun :
    ∃ m m', (forkReadRun ++ sleepRun).foldlM (Blk.step 0) .booted = .ok m ∧
      (m.sys.t.proc childSlot).state = .sleeping ∧
      m.step 0 (.env (.kill cpu0 2)) = .ok m' ∧ (m'.sys.t.proc childSlot).killed ∧
      (m'.sys.t.proc childSlot).state ≠ .sleeping := by
  have hrun : ((forkReadRun ++ sleepRun).foldlM (Blk.step 0) .booted).toOption.any (fun m =>
      decide ((m.sys.t.proc childSlot).state = .sleeping) &&
      decide (∀ p, (m.pos p).any (·.2.window) = false) &&
      (m.step 0 (.env (.kill cpu0 2))).toOption.any fun m' =>
        decide (m'.pos childSlot = some (.piperead 0 1, .asleep) ∧
          (m'.sys.t.proc childSlot).chan = nreadChan 0) &&
        (m'.sys.t.proc childSlot).killed) = true := by
    decide +kernel
  obtain ⟨m, hm, hf⟩ := exists_ok hrun
  simp only [Bool.and_eq_true, decide_eq_true_eq] at hf
  obtain ⟨⟨hst, hwin⟩, hf⟩ := hf
  obtain ⟨m', hm', hf⟩ := exists_ok hf
  simp only [Bool.and_eq_true, decide_eq_true_eq] at hf
  obtain ⟨⟨hpos, hchan⟩, hk⟩ := hf
  have hr : m.Reachable 0 Blk.NoHit := by
    refine foldlM_keeps (fun ha hm hs => hm.step (fun c pid p e => ?_) hs)
      (.start (.init userinit_eq)) hm
    subst e
    simp [forkReadRun, sleepRun] at ha
  have hr' := hr.step (a := .env (.kill cpu0 2))
    (fun c pid p _ hx => absurd ((hwin p).symm.trans hx) nofun) hm'
  refine ⟨m, m', hm, hst, hm', hk, fun hs => ?_⟩
  exact killed_not_blocked hr' ⟨childSlot, _, _, hpos, hs, hchan, hk⟩

/-- A `kill` between the test and the `acquire` of `sleep` returns 0, and the child then sleeps with
`killed` set. -/
theorem killed_blocked_forkReadRun :
    ∃ m m', forkReadRun.foldlM (Blk.step 0) .booted = .ok m ∧
      (kill 2 m.sys.t).toOption.any (fun r => decide (r.1 = 0)) ∧
      (BlkAct.env (.kill cpu0 2) :: sleepRun).foldlM (Blk.step 0) m = .ok m' ∧
      m'.pos childSlot = some (.piperead 0 1, .asleep) ∧
      (m'.sys.t.proc childSlot).state = .sleeping ∧
      (m'.sys.t.proc childSlot).chan = nreadChan 0 ∧ (m'.sys.t.proc childSlot).killed := by
  have hrun : (forkReadRun.foldlM (Blk.step 0) .booted).toOption.any (fun m =>
      (kill 2 m.sys.t).toOption.any (fun r => decide (r.1 = 0)) &&
      ((BlkAct.env (.kill cpu0 2) :: sleepRun).foldlM (Blk.step 0) m).toOption.any fun m' =>
        decide (m'.pos childSlot = some (.piperead 0 1, .asleep) ∧
          (m'.sys.t.proc childSlot).state = .sleeping ∧
          (m'.sys.t.proc childSlot).chan = nreadChan 0 ∧
          (m'.sys.t.proc childSlot).killed)) = true := by
    decide +kernel
  obtain ⟨m, hm, hf⟩ := exists_ok hrun
  rw [Bool.and_eq_true] at hf
  obtain ⟨hk, hf⟩ := hf
  obtain ⟨m', hm', hf⟩ := exists_ok hf
  exact ⟨m, m', hm, hk, hm', of_decide_eq_true hf⟩

end

end TronBoss.File
