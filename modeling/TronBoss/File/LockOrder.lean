import TronBoss.Lib.Locking
import TronBoss.File.Pipe
import TronBoss.Proc.System

/-!
# The order of `cons.lock` and `ptable.lock`

The acquire and release sequences of the console, of `sleep` and `wakeup` and of the scheduler, as
programs of `TronBoss.Lib.Locking`. `sleep` and `wakeup` take `ptable.lock` under `cons.lock`, and
every routine respects that order but the four list printers that `consoleintr` calls for `^F`, `^R`,
`^S` and `^Z`: they call `cprintf`, which takes `cons.lock`, under `ptable.lock`.
-/

namespace TronBoss.File

open Lib

/-- The spin locks that the routines take. -/
inductive Spin where
  | icache
  | cons
  | ptable
  deriving DecidableEq, Repr

instance : Fintype Spin := ⟨{.icache, .cons, .ptable}, fun l => by cases l <;> decide⟩

/-- The order of the locks. -/
def Spin.rank : Spin → Nat
  | .icache => 0
  | .cons => 1
  | .ptable => 2

/-! ## The routines -/

namespace LockCode

/-- `cprintf`, with `cons.locking` set. -/
def cprintf : Cmd Spin := .seqs [.acquire .cons, .release .cons]

def wakeup : Cmd Spin := .seqs [.acquire .ptable, .release .ptable]

/-- `sleep(chan, lk)`, where `lk` may be null. -/
def sleep : Option Spin → Cmd Spin
  | some .ptable => .sched
  | some lk =>
    .seqs [.acquire .ptable, .release lk, .sched, .release .ptable, .acquire lk]
  | none => .seqs [.acquire .ptable, .sched, .release .ptable]

def yield : Cmd Spin := .seqs [.acquire .ptable, .sched, .release .ptable]

/-- The loop of `wait`, which sleeps with `ptable.lock`. -/
def wait : Cmd Spin := .seqs [.acquire .ptable, .star (sleep (some .ptable)), .release .ptable]

def ilock : Cmd Spin := .seqs [.acquire .icache, .star (sleep (some .icache)), .release .icache]

def iunlock : Cmd Spin := .seqs [.acquire .icache, wakeup, .release .icache]

def consoleread : Cmd Spin :=
  .seqs [iunlock, .acquire .cons, .star (sleep (some .cons)), .release .cons, ilock]

def consolewrite : Cmd Spin := .seqs [iunlock, .acquire .cons, .release .cons, ilock]

def procdump : Cmd Spin := .star cprintf

def cfreelist : Cmd Spin := .seqs [.acquire .ptable, cprintf, .release .ptable]

/-- An empty list, a list of one process, or a longer one. -/
def displayreadylists : Cmd Spin :=
  .seqs [cprintf, .choices [cprintf, cprintf, .star cprintf]]

def creadylist : Cmd Spin :=
  .seqs [.acquire .ptable, cprintf, .seqs (List.replicate (MAX + 1) displayreadylists),
    .release .ptable]

/-- `csleeplist` and `czombielist`, which differ in the list and the texts. -/
def clist : Cmd Spin :=
  .seqs [.acquire .ptable, .choices [
    .seqs [cprintf, .release .ptable],
    .seqs [cprintf, .choices [
      .seqs [cprintf, .release .ptable],
      .seqs [.star cprintf, .release .ptable]]]]]

def csleeplist : Cmd Spin := clist

def czombielist : Cmd Spin := clist

/-- What `consoleintr` does with a character under `cons.lock`: a character that goes to the buffer
may end a line. -/
def consoleintrKey (c : UInt8) : Cmd Spin :=
  if c = ctrl 'P' ∨ c = ctrl 'U' ∨ c = ctrl 'H' ∨ c = 0x7f ∨ c = ctrl 'F' ∨ c = ctrl 'R' ∨
    c = ctrl 'S' ∨ c = ctrl 'Z' then .skip
  else .choice .skip wakeup

/-- `consoleintr`, when `getc` returns the characters `keys`. -/
def consoleintr (keys : List UInt8) : Cmd Spin :=
  .seqs [.acquire .cons, .seqs (keys.map consoleintrKey), .release .cons,
    if ctrl 'P' ∈ keys then procdump else .skip,
    if ctrl 'F' ∈ keys then cfreelist else .skip,
    if ctrl 'R' ∈ keys then creadylist else .skip,
    if ctrl 'S' ∈ keys then csleeplist else .skip,
    if ctrl 'Z' ∈ keys then czombielist else .skip]

def scheduler : Cmd Spin :=
  .star (.seqs [.acquire .ptable, .star .dispatch, .release .ptable])

/-- A process from its first dispatch: `forkret`, and then any of the routines. -/
def process : Cmd Spin :=
  .seqs [.release .ptable, .star (.choices [consoleread, consolewrite, cprintf, sleep none, wait,
    wakeup, yield])]

end LockCode

/-- The steps of the kernel: the next lock operation of a processor, the dispatch of a process, the
console interrupt and the timer interrupt. -/
inductive ConsAct where
  | go (c : Fin NCPU) (left : Bool)
  | dispatch (c : Fin NCPU) (p : Nat)
  | consoleintr (c : Fin NCPU) (keys : List UInt8)
  | timer (c : Fin NCPU)

def ConsAct.toLock : ConsAct → LockAct Spin (Fin NCPU)
  | .go c left => .go c left
  | .dispatch c p => .dispatch c p
  | .consoleintr c keys => .interrupt c (LockCode.consoleintr keys)
  | .timer c => .preempt c LockCode.yield

def lockStep (m : Machine Spin (Fin NCPU)) (a : ConsAct) : Except Stop (Machine Spin (Fin NCPU)) :=
  m.step .ptable a.toLock

/-- Every processor in its scheduler, and the processes `alive` ready to run. -/
def lockStart (alive : Nat → Bool) : Machine Spin (Fin NCPU) where
  holder _ := none
  core _ := ⟨[LockCode.scheduler], none⟩
  pool p := if alive p then some [LockCode.process] else none

/-- The states that are reached by steps that satisfy a condition. -/
inductive LockReachable (P : ConsAct → Prop) : Machine Spin (Fin NCPU) → Prop
  | start (alive : Nat → Bool) : LockReachable P (lockStart alive)
  | step {m m' : Machine Spin (Fin NCPU)} {a : ConsAct} : LockReachable P m → P a →
    lockStep m a = .ok m' → LockReachable P m'

/-- A processor holds `cons.lock` and waits for `ptable.lock`, and another one the other way
round. -/
def Crossed (m : Machine Spin (Fin NCPU)) : Prop :=
  ∃ c d, c ≠ d ∧ m.holder .cons = some c ∧ m.Waits c .ptable ∧ m.holder .ptable = some d ∧
    m.Waits d .cons

instance (m : Machine Spin (Fin NCPU)) : Decidable (Crossed m) :=
  inferInstanceAs (Decidable (∃ _ _, _))

/-- The keys of the list printers. -/
def listKeys : List UInt8 := [ctrl 'F', ctrl 'R', ctrl 'S', ctrl 'Z']

/-- No list printer is asked for. -/
def ConsAct.NoList : ConsAct → Prop
  | .consoleintr _ keys => ∀ x ∈ listKeys, x ∉ keys
  | _ => True

/-- The handler of the console takes its locks in order, unless a list printer is asked for. -/
theorem consoleintr_flow {keys : List UInt8} (h : ∀ x ∈ listKeys, x ∉ keys) :
    (LockCode.consoleintr keys).flow Spin.rank .ptable ∅ = some ∅ := by
  have hkey : ∀ x ∈ keys.map LockCode.consoleintrKey,
      x.flow Spin.rank .ptable {.cons} = some {Spin.cons} := by
    intro x hx
    obtain ⟨k, -, rfl⟩ := List.mem_map.1 hx
    unfold LockCode.consoleintrKey
    split
    · rfl
    · decide
  have hkeys : (Cmd.seqs (keys.map LockCode.consoleintrKey)).flow Spin.rank .ptable {.cons} =
      some {Spin.cons} := by
    rw [Cmd.flow_seqs]
    exact flowAll_eq_self hkey
  have hskip : ∀ {x : UInt8} {y : Cmd Spin}, x ∈ listKeys → (if x ∈ keys then y else .skip) = .skip :=
    fun hx => if_neg (h _ hx)
  have hdump : (if ctrl 'P' ∈ keys then LockCode.procdump else .skip).flow Spin.rank .ptable ∅ =
      some ∅ := by
    split <;> decide
  rw [LockCode.consoleintr, hskip (x := ctrl 'F') (by decide), hskip (x := ctrl 'R') (by decide),
    hskip (x := ctrl 'S') (by decide), hskip (x := ctrl 'Z') (by decide), Cmd.flow_seqs]
  calc flowAll Spin.rank .ptable _ ∅
      = flowAll Spin.rank .ptable (_ :: .release .cons :: _) {.cons} := rfl
    _ = flowAll Spin.rank .ptable (.release .cons :: _) {.cons} := by rw [flowAll, hkeys]; rfl
    _ = flowAll Spin.rank .ptable _ ∅ := rfl
    _ = flowAll Spin.rank .ptable [.skip, .skip, .skip, .skip] ∅ := by rw [flowAll, hdump]; rfl
    _ = some ∅ := rfl

/-- Every program respects the order at the start. -/
theorem lockStart_ordered (alive : Nat → Bool) :
    (lockStart alive).Ordered Spin.rank .ptable := by
  have hsched : Respects Spin.rank .ptable [LockCode.scheduler] ∅ := by decide
  have hproc : Respects Spin.rank .ptable [LockCode.process] {.ptable} := by decide
  refine ⟨fun c => ?_, nofun, fun p k hk => ?_⟩
  · have hheld : (lockStart alive).held c = ∅ := rfl
    rw [hheld]
    exact hsched
  · unfold lockStart at hk
    dsimp only at hk
    split at hk
    · cases hk
      exact hproc
    · cases hk

/-- Without the keys that print lists the locks are taken in order. -/
theorem LockReachable.ordered {m : Machine Spin (Fin NCPU)} (h : LockReachable ConsAct.NoList m) :
    m.Ordered Spin.rank .ptable := by
  induction h with
  | start alive => exact lockStart_ordered alive
  | @step m m' a _ hno hs ih =>
    refine ih.step (fun c x hx => ?_) hs
    cases a with
    | go c left | dispatch c p => simp [ConsAct.toLock] at hx
    | consoleintr c keys =>
      rcases hx with hx | hx
      · cases hx
        exact consoleintr_flow hno
      · cases hx
    | timer c =>
      rcases hx with hx | hx
      · cases hx
      · cases hx
        decide

/-- As long as no list printer is asked for, no two processors hold one of `cons.lock` and
`ptable.lock` and wait for the other. -/
theorem no_crossed_locks {m : Machine Spin (Fin NCPU)} (h : LockReachable ConsAct.NoList m) :
    ¬ Crossed m := by
  rintro ⟨c, d, -, hc, hwc, hd, hwd⟩
  exact h.ordered.not_crossed ⟨hc, hwc⟩ ⟨hd, hwd⟩

/-- The first processor dispatches a process that calls `consoleread`, up to the
`acquire(&ptable.lock)` of `sleep`. -/
def readRun : List ConsAct :=
  List.replicate 5 (.go cpu0 true) ++ [.dispatch cpu0 1] ++ List.replicate 22 (.go cpu0 true)

/-- One processor waits for a lock of the other, which does not wait. -/
theorem no_crossed_locks_readRun :
    ∃ m, (readRun ++ List.replicate 3 (ConsAct.go cpu1 true)).foldlM lockStep (lockStart fun _ => true) =
      .ok m ∧ m.holder .cons = some cpu0 ∧ m.Waits cpu0 .ptable ∧ m.holder .ptable = some cpu1 ∧
      ¬ Crossed m := by
  have hrun : ((readRun ++ List.replicate 3 (ConsAct.go cpu1 true)).foldlM lockStep
      (lockStart fun _ => true)).toOption.any (fun m => decide (m.holder .cons = some cpu0 ∧
        m.Waits cpu0 .ptable ∧ m.holder .ptable = some cpu1)) = true := by
    decide +kernel
  obtain ⟨m, hm, hf⟩ := exists_ok hrun
  obtain ⟨h₁, h₂, h₃⟩ := of_decide_eq_true hf
  refine ⟨m, hm, h₁, h₂, h₃, no_crossed_locks ?_⟩
  refine foldlM_keeps (fun {_ a _} ha hm hs => hm.step ?_ hs) (.start _) hm
  cases a with
  | consoleintr c keys => simp [readRun] at ha
  | _ => trivial

/-- A list key at the second processor, whose handler releases `cons.lock`; then the `consoleread` of
the first one; then the list printer, up to the `acquire(&cons.lock)` of `cprintf`. -/
def listRun (key : UInt8) (n : Nat) : List ConsAct :=
  .consoleintr cpu1 [key] :: List.replicate 8 (.go cpu1 true) ++ readRun ++
    List.replicate n (.go cpu1 true)

/-- Each of the list keys can lead to the deadlock. -/
theorem crossed_locks_listRun :
    (∃ m, (listRun (ctrl 'F') 7).foldlM lockStep (lockStart fun _ => true) = .ok m ∧ Crossed m) ∧
    (∃ m, (listRun (ctrl 'R') 9).foldlM lockStep (lockStart fun _ => true) = .ok m ∧ Crossed m) ∧
    (∃ m, (listRun (ctrl 'S') 13).foldlM lockStep (lockStart fun _ => true) = .ok m ∧ Crossed m) ∧
    ∃ m, (listRun (ctrl 'Z') 15).foldlM lockStep (lockStart fun _ => true) = .ok m ∧ Crossed m := by
  have hcross : ∀ {key : UInt8} {n : Nat}, ((listRun key n).foldlM lockStep
      (lockStart fun _ => true)).toOption.any (fun m => decide (Crossed m)) = true →
      ∃ m, (listRun key n).foldlM lockStep (lockStart fun _ => true) = .ok m ∧ Crossed m := by
    intro key n h
    obtain ⟨m, hm, hf⟩ := exists_ok h
    exact ⟨m, hm, of_decide_eq_true hf⟩
  exact ⟨hcross (by decide +kernel), hcross (by decide +kernel), hcross (by decide +kernel),
    hcross (by decide +kernel)⟩

end TronBoss.File
