import TronBoss.Log.Bio

/-!
# The log

`log.c` on the log region that `mkfs` lays out. Threads run operations (`begin_op`, `log_write` of
buffers they hold and have modified, `end_op`), the last `end_op` runs `commit`, and after a crash
`recover_from_log` runs before any thread. A step writes at most one disk block, so the states of a
run are the points at which a crash can happen. `log_write` tests the size of the log before it
takes the lock, so its test and its update are separate steps.
-/

namespace TronBoss

open Lib

/-- `LOGSIZE` of `param.h`. -/
def LOGSIZE : Nat := MAXOPBLOCKS * 3

/-- `sb.logstart`, as `mkfs` sets it. -/
def logstart : Nat := 2

/-- `sb.nlog`, as `mkfs` sets it; it is `log.size` in the kernel. -/
def nlog : Nat := LOGSIZE

/-- `log.start`, the block of the header. -/
def headBlock : UInt32 := UInt32.ofNat logstart

/-- `log.start + tail + 1`, the block of a log slot. -/
def slotBlock (tail : Nat) : UInt32 := UInt32.ofNat (logstart + tail + 1)

/-- The block is part of the log region. -/
def InLog (b : UInt32) : Prop := logstart ≤ b.toNat ∧ b.toNat < logstart + nlog

instance : DecidablePred InLog := fun b =>
  inferInstanceAs (Decidable (logstart ≤ b.toNat ∧ b.toNat < logstart + nlog))

/-! ## The header -/

/-- The number of blocks that a header block names, a signed `int`. -/
def headN (b : Block) : Int := (b.read32 0).toInt32.toInt

/-- The block numbers in a header block. -/
def headBlocks (b : Block) : List UInt32 :=
  (List.range (headN b).toNat).map fun i => b.read32 (4 * (i + 1))

/-- The copy of `read_head` from the header block to `log.lh`, whose array has `LOGSIZE` entries. -/
def readHead (b : Block) : Except Stop (List UInt32) :=
  if (LOGSIZE : Int) < headN b then .error .outOfBounds else .ok (headBlocks b)

/-- The loop of `write_head`, from index `i` on. -/
def writeBlocks : Nat → List UInt32 → Block → Block
  | _, [], b => b
  | i, x :: xs, b => writeBlocks (i + 1) xs (b.write32 (4 * (i + 1)) x)

/-- The copy of `write_head` from `log.lh` to the header block, of which it leaves the rest. -/
def writeHead (lh : List UInt32) (b : Block) : Block :=
  writeBlocks 0 lh (b.write32 0 (UInt32.ofNat lh.length))

/-! ## The state -/

/-- Who holds a busy buffer: a thread in a system call, or the code of `commit` and
`recover_from_log`. -/
inductive Holder (T : Type) where
  | log
  | thread (t : T)
  deriving DecidableEq

/-- Where a thread is. -/
inductive ThreadPc where
  /-- Outside of an operation. -/
  | idle
  /-- Between `begin_op` and `end_op`. -/
  | op
  /-- In `log_write` of a buffer, after the tests. -/
  | logging (b : Fin NBUF)
  /-- In the `commit` of `end_op`. -/
  | committing
  deriving DecidableEq

/-- Where `commit` or `recover_from_log` is. -/
inductive LogPc where
  | readHead
  | writeLog (tail : Nat)
  | writeLogFrom (tail : Nat) (dst : Fin NBUF)
  | commitHead
  | install (tail : Nat)
  | installDst (tail : Nat) (lbuf : Fin NBUF)
  | clearHead
  | done
  deriving DecidableEq

/-- Which part of the log code runs besides the threads. -/
inductive LogMode (T : Type) where
  | run
  | commit (t : T) (pc : LogPc)
  | recover (pc : LogPc)
  deriving DecidableEq

/-- The machine: the cache, `log.lh` (its `n` is the length of the list), `log.outstanding`,
`log.committing`, and the threads. -/
structure LogSys (T : Type) where
  cache : Bcache (Holder T)
  lh : List UInt32
  outstanding : Nat
  committing : Bool
  thread : T → ThreadPc
  mode : LogMode T

section
variable {T : Type}

/-- The machine when it starts on a disk: `initlog` calls `recover_from_log`. -/
def LogSys.boot (d : Disk) : LogSys T where
  cache := binit d
  lh := []
  outstanding := 0
  committing := false
  thread _ := .idle
  mode := .recover .readHead

/-! ## `commit` and `recover_from_log` -/

section
variable (rw : Fin NBUF → Bcache (Holder T) → Except Stop (Bcache (Holder T)))

def writeHeadBufBy (lh : List UInt32) (c : Bcache (Holder T)) : Except Stop (Bcache (Holder T)) := do
  let (b, c) ← breadBy rw .log headBlock c
  let c ← bwriteBy rw b (c.setBuf b { c.buf b with data := writeHead lh (c.buf b).data })
  brelse b c

/-- `memmove(dst->data, src->data, BSIZE)`, `bwrite(dst)`. -/
def copyBufBy (src dst : Fin NBUF) (c : Bcache (Holder T)) : Except Stop (Bcache (Holder T)) :=
  bwriteBy rw dst (c.setBuf dst { c.buf dst with data := (c.buf src).data })

/-- The head of the loops of `write_log` and `install_trans`: with `tail < log.lh.n` the body
starts with the `bread` of the log slot and goes on at `body`, and otherwise the loop is left for
`after`. -/
def slotLoopBy (tail : Nat) (body : Fin NBUF → LogPc) (after : LogPc × List UInt32)
    (lh : List UInt32) (c : Bcache (Holder T)) :
    Except Stop (LogPc × List UInt32 × Bcache (Holder T)) :=
  if tail < lh.length then do
    let (b, c) ← breadBy rw .log (slotBlock tail) c
    return (body b, lh, c)
  else return (after.1, after.2, c)

/-- One step of `commit` or `recover_from_log`, which share `install_trans` and `write_head`. The
result is the next place, `log.lh` and the cache. -/
def LogPc.stepBy (lh : List UInt32) (c : Bcache (Holder T)) :
    LogPc → Except Stop (LogPc × List UInt32 × Bcache (Holder T))
  | .readHead => do
    let (b, c) ← breadBy rw .log headBlock c
    let lh ← TronBoss.readHead (c.buf b).data
    let c ← brelse b c
    return (.install 0, lh, c)
  | .writeLog tail => slotLoopBy rw tail (.writeLogFrom tail) (.commitHead, lh) lh c
  | .writeLogFrom tail dst =>
    match lh[tail]? with
    | none => .error .outOfBounds
    | some blockno => do
      let (src, c) ← breadBy rw .log blockno c
      let c ← copyBufBy rw src dst c
      let c ← brelse src c
      let c ← brelse dst c
      return (.writeLog (tail + 1), lh, c)
  | .commitHead => do
    let c ← writeHeadBufBy rw lh c
    return (.install 0, lh, c)
  | .install tail =>
    -- the loop is followed by `log.lh.n = 0`
    slotLoopBy rw tail (.installDst tail) (.clearHead, []) lh c
  | .installDst tail lbuf =>
    match lh[tail]? with
    | none => .error .outOfBounds
    | some blockno => do
      let (dbuf, c) ← breadBy rw .log blockno c
      let c ← copyBufBy rw lbuf dbuf c
      let c ← brelse lbuf c
      let c ← brelse dbuf c
      return (.install (tail + 1), lh, c)
  | .clearHead => do
    let c ← writeHeadBufBy rw lh c
    return (.done, lh, c)
  | .done => .error .disabled

end

abbrev LogPc.step (lh : List UInt32) (c : Bcache (Holder T)) :
    LogPc → Except Stop (LogPc × List UInt32 × Bcache (Holder T)) := stepBy iderw lh c

/-! ## The steps of the machine -/

/-- The steps: what a thread `t` does, and one step of `commit` or `recover_from_log`. -/
inductive LogAct (T : Type) where
  | beginOp (t : T)
  | bread (t : T) (blockno : UInt32)
  | brelse (t : T) (b : Fin NBUF)
  | logWrite (t : T) (b : Fin NBUF) (data : Block)
  | logAppend (t : T)
  | endOp (t : T)
  | log

variable [DecidableEq T]

def LogSys.setThread (s : LogSys T) (t : T) (x : ThreadPc) : LogSys T :=
  { s with thread := Function.update s.thread t x }

/-- The threads run only when `recover_from_log` has returned. -/
def LogSys.booted (s : LogSys T) : Bool :=
  match s.mode with
  | .recover _ => false
  | _ => true

/-- `begin_op`, when it does not go to sleep. -/
def beginOp (t : T) (s : LogSys T) : Except Stop (LogSys T) := do
  require (s.booted ∧ s.thread t = .idle)
  require (¬ s.committing)
  require (¬ LOGSIZE < s.lh.length + (s.outstanding + 1) * MAXOPBLOCKS)
  return { s.setThread t .op with outstanding := s.outstanding + 1 }

-- by the one block number there is, and not by a search through all of them
instance decidableOutsideLog (o : Option UInt32) : Decidable (∀ n ∈ o, ¬ InLog n) :=
  Option.decidableForallMem ..

/-- The modification of a buffer by the thread that holds it, and the tests of `log_write`. The
block is not one of the log region. -/
def logWrite (t : T) (b : Fin NBUF) (data : Block) (s : LogSys T) : Except Stop (LogSys T) := do
  require (s.booted ∧ s.thread t = .op ∧ (s.cache.buf b).busy = some (.thread t))
  require (∀ n ∈ (s.cache.buf b).blockno, ¬ InLog n)
  let s := { s with cache := s.cache.setBuf b { s.cache.buf b with data := data } }
  panicIf (LOGSIZE ≤ s.lh.length ∨ nlog - 1 ≤ s.lh.length) "too big a transaction"
  panicIf (s.outstanding < 1) "log_write outside of trans"
  return s.setThread t (.logging b)

/-- The section of `log_write` that holds the lock. -/
def logAppend (t : T) (s : LogSys T) : Except Stop (LogSys T) := do
  match s.thread t with
  | .logging b =>
    match (s.cache.buf b).blockno with
    | none => .error .outOfBounds
    | some blockno =>
      if LOGSIZE < (absorb s.lh blockno).length then .error .outOfBounds
      else
        return { s.setThread t .op with
          lh := absorb s.lh blockno
          cache := s.cache.setBuf b { s.cache.buf b with dirty := true } }
  | _ => .error .disabled

/-- `end_op`, up to the call of `commit`. -/
def endOp (t : T) (s : LogSys T) : Except Stop (LogSys T) := do
  require (s.booted ∧ s.thread t = .op)
  let s := { s with outstanding := s.outstanding - 1 }
  panicIf (s.committing) "log.committing"
  if s.outstanding = 0 then
    -- `commit` does nothing when no block was logged
    return { s.setThread t .committing with
      committing := true
      mode := .commit t (if s.lh.length > 0 then .writeLog 0 else .done) }
  else return s.setThread t .idle

/-- One step of the machine, over what stands for `iderw`. -/
def LogSys.stepBy (rw : Fin NBUF → Bcache (Holder T) → Except Stop (Bcache (Holder T)))
    (s : LogSys T) : LogAct T → Except Stop (LogSys T)
  | .beginOp t => beginOp t s
  | .bread t blockno => do
    require (s.booted ∧ (s.thread t = .idle ∨ s.thread t = .op))
    let (_, c) ← breadBy rw (.thread t) blockno s.cache
    return { s with cache := c }
  | .brelse t b => do
    require (s.booted ∧ (s.thread t = .idle ∨ s.thread t = .op))
    require ((s.cache.buf b).busy = some (.thread t))
    let c ← brelse b s.cache
    return { s with cache := c }
  | .logWrite t b data => logWrite t b data s
  | .logAppend t => logAppend t s
  | .endOp t => endOp t s
  | .log =>
    match s.mode with
    | .run => .error .disabled
    | .commit t .done =>
      -- the last section of `end_op`
      return { s.setThread t .idle with committing := false, mode := .run }
    | .recover .done => return { s with mode := .run }
    | .commit t pc => do
      let (pc, lh, c) ← pc.stepBy rw s.lh s.cache
      return { s with lh := lh, cache := c, mode := .commit t pc }
    | .recover pc => do
      let (pc, lh, c) ← pc.stepBy rw s.lh s.cache
      return { s with lh := lh, cache := c, mode := .recover pc }

abbrev LogSys.step : LogSys T → LogAct T → Except Stop (LogSys T) := stepBy iderw

/-! ## Runs, crashes and recovery -/

/-- A `log_write`: the operation that made it, the block and the contents. -/
structure Write where
  op : Nat
  blockno : UInt32
  data : Block

/-- The history of a run: the `log_write`s of each commit, in order, and those since the last
commit. Operations are numbered by their `begin_op`. -/
structure Hist (T : Type) where
  fresh : Nat
  op : T → Nat
  commits : List (List Write)
  cur : List Write

/-- The empty history. -/
def Hist.empty : Hist T where
  fresh := 0
  op _ := 0
  commits := []
  cur := []

/-- What a step adds to the history. -/
def Hist.next (h : Hist T) (s : LogSys T) : LogAct T → Hist T
  | .beginOp t => { h with fresh := h.fresh + 1, op := Function.update h.op t h.fresh }
  | .logAppend t =>
    match s.thread t with
    | .logging b =>
      match (s.cache.buf b).blockno with
      | some blockno => { h with cur := h.cur ++ [⟨h.op t, blockno, (s.cache.buf b).data⟩] }
      | none => h
    | _ => h
  | .endOp _ =>
    if s.outstanding = 1 then { h with commits := h.commits ++ [h.cur], cur := [] } else h
  | _ => h

/-- All the `log_write`s of a run. -/
def Hist.writes (h : Hist T) : List Write := h.commits.flatten ++ h.cur

/-- A sequence of steps, with the history it adds to. -/
def LogSys.exec : List (LogAct T) → LogSys T × Hist T → Except Stop (LogSys T × Hist T)
  | [], x => .ok x
  | a :: as, (s, h) => do
    let s' ← s.step a
    exec as (s', h.next s a)

/-- The runs without a crash of the machine that was started on a disk. -/
inductive LogSys.Run (d : Disk) : LogSys T → Hist T → Prop
  | boot : Run d (.boot d) .empty
  | step {s s' : LogSys T} {h : Hist T} {a : LogAct T} :
      Run d s h → s.step a = .ok s' → Run d s' (h.next s a)

/-- The states of a recovery from a disk, up to its end. -/
inductive LogSys.Recovering (d : Disk) : LogSys T → Prop
  | boot : Recovering d (.boot d)
  | step {s s' : LogSys T} : Recovering d s → s.step .log = .ok s' → Recovering d s'

end

/-- A recovery from the disk `d`, with any number of crashes, that ends with the disk `d'`. -/
inductive Recovered (T : Type) [DecidableEq T] : Disk → Disk → Prop
  | done {d : Disk} {s : LogSys T} :
      LogSys.Recovering d s → s.mode = .run → Recovered T d s.cache.disk
  | crash {d d' : Disk} {s : LogSys T} :
      LogSys.Recovering d s → Recovered T s.cache.disk d' → Recovered T d d'

end TronBoss
