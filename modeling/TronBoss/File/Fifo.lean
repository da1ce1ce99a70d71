import TronBoss.File.Pipe
import TronBoss.Lib.Hoare
import TronBoss.Lib.RingBuffer

/-!
# A pipe as a queue

Any number of processes read from and write to one pipe. A routine gives up the lock of the pipe
only when it sleeps or returns, so a step is what a routine does from an `acquire` or from the end
of a `sleep` to the next point where it gives up the lock. `stored` and `returned` are the bytes that
the writes have stored and that the reads have returned, in the order of the lock. `Pipe.bytes` is
the queue that the ring buffer stands for.
-/

namespace TronBoss.File

open Lib Function

/-- The bytes in the pipe. -/
def Pipe.bytes (p : Pipe) : List UInt8 := ring PIPESIZE p.data p.nread p.nwrite

/-- The loop of `pipewrite` while it does not sleep: the bytes it stores, and those that remain when
the pipe is full. -/
def pipewriteCopy : List UInt8 → Pipe → List UInt8 × List UInt8 × Pipe
  | [], p => ([], [], p)
  | x :: xs, p =>
    if p.full then ([], x :: xs, p)
    else
      let (done, left, p) := pipewriteCopy xs (p.put x)
      (x :: done, left, p)

/-- A call that is in progress. -/
inductive PipeCall where
  /-- `pipewrite`, with the bytes that remain and its argument `n`. -/
  | write (left : List UInt8) (n : Int32)
  | read (n : Int32)
  deriving DecidableEq, Repr

/-- The pipe, the calls that the processes are in, and what has gone through the pipe. -/
structure PipeSys where
  pipe : Pipe
  call : Nat → Option PipeCall
  stored : List UInt8
  returned : List UInt8

/-- A step, by a process. -/
inductive PipeAct where
  /-- A call of `pipewrite(p, addr, n)`, with the bytes at `addr`. -/
  | write (i : Nat) (addr : List UInt8) (n : Int32)
  /-- A call of `piperead(p, addr, n)`. -/
  | read (i : Nat) (n : Int32)
  /-- The process in a call gets the lock, and runs until it sleeps or returns. -/
  | go (i : Nat) (killed : Bool)
  | close (writable : Bool)
  deriving DecidableEq, Repr

/-- The process is no longer in a call. -/
def PipeSys.leave (s : PipeSys) (i : Nat) : PipeSys := { s with call := update s.call i none }

/-- The process `i` with the lock: the result of its call, if it returns. -/
def PipeSys.turn (s : PipeSys) (i : Nat) (killed : Bool) : PipeCall → Option Int32 × PipeSys
  | .write left n =>
    let (done, left, p) := pipewriteCopy left s.pipe
    let s := { s with pipe := p, stored := s.stored ++ done }
    if left = [] then (some n, s.leave i)
    else if p.readopen = false ∨ killed then (some (-1), s.leave i)
    else (none, { s with call := update s.call i (some (.write left n)) })
  | .read n =>
    if s.pipe.empty ∧ s.pipe.writeopen then
      if killed then (some (-1), s.leave i) else (none, s)
    else
      let (xs, p) := pipereadCopy n.toInt.toNat s.pipe
      (some (.ofNat xs.length),
        { s with pipe := p, returned := s.returned ++ xs }.leave i)

/-- A step, with the result of the call that it ends. When both ends are closed the pipe is freed,
and there are no more steps. -/
def PipeSys.step (s : PipeSys) (a : PipeAct) : Except Stop (Option Int32 × PipeSys) := do
  require (s.pipe.readopen ∨ s.pipe.writeopen)
  match a with
  | .write i addr n =>
    require (s.call i = none ∧ addr.length = n.toInt.toNat)
    return (none, { s with call := update s.call i (some (.write addr n)) })
  | .read i n =>
    require (s.call i = none)
    return (none, { s with call := update s.call i (some (.read n)) })
  | .go i killed =>
    match s.call i with
    | some c => return s.turn i killed c
    | none => throw .disabled
  | .close writable => return (none, { s with pipe := pipeclose writable s.pipe })

/-- The pipe that `pipealloc` makes of a page with any contents. -/
def PipeSys.start (page : Nat → UInt8) : PipeSys where
  pipe := pipealloc page
  call _ := none
  stored := []
  returned := []

/-- The states of a pipe. -/
inductive PipeSys.Reachable (page : Nat → UInt8) : PipeSys → Prop where
  | start : Reachable page (.start page)
  | step {s s' : PipeSys} {a : PipeAct} {r : Option Int32} :
    Reachable page s → s.step a = .ok (r, s') → Reachable page s'

/-! ## The ring buffer is a queue -/

section
variable {p : Pipe} {x : UInt8}

theorem PIPESIZE_dvd : PIPESIZE.toNat ∣ 2 ^ 32 := ⟨2 ^ 23, rfl⟩

theorem Pipe.length_bytes : p.bytes.length = (p.nwrite - p.nread).toNat := length_ring

/-- There are at most `PIPESIZE` bytes in the pipe. -/
def Pipe.Ok (p : Pipe) : Prop := p.bytes.length ≤ PIPESIZE.toNat

theorem Pipe.empty_iff : p.empty ↔ p.bytes = [] := by
  rw [bytes, ring_eq_nil, empty, beq_iff_eq]

theorem Pipe.full_iff : p.full ↔ p.bytes.length = PIPESIZE.toNat := by
  have hw := p.nwrite.toNat_lt
  have hr := p.nread.toNat_lt
  have hc : PIPESIZE.toNat = 512 := rfl
  rw [length_bytes, full, beq_iff_eq, ← UInt32.toNat_inj, UInt32.toNat_add, UInt32.toNat_sub]
  omega

/-- `put` appends a byte. -/
theorem Pipe.bytes_put (h : p.Ok) (hf : ¬ p.full) (x : UInt8) :
    (p.put x).bytes = p.bytes ++ [x] := by
  rw [full_iff] at hf
  have hlt : (p.nwrite - p.nread).toNat < PIPESIZE.toNat := length_bytes ▸ lt_of_le_of_ne h hf
  exact ring_put PIPESIZE_dvd hlt x

theorem Pipe.Ok.put (h : p.Ok) (hf : ¬ p.full) (x : UInt8) : (p.put x).Ok := by
  rw [Ok, bytes_put h hf, List.length_append, List.length_singleton]
  rw [full_iff] at hf
  exact lt_of_le_of_ne h hf

/-- `get` takes the oldest byte. -/
theorem Pipe.bytes_get (he : ¬ p.empty) : p.bytes = p.get.1 :: p.get.2.bytes := by
  refine ring_get fun h => he ?_
  rw [empty_iff, bytes, ring_eq_nil]
  exact h

/-- The loop of `pipewrite` appends what it stores. It leaves bytes over only when the pipe is
full. -/
theorem pipewriteCopy_spec {xs : List UInt8} (h : p.Ok) :
    (pipewriteCopy xs p).1 ++ (pipewriteCopy xs p).2.1 = xs ∧
    (pipewriteCopy xs p).2.2.bytes = p.bytes ++ (pipewriteCopy xs p).1 ∧
    (pipewriteCopy xs p).2.2.Ok := by
  induction xs generalizing p with
  | nil => exact ⟨rfl, by simp [pipewriteCopy], h⟩
  | cons x xs ih =>
    rw [pipewriteCopy]
    split
    · exact ⟨rfl, by simp, h⟩
    · rename_i hf
      obtain ⟨h1, h2, h3⟩ := ih (h.put hf x)
      refine ⟨congrArg (x :: ·) h1, ?_, h3⟩
      rw [h2, Pipe.bytes_put h hf, List.append_assoc, List.singleton_append]

/-- The loop of `piperead` takes bytes from the front of the pipe. It takes none only when none are
asked for, or there are none. -/
theorem pipereadCopy_spec {n : Nat} :
    p.bytes = (pipereadCopy n p).1 ++ (pipereadCopy n p).2.bytes ∧
    (pipereadCopy n p).1.length ≤ n ∧
    ((pipereadCopy n p).1 = [] → n = 0 ∨ p.empty) := by
  induction n generalizing p with
  | zero => exact ⟨rfl, le_rfl, fun _ => .inl rfl⟩
  | succ n ih =>
    rw [pipereadCopy]
    split
    · rename_i he
      exact ⟨rfl, Nat.zero_le _, fun _ => .inr he⟩
    · rename_i he
      obtain ⟨h1, h2, -⟩ := @ih p.get.2
      refine ⟨?_, Nat.succ_le_succ h2, fun h => (List.cons_ne_nil _ _ h).elim⟩
      rw [Pipe.bytes_get he, h1]
      rfl

end

/-! ## Runs -/

/-- What has been stored is what has been returned and what is in the pipe. -/
structure PipeSys.Inv (s : PipeSys) : Prop where
  queue : s.stored = s.returned ++ s.pipe.bytes
  ok : s.pipe.Ok

section
variable {s s' : PipeSys}

/-- The invariant does not depend on who is in a call. -/
theorem PipeSys.Inv.setCall (h : s.Inv) (call : Nat → Option PipeCall) : { s with call }.Inv :=
  ⟨h.queue, h.ok⟩

/-- A turn of a process with the lock keeps the invariant. -/
theorem PipeSys.Inv.turn (h : s.Inv) (i : Nat) (killed : Bool) (c : PipeCall) :
    (s.turn i killed c).2.Inv := by
  cases c with
  | write left n =>
    obtain ⟨-, hb, hok⟩ := @pipewriteCopy_spec _ left h.ok
    have hinv : { s with
        pipe := (pipewriteCopy left s.pipe).2.2
        stored := s.stored ++ (pipewriteCopy left s.pipe).1 : PipeSys }.Inv :=
      ⟨by simp only [h.queue, hb, List.append_assoc], hok⟩
    simp only [PipeSys.turn]
    split
    · exact hinv.setCall _
    · split
      · exact hinv.setCall _
      · exact hinv.setCall _
  | read n =>
    simp only [PipeSys.turn]
    split
    · split
      · exact h.setCall _
      · exact h
    · obtain ⟨hb, -, -⟩ := pipereadCopy_spec (p := s.pipe) (n := n.toInt.toNat)
      have hok := h.ok
      rw [Pipe.Ok, hb, List.length_append] at hok
      refine ⟨?_, (Nat.le_add_left ..).trans hok⟩
      change s.stored = s.returned ++ (pipereadCopy n.toInt.toNat s.pipe).1 ++
        (pipereadCopy n.toInt.toNat s.pipe).2.bytes
      rw [List.append_assoc, ← hb, h.queue]

/-- A step keeps the invariant. -/
theorem PipeSys.Inv.step {a : PipeAct} {r : Option Int32} (h : s.Inv)
    (hs : s.step a = .ok (r, s')) : s'.Inv := by
  rw [PipeSys.step.eq_def] at hs
  obtain ⟨-, -, hs⟩ := bind_eq_ok.1 hs
  cases a with
  | write i addr n | read i n =>
    obtain ⟨-, -, hs⟩ := bind_eq_ok.1 hs
    cases hs
    exact h.setCall _
  | go i killed =>
    simp only at hs
    split at hs
    · rename_i c hc
      have hinv := h.turn i killed c
      rw [pure_eq_ok, Except.ok.injEq] at hs
      rw [hs] at hinv
      exact hinv
    · cases hs
  | close writable =>
    cases hs
    rw [pipeclose]
    split
    · exact ⟨h.queue, h.ok⟩
    · exact ⟨h.queue, h.ok⟩

theorem PipeSys.Reachable.inv {page : Nat → UInt8} (h : Reachable page s) : s.Inv := by
  induction h with
  | start => exact ⟨ring_self.symm, Pipe.length_bytes.trans_le (show (0 - 0 : UInt32).toNat ≤ 512 by decide)⟩
  | step _ hs ih => exact ih.step hs

/-- A read that returns 0 although it wants bytes has found the pipe empty and the write end
closed. -/
theorem PipeSys.turn_read_zero {i : Nat} {killed : Bool} {n : Int32} (hn : 0 < n)
    (h : (s.turn i killed (.read n)).1 = some 0) : s.pipe.empty ∧ s.pipe.writeopen = false := by
  simp only [turn] at h
  split at h
  · split at h
    · exact absurd (Option.some.inj h) (by decide)
    · cases h
  · rename_i hne
    obtain ⟨-, hle, hnil⟩ := pipereadCopy_spec (p := s.pipe) (n := n.toInt.toNat)
    have hpos : 0 < n.toInt := Int32.lt_iff_toInt_lt.1 hn
    have hlt := n.toInt_lt
    have hlen : (pipereadCopy n.toInt.toNat s.pipe).1.length = 0 := by
      have h0 := congrArg Int32.toInt (Option.some.inj h)
      rw [Int32.toInt_ofNat_of_lt (by omega), Int32.toInt_zero] at h0
      exact_mod_cast h0
    have he : s.pipe.empty := (hnil (List.length_eq_zero_iff.1 hlen)).resolve_left (by omega)
    refine ⟨he, ?_⟩
    rw [not_and, Bool.not_eq_true] at hne
    exact hne he

end

/-- A pipe is a lossless queue. In every state that any number of readers, writers and closers reach
in any order: the bytes that the reads have returned are a prefix of those that the writes have
stored, the counters are at most `PIPESIZE` apart, and a read of at least one byte returns 0 only
when the pipe is empty and its write end is closed. -/
theorem pipe_is_fifo {page : Nat → UInt8} {s : PipeSys} (h : s.Reachable page) :
    s.returned <+: s.stored ∧ (s.pipe.nwrite - s.pipe.nread).toNat ≤ PIPESIZE.toNat ∧
    ∀ i killed n s', s.call i = some (.read n) → 0 < n → s.step (.go i killed) = .ok (some 0, s') →
      s.pipe.empty ∧ s.pipe.writeopen = false := by
  have hinv := h.inv
  refine ⟨⟨_, hinv.queue.symm⟩, Pipe.length_bytes (p := s.pipe) ▸ hinv.ok, ?_⟩
  intro i killed n s' hc hn hs
  rw [PipeSys.step.eq_def] at hs
  obtain ⟨-, -, hs⟩ := bind_eq_ok.1 hs
  simp only [hc, pure_eq_ok, Except.ok.injEq] at hs
  exact PipeSys.turn_read_zero hn (congrArg Prod.fst hs)

/-- What a list of steps reaches. -/
theorem PipeSys.Reachable.run {page : Nat → UInt8} {s s' : PipeSys} {as : List PipeAct}
    (h : s.Reachable page) (hr : as.foldlM (fun s a => Prod.snd <$> s.step a) s = .ok s') :
    s'.Reachable page := by
  refine foldlM_keeps (fun {s a s'} _ h hs => ?_) h hr
  obtain ⟨⟨r, t⟩, ht, rfl⟩ : ∃ x, s.step a = .ok x ∧ x.2 = s' := by
    cases hx : s.step a with
    | error e => rw [hx] at hs; cases hs
    | ok x => rw [hx] at hs; cases hs; exact ⟨x, rfl, rfl⟩
  exact h.step ht

/-- Two bytes are written and read, one at a time; the write end is closed, and a third read is on
its way. -/
def eofRun : List PipeAct :=
  [.write 0 [7, 8] 2, .go 0 false, .read 1 1, .go 1 false, .close true, .read 1 5, .go 1 false,
    .read 1 5]

/-- The two bytes have arrived, and the third read returns 0 at the end of the data. -/
theorem pipe_is_fifo_eofRun : ∃ s : PipeSys, s.Reachable (fun _ => 1) ∧ s.returned = [7, 8] ∧
    s.stored = [7, 8] ∧ s.returned <+: s.stored ∧ (∃ s', s.step (.go 1 false) = .ok (some 0, s')) ∧
    s.pipe.empty ∧ s.pipe.writeopen = false := by
  have hrun : ((eofRun.foldlM (fun (s : PipeSys) a => Prod.snd <$> s.step a)
      (PipeSys.start fun _ => 1)).toOption.any fun s => decide (s.returned = [7, 8] ∧
        s.stored = [7, 8] ∧ s.call 1 = some (.read 5) ∧
        (s.step (.go 1 false)).toOption.any (fun r => r.1 = some 0))) = true := by
    decide +kernel
  obtain ⟨s, hs, hf⟩ := exists_ok hrun
  obtain ⟨hret, hst, hcall, hgo⟩ := of_decide_eq_true hf
  obtain ⟨⟨r, s'⟩, hstep, hr⟩ := exists_ok hgo
  obtain rfl : r = some 0 := of_decide_eq_true hr
  have hreach := PipeSys.Reachable.start.run hs
  obtain ⟨hpre, -, heof⟩ := pipe_is_fifo hreach
  obtain ⟨he, hw⟩ := heof 1 false 5 s' hcall (by decide) hstep
  exact ⟨s, hreach, hret, hst, hpre, ⟨s', hstep⟩, he, hw⟩

end TronBoss.File
