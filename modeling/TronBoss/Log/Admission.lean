import TronBoss.Log.Crash

/-!
# Admission to the log

`begin_op` admits an operation when the log has room for `MAXOPBLOCKS` blocks of it and of every
running operation, counting `LOGSIZE` blocks. The log region has `nlog = LOGSIZE` blocks of which one
is the header, and `log_write` panics when all the others are taken; so three operations that use
their whole reservation do not fit. What `log_write` sees is the number of different blocks that the
operations have logged since the last commit.
-/

namespace TronBoss

open Lib List

section
variable {T : Type} [DecidableEq T] {d : Disk} {s : LogSys T} {h : Hist T} {t : T} {b : Fin NBUF}

/-- The different blocks of some `log_write`s. -/
def blocksOf (ws : List Write) : List UInt32 := (ws.map (·.blockno)).dedup

omit [DecidableEq T] in
/-- `log.lh.n` is the number of different blocks logged since the last commit. -/
theorem LogInv.length_lh (hI : LogInv d s h) (ht : (s.thread t).inOp) :
    s.lh.length = (blocksOf h.cur).length := by
  refine List.Perm.length_eq ((perm_ext_iff_of_nodup hI.nodup (nodup_dedup _)).2 ?_)
  intro n
  rw [(hI.runPhase ht).2.2.cur, mem_dedup, mem_map]

omit [DecidableEq T] in
/-- No step of the first recovery is one of an operation. -/
theorem BootInv.not_op (hB : BootInv d s h) : s.thread t ≠ .op := by
  rw [hB.idle]
  nofun

/-- On a disk with the log region that `mkfs` lays out and an empty header: a `log_write` panics with
"too big a transaction" if and only if the operations have logged `LOGSIZE - 1` different blocks
since the last commit. -/
theorem logWrite_too_big_iff {v : Block} (h0 : headN (d headBlock) = 0) (hr : LogSys.Run d s h)
    (ht : s.thread t = .op) (hb : (s.cache.buf b).busy = some (.thread t))
    (hn : ∀ n ∈ (s.cache.buf b).blockno, ¬ InLog n) :
    s.step (.logWrite t b v) = .error (.panic "too big a transaction") ↔
      LOGSIZE - 1 ≤ (blocksOf h.cur).length := by
  rcases hr.inv h0 with hB | hI
  · exact absurd ht hB.not_op
  have hin : (s.thread t).inOp := by
    rw [ht]
    trivial
  have hboot : s.booted = true := by
    rw [LogSys.booted, (hI.runPhase hin).1]
  have hout : ¬ s.outstanding < 1 := by
    have := hI.outstanding_pos hin
    omega
  rw [← hI.length_lh hin]
  simp only [LogSys.step, LogSys.stepBy, logWrite]
  rw [require_pos ⟨hboot, ht, hb⟩, ok_bind, require_pos hn, ok_bind]
  by_cases hlen : LOGSIZE - 1 ≤ s.lh.length
  · have hbig : LOGSIZE ≤ s.lh.length ∨ nlog - 1 ≤ s.lh.length := .inr hlen
    rw [panicIf_pos hbig, error_bind]
    exact iff_of_true rfl hlen
  · have hsmall : ¬ (LOGSIZE ≤ s.lh.length ∨ nlog - 1 ≤ s.lh.length) := by
      rw [not_or]
      exact ⟨fun hle => hlen ((Nat.sub_le _ _).trans hle), hlen⟩
    rw [panicIf_neg hsmall, ok_bind, panicIf_neg hout, ok_bind]
    exact iff_of_false (by rintro ⟨⟩) hlen

/-- The tests of `log_write` are made before it takes the lock, so several threads may pass them with
the same `log.lh.n`. Still none of them writes past the end of `log.lh.block`, because each logged
block takes up a buffer and there are no more than `LOGSIZE` of those. -/
theorem logAppend_in_bounds (h0 : headN (d headBlock) = 0) (hr : LogSys.Run d s h) :
    s.step (.logAppend t) ≠ .error .outOfBounds := by
  simp only [LogSys.step, LogSys.stepBy, logAppend]
  cases ht : s.thread t with
  | idle | op | committing => rintro ⟨⟩
  | logging b =>
    rcases hr.inv h0 with hB | hI
    · exact absurd (hB.idle t) (by simp [ht])
    have hin : (s.thread t).inOp := by
      rw [ht]
      trivial
    obtain ⟨hbusy, -⟩ := hI.logging t b ht
    obtain ⟨n, hn⟩ := Option.ne_none_iff_exists'.1 (hI.held b t hbusy).2
    have hdirty : ∀ m ∈ s.lh.erase n, s.cache.Dirty m := fun m hm =>
      ((hI.runPhase hin).2.2.dirty m).2 (mem_of_mem_erase hm)
    have hlt : (s.lh.erase n).length < NBUF :=
      length_lt_of_dirty hdirty (hI.nodup.erase n) hn hI.nodup.not_mem_erase
    have hle : (absorb s.lh n).length ≤ LOGSIZE := by
      have hNL : NBUF = LOGSIZE := rfl
      unfold absorb
      split
      · next hmem =>
        rw [length_erase_of_mem hmem] at hlt
        omega
      · next hmem =>
        rw [erase_of_not_mem hmem] at hlt
        rw [length_append, length_singleton]
        omega
    simp only [hn]
    rw [if_neg (by omega)]
    rintro ⟨⟩

end

/-- The `log_write` of `crashRun` has passed the tests. -/
theorem logAppend_in_bounds_crashRun : ∃ (s : LogSys Unit) (h : Hist Unit) (b : Fin NBUF),
    LogSys.Run (fun _ => .zero) s h ∧ s.thread () = .logging b ∧
      s.step (.logAppend ()) ≠ .error .outOfBounds := by
  have hrun : (LogSys.exec (crashRun.take 7) (.boot fun _ => .zero, .empty)).toOption.any
      (fun x => decide (x.1.thread () = .logging ⟨1, one_lt_NBUF⟩)) = true := by decide +kernel
  obtain ⟨x, hx, ht⟩ := exists_ok hrun
  have hr := LogSys.Run.boot.exec hx
  exact ⟨_, _, _, hr, of_decide_eq_true ht, logAppend_in_bounds (by decide) hr⟩

/-- One operation that has read a block. -/
def oneOpRun : Except Stop (LogSys Unit × Hist Unit) :=
  LogSys.exec (List.replicate 4 .log ++ [.beginOp (), .bread () 40]) (.boot fun _ => .zero, .empty)

/-- The first `log_write` of an operation that runs alone does not panic. -/
theorem logWrite_too_big_iff_oneOp : ∃ (s : LogSys Unit) (h : Hist Unit) (b : Fin NBUF),
    LogSys.Run (fun _ => .zero) s h ∧
      s.step (.logWrite () b .zero) ≠ .error (.panic "too big a transaction") := by
  have hok : (oneOpRun.toOption.map fun x => decide
      (x.1.thread () = .op ∧ (x.1.cache.buf ⟨1, by decide⟩).busy = some (.thread ()) ∧
        (∀ n ∈ (x.1.cache.buf ⟨1, by decide⟩).blockno, ¬ InLog n) ∧
        (blocksOf x.2.cur).length = 0)) = some true := by decide +kernel
  cases he : oneOpRun with
  | error e => simp [he, Except.toOption] at hok
  | ok x =>
    simp only [he, Except.toOption, Option.map_some, Option.some_inj, decide_eq_true_eq] at hok
    obtain ⟨ht, hb, hn, hlen⟩ := hok
    have hr : LogSys.Run (fun _ => .zero) x.1 x.2 := LogSys.Run.boot.exec he
    refine ⟨x.1, x.2, ⟨1, by decide⟩, hr, ?_⟩
    rw [ne_eq, logWrite_too_big_iff (by decide) hr ht hb hn, hlen]
    decide

/-! ## Three full operations -/

/-- The thread `t` logs block `40 + i`, for which it gets the buffer `i + 1`. -/
def logBlock {T : Type} (t : T) (i : Fin 29) : List (LogAct T) :=
  let b : Fin NBUF := i.succ
  [.bread t (UInt32.ofNat (40 + i.val)), .logWrite t b .zero, .logAppend t, .brelse t b]

/-- Three operations that log 10, 10 and 9 blocks; the third has read its tenth block. -/
def threeOps : List (LogAct (Fin 3)) :=
  List.replicate 4 LogAct.log ++ [LogAct.beginOp 0, .beginOp 1, .beginOp 2] ++
    (List.finRange 29).flatMap (fun i => logBlock (Fin.ofNat 3 (i.val / 10)) i) ++ [LogAct.bread 2 69]

/-- The machine after `threeOps` on a zeroed disk. -/
def threeOpsRun : Except Stop (LogSys (Fin 3) × Hist (Fin 3)) :=
  LogSys.exec threeOps (.boot fun _ => .zero, .empty)

/-- The checks on the state after `threeOps`: what each of the three operations has logged, and the
`log_write` of the block that the third has read. -/
def threeOpsCheck (x : LogSys (Fin 3) × Hist (Fin 3)) : Prop :=
  (x.1.cache.buf ⟨0, NBUF_pos⟩).blockno = some 69 ∧
  (∀ w ∈ x.2.writes, w.op < 3) ∧
  (∀ op < 3, (blocksOf (x.2.writes.filter (·.op = op))).length ≤ MAXOPBLOCKS) ∧
  (blocksOf (x.2.writes.filter (·.op = x.2.op 2) ++ [⟨x.2.op 2, 69, .zero⟩])).length ≤ MAXOPBLOCKS ∧
  stop? (x.1.step (.logWrite 2 ⟨0, NBUF_pos⟩ .zero)) = some (.panic "too big a transaction")

instance (x : LogSys (Fin 3) × Hist (Fin 3)) : Decidable (threeOpsCheck x) :=
  inferInstanceAs (Decidable (_ ∧ _))

/-- Three operations are admitted together and log at most `MAXOPBLOCKS` blocks each, and the
`log_write` of the thirtieth block panics. -/
theorem logWrite_too_big_threeOps :
    ∃ (s : LogSys (Fin 3)) (h : Hist (Fin 3)) (t : Fin 3) (b : Fin NBUF) (n : UInt32) (v : Block),
      LogSys.Run (fun _ => .zero) s h ∧ (s.cache.buf b).blockno = some n ∧
      (∀ op, (blocksOf (h.writes.filter (·.op = op))).length ≤ MAXOPBLOCKS) ∧
      (blocksOf (h.writes.filter (·.op = h.op t) ++ [⟨h.op t, n, v⟩])).length ≤ MAXOPBLOCKS ∧
      s.step (.logWrite t b v) = .error (.panic "too big a transaction") := by
  have hok : (threeOpsRun.toOption.map fun x => decide (threeOpsCheck x)) = some true := by
    decide +kernel
  cases he : threeOpsRun with
  | error e => simp [he, Except.toOption] at hok
  | ok x =>
    have hx : threeOpsCheck x := by simpa [he, Except.toOption] using hok
    obtain ⟨hb, hlt, hops, hlast, hstop⟩ := hx
    refine ⟨x.1, x.2, 2, _, 69, .zero, LogSys.Run.boot.exec he, hb, fun op => ?_, hlast,
      stop?_eq_some hstop⟩
    rcases Nat.lt_or_ge op 3 with h3 | h3
    · exact hops op h3
    · have hnil : x.2.writes.filter (·.op = op) = [] := by
        rw [filter_eq_nil_iff]
        intro w hw
        have := hlt w hw
        rw [decide_eq_true_eq]
        omega
      rw [hnil]
      exact Nat.zero_le _

end TronBoss
