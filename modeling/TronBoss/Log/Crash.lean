import TronBoss.Log.Commit

/-!
# Crash atomicity

The invariant holds along every run, so what a recovery yields is the effect of a prefix of the
commits; and an operation, which ends before its commit starts, is in one of them as a whole.
-/

namespace TronBoss

open Lib List Function

section
variable {T : Type} [DecidableEq T] {d : Disk} {s s' : LogSys T} {h : Hist T} {t : T}

/-! ## Runs -/

/-- What holds in the first recovery, before any thread runs. -/
structure BootInv (d : Disk) (s : LogSys T) (h : Hist T) : Prop where
  mode : ∃ pc, s.mode = .recover pc
  hist : h = .empty
  recover : RecoverInv d s
  outstanding : s.outstanding = 0
  committing : s.committing = false
  idle : ∀ t, s.thread t = .idle

omit [DecidableEq T] in
/-- The log runs when the first recovery is done. -/
theorem BootInv.run (hB : BootInv d s h) (hm : s.mode = .recover .done) :
    LogInv d { s with mode := .run } h := by
  obtain ⟨-, rfl, hR, h0, hcom, hidle⟩ := hB
  have hpc := hR.pc
  simp only [RecoverPc, hm] at hpc
  obtain ⟨hnil, hhead, hhome⟩ := hpc
  have hlog : Hist.logical (T := T) .empty d = d := rfl
  have hview : overlay s.cache.disk d = s.cache.disk := by
    funext n
    by_cases hn : InLog n
    · exact overlay_inLog hn
    · rw [overlay_home hn, hhome n hn]
  have hX : LogSys.unlogged { s with mode := .run } = fun _ => False := by
    funext b
    refine eq_false ?_
    rintro ⟨t, ht⟩
    simp [hidle] at ht
  refine ⟨⟨?_, fun b t hb => absurd hb (hR.alone b t), fun t b ht => ?_⟩, ⟨∅, by simp [h0], ?_⟩,
    by simp [hnil], by simp [hnil], hcom, hhead, fun n => ?_, ?_, hhome⟩
  · rw [hX, hlog, hview]
    exact hR.stores
  · simp [hidle] at ht
  · simp [hidle, ThreadPc.inOp]
  · simp [hnil, hR.clean n]
  · simp [hnil, Hist.empty]

/-- The end of a commit. -/
theorem LogInv.commitDone (hI : LogInv d s h) (h0 : s.outstanding = 0) (hcur : h.cur = [])
    (hnil : s.lh = []) (hclean : ∀ n, ¬ s.cache.Dirty n)
    (hhead : headBlocks (s.cache.disk headBlock) = [])
    (hhome : ∀ n, Home n → s.cache.disk n = h.durable d n) :
    LogInv d { s.setThread t .idle with committing := false, mode := .run } h := by
  have hno : ∀ t', ¬ (s.thread t').inOp := by
    intro t' ht'
    have := hI.outstanding_pos ht'
    omega
  have hlog : ∀ b, s.thread t ≠ .logging b := by
    intro b ht
    have := hno t
    simp [ht, ThreadPc.inOp] at this
  refine ⟨hI.move hlog (x := .idle) (by simp) rfl rfl, ⟨∅, by simp [LogSys.setThread, h0], fun t' => ?_⟩,
    hI.home, hI.nodup, rfl, hhead, fun n => ?_, fun n => ?_, hhome⟩
  · by_cases e : t' = t
    · simp [LogSys.setThread, e, ThreadPc.inOp]
    · simp [LogSys.setThread, update_of_ne e, hno]
  · simp [LogSys.setThread, hnil, hclean n]
  · simp [LogSys.setThread, hnil, hcur]

/-- Every step keeps the invariant. -/
theorem LogInv.step {a : LogAct T} (hI : LogInv d s h) (hs : s.step a = .ok s') :
    LogInv d s' (h.next s a) := by
  cases a with
  | beginOp t => exact hI.beginOp hs
  | logWrite t b v => exact hI.logWrite hs
  | logAppend t => exact hI.logAppend hs
  | endOp t => exact hI.endOp hs
  | bread t n =>
    simp only [LogSys.step, LogSys.stepBy, bind_eq_ok] at hs
    obtain ⟨_, -, ⟨b, c⟩, hb, hs⟩ := hs
    cases hs
    exact hI.bread hb
  | brelse t b =>
    simp only [LogSys.step, LogSys.stepBy, bind_eq_ok, require_eq_ok] at hs
    obtain ⟨_, ⟨-, ht⟩, _, hb, c, hc, hs⟩ := hs
    cases hs
    refine hI.brelse (fun hl => ?_) hb hc
    rcases ht with ht | ht <;> simp [ht] at hl
  | log =>
    have hp := hI.phase
    cases LogSys.logStep_of_step hs with
    | recovered hm | recover hm => simp [LogPhase, hm] at hp
    | committed hm =>
      -- the last section of `end_op`
      simp only [LogPhase, hm] at hp
      obtain ⟨-, h0, hcur, hnil, hclean, hhead, hhome⟩ := hp
      exact hI.commitDone h0 hcur hnil hclean hhead hhome
    | commit hm hr => exact hI.commitStep hm hr

/-- A step from a state of a run. -/
theorem BootInv.step {a : LogAct T} (hB : BootInv d s h) (hs : s.step a = .ok s') :
    BootInv d s' (h.next s a) ∨ LogInv d s' (h.next s a) := by
  obtain ⟨pc, hm⟩ := hB.mode
  have hnot : s.booted = false := by rw [LogSys.booted, hm]
  have hidle := hB.idle
  cases a with
  | beginOp t => simp [LogSys.step, LogSys.stepBy, beginOp, bind_eq_ok, hnot] at hs
  | bread t n | brelse t b => simp [LogSys.step, LogSys.stepBy, bind_eq_ok, hnot] at hs
  | logWrite t b v => simp [LogSys.step, LogSys.stepBy, logWrite, bind_eq_ok, hnot] at hs
  | logAppend t => simp [LogSys.step, LogSys.stepBy, logAppend, hidle] at hs
  | endOp t => simp [LogSys.step, LogSys.stepBy, endOp, bind_eq_ok, hnot] at hs
  | log =>
    have hR := hB.recover.step hs
    cases LogSys.logStep_of_step hs with
    | committed hm' | commit hm' =>
      rw [hm] at hm'
      cases hm'
    | recovered hm => exact .inr (hB.run hm)
    | recover => exact .inl ⟨⟨_, rfl⟩, hB.hist, hR, hB.outstanding, hB.committing, hidle⟩

/-- The invariant holds along every run from a disk with an empty log. -/
theorem LogSys.Run.inv (h0 : headN (d headBlock) = 0) (hr : LogSys.Run d s h) :
    BootInv d s h ∨ LogInv d s h := by
  induction hr with
  | boot =>
    have hnil : headBlocks (d headBlock) = [] := by simp [headBlocks, h0]
    exact .inl ⟨⟨_, rfl⟩, rfl, .boot (.of_nil hnil fun _ _ => rfl), rfl, rfl, fun _ => rfl⟩
  | step _ hs ih =>
    rcases ih with hB | hI
    · exact hB.step hs
    · exact .inr (hI.step hs)

/-- At every point of a run the disk is recoverable to the contents after some of the commits. -/
theorem LogSys.Run.recoverable (h0 : headN (d headBlock) = 0) (hr : LogSys.Run d s h) :
    ∃ k ≤ h.commits.length, Recoverable s.cache.disk (h.upTo k d) := by
  rcases hr.inv h0 with hB | hI
  · obtain ⟨-, rfl, hR, -, -, -⟩ := hB
    exact ⟨0, Nat.zero_le _, hR.disk⟩
  · have hp := hI.phase
    cases hm : s.mode with
    | recover pc => simp [LogPhase, hm] at hp
    | run =>
      simp only [LogPhase, hm] at hp
      exact ⟨_, le_rfl, .of_nil hp.2.head hp.2.home⟩
    | commit t pc =>
      simp only [LogPhase, hm] at hp
      obtain ⟨-, -, -, hpc⟩ := hp
      have hold : ∀ tail, WriteLogPhase d h s.cache s.lh tail →
          ∃ k ≤ h.commits.length, Recoverable s.cache.disk (h.upTo k d) :=
        fun tail hw => ⟨_, Nat.sub_le _ _, .of_nil hw.head hw.old⟩
      cases pc with
      | readHead => exact hpc.elim
      | writeLog tail | commitHead => exact hold _ hpc
      | writeLogFrom tail b => exact hold _ hpc.1
      | install tail => exact ⟨_, le_rfl, hpc.disk⟩
      | installDst tail b => exact ⟨_, le_rfl, hpc.1.disk⟩
      | clearHead => exact ⟨_, le_rfl, hpc.2.2.1⟩
      | done => exact ⟨_, le_rfl, .of_nil hpc.2.2.1 hpc.2.2.2⟩

/-! ## Operations are in one commit -/

/-- The operations of different commits, and of the commits and the current group, differ. -/
structure OpInv (s : LogSys T) (h : Hist T) : Prop where
  fresh : ∀ w ∈ h.writes, w.op < h.fresh
  running : ∀ t, (s.thread t).inOp → h.op t < h.fresh ∧ ∀ w ∈ h.commits.flatten, w.op ≠ h.op t
  split : (h.commits ++ [h.cur]).Pairwise fun g g' => ∀ w ∈ g, ∀ w' ∈ g', w.op ≠ w'.op

omit [DecidableEq T] in
/-- A step that starts no operation and records nothing. -/
theorem OpInv.keep (hO : OpInv s h) (ht : ∀ t, (s'.thread t).inOp → (s.thread t).inOp) :
    OpInv s' h :=
  ⟨hO.fresh, fun t hin => hO.running t (ht t hin), hO.split⟩

/-- The threads in an operation after a thread has moved. -/
theorem inOp_update {x : ThreadPc} (hx : x.inOp → (s.thread t).inOp) (t' : T)
    (ht' : (update s.thread t x t').inOp) : (s.thread t').inOp := by
  by_cases e : t' = t
  · subst e
    rw [update_self] at ht'
    exact hx ht'
  · rwa [update_of_ne e] at ht'

/-- A new operation gets a number that no logged block has. -/
theorem OpInv.beginOp (hO : OpInv s h) (hs : beginOp t s = .ok s') :
    OpInv s' (h.next s (.beginOp t)) := by
  simp only [TronBoss.beginOp, bind_eq_ok] at hs
  obtain ⟨_, -, _, -, _, -, hs⟩ := hs
  cases hs
  have hlt : ∀ w ∈ h.commits.flatten, w.op < h.fresh := fun w hw =>
    hO.fresh w (mem_append_left _ hw)
  refine ⟨fun w hw => Nat.lt_succ_of_lt (hO.fresh w hw), fun t' ht' => ?_, hO.split⟩
  simp only [Hist.next]
  by_cases e : t' = t
  · subst e
    rw [update_self]
    exact ⟨Nat.lt_succ_self _, fun w hw => (hlt w hw).ne⟩
  · rw [update_of_ne e]
    simp only [LogSys.setThread, update_of_ne e] at ht'
    exact ⟨Nat.lt_succ_of_lt (hO.running t' ht').1, (hO.running t' ht').2⟩

/-- A block is logged for a running operation, which is in no earlier commit. -/
theorem OpInv.logAppend (hO : OpInv s h) (hs : logAppend t s = .ok s') :
    OpInv s' (h.next s (.logAppend t)) := by
  obtain ⟨b, n, ht, hn, rfl⟩ := logAppend_eq_ok hs
  have hin : (s.thread t).inOp := by
    rw [ht]
    trivial
  obtain ⟨hlt, hne⟩ := hO.running t hin
  rw [Hist.next_logAppend ht hn]
  refine ⟨fun w hw => ?_, fun t' ht' => hO.running t' (inOp_update (fun _ => hin) t' ht'), ?_⟩
  · rw [Hist.writes, ← append_assoc, mem_append, mem_singleton] at hw
    rcases hw with hw | rfl
    · exact hO.fresh w hw
    · exact hlt
  · have hsplit := hO.split
    rw [pairwise_append] at hsplit ⊢
    refine ⟨hsplit.1, pairwise_singleton _ _, fun g hg g' hg' => ?_⟩
    rw [mem_singleton] at hg'
    subst hg'
    intro w hw w' hw'
    rw [mem_append, mem_singleton] at hw'
    rcases hw' with hw' | rfl
    · exact hsplit.2.2 g hg h.cur (mem_singleton_self _) w hw w' hw'
    · exact hne w (mem_flatten.2 ⟨g, hg, hw⟩)

/-- The last `end_op` closes the group: no thread is in an operation then. -/
theorem OpInv.endOp (hO : OpInv s h) (hI : LogInv d s h) (hs : endOp t s = .ok s') :
    OpInv s' (h.next s (.endOp t)) := by
  simp only [TronBoss.endOp, bind_eq_ok, require_eq_ok, panicIf_eq_ok] at hs
  obtain ⟨_, ⟨-, hop⟩, _, -, hs⟩ := hs
  have hin : (s.thread t).inOp := by
    rw [hop]
    trivial
  have hpos := hI.outstanding_pos hin
  split at hs
  · next h0 =>
    cases hs
    obtain ⟨S, hS, hmem⟩ := hI.count_erase (x := .committing) hin (by simp [ThreadPc.inOp])
    have hnone : ∀ t', ¬ (update s.thread t .committing t').inOp := by
      intro t' ht'
      have hS0 : S = ∅ := Finset.card_eq_zero.1 (hS.trans h0)
      have := (hmem t').2 ht'
      simp [hS0] at this
    rw [Hist.next_endOp (by omega)]
    refine ⟨?_, fun t' ht' => absurd ht' (hnone t'), ?_⟩
    · intro w hw
      refine hO.fresh w ?_
      simpa [Hist.writes] using hw
    · refine pairwise_append.2 ⟨hO.split, pairwise_singleton _ _, ?_⟩
      simp
  · next h0 =>
    cases hs
    rw [Hist.next_endOp_of_ne (by omega)]
    exact hO.keep (inOp_update (by simp [ThreadPc.inOp]))

/-- Every step keeps the record of the operations. -/
theorem OpInv.step {a : LogAct T} (hO : OpInv s h) (hI : BootInv d s h ∨ LogInv d s h)
    (hs : s.step a = .ok s') : OpInv s' (h.next s a) := by
  cases a with
  | beginOp t => exact hO.beginOp hs
  | logAppend t => exact hO.logAppend hs
  | endOp t =>
    rcases hI with hB | hI
    · simp [LogSys.step, LogSys.stepBy, TronBoss.endOp, bind_eq_ok, hB.idle] at hs
    · exact hO.endOp hI hs
  | bread t n =>
    simp only [LogSys.step, LogSys.stepBy, bind_eq_ok] at hs
    obtain ⟨_, -, _, -, hs⟩ := hs
    cases hs
    exact hO.keep fun _ => id
  | brelse t b =>
    simp only [LogSys.step, LogSys.stepBy, bind_eq_ok] at hs
    obtain ⟨_, -, _, -, _, -, hs⟩ := hs
    cases hs
    exact hO.keep fun _ => id
  | logWrite t b v =>
    simp only [LogSys.step, LogSys.stepBy, logWrite, bind_eq_ok, require_eq_ok] at hs
    obtain ⟨_, ⟨-, hop, -⟩, _, -, _, -, _, -, hs⟩ := hs
    cases hs
    exact hO.keep (inOp_update fun _ => by rw [hop]; trivial)
  | log =>
    cases LogSys.logStep_of_step hs with
    | committed => exact hO.keep (inOp_update (by simp [ThreadPc.inOp]))
    | recovered | commit | recover => exact hO.keep fun _ => id

theorem LogSys.Run.opInv (h0 : headN (d headBlock) = 0) (hr : LogSys.Run d s h) : OpInv s h := by
  induction hr with
  | boot =>
    exact ⟨by simp [Hist.writes, Hist.empty], by simp [LogSys.boot, ThreadPc.inOp],
      by simp [Hist.empty]⟩
  | step hr hs ih => exact ih.step (hr.inv h0) hs

omit [DecidableEq T] in
/-- An operation with a `log_write` in the first `k` commits has all of them there. -/
theorem OpInv.take (hO : OpInv s h) (k op : Nat) :
    h.writes.filter (·.op = op) = (h.commits.take k).flatten.filter (·.op = op) ∨
      (h.commits.take k).flatten.filter (·.op = op) = [] := by
  rw [or_iff_not_imp_right]
  intro hne
  obtain ⟨w, hw⟩ := exists_mem_of_ne_nil _ hne
  simp only [mem_filter, decide_eq_true_eq] at hw
  obtain ⟨g, hg, hwg⟩ := mem_flatten.1 hw.1
  -- the later groups have other operations
  have hsplit := hO.split
  rw [← take_append_drop k h.commits, append_assoc, pairwise_append] at hsplit
  have hrest : ((h.commits.drop k).flatten ++ h.cur).filter (·.op = op) = [] := by
    rw [filter_eq_nil_iff]
    intro w' hw'
    rw [decide_eq_true_eq, ← hw.2]
    rw [mem_append, mem_flatten] at hw'
    rcases hw' with ⟨g', hg', hw'⟩ | hw'
    · exact (hsplit.2.2 g hg g' (mem_append_left _ hg') w hwg w' hw').symm
    · exact (hsplit.2.2 g hg h.cur (mem_append_right _ (mem_singleton_self _))
        w hwg w' hw').symm
  rw [Hist.writes, ← take_append_drop k h.commits, flatten_append, append_assoc,
    filter_append, hrest, append_nil, take_append_drop]

/-- Crash atomicity: after a run from a disk with an empty log, a crash, and a recovery with any
number of crashes, the home blocks have the contents after the `log_write`s of a prefix of the
commits. Each operation is in the prefix with all its `log_write`s or with none, and a block that
nobody logged is as before. -/
theorem log_crash_atomic {d' : Disk} (h0 : headN (d headBlock) = 0) (hr : LogSys.Run d s h)
    (hrec : Recovered T s.cache.disk d') :
    ∃ k ≤ h.commits.length,
      (∀ n, ¬ InLog n → d' n = applyWrites
        ((h.commits.take k).flatten.map fun w => (w.blockno, w.data)) d n) ∧
      (∀ op, h.writes.filter (·.op = op) = (h.commits.take k).flatten.filter (·.op = op) ∨
        (h.commits.take k).flatten.filter (·.op = op) = []) ∧
      ∀ n, ¬ InLog n → (∀ w ∈ h.writes, w.blockno ≠ n) → d' n = d n := by
  obtain ⟨k, hk, hdisk⟩ := hr.recoverable h0
  have heq := (hrec.disk_eq hdisk).2
  refine ⟨k, hk, heq, (hr.opInv h0).take k, fun n hn hw => ?_⟩
  rw [heq n hn]
  refine applyWrites_of_not_mem fun p hp => ?_
  obtain ⟨w, hmem, rfl⟩ := mem_map.1 hp
  refine hw w (mem_append_left _ ?_)
  obtain ⟨g, hg, hwg⟩ := mem_flatten.1 hmem
  exact mem_flatten.2 ⟨g, mem_of_mem_take hg, hwg⟩

/-- Durability: a recovery keeps every commit, but for the last one when the crash comes in the
middle of it and before its header is on the disk. -/
theorem log_durable {d' : Disk} (h0 : headN (d headBlock) = 0) (hr : LogSys.Run d s h)
    (hrec : Recovered T s.cache.disk d') :
    (∀ n, ¬ InLog n → d' n = h.durable d n) ∨
    s.committing = true ∧ headBlocks (s.cache.disk headBlock) = [] ∧
      ∀ n, ¬ InLog n → d' n = h.upTo (h.commits.length - 1) d n := by
  rcases hr.inv h0 with hB | hI
  · obtain ⟨-, rfl, hR, -, -, -⟩ := hB
    exact .inl (hrec.disk_eq hR.disk).2
  have hkept (hd : Recoverable s.cache.disk (h.durable d)) := (hrec.disk_eq hd).2
  have hp := hI.phase
  cases hm : s.mode with
  | recover pc => simp [LogPhase, hm] at hp
  | run =>
    simp only [LogPhase, hm] at hp
    exact .inl (hkept (.of_nil hp.2.head hp.2.home))
  | commit t pc =>
    simp only [LogPhase, hm] at hp
    obtain ⟨hcom, -, -, hpc⟩ := hp
    have hlost (tail) (hw : WriteLogPhase d h s.cache s.lh tail) :=
      And.intro hcom (And.intro hw.head (hrec.disk_eq (.of_nil hw.head hw.old)).2)
    -- the commit counts from the write of the header on
    cases pc with
    | readHead => exact hpc.elim
    | writeLog tail | commitHead => exact .inr (hlost _ hpc)
    | writeLogFrom tail b => exact .inr (hlost _ hpc.1)
    | install tail => exact .inl (hkept hpc.disk)
    | installDst tail b => exact .inl (hkept hpc.1.disk)
    | clearHead => exact .inl (hkept hpc.2.2.1)
    | done => exact .inl (hkept (.of_nil hpc.2.2.1 hpc.2.2.2))

/-- A `bread` returns the block as it is after all `log_write`s so far, committed or not. -/
theorem bread_latest {t : T} {n : UInt32} (h0 : headN (d headBlock) = 0) (hr : LogSys.Run d s h)
    (hn : ¬ InLog n) (hs : s.step (.bread t n) = .ok s') :
    ∃ b, (s'.cache.buf b).busy = some (.thread t) ∧ (s'.cache.buf b).blockno = some n ∧
      (s'.cache.buf b).data = h.logical d n := by
  obtain ⟨⟨hboot, -⟩, hs⟩ := require_bind_eq_ok hs
  obtain ⟨⟨b, c⟩, hb, hs⟩ := bind_eq_ok.1 hs
  cases hs
  rcases hr.inv h0 with hB | hI
  · obtain ⟨pc, hm⟩ := hB.mode
    simp [LogSys.booted, hm] at hboot
  · obtain ⟨ht, -, -, hdata⟩ := bread_spec hI.rep hb
    exact ⟨b, ht.busy, ht.blockno, hdata.trans (overlay_home hn)⟩

/-! ## A run with a crash in the middle of a commit -/

/-- A sequence of steps from a state of a run. -/
theorem LogSys.Run.exec {as : List (LogAct T)} {x : LogSys T × Hist T} (hr : LogSys.Run d s h)
    (he : LogSys.exec as (s, h) = .ok x) : LogSys.Run d x.1 x.2 := by
  induction as generalizing s h with
  | nil =>
    cases he
    exact hr
  | cons a as ih =>
    obtain ⟨s', hs, he⟩ := bind_eq_ok.1 he
    exact ih (hr.step hs) he

/-- A sequence of steps of a recovery. -/
theorem LogSys.Recovering.exec {k : Nat} {x : LogSys T × Hist T} (hr : LogSys.Recovering d s)
    (he : LogSys.exec (List.replicate k .log) (s, h) = .ok x) : LogSys.Recovering d x.1 := by
  induction k generalizing s h with
  | zero =>
    cases he
    exact hr
  | succ k ih =>
    obtain ⟨s', hs, he⟩ := bind_eq_ok.1 he
    exact ih (hr.step hs) he

end

/-- One operation logs block 40 of a zeroed disk, and its commit gets as far as the header. -/
def crashRun : List (LogAct Unit) :=
  List.replicate 4 LogAct.log ++
    [LogAct.beginOp (), .bread () 40, .logWrite () ⟨1, one_lt_NBUF⟩ fun _ => 7, .logAppend (),
      .brelse () ⟨1, one_lt_NBUF⟩, .endOp ()] ++
    List.replicate 4 LogAct.log

/-- The machine after `crashRun`, and after the recovery that follows the crash. -/
def crashRecovery : Except Stop (LogSys Unit × LogSys Unit) := do
  let x ← LogSys.exec crashRun (.boot fun _ => .zero, .empty)
  let y ← LogSys.exec (List.replicate 6 .log) (.boot x.1.cache.disk, .empty)
  return (x.1, y.1)

/-- The recovery of `crashRun` ends, so the statement holds of a run whose commit it completes. -/
theorem log_crash_atomic_crashRun :
    ∃ (s : LogSys Unit) (h : Hist Unit) (d' : Disk),
      LogSys.Run (fun _ => .zero) s h ∧ Recovered Unit s.cache.disk d' ∧
      ∃ k ≤ h.commits.length,
        (∀ n, ¬ InLog n → d' n = applyWrites
          ((h.commits.take k).flatten.map fun w => (w.blockno, w.data)) (fun _ => .zero) n) ∧
        (∀ op, h.writes.filter (·.op = op) = (h.commits.take k).flatten.filter (·.op = op) ∨
          (h.commits.take k).flatten.filter (·.op = op) = []) ∧
        ∀ n, ¬ InLog n → (∀ w ∈ h.writes, w.blockno ≠ n) → d' n = Bytes.zero := by
  have hok : (crashRecovery.toOption.map fun x => decide (x.2.mode = .run)) = some true := by
    decide +kernel
  cases he : crashRecovery with
  | error e => simp [he, Except.toOption] at hok
  | ok x =>
    obtain ⟨y, hy, hrest⟩ := bind_eq_ok.1 he
    obtain ⟨z, hz, hx⟩ := bind_eq_ok.1 hrest
    cases hx
    have hmode : z.1.mode = .run := by simpa [he, Except.toOption] using hok
    have hrun : LogSys.Run (fun _ => .zero) y.1 y.2 := LogSys.Run.boot.exec hy
    have hrec : Recovered Unit y.1.cache.disk z.1.cache.disk :=
      .done (LogSys.Recovering.boot.exec hz) hmode
    exact ⟨y.1, y.2, z.1.cache.disk, hrun, hrec, log_crash_atomic (by decide) hrun hrec⟩

/-- The crash of `crashRun` comes after the header, so its commit is kept. -/
theorem log_durable_crashRun : ∃ (s : LogSys Unit) (h : Hist Unit) (d' : Disk),
    LogSys.Run (fun _ => .zero) s h ∧ Recovered Unit s.cache.disk d' ∧
    ∀ n, ¬ InLog n → d' n = h.durable (fun _ => .zero) n := by
  have hok : crashRecovery.toOption.any (fun x => decide (x.2.mode = .run ∧
      headBlocks (x.1.cache.disk headBlock) ≠ [])) = true := by decide +kernel
  obtain ⟨x, hx, hf⟩ := exists_ok hok
  obtain ⟨hmode, hhead⟩ := of_decide_eq_true hf
  obtain ⟨y, hy, hx⟩ := bind_eq_ok.1 hx
  obtain ⟨z, hz, hx⟩ := bind_eq_ok.1 hx
  cases hx
  have hrun := LogSys.Run.boot.exec hy
  have hrec : Recovered Unit y.1.cache.disk z.1.cache.disk :=
    .done (LogSys.Recovering.boot.exec hz) hmode
  have hkept := (log_durable (by decide) hrun hrec).resolve_right fun hl => hhead hl.2.1
  exact ⟨_, _, _, hrun, hrec, hkept⟩

/-- The operation of `crashRun` reads the block again that it has logged. -/
theorem bread_latest_crashRun : ∃ (s s' : LogSys Unit) (h : Hist Unit) (b : Fin NBUF),
    LogSys.Run (fun _ => .zero) s h ∧ s.step (.bread () 40) = .ok s' ∧
      (s'.cache.buf b).data = h.logical (fun _ => .zero) 40 := by
  have hrun : (LogSys.exec (crashRun.take 9) (.boot fun _ => .zero, .empty)).toOption.any
      (fun x => (x.1.step (.bread () 40)).toOption.any fun _ => true) = true := by
    decide +kernel
  obtain ⟨x, hx, hf⟩ := exists_ok hrun
  obtain ⟨s', hs, -⟩ := exists_ok hf
  have hr := LogSys.Run.boot.exec hx
  obtain ⟨b, -, -, hdata⟩ := bread_latest (by decide) hr (by decide) hs
  exact ⟨_, _, _, b, hr, hs, hdata⟩

end TronBoss
