import TronBoss.Log.Admission
import TronBoss.Log.Cached

/-!
# Running out of buffers

`bget` panics when a block has no buffer and every buffer is held or pinned by the log. The log may
pin `LOGSIZE - 1` of the `NBUF = LOGSIZE` buffers, readers outside of operations hold one each, and
`commit` needs one more for a block of the log. So `NBUF + 1` readers are too many, and so is one
reader while a full log is committed. A dirty buffer is one of a logged block and the log code holds
one buffer at most, so buffers are left as long as the threads leave enough of them
(`bget_finds_buffer`).
-/

namespace TronBoss

open Lib Finset

/-- The panic of `bget`. -/
def noBuffers : Stop := .panic "bget: no buffers"

/-- The number of buffers that someone holds. -/
def Bcache.held {H : Type} (c : Bcache H) : Nat :=
  (Finset.univ.filter fun b => (c.buf b).busy.isSome = true).card

/-- The block has no buffer, and every buffer is held or pinned. -/
def Bcache.Starved {H : Type} (c : Bcache H) (n : UInt32) : Prop :=
  (∀ b, (c.buf b).blockno ≠ some n) ∧
    ∀ b, (c.buf b).busy.isSome = true ∨ (c.buf b).dirty = true

/-- The block that the next step of `commit` or `recover_from_log` reads. -/
def LogPc.wants (lh : List UInt32) : LogPc → Option UInt32
  | .readHead | .commitHead | .clearHead => some headBlock
  | .writeLog tail | .install tail => if tail < lh.length then some (slotBlock tail) else none
  | .writeLogFrom tail _ | .installDst tail _ => lh[tail]?
  | .done => none

/-- The block that a step reads. -/
def LogSys.wants {T : Type} (s : LogSys T) : LogAct T → Option UInt32
  | .bread t n => if s.booted ∧ (s.thread t = .idle ∨ s.thread t = .op) then some n else none
  | .log =>
    match s.mode with
    | .run => none
    | .commit _ pc | .recover pc => pc.wants s.lh
  | _ => none

section
variable {H : Type} {c c' : Bcache H} {b : Fin NBUF} {n : UInt32} {who : H}

/-- Every buffer is on the list. -/
def Bcache.Listed (c : Bcache H) : Prop := ∀ b, b ∈ c.order

/-! ## The panic -/

/-- `bget` panics if the block has no buffer and all buffers are held or pinned. -/
theorem bget_eq_noBuffers (hl : c.Listed) :
    bget who n c = .error noBuffers ↔ c.Starved n := by
  rw [Bcache.Starved, bget]
  split
  · rename_i b hfind
    have hb := List.find?_some hfind
    refine iff_of_false ?_ fun hc => hc.1 b (of_decide_eq_true hb)
    split <;> nofun
  · rename_i hnone
    have hmiss : ∀ b, (c.buf b).blockno ≠ some n := fun b hb =>
      List.find?_eq_none.1 hnone b (hl b) (decide_eq_true hb)
    split
    · rename_i b hfind
      have hb := List.find?_some hfind
      rw [Bool.and_eq_true, Bool.not_eq_true'] at hb
      refine iff_of_false nofun fun hc => ?_
      rcases hc.2 b with hbusy | hdirty
      · rw [Option.isNone_iff_eq_none] at hb
        rw [hb.1] at hbusy
        cases hbusy
      · exact Bool.false_ne_true (hb.2.symm.trans hdirty)
    · rename_i hall
      refine iff_of_true rfl ⟨hmiss, fun b => ?_⟩
      have hb := List.find?_eq_none.1 hall b (List.mem_reverse.2 (hl b))
      cases hbusy : (c.buf b).busy <;> cases hdirty : (c.buf b).dirty <;> simp_all

/-! ## Other panics -/

/-- The computation does not stop for want of a buffer. -/
def Quiet {α : Type} (x : Except Stop α) : Prop := x ≠ .error noBuffers

theorem quiet_panicIf {p : Prop} [Decidable p] {msg : String} (h : msg ≠ "bget: no buffers") :
    Quiet (panicIf p msg) := by
  rw [Quiet, panicIf]
  split
  · exact fun hc => h (Stop.panic.inj (Except.error.inj hc))
  · nofun

theorem quiet_require {p : Prop} [Decidable p] : Quiet (require p) := by
  rw [Quiet, require]
  split <;> nofun

theorem quiet_ok {α : Type} (a : α) : Quiet (.ok a) := by
  rintro ⟨⟩

theorem Quiet.bind {α β : Type} {x : Except Stop α} {f : α → Except Stop β} (hx : Quiet x)
    (hf : ∀ a, Quiet (f a)) : Quiet (x >>= f) := by
  intro h
  rcases bind_eq_error.1 h with h | ⟨a, -, h⟩
  · exact hx h
  · exact hf a h

theorem quiet_iderw (b : Fin NBUF) (c : Bcache H) : Quiet (iderw b c) := by
  refine (quiet_panicIf (by decide)).bind fun _ => (quiet_panicIf (by decide)).bind fun _ => ?_
  split
  · nofun
  · refine (quiet_panicIf (by decide)).bind fun _ => ?_
    split <;> nofun

theorem quiet_bwrite (b : Fin NBUF) (c : Bcache H) : Quiet (bwrite b c) :=
  (quiet_panicIf (by decide)).bind fun _ => quiet_iderw _ _

theorem quiet_brelse (b : Fin NBUF) (c : Bcache H) : Quiet (brelse b c) :=
  (quiet_panicIf (by decide)).bind fun _ => nofun

/-- A `bread` and what follows stop for want of a buffer if `bget` does. -/
theorem bread_bind_eq_noBuffers {α : Type} {f : Fin NBUF × Bcache H → Except Stop α}
    (hl : c.Listed) (hf : ∀ x, Quiet (f x)) :
    (bread who n c >>= f) = .error noBuffers ↔ c.Starved n := by
  refine Iff.trans ?_ (bget_eq_noBuffers hl : bget who n c = .error noBuffers ↔ c.Starved n)
  have hquiet : ∀ x : Fin NBUF × Bcache H, Quiet (if (x.2.buf x.1).valid then
      (pure x : Except Stop _) else do
        let c ← iderw x.1 x.2
        return (x.1, c)) := by
    intro x
    split
    · nofun
    · exact (quiet_iderw _ _).bind fun _ => nofun
  rw [bind_eq_error, bread, breadBy, bind_eq_error]
  constructor
  · rintro ((h | ⟨x, -, h⟩) | ⟨x, -, h⟩)
    · exact h
    · exact absurd h (hquiet x)
    · exact absurd h (hf x)
  · exact fun h => .inl (.inl h)

end

/-! ## Steps -/

section
variable {T : Type} {c : Bcache (Holder T)} {lh : List UInt32}

theorem quiet_readHead (b : Block) : Quiet (readHead b) := by
  rw [Quiet, readHead]
  split <;> nofun

theorem writeHeadBuf_eq_noBuffers (hl : c.Listed) :
    writeHeadBufBy iderw lh c = .error noBuffers ↔ c.Starved headBlock :=
  bread_bind_eq_noBuffers hl fun _ => (quiet_bwrite _ _).bind fun _ => quiet_brelse _ _

theorem slotLoop_eq_noBuffers (hl : c.Listed) {tail : Nat} {body : Fin NBUF → LogPc}
    {after : LogPc × List UInt32} : slotLoopBy iderw tail body after lh c = .error noBuffers ↔
      ∃ n ∈ (if tail < lh.length then some (slotBlock tail) else none), c.Starved n := by
  rw [slotLoopBy]
  split
  · refine (bread_bind_eq_noBuffers hl fun x => ?_).trans (by simp)
    exact quiet_ok _
  · exact iff_of_false (quiet_ok _) (by simp)

/-- A step of the log code panics for want of a buffer if the block it reads starves. -/
theorem LogPc.step_eq_noBuffers (hl : c.Listed) (pc : LogPc) :
    pc.step lh c = .error noBuffers ↔ ∃ n ∈ pc.wants lh, c.Starved n := by
  cases pc with
  | readHead =>
    refine (bread_bind_eq_noBuffers hl fun x => ?_).trans (by simp [wants])
    exact (quiet_readHead _).bind fun _ => (quiet_brelse _ _).bind fun _ => quiet_ok _
  | writeLog tail | install tail => exact slotLoop_eq_noBuffers hl
  | writeLogFrom tail dst | installDst tail lbuf =>
    rw [LogPc.step, stepBy.eq_def, wants]
    dsimp only
    cases lh[tail]? with
    | none => exact iff_of_false (by rintro ⟨⟩) (by simp)
    | some n =>
      refine (bread_bind_eq_noBuffers hl fun x => ?_).trans (by simp)
      exact (quiet_bwrite _ _).bind fun _ => (quiet_brelse _ _).bind fun _ =>
        (quiet_brelse _ _).bind fun _ => quiet_ok _
  | commitHead | clearHead =>
    rw [LogPc.step, stepBy.eq_def]
    refine bind_eq_error.trans ?_
    rw [writeHeadBuf_eq_noBuffers hl]
    simp [wants]
  | done => exact iff_of_false (by rintro ⟨⟩) (by simp [wants])

variable [DecidableEq T] {s : LogSys T} {d : Disk} {h : Hist T}

theorem LogSys.Run.listed (hr : LogSys.Run d s h) : s.cache.Listed := by
  obtain ⟨view, htr⟩ := hr.cached.tracks
  exact htr.rep.order

theorem quiet_logAppend (t : T) (s : LogSys T) : Quiet (logAppend t s) := by
  rw [Quiet, logAppend]
  split
  · split
    · rintro ⟨⟩
    · split <;> rintro ⟨⟩
  · rintro ⟨⟩

theorem quiet_endOp (t : T) (s : LogSys T) : Quiet (endOp t s) := by
  refine quiet_require.bind fun _ => (quiet_panicIf (by decide)).bind fun _ => ?_
  split <;> exact quiet_ok _

/-- In every run: a step panics for want of a buffer if and only if the block it reads has no buffer
while all buffers are held or pinned by the log. -/
theorem LogSys.Run.step_eq_noBuffers (hr : LogSys.Run d s h) (a : LogAct T) :
    s.step a = .error noBuffers ↔ ∃ n ∈ s.wants a, s.cache.Starved n := by
  have hl := hr.listed
  cases a with
  | beginOp t =>
    refine iff_of_false ?_ (by simp [wants])
    exact quiet_require.bind fun _ => quiet_require.bind fun _ => quiet_require.bind fun _ => quiet_ok _
  | bread t n =>
    rw [LogSys.step, stepBy.eq_def, wants]
    dsimp only
    split
    · rename_i hreq
      rw [require_pos hreq, ok_bind]
      refine (bread_bind_eq_noBuffers hl fun x => ?_).trans (by simp)
      exact quiet_ok _
    · rename_i hreq
      refine iff_of_false ?_ (by simp)
      rw [require, if_neg hreq]
      rintro ⟨⟩
  | brelse t b =>
    refine iff_of_false ?_ (by simp [wants])
    exact quiet_require.bind fun _ => quiet_require.bind fun _ =>
      (quiet_brelse _ _).bind fun _ => quiet_ok _
  | logWrite t b data =>
    refine iff_of_false ?_ (by simp [wants])
    exact quiet_require.bind fun _ => quiet_require.bind fun _ =>
      (quiet_panicIf (by decide)).bind fun _ => (quiet_panicIf (by decide)).bind fun _ => quiet_ok _
  | logAppend t => exact iff_of_false (quiet_logAppend t s) (by simp [wants])
  | endOp t => exact iff_of_false (quiet_endOp t s) (by simp [wants])
  | log =>
    rw [LogSys.step, stepBy.eq_def, wants]
    have hstep : ∀ (pc : LogPc) (f : LogPc × List UInt32 × Bcache (Holder T) → LogSys T),
        (pc.step s.lh s.cache >>= fun x => (.ok (f x) : Except Stop (LogSys T))) =
          .error noBuffers ↔ ∃ n ∈ pc.wants s.lh, s.cache.Starved n := by
      intro pc f
      rw [bind_eq_error, LogPc.step_eq_noBuffers hl]
      simp
    cases s.mode with
    | run => exact iff_of_false (by rintro ⟨⟩) (by simp)
    | commit t pc | recover pc =>
      cases pc with
      | done => exact iff_of_false (by rintro ⟨⟩) (by simp [LogPc.wants])
      | _ => exact hstep _ _

/-! ## Runs with buffers enough -/

/-- The number of buffers that threads hold. -/
def Bcache.lent (c : Bcache (Holder T)) : Nat :=
  (Finset.univ.filter fun b => (c.buf b).busy ≠ none ∧ (c.buf b).busy ≠ some .log).card

/-- The dirty buffers are those of blocks in `log.lh`, also in a recovery, where there are none. -/
theorem LogSys.Run.dirty_mem (h0 : headN (d headBlock) = 0) (hr : LogSys.Run d s h) {n : UInt32}
    (hn : s.cache.Dirty n) : n ∈ s.lh := by
  rcases hr.inv h0 with hB | hI
  · exact absurd hn (hB.recover.clean n)
  have hp := hI.phase
  cases hm : s.mode with
  | run =>
    simp only [LogPhase, hm] at hp
    exact (hp.2.dirty n).1 hn
  | recover pc => simp [LogPhase, hm] at hp
  | commit t pc =>
    simp only [LogPhase, hm] at hp
    obtain ⟨-, -, -, hp⟩ := hp
    cases pc with
    | readHead => exact hp.elim
    | writeLog tail | commitHead => exact (hp.dirty n).1 hn
    | writeLogFrom tail b => exact (hp.1.dirty n).1 hn
    | install tail => exact List.mem_of_mem_drop (hp.dirty n hn)
    | installDst tail b => exact List.mem_of_mem_drop (hp.1.dirty n hn)
    | clearHead | done => exact absurd hn (hp.2.1 n)

/-- There are no more dirty buffers than blocks in `log.lh`. -/
theorem LogSys.Run.card_dirty_le (h0 : headN (d headBlock) = 0) (hr : LogSys.Run d s h) :
    (Finset.univ.filter fun b => (s.cache.buf b).dirty = true).card ≤ s.lh.length := by
  obtain ⟨view, htr⟩ := hr.cached.tracks
  have hblock : ∀ b, (s.cache.buf b).dirty = true → ∃ n, (s.cache.buf b).blockno = some n :=
    fun b hb => Option.ne_none_iff_exists'.1 (htr.rep.dirty b hb).2
  refine (card_le_card_of_injOn (t := s.lh.toFinset)
    (fun b => (s.cache.buf b).blockno.getD 0) (fun b hb => ?_) fun b hb b' hb' he => ?_).trans
    s.lh.toFinset_card_le
  · rw [mem_coe, mem_filter] at hb
    obtain ⟨n, hn⟩ := hblock b hb.2
    simp only [hn, Option.getD_some, mem_coe, List.mem_toFinset]
    exact hr.dirty_mem h0 ⟨b, hn, hb.2⟩
  · rw [mem_coe, mem_filter] at hb hb'
    obtain ⟨n, hn⟩ := hblock b hb.2
    obtain ⟨n', hn'⟩ := hblock b' hb'.2
    simp only [hn, hn', Option.getD_some] at he
    exact htr.rep.uniq b b' n hn (he ▸ hn')

/-- The log code holds at most one buffer between two steps. -/
theorem LogSys.Run.card_log_le (hr : LogSys.Run d s h) :
    (Finset.univ.filter fun b => (s.cache.buf b).busy = some .log).card ≤ 1 := by
  refine card_le_one.2 fun b hb b' hb' => ?_
  have hheld : ∀ b, (s.cache.buf b).busy = some .log → s.mode.buf? = some b := fun b hb =>
    hr.cached.held.le hb
  rw [mem_filter] at hb hb'
  exact Option.some_inj.1 ((hheld b hb.2).symm.trans (hheld b' hb'.2))

/-- In every run on a disk with an empty log: while the buffers that threads hold, the blocks logged
since the last commit and two buffers for `commit` are not more than `NBUF`, no step panics for want
of a buffer. -/
theorem bget_finds_buffer (h0 : headN (d headBlock) = 0) (hr : LogSys.Run d s h)
    (hroom : s.cache.lent + s.lh.length + 2 ≤ NBUF) (a : LogAct T) :
    s.step a ≠ .error (.panic "bget: no buffers") := by
  intro hstop
  obtain ⟨n, -, -, hall⟩ := (hr.step_eq_noBuffers a).1 hstop
  have hsub : (univ : Finset (Fin NBUF)) ⊆
      (univ.filter fun b => (s.cache.buf b).busy ≠ none ∧ (s.cache.buf b).busy ≠ some .log) ∪
        ((univ.filter fun b => (s.cache.buf b).busy = some .log) ∪
          univ.filter fun b => (s.cache.buf b).dirty = true) := by
    intro b _
    simp only [mem_union, mem_filter, mem_univ, true_and]
    rcases hall b with hb | hb
    · by_cases hl : (s.cache.buf b).busy = some .log
      · exact .inr (.inl hl)
      · exact .inl ⟨Option.isSome_iff_ne_none.1 hb, hl⟩
    · exact .inr (.inr hb)
  have hcard := (card_le_card hsub).trans ((card_union_le ..).trans
    (Nat.add_le_add_left (card_union_le ..) _))
  have hlog := hr.card_log_le
  have hdirty := hr.card_dirty_le h0
  rw [card_univ, Fintype.card_fin] at hcard
  unfold Bcache.lent at hroom
  omega

end

/-! ## Runs that end in the panic -/

/-- The number of buffers that a thread holds. -/
def Bcache.heldBy {T : Type} [DecidableEq T] (c : Bcache (Holder T)) (t : T) : Nat :=
  (Finset.univ.filter fun b => (c.buf b).busy = some (.thread t)).card

/-- Thirty readers read a block each. -/
def thirtyReaders : List (LogAct (Fin 31)) :=
  List.replicate 4 .log ++
    (List.finRange 30).map fun i => .bread i.castSucc (UInt32.ofNat (40 + i.val))

/-- Three operations log 29 blocks, a reader holds another one, and the operations end. -/
def fullLog : List (LogAct (Fin 4)) :=
  List.replicate 4 LogAct.log ++ [LogAct.beginOp 0, .beginOp 1, .beginOp 2] ++
    (List.finRange 29).flatMap (fun i => logBlock (Fin.ofNat 4 (i.val / 10)) i) ++
      [LogAct.bread 3 100, .endOp 0, .endOp 1, .endOp 2]

/-- With thirty readers that hold one buffer each, the next one panics; and so does the `commit` of
29 blocks, while a single reader holds a buffer. -/
theorem bget_no_buffers_reached :
    (∃ (s : LogSys (Fin 31)) (h : Hist (Fin 31)), LogSys.Run (fun _ => .zero) s h ∧
      (∀ t, s.thread t = .idle ∧ s.cache.heldBy t ≤ 1) ∧ s.cache.heldBy 30 = 0 ∧
      s.step (.bread 30 100) = .error (.panic "bget: no buffers")) ∧
    ∃ (s : LogSys (Fin 4)) (h : Hist (Fin 4)), LogSys.Run (fun _ => .zero) s h ∧
      (∀ t, s.cache.heldBy t ≤ 1) ∧ s.cache.held = 1 ∧ s.lh.length = 29 ∧
      s.mode = .commit 2 (.writeLog 0) ∧
      s.step .log = .error (.panic "bget: no buffers") := by
  constructor
  · have hrun : ((LogSys.exec thirtyReaders (.boot fun _ => .zero, .empty)).toOption.any fun x =>
        decide ((∀ t, x.1.thread t = .idle ∧ x.1.cache.heldBy t ≤ 1) ∧ x.1.cache.heldBy 30 = 0 ∧
          stop? (x.1.step (.bread 30 100)) = some (.panic "bget: no buffers"))) = true := by
      decide +kernel
    obtain ⟨⟨s, h⟩, hs, hf⟩ := exists_ok hrun
    obtain ⟨hidle, hfree, hstop⟩ := of_decide_eq_true hf
    exact ⟨s, h, LogSys.Run.boot.exec hs, hidle, hfree, stop?_eq_some hstop⟩
  · have hrun : ((LogSys.exec fullLog (.boot fun _ => .zero, .empty)).toOption.any fun x =>
        decide ((∀ t, x.1.cache.heldBy t ≤ 1) ∧ x.1.cache.held = 1 ∧ x.1.lh.length = 29 ∧
          x.1.mode = .commit 2 (.writeLog 0) ∧
          stop? (x.1.step .log) = some (.panic "bget: no buffers"))) = true := by
      decide +kernel
    obtain ⟨⟨s, h⟩, hs, hf⟩ := exists_ok hrun
    obtain ⟨hone, hheld, hlen, hmode, hstop⟩ := of_decide_eq_true hf
    exact ⟨s, h, LogSys.Run.boot.exec hs, hone, hheld, hlen, hmode, stop?_eq_some hstop⟩

/-- An operation logs two blocks while a reader holds a third one, and ends. -/
def smallCommit : List (LogAct Bool) :=
  List.replicate 4 LogAct.log ++ [LogAct.beginOp false] ++ logBlock false 0 ++ logBlock false 1 ++
    [LogAct.bread true 100, .endOp false]

/-- The `commit` of that operation finds a buffer for the log block. -/
theorem bget_finds_buffer_smallCommit : ∃ (s : LogSys Bool) (h : Hist Bool),
    LogSys.Run (fun _ => .zero) s h ∧ s.lh = [40, 41] ∧ s.cache.heldBy true = 1 ∧
      s.mode = .commit false (.writeLog 0) ∧ s.step .log ≠ .error (.panic "bget: no buffers") := by
  have hrun : ((LogSys.exec smallCommit (.boot fun _ => .zero, .empty)).toOption.any fun x =>
      decide (x.1.lh = [40, 41] ∧ x.1.cache.heldBy true = 1 ∧
        x.1.mode = .commit false (.writeLog 0) ∧
        x.1.cache.lent + x.1.lh.length + 2 ≤ NBUF)) = true := by
    decide +kernel
  obtain ⟨⟨s, h⟩, hs, hf⟩ := exists_ok hrun
  obtain ⟨hlh, hheld, hmode, hroom⟩ := of_decide_eq_true hf
  have hr : LogSys.Run (fun _ => .zero) s h := LogSys.Run.boot.exec hs
  exact ⟨s, h, hr, hlh, hheld, hmode, bget_finds_buffer (by decide) hr hroom .log⟩

end TronBoss
