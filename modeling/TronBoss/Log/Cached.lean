import TronBoss.Log.Invariant

/-!
# The cache along a run

What a run of the log keeps about the cache, whatever was on the disk at the start. The cache stores
some contents apart from the buffers that a thread has changed and not logged yet, and the log code
leaves the buffers of the threads alone (`LogSys.Cached.step`).
-/

namespace TronBoss

open Lib Function

/-- What the code of `commit` and `recover_from_log` does: the cache stores some contents, apart from
the buffers in `X`, and the buffers of the threads are left alone. -/
structure LogKeeps {T : Type} (X : Fin NBUF → Prop) (c c' : Bcache (Holder T)) : Prop where
  rep : ∃ view, c'.Rep view X
  thread : ∀ b t, (c.buf b).busy = some (.thread t) → c'.buf b = c.buf b
  back : ∀ b t, (c'.buf b).busy = some (.thread t) → c'.buf b = c.buf b

/-- The buffers that the log code holds. -/
def Bcache.logHeld {T : Type} (c : Bcache (Holder T)) : Set (Fin NBUF) :=
  {b | (c.buf b).busy = some .log}

section
variable {T : Type} {X : Fin NBUF → Prop} {c c₁ c' : Bcache (Holder T)} {b : Fin NBUF}
  {view : UInt32 → Block}

theorem Bcache.logHeld_congr (h : ∀ b, (c'.buf b).busy = (c.buf b).busy) :
    c'.logHeld = c.logHeld := by
  ext b
  simp only [logHeld, Set.mem_ofPred_eq, h]

theorem Taken.logHeld_log {n : UInt32} (h : Taken .log n c b c') : c'.logHeld = insert b c.logHeld := by
  ext b'
  rcases eq_or_ne b' b with rfl | hne
  · exact iff_of_true h.busy (Set.mem_insert ..)
  · simp [Bcache.logHeld, h.other b' hne, hne]

theorem Taken.logHeld_thread {t : T} {n : UInt32} (h : Taken (.thread t) n c b c') :
    c'.logHeld = c.logHeld := by
  ext b'
  rcases eq_or_ne b' b with rfl | hne
  · simp [Bcache.logHeld, h.busy, h.free]
  · simp [Bcache.logHeld, h.other b' hne]

theorem brelse_logHeld (hc : brelse b c = .ok c') : c'.logHeld = c.logHeld \ {b} := by
  obtain ⟨_, -, hc⟩ := bind_eq_ok.1 hc
  cases hc
  ext b'
  rcases eq_or_ne b' b with rfl | hne
  · simp [Bcache.logHeld]
  · simp [Bcache.logHeld, Bcache.setBuf_of_ne hne, hne]

theorem LogKeeps.trans (h : LogKeeps X c c₁) (h' : LogKeeps X c₁ c') : LogKeeps X c c' := by
  refine ⟨h'.rep, fun b t hb => ?_, fun b t hb => ?_⟩
  · rw [h'.thread b t (by rw [h.thread b t hb]; exact hb), h.thread b t hb]
  · have hb1 := h'.back b t hb
    rw [hb1] at hb ⊢
    exact h.back b t hb

theorem bread_keeps {n : UInt32} (h : c.Rep view X) (hc : bread .log n c = .ok (b, c')) :
    LogKeeps X c c' ∧ Taken .log n c b c' := by
  obtain ⟨ht, hrep, -⟩ := bread_spec h hc
  refine ⟨⟨⟨view, hrep⟩, fun b' t hb' => ht.same hb', fun b' t hb' => ht.other b' ?_⟩, ht⟩
  rintro rfl
  rw [ht.busy] at hb'
  cases hb'

/-- `bread` in the loops of `write_log` and `install_trans`. -/
theorem slotLoop_keeps {tail : Nat} {body : Fin NBUF → LogPc} {after : LogPc × List UInt32}
    {lh : List UInt32} {r : LogPc × List UInt32 × Bcache (Holder T)} (h : c.Rep view X)
    (hr : slotLoopBy iderw tail body after lh c = .ok r) : LogKeeps X c r.2.2 ∧
      (r.1 = after.1 ∧ r.2.2 = c ∨ ∃ b, r.1 = body b ∧ r.2.2.logHeld = insert b c.logHeld) := by
  rw [slotLoopBy] at hr
  split at hr
  · obtain ⟨⟨b, c₁⟩, h1, hr⟩ := bind_eq_ok.1 hr
    cases hr
    obtain ⟨hk, ht⟩ := bread_keeps h h1
    exact ⟨hk, .inr ⟨b, rfl, ht.logHeld_log⟩⟩
  · cases hr
    exact ⟨⟨⟨view, h⟩, fun _ _ _ => rfl, fun _ _ _ => rfl⟩, .inl ⟨rfl, rfl⟩⟩

/-- The holder of a buffer changes it and writes it. -/
theorem bwrite_data {v : Block} (h : c.Rep view X) (hX : ¬ X b) (hb : (c.buf b).busy ≠ none)
    (hc : bwrite b (c.setBuf b { c.buf b with data := v }) = .ok c') :
    (∃ view', c'.Rep view' X) ∧ (c'.buf b).valid = true ∧
      (∀ b', b' ≠ b → c'.buf b' = c.buf b') ∧
      ∀ b', (c'.buf b').busy = (c.buf b').busy ∧ (c'.buf b').blockno = (c.buf b').blockno := by
  cases hn : (c.buf b).blockno with
  | none =>
    simp only [bwrite, bwriteBy, iderwBy, bind_eq_ok, Bcache.setBuf_self, hn] at hc
    obtain ⟨_, -, _, -, _, -, hc⟩ := hc
    cases hc
  | some n =>
    have hn' : ((c.setBuf b { c.buf b with data := v }).buf b).blockno = some n := by
      rw [Bcache.setBuf_self]
      exact hn
    obtain ⟨hc', hrep, -⟩ := bwrite_spec (h.setData hb) hX hn' hc
    have hother (b') (hne : b' ≠ b) : c'.buf b' = c.buf b' := by
      rw [hc']
      exact (Bcache.setBuf_of_ne hne).trans (Bcache.setBuf_of_ne hne)
    refine ⟨⟨_, hrep⟩, by simp [hc', Bcache.setBuf], hother, fun b' => ?_⟩
    rcases eq_or_ne b' b with rfl | hne
    · simp [hc', Bcache.setBuf]
    · rw [hother b' hne]
      exact ⟨rfl, rfl⟩

variable (hX : ∀ b, X b → ∃ t, (c.buf b).busy = some (.thread t))
include hX

theorem not_of_log (hb : (c.buf b).busy = some .log) : ¬ X b := by
  intro hXb
  obtain ⟨t, ht⟩ := hX b hXb
  rw [hb] at ht
  cases ht

/-- A buffer of the log code is changed and written. -/
theorem bwrite_keeps {v : Block} (h : c.Rep view X) (hb : (c.buf b).busy = some .log)
    (hc : bwrite b (c.setBuf b { c.buf b with data := v }) = .ok c') :
    LogKeeps X c c' ∧ ∀ b', (c'.buf b').busy = (c.buf b').busy := by
  obtain ⟨hrep, -, hother, hbusy⟩ := bwrite_data h (not_of_log hX hb) (by simp [hb]) hc
  have hne {b' t} (hb' : (c.buf b').busy = some (.thread t)) : b' ≠ b := by
    rintro rfl
    rw [hb] at hb'
    cases hb'
  exact ⟨⟨hrep, fun b' t hb' => hother b' (hne hb'),
    fun b' t hb' => hother b' (hne ((hbusy b').1.symm.trans hb'))⟩, fun b' => (hbusy b').1⟩

/-- `brelse` of a buffer of the log changes only that buffer. -/
theorem brelse_keeps (h : c.Rep view X) (hb : (c.buf b).busy = some .log)
    (hc : brelse b c = .ok c') : LogKeeps X c c' ∧ ∀ b', b' ≠ b → c'.buf b' = c.buf b' := by
  obtain ⟨-, hbuf, hrep, -⟩ := brelse_spec h (not_of_log hX hb) hc
  have hother (b') (hne : b' ≠ b) : c'.buf b' = c.buf b' := by
    rw [hbuf, Bcache.setBuf_of_ne hne]
  refine ⟨⟨⟨view, hrep⟩, fun b' t hb' => hother b' ?_, fun b' t hb' => hother b' ?_⟩, hother⟩
  · rintro rfl
    rw [hb] at hb'
    cases hb'
  · rintro rfl
    simp [hbuf] at hb'

theorem LogKeeps.holders (h : LogKeeps X c c') (b : Fin NBUF) (hXb : X b) :
    ∃ t, (c'.buf b).busy = some (.thread t) := by
  obtain ⟨t, ht⟩ := hX b hXb
  exact ⟨t, by rw [h.thread b t ht]; exact ht⟩

/-- Writing the header leaves the buffers of the threads alone. -/
theorem writeHeadBuf_keeps {lh : List UInt32} (h : c.Rep view X)
    (hc : writeHeadBufBy iderw lh c = .ok c') : LogKeeps X c c' ∧ c'.logHeld = c.logHeld := by
  obtain ⟨⟨b, c₁⟩, h1, hc⟩ := bind_eq_ok.1 hc
  obtain ⟨c2, h2, hc⟩ := bind_eq_ok.1 hc
  obtain ⟨hk1, ht⟩ := bread_keeps h h1
  obtain ⟨_, hrep1⟩ := hk1.rep
  obtain ⟨hk2, hbusy⟩ := bwrite_keeps (hk1.holders hX) hrep1 ht.busy h2
  obtain ⟨_, hrep2⟩ := hk2.rep
  have hb2 : (c2.buf b).busy = some .log := (hbusy b).trans ht.busy
  have hX2 := hk2.holders (hk1.holders hX)
  refine ⟨(hk1.trans hk2).trans (brelse_keeps hX2 hrep2 hb2 hc).1, ?_⟩
  have hnew : b ∉ c.logHeld := by simp [Bcache.logHeld, ht.free]
  rw [brelse_logHeld hc, Bcache.logHeld_congr hbusy, ht.logHeld_log, Set.insert_sdiff_self_of_notMem hnew]

/-- The end of a turn of `write_log` or `install_trans`: one buffer is copied to another, and both
are released. -/
theorem copyBuf_keeps {src dst : Fin NBUF} {c2 : Bcache (Holder T)} (hne : dst ≠ src)
    (h : c.Rep view X) (hsrc : (c.buf src).busy = some .log) (hdst : (c.buf dst).busy = some .log)
    (h1 : copyBufBy iderw src dst c = .ok c₁) (h2 : brelse src c₁ = .ok c2) (h3 : brelse dst c2 = .ok c') :
    LogKeeps X c c' ∧ c'.logHeld = (c.logHeld \ {src}) \ {dst} := by
  obtain ⟨hk1, hbusy1⟩ := bwrite_keeps hX h hdst h1
  obtain ⟨_, hrep1⟩ := hk1.rep
  have hX1 := hk1.holders hX
  obtain ⟨hk2, hother⟩ := brelse_keeps hX1 hrep1 ((hbusy1 src).trans hsrc) h2
  obtain ⟨_, hrep2⟩ := hk2.rep
  have hdst2 : (c2.buf dst).busy = some .log := by
    rw [hother dst hne, hbusy1 dst]
    exact hdst
  refine ⟨(hk1.trans hk2).trans (brelse_keeps (hk2.holders hX1) hrep2 hdst2 h3).1, ?_⟩
  rw [brelse_logHeld h3, brelse_logHeld h2, Bcache.logHeld_congr hbusy1]

end

/-- The buffer that the log code holds between two steps. -/
def LogPc.buf? : LogPc → Option (Fin NBUF)
  | .writeLogFrom _ b | .installDst _ b => some b
  | _ => none

/-- One step of the log code. -/
theorem LogPc.step_keeps {T : Type} {X : Fin NBUF → Prop} {c : Bcache (Holder T)}
    {view : UInt32 → Block} {lh : List UInt32} {pc : LogPc}
    {r : LogPc × List UInt32 × Bcache (Holder T)} (h : c.Rep view X)
    (hX : ∀ b, X b → ∃ t, (c.buf b).busy = some (.thread t))
    (hpc : c.logHeld = {b | pc.buf? = some b}) (hr : pc.step lh c = .ok r) :
    LogKeeps X c r.2.2 ∧ r.2.2.logHeld = {b | r.1.buf? = some b} := by
  -- a buffer that the log code holds is not the one that it takes next
  have htaken {n b c₁} (ht : Taken (.log : Holder T) n c b c₁) {b'}
      (hb' : (c.buf b').busy = some .log) : b' ≠ b ∧ (c₁.buf b').busy = some .log := by
    rw [ht.same hb']
    exact ⟨ht.ne hb', hb'⟩
  cases pc with
  | done => cases hr
  | readHead =>
    obtain ⟨⟨b, c₁⟩, h1, hr⟩ := bind_eq_ok.1 hr
    obtain ⟨lh1, -, hr⟩ := bind_eq_ok.1 hr
    obtain ⟨c2, h2, hr⟩ := bind_eq_ok.1 hr
    cases hr
    obtain ⟨hk, ht⟩ := bread_keeps h h1
    obtain ⟨_, hrep⟩ := hk.rep
    refine ⟨hk.trans (brelse_keeps (hk.holders hX) hrep ht.busy h2).1, ?_⟩
    rw [brelse_logHeld h2, ht.logHeld_log, hpc]
    simp [buf?]
  | commitHead | clearHead =>
    obtain ⟨c₁, h1, hr⟩ := bind_eq_ok.1 hr
    cases hr
    obtain ⟨hk, hlog⟩ := writeHeadBuf_keeps hX h h1
    exact ⟨hk, hlog.trans hpc⟩
  | writeLog tail | install tail =>
    obtain ⟨hk, hnext⟩ := slotLoop_keeps h hr
    refine ⟨hk, ?_⟩
    rcases hnext with ⟨hnext, hc⟩ | ⟨b, hnext, hlog⟩
    · rw [hnext, hc, hpc]
      rfl
    · rw [hnext, hlog, hpc]
      ext b'
      simp [buf?, eq_comm]
  | writeLogFrom tail dst =>
    have hdst : (c.buf dst).busy = some .log := hpc.ge rfl
    simp only [LogPc.step, stepBy] at hr
    split at hr
    · cases hr
    · obtain ⟨⟨src, c₁⟩, h1, hr⟩ := bind_eq_ok.1 hr
      obtain ⟨c2, h2, hr⟩ := bind_eq_ok.1 hr
      obtain ⟨c3, h3, hr⟩ := bind_eq_ok.1 hr
      obtain ⟨c4, h4, hr⟩ := bind_eq_ok.1 hr
      cases hr
      obtain ⟨hk, ht⟩ := bread_keeps h h1
      obtain ⟨_, hrep⟩ := hk.rep
      obtain ⟨hne, hdst1⟩ := htaken ht hdst
      obtain ⟨hk', hlog⟩ := copyBuf_keeps (hk.holders hX) hne hrep ht.busy hdst1 h2 h3 h4
      refine ⟨hk.trans hk', ?_⟩
      rw [hlog, ht.logHeld_log, hpc]
      ext b
      simp [buf?]
  | installDst tail lbuf =>
    have hsrc : (c.buf lbuf).busy = some .log := hpc.ge rfl
    simp only [LogPc.step, stepBy] at hr
    split at hr
    · cases hr
    · obtain ⟨⟨dbuf, c₁⟩, h1, hr⟩ := bind_eq_ok.1 hr
      obtain ⟨c2, h2, hr⟩ := bind_eq_ok.1 hr
      obtain ⟨c3, h3, hr⟩ := bind_eq_ok.1 hr
      obtain ⟨c4, h4, hr⟩ := bind_eq_ok.1 hr
      cases hr
      obtain ⟨hk, ht⟩ := bread_keeps h h1
      obtain ⟨_, hrep⟩ := hk.rep
      obtain ⟨hne, hsrc1⟩ := htaken ht hsrc
      obtain ⟨hk', hlog⟩ := copyBuf_keeps (hk.holders hX) hne.symm hrep hsrc1 ht.busy h2 h3 h4
      refine ⟨hk.trans hk', ?_⟩
      rw [hlog, ht.logHeld_log, hpc]
      ext b
      simp [buf?]
      tauto

/-- The buffer that the log code holds. -/
def LogMode.buf? {T : Type} : LogMode T → Option (Fin NBUF)
  | .run => none
  | .commit _ pc | .recover pc => pc.buf?

/-- The cache stores some contents, apart from the buffers that a thread has changed and not logged
yet. -/
structure LogSys.Cached {T : Type} (s : LogSys T) : Prop where
  tracks : ∃ view, s.Tracks view
  held : s.cache.logHeld = {b | s.mode.buf? = some b}
  committer : ∀ t pc, s.mode = .commit t pc → s.thread t = .committing
  committing : ∀ t pc, s.mode = .commit t pc → s.committing = true

section
variable {T : Type} {s s' : LogSys T} {t : T}

theorem LogSys.Cached.boot (d : Disk) : (LogSys.boot d : LogSys T).Cached := by
  have hX : (LogSys.boot d : LogSys T).unlogged = fun _ => False := by
    funext b
    exact eq_false fun ⟨t, ht⟩ => nomatch ht
  refine ⟨⟨d, ?_, nofun, nofun⟩, ?_, nofun, nofun⟩
  · rw [hX]
    exact binit_rep d
  · simp [Bcache.logHeld, LogSys.boot, binit, LogMode.buf?, LogPc.buf?]

theorem LogSys.Cached.bread (h : s.Cached) {n : UInt32} {b : Fin NBUF}
    {c : Bcache (Holder T)} (hb : bread (.thread t) n s.cache = .ok (b, c)) :
    { s with cache := c }.Cached := by
  obtain ⟨view, htr⟩ := h.tracks
  obtain ⟨ht, -⟩ := bread_spec htr.rep hb
  exact ⟨⟨view, htr.bread hb⟩, ht.logHeld_thread.trans h.held, h.committer, h.committing⟩

/-- `brelse` by a thread that is not between its copy and its append. -/
theorem LogSys.Cached.brelse (h : s.Cached) {b : Fin NBUF} {c : Bcache (Holder T)}
    (ht : s.thread t ≠ .logging b) (hb : (s.cache.buf b).busy = some (.thread t))
    (hc : brelse b s.cache = .ok c) : { s with cache := c }.Cached := by
  obtain ⟨view, htr⟩ := h.tracks
  refine ⟨⟨view, htr.brelse ht hb hc⟩, ?_, h.committer, h.committing⟩
  rw [brelse_logHeld hc, Set.sdiff_singleton_eq_self (by simp [Bcache.logHeld, hb])]
  exact h.held

/-- A step of the log code. -/
theorem LogSys.Cached.logStep (h : s.Cached) {pc : LogPc}
    {r : LogPc × List UInt32 × Bcache (Holder T)} (hpc : s.mode.buf? = pc.buf?)
    (hr : pc.step s.lh s.cache = .ok r) {mode : LogMode T} (hmode : mode.buf? = r.1.buf?)
    (hcom : ∀ t pc, mode = .commit t pc → s.thread t = .committing ∧ s.committing = true) :
    { s with lh := r.2.1, cache := r.2.2, mode := mode }.Cached := by
  obtain ⟨view, htr⟩ := h.tracks
  obtain ⟨hk, hlog⟩ := LogPc.step_keeps htr.rep (fun b ⟨t, ht⟩ => ⟨t, (htr.logging t b ht).1⟩)
    (by rw [h.held, hpc]) hr
  obtain ⟨view', hrep⟩ := hk.rep
  refine ⟨⟨view', hrep, fun b t hb => ?_, fun t b ht => ?_⟩, by rw [hlog, hmode],
    fun t pc hm => (hcom t pc hm).1, fun t pc hm => (hcom t pc hm).2⟩
  · have hsame := hk.back b t hb
    simp only [hsame] at hb ⊢
    exact htr.held b t hb
  · have hl := htr.logging t b ht
    rwa [← hk.thread b t hl.1] at hl

variable [DecidableEq T]

section
variable (h : s.Cached)
include h

theorem LogSys.Cached.committer_update {x : ThreadPc}
    (ht : s.thread t ≠ .committing) (t' : T) (pc : LogPc) (hm : s.mode = .commit t' pc) :
    update s.thread t x t' = .committing := by
  have ht' := h.committer t' pc hm
  rwa [update_of_ne]
  rintro rfl
  exact ht ht'

/-- A thread that does not log a buffer moves to a place where it does not log one. -/
theorem LogSys.Cached.setThread {x : ThreadPc}
    (ht : ∀ b, s.thread t ≠ .logging b) (hx : ∀ b, x ≠ .logging b) (hc : s'.cache = s.cache)
    (hthread : s'.thread = update s.thread t x)
    (hmode : s'.mode.buf? = s.mode.buf?)
    (hcom : ∀ t' pc, s'.mode = .commit t' pc → s'.thread t' = .committing ∧ s'.committing = true) :
    s'.Cached := by
  obtain ⟨view, htr⟩ := h.tracks
  refine ⟨⟨view, htr.move ht hx hc hthread⟩, ?_, fun t' pc hm => (hcom t' pc hm).1,
    fun t' pc hm => (hcom t' pc hm).2⟩
  rw [hc, hmode]
  exact h.held

/-- The copy of `log_write` is made by the thread that holds the buffer. -/
theorem LogSys.Cached.logWrite {b : Fin NBUF} {v : Block}
    (hs : logWrite t b v s = .ok s') : s'.Cached := by
  simp only [TronBoss.logWrite, bind_eq_ok, require_eq_ok, panicIf_eq_ok] at hs
  obtain ⟨_, ⟨-, hop, hb⟩, _, hhome, _, -, _, -, hs⟩ := hs
  cases hs
  obtain ⟨view, htr⟩ := h.tracks
  have hsame := s.cache.setBuf_fields (b := b) (x := { s.cache.buf b with data := v }) rfl rfl rfl
  exact ⟨⟨view, htr.logWrite hop hb hhome⟩, (Bcache.logHeld_congr fun b' => (hsame b').1).trans h.held,
    h.committer_update (by simp [hop]), h.committing⟩

theorem LogSys.Cached.logAppend (hs : logAppend t s = .ok s') : s'.Cached := by
  obtain ⟨b, n, ht, hn, rfl⟩ := logAppend_eq_ok hs
  obtain ⟨view, htr⟩ := h.tracks
  have hsame := s.cache.setBuf_fields (b := b) (x := { s.cache.buf b with dirty := true }) rfl rfl rfl
  exact ⟨⟨_, htr.logAppend ht hn⟩, (Bcache.logHeld_congr fun b' => (hsame b').1).trans h.held,
    h.committer_update (by simp [ht]), h.committing⟩

theorem LogSys.Cached.beginOp (hs : beginOp t s = .ok s') : s'.Cached := by
  simp only [TronBoss.beginOp, bind_eq_ok, require_eq_ok] at hs
  obtain ⟨_, ⟨-, hidle⟩, _, -, _, -, hs⟩ := hs
  cases hs
  exact h.setThread (by simp [hidle]) (by simp) rfl rfl rfl fun t' pc hm =>
    ⟨h.committer_update (by simp [hidle]) t' pc hm, h.committing t' pc hm⟩

/-- `end_op` up to its `commit`. -/
theorem LogSys.Cached.endOp (hs : endOp t s = .ok s') : s'.Cached := by
  simp only [TronBoss.endOp, bind_eq_ok, require_eq_ok, panicIf_eq_ok] at hs
  obtain ⟨_, ⟨hboot, hop⟩, _, hcom, hs⟩ := hs
  have hrun : s.mode = .run := by
    cases hm : s.mode with
    | run => rfl
    | commit t' pc => exact absurd (h.committing t' pc hm) hcom
    | recover pc => simp [booted, hm] at hboot
  split at hs
  · cases hs
    refine h.setThread (x := .committing) (by simp [hop]) (by simp) rfl rfl ?_ fun t' pc hm => ?_
    · rw [hrun]
      simp only [LogMode.buf?]
      split <;> rfl
    · cases hm
      exact ⟨update_self .., rfl⟩
  · cases hs
    exact h.setThread (by simp [hop]) (by simp) rfl rfl rfl fun t' pc hm => by
      cases hrun.symm.trans hm

/-- A step of `commit` or of `recover_from_log`. -/
theorem LogSys.Cached.log (hs : s.step .log = .ok s') : s'.Cached := by
  cases logStep_of_step hs with
  | @committed t hm =>
    have ht := h.committer t _ hm
    exact h.setThread (x := .idle) (by simp [ht]) (by simp) rfl rfl (by rw [hm]; rfl) nofun
  | recovered hm =>
    obtain ⟨view, htr⟩ := h.tracks
    exact ⟨⟨view, htr.rep, htr.held, htr.logging⟩, by rw [h.held, hm]; rfl, nofun, nofun⟩
  | @commit t pc r hm hr =>
    refine h.logStep (by rw [hm]; rfl) hr rfl fun t' pc' e => ?_
    cases e
    exact ⟨h.committer t pc hm, h.committing t pc hm⟩
  | recover hm hr => exact h.logStep (by rw [hm]; rfl) hr rfl nofun

/-- One step of the machine. -/
theorem LogSys.Cached.step {a : LogAct T} (hs : s.step a = .ok s') :
    s'.Cached := by
  cases a with
  | beginOp t => exact h.beginOp hs
  | bread t n =>
    obtain ⟨_, -, hs⟩ := bind_eq_ok.1 hs
    obtain ⟨⟨b, c⟩, hb, hs⟩ := bind_eq_ok.1 hs
    cases hs
    exact h.bread hb
  | brelse t b =>
    obtain ⟨_, hidle, hs⟩ := bind_eq_ok.1 hs
    obtain ⟨_, hbusy, hs⟩ := bind_eq_ok.1 hs
    obtain ⟨c, hc, hs⟩ := bind_eq_ok.1 hs
    cases hs
    have ht := (require_eq_ok.1 hidle).2
    exact h.brelse (by rcases ht with ht | ht <;> simp [ht]) (require_eq_ok.1 hbusy) hc
  | logWrite t b v => exact h.logWrite hs
  | logAppend t => exact h.logAppend hs
  | endOp t => exact h.endOp hs
  | log => exact h.log hs

end

/-- A run from any disk. -/
theorem LogSys.Run.cached {d : Disk} {h : Hist T} (hr : LogSys.Run d s h) : s.Cached := by
  induction hr with
  | boot => exact .boot d
  | step _ hs ih => exact ih.step hs

end

end TronBoss
