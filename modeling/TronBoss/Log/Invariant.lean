import Mathlib.Data.Finset.Card
import TronBoss.Log.Recovery

/-!
# The invariant of the running log

Between commits the disk has an empty header and the home contents after all commits so far; the
blocks that the operations have logged are exactly the dirty buffers, which `bget` does not recycle,
and the cache stores the contents after all `log_write`s. This module states the invariant for all
the points of a commit and proves it for the steps of the threads.
-/

namespace TronBoss

open Lib Function List

variable {n : UInt32}

/-! ## Contents -/

/-- The contents written by `log_write`s. -/
def writePairs (ws : List Write) : List (UInt32 × Block) := ws.map fun w => (w.blockno, w.data)

/-- The log region of a disk and the home contents `m`. -/
def overlay (d : Disk) (m : UInt32 → Block) : UInt32 → Block := fun n => if InLog n then d n else m n

theorem overlay_inLog {d : Disk} {m : UInt32 → Block} (h : InLog n) :
    overlay d m n = d n := if_pos h

theorem overlay_home {d : Disk} {m : UInt32 → Block} (h : Home n) : overlay d m n = m n := if_neg h

/-- A write to the log region. -/
theorem overlay_update_inLog {d : Disk} {m : UInt32 → Block} {v : Block} (h : InLog n) :
    update (overlay d m) n v = overlay (update d n v) m := by
  funext k
  by_cases e : k = n
  · subst e
    simp [overlay, h]
  · simp [overlay, update_of_ne e]

/-- A write of the contents that a home block has anyway. -/
theorem overlay_update_home {d : Disk} {m : UInt32 → Block} (h : Home n) :
    update (overlay d m) n (m n) = overlay (update d n (m n)) m := by
  funext k
  by_cases e : k = n
  · subst e
    rw [update_self, overlay_home h]
  · simp [overlay, update_of_ne e]

/-- New contents of a home block. -/
theorem overlay_update {d : Disk} {m : UInt32 → Block} {v : Block} (h : Home n) :
    overlay d (update m n v) = update (overlay d m) n v := by
  funext k
  by_cases e : k = n
  · subst e
    rw [overlay_home h, update_self, update_self]
  · simp [overlay, update_of_ne e]

section
variable {T : Type} {h : Hist T} {d : Disk}

/-- The contents after the first `k` commits. -/
def Hist.upTo (h : Hist T) (k : Nat) (d : Disk) : UInt32 → Block :=
  applyWrites (writePairs (h.commits.take k).flatten) d

/-- The contents after all commits. -/
def Hist.durable (h : Hist T) (d : Disk) : UInt32 → Block := h.upTo h.commits.length d

/-- The contents after all `log_write`s. -/
def Hist.logical (h : Hist T) (d : Disk) : UInt32 → Block := applyWrites (writePairs h.writes) d

theorem Hist.logical_eq : h.logical d = applyWrites (writePairs h.cur) (h.durable d) := by
  rw [logical, writes, durable, upTo, take_length, writePairs, map_append,
    applyWrites_append]
  rfl

theorem Hist.logical_of_cur_nil (hc : h.cur = []) : h.logical d = h.durable d := by
  rw [logical_eq, hc]
  rfl

/-- A block that the current operations have not logged. -/
theorem Hist.logical_of_not_mem (hn : ∀ w ∈ h.cur, w.blockno ≠ n) :
    h.logical d n = h.durable d n := by
  rw [logical_eq]
  refine applyWrites_of_not_mem fun p hp => ?_
  obtain ⟨w, hw, rfl⟩ := mem_map.1 hp
  exact hn w hw

/-- The contents after one more `log_write`. -/
theorem Hist.logical_append (w : Write) : Hist.logical { h with cur := h.cur ++ [w] } d =
    update (h.logical d) w.blockno w.data := by
  rw [logical, writes, ← append_assoc, writePairs, map_append, applyWrites_append]
  rfl

end

/-! ## The invariant -/

/-- The thread is between `begin_op` and `end_op`. -/
def ThreadPc.inOp : ThreadPc → Prop
  | .op | .logging _ => True
  | _ => False

section
variable {T : Type}

/-- The buffers that a thread has changed and not yet logged. -/
def LogSys.unlogged (s : LogSys T) : Fin NBUF → Prop := fun b => ∃ t, s.thread t = .logging b

/-- The cache stores the contents `view`, apart from the buffers that a thread has changed and not logged
yet, and the threads hold buffers that have a block. -/
structure LogSys.Tracks (s : LogSys T) (view : UInt32 → Block) : Prop where
  rep : s.cache.Rep view s.unlogged
  held : ∀ b t, (s.cache.buf b).busy = some (.thread t) →
    (s.cache.buf b).valid = true ∧ (s.cache.buf b).blockno ≠ none
  logging : ∀ t b, s.thread t = .logging b → (s.cache.buf b).busy = some (.thread t) ∧
    ∀ n, (s.cache.buf b).blockno = some n → Home n

/-- The first phase of a commit, in which the slots below `tail` have been written. -/
structure WriteLogPhase (d : Disk) (h : Hist T) (c : Bcache (Holder T)) (lh : List UInt32)
    (tail : Nat) : Prop where
  commits : h.commits ≠ []
  pos : 0 < lh.length
  le : tail ≤ lh.length
  head : headBlocks (c.disk headBlock) = []
  old : ∀ n, Home n → c.disk n = h.upTo (h.commits.length - 1) d n
  slots : ∀ i n, i < tail → lh[i]? = some n → c.disk (slotBlock i) = h.durable d n
  dirty : ∀ n, c.Dirty n ↔ n ∈ lh
  same : ∀ n, Home n → n ∉ lh → h.upTo (h.commits.length - 1) d n = h.durable d n
  short : 0 < tail → lh.length < nlog

/-- The second phase of a commit, in which the slots below `tail` have been copied home. -/
structure InstallPhase (d : Disk) (h : Hist T) (c : Bcache (Holder T)) (lh : List UInt32)
    (tail : Nat) : Prop where
  disk : Recoverable c.disk (h.durable d)
  head : lh = headBlocks (c.disk headBlock)
  copied : ∀ n ∈ lh.take tail, c.disk n = h.durable d n
  dirty : ∀ n, c.Dirty n → n ∈ lh.drop tail

/-- What holds at each point of a commit. -/
def CommitPc (d : Disk) (h : Hist T) (c : Bcache (Holder T)) (lh : List UInt32) : LogPc → Prop
  | .readHead => False
  | .writeLog tail => WriteLogPhase d h c lh tail
  | .writeLogFrom tail b => WriteLogPhase d h c lh tail ∧ tail < lh.length ∧ HoldsSlot c tail b
  | .commitHead => WriteLogPhase d h c lh lh.length
  | .install tail => InstallPhase d h c lh tail
  | .installDst tail b => InstallPhase d h c lh tail ∧ tail < lh.length ∧ HoldsSlot c tail b
  | .clearHead =>
    lh = [] ∧ (∀ n, ¬ c.Dirty n) ∧ Recoverable c.disk (h.durable d) ∧
      ∀ n, Home n → c.disk n = h.durable d n
  | .done =>
    lh = [] ∧ (∀ n, ¬ c.Dirty n) ∧ headBlocks (c.disk headBlock) = [] ∧
      ∀ n, Home n → c.disk n = h.durable d n

/-- What holds between two commits. -/
structure RunPhase (d : Disk) (h : Hist T) (c : Bcache (Holder T)) (lh : List UInt32) : Prop where
  head : headBlocks (c.disk headBlock) = []
  dirty : ∀ n, c.Dirty n ↔ n ∈ lh
  cur : ∀ n, n ∈ lh ↔ ∃ w ∈ h.cur, w.blockno = n
  home : ∀ n, Home n → c.disk n = h.durable d n

/-- What holds in each mode. -/
def LogPhase (d : Disk) (s : LogSys T) (h : Hist T) : Prop :=
  match s.mode with
  | .run => s.committing = false ∧ RunPhase d h s.cache s.lh
  | .commit _ pc =>
    s.committing = true ∧ s.outstanding = 0 ∧ h.cur = [] ∧ CommitPc d h s.cache s.lh pc
  | .recover _ => False

/-- The invariant of the log after boot. -/
structure LogInv (d : Disk) (s : LogSys T) (h : Hist T) : Prop
    extends s.Tracks (overlay s.cache.disk (h.logical d)) where
  count : ∃ S : Finset T, S.card = s.outstanding ∧ ∀ t, t ∈ S ↔ (s.thread t).inOp
  home : ∀ n ∈ s.lh, Home n
  nodup : s.lh.Nodup
  phase : LogPhase d s h

variable {d : Disk} {s s' : LogSys T} {h : Hist T} {t : T} {c : Bcache (Holder T)} {b : Fin NBUF}
  {x : ThreadPc}

/-- A thread between `begin_op` and `end_op` is counted. -/
theorem LogInv.outstanding_pos (hI : LogInv d s h) (ht : (s.thread t).inOp) :
    0 < s.outstanding := by
  obtain ⟨S, hS, hmem⟩ := hI.count
  rw [← hS, Finset.card_pos]
  exact ⟨t, (hmem t).2 ht⟩

/-- No thread changes a buffer when no operation is running. -/
theorem LogInv.stores (hI : LogInv d s h) (h0 : s.outstanding = 0) (hc : h.cur = []) :
    s.cache.Stores (overlay s.cache.disk (h.durable d)) := by
  have hX : s.unlogged = fun _ => False := by
    funext b
    refine eq_false ?_
    rintro ⟨t, ht⟩
    have := hI.outstanding_pos (t := t) (by rw [ht]; trivial)
    omega
  have hrep := hI.rep
  rwa [hX, Hist.logical_of_cur_nil hc] at hrep

/-- An operation runs only between commits. -/
theorem LogInv.runPhase (hI : LogInv d s h) (ht : (s.thread t).inOp) :
    s.mode = .run ∧ s.committing = false ∧ RunPhase d h s.cache s.lh := by
  have hp := hI.phase
  cases hm : s.mode with
  | run =>
    simp only [LogPhase, hm] at hp
    exact ⟨rfl, hp⟩
  | commit t' pc =>
    simp only [LogPhase, hm] at hp
    have := hI.outstanding_pos ht
    omega
  | recover pc => simp [LogPhase, hm] at hp

/-- The points of a commit only read the disk, the dirty blocks and the buffers that the log code
holds. -/
theorem CommitPc.congr {c c' : Bcache (Holder T)} {lh : List UInt32} {pc : LogPc}
    (hp : CommitPc d h c lh pc) (hdisk : c'.disk = c.disk) (hdirty : ∀ n, c'.Dirty n ↔ c.Dirty n)
    (hlog : ∀ b, (c.buf b).busy = some .log → c'.buf b = c.buf b) : CommitPc d h c' lh pc := by
  have hslot : ∀ tail b, HoldsSlot c tail b → HoldsSlot c' tail b := by
    rintro tail b hs
    have e := hlog b hs.busy
    exact ⟨by rw [e, hs.busy], by rw [e, hs.blockno], by rw [e, hs.valid]⟩
  have hw : ∀ tail, WriteLogPhase d h c lh tail → WriteLogPhase d h c' lh tail := by
    rintro tail ⟨h1, h2, h3, h4, h5, h6, h7, h8, h9⟩
    rw [← hdisk] at h4 h5 h6
    exact ⟨h1, h2, h3, h4, h5, h6, fun n => (hdirty n).trans (h7 n), h8, h9⟩
  have hi : ∀ tail, InstallPhase d h c lh tail → InstallPhase d h c' lh tail := by
    rintro tail ⟨h1, h2, h3, h4⟩
    rw [← hdisk] at h1 h2 h3
    exact ⟨h1, h2, h3, fun n hn => h4 n ((hdirty n).1 hn)⟩
  cases pc with
  | readHead => exact hp
  | writeLog tail => exact hw tail hp
  | writeLogFrom tail b => exact ⟨hw tail hp.1, hp.2.1, hslot tail b hp.2.2⟩
  | commitHead => exact hw _ hp
  | install tail => exact hi tail hp
  | installDst tail b => exact ⟨hi tail hp.1, hp.2.1, hslot tail b hp.2.2⟩
  | clearHead | done =>
    obtain ⟨h1, h2, h3, h4⟩ := hp
    rw [← hdisk] at h3 h4
    exact ⟨h1, fun n hn => h2 n ((hdirty n).1 hn), h3, h4⟩

/-- The phases only read the disk, the dirty blocks and the buffers that the log code holds. -/
theorem LogPhase.congr (hp : LogPhase d s h)
    (hdisk : c.disk = s.cache.disk) (hdirty : ∀ n, c.Dirty n ↔ s.cache.Dirty n)
    (hlog : ∀ b, (s.cache.buf b).busy = some .log → c.buf b = s.cache.buf b) :
    LogPhase d { s with cache := c } h := by
  unfold LogPhase at hp ⊢
  cases hm : s.mode with
  | run =>
    simp only [hm] at hp ⊢
    obtain ⟨hc, h1, h2, h3, h4⟩ := hp
    rw [← hdisk] at h1 h4
    exact ⟨hc, h1, fun n => (hdirty n).trans (h2 n), h3, h4⟩
  | recover pc => simp [hm] at hp
  | commit t pc =>
    simp only [hm] at hp ⊢
    exact ⟨hp.1, hp.2.1, hp.2.2.1, hp.2.2.2.congr hdisk hdirty hlog⟩

/-! ## The buffers of the threads -/

section
variable {view : UInt32 → Block} {b : Fin NBUF} {c : Bcache (Holder T)}

/-- The buffer of a thread that does not log it. -/
theorem LogSys.Tracks.not_unlogged (h : s.Tracks view) (ht : s.thread t ≠ .logging b)
    (hb : (s.cache.buf b).busy = some (.thread t)) : ¬ s.unlogged b := by
  rintro ⟨t', ht'⟩
  have hb' := (h.logging t' b ht').1
  rw [hb] at hb'
  cases hb'
  exact ht ht'

/-- A `bread` of a thread. -/
theorem LogSys.Tracks.bread (h : s.Tracks view)
    (hb : bread (.thread t) n s.cache = .ok (b, c)) : { s with cache := c }.Tracks view := by
  obtain ⟨ht, hrep, hv, -⟩ := bread_spec h.rep hb
  refine ⟨hrep, fun b' t' hb' => ?_, fun t' b' ht' => ?_⟩
  · by_cases e : b' = b
    · subst e
      exact ⟨hv, by simp [ht.blockno]⟩
    · simp only [ht.other b' e] at hb' ⊢
      exact h.held b' t' hb'
  · have hl := h.logging t' b' ht'
    rwa [← ht.same hl.1] at hl

/-- A `brelse` of a thread. -/
theorem LogSys.Tracks.brelse (h : s.Tracks view) (ht : s.thread t ≠ .logging b)
    (hb : (s.cache.buf b).busy = some (.thread t)) (hc : brelse b s.cache = .ok c) :
    { s with cache := c }.Tracks view := by
  have hX := h.not_unlogged ht hb
  obtain ⟨-, hbuf, hrep, -⟩ := brelse_spec h.rep hX hc
  have hother : ∀ b', b' ≠ b → c.buf b' = s.cache.buf b' := fun b' e => by
    rw [hbuf, Bcache.setBuf_of_ne e]
  refine ⟨hrep, fun b' t' hb' => ?_, fun t' b' ht' => ?_⟩
  · by_cases e : b' = b
    · subst e
      simp [hbuf] at hb'
    · simp only [hother b' e] at hb' ⊢
      exact h.held b' t' hb'
  · have e : b' ≠ b := by
      rintro rfl
      exact hX ⟨t', ht'⟩
    have hl := h.logging t' b' ht'
    rwa [← hother b' e] at hl

variable [DecidableEq T]

/-- The changed buffers when a thread calls `log_write`. -/
theorem LogSys.unlogged_logging (ht : ∀ b, s.thread t ≠ .logging b) :
    (fun b' => ∃ t', update s.thread t (.logging b) t' = .logging b') =
      fun b' => s.unlogged b' ∨ b' = b := by
  funext b'
  refine propext ⟨?_, ?_⟩
  · rintro ⟨t', ht'⟩
    by_cases e : t' = t
    · subst e
      rw [update_self] at ht'
      cases ht'
      exact .inr rfl
    · rw [update_of_ne e] at ht'
      exact .inl ⟨t', ht'⟩
  · rintro (⟨t', ht'⟩ | rfl)
    · refine ⟨t', ?_⟩
      rw [update_of_ne, ht']
      rintro rfl
      exact ht b' ht'
    · exact ⟨t, update_self ..⟩

/-- The changed buffers when a thread has recorded one of them. -/
theorem LogSys.unlogged_logged {b' : Fin NBUF}
    (ht : s.thread t = .logging b) (hx : ∀ b, x ≠ .logging b) (hne : b' ≠ b) :
    (∃ t', update s.thread t x t' = .logging b') ↔ s.unlogged b' := by
  refine exists_congr fun t' => ?_
  by_cases e : t' = t
  · subst e
    simp [ht, hx, hne.symm]
  · rw [update_of_ne e]

/-- A thread that does not log a buffer moves to a place where it does not log one. -/
theorem LogSys.Tracks.move (h : s.Tracks view) (ht : ∀ b, s.thread t ≠ .logging b)
    (hx : ∀ b, x ≠ .logging b) (hc : s'.cache = s.cache) (hthread : s'.thread = update s.thread t x) :
    s'.Tracks view := by
  have hX : s'.unlogged = s.unlogged := by
    funext b
    unfold unlogged
    rw [hthread]
    refine propext (exists_congr fun t' => ?_)
    by_cases e : t' = t
    · subst e
      simp [hx, ht]
    · rw [update_of_ne e]
  refine ⟨by rw [hc, hX]; exact h.rep, by rw [hc]; exact h.held, fun t' b ht' => ?_⟩
  rw [hthread] at ht'
  rw [hc]
  by_cases e : t' = t
  · subst e
    rw [update_self] at ht'
    exact absurd ht' (hx b)
  · rw [update_of_ne e] at ht'
    exact h.logging t' b ht'

/-- The tests of `log_write`. -/
theorem LogSys.Tracks.logWrite {v : Block} (h : s.Tracks view) (hop : s.thread t = .op)
    (hb : (s.cache.buf b).busy = some (.thread t)) (hhome : ∀ n ∈ (s.cache.buf b).blockno, ¬ InLog n) :
    ({ s with cache := s.cache.setBuf b { s.cache.buf b with data := v } }.setThread t
      (.logging b)).Tracks view := by
  have hsame := s.cache.setBuf_fields (b := b) (x := { s.cache.buf b with data := v })
    rfl rfl rfl
  refine ⟨?_, fun b' t' hb' => ?_, fun t' b' ht' => ?_⟩
  · have hrep := h.rep.setData (b := b) (d := v) (by simp [hb])
    rw [← unlogged_logging (s := s) (t := t) (b := b) (by simp [hop])] at hrep
    exact hrep
  · simp only [setThread, hsame] at hb' ⊢
    exact h.held b' t' hb'
  · simp only [setThread, hsame] at ht' ⊢
    by_cases e : t' = t
    · subst e
      rw [update_self] at ht'
      cases ht'
      exact ⟨hb, hhome⟩
    · rw [update_of_ne e] at ht'
      exact h.logging t' b' ht'

/-- The locked section of `log_write`: the buffer becomes a dirty one, and its contents those of the
block. -/
theorem LogSys.Tracks.logAppend {lh : List UInt32} (h : s.Tracks view)
    (ht : s.thread t = .logging b) (hn : (s.cache.buf b).blockno = some n) :
    { s.setThread t .op with
      lh := lh
      cache := s.cache.setBuf b { s.cache.buf b with dirty := true } }.Tracks
        (update view n (s.cache.buf b).data) := by
  obtain ⟨hbusy, -⟩ := h.logging t b ht
  have hsame := s.cache.setBuf_fields (b := b) (x := { s.cache.buf b with dirty := true })
    rfl rfl rfl
  refine ⟨?_, fun b' t' hb' => ?_, fun t' b' ht' => ?_⟩
  · exact h.rep.setDirty hn (h.held b t hbusy).1 (by simp [hbusy]) fun b' e =>
      unlogged_logged ht (by simp) e
  · simp only [hsame] at hb' ⊢
    exact h.held b' t' hb'
  · simp only [setThread, hsame] at ht' ⊢
    by_cases e : t' = t
    · subst e
      rw [update_self] at ht'
      cases ht'
    · rw [update_of_ne e] at ht'
      exact h.logging t' b' ht'

end

/-! ## The steps of the threads -/

/-- A `bread` of a thread. -/
theorem LogInv.bread (hI : LogInv d s h) (hb : bread (.thread t) n s.cache = .ok (b, c)) :
    LogInv d { s with cache := c } h := by
  obtain ⟨ht, -⟩ := bread_spec hI.rep hb
  have htr := hI.toTracks.bread hb
  rw [← ht.disk] at htr
  exact ⟨htr, hI.count, hI.home, hI.nodup,
    hI.phase.congr ht.disk ht.dirty fun b' hb' => ht.same hb'⟩

/-- A `brelse` of a thread. -/
theorem LogInv.brelse (hI : LogInv d s h)
    (ht : s.thread t ≠ .logging b) (hb : (s.cache.buf b).busy = some (.thread t))
    (hc : brelse b s.cache = .ok c) : LogInv d { s with cache := c } h := by
  obtain ⟨hdisk, hbuf, -, hd⟩ := brelse_spec hI.rep (hI.not_unlogged ht hb) hc
  have htr := hI.toTracks.brelse ht hb hc
  rw [← hdisk] at htr
  refine ⟨htr, hI.count, hI.home, hI.nodup, hI.phase.congr hdisk hd fun b' hb' => ?_⟩
  rw [hbuf, Bcache.setBuf_of_ne]
  rintro rfl
  rw [hb] at hb'
  cases hb'

variable [DecidableEq T]

section
variable (hI : LogInv d s h)
include hI

/-- The counted threads when a thread enters an operation. -/
theorem LogInv.count_insert (ht : ¬ (s.thread t).inOp)
    (hx : x.inOp) : ∃ S : Finset T, S.card = s.outstanding + 1 ∧
      ∀ t', t' ∈ S ↔ (update s.thread t x t').inOp := by
  obtain ⟨S, hS, hmem⟩ := hI.count
  refine ⟨insert t S, by rw [Finset.card_insert_of_notMem ((hmem t).not.2 ht), hS], fun t' => ?_⟩
  by_cases e : t' = t
  · simp [e, hx]
  · simp [e, hmem]

/-- The counted threads when a thread leaves an operation. -/
theorem LogInv.count_erase (ht : (s.thread t).inOp)
    (hx : ¬ x.inOp) : ∃ S : Finset T, S.card = s.outstanding - 1 ∧
      ∀ t', t' ∈ S ↔ (update s.thread t x t').inOp := by
  obtain ⟨S, hS, hmem⟩ := hI.count
  refine ⟨S.erase t, by rw [Finset.card_erase_of_mem ((hmem t).2 ht), hS], fun t' => ?_⟩
  by_cases e : t' = t
  · simp [e, hx]
  · simp [e, hmem]

/-- The counted threads when a thread stays in its operation. -/
theorem LogInv.count_keep (ht : (s.thread t).inOp)
    (hx : x.inOp) : ∃ S : Finset T, S.card = s.outstanding ∧
      ∀ t', t' ∈ S ↔ (update s.thread t x t').inOp := by
  obtain ⟨S, hS, hmem⟩ := hI.count
  refine ⟨S, hS, fun t' => ?_⟩
  by_cases e : t' = t
  · subst e
    simp [hx, hmem, ht]
  · simp [update_of_ne e, hmem]

/-- `begin_op`: one more operation is under way. -/
theorem LogInv.beginOp (hs : beginOp t s = .ok s') :
    LogInv d s' (h.next s (.beginOp t)) := by
  simp only [TronBoss.beginOp, bind_eq_ok, require_eq_ok] at hs
  obtain ⟨_, ⟨-, hidle⟩, _, hcom, _, -, hs⟩ := hs
  cases hs
  have hp : LogPhase d { s.setThread t .op with outstanding := s.outstanding + 1 }
      (h.next s (.beginOp t)) := by
    have hp := hI.phase
    cases hm : s.mode with
    | run =>
      simp only [LogPhase, LogSys.setThread, hm] at hp ⊢
      exact ⟨hp.1, hp.2.head, hp.2.dirty, hp.2.cur, hp.2.home⟩
    | commit t' pc =>
      simp only [LogPhase, hm] at hp
      exact absurd hp.1 hcom
    | recover pc => simp [LogPhase, hm] at hp
  exact ⟨hI.move (by simp [hidle]) (by simp) rfl rfl, hI.count_insert (by simp [hidle, ThreadPc.inOp])
    trivial, hI.home, hI.nodup, hp⟩

/-- The tests of `log_write`. -/
theorem LogInv.logWrite {v : Block} (hs : logWrite t b v s = .ok s') : LogInv d s' h := by
  simp only [TronBoss.logWrite, bind_eq_ok, require_eq_ok, panicIf_eq_ok] at hs
  obtain ⟨_, ⟨-, hop, hb⟩, _, hhome, _, -, _, -, hs⟩ := hs
  cases hs
  have hin : (s.thread t).inOp := by
    rw [hop]
    trivial
  obtain ⟨hm, hcom, hrun⟩ := hI.runPhase hin
  refine ⟨hI.toTracks.logWrite hop hb hhome, hI.count_keep hin trivial, hI.home, hI.nodup, ?_⟩
  simp only [LogPhase, LogSys.setThread, hm]
  refine ⟨hcom, hrun.head, fun n => Iff.trans (Bcache.dirty_setBuf ?_) (hrun.dirty n), hrun.cur,
    hrun.home⟩
  rfl

end

/-- What the locked section of `log_write` does when it returns. -/
theorem logAppend_eq_ok (hs : logAppend t s = .ok s') :
    ∃ b n, s.thread t = .logging b ∧ (s.cache.buf b).blockno = some n ∧
      s' = { s.setThread t .op with
        lh := absorb s.lh n
        cache := s.cache.setBuf b { s.cache.buf b with dirty := true } } := by
  unfold logAppend at hs
  split at hs
  · next b ht =>
    split at hs
    · cases hs
    · next n hn =>
      split at hs
      · cases hs
      · exact ⟨b, n, ht, hn, (Except.ok.inj hs).symm⟩
  · cases hs

/-- The history when a block is logged. -/
theorem Hist.next_logAppend (ht : s.thread t = .logging b)
    (hn : (s.cache.buf b).blockno = some n) : h.next s (.logAppend t) =
      { h with cur := h.cur ++ [⟨h.op t, n, (s.cache.buf b).data⟩] } := by
  simp only [next, ht, hn]

/-- The locked section of `log_write`. -/
theorem LogInv.logAppend (hI : LogInv d s h) (hs : logAppend t s = .ok s') :
    LogInv d s' (h.next s (.logAppend t)) := by
  obtain ⟨b, n, ht, hn, rfl⟩ := logAppend_eq_ok hs
  have hhome := (hI.logging t b ht).2
  have hin : (s.thread t).inOp := by
    rw [ht]
    trivial
  obtain ⟨hm, hcom, hrun⟩ := hI.runPhase hin
  have hdirty := s.cache.dirty_setDirty hn
  rw [Hist.next_logAppend ht hn]
  refine ⟨?_, hI.count_keep hin trivial, fun k hk => ?_, nodup_absorb hI.nodup, ?_⟩
  · rw [Hist.logical_append, Bcache.setBuf_disk, overlay_update (hhome n hn)]
    exact hI.toTracks.logAppend ht hn
  · rcases mem_absorb.1 hk with hk | rfl
    · exact hI.home k hk
    · exact hhome k hn
  · simp only [LogPhase, LogSys.setThread, hm]
    refine ⟨hcom, hrun.head, fun k => ?_, fun k => ?_, hrun.home⟩
    · rw [hdirty, hrun.dirty, mem_absorb]
    · rw [mem_absorb, hrun.cur]
      simp only [mem_append, mem_singleton, or_and_right, exists_or]
      exact or_congr_right ⟨fun e => ⟨_, rfl, e.symm⟩, fun ⟨w, hw, e⟩ => by rw [← e, hw]⟩

/-- The history when the last operation of a group ends. -/
theorem Hist.next_endOp (h1 : s.outstanding = 1) :
    h.next s (.endOp t) = { h with commits := h.commits ++ [h.cur], cur := [] } := if_pos h1

/-- The history when another operation ends. -/
theorem Hist.next_endOp_of_ne (h1 : s.outstanding ≠ 1) : h.next s (.endOp t) = h := if_neg h1

/-- `end_op`: the last operation of a group starts its commit. -/
theorem LogInv.endOp (hI : LogInv d s h) (hs : endOp t s = .ok s') :
    LogInv d s' (h.next s (.endOp t)) := by
  simp only [TronBoss.endOp, bind_eq_ok, require_eq_ok, panicIf_eq_ok] at hs
  obtain ⟨_, ⟨-, hop⟩, _, -, hs⟩ := hs
  have hin : (s.thread t).inOp := by
    rw [hop]
    trivial
  obtain ⟨hm, hcom, hrun⟩ := hI.runPhase hin
  have hpos := hI.outstanding_pos hin
  split at hs
  · -- the last operation of the group: its commit starts
    next h0 =>
    cases hs
    have hlog : ∀ k, Hist.logical { h with commits := h.commits ++ [h.cur], cur := [] } k =
        h.logical k := by
      intro k
      simp [Hist.logical, Hist.writes]
    have hdur : ∀ k, Hist.durable { h with commits := h.commits ++ [h.cur], cur := [] } k =
        h.logical k := by
      intro k
      rw [← hlog, Hist.logical_of_cur_nil rfl]
    have hold : ∀ k, Hist.upTo { h with commits := h.commits ++ [h.cur], cur := [] }
        h.commits.length k = h.durable k := by
      intro k
      simp [Hist.upTo, Hist.durable]
    have hsame : ∀ n, n ∉ s.lh → h.logical d n = h.durable d n := fun n hn =>
      Hist.logical_of_not_mem fun w hw e => hn ((hrun.cur n).2 ⟨w, hw, e⟩)
    rw [Hist.next_endOp (by omega)]
    refine ⟨by rw [hlog]; exact hI.move (by simp [hop]) (x := .committing) (by simp) rfl rfl,
      hI.count_erase hin (by simp [ThreadPc.inOp]), hI.home, hI.nodup, ?_⟩
    simp only [LogPhase, LogSys.setThread]
    refine ⟨trivial, h0, trivial, ?_⟩
    split
    · next hlen =>
      refine ⟨by simp, hlen, Nat.zero_le _, hrun.head, fun n hn => ?_,
        fun i n hi => absurd hi (Nat.not_lt_zero i), hrun.dirty, fun n hn hnl => ?_, by simp⟩
      · rw [length_append, length_singleton, Nat.add_sub_cancel, hold]
        exact hrun.home n hn
      · rw [length_append, length_singleton, Nat.add_sub_cancel, hold, hdur,
          hsame n hnl]
    · next hlen =>
      have hnil : s.lh = [] := eq_nil_of_length_eq_zero (by omega)
      refine ⟨hnil, fun n hn => ?_, hrun.head, fun n hn => ?_⟩
      · have := (hrun.dirty n).1 hn
        simp [hnil] at this
      · rw [hdur, hsame n (by simp [hnil])]
        exact hrun.home n hn
  · next h0 =>
    cases hs
    rw [Hist.next_endOp_of_ne (by omega)]
    refine ⟨hI.move (by simp [hop]) (by simp) rfl rfl,
      hI.count_erase hin (by simp [ThreadPc.inOp]), hI.home, hI.nodup, ?_⟩
    simp only [LogPhase, LogSys.setThread, hm]
    exact ⟨hcom, hrun⟩

end

end TronBoss
