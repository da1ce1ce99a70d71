import TronBoss.Ide.Queue
import TronBoss.Log.Cached

/-!
# Device errors and the buffer cache

The machine of `TronBoss.Log.Log` over a device that may report errors. `ideintr` looks at the status
only when it has read a block: after an error it leaves the data of the buffer alone, but sets
`B_VALID` as always. It does not look at the status of a write. Without errors this is the `iderw` of
the log (`iderwReport_of_good`).
-/

namespace TronBoss

open Lib Function

/-! ## The machine with a device that may fail -/

/-- What the device reports in a step, for the block that the step reads and for the block that it
writes, and what it leaves on the disk when a write fails. -/
structure Report where
  read : UInt8
  write : UInt8
  junk : Block

/-- Neither `IDE_DF` nor `IDE_ERR`. -/
def Report.Good (r : Report) : Prop := r.read &&& Ide.errorBits = 0 ∧ r.write &&& Ide.errorBits = 0

section
variable {H : Type}

/-- `iderw` and `ideintr`, with the status that the device reports. -/
def iderwReport (r : Report) : Fin NBUF → Bcache H → Except Stop (Bcache H) :=
  iderwBy (fun data => if r.write &&& Ide.errorBits = 0 then data else r.junk)
    fun old data => if r.read &&& Ide.errorBits = 0 then data else old

theorem iderwReport_of_good {r : Report} (hr : r.Good) :
    (iderwReport r : Fin NBUF → Bcache H → Except Stop (Bcache H)) = iderw := by
  funext b c
  simp only [iderwReport, if_pos hr.1, if_pos hr.2]

end

section
variable {T : Type} [DecidableEq T]
  (rw : Fin NBUF → Bcache (Holder T) → Except Stop (Bcache (Holder T)))

/-- A step of the machine, or a thread that writes a buffer without the log. -/
inductive CacheAct (T : Type) where
  | log (a : LogAct T)
  | bwrite (t : T) (b : Fin NBUF) (data : Block)

/-- The modification of a buffer by the thread that holds it, and `bwrite`. -/
def bwriteThread (t : T) (b : Fin NBUF) (data : Block) (s : LogSys T) :
    Except Stop (LogSys T) := do
  require (s.booted ∧ (s.thread t = .idle ∨ s.thread t = .op))
  require ((s.cache.buf b).busy = some (.thread t))
  let c ← bwriteBy rw b (s.cache.setBuf b { s.cache.buf b with data := data })
  return { s with cache := c }

/-- One step, over the given `iderw`. -/
def CacheAct.stepBy (s : LogSys T) : CacheAct T → Except Stop (LogSys T)
  | .log a => s.stepBy rw a
  | .bwrite t b data => bwriteThread rw t b data s

/-- A sequence of steps, each with the reports of the device. -/
def LogSys.execReports : List (Report × CacheAct T) → LogSys T → Except Stop (LogSys T)
  | [], s => .ok s
  | (r, a) :: as, s => do
    let s' ← a.stepBy (iderwReport r) s
    execReports as s'

end

/-! ## Coherence -/

/-- Every buffer that is not `B_BUSY`, is `B_VALID` and is not `B_DIRTY` holds the contents of its
block on the disk. -/
def Bcache.Coherent {H : Type} (c : Bcache H) : Prop :=
  ∀ b n, (c.buf b).busy = none → (c.buf b).blockno = some n → (c.buf b).valid = true →
    (c.buf b).dirty = false → (c.buf b).data = c.disk n

theorem Bcache.Rep.coherent {H : Type} {c : Bcache H} {view : UInt32 → Block} {X : Fin NBUF → Prop}
    (h : c.Rep view X) : c.Coherent := by
  intro b n hbusy hn hvalid hclean
  rw [h.data b n hn hvalid fun hX => h.held b hX hbusy, h.clean n]
  rintro ⟨b', hb', hdirty⟩
  rw [h.uniq b' b n hb' hn, hclean] at hdirty
  cases hdirty

section
variable {T : Type} [DecidableEq T] {s s' : LogSys T}

omit [DecidableEq T] in
/-- A write past the log keeps what the cache stores. -/
theorem LogSys.Cached.bwriteThread (h : s.Cached) {t : T} {b : Fin NBUF} {v : Block}
    {c : Bcache (Holder T)} (ht : ∀ b, s.thread t ≠ .logging b)
    (hb : (s.cache.buf b).busy = some (.thread t))
    (hc : bwrite b (s.cache.setBuf b { s.cache.buf b with data := v }) = .ok c) :
    { s with cache := c }.Cached := by
  obtain ⟨view, htr⟩ := h.tracks
  obtain ⟨⟨view', hrep⟩, hv, hother, hsame⟩ :=
    bwrite_data htr.rep (htr.not_unlogged (ht b) hb) (by simp [hb]) hc
  refine ⟨⟨view', hrep, fun b' t' hb' => ?_, fun t' b' ht' => ?_⟩,
    (Bcache.logHeld_congr fun b' => (hsame b').1).trans h.held, h.committer, h.committing⟩
  · rw [(hsame b').1] at hb'
    rw [(hsame b').2]
    refine ⟨?_, (htr.held b' t' hb').2⟩
    rcases eq_or_ne b' b with rfl | hne
    · exact hv
    · simp only [hother b' hne]
      exact (htr.held b' t' hb').1
  · rw [(hsame b').1, (hsame b').2]
    exact htr.logging t' b' ht'

/-- A step in which the device reports no error. -/
theorem LogSys.Cached.stepReport (h : s.Cached) {r : Report} (hr : r.Good) {a : CacheAct T}
    (hs : a.stepBy (iderwReport r) s = .ok s') : s'.Cached := by
  rw [iderwReport_of_good hr] at hs
  cases a with
  | log a =>
    exact h.step hs
  | bwrite t b v =>
    obtain ⟨_, hidle, hs⟩ := bind_eq_ok.1 hs
    obtain ⟨_, hbusy, hs⟩ := bind_eq_ok.1 hs
    obtain ⟨c, hc, hs⟩ := bind_eq_ok.1 hs
    cases hs
    have ht := (require_eq_ok.1 hidle).2
    exact h.bwriteThread (by rcases ht with ht | ht <;> simp [ht]) (require_eq_ok.1 hbusy) hc

/-- A run in which the device reports no error. -/
theorem LogSys.Cached.execReports (h : s.Cached) {as : List (Report × CacheAct T)}
    (hgood : ∀ x ∈ as, x.1.Good) (hs : LogSys.execReports as s = .ok s') : s'.Cached := by
  induction as generalizing s with
  | nil =>
    cases hs
    exact h
  | cons x as ih =>
    obtain ⟨s1, h1, hs⟩ := bind_eq_ok.1 hs
    exact ih (h.stepReport (hgood x (by simp)) h1) (fun y hy => hgood y (by simp [hy])) hs

/-- Whatever the threads and the log code do, as long as the device reports no error the buffers that
are valid and clean, and that nobody holds, are coherent with the disk. -/
theorem cache_coherent {d : Disk} {as : List (Report × CacheAct T)}
    (hgood : ∀ x ∈ as, x.1.Good) (hs : LogSys.execReports as (.boot d) = .ok s) :
    s.cache.Coherent := by
  obtain ⟨view, htr⟩ := ((LogSys.Cached.boot d).execReports hgood hs).tracks
  exact htr.rep.coherent

end

/-! ## One block read, with and without an error -/

/-- A disk on which only block 100 is not zero. -/
def markedDisk : Disk := update (fun _ => .zero) 100 fun _ => 1

/-- After the recovery of an empty log a thread reads block 100 and releases it. -/
def readOnce (status : UInt8) : List (Report × CacheAct Unit) :=
  List.replicate 4 (⟨0x40, 0x40, .zero⟩, .log .log) ++
    [(⟨status, 0x40, .zero⟩, .log (.bread () 100)),
      (⟨0x40, 0x40, .zero⟩, .log (.brelse () ⟨1, one_lt_NBUF⟩))]

/-- The device is ready (`IDE_DRDY`): the buffer is coherent with the disk. -/
theorem cache_coherent_readOnce : ∃ s : LogSys Unit,
    LogSys.execReports (readOnce 0x40) (.boot markedDisk) = .ok s ∧ s.cache.Coherent ∧
      (s.cache.buf ⟨1, by decide⟩).blockno = some 100 := by
  have hrun : ((LogSys.execReports (readOnce 0x40) (.boot markedDisk)).toOption.any fun s =>
      decide ((s.cache.buf ⟨1, by decide⟩).blockno = some 100)) = true := by
    decide +kernel
  obtain ⟨s, hs, hf⟩ := exists_ok hrun
  refine ⟨s, hs, cache_coherent (fun x hx => ?_) hs, of_decide_eq_true hf⟩
  simp only [readOnce, List.mem_append, List.mem_replicate, List.mem_cons] at hx
  rcases hx with ⟨-, rfl⟩ | rfl | rfl | hx
  · exact ⟨by decide, by decide⟩
  · exact ⟨by decide, by decide⟩
  · exact ⟨by decide, by decide⟩
  · cases hx

/-- The device reports `IDE_ERR` for the read. The buffer of the block is valid, clean and free, and
holds zeroes instead of what is on the disk. -/
theorem cache_incoherent_after_readError : ∃ s : LogSys Unit,
    LogSys.execReports (readOnce 0x41) (.boot markedDisk) = .ok s ∧ ¬ s.cache.Coherent := by
  have hrun : ((LogSys.execReports (readOnce 0x41) (.boot markedDisk)).toOption.any fun s =>
      let b := s.cache.buf ⟨1, by decide⟩
      decide (b.busy = none ∧ b.blockno = some 100 ∧ b.valid = true ∧ b.dirty = false ∧
        b.data.get 0 = 0 ∧ (s.cache.disk 100).get 0 = 1)) = true := by
    decide +kernel
  obtain ⟨s, hs, hf⟩ := exists_ok hrun
  obtain ⟨hbusy, hblock, hvalid, hclean, hdata, hdisk⟩ := of_decide_eq_true hf
  refine ⟨s, hs, fun hcoh => ?_⟩
  rw [hcoh _ _ hbusy hblock hvalid hclean, hdisk] at hdata
  cases hdata

end TronBoss
