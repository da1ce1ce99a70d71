import TronBoss.Lib.RedoLog
import TronBoss.Log.CacheSpec
import TronBoss.Log.Log

/-!
# Recovery

The log region of a disk as a redo log, and what `recover_from_log` makes of it. `Recoverable d m`
says that recovery from the disk `d` yields the home contents `m`; every step of a recovery keeps
it, so crashes in between do not matter, and the home blocks of the disk at the end are `m`.
-/

namespace TronBoss

open Lib Function List

/-! ## The header -/

theorem read32_writeBlocks_of_le {xs : List UInt32} {i off : Nat} {b : Block}
    (hoff : off + 4 ≤ 4 * (i + 1)) (hlen : 4 * (i + xs.length + 1) ≤ BSIZE) :
    (writeBlocks i xs b).read32 off = b.read32 off := by
  induction xs generalizing i b with
  | nil => rfl
  | cons x xs ih =>
    rw [length_cons] at hlen
    rw [writeBlocks, ih (by omega) (by omega)]
    exact Bytes.read32_write32_of_disjoint (by omega) (.inl hoff)

/-- The block numbers that `write_head` stores are read back. -/
theorem read32_writeBlocks {xs : List UInt32} {i j : Nat} {b : Block}
    (hlen : 4 * (i + xs.length + 1) ≤ BSIZE) (hj : j < xs.length) :
    (writeBlocks i xs b).read32 (4 * (i + j + 1)) = xs[j] := by
  induction xs generalizing i j b with
  | nil => exact absurd hj (Nat.not_lt_zero j)
  | cons x xs ih =>
    rw [length_cons] at hlen hj
    cases j with
    | zero =>
      rw [writeBlocks, read32_writeBlocks_of_le (by omega) (by omega)]
      exact Bytes.read32_write32 (by omega)
    | succ j =>
      rw [writeBlocks, getElem_cons_succ, ← ih (i := i + 1) (by omega) (by omega)]
      congr 2
      omega

theorem headN_writeHead {lh : List UInt32} {b : Block} (h : lh.length ≤ LOGSIZE) :
    headN (writeHead lh b) = lh.length := by
  have hL : lh.length ≤ 30 := h
  rw [headN, writeHead, read32_writeBlocks_of_le (by omega) (by rw [BSIZE]; omega),
    Bytes.read32_write32 (by rw [BSIZE]; omega), UInt32.toInt32_ofNat']
  exact Int32.toInt_ofNat_of_lt (by omega)

/-- The header block that `write_head` writes names the blocks of `log.lh`. -/
theorem headBlocks_writeHead {lh : List UInt32} {b : Block} (h : lh.length ≤ LOGSIZE) :
    headBlocks (writeHead lh b) = lh := by
  have hL : lh.length ≤ 30 := h
  rw [headBlocks, headN_writeHead h]
  refine ext_getElem (by simp) fun i h1 h2 => ?_
  rw [getElem_map, getElem_range]
  have hr := read32_writeBlocks (i := 0) (b := b.write32 0 (UInt32.ofNat lh.length)) (j := i)
    (by rw [BSIZE]; omega) h2
  rwa [Nat.zero_add] at hr

theorem readHead_eq_ok {b : Block} {lh : List UInt32} (h : readHead b = .ok lh) :
    lh = headBlocks b := by
  unfold readHead at h
  split at h
  · cases h
  · cases h
    rfl

/-! ## The log region -/

/-- A home block, outside of the log region. -/
def Home (n : UInt32) : Prop := ¬ InLog n

/-- The log region as a redo log. -/
def redo (d : Disk) : Redo UInt32 Block where
  cell := d
  slot i := d (slotBlock i)
  header := headBlocks (d headBlock)

theorem redo_header (d : Disk) : (redo d).header = headBlocks (d headBlock) := by rw [redo]

/-- Recovery from the disk yields the home contents `m`. -/
structure Recoverable (d : Disk) (m : UInt32 → Block) : Prop where
  redo : (redo d).Recovers Home m
  short : (headBlocks (d headBlock)).length < nlog

theorem toNat_slotBlock {i : Nat} (h : i < nlog) : (slotBlock i).toNat = logstart + i + 1 := by
  have h' : i < 30 := h
  rw [slotBlock, UInt32.toNat_ofNat', logstart]
  omega

theorem inLog_headBlock : InLog headBlock := by decide

theorem inLog_slotBlock {i : Nat} (h : i + 1 < nlog) : InLog (slotBlock i) := by
  rw [InLog, toNat_slotBlock (by omega)]
  omega

theorem slotBlock_ne_headBlock {i : Nat} (h : i < nlog) : slotBlock i ≠ headBlock := by
  intro he
  have hn := congrArg UInt32.toNat he
  rw [toNat_slotBlock h] at hn
  have hh : headBlock.toNat = logstart := by decide
  omega

theorem slotBlock_inj {i j : Nat} (hi : i < nlog) (hj : j < nlog)
    (h : slotBlock i = slotBlock j) : i = j := by
  have hn := congrArg UInt32.toNat h
  rw [toNat_slotBlock hi, toNat_slotBlock hj] at hn
  omega

section
variable {d : Disk} {m : UInt32 → Block}

/-- A disk whose header is empty. -/
theorem Recoverable.of_nil (hh : headBlocks (d headBlock) = []) (hc : ∀ n, Home n → d n = m n) :
    Recoverable d m :=
  ⟨.of_nil ((redo_header d).trans hh) hc, by rw [hh]; decide⟩

section
variable (h : Recoverable d m) {i : Nat} {n : UInt32}
  (hn : (headBlocks (d headBlock))[i]? = some n)
include h hn

theorem Recoverable.home : Home n := by
  rw [← redo_header] at hn
  exact h.redo.inside n (mem_of_getElem? hn)

theorem Recoverable.logged : d (slotBlock i) = m n := by
  rw [← redo_header] at hn
  exact h.redo.logged i n hn

/-- Copying a slot to its home block. -/
theorem Recoverable.install : Recoverable (update d n (d (slotBlock i))) m := by
  have hHome : ¬ InLog n := h.home hn
  rw [← redo_header] at hn
  have hhead : update d n (d (slotBlock i)) headBlock = d headBlock := by
    refine update_of_ne ?_ _ _
    rintro rfl
    exact hHome inLog_headBlock
  have hr : (TronBoss.redo (update d n (d (slotBlock i)))).Recovers Home m := by
    have h' := (h.redo.install hn).congr_slot
      (fun j => update d n (d (slotBlock i)) (slotBlock j)) fun j hj => ?_
    · simpa [TronBoss.redo, hhead] using h'
    · refine update_of_ne ?_ _ _
      rintro rfl
      rw [redo_header] at hj
      exact hHome (inLog_slotBlock (by have := h.short; omega))
  exact ⟨hr, by rw [hhead]; exact h.short⟩

end

/-- One more block of the header has its contents. -/
theorem copied_succ {lh : List UInt32} {tail : Nat} {n : UInt32} {v : Block}
    (hn : lh[tail]? = some n) (hv : v = m n) (h : ∀ k ∈ lh.take tail, d k = m k) :
    ∀ k ∈ lh.take (tail + 1), update d n v k = m k := by
  obtain ⟨hlt, rfl⟩ := List.getElem?_eq_some_iff.1 hn
  intro k hk
  by_cases e : k = lh[tail]
  · rw [e, update_self, hv]
  · rw [update_of_ne e]
    rw [take_succ_eq_append_getElem hlt, mem_append, mem_singleton] at hk
    exact h k (hk.resolve_right e)

/-- Clearing the header, when every slot has been copied. -/
theorem Recoverable.clear (hc : ∀ n, Home n → d n = m n) (b : Block) :
    headBlocks (update d headBlock (writeHead [] b) headBlock) = [] ∧
      ∀ n, Home n → update d headBlock (writeHead [] b) n = m n := by
  refine ⟨?_, fun n hn => ?_⟩
  · rw [update_self, headBlocks_writeHead (by decide)]
  · rw [update_of_ne, hc n hn]
    rintro rfl
    exact hn inLog_headBlock

end

/-! ## The parts of `write_log`, `install_trans` and `write_head` -/

section
variable {T : Type} {c c' : Bcache (Holder T)} {view : UInt32 → Block} {n m : UInt32}
  {src dst b : Fin NBUF} {lh : List UInt32} {r : LogPc × List UInt32 × Bcache (Holder T)}

/-- The cache stores the contents `view`, and no buffer is being changed. -/
abbrev Bcache.Stores {H : Type} (c : Bcache H) (view : UInt32 → Block) : Prop :=
  c.Rep view fun _ => False

/-- A buffer taken by the log code is not one that a thread holds. -/
theorem Taken.thread (ht : Taken .log n c b c') (b' : Fin NBUF) (t : T)
    (hb : (c'.buf b').busy = some (.thread t)) : c'.buf b' = c.buf b' := by
  refine ht.other b' ?_
  rintro rfl
  rw [ht.busy] at hb
  cases hb

/-- What the write of one block does to the cache and the disk. -/
structure Written (n : UInt32) (v : Block) (view : UInt32 → Block) (c c' : Bcache (Holder T)) :
    Prop where
  disk : c'.disk = update c.disk n v
  stores : c'.Stores (update view n v)
  dirty : ∀ m, c'.Dirty m ↔ c.Dirty m ∧ m ≠ n
  thread : ∀ b t, (c'.buf b).busy = some (.thread t) → c'.buf b = c.buf b

/-- The log code sets the contents of a buffer that it holds and writes it. -/
theorem bwrite_written {v : Block} (h : c.Stores view) (hb : (c.buf b).busy = some .log)
    (hn : (c.buf b).blockno = some n)
    (hc : bwrite b (c.setBuf b { c.buf b with data := v }) = .ok c') : Written n v view c c' := by
  have h' : (c.setBuf b { c.buf b with data := v }).Rep view fun b' => False ∨ b' = b :=
    h.setData (by simp [hb])
  obtain ⟨heq, hrep, hd⟩ := bwrite_spec h' not_false (by simpa using hn) hc
  rw [Bcache.setBuf_self] at hrep heq
  refine ⟨by rw [heq]; rfl, hrep, fun k => ?_, fun b' t ht => ?_⟩
  · rw [hd]
    exact and_congr_left' (Bcache.dirty_setBuf Iff.rfl)
  · rw [heq] at ht ⊢
    by_cases e : b' = b
    · subst e
      simp [Bcache.setBuf, hb] at ht
    · simp [Bcache.setBuf, update_of_ne e]

/-- The release of a buffer after a write. -/
theorem Written.brelse {v : Block} {c'' : Bcache (Holder T)} (h : Written n v view c c')
    (hc : brelse b c' = .ok c'') : Written n v view c c'' := by
  obtain ⟨hdisk, hbuf, hrep, hd⟩ := brelse_spec h.stores not_false hc
  refine ⟨hdisk.trans h.disk, hrep, fun k => (hd k).trans (h.dirty k), fun b' t ht => ?_⟩
  rw [hbuf] at ht ⊢
  by_cases e : b' = b
  · rw [e, Bcache.setBuf_self] at ht
    cases ht
  · rw [Bcache.setBuf_of_ne e] at ht ⊢
    exact h.thread b' t ht

/-- The write after a read. -/
theorem Written.of_taken {v : Block} {c'' : Bcache (Holder T)} (ht : Taken .log m c b c')
    (h : Written n v view c' c'') : Written n v view c c'' :=
  ⟨by rw [h.disk, ht.disk], h.stores, fun k => by rw [h.dirty, ht.dirty], fun b' t hb => by
    have hb' := h.thread b' t hb
    rw [hb', ht.thread b' t (hb' ▸ hb)]⟩

section
variable (h : c.Stores view)
include h

theorem writeHeadBuf_written (hc : writeHeadBufBy iderw lh c = .ok c') :
    Written headBlock (writeHead lh (view headBlock)) view c c' := by
  obtain ⟨⟨b, c1⟩, h1, hc⟩ := bind_eq_ok.1 hc
  obtain ⟨c2, h2, hc⟩ := bind_eq_ok.1 hc
  obtain ⟨ht, hrep, hv, hdata⟩ := bread_spec h h1
  rw [hdata] at h2
  exact .of_taken ht ((bwrite_written hrep ht.busy ht.blockno h2).brelse hc)

/-- A turn of `write_log`: the home block `m` goes to the slot whose buffer the log code holds. -/
theorem writeLogFrom_written {tail : Nat}
    (hb : (c.buf dst).busy = some .log) (hn : (c.buf dst).blockno = some n)
    (hm : lh[tail]? = some m) (hr : LogPc.step lh c (.writeLogFrom tail dst) = .ok r) :
    r.1 = .writeLog (tail + 1) ∧ r.2.1 = lh ∧ Written n (view m) view c r.2.2 := by
  simp only [LogPc.step, LogPc.stepBy, hm] at hr
  obtain ⟨⟨src, c1⟩, h1, hr⟩ := bind_eq_ok.1 hr
  obtain ⟨c2, h2, hr⟩ := bind_eq_ok.1 hr
  obtain ⟨c3, h3, hr⟩ := bind_eq_ok.1 hr
  obtain ⟨c4, h4, hr⟩ := bind_eq_ok.1 hr
  cases hr
  obtain ⟨ht, hrep, hv, hdata⟩ := bread_spec h h1
  rw [copyBufBy, hdata] at h2
  refine ⟨rfl, rfl, .of_taken ht (((bwrite_written hrep ?_ ?_ h2).brelse h3).brelse h4)⟩
  · rwa [ht.same hb]
  · rwa [ht.same hb]

/-- A turn of `install_trans`: the slot `m`, whose buffer the log code holds, goes to the home
block. -/
theorem installDst_written {tail : Nat}
    (hb : (c.buf src).busy = some .log) (hm : (c.buf src).blockno = some m)
    (hv : (c.buf src).valid = true) (hn : lh[tail]? = some n)
    (hr : LogPc.step lh c (.installDst tail src) = .ok r) :
    r.1 = .install (tail + 1) ∧ r.2.1 = lh ∧ Written n (view m) view c r.2.2 := by
  simp only [LogPc.step, LogPc.stepBy, hn] at hr
  obtain ⟨⟨dst, c1⟩, h1, hr⟩ := bind_eq_ok.1 hr
  obtain ⟨c2, h2, hr⟩ := bind_eq_ok.1 hr
  obtain ⟨c3, h3, hr⟩ := bind_eq_ok.1 hr
  obtain ⟨c4, h4, hr⟩ := bind_eq_ok.1 hr
  cases hr
  obtain ⟨ht, hrep, -, -⟩ := bread_spec h h1
  rw [copyBufBy, ht.same hb, h.data src m hm hv not_false] at h2
  exact ⟨rfl, rfl,
    .of_taken ht (((bwrite_written hrep ht.busy ht.blockno h2).brelse h3).brelse h4)⟩

/-- The head of the loops of `write_log` and `install_trans`. -/
theorem slotLoop_spec {tail : Nat} {body : Fin NBUF → LogPc} {after : LogPc × List UInt32}
    (hr : slotLoopBy iderw tail body after lh c = .ok r) :
    (tail < lh.length ∧ ∃ b, r.1 = body b ∧ r.2.1 = lh ∧
      Taken .log (slotBlock tail) c b r.2.2 ∧ r.2.2.Stores view ∧ (r.2.2.buf b).valid = true) ∨
    (lh.length ≤ tail ∧ r = (after.1, after.2, c)) := by
  unfold slotLoopBy at hr
  split at hr
  · next hlt =>
    obtain ⟨⟨b, c1⟩, h1, hr⟩ := bind_eq_ok.1 hr
    cases hr
    obtain ⟨ht, hrep, hv, -⟩ := bread_spec h h1
    exact .inl ⟨hlt, b, rfl, rfl, ht, hrep, hv⟩
  · next hlt =>
    cases hr
    exact .inr ⟨by omega, rfl⟩

/-- Reading the header gives the blocks of the last commit. -/
theorem readHead_spec (hr : LogPc.step lh c .readHead = .ok r) :
    r.1 = .install 0 ∧ r.2.1 = headBlocks (view headBlock) ∧ r.2.2.Stores view ∧
      r.2.2.disk = c.disk ∧ (∀ k, r.2.2.Dirty k ↔ c.Dirty k) ∧
      ∀ b t, (r.2.2.buf b).busy = some (.thread t) → r.2.2.buf b = c.buf b := by
  simp only [LogPc.step, LogPc.stepBy] at hr
  obtain ⟨⟨b, c1⟩, h1, hr⟩ := bind_eq_ok.1 hr
  obtain ⟨lh', h2, hr⟩ := bind_eq_ok.1 hr
  obtain ⟨c2, h3, hr⟩ := bind_eq_ok.1 hr
  cases hr
  obtain ⟨ht, hrep, -, hdata⟩ := bread_spec h h1
  obtain ⟨hdisk, hbuf, hrep', hd⟩ := brelse_spec hrep not_false h3
  refine ⟨rfl, ?_, hrep', hdisk.trans ht.disk, fun k => (hd k).trans (ht.dirty k),
    fun b' t hb => ?_⟩
  · rw [readHead_eq_ok h2, hdata]
  · rw [hbuf] at hb ⊢
    by_cases e : b' = b
    · rw [e, Bcache.setBuf_self] at hb
      cases hb
    · rw [Bcache.setBuf_of_ne e, ht.other b' e]

end

end

/-! ## `recover_from_log` -/

/-- The buffer that `install_trans` holds between its two `bread`s. -/
structure HoldsSlot {T : Type} (c : Bcache (Holder T)) (tail : Nat) (b : Fin NBUF) : Prop where
  busy : (c.buf b).busy = some .log
  blockno : (c.buf b).blockno = some (slotBlock tail)
  valid : (c.buf b).valid = true

/-- What holds at each point of a recovery of the home contents `m`. -/
def RecoverPc {T : Type} (m : UInt32 → Block) (s : LogSys T) : Prop :=
  match s.mode with
  | .recover .readHead => True
  | .recover (.install tail) =>
    s.lh = headBlocks (s.cache.disk headBlock) ∧ ∀ n ∈ s.lh.take tail, s.cache.disk n = m n
  | .recover (.installDst tail b) =>
    s.lh = headBlocks (s.cache.disk headBlock) ∧ (∀ n ∈ s.lh.take tail, s.cache.disk n = m n) ∧
      tail < s.lh.length ∧ HoldsSlot s.cache tail b
  | .recover .clearHead => s.lh = [] ∧ ∀ n, Home n → s.cache.disk n = m n
  | .recover .done | .run =>
    s.lh = [] ∧ headBlocks (s.cache.disk headBlock) = [] ∧ ∀ n, Home n → s.cache.disk n = m n
  | _ => False

/-- The invariant of a recovery of the home contents `m`: nothing but the log code runs, and the
cache agrees with the disk. -/
structure RecoverInv {T : Type} (m : UInt32 → Block) (s : LogSys T) : Prop where
  stores : s.cache.Stores s.cache.disk
  clean : ∀ n, ¬ s.cache.Dirty n
  alone : ∀ b t, (s.cache.buf b).busy ≠ some (.thread t)
  disk : Recoverable s.cache.disk m
  pc : RecoverPc m s

section
variable {T : Type} {m : UInt32 → Block} {s s' : LogSys T} {d d' : Disk}

theorem RecoverInv.boot (h : Recoverable d m) : RecoverInv m (.boot d : LogSys T) :=
  ⟨binit_rep d, not_dirty_binit d, fun _ _ => nofun, h, trivial⟩

/-- A turn of `install_trans` in a recovery. -/
theorem RecoverInv.installDst {tail : Nat} {b : Fin NBUF}
    {r : LogPc × List UInt32 × Bcache (Holder T)} (h : RecoverInv m s)
    (hm : s.mode = .recover (.installDst tail b))
    (hr : LogPc.step s.lh s.cache (.installDst tail b) = .ok r) :
    RecoverInv m { s with lh := r.2.1, cache := r.2.2, mode := .recover r.1 } := by
  have hpc := h.pc
  simp only [RecoverPc, hm] at hpc
  obtain ⟨hlh, htake, hlt, hslot⟩ := hpc
  have hn : s.lh[tail]? = some s.lh[tail] := getElem?_eq_getElem hlt
  have hn' : (headBlocks (s.cache.disk headBlock))[tail]? = some s.lh[tail] := by rw [← hlh, hn]
  obtain ⟨h1, h2, hw⟩ := installDst_written h.stores hslot.busy hslot.blockno
    hslot.valid hn hr
  have hhome : Home s.lh[tail] := h.disk.home hn'
  refine ⟨?_, fun k hk => ?_, fun b' t hb => ?_, ?_, ?_⟩
  · simp only [hw.disk]
    exact hw.stores
  · exact h.clean k ((hw.dirty k).1 hk).1
  · exact h.alone b' t (hw.thread b' t hb ▸ hb)
  · simp only [hw.disk]
    exact h.disk.install hn'
  · simp only [RecoverPc, h1, h2, hw.disk]
    refine ⟨?_, copied_succ hn (h.disk.logged hn') htake⟩
    rw [update_of_ne, hlh]
    rintro he
    exact hhome (he ▸ inLog_headBlock)

/-- What a step of `commit` or of `recover_from_log` does. -/
inductive LogSys.LogStep [DecidableEq T] (s : LogSys T) : LogSys T → Prop
  | committed {t : T} (hm : s.mode = .commit t .done) :
    LogStep s { s.setThread t .idle with committing := false, mode := .run }
  | recovered (hm : s.mode = .recover .done) : LogStep s { s with mode := .run }
  | commit {t : T} {pc : LogPc} {r : LogPc × List UInt32 × Bcache (Holder T)}
    (hm : s.mode = .commit t pc) (hr : pc.step s.lh s.cache = .ok r) :
    LogStep s { s with lh := r.2.1, cache := r.2.2, mode := .commit t r.1 }
  | recover {pc : LogPc} {r : LogPc × List UInt32 × Bcache (Holder T)}
    (hm : s.mode = .recover pc) (hr : pc.step s.lh s.cache = .ok r) :
    LogStep s { s with lh := r.2.1, cache := r.2.2, mode := .recover r.1 }

/-- A step of the log is one of these. -/
theorem LogSys.logStep_of_step [DecidableEq T] (hs : s.step .log = .ok s') : s.LogStep s' := by
  simp only [LogSys.step, LogSys.stepBy] at hs
  split at hs
  · cases hs
  · next hm =>
    cases hs
    exact .committed hm
  · next hm =>
    cases hs
    exact .recovered hm
  · next hm =>
    obtain ⟨r, hr, hs⟩ := bind_eq_ok.1 hs
    cases hs
    exact .commit hm hr
  · next hm =>
    obtain ⟨r, hr, hs⟩ := bind_eq_ok.1 hs
    cases hs
    exact .recover hm hr

/-- Every step of a recovery keeps its invariant. -/
theorem RecoverInv.step [DecidableEq T] (h : RecoverInv m s) (hs : s.step .log = .ok s') :
    RecoverInv m s' := by
  have hpc := h.pc
  cases LogSys.logStep_of_step hs with
  | committed hm | commit hm => simp [RecoverPc, hm] at hpc
  | recovered hm =>
    simp only [RecoverPc, hm] at hpc
    exact ⟨h.stores, h.clean, h.alone, h.disk, hpc⟩
  | @recover pc r hm hr =>
    cases pc with
    | writeLog tail | writeLogFrom tail b | commitHead => simp [RecoverPc, hm] at hpc
    | done => cases hr
    | readHead =>
      obtain ⟨h1, h2, h3, h4, h5, h6⟩ := readHead_spec h.stores hr
      refine ⟨by rw [h4]; exact h3, fun k hk => h.clean k ((h5 k).1 hk),
        fun b t hb => h.alone b t (h6 b t hb ▸ hb), by rw [h4]; exact h.disk, ?_⟩
      simp only [RecoverPc, h1, h2, h4]
      exact ⟨trivial, by simp⟩
    | install tail =>
      simp only [RecoverPc, hm] at hpc
      rcases slotLoop_spec h.stores hr with ⟨hlt, b, h1, h2, ht, hst, hv⟩ | ⟨hle, rfl⟩
      · refine ⟨by rw [ht.disk]; exact hst, fun k hk => h.clean k ((ht.dirty k).1 hk),
          fun b' t hb => h.alone b' t (ht.thread b' t hb ▸ hb), by rw [ht.disk]; exact h.disk, ?_⟩
        simp only [RecoverPc, h1, h2, ht.disk]
        exact ⟨hpc.1, hpc.2, hlt, ht.busy, ht.blockno, hv⟩
      · refine ⟨h.stores, h.clean, h.alone, h.disk, rfl, fun n hn => ?_⟩
        -- every block of the header has been copied
        rw [take_of_length_le hle] at hpc
        by_cases hmem : n ∈ s.lh
        · exact hpc.2 n hmem
        · exact h.disk.redo.other n hn (by rwa [hpc.1] at hmem)
    | installDst tail b =>
      exact h.installDst hm hr
    | clearHead =>
      simp only [RecoverPc, hm] at hpc
      simp only [LogPc.step, LogPc.stepBy] at hr
      obtain ⟨c, hc, hr⟩ := bind_eq_ok.1 hr
      cases hr
      rw [hpc.1] at hc
      have hw := writeHeadBuf_written h.stores hc
      obtain ⟨hnil, hhome⟩ := Recoverable.clear hpc.2 (s.cache.disk headBlock)
      refine ⟨by rw [hw.disk]; exact hw.stores, fun k hk => h.clean k ((hw.dirty k).1 hk).1,
        fun b t hb => h.alone b t (hw.thread b t hb ▸ hb), ?_, ?_⟩
      · simp only [hw.disk]
        exact .of_nil hnil hhome
      · simp only [RecoverPc, hw.disk]
        exact ⟨hpc.1, hnil, hhome⟩

theorem LogSys.Recovering.inv [DecidableEq T] (hr : LogSys.Recovering d s) (h : Recoverable d m) :
    RecoverInv m s := by
  induction hr with
  | boot => exact .boot h
  | step _ hs ih => exact ih.step hs

/-- A recovery with any number of crashes ends with the recoverable contents, and an empty log. -/
theorem Recovered.disk_eq [DecidableEq T] (hr : Recovered T d d') (h : Recoverable d m) :
    headBlocks (d' headBlock) = [] ∧ ∀ n, Home n → d' n = m n := by
  induction hr with
  | done hs hrun =>
    have hpc := (hs.inv h).pc
    simp only [RecoverPc, hrun] at hpc
    exact hpc.2
  | crash hs _ ih => exact ih (hs.inv h).disk

end

end TronBoss
