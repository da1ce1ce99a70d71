import Mathlib.Data.Fintype.Card
import TronBoss.Log.Invariant

/-!
# The steps of a commit

In a commit the recoverable contents are those before it until the header is written, and those
after it from then on. The header must not name more blocks than the log region has slots. The
tests of `log_write` are made before it takes the lock, so they do not guarantee that; but a logged
block keeps a buffer dirty, and `write_log` needs one more buffer, so a commit that gets that far
has fewer than `NBUF` blocks.
-/

namespace TronBoss

open Lib Function List

section
variable {T : Type} {d : Disk} {s s' : LogSys T} {h : Hist T}

/-- Blocks that have a dirty buffer each, while another block has a buffer too. -/
theorem length_lt_of_dirty {c : Bcache (Holder T)} {lh : List UInt32} {b : Fin NBUF} {m : UInt32}
    (hd : ∀ n ∈ lh, c.Dirty n) (hn : lh.Nodup) (hb : (c.buf b).blockno = some m) (hm : m ∉ lh) :
    lh.length < NBUF := by
  choose f hf using hd
  have hnodup : (b :: lh.attach.map fun n => f n.1 n.2).Nodup := by
    refine nodup_cons.2 ⟨?_, ?_⟩
    · rw [mem_map]
      rintro ⟨n, -, rfl⟩
      have hfn := (hf n.1 n.2).1
      rw [hb, Option.some_inj] at hfn
      exact hm (hfn ▸ n.2)
    · refine (nodup_attach.2 hn).map fun n n' he => Subtype.ext ?_
      have hfn := (hf n.1 n.2).1
      have he' : f n.1 n.2 = f n'.1 n'.2 := he
      rw [he', (hf n'.1 n'.2).1, Option.some_inj] at hfn
      exact hfn.symm
  have hle := hnodup.length_le_card
  rw [length_cons, length_map, length_attach, Fintype.card_fin] at hle
  exact hle

/-- The invariant after a step of the commit code. -/
theorem LogInv.ofCommit {t : T} {pc pc' : LogPc} {lh : List UInt32} {c : Bcache (Holder T)}
    (hI : LogInv d s h) (hm : s.mode = .commit t pc) (hst : c.Stores (overlay c.disk (h.durable d)))
    (hth : ∀ b t', (c.buf b).busy = some (.thread t') → c.buf b = s.cache.buf b)
    (hhome : ∀ n ∈ lh, Home n) (hnodup : lh.Nodup) (hpc : CommitPc d h c lh pc') :
    LogInv d { s with lh := lh, cache := c, mode := .commit t pc' } h := by
  have hp := hI.phase
  simp only [LogPhase, hm] at hp
  obtain ⟨hcom, h0, hcur, -⟩ := hp
  have hno : ∀ t' b, s.thread t' ≠ .logging b := by
    intro t' b ht'
    have := hI.outstanding_pos (t := t') (by rw [ht']; trivial)
    omega
  refine ⟨⟨?_, fun b t' hb => ?_, fun t' b ht' => absurd ht' (hno t' b)⟩, hI.count, hhome, hnodup,
    hcom, h0, hcur, hpc⟩
  · have hX : (fun b => ∃ t', s.thread t' = .logging b) = fun _ => False := by
      funext b
      exact eq_false (not_exists.2 fun t' => hno t' b)
    rw [Hist.logical_of_cur_nil hcur]
    unfold LogSys.unlogged
    rw [hX]
    exact hst
  · have e := hth b t' hb
    simp only [e] at hb ⊢
    exact hI.held b t' hb

section
variable {c c' : Bcache (Holder T)} {lh : List UInt32} {tail : Nat} {b : Fin NBUF} {n : UInt32}
  {v : Block}

/-- A turn of `write_log`. -/
theorem WriteLogPhase.next (hw : WriteLogPhase d h c lh tail) (hhome : ∀ n ∈ lh, Home n)
    (hnodup : lh.Nodup) (hs : HoldsSlot c tail b) (hn : lh[tail]? = some n)
    (hwr : Written (slotBlock tail) (h.durable d n) (overlay c.disk (h.durable d)) c c') :
    WriteLogPhase d h c' lh (tail + 1) ∧ c'.Stores (overlay c'.disk (h.durable d)) := by
  have hlt : tail < lh.length := (List.getElem?_eq_some_iff.1 hn).1
  have hin : InLog (slotBlock tail) := by
    rcases Nat.eq_zero_or_pos tail with h0 | h0
    · rw [h0]
      decide
    · exact inLog_slotBlock (by have := hw.short h0; omega)
  -- the buffer of the slot is one more than the dirty ones
  have hshort : lh.length < nlog := length_lt_of_dirty (fun m hm => (hw.dirty m).2 hm) hnodup
    hs.blockno fun hm => hhome _ hm hin
  have hdisk : ∀ m, m ≠ slotBlock tail → c'.disk m = c.disk m := by
    intro m hm
    rw [hwr.disk, update_of_ne hm]
  have hhome' : ∀ m, Home m → c'.disk m = c.disk m := by
    intro m hm
    refine hdisk m ?_
    rintro rfl
    exact hm hin
  refine ⟨⟨hw.commits, hw.pos, hlt, ?_, fun m hm => ?_, fun i m hi hm => ?_, fun m => ?_, hw.same,
    fun _ => hshort⟩, ?_⟩
  · rw [hdisk _ (slotBlock_ne_headBlock (by omega)).symm]
    exact hw.head
  · rw [hhome' m hm]
    exact hw.old m hm
  · rcases Nat.lt_succ_iff_lt_or_eq.1 hi with hi | rfl
    · rw [hdisk]
      · exact hw.slots i m hi hm
      · exact fun e => hi.ne (slotBlock_inj (by omega) (by omega) e)
    · rw [hn, Option.some_inj] at hm
      rw [hwr.disk, update_self, hm]
  · rw [hwr.dirty, hw.dirty]
    refine and_iff_left_of_imp fun hm => ?_
    rintro rfl
    exact hhome _ hm hin
  · have hst := hwr.stores
    rwa [overlay_update_inLog hin, ← hwr.disk] at hst

/-- The write of the header commits. -/
theorem WriteLogPhase.commit (hw : WriteLogPhase d h c lh lh.length) (hhome : ∀ n ∈ lh, Home n)
    (hnodup : lh.Nodup)
    (hwr : Written headBlock (writeHead lh v) (overlay c.disk (h.durable d)) c c') :
    InstallPhase d h c' lh 0 ∧ c'.Stores (overlay c'.disk (h.durable d)) := by
  have hshort : lh.length < nlog := hw.short hw.pos
  have hhead : headBlocks (c'.disk headBlock) = lh := by
    rw [hwr.disk, update_self, headBlocks_writeHead hshort.le]
  have hdisk : ∀ m, m ≠ headBlock → c'.disk m = c.disk m := by
    intro m hm
    rw [hwr.disk, update_of_ne hm]
  have hhome' : ∀ m, Home m → c'.disk m = c.disk m := by
    intro m hm
    refine hdisk m ?_
    rintro rfl
    exact hm inLog_headBlock
  have hrec : (redo c'.disk).Recovers Home (h.durable d) := by
    have hredo : redo c'.disk = { redo c'.disk with header := lh } := by simp only [redo, hhead]
    rw [hredo]
    refine Redo.Recovers.commit (m := h.upTo (h.commits.length - 1) d) hnodup hhome
      (fun i m hm => ?_) (fun m hm => (hhome' m hm).trans (hw.old m hm)) hw.same
    have hi : i < lh.length := (List.getElem?_eq_some_iff.1 hm).1
    exact (hdisk _ (slotBlock_ne_headBlock (by omega))).trans (hw.slots i m hi hm)
  refine ⟨⟨⟨hrec, by rwa [hhead]⟩, hhead.symm, by simp, fun m hm => ?_⟩, ?_⟩
  · exact (hw.dirty m).1 ((hwr.dirty m).1 hm).1
  · have hst := hwr.stores
    rwa [overlay_update_inLog inLog_headBlock, ← hwr.disk] at hst

/-- A turn of `install_trans` in a commit. -/
theorem InstallPhase.next (hi : InstallPhase d h c lh tail) (hn : lh[tail]? = some n)
    (hwr : Written n (c.disk (slotBlock tail)) (overlay c.disk (h.durable d)) c c') :
    InstallPhase d h c' lh (tail + 1) ∧ c'.Stores (overlay c'.disk (h.durable d)) := by
  have hn' : (headBlocks (c.disk headBlock))[tail]? = some n := hi.head ▸ hn
  have hlt : tail < lh.length := (List.getElem?_eq_some_iff.1 hn).1
  have hhome : Home n := hi.disk.home hn'
  have hslot : c.disk (slotBlock tail) = h.durable d n := hi.disk.logged hn'
  have hget : lh[tail] = n := (List.getElem?_eq_some_iff.1 hn).2
  refine ⟨⟨?_, ?_, ?_, fun m hm => ?_⟩, ?_⟩
  · rw [hwr.disk]
    exact hi.disk.install hn'
  · rw [hwr.disk, update_of_ne, hi.head]
    rintro rfl
    exact hhome inLog_headBlock
  · rw [hwr.disk]
    exact copied_succ hn hslot hi.copied
  · obtain ⟨hm, hne⟩ := (hwr.dirty m).1 hm
    have hmem := hi.dirty m hm
    rw [drop_eq_getElem_cons hlt, mem_cons, hget] at hmem
    exact hmem.resolve_left hne
  · have hst := hwr.stores
    rwa [hslot, overlay_update_home hhome, ← hslot, ← hwr.disk] at hst

end

/-- One step of the commit code. -/
theorem LogInv.commitStep {t : T} {pc : LogPc} {r : LogPc × List UInt32 × Bcache (Holder T)}
    (hI : LogInv d s h) (hm : s.mode = .commit t pc) (hr : pc.step s.lh s.cache = .ok r) :
    LogInv d { s with lh := r.2.1, cache := r.2.2, mode := .commit t r.1 } h := by
  have hp := hI.phase
  simp only [LogPhase, hm] at hp
  obtain ⟨-, h0, hcur, hpc⟩ := hp
  have hst := hI.stores h0 hcur
  have same : ∀ {c : Bcache (Holder T)} {b n}, Taken .log n s.cache b c →
      c.Stores (overlay s.cache.disk (h.durable d)) → c.Stores (overlay c.disk (h.durable d)) := by
    intro c b n ht hs
    rwa [ht.disk]
  have hlog : ∀ {c : Bcache (Holder T)} {b n}, Taken .log n s.cache b c →
      ∀ b', (s.cache.buf b').busy = some .log → c.buf b' = s.cache.buf b' := by
    intro c b n ht b' hb'
    exact ht.same hb'
  cases pc with
  | readHead => exact hpc.elim
  | done => cases hr
  | writeLog tail =>
    rcases slotLoop_spec hst hr with ⟨hlt, b, h1, h2, ht, hst', hv⟩ | ⟨hle, rfl⟩
    · have hpc' : CommitPc d h s.cache s.lh (.writeLog tail) := hpc
      rw [h1, h2]
      exact hI.ofCommit hm (same ht hst') ht.thread hI.home hI.nodup
        ⟨hpc'.congr ht.disk ht.dirty (hlog ht), hlt, ht.busy, ht.blockno, hv⟩
    · refine hI.ofCommit hm hst (fun _ _ _ => rfl) hI.home hI.nodup ?_
      have e : tail = s.lh.length := le_antisymm hpc.le hle
      rw [e] at hpc
      exact hpc
  | writeLogFrom tail b =>
    obtain ⟨hw, hlt, hs⟩ := hpc
    have hn : s.lh[tail]? = some s.lh[tail] := getElem?_eq_getElem hlt
    obtain ⟨h1, h2, hwr⟩ := writeLogFrom_written hst hs.busy hs.blockno hn hr
    rw [overlay_home (hI.home _ (List.getElem_mem hlt))] at hwr
    obtain ⟨hw', hst'⟩ := hw.next hI.home hI.nodup hs hn hwr
    rw [h1, h2]
    exact hI.ofCommit hm hst' hwr.thread hI.home hI.nodup hw'
  | commitHead =>
    simp only [LogPc.step, LogPc.stepBy] at hr
    obtain ⟨c, hc, hr⟩ := bind_eq_ok.1 hr
    cases hr
    have hwr := writeHeadBuf_written hst hc
    obtain ⟨hi, hst'⟩ := WriteLogPhase.commit hpc hI.home hI.nodup hwr
    exact hI.ofCommit hm hst' hwr.thread hI.home hI.nodup hi
  | install tail =>
    rcases slotLoop_spec hst hr with ⟨hlt, b, h1, h2, ht, hst', hv⟩ | ⟨hle, rfl⟩
    · have hpc' : CommitPc d h s.cache s.lh (.install tail) := hpc
      rw [h1, h2]
      exact hI.ofCommit hm (same ht hst') ht.thread hI.home hI.nodup
        ⟨hpc'.congr ht.disk ht.dirty (hlog ht), hlt, ht.busy, ht.blockno, hv⟩
    · -- every block of the header has been copied
      obtain ⟨hdisk, hhead, hcopied, hdirty⟩ := hpc
      refine hI.ofCommit hm hst (fun _ _ _ => rfl) (by simp) nodup_nil
        ⟨rfl, fun n hn => ?_, hdisk, fun n hn => ?_⟩
      · have hmem := hdirty n hn
        rw [drop_of_length_le hle] at hmem
        cases hmem
      · rw [take_of_length_le hle] at hcopied
        by_cases hmem : n ∈ s.lh
        · exact hcopied n hmem
        · exact hdisk.redo.other n hn (by rwa [hhead] at hmem)
  | installDst tail b =>
    obtain ⟨hi, hlt, hs⟩ := hpc
    have hn : s.lh[tail]? = some s.lh[tail] := getElem?_eq_getElem hlt
    obtain ⟨h1, h2, hwr⟩ := installDst_written hst hs.busy hs.blockno hs.valid hn hr
    have hlt' : tail + 1 < nlog := by
      have := hi.disk.short
      rw [← hi.head] at this
      omega
    rw [overlay_inLog (inLog_slotBlock hlt')] at hwr
    obtain ⟨hi', hst'⟩ := hi.next hn hwr
    rw [h1, h2]
    exact hI.ofCommit hm hst' hwr.thread hI.home hI.nodup hi'
  | clearHead =>
    obtain ⟨hnil, hclean, -, hhome⟩ := hpc
    simp only [LogPc.step, LogPc.stepBy] at hr
    obtain ⟨c, hc, hr⟩ := bind_eq_ok.1 hr
    cases hr
    rw [hnil] at hc
    have hwr := writeHeadBuf_written hst hc
    obtain ⟨hnil', hhome'⟩ := Recoverable.clear hhome
      (overlay s.cache.disk (h.durable d) headBlock)
    have hst' := hwr.stores
    rw [overlay_update_inLog inLog_headBlock, ← hwr.disk] at hst'
    rw [← hwr.disk] at hnil' hhome'
    exact hI.ofCommit hm hst' hwr.thread hI.home hI.nodup
      ⟨hnil, fun n hn => hclean n ((hwr.dirty n).1 hn).1, hnil', hhome'⟩

end

end TronBoss
