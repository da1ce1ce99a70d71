import TronBoss.Fs.Structure
import TronBoss.Txn.Simulation

/-!
# The contents of a regular file

`readi` and `writei` against the picture of a file as a string of bytes: a read returns a piece of it,
a write replaces a piece and may extend it, and a request that starts past the end or wraps around is
refused. Two things can go wrong with a write: the disk has not enough free blocks for it, or the blocks
that it changes do not fit into the log.
-/

namespace TronBoss.Txn

open Lib Fs Function

/-- What `writei(src, off)` and `readi(off, n)` are to do with the file of cache entry `e`. -/
structure FileOk (s : Sys) (e : Fin NINODE) (src : List UInt8) (off n : Nat) : Prop where
  write : 1 ≤ s.outstanding → off ≤ (s.fs.icache e).size.toNat → off + src.length ≤ MAXFILE * BSIZE →
    ∃ f ops, writei e src off s = .ok (src.length, s.put f s.bufs ops) ∧ f.Inv ∧
      f.view = update s.fs.view (s.fs.icache e).inum
        (some ((s.fs.icache e).vnode (Fs.overlay (s.fs.store.data (s.fs.icache e).inum) off src))) ∧
      (f.icache e).size.toNat = max (s.fs.icache e).size.toNat (off + src.length)
  read : off ≤ (s.fs.icache e).size.toNat → off + n < 2 ^ 32 →
    readi e off n s = .ok (some (((s.fs.store.data (s.fs.icache e).inum).drop off).take n), s)
  refuse_read : (s.fs.icache e).size.toNat < off ∨ 2 ^ 32 ≤ off + n → readi e off n s = .ok (none, s)
  refuse_write : (s.fs.icache e).size.toNat < off ∨ 2 ^ 32 ≤ off + src.length →
    writei e src off s = .ok (-1, s)

/-- The disk has free blocks for what the file grows by when `n` bytes are written at `off`, with its
indirect block, and the log has room for the blocks that are changed. -/
def WriteRoom (s : Sys) (e : Fin NINODE) (off n : Nat) : Prop :=
  growth (blocksFor (s.fs.icache e).size.toNat) (off + n) ≤ s.fs.free ∧
    s.fs.log.length + writeiBlocks (s.fs.icache e).size.toNat off n ≤ logLimit s.fs.sb

/-- The size in the cache is the length of the contents. -/
theorem size_of_view {t f : State} {e : Fin NINODE} (hf : f.Inv) (hl : t.Loaded e)
    (hh : f.handle = t.handle) {v : Vnode}
    (hv : f.view = update t.view (t.icache e).inum (some v)) :
    (f.icache e).size.toNat = v.data.length := by
  have he : f.handle e = t.handle e := congrFun hh e
  have hi : (f.icache e).inum = (t.icache e).inum := congrArg Handle.inum he
  have hl' : f.Loaded e :=
    ⟨hl.ref.trans_eq (congrArg Handle.ref he).symm, (congrArg Handle.valid he).trans hl.valid⟩
  have hview := hf.view_of_loaded hl'
  rw [hi, hv, update_self] at hview
  rw [← hf.length_data hl', Option.some.inj hview, hi]
  rfl

section
variable {s : Sys} {e : Fin NINODE} {src : List UInt8} {off n : Nat} (h : s.fs.Inv)
  (hl : s.fs.Loaded e) (ht : (s.fs.icache e).type ≠ T_DEV) (hbufs : s.bufs = [])
include h hl ht hbufs

/-- `writei` with its log does to the disk what it does without. -/
theorem sim_writei {c : Terms} (hw : MayWrite c s) :
    Sim c s (writei e src off) (writei e src off) s.bufs := by
  refine .fsState_bind (.ite (fun hdev => absurd hdev ht) fun _ => .ite (fun _ => .pure _) fun hle => ?_)
  refine .ite (fun _ => .pure _) fun hmax => ?_
  refine .bind (sim_writeiLoop (h.writable hl (by omega) (by omega)) hbufs le_rfl hw.1 (.inl hw.2))
    fun _ _ _ _ => .bind ?_ fun _ _ _ _ => .pure _
  exact .fsState_bind (.ite (fun _ => sim_updateInode hbufs hw.1 (.inl hw.2)) fun _ => .pure _)

/-- `writei` returns when there is room for the write. -/
theorem writei_returns (hnodup : s.fs.log.Nodup) (hout : 1 ≤ s.outstanding)
    (hle : off ≤ (s.fs.icache e).size.toNat) (hmax : off + src.length ≤ MAXFILE * BSIZE)
    (hroom : WriteRoom s e off src.length) : ∃ r, writei e src off s = .ok r := by
  have hMAX : MAXFILE * BSIZE < 2 ^ 32 := by decide
  obtain ⟨hfree, hlen⟩ := hroom
  have hnb := congrArg (fun d : Dinode => blocksFor d.size.toNat) (h.node_eq hl)
  have hwritable := h.writable hl hle hmax
  have hloop := writeiLoop_spec hwritable le_rfl
  rw [hnb] at hloop
  obtain ⟨_, f, hrun, hwrote⟩ :=
    (hloop.mono (fun _ herr => Nat.not_lt.2 hfree herr.2) fun _ _ h => h).returns
  have hspent := hwrote.spent
  have hlogged := (hwrote.logged h hl hmax).1
  rw [hnb] at hspent
  have hlog := hspent.length_le hnodup Store.finite_writeLog
  rw [hlogged] at hlog
  rw [writeiBlocks] at hlen
  have hw : 1 ≤ s.outstanding ∧ true = true := ⟨hout, rfl⟩
  suffices hsat : Sat (fun _ => False) (writei e src off) s fun _ _ => True by
    obtain ⟨r, s', hr, -⟩ := hsat.returns
    exact ⟨(r, s'), hr⟩
  show Sat _ (if _ then _ else if _ then _ else if _ then _ else _) s _
  rw [if_neg ht, if_neg (by omega), if_neg (by omega)]
  by_cases hgrow : (s.fs.icache e).size.toNat < off + src.length
  · -- the inode is logged last, and is not in the log yet
    rw [if_pos hgrow] at hlen
    have hfull : f.log.length < logLimit s.fs.sb := by omega
    refine ((sim_writeiLoop (c := ⟨s.fs.sb, true, logLimit s.fs.sb⟩) hwritable hbufs le_rfl hw
      (.inl le_rfl)).sat rfl hrun hfull).bind ?_
    rintro _ _ ⟨-, ops, rfl, -⟩
    obtain ⟨_, g, hupdate, -⟩ := (hwrote.grow h hl hle hmax hgrow).returns
    have hsb : f.sb = s.fs.sb := hwrote.touch.sb
    have hgrow' : (f.icache e).size.toNat < off + src.length := hwrote.touch.size ▸ hgrow
    refine Sat.bind (P := fun _ _ => True) ?_ fun _ _ _ => trivial
    show Sat _ (if (f.icache e).size.toNat < off + src.length then _ else _) _ _
    rw [if_pos hgrow']
    exact ((sim_updateInode (s := s.put f s.bufs ops) (c := ⟨s.fs.sb, true, g.log.length + 1⟩) hbufs hw
      (.inr hfull)).sat hsb hupdate (Nat.lt_succ_self _)).weaken fun _ _ _ => trivial
  · -- every block is mapped and is logged once
    refine ((sim_writeiLoop (c := ⟨s.fs.sb, true, f.log.length + 1⟩) hwritable hbufs le_rfl hw
      (.inr ⟨?_, ?_⟩)).sat rfl hrun (Nat.lt_succ_self _)).bind ?_
    · rw [hnb]
      exact blocksFor_mono (Nat.not_lt.1 hgrow)
    · show _ ≤ logLimit s.fs.sb
      omega
    rintro _ _ ⟨-, ops, rfl, -⟩
    have hgrow' : ¬ (f.icache e).size.toNat < off + src.length := hwrote.touch.size ▸ hgrow
    refine Sat.bind (P := fun _ _ => True) ?_ fun _ _ _ => trivial
    show Sat _ (if (f.icache e).size.toNat < off + src.length then _ else _) _ _
    rw [if_neg hgrow']
    trivial

/-- With an empty log, `writei` returns only when there is room for the write. -/
theorem writeRoom_of_returns {r : Int × Sys} (hempty : s.fs.log = []) (hout : 1 ≤ s.outstanding)
    (hle : off ≤ (s.fs.icache e).size.toNat) (hmax : off + src.length ≤ MAXFILE * BSIZE)
    (hr : writei e src off s = .ok r) : WriteRoom s e off src.length := by
  have hsim : Sim ⟨s.fs.sb, true, logLimit s.fs.sb⟩ s (writei e src off) (writei e src off) s.bufs :=
    sim_writei h hl ht hbufs ⟨⟨hout, rfl⟩, le_rfl⟩
  obtain ⟨f, ops, hrun, -, hlen, -⟩ := hsim.sound rfl hr
  obtain ⟨-, -, -, -, -, X, hX, hspent⟩ := (writei_exact h hl hle hmax ht).of_ok hrun
  have hfree := hspent.free
  rw [hspent.length_log hempty, hX, hempty, List.length_nil, Nat.max_zero] at hlen
  rw [WriteRoom, hempty, List.length_nil, Nat.zero_add]
  exact ⟨by omega, hlen⟩

/-- `readi` with its buffers returns what it returns without, and changes nothing. -/
theorem readi_eq : readi e off n s = .ok (if (s.fs.icache e).size.toNat < off ∨ 2 ^ 32 ≤ off + n then none
    else some (((s.fs.store.data (s.fs.icache e).inum).drop off).take n), s) := by
  have hspec := readi_spec (E := fun _ => False) h hl ht off n
  obtain ⟨_, _, hrun, rfl, rfl⟩ := hspec.returns
  have hsim : Sim ⟨s.fs.sb, false, s.fs.log.length + 1⟩ s (readi e off n) (readi e off n) s.bufs := by
    refine .fsState_bind (.ite (fun hdev => absurd hdev ht) fun _ => .ite (fun _ => .pure _) fun hle => ?_)
    exact .bind (sim_readiLoop h hl hbufs (by omega)) fun _ _ _ _ => .pure _
  refine eq_ok_of_sat ((hsim.sat rfl hrun (Nat.lt_succ_self _)).weaken ?_)
  rintro _ _ ⟨rfl, ops, rfl, hops⟩
  exact ⟨rfl, by rw [hops rfl]; rfl⟩

end

/-- Reads and writes of a regular file treat it as a string of bytes if there is room for the write, and
when nothing is in the log yet, only if there is. Without it `writei` panics, in `balloc` or in
`log_write`; reads and refused requests need no room. -/
theorem file_contents {s : Sys} {e : Fin NINODE} (h : s.fs.Inv) (hl : s.fs.Loaded e)
    (ht : (s.fs.icache e).type = T_FILE) (hbufs : s.bufs = []) (hlog : s.fs.log.Nodup)
    (src : List UInt8) (off n : Nat) :
    ((1 ≤ s.outstanding → off ≤ (s.fs.icache e).size.toNat → off + src.length ≤ MAXFILE * BSIZE →
        WriteRoom s e off src.length) → FileOk s e src off n) ∧
    (s.fs.log = [] → FileOk s e src off n → 1 ≤ s.outstanding →
      off ≤ (s.fs.icache e).size.toNat → off + src.length ≤ MAXFILE * BSIZE →
        WriteRoom s e off src.length) := by
  have hreg : (s.fs.icache e).type ≠ T_DEV := by
    rw [ht]
    decide
  refine ⟨fun hroom => ⟨fun hout hle hmax => ?_, fun hle hwrap => ?_, fun hbad => ?_, fun hbad => ?_⟩,
    fun hempty hok hout hle hmax => ?_⟩
  · obtain ⟨⟨r, s'⟩, hs'⟩ := writei_returns h hl hreg hbufs hlog hout hle hmax (hroom hout hle hmax)
    have hsim : Sim ⟨s.fs.sb, true, logLimit s.fs.sb⟩ s (writei e src off) (writei e src off) s.bufs :=
      sim_writei h hl hreg hbufs ⟨⟨hout, rfl⟩, le_rfl⟩
    obtain ⟨f, ops, hrun, rfl, -⟩ := hsim.sound rfl hs'
    obtain ⟨rfl, hinv, -, hh, hview, -⟩ := (writei_exact h hl hle hmax hreg).of_ok hrun
    refine ⟨f, ops, hs', hinv, hview, ?_⟩
    rw [size_of_view hinv hl hh hview, ← h.length_data hl]
    exact length_overlay (by rwa [h.length_data hl])
  · rw [readi_eq h hl hreg hbufs, if_neg (by omega)]
  · rw [readi_eq h hl hreg hbufs, if_pos hbad]
  · show (if _ then _ else if _ then _ else _ : TxM Int) s = _
    rw [if_neg hreg, if_pos hbad]
    rfl
  · obtain ⟨f, ops, hs', -⟩ := hok.write hout hle hmax
    exact writeRoom_of_returns h hl hreg hbufs hempty hout hle hmax hs'

/-! ## A new file -/

/-- A new file on a disk with so many free blocks, in a transaction that has logged nothing. -/
structure NewFile (s : Sys) (blocks : Nat) : Prop where
  inv : s.fs.Inv
  loaded : s.fs.Loaded rootEntry
  type : (s.fs.icache rootEntry).type = T_FILE
  size : (s.fs.icache rootEntry).size = 0
  free : s.fs.free = blocks
  limit : logLimit s.fs.sb = LOGSIZE - 1
  bufs : s.bufs = []
  log : s.fs.log = []
  outstanding : 1 ≤ s.outstanding

/-- The state in which a new file is written to. -/
def newFile (f : State) : Sys := ⟨f.commit, 1, [], [rootEntry], []⟩

/-- What is known of a new file on a disk with so many free blocks. -/
def FreshFile (blocks : Nat) (f : State) : Prop :=
  0 < (f.icache rootEntry).ref ∧ (f.icache rootEntry).valid = true ∧
    (f.icache rootEntry).type = T_FILE ∧ (f.icache rootEntry).size = 0 ∧ f.free = blocks ∧
    logLimit f.sb = LOGSIZE - 1

instance (blocks : Nat) (f : State) : Decidable (FreshFile blocks f) :=
  inferInstanceAs (Decidable (_ ∧ _))

/-- A new file on a blank disk, from a run of `ialloc` and `ilock`. -/
theorem exists_newFile {blocks : Nat} {p : State → Bool} (hblank : Blank blocks 8)
    (hnew : ((([InodeOp.ialloc T_FILE, .ilock rootEntry].forM InodeOp.step)
      (iinit (blankDisk blocks 8) fun _ => none)).toOption.any fun r =>
        decide (FreshFile blocks r.2) && p r.2) = true) :
    ∃ f : State, NewFile (newFile f) blocks ∧ p f = true := by
  obtain ⟨⟨_, f⟩, hf, hpost⟩ := exists_ok hnew
  rw [Bool.and_eq_true, decide_eq_true_eq] at hpost
  obtain ⟨⟨href, hvalid, htype, hsize, hfree, hlimit⟩, hp⟩ := hpost
  have hinv : f.Inv := ((steady_run (steady_iinit hblank.wf) _).of_ok hf).inv
  exact ⟨f, ⟨⟨hinv.store, hinv.inum, hinv.unique, hinv.nonneg, hinv.valid⟩, ⟨href, hvalid⟩, htype,
    hsize, hfree, hlimit, rfl, rfl, le_rfl⟩, hp⟩

section
variable {s : Sys} {blocks : Nat} {src : List UInt8} (h : NewFile s blocks)
include h

theorem NewFile.not_dev : (s.fs.icache rootEntry).type ≠ T_DEV := by
  rw [h.type]
  decide

theorem NewFile.size_eq : (s.fs.icache rootEntry).size.toNat = 0 := by
  rw [h.size]
  rfl

/-- A write that panics is not what is wanted. -/
theorem NewFile.not_fileOk {err : Stop} (hmax : 0 + src.length ≤ MAXFILE * BSIZE)
    (herr : writei rootEntry src 0 s = .error err) : ¬ FileOk s rootEntry src 0 0 := fun hok => by
  obtain ⟨f, ops, hrun, -⟩ := hok.write h.outstanding (Nat.zero_le _) hmax
  cases herr.symm.trans hrun

/-- With enough free blocks, a write that does not fit into the log panics in `log_write`. -/
theorem NewFile.too_big (hmax : 0 + src.length ≤ MAXFILE * BSIZE)
    (hfree : growth 0 (0 + src.length) ≤ blocks) (hbig : LOGSIZE ≤ writeiBlocks 0 0 src.length) :
    writei rootEntry src 0 s = .error (.panic "too big a transaction") := by
  have hzero : blocksFor 0 = 0 := rfl
  have hLOG : 0 < LOGSIZE := by decide
  have hsim : Sim ⟨s.fs.sb, true, logLimit s.fs.sb⟩ s (writei rootEntry src 0) (writei rootEntry src 0)
      s.bufs := sim_writei h.inv h.loaded h.not_dev h.bufs ⟨⟨h.outstanding, rfl⟩, le_rfl⟩
  cases hrun : (writei rootEntry src 0 : TxM Int) s with
  | ok r =>
    have hroom := (writeRoom_of_returns h.inv h.loaded h.not_dev h.bufs h.log h.outstanding
      (Nat.zero_le _) hmax hrun).2
    rw [h.size_eq, h.limit] at hroom
    omega
  | error err =>
    rcases hsim.stops rfl hrun with hstop | rfl
    · have hout := ((writei_exact h.inv h.loaded (Nat.zero_le _) hmax h.not_dev).of_error hstop).2
      rw [h.size_eq, h.free, hzero] at hout
      omega
    · rfl

end

/-- A new file takes 26 blocks in one transaction. -/
theorem file_contents_newFile : ∃ (s : Sys) (src : List UInt8), s.fs.Inv ∧ s.fs.Loaded rootEntry ∧
    (s.fs.icache rootEntry).type = T_FILE ∧ s.bufs = [] ∧ s.fs.log.Nodup ∧ 1 ≤ s.outstanding ∧
    src.length = 26 * BSIZE ∧ FileOk s rootEntry src 0 2 := by
  obtain ⟨f, h, -⟩ := @exists_newFile 28 (fun _ => true) (by decide +kernel) (by decide +kernel)
  have hlog : (newFile f).fs.log.Nodup := List.nodup_nil
  refine ⟨newFile f, List.replicate (26 * BSIZE) 1, h.inv, h.loaded, h.type, h.bufs, hlog,
    h.outstanding, List.length_replicate, ?_⟩
  refine (file_contents h.inv h.loaded h.type h.bufs hlog _ 0 2).1 fun _ _ _ => ?_
  rw [WriteRoom, h.size_eq, h.free, h.limit, h.log, List.length_replicate]
  decide

/-- Two ways for a write to panic, though offset and length are in order: the disk has no free block, or
it has, but the 27 blocks of the write and the three that go with them do not fit into the log. -/
theorem writei_panics :
    (∃ s : Sys, NewFile s 0 ∧
      writei rootEntry [1] 0 s = .error (.panic "balloc: out of blocks") ∧
      ¬ FileOk s rootEntry [1] 0 0) ∧
    ∃ (s : Sys) (src : List UInt8), NewFile s 28 ∧ src.length = 27 * BSIZE ∧
      writei rootEntry src 0 s = .error (.panic "too big a transaction") ∧
      ¬ FileOk s rootEntry src 0 0 := by
  constructor
  · obtain ⟨f, h, hstop⟩ := @exists_newFile 0
      (fun f => stop? (writei rootEntry [1] 0 (newFile f)) == some (.panic "balloc: out of blocks"))
      (by decide +kernel) (by decide +kernel)
    have hpanic := stop?_eq_some (eq_of_beq hstop)
    exact ⟨newFile f, h, hpanic, h.not_fileOk (by decide) hpanic⟩
  · obtain ⟨f, h, -⟩ := @exists_newFile 28 (fun _ => true) (by decide +kernel) (by decide +kernel)
    have hlen : (List.replicate (27 * BSIZE) (1 : UInt8)).length = 27 * BSIZE := List.length_replicate
    have hmax : 0 + (List.replicate (27 * BSIZE) (1 : UInt8)).length ≤ MAXFILE * BSIZE := by
      rw [hlen]
      decide
    have hpanic := h.too_big hmax (by rw [hlen]; decide) (by rw [hlen]; decide)
    exact ⟨newFile f, _, h, hlen, hpanic, h.not_fileOk hmax hpanic⟩

end TronBoss.Txn
