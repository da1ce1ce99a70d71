import TronBoss.Fs.WriteSpec
import TronBoss.Txn.Fs

/-!
# The file system with and without its log

`TronBoss.Fs` has specifications of the routines that read and write files, on the logical disk alone.
With buffers and the log they do the same to that disk, as long as they return: this is a simulation.
They return when the routine on the disk alone does, and leaves room in the header of the log:
`log_write` takes no more than `logLimit` blocks. No routine waits for a buffer that it holds itself.
-/

namespace TronBoss.Txn

open Lib Fs List

/-- The state after a routine that keeps the transaction and the inode locks. -/
def Sys.put (s : Sys) (f : State) (B : List Nat) (ops : List LogOp) : Sys :=
  { s with fs := f, bufs := B, ops }

/-- The terms on which routines are compared: the super block, whether they may write to the log, and
the number of blocks that the log stays below. -/
structure Terms where
  sb : Superblock
  writes : Bool
  bound : Nat

section
variable {α β : Type}

/-- From `s`, the routine `n` does to the logical disk what `m` does, and leaves the buffers `B` busy. It
stops where `m` stops or when the log is full; so it returns when `m` returns with fewer blocks in the
log than the bound. -/
structure Sim (c : Terms) (s : Sys) (m : FsM α) (n : TxM α) (B : List Nat) : Prop where
  grows : ∀ {a f}, m s.fs = .ok (a, f) → f.sb = s.fs.sb ∧ s.fs.log.length ≤ f.log.length
  sound : s.fs.sb = c.sb → ∀ {a s'}, n s = .ok (a, s') → ∃ f ops, m s.fs = .ok (a, f) ∧
    s' = s.put f B ops ∧ f.log.length ≤ max (logLimit c.sb) s.fs.log.length ∧
    (c.writes = false → ops = s.ops)
  stops : s.fs.sb = c.sb → ∀ {err}, n s = .error err →
    m s.fs = .error err ∨ err = .panic "too big a transaction"
  complete : s.fs.sb = c.sb → ∀ {a f}, m s.fs = .ok (a, f) → f.log.length < c.bound →
    ∃ s', n s = .ok (a, s')

variable {c : Terms} {s : Sys} {m : FsM α} {n : TxM α} {m' : α → FsM β}
  {n' : α → TxM β} {B B' : List Nat}

/-! ## Rules -/

/-- Sequencing of simulations, with the second part after the run of the first one. -/
theorem Sim.bind (hm : Sim c s m n B)
    (hf : ∀ a f ops, m s.fs = .ok (a, f) → Sim c (s.put f B ops) (m' a) (n' a) B') :
    Sim c s (m >>= m') (n >>= n') B' := by
  refine ⟨fun hrun => ?_, fun hsb b s' hrun => ?_, fun hsb err hrun => ?_, fun hsb b g hrun hlt => ?_⟩
  · obtain ⟨⟨a, f⟩, h1, h2⟩ := bind_eq_ok.1 hrun
    obtain ⟨hsb, hle⟩ := hm.grows h1
    obtain ⟨hsb', hle'⟩ := (hf a f [] h1).grows h2
    exact ⟨hsb'.trans hsb, hle.trans hle'⟩
  · obtain ⟨⟨a, s₁⟩, h1, h2⟩ := bind_eq_ok.1 hrun
    obtain ⟨f, ops, hm1, rfl, hle, hops⟩ := hm.sound hsb h1
    obtain ⟨g, ops', hm2, rfl, hle', hops'⟩ :=
      (hf a f ops hm1).sound ((hm.grows hm1).1.trans hsb) h2
    exact ⟨g, ops', bind_eq_ok.2 ⟨(a, f), hm1, hm2⟩, rfl, hle'.trans (max_le (le_max_left ..) hle),
      fun hw => (hops' hw).trans (hops hw)⟩
  · rcases bind_eq_error.1 hrun with h1 | ⟨⟨a, s₁⟩, h1, h2⟩
    · exact (hm.stops hsb h1).imp_left fun hm1 => bind_eq_error.2 (.inl hm1)
    · obtain ⟨f, ops, hm1, rfl, -⟩ := hm.sound hsb h1
      exact ((hf a f ops hm1).stops ((hm.grows hm1).1.trans hsb) h2).imp_left fun hm2 =>
        bind_eq_error.2 (.inr ⟨_, hm1, hm2⟩)
  · obtain ⟨⟨a, f⟩, h1, h2⟩ := bind_eq_ok.1 hrun
    have hle := ((hf a f [] h1).grows h2).2
    obtain ⟨s₁, hn1⟩ := hm.complete hsb h1 (hle.trans_lt hlt)
    obtain ⟨f', ops, hm1, rfl, -⟩ := hm.sound hsb hn1
    obtain ⟨-, rfl⟩ := Prod.mk.inj (Except.ok.inj (h1.symm.trans hm1))
    obtain ⟨s', hn2⟩ := (hf a f ops h1).complete ((hm.grows h1).1.trans hsb) h2 hlt
    exact ⟨s', bind_eq_ok.2 ⟨_, hn1, hn2⟩⟩

/-- A routine that returns on the terms of a simulation. -/
theorem Sim.sat {a : α} {f : State} (h : Sim c s m n B) (hsb : s.fs.sb = c.sb)
    (hm : m s.fs = .ok (a, f)) (hlt : f.log.length < c.bound) :
    Sat (fun _ => False) n s fun b s' => b = a ∧ ∃ ops, s' = s.put f B ops ∧
      (c.writes = false → ops = s.ops) := by
  obtain ⟨s', hn⟩ := h.complete hsb hm hlt
  obtain ⟨f', ops, hm', rfl, -, hops⟩ := h.sound hsb hn
  obtain ⟨-, rfl⟩ := Prod.mk.inj (Except.ok.inj (hm.symm.trans hm'))
  rw [Sat, hn]
  exact ⟨rfl, ops, rfl, hops⟩

/-- Both routines return in the same case, and nothing is logged. -/
theorem Sim.of_sat {p : Prop} {x : Stop} {a : α} {f : State}
    (hm : Sat (fun err => ¬ p ∧ err = x) m s.fs fun b g => p ∧ b = a ∧ g = f)
    (hn : Sat (fun err => ¬ p ∧ err = x) n s fun b s' => p ∧ b = a ∧ s' = s.put f B s.ops)
    (hsb : f.sb = s.fs.sb) (hlog : f.log = s.fs.log) : Sim c s m n B := by
  have hret (hp : p) := eq_ok_of_sat (hm.mono (fun _ hno => hno.1 hp) fun _ _ h => h.2)
  refine ⟨fun hrun => ?_, fun _ b s' hrun => ?_, fun _ err hrun => ?_, fun _ b g hrun _ => ?_⟩
  · obtain ⟨-, -, rfl⟩ := hm.of_ok hrun
    exact ⟨hsb, hlog ▸ le_rfl⟩
  · obtain ⟨hp, rfl, rfl⟩ := hn.of_ok hrun
    exact ⟨f, s.ops, hret hp, rfl, hlog ▸ le_max_right .., fun _ => rfl⟩
  · obtain ⟨hno, rfl⟩ := hn.of_error hrun
    cases hrun' : m s.fs with
    | ok r => exact absurd (hm.of_ok hrun').1 hno
    | error err => rw [(hm.of_error hrun').2]; exact .inl rfl
  · obtain ⟨hp, rfl, -⟩ := hm.of_ok hrun
    exact ⟨_, eq_ok_of_sat (hn.mono (fun _ hno => hno.1 hp) fun _ _ h => h.2)⟩

/-- Both routines stop. -/
theorem Sim.of_error {x : Stop} (hm : m s.fs = .error x) (hn : n s = .error x) :
    Sim c s m n B := by
  refine ⟨fun hrun => ?_, fun _ _ _ hrun => ?_, fun _ _ hrun => ?_, fun _ _ _ hrun => ?_⟩
  · cases hm.symm.trans hrun
  · cases hn.symm.trans hrun
  · cases hn.symm.trans hrun
    exact .inl hm
  · cases hm.symm.trans hrun

theorem Sim.pure (a : α) : Sim c s (pure a) (pure a) s.bufs :=
  .of_sat (x := .diverge) ⟨trivial, rfl, rfl⟩ ⟨trivial, rfl, rfl⟩ rfl rfl

theorem Sim.fsState_bind {m' : State → FsM β} {n' : State → TxM β}
    (h : Sim c s (m' s.fs) (n' s.fs) B) : Sim c s (fsState >>= m') (fsState >>= n') B :=
  ⟨h.grows, h.sound, h.stops, h.complete⟩

theorem Sim.ite {p : Prop} [Decidable p] {m₁ : FsM α} {n₁ : TxM α} (ht : p → Sim c s m n B)
    (hf : ¬ p → Sim c s m₁ n₁ B) :
    Sim c s (if p then m else m₁) (if p then n else n₁) B := by
  split
  · exact ht ‹_›
  · exact hf ‹_›

end

/-! ## Buffers and the log -/

section
variable {c : Terms} {s : Sys} {b off : Nat} {e : Fin NINODE} {src : List UInt8}

theorem sim_modifyInode (g : Inode → Inode) :
    Sim c s (modifyInode e g) (modifyInode e g) s.bufs :=
  .of_sat (x := .diverge) ⟨trivial, rfl, rfl⟩ ⟨trivial, rfl, rfl⟩ rfl rfl

theorem bread_spec (f : State) :
    Sat (fun err => ¬ b < FSSIZE ∧ err = .panic "incorrect blockno") (Fs.bread b) f fun x g =>
      b < FSSIZE ∧ x = f.disk b ∧ g = f :=
  sat_panicIf_bind.2 ⟨fun h => ⟨Nat.not_lt.2 h, rfl⟩, fun h => ⟨Nat.not_le.1 h, rfl, rfl⟩⟩

theorem sim_bread (hb : b ∉ s.bufs) : Sim c s (Fs.bread b) (Fs.bread b) (b :: s.bufs) := by
  refine .of_sat (bread_spec s.fs) ?_ rfl rfl
  show Sat _ (bread b) s _
  rw [bread, sat_get_bind, if_neg hb, sat_bind, onFs, sat_zoom]
  refine (bread_spec s.fs).weaken ?_
  rintro _ _ ⟨hlt, rfl, rfl⟩
  exact ⟨hlt, rfl, rfl⟩

/-- `brelse` has no counterpart on the disk alone. -/
theorem sim_brelse {B : List Nat} (hb : s.bufs = b :: B) :
    Sim c s (Fs.brelse b) (Fs.brelse b) B := by
  refine .of_sat (p := True) (f := s.fs) (x := .diverge) ⟨trivial, rfl, rfl⟩ ?_ rfl rfl
  show Sat _ (brelse b) s _
  rw [brelse, sat_get_bind, sat_panicIf_bind]
  refine ⟨fun hno => absurd (hb ▸ mem_cons_self) hno, fun _ => ⟨trivial, rfl, ?_⟩⟩
  have herase : s.bufs.erase b = B := by rw [hb, erase_cons_head]
  exact congrArg (s.put s.fs · s.ops) herase

/-- In a transaction, `log_write` returns exactly if the header of the log is not full. -/
theorem sat_logWrite (x : Block) (hout : 1 ≤ s.outstanding) :
    Sat (fun err => ¬ s.fs.log.length < logLimit s.fs.sb ∧ err = .panic "too big a transaction")
      (Fs.logWrite b x) s fun _ s' =>
      s.fs.log.length < logLimit s.fs.sb ∧
        s' = s.put (s.fs.write b x) s.bufs (s.ops ++ [.logWrite b]) := by
  show Sat _ (logWrite b x) s _
  rw [logWrite, sat_get_bind, sat_panicIf_bind, logLimit]
  refine ⟨fun hfull => ⟨by omega, rfl⟩, fun hroom => ?_⟩
  rw [sat_panicIf_bind]
  exact ⟨fun hno => absurd hno (by omega), fun _ => ⟨by omega, rfl⟩⟩

theorem length_absorb (log : List Nat) (b : Nat) :
    log.length ≤ (absorb log b).length ∧ (absorb log b).length ≤ log.length + 1 := by
  unfold absorb
  split
  · exact ⟨le_rfl, Nat.le_succ _⟩
  · rw [length_append]
    exact ⟨Nat.le_succ _, le_rfl⟩

/-- In a transaction, a routine may write when it counts on a log that is not full at the end, or when
the log is not full yet. -/
theorem sim_logWrite (x : Block) (hw : 1 ≤ s.outstanding ∧ c.writes = true)
    (hc : c.bound ≤ logLimit c.sb ∨ s.fs.log.length < logLimit c.sb) :
    Sim c s (Fs.logWrite b x) (Fs.logWrite b x) s.bufs := by
  obtain ⟨hle, hle'⟩ := length_absorb s.fs.log b
  refine ⟨fun hrun => ?_, fun hsb a s' hrun => ?_, fun _ err hrun => ?_, fun hsb a f hrun hlt => ?_⟩
  · cases hrun
    exact ⟨rfl, hle⟩
  · obtain ⟨hlen, rfl⟩ := (sat_logWrite x hw.1).of_ok hrun
    rw [hsb] at hlen
    refine ⟨_, _, rfl, rfl, le_max_of_le_left (hle'.trans hlen), fun hno => ?_⟩
    exact absurd (hw.2.symm.trans hno) (by decide)
  · exact .inr ((sat_logWrite x hw.1).of_error hrun).2
  · cases hrun
    have hlen : s.fs.log.length < logLimit s.fs.sb := by
      rw [hsb]
      exact hc.elim (fun hc => (hle.trans_lt hlt).trans_le hc) id
    obtain ⟨_, s', hrun', -⟩ :=
      ((sat_logWrite x hw.1).mono (fun _ hno => hno.1 hlen) fun _ _ h => h).returns
    exact ⟨s', hrun'⟩

/-! ## Blocks -/

/-- A routine may write, on terms that leave the log with room. -/
def MayWrite (c : Terms) (s : Sys) : Prop :=
  (1 ≤ s.outstanding ∧ c.writes = true) ∧ c.bound ≤ logLimit c.sb

section
variable (hw : MayWrite c s)
include hw

theorem sim_bzero (hb : b ∉ s.bufs) : Sim c s (bzero b) (bzero b) s.bufs :=
  .bind (sim_bread hb) fun _ _ _ _ => .bind (sim_logWrite _ hw.1 (.inl hw.2)) fun _ _ _ _ =>
    sim_brelse rfl

omit hw in
/-- A turn of the loop of `balloc` past the end of the disk. -/
theorem sim_ballocFrom_end {k : Nat} (hb : s.fs.sb.size ≤ b) :
    Sim c s (ballocFrom (k + 1) b) (ballocFrom (k + 1) b) s.bufs :=
  .fsState_bind (.ite (fun hlt => absurd hlt (Nat.not_lt.2 hb)) fun _ => .of_error rfl rfl)

/-- `balloc` does not wait for buffers of blocks that are in use. -/
theorem sim_balloc (hok : s.fs.sb.Ok) (hbufs : ∀ x ∈ s.bufs, s.fs.sb.bmapstart < x ∧
    (s.fs.disk s.fs.sb.bmapstart).bit x = true) : Sim c s balloc balloc s.bufs := by
  have hsize : s.fs.sb.size ≤ 0 + BPB := hok.size.trans (by decide)
  refine .fsState_bind (.fsState_bind (.ite (fun hpos => ?_) fun _ => .of_error rfl rfl))
  have hmap : BBLOCK 0 s.fs.sb = s.fs.sb.bmapstart := hok.bblock_eq hpos
  rw [hmap]
  refine .bind (sim_bread fun hmem => (hbufs _ hmem).1.ne rfl) fun bp f ops hrun => ?_
  obtain ⟨-, rfl, rfl⟩ := (bread_spec s.fs).of_ok hrun
  cases hfind : (List.range (min BPB (s.fs.sb.size - 0))).find?
      fun bi => !(s.fs.disk s.fs.sb.bmapstart).bit bi with
  | some bi =>
    refine .bind (sim_logWrite _ hw.1 (.inl hw.2)) fun _ _ _ _ => .bind (sim_brelse rfl)
      fun _ _ _ _ => .bind (sim_bzero hw fun hmem => ?_) fun _ _ _ _ => .pure _
    have hbit := (find?_range_eq_some.1 hfind).1
    rw [Nat.zero_add] at hmem
    rw [(hbufs bi hmem).2] at hbit
    cases hbit
  | none =>
    refine .bind (sim_brelse rfl) fun _ f _ hrun => sim_ballocFrom_end ?_
    cases hrun
    exact hsize

end

/-! ## Blocks of a file -/

theorem sim_bmapAddr (k : Fin (NDIRECT + 1)) (hok : s.fs.sb.Ok) (hbufs : s.bufs = [])
    (hw : (s.fs.icache e).addrs k = 0 → MayWrite c s) :
    Sim c s (bmapAddr e k) (bmapAddr e k) s.bufs := by
  refine .fsState_bind (.ite (fun h0 => ?_) fun _ => .pure _)
  refine .bind (sim_balloc (hw h0) hok fun x hx => ?_) fun _ _ _ _ => .bind (sim_modifyInode _)
    fun _ _ _ _ => .pure _
  rw [hbufs] at hx
  cases hx

section
variable (h : (s.fs.flux e).Inv) (ht : (s.fs.icache e).type ≠ 0) (hbufs : s.bufs = [])
include h ht hbufs

/-- While `balloc` looks for a block, the indirect block is held. -/
theorem sim_bmapIndirect (j : Fin NINDIRECT)
    (hw : (s.fs.flux e).own ((s.fs.icache e).inum, .entry j) = 0 → MayWrite c s) :
    Sim c s (bmapIndirect e j.val) (bmapIndirect e j.val) s.bufs := by
  have hown := State.own_addrSlot ht (Fin.last NDIRECT)
  have hspec := bmapAddr_spec h ht (Fin.last NDIRECT)
  rw [addrSlot_last] at hown hspec
  refine .bind (sim_bmapAddr _ h.ok hbufs fun h0 => hw (Store.own_entry_of_none ?_))
    fun a f ops hrun => ?_
  · rw [hown, h0]
    rfl
  obtain ⟨hfill, hinv, ha, -⟩ := hspec.of_ok hrun
  have harea := hinv.area _ hfill.filled
  rw [← ha] at harea
  refine .bind (sim_bread (by rw [Sys.put, hbufs]; exact not_mem_nil)) fun bp g ops' hread => ?_
  obtain ⟨-, rfl, rfl⟩ := (bread_spec f).of_ok hread
  refine .ite (fun h0 => ?_) fun _ => .bind (sim_brelse rfl) fun _ _ _ _ => .pure _
  have hfree : (s.fs.flux e).own ((s.fs.icache e).inum, .entry j) = 0 := by
    rw [← hfill.other _ (by simp), Store.own_entry hfill.filled, ← ha]
    exact u32_toNat_eq_zero.2 h0
  have hw := hw hfree
  refine .bind (sim_balloc hw hinv.ok fun x hx => ?_) fun _ _ _ _ =>
    .bind (sim_logWrite _ hw.1 (.inl hw.2)) fun _ _ _ _ => .bind (sim_brelse rfl) fun _ _ _ _ => .pure _
  obtain rfl : x = a := by
    rw [Sys.put, Sys.put, hbufs] at hx
    exact mem_singleton.1 hx
  exact ⟨lt_of_lt_of_le hinv.ok.bmapstart harea.1,
    (hinv.bitmap x harea.2).2 (.inr ⟨ha ▸ hfill.filled, _, ha.symm⟩)⟩

/-- `bmap` writes only when it has to allocate the block. -/
theorem sim_bmap {bn : Nat} (hmax : bn < MAXFILE)
    (hw : (s.fs.flux e).own ((s.fs.icache e).inum, slotOf bn) = 0 → MayWrite c s) :
    Sim c s (bmap e bn) (bmap e bn) s.bufs := by
  refine .ite (fun hlt => ?_) fun hge => .ite (fun hlt => ?_) fun _ => .of_error rfl rfl
  · refine sim_bmapAddr _ h.ok hbufs fun h0 => hw ?_
    rw [← addrSlot_ofNat hlt, State.own_addrSlot ht, h0]
    rfl
  · rw [slotOf_of_le (by omega) hmax] at hw
    exact sim_bmapIndirect h ht hbufs ⟨bn - NDIRECT, hlt⟩ hw

/-! ## Reading and writing -/

/-- One turn of the loop of `writei`. A block that is mapped takes one place in the log. -/
theorem sim_writeiChunk (hmax : off / BSIZE < MAXFILE) (hw : 1 ≤ s.outstanding ∧ c.writes = true)
    (hc : c.bound ≤ logLimit c.sb ∨
      (s.fs.flux e).own ((s.fs.icache e).inum, slotOf (off / BSIZE)) ≠ 0 ∧
        s.fs.log.length < logLimit c.sb) :
    Sim c s (writeiChunk e off src) (writeiChunk e off src) s.bufs := by
  refine .bind (sim_bmap h ht hbufs hmax fun h0 => ⟨hw, hc.resolve_right fun hr => hr.1 h0⟩)
    fun b f ops hrun => ?_
  refine .bind (sim_bread (by rw [Sys.put, hbufs]; exact not_mem_nil)) fun bp g ops' hread => ?_
  obtain ⟨-, rfl, rfl⟩ := (bread_spec f).of_ok hread
  refine .bind (sim_logWrite _ hw (hc.imp_right fun hr => ?_)) fun _ _ _ _ => sim_brelse rfl
  obtain ⟨rfl, -⟩ := (bmap_mapped (E := fun _ => True) h hmax hr.1).of_ok hrun
  exact hr.2

end

/-- Changing an inode and writing it back, with one block logged. -/
theorem sim_updateInode {g : Inode → Inode} (hbufs : s.bufs = [])
    (hw : 1 ≤ s.outstanding ∧ c.writes = true)
    (hc : c.bound ≤ logLimit c.sb ∨ s.fs.log.length < logLimit c.sb) :
    Sim c s (updateInode e g) (updateInode e g) s.bufs := by
  refine .bind (sim_modifyInode g) fun _ f _ hrun => .fsState_bind ?_
  cases hrun
  refine .bind (sim_bread (by rw [Sys.put, hbufs]; exact not_mem_nil)) fun bp f _ hread => ?_
  obtain ⟨-, rfl, rfl⟩ := (bread_spec _).of_ok hread
  exact .bind (sim_logWrite _ hw hc) fun _ _ _ _ => sim_brelse rfl

/-- A turn of the loop of `writei` on a mapped block logs one block. -/
theorem writeiChunk_logs {f : State} (h : (f.flux e).Inv) (hmax : off / BSIZE < MAXFILE)
    (hown : (f.flux e).own ((f.icache e).inum, slotOf (off / BSIZE)) ≠ 0) :
    Sat (fun _ => True) (writeiChunk e off src) f fun _ g => g.log.length ≤ f.log.length + 1 := by
  refine (bmap_mapped h hmax hown).bind ?_
  rintro b _ ⟨rfl, -⟩
  rw [sat_bread_bind_iff]
  exact ⟨fun _ => trivial, fun _ => (length_absorb ..).2⟩

/-- The loop of `writei`, on a log that it leaves with room, or on mapped blocks that all find a place
in the log. -/
theorem sim_writeiLoop {nb : Nat → Nat} {k : Nat}
    (h : Writable s.fs e nb off src) (hbufs : s.bufs = []) (hk : src.length ≤ k)
    (hw : 1 ≤ s.outstanding ∧ c.writes = true)
    (hc : c.bound ≤ logLimit c.sb ∨ blocksFor (off + src.length) ≤ nb (s.fs.icache e).inum ∧
      s.fs.log.length + dataBlocks off src.length ≤ logLimit c.sb) :
    Sim c s (writeiLoop e k off src) (writeiLoop e k off src) s.bufs := by
  induction k generalizing s off nb src with
  | zero =>
    obtain rfl : src = [] := length_eq_zero_iff.1 (by omega)
    rw [writeiLoop, writeiLoop]
    exact .pure _
  | succ k ih =>
    rcases Nat.eq_zero_or_pos src.length with hnil | hpos
    · obtain rfl := length_eq_zero_iff.1 hnil
      rw [writeiLoop, writeiLoop]
      exact .pure _
    rw [writeiLoop_succ k hpos, writeiLoop_succ k hpos]
    have hfits := h.fits
    have hmax : off / BSIZE < MAXFILE := div_lt_maxfile (by omega)
    have hm := @turn_pos off src.length hpos
    have hle : turn off src.length ≤ src.length := Nat.min_le_left ..
    have hdata : dataBlocks off src.length = 1 +
        dataBlocks (off + turn off src.length) (src.length - turn off src.length) :=
      dataBlocks_turn hpos
    -- every byte goes into a mapped block
    have hown (hin : blocksFor (off + src.length) ≤ nb (s.fs.icache e).inum) :
        (s.fs.flux e).own ((s.fs.icache e).inum, slotOf (off / BSIZE)) ≠ 0 := by
      have ht : ((s.fs.flux e).node (s.fs.icache e).inum).type ≠ 0 := by
        rw [State.flux_node]
        exact h.type
      rw [h.mapped _ ht, first_slotOf hmax]
      simp only [blocksFor, BSIZE] at hin ⊢
      omega
    refine .bind (sim_writeiChunk h.inv h.type hbufs hmax hw (hc.imp_right fun hr =>
      ⟨hown hr.1, by omega⟩)) fun _ f ops hrun => ?_
    obtain ⟨hwrote, hnext⟩ := (h.chunk hpos rfl).of_ok hrun
    refine ih hnext hbufs (by rw [length_drop]; omega) hw (hc.imp_right fun hr => ⟨?_, ?_⟩)
    · rw [length_drop, show (s.put f s.bufs ops).fs = f from rfl, hwrote.touch.inum,
        Function.update_self]
      refine le_max_of_le_left ((blocksFor_mono ?_).trans hr.1)
      omega
    · have hlen := (writeiChunk_logs h.inv hmax (hown hr.1)).of_ok hrun
      rw [length_drop]
      have hlog : (s.put f s.bufs ops).fs.log.length ≤ s.fs.log.length + 1 := hlen
      omega

/-- The loop of `readi` needs no log. -/
theorem sim_readiLoop (h : s.fs.Inv) (hl : s.fs.Loaded e) (hbufs : s.bufs = []) {k n : Nat}
    (hn : off + n ≤ (s.fs.icache e).size.toNat) :
    Sim c s (readiLoop e k off n) (readiLoop e k off n) s.bufs := by
  induction k generalizing s off n with
  | zero =>
    cases n with
    | zero => exact .pure _
    | succ n => exact .of_error rfl rfl
  | succ k ih =>
    cases n with
    | zero => exact .pure _
    | succ n =>
      have hlt : off < (s.fs.store.node (s.fs.icache e).inum).size.toNat := by
        rw [h.node_eq hl]
        omega
      obtain ⟨hmax, hown⟩ := h.store.own_ne_zero (h.node_type_ne hl) hlt
      have hflux := h.flux_eq hl
      rw [← hflux] at hown
      have hinv : (s.fs.flux e).Inv := hflux ▸ h.store.inv
      refine .bind (sim_bmap hinv (h.type_ne hl) hbufs (div_lt_maxfile hmax) fun h0 =>
        absurd h0 hown) fun b f ops hrun => ?_
      obtain ⟨rfl, -⟩ :=
        (bmap_mapped (E := fun _ => True) hinv (div_lt_maxfile hmax) hown).of_ok hrun
      refine .bind (sim_bread (by rw [Sys.put, hbufs]; exact not_mem_nil))
        fun bp g ops' hread => ?_
      obtain ⟨-, rfl, rfl⟩ := (bread_spec _).of_ok hread
      refine .bind (sim_brelse rfl) fun _ g _ hrel => ?_
      cases hrel
      refine .bind (ih ?_ ?_ ?_ ?_) fun _ _ _ _ => .pure _
      exacts [h, hl, hbufs, (show off + _ + _ ≤ (s.fs.icache e).size.toNat by omega)]

end

end TronBoss.Txn
