import Mathlib.Order.Interval.Finset.Nat
import TronBoss.Fs.FileSpec

/-!
# Writing files

The specification of `writei`, which replaces bytes of the contents of a file. While it runs, block
numbers may be in the cache only; since files have no holes this happens only when the file grows,
and then `iupdate` follows. What a write costs is part of the specification: the blocks that the file
gets, and the blocks that are logged.
-/

namespace TronBoss.Fs

open Lib Function List

/-- The blocks that a write of `n` bytes at `off` logs when `nb` blocks of the file are mapped, apart
from its inode: those with the bytes and, when the file gets a new block, the free map and the indirect
block if the file then has one. -/
def Store.writeLog (st : Store) (i nb off n : Nat) : Set Nat :=
  {b | (∃ x, off ≤ x ∧ x < off + n ∧ b = st.own (i, slotOf (x / BSIZE))) ∨
    nb < blocksFor (off + n) ∧
      (b = st.sb.bmapstart ∨ NDIRECT < blocksFor (off + n) ∧ b = st.own (i, .indirect))}

/-- The blocks that the file gets when a write ends at `stop`. -/
def growth (nb stop : Nat) : Nat := slots (max nb (blocksFor stop)) - slots nb

/-- From `s` to `s'`, bytes were written to the file of entry `e`, of which `nb` says how many blocks
were mapped. Where that was enough the entry did not change. -/
structure Wrote (s s' : State) (e : Fin NINODE) (nb : Nat → Nat) (off : Nat) (src : List UInt8) :
    Prop where
  inv : (s'.flux e).Inv
  mapped : (s'.flux e).Mapped (update nb (s.icache e).inum
    (max (nb (s.icache e).inum) (blocksFor (off + src.length))))
  upd : (s.flux e).Upd (s'.flux e) (s.icache e).inum off src
  touch : Touch s s' e
  same : blocksFor (off + src.length) ≤ nb (s.icache e).inum → s'.icache e = s.icache e
  spent : Spent s s' (growth (nb (s.icache e).inum) (off + src.length))
    ((s'.flux e).writeLog (s.icache e).inum (nb (s.icache e).inum) off src.length)

section
variable {s s₁ s' : State} {e : Fin NINODE} {nb : Nat → Nat} {off : Nat} {src : List UInt8}
  {E : Stop → Prop}

/-- Writing nothing. -/
theorem Wrote.nil (h : (s.flux e).Inv) (hm : (s.flux e).Mapped nb)
    (hoff : off ≤ BSIZE * nb (s.icache e).inum) : Wrote s s e nb off [] := by
  have hle : blocksFor (off + [].length (α := UInt8)) ≤ nb (s.icache e).inum := by
    simp only [blocksFor, BSIZE, length_nil] at hoff ⊢
    omega
  refine ⟨h, ?_, .refl .., .refl .., fun _ => rfl, (Spent.refl s).congr ?_ ?_⟩
  · rw [max_eq_left hle, update_eq_self]
    exact hm
  · rw [growth, max_eq_left hle, Nat.sub_self]
  · refine (Set.eq_empty_of_forall_notMem fun b hb => ?_).symm
    rcases hb with ⟨x, hx, hx', -⟩ | ⟨hlt, -⟩
    · exact absurd hx' (Nat.not_lt.2 hx)
    · exact absurd hlt (Nat.not_lt.2 hle)

/-- The blocks that are logged for some bytes and for the next ones. -/
theorem Store.writeLog_union {st st' : Store} {i nb n m : Nat} (hsb : st'.sb = st.sb)
    (hdata : ∀ x, off ≤ x → x < off + n →
      st'.own (i, slotOf (x / BSIZE)) = st.own (i, slotOf (x / BSIZE)))
    (hind : nb < blocksFor (off + n) → NDIRECT < blocksFor (off + n) →
      st'.own (i, .indirect) = st.own (i, .indirect)) :
    st.writeLog i nb off n ∪ st'.writeLog i (max nb (blocksFor (off + n))) (off + n) m =
      st'.writeLog i nb off (n + m) := by
  have hmono : blocksFor (off + n) ≤ blocksFor (off + n + m) := blocksFor_mono (Nat.le_add_right ..)
  ext b
  simp only [writeLog, Set.mem_union, Set.mem_ofPred_eq, ← Nat.add_assoc]
  constructor
  · rintro ((⟨x, hx, hx', rfl⟩ | ⟨hlt, hb⟩) | ⟨x, hx, hx', rfl⟩ | ⟨hlt, hb⟩)
    · exact .inl ⟨x, hx, by omega, (hdata x hx hx').symm⟩
    · refine .inr ⟨lt_of_lt_of_le hlt hmono, hb.imp (fun hb => hb.trans (by rw [hsb])) ?_⟩
      rintro ⟨hge, rfl⟩
      exact ⟨lt_of_lt_of_le hge hmono, (hind hlt hge).symm⟩
    · exact .inl ⟨x, by omega, hx', rfl⟩
    · exact .inr ⟨lt_of_le_of_lt (le_max_left ..) hlt, hb⟩
  · rintro (⟨x, hx, hx', rfl⟩ | ⟨hlt, hb⟩)
    · rcases Nat.lt_or_ge x (off + n) with hlt | hge
      · exact .inl (.inl ⟨x, hx, hlt, hdata x hx hlt⟩)
      · exact .inr (.inl ⟨x, hge, hx', rfl⟩)
    · rcases Nat.lt_or_ge (max nb (blocksFor (off + n))) (blocksFor (off + n + m)) with hnew | hold
      · exact .inr (.inr ⟨hnew, hb⟩)
      · have heq : blocksFor (off + n) = blocksFor (off + n + m) := by omega
        rw [← heq] at hlt hb
        refine .inl (.inr ⟨hlt, hb.imp (fun hb => hb.trans (by rw [hsb])) ?_⟩)
        rintro ⟨hge, rfl⟩
        exact ⟨hge, hind hlt hge⟩

theorem growth_mono {nb stop stop' : Nat} (h : stop ≤ stop') : growth nb stop ≤ growth nb stop' :=
  Nat.sub_le_sub_right (slots_mono (max_le_max_left nb (blocksFor_mono h))) _

/-- The blocks that two writes in a row add are those of both at once. -/
theorem growth_add {nb stop stop' : Nat} (h : stop ≤ stop') :
    growth nb stop + growth (max nb (blocksFor stop)) stop' = growth nb stop' := by
  have hmono := blocksFor_mono h
  have hle : slots nb ≤ slots (max nb (blocksFor stop)) := slots_mono (le_max_left ..)
  have hle' : slots (max nb (blocksFor stop)) ≤ slots (max nb (blocksFor stop')) :=
    slots_mono (max_le_max_left nb hmono)
  unfold growth
  rw [max_assoc, max_eq_right hmono]
  omega

/-- Writing some bytes and then the next ones. -/
theorem Wrote.append {more : List UInt8} (h : Wrote s s₁ e nb off src)
    (h' : Wrote s₁ s' e (update nb (s.icache e).inum
      (max (nb (s.icache e).inum) (blocksFor (off + src.length)))) (off + src.length) more)
    (ht : (s.icache e).type ≠ 0) (hmax : off + src.length ≤ MAXFILE * BSIZE) :
    Wrote s s' e nb off (src ++ more) := by
  have hi := h.touch.inum
  have ht1 : ((s₁.flux e).node (s.icache e).inum).type ≠ 0 := by
    rw [← hi, State.flux_node]
    exact h.touch.type ▸ ht
  have hmono : blocksFor (off + src.length) ≤ blocksFor (off + src.length + more.length) :=
    blocksFor_mono (Nat.le_add_right ..)
  have hmapped := h'.mapped
  have hupd := h'.upd
  have hsame := h'.same
  have hspent := h'.spent
  rw [hi, update_self] at hsame hmapped hspent
  rw [update_idem] at hmapped
  rw [hi] at hupd
  refine ⟨h'.inv, ?_, h.upd.append hupd fun x _ hx => by omega, h.touch.trans h'.touch,
    fun hle => ?_, ?_⟩
  · rw [length_append, ← Nat.add_assoc]
    rwa [max_assoc, max_eq_right hmono] at hmapped
  · rw [length_append, ← Nat.add_assoc] at hle
    rw [hsame (le_max_of_le_left hle), h.same (hmono.trans hle)]
  · rw [length_append]
    refine (h.spent.trans hspent).congr ?_ (Store.writeLog_union h'.touch.sb ?_ ?_)
    · rw [← Nat.add_assoc]
      exact growth_add (Nat.le_add_right ..)
    · exact fun x hx hx' => hupd.keep _ (h.upd.written x hx hx').1
    · refine fun hlt hge => hupd.keep _ ?_
      rw [h.mapped _ ht1, update_self]
      exact lt_max_of_lt_right hge

/-- One turn of the loop of `writei`. -/
theorem writeiChunk_spec (h : (s.flux e).Inv) (hm : (s.flux e).Mapped nb)
    (ht : (s.icache e).type ≠ 0) (hoff : off / BSIZE ≤ nb (s.icache e).inum)
    (hmax : off / BSIZE < MAXFILE) (hpos : 0 < src.length)
    (hfit : off % BSIZE + src.length ≤ BSIZE) :
    Sat (OutOfBlocks s (growth (nb (s.icache e).inum) (off + src.length))) (writeiChunk e off src) s
      fun _ s' => Wrote s s' e nb off src := by
  have hblocks : blocksFor (off + src.length) = off / BSIZE + 1 := by
    simp only [blocksFor, BSIZE] at hfit ⊢
    omega
  have hgrowth : growth (nb (s.icache e).inum) (off + src.length) =
      slots (max (nb (s.icache e).inum) (off / BSIZE + 1)) - slots (nb (s.icache e).inum) := by
    rw [growth, hblocks]
  rw [hgrowth]
  refine (bmap_spec h hm ht hoff hmax off).bind fun b s₁ hs1 => ?_
  obtain ⟨hinv, hmap, hupd, hb, hb0, htouch, hsame, hspent⟩ := hs1
  have harea := hinv.area _ (hb ▸ hb0)
  rw [← hb] at harea
  have hok : s₁.sb.Ok := hinv.ok
  have hle : s₁.sb.bmapstart ≤ b := le_trans hok.bmapstart.le harea.1
  rw [sat_bread_bind (lt_of_lt_of_le harea.2 hok.size), sat_logWrite_bind, sat_brelse]
  have hflux := State.flux_write (e := e) (c := (s₁.disk b).write (off % BSIZE) src) hok hle
  refine ⟨hflux ▸ hinv.write_data hb hb0, ?_, ?_,
    htouch.trans ⟨rfl, State.node_write hok hle, rfl, fun _ _ => rfl, rfl⟩, fun hlt => ?_, ?_⟩
  · rw [hflux, hblocks]
    exact hmap.congr (fun _ => rfl) (hinv.own_write_data hb)
  · rw [hflux]
    exact hupd.append (hinv.upd_write hb hb0 hfit hmax)
      fun x _ hx => absurd hx (by rw [length_nil]; omega)
  · rw [hsame (by omega)]
    rfl
  · have hlogged := spent_write (c := (s₁.disk b).write (off % BSIZE) src) hok
      (show Bitmap s₁.sb s₁.disk (held (s₁.flux e).own) from hinv.bitmap)
      (ne_of_gt (lt_of_lt_of_le hok.bmapstart harea.1))
    rw [hgrowth, hflux]
    refine (hspent.trans hlogged).congr rfl (Set.ext fun y => ?_)
    have hbytes : (∃ x, off ≤ x ∧ x < off + src.length ∧
        y = (s₁.flux e).own ((s.icache e).inum, slotOf (x / BSIZE))) ↔ y = b := by
      constructor
      · rintro ⟨x, hx, hx', rfl⟩
        rw [(div_mod_of_fit hfit hx hx').1, ← hb]
      · exact fun hy => ⟨off, le_rfl, by omega, hy.trans hb⟩
    simp only [Store.writeLog, Store.mapLog, Set.mem_union, Set.mem_ofPred_eq,
      Set.mem_singleton_iff, hinv.own_write_data hb, hblocks, hbytes, ← hb, Nat.lt_succ_iff]
    constructor
    · rintro (⟨hle, hy | hy | hy⟩ | hy)
      · exact .inr ⟨hle, .inl hy⟩
      · exact .inl hy
      · exact .inr ⟨hle, .inr hy⟩
      · exact .inl hy
    · rintro (hy | ⟨hle, hy | hy⟩)
      · exact .inr hy
      · exact .inl ⟨hle, .inl hy⟩
      · exact .inl ⟨hle, .inr (.inr hy)⟩

/-- The loop of `writei` can go on: the next byte goes into a mapped block or right after the last
one, and the last byte into the largest file. -/
structure Writable (s : State) (e : Fin NINODE) (nb : Nat → Nat) (off : Nat) (src : List UInt8) :
    Prop where
  inv : (s.flux e).Inv
  mapped : (s.flux e).Mapped nb
  type : (s.icache e).type ≠ 0
  start : off ≤ BSIZE * nb (s.icache e).inum
  fits : off + src.length ≤ MAXFILE * BSIZE

/-- The number of bytes in one turn of the loop of `writei`. -/
def turn (off n : Nat) : Nat := min n (BSIZE - off % BSIZE)

theorem turn_pos {n : Nat} (hpos : 0 < n) : 0 < turn off n := by
  have hmod : off % BSIZE < BSIZE := Nat.mod_lt _ (by decide)
  rw [turn]
  omega

/-- One turn of the loop, after which it can go on. -/
theorem Writable.chunk (h : Writable s e nb off src) (hpos : 0 < src.length) {m : Nat}
    (hm : turn off src.length = m) :
    Sat (OutOfBlocks s (growth (nb (s.icache e).inum) (off + m))) (writeiChunk e off (src.take m)) s
      fun _ s' => Wrote s s' e nb off (src.take m) ∧
        Writable s' e (update nb (s.icache e).inum
          (max (nb (s.icache e).inum) (blocksFor (off + m)))) (off + m) (src.drop m) := by
  have hmod : off % BSIZE < BSIZE := Nat.mod_lt _ (by decide)
  have hoff := h.start
  have hmax := h.fits
  rw [turn] at hm
  have htake : (src.take m).length = m := by
    rw [length_take]
    omega
  have hbn : off / BSIZE ≤ nb (s.icache e).inum := by
    simp only [BSIZE] at hoff ⊢
    omega
  have hchunk := @writeiChunk_spec s e nb off (src.take m) h.inv h.mapped h.type hbn
    (div_lt_maxfile (by omega)) (by omega) (by omega)
  rw [htake] at hchunk
  refine hchunk.weaken fun _ s₁ hs1 => ⟨hs1, hs1.inv, ?_, hs1.touch.type ▸ h.type, ?_, ?_⟩
  · have hmapped := hs1.mapped
    rwa [htake] at hmapped
  · have hblocks : off + m ≤ BSIZE * blocksFor (off + m) := by
      simp only [blocksFor, BSIZE]
      omega
    rw [hs1.touch.inum, update_self]
    exact hblocks.trans (Nat.mul_le_mul_left _ (le_max_right ..))
  · rw [length_drop]
    omega

theorem writeiLoop_succ {σ : Type} [Layers σ] (k : Nat) (hpos : 0 < src.length) :
    (writeiLoop e (k + 1) off src : Routine σ Unit) =
      (writeiChunk e off (src.take (turn off src.length)) >>= fun _ =>
        writeiLoop e k (off + turn off src.length) (src.drop (turn off src.length))) := by
  cases src with
  | nil => cases hpos
  | cons c cs => rfl

/-- The loop of `writei` writes all bytes, unless there are not enough free blocks. -/
theorem writeiLoop_spec {k : Nat} (h : Writable s e nb off src) (hk : src.length ≤ k) :
    Sat (OutOfBlocks s (growth (nb (s.icache e).inum) (off + src.length))) (writeiLoop e k off src) s
      fun _ s' => Wrote s s' e nb off src := by
  induction k generalizing s off nb src with
  | zero =>
    obtain rfl : src = [] := length_eq_zero_iff.1 (by omega)
    rw [writeiLoop]
    exact .nil h.inv h.mapped h.start
  | succ k ih =>
    rcases Nat.eq_zero_or_pos src.length with hnil | hpos
    · obtain rfl := length_eq_zero_iff.1 hnil
      rw [writeiLoop]
      exact .nil h.inv h.mapped h.start
    rw [writeiLoop_succ k hpos]
    have hm := @turn_pos off src.length hpos
    generalize hturn : turn off src.length = m at hm
    have hle : m ≤ src.length := hturn ▸ Nat.min_le_left ..
    have htake : (src.take m).length = m := by
      rw [length_take]
      omega
    have hgrowth : growth (nb (s.icache e).inum) (off + m) +
        growth (max (nb (s.icache e).inum) (blocksFor (off + m))) (off + src.length) =
          growth (nb (s.icache e).inum) (off + src.length) := growth_add (by omega)
    refine ((h.chunk hpos hturn).mono (fun _ he => he.mono (by omega)) fun _ _ => id).bind ?_
    rintro _ s₁ ⟨hs1, hnext⟩
    have hspent := hs1.spent
    rw [htake] at hspent
    have hlen : off + m + (src.drop m).length = off + src.length := by
      rw [length_drop]
      omega
    refine (ih hnext (by omega)).mono (fun _ he => ?_) fun _ s2 hs2 => ?_
    · rw [hs1.touch.inum, update_self, hlen] at he
      rw [← hgrowth]
      exact hspent.outOfBlocks he
    · have happ : Wrote s s2 e nb off (src.take m ++ src.drop m) :=
        hs1.append (by rw [htake]; exact hs2) h.type (by rw [htake]; have hfits := h.fits; omega)
      rwa [take_append_drop] at happ

/-! ## Counting the blocks of the log -/

/-- The number of blocks that hold some of `n` bytes from `off` on. -/
def dataBlocks (off n : Nat) : Nat := if n = 0 then 0 else blocksFor (off + n) - off / BSIZE

/-- Each turn of the loop of `writei` fills one block. -/
theorem dataBlocks_turn {n : Nat} (hpos : 0 < n) :
    dataBlocks off n = 1 + dataBlocks (off + turn off n) (n - turn off n) := by
  have hturn : turn off n = min n (512 - off % 512) := rfl
  rcases Nat.le_total n (512 - off % 512) with hle | hle
  · rw [hturn, min_eq_left hle, Nat.sub_self, dataBlocks, dataBlocks, if_pos rfl, if_neg (by omega)]
    simp only [blocksFor, BSIZE]
    omega
  · rw [hturn, min_eq_right hle, dataBlocks, dataBlocks, if_neg (by omega)]
    simp only [blocksFor, BSIZE]
    split_ifs <;> omega

/-- The number of metadata blocks that new blocks of a file change: the free map, and the indirect
block. -/
def mapBlocks (nb stop : Nat) : Nat :=
  if nb < blocksFor stop then if NDIRECT < blocksFor stop then 2 else 1 else 0

/-- The number of blocks that `writei` logs for `n` bytes at `off` of a file of `size` bytes. -/
def writeiBlocks (size off n : Nat) : Nat :=
  dataBlocks off n + mapBlocks (blocksFor size) (off + n) + if size < off + n then 1 else 0

/-- The blocks of a file with some of `n` bytes from `off` on. -/
def Store.dataLog (st : Store) (i off n : Nat) : Set Nat :=
  (fun bn => st.own (i, slotOf bn)) '' Finset.Ico (off / BSIZE) (off / BSIZE + dataBlocks off n)

/-- The blocks of a range of bytes, by number. -/
theorem mem_dataBlocks {n bn : Nat} :
    off / BSIZE ≤ bn ∧ bn < off / BSIZE + dataBlocks off n ↔
      ∃ x, off ≤ x ∧ x < off + n ∧ x / BSIZE = bn := by
  simp only [dataBlocks, blocksFor, BSIZE]
  constructor
  · rintro ⟨hle, hlt⟩
    refine ⟨max off (bn * 512), le_max_left .., ?_, ?_⟩
    · split at hlt <;> omega
    · split at hlt <;> omega
  · rintro ⟨x, hx, hx', rfl⟩
    rw [if_neg (by omega)]
    omega

section
variable {st : Store} {i nb n : Nat}

/-- The data blocks of a range of bytes. -/
theorem Store.mem_dataLog {b : Nat} :
    b ∈ st.dataLog i off n ↔
      ∃ x, off ≤ x ∧ x < off + n ∧ b = st.own (i, slotOf (x / BSIZE)) := by
  constructor
  · rintro ⟨bn, hbn, rfl⟩
    rw [Finset.coe_Ico, Set.mem_Ico, mem_dataBlocks] at hbn
    obtain ⟨x, hx, hx', rfl⟩ := hbn
    exact ⟨x, hx, hx', rfl⟩
  · rintro ⟨x, hx, hx', rfl⟩
    refine ⟨x / BSIZE, ?_, rfl⟩
    rw [Finset.coe_Ico, Set.mem_Ico, mem_dataBlocks]
    exact ⟨x, hx, hx', rfl⟩

theorem Store.mem_writeLog {b : Nat} :
    b ∈ st.writeLog i nb off n ↔ b ∈ st.dataLog i off n ∨ nb < blocksFor (off + n) ∧
      (b = st.sb.bmapstart ∨ NDIRECT < blocksFor (off + n) ∧ b = st.own (i, .indirect)) := by
  rw [mem_dataLog]
  rfl

theorem Store.finite_dataLog : (st.dataLog i off n).Finite := (Finset.finite_toSet _).image _

theorem Store.finite_writeLog : (st.writeLog i nb off n).Finite := by
  have hfin : (st.dataLog i off n).Finite := finite_dataLog
  refine ((hfin.insert (st.own (i, .indirect))).insert st.sb.bmapstart).subset ?_
  intro b hb
  rcases mem_writeLog.1 hb with hb | ⟨-, rfl | ⟨-, rfl⟩⟩
  · exact .inr (.inr hb)
  · exact .inl rfl
  · exact .inr (.inl rfl)

variable (h : st.Inv) (hmax : off + n ≤ MAXFILE * BSIZE)
  (hdata : ∀ x, off ≤ x → x < off + n → st.own (i, slotOf (x / BSIZE)) ≠ 0)
include h hmax hdata

/-- A write logs one data block for each block it touches. -/
theorem Store.Inv.ncard_dataLog : (st.dataLog i off n).ncard = dataBlocks off n := by
  have hinj : Set.InjOn (fun bn => st.own (i, slotOf bn))
      (Finset.Ico (off / BSIZE) (off / BSIZE + dataBlocks off n)) := by
    intro bn hbn bn' hbn' heq
    rw [Finset.coe_Ico, Set.mem_Ico, mem_dataBlocks] at hbn hbn'
    obtain ⟨x, hx, hlt, rfl⟩ := hbn
    obtain ⟨x', hx', hlt', rfl⟩ := hbn'
    have hslot := (Prod.ext_iff.1 (h.excl _ _ (hdata x hx hlt) heq)).2
    exact slotOf_inj (div_lt_maxfile (by omega)) (div_lt_maxfile (by omega)) hslot
  rw [dataLog, hinj.ncard_image, Set.ncard_coe_finset, Nat.card_Ico, Nat.add_sub_cancel_left]

omit hmax in
/-- A write logs no inode block, but for what `iupdate` does after it. -/
theorem Store.Inv.le_of_mem_writeLog
    (hind : nb < blocksFor (off + n) → NDIRECT < blocksFor (off + n) → st.own (i, .indirect) ≠ 0)
    {b : Nat} (hb : b ∈ st.writeLog i nb off n) : st.sb.bmapstart ≤ b := by
  have hbm := h.ok.bmapstart.le
  rcases hb with ⟨x, hx, hx', rfl⟩ | ⟨hnew, rfl | ⟨hge, rfl⟩⟩
  · exact hbm.trans (h.area _ (hdata x hx hx')).1
  · exact le_rfl
  · exact hbm.trans (h.area _ (hind hnew hge)).1

/-- The blocks that a write logs are all different. -/
theorem Store.Inv.ncard_writeLog
    (hind : nb < blocksFor (off + n) → NDIRECT < blocksFor (off + n) → st.own (i, .indirect) ≠ 0) :
    (st.writeLog i nb off n).ncard = dataBlocks off n + mapBlocks nb (off + n) := by
  have hcard := h.ncard_dataLog hmax hdata
  have hfin : (st.dataLog i off n).Finite := finite_dataLog
  have hlow : st.sb.bmapstart ∉ st.dataLog i off n := by
    rw [mem_dataLog]
    rintro ⟨x, hx, hx', heq⟩
    have harea := (h.area _ (hdata x hx hx')).1
    have hbm := h.ok.bmapstart
    omega
  rw [mapBlocks]
  split
  · rename_i hnew
    split
    · rename_i hge
      have hne := hind hnew hge
      have hnot : st.own (i, .indirect) ∉ st.dataLog i off n := by
        rw [mem_dataLog]
        rintro ⟨x, -, -, heq⟩
        exact slotOf_ne_indirect _ (Prod.ext_iff.1 (h.excl _ _ hne heq)).2.symm
      have hbm : st.sb.bmapstart ≠ st.own (i, .indirect) :=
        (lt_of_lt_of_le h.ok.bmapstart (h.area _ hne).1).ne
      have hset : st.writeLog i nb off n =
          insert st.sb.bmapstart (insert (st.own (i, .indirect)) (st.dataLog i off n)) := by
        ext b
        rw [mem_writeLog, Set.mem_insert_iff, Set.mem_insert_iff]
        simp only [hnew, hge, true_and]
        rw [or_comm, or_assoc]
      rw [hset, Set.ncard_insert_of_notMem (by simp [hbm, hlow]) (hfin.insert _),
        Set.ncard_insert_of_notMem hnot hfin, hcard]
    · rename_i hlt
      have hset : st.writeLog i nb off n = insert st.sb.bmapstart (st.dataLog i off n) := by
        ext b
        rw [mem_writeLog, Set.mem_insert_iff]
        simp only [hnew, hlt, true_and, false_and, or_false]
        rw [or_comm]
      rw [hset, Set.ncard_insert_of_notMem hlow hfin, hcard]
  · rename_i hold
    have hset : st.writeLog i nb off n = st.dataLog i off n := by
      ext b
      rw [mem_writeLog]
      simp only [hold, false_and, or_false]
    rw [hset, hcard, Nat.add_zero]

end

/-- `iupdate` logs the block of the inode. -/
theorem State.FluxInv.spent_flush (h : s.FluxInv e) :
    Spent s (s.flush e) 0 {IBLOCK (s.icache e).inum s.sb} :=
  spent_write h.store.inv.ok (show Bitmap s.sb s.disk _ from h.store.inv.bitmap)
    (ne_of_lt (h.store.inv.ok.iblock_eq (h.inum e h.ref)).2.2)

section
variable (h : s.Inv) (hl : s.Loaded e) (hle : off ≤ (s.icache e).size.toNat)
  (hmax : off + src.length ≤ MAXFILE * BSIZE)
include h hl hle hmax

/-- The loop of `writei` can start at an offset in the file. -/
theorem State.Inv.writable :
    Writable s e (fun i => blocksFor (s.store.node i).size.toNat) off src := by
  have hflux := h.flux_eq hl
  refine ⟨hflux ▸ h.store.inv, ?_, h.type_ne hl, ?_, hmax⟩
  · rw [hflux]
    exact h.store.mapped
  · rw [h.node_eq hl]
    simp only [blocksFor, BSIZE]
    omega

variable {s₁ : State}
  (hs : Wrote s s₁ e (fun i => blocksFor (s.store.node i).size.toNat) off src)
include hs

omit hle in
/-- How many blocks the loop of `writei` logs, and that the inode is not in one of them. -/
theorem Wrote.logged :
    ((s₁.flux e).writeLog (s.icache e).inum (blocksFor (s.icache e).size.toNat) off src.length).ncard =
        dataBlocks off src.length + mapBlocks (blocksFor (s.icache e).size.toNat) (off + src.length) ∧
      ∀ b ∈ (s₁.flux e).writeLog (s.icache e).inum (blocksFor (s.icache e).size.toNat) off src.length,
        s₁.sb.bmapstart ≤ b := by
  have ht1 : ((s₁.flux e).node (s.icache e).inum).type ≠ 0 := by
    rw [← hs.touch.inum, State.flux_node]
    exact hs.touch.type ▸ h.type_ne hl
  have hdata (x : Nat) (hx : off ≤ x) (hx' : x < off + src.length) := (hs.upd.written x hx hx').1
  have hind (_ : blocksFor (s.icache e).size.toNat < blocksFor (off + src.length))
      (hge : NDIRECT < blocksFor (off + src.length)) :
      (s₁.flux e).own ((s.icache e).inum, .indirect) ≠ 0 := by
    rw [hs.mapped _ ht1, update_self]
    exact lt_max_of_lt_right hge
  exact ⟨hs.inv.ncard_writeLog hmax hdata hind, fun b => hs.inv.le_of_mem_writeLog hdata hind⟩

/-- The file has its new contents once the size in the cache is right. -/
theorem Wrote.contents {t : State} (ht : t.flux e = (s₁.flux e).setNode (s.icache e).inum
      ((s₁.icache e).withSize (max (s.icache e).size.toNat (off + src.length)))) :
    (t.flux e).Wf ∧ (t.flux e).view = update s.view (s.icache e).inum
      (some ((s.icache e).vnode (overlay (s.store.data (s.icache e).inum) off src))) := by
  have hnode := h.node_eq hl
  have hupd := hs.upd
  rw [h.flux_eq hl] at hupd
  have hst : t.flux e = (s₁.flux e).setNode (s.icache e).inum
      (((s₁.flux e).node (s.icache e).inum).withSize
        (max (s.store.node (s.icache e).inum).size.toNat (off + src.length))) := by
    rw [ht, ← hs.touch.inum, State.flux_node, hs.touch.inum, hnode]
  have hw := h.store.upd hupd hs.inv (h.node_type_ne hl) hs.mapped (by rw [hnode]; exact hle) hmax hst
  rwa [hnode] at hw

/-- The end of `writei` when the file has grown: the new size goes into the inode. -/
theorem Wrote.grow (hgrow : (s.icache e).size.toNat < off + src.length) :
    Sat (fun _ => False)
      (updateInode e fun ip => { ip with size := UInt32.ofNat (off + src.length) }) s₁
      fun _ s' => s'.Inv ∧ s'.sb = s.sb ∧ s'.handle = s.handle ∧
        s'.view = update s.view (s.icache e).inum
          (some ((s.icache e).vnode (overlay (s.store.data (s.icache e).inum) off src))) ∧
        Spent s₁ s' 0 {IBLOCK (s.icache e).inum s.sb} := by
  have htouch := hs.touch
  generalize hip : (fun ip : Inode => { ip with size := UInt32.ofNat (off + src.length) }) = f
  have hcache : (s₁.setInode e (f (s₁.icache e))).icache e = f (s₁.icache e) := update_self ..
  have hinum : (f (s₁.icache e)).inum = (s₁.icache e).inum := by rw [← hip]
  have hdin : (f (s₁.icache e)).toDinode = (s₁.icache e).withSize (off + src.length) := by
    rw [← hip]
    rfl
  have hf : (f (s₁.icache e)).handle = s₁.handle e := by
    rw [← hip]
    rfl
  obtain ⟨hwf, hview⟩ := hs.contents h hl hle hmax (t := s₁.setInode e (f (s₁.icache e))) (by
    rw [State.flux_setInode hinum, hdin, hinum, htouch.inum, max_eq_right hgrow.le])
  obtain ⟨hfi, hhandle⟩ := h.fluxInv_setInode hl.ref htouch.sb htouch.node htouch.others
    (hf.trans (congrFun htouch.handle e)) hwf
  rw [updateInode, sat_modifyInode_bind, sat_iupdate hfi.store.inv.ok (hfi.inum e hfi.ref)]
  obtain ⟨hinv, hview'⟩ := hfi.flush (by
    rw [hcache, hdin]
    exact htouch.type ▸ h.type_ne hl)
  have hlogged := hfi.spent_flush
  rw [hcache, hinum, htouch.inum] at hlogged
  exact ⟨hinv, htouch.sb, hhandle, hview'.trans hview, htouch.sb ▸
    ⟨hlogged.free, hlogged.log, hlogged.nodup⟩⟩

/-- The end of `writei` when the file has its old size: the loop has done everything. -/
theorem Wrote.within (hfit : off + src.length ≤ (s.icache e).size.toNat) :
    s₁.Inv ∧ s₁.view = update s.view (s.icache e).inum
      (some ((s.icache e).vnode (overlay (s.store.data (s.icache e).inum) off src))) := by
  have hnode := h.node_eq hl
  have htouch := hs.touch
  have hcache : s₁.icache e = s.icache e := by
    refine hs.same (blocksFor_mono ?_)
    rw [hnode]
    exact hfit
  have hsame : s₁.flux e = (s₁.flux e).setNode (s.icache e).inum
      ((s₁.icache e).withSize (max (s.icache e).size.toNat (off + src.length))) := by
    have hd : (s₁.icache e).withSize (max (s.icache e).size.toNat (off + src.length)) =
        (s₁.flux e).node (s.icache e).inum := by
      rw [← htouch.inum, State.flux_node, max_eq_left hfit, ← htouch.size, Dinode.withSize_self]
    rw [hd, Store.setNode_self]
  obtain ⟨hwf, hview⟩ := hs.contents h hl hle hmax hsame
  have hfi : s₁.FluxInv e := h.fluxInv hl.ref htouch.sb htouch.node htouch.others htouch.inum
    (by rw [hcache]) hwf
  obtain ⟨hinv, hview'⟩ := hfi.inv (by rw [hcache]; exact h.type_ne hl) (by
    rw [hcache, htouch.node]
    exact hnode.symm)
  exact ⟨hinv, hview'.trans hview⟩

omit hs

/-- `writei` of a file or a directory replaces bytes of its contents, unless there are not enough free
blocks. -/
theorem writei_exact (ht : (s.icache e).type ≠ T_DEV) :
    Sat (OutOfBlocks s (growth (blocksFor (s.icache e).size.toNat) (off + src.length)))
      (writei e src off) s fun r s' => r = src.length ∧ s'.Inv ∧ s'.sb = s.sb ∧
      s'.handle = s.handle ∧ s'.view = update s.view (s.icache e).inum
        (some ((s.icache e).vnode (overlay (s.store.data (s.icache e).inum) off src))) ∧
      ∃ X, X.ncard = writeiBlocks (s.icache e).size.toNat off src.length ∧
        Spent s s' (growth (blocksFor (s.icache e).size.toNat) (off + src.length)) X := by
  have hMAX : MAXFILE * BSIZE < 2 ^ 32 := by decide
  rw [writei, sat_fsState_bind]
  rw [if_neg ht, if_neg (by omega), if_neg (by omega)]
  have hloop := writeiLoop_spec (h.writable hl hle hmax) le_rfl
  rw [h.node_eq hl] at hloop
  refine hloop.bind fun _ s₁ hs1 => ?_
  have hspent := hs1.spent
  rw [h.node_eq hl] at hspent
  obtain ⟨hcount, hlow⟩ := hs1.logged h hl hmax
  rw [sat_bind, writeiGrow, sat_fsState_bind]
  dsimp only
  rw [hs1.touch.size]
  refine Sat.ite (fun hgrow => ?_) fun hfit => ?_
  · refine (hs1.grow h hl hle hmax hgrow).never.weaken ?_
    rintro _ s2 ⟨hinv, hsb, hhandle, hview, hlogged⟩
    refine ⟨rfl, hinv, hsb, hhandle, hview, _, ?_, hspent.trans hlogged⟩
    have hblock := h.store.inv.ok.iblock_eq (h.inum e hl.ref)
    have hnot : IBLOCK (s.icache e).inum s.sb ∉ (s₁.flux e).writeLog (s.icache e).inum
        (blocksFor (s.icache e).size.toNat) off src.length := fun hmem =>
      Nat.not_le.2 hblock.2.2 ((congrArg Superblock.bmapstart hs1.touch.sb).symm.trans_le (hlow _ hmem))
    have hcard := Set.ncard_insert_of_notMem hnot Store.finite_writeLog
    rw [Set.union_singleton, writeiBlocks, if_pos hgrow, ← hcount]
    exact hcard
  · obtain ⟨hinv, hview⟩ := hs1.within h hl hle hmax (Nat.not_lt.1 hfit)
    refine ⟨rfl, hinv, hs1.touch.sb, hs1.touch.handle, hview, _, ?_, hspent⟩
    rw [hcount, writeiBlocks, if_neg hfit, Nat.add_zero]

end

/-- `writei` of a file or a directory replaces bytes of its contents. -/
theorem writei_spec (hE : ∀ e, OutOfSpace e → E e) (h : s.Inv) (hl : s.Loaded e)
    (ht : (s.icache e).type ≠ T_DEV) (hle : off ≤ (s.icache e).size.toNat)
    (hmax : off + src.length ≤ MAXFILE * BSIZE) :
    Sat E (writei e src off) s fun r s' => r = src.length ∧ s'.Inv ∧ s'.sb = s.sb ∧
      s'.handle = s.handle ∧ s'.view = update s.view (s.icache e).inum
        (some ((s.icache e).vnode (overlay (s.store.data (s.icache e).inum) off src))) :=
  (writei_exact h hl hle hmax ht).mono (fun e he => hE e (.inl he.1)) fun _ _ hs' =>
    ⟨hs'.1, hs'.2.1, hs'.2.2.1, hs'.2.2.2.1, hs'.2.2.2.2.1⟩

/-- `writei` refuses to start past the end of the file or to exceed the largest size. -/
theorem writei_refuses (ht : (s.icache e).type ≠ T_DEV)
    (hbad : (s.icache e).size.toNat < off ∨ MAXFILE * BSIZE < off + src.length) :
    Sat E (writei e src off) s fun r s' => r = -1 ∧ s' = s := by
  rw [writei, sat_fsState_bind]
  rw [if_neg ht]
  refine Sat.ite (fun _ => ⟨rfl, rfl⟩) fun hgood => ?_
  rw [if_pos (by omega)]
  exact ⟨rfl, rfl⟩

/-- `writei` keeps the invariant, and changes the file of the entry only. -/
theorem writei_inv (hE : ∀ e, OutOfSpace e → E e) (h : s.Inv) (hl : s.Loaded e) :
    Sat E (writei e src off) s fun _ s' => s'.Inv ∧ s'.sb = s.sb ∧ s'.handle = s.handle ∧
      ∃ data, s'.view = update s.view (s.icache e).inum
        (some ((s.icache e).vnode data)) := by
  have hself : s.view = update s.view (s.icache e).inum
      (some ((s.icache e).vnode (s.store.data (s.icache e).inum))) := by
    rw [← h.view_of_loaded hl, update_eq_self]
  rcases eq_or_ne (s.icache e).type T_DEV with ht | ht
  · rw [writei, sat_fsState_bind]
    rw [if_pos ht]
    split
    · exact ⟨h, rfl, rfl, _, hself⟩
    · exact ⟨h, rfl, rfl, _, hself⟩
  · rcases Classical.em ((s.icache e).size.toNat < off ∨ MAXFILE * BSIZE < off + src.length) with
      hbad | hgood
    · refine (writei_refuses ht hbad).weaken fun _ s' hs' => ?_
      rw [hs'.2]
      exact ⟨h, rfl, rfl, _, hself⟩
    · exact (writei_spec hE h hl ht (by omega) (by omega)).weaken
        fun _ s' hs' => ⟨hs'.2.1, hs'.2.2.1, hs'.2.2.2.1, _, hs'.2.2.2.2⟩

end

end TronBoss.Fs
