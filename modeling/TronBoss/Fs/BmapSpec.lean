import TronBoss.Fs.Space
import TronBoss.Fs.Store

/-!
# The blocks of a file

What `bmap` does to the block store: it fills the slots that a file block needs and returns the block
in them. The inode being worked on is the one in the cache, ahead of its copy on disk, so the store
of a routine that holds cache entry `e` takes that inode from the cache (`State.flux`).
-/

namespace TronBoss.Fs

open Lib Function

/-- The inode on disk. -/
def State.node (s : State) (i : Nat) : Dinode :=
  if i < s.sb.ninodes then dinodeAt (s.disk (IBLOCK i s.sb)) i else .zero

/-- The store on disk. -/
def State.store (s : State) : Store := ⟨s.sb, s.disk, s.node⟩

/-- The store while a routine changes the inode in cache entry `e`. -/
def State.flux (s : State) (e : Fin NINODE) : Store :=
  s.store.setNode (s.icache e).inum (s.icache e).toDinode

@[simp] theorem State.node_commit (s : State) : s.commit.node = s.node := rfl

@[simp] theorem State.store_commit (s : State) : s.commit.store = s.store := rfl

section
variable {s : State} {e : Fin NINODE}

/-- Writing past the inode blocks changes no inode. -/
theorem State.node_write {b : Nat} {c : Block} (hok : s.sb.Ok) (hb : s.sb.bmapstart ≤ b) :
    (s.write b c).node = s.node := by
  funext i
  change (if i < s.sb.ninodes then dinodeAt (update s.disk b c (IBLOCK i s.sb)) i
    else Dinode.zero) = if i < s.sb.ninodes then dinodeAt (s.disk (IBLOCK i s.sb)) i else .zero
  split
  · rename_i hi
    have hne : IBLOCK i s.sb ≠ b := by
      have := (hok.iblock_eq hi).2.2
      omega
    rw [update_of_ne hne]
  · rfl

theorem State.store_write {b : Nat} {c : Block} (hok : s.sb.Ok) (hb : s.sb.bmapstart ≤ b) :
    (s.write b c).store = s.store.write b c := by
  unfold store
  rw [node_write hok hb]
  rfl

theorem State.flux_write {b : Nat} {c : Block} (hok : s.sb.Ok) (hb : s.sb.bmapstart ≤ b) :
    (s.write b c).flux e = (s.flux e).write b c := by
  unfold flux
  rw [store_write hok hb]
  rfl

theorem State.flux_setInode {ip : Inode} (hi : ip.inum = (s.icache e).inum) :
    (s.setInode e ip).flux e = (s.flux e).setNode ip.inum ip.toDinode := by
  have hn : (s.setInode e ip).node = s.node := rfl
  unfold flux store Store.setNode
  simp only [setInode, update_self, hi, update_idem]
  rw [← hn]
  rfl

theorem State.flux_sb : (s.flux e).sb = s.sb := rfl

theorem State.flux_node : (s.flux e).node (s.icache e).inum = (s.icache e).toDinode :=
  update_self ..

end

/-! ## Frames -/

/-- Only the block numbers of entry `e` and blocks after the inodes have changed. -/
structure Touch (s s' : State) (e : Fin NINODE) : Prop where
  sb : s'.sb = s.sb
  node : s'.node = s.node
  entry : s'.icache e =
    { s.icache e with toDinode := (s.icache e).toDinode.withAddrs (s'.icache e).addrs }
  others : ∀ e' ≠ e, s'.icache e' = s.icache e'
  console : s'.console = s.console

theorem Touch.refl (s : State) (e : Fin NINODE) : Touch s s e :=
  ⟨rfl, rfl, rfl, fun _ _ => rfl, rfl⟩

theorem Touch.trans {s s1 s2 : State} {e : Fin NINODE} (h : Touch s s1 e) (h' : Touch s1 s2 e) :
    Touch s s2 e where
  sb := h'.sb.trans h.sb
  node := h'.node.trans h.node
  entry := by
    rw [h'.entry, h.entry]
    rfl
  others e' he := (h'.others e' he).trans (h.others e' he)
  console := h'.console.trans h.console

section
variable {s s' : State} {e : Fin NINODE} (h : Touch s s' e)
include h

theorem Touch.inum : (s'.icache e).inum = (s.icache e).inum := by rw [h.entry]

theorem Touch.type : (s'.icache e).type = (s.icache e).type := by
  rw [h.entry]
  rfl

theorem Touch.size : (s'.icache e).size = (s.icache e).size := by
  rw [h.entry]
  rfl

end

/-! ## `bmap` -/

/-- A slot of the inode holds the block number in the cache. -/
theorem State.own_addrSlot {s : State} {e : Fin NINODE} (ht : (s.icache e).type ≠ 0)
    (k : Fin (NDIRECT + 1)) : (s.flux e).own ((s.icache e).inum, addrSlot k) =
      ((s.icache e).addrs k).toNat := by
  rw [Store.own_of_type (by rw [flux_node]; exact ht), Dinode.block_addrSlot, flux_node]

/-- `bmap` of a mapped block is a lookup. -/
theorem bmap_mapped {s : State} {e : Fin NINODE} {E : Stop → Prop} {bn : Nat} (h : (s.flux e).Inv)
    (hmax : bn < MAXFILE) (hown : (s.flux e).own ((s.icache e).inum, slotOf bn) ≠ 0) :
    Sat E (bmap e bn) s fun b s' =>
      s' = s ∧ b = (s.flux e).own ((s.icache e).inum, slotOf bn) := by
  have ht := Store.type_of_own hown
  have haddr (k : Fin (NDIRECT + 1))
      (hk : (s.flux e).own ((s.icache e).inum, addrSlot k) ≠ 0) :
      Sat E (bmapAddr e k) s fun b s' =>
        s' = s ∧ b = (s.flux e).own ((s.icache e).inum, addrSlot k) := by
    rw [Store.own_of_type ht, Dinode.block_addrSlot, State.flux_node] at hk ⊢
    rw [bmapAddr, sat_fsState_bind]
    exact Sat.ite (fun h0 => absurd (u32_toNat_eq_zero.2 h0) hk) fun _ => ⟨rfl, rfl⟩
  rw [bmap]
  refine Sat.ite (fun hlt => ?_) fun hge => ?_
  · rw [← addrSlot_ofNat hlt] at hown ⊢
    exact haddr _ hown
  · have hind : (s.flux e).own ((s.icache e).inum, .indirect) ≠ 0 := by
      rw [slotOf_of_le (by omega) hmax] at hown
      exact fun h0 => hown (Store.own_entry_of_none h0)
    have harea := h.area _ hind
    have hlast := haddr (Fin.last NDIRECT) (by rw [addrSlot_last]; exact hind)
    rw [addrSlot_last] at hlast
    rw [if_pos (by unfold MAXFILE at hmax; omega)]
    refine hlast.bind fun a s1 hs1 => ?_
    obtain ⟨rfl, rfl⟩ := hs1
    rw [slotOf_of_le (by omega) hmax] at hown ⊢
    rw [Store.own_entry hind] at hown ⊢
    rw [sat_bread_bind (lt_of_lt_of_le harea.2 h.ok.size)]
    exact Sat.ite (fun h0 => absurd (u32_toNat_eq_zero.2 h0) hown) fun _ => ⟨rfl, rfl⟩

/-! ## What a file block costs -/

/-- The slots that the first `n` blocks of a file need. -/
def slots (n : Nat) : Nat := n + if NDIRECT < n then 1 else 0

theorem slots_mono : Monotone slots := by
  intro n m h
  unfold slots
  split <;> split <;> omega

/-- The number of blocks that filling a slot takes. -/
def Store.vacant (st : Store) (x : Nat × Slot) : Nat := if st.own x = 0 then 1 else 0

section
variable {st : Store} {x : Nat × Slot}

theorem Store.vacant_of_eq (h : st.own x = 0) : st.vacant x = 1 := if_pos h

theorem Store.vacant_of_ne (h : st.own x ≠ 0) : st.vacant x = 0 := if_neg h

end

/-- The blocks that `bmap` logs for a file block above the first `nb`: the free map, the new block, and
the indirect block if the new block is listed there. -/
def Store.mapLog (st : Store) (i nb bn : Nat) : Set Nat :=
  {b | nb ≤ bn ∧ (b = st.sb.bmapstart ∨ b = st.own (i, slotOf bn) ∨
    NDIRECT ≤ bn ∧ b = st.own (i, .indirect))}

section
variable {st : Store} {nb : Nat → Nat} {i bn : Nat} (hm : st.Mapped nb)
  (ht : (st.node i).type ≠ 0) (hbn : bn ≤ nb i) (hmax : bn < MAXFILE)
include hm ht hmax

/-- A file block whose slot is filled costs nothing. -/
theorem Store.Mapped.cost_filled (hne : st.own (i, slotOf bn) ≠ 0) :
    slots (max (nb i) (bn + 1)) - slots (nb i) = 0 ∧ bn < nb i := by
  rw [hm i ht, first_slotOf hmax] at hne
  rw [max_eq_left hne, Nat.sub_self]
  exact ⟨rfl, hne⟩

include hbn

/-- The block after the last one costs a block, and one more for the indirect block if that is
missing. -/
theorem Store.Mapped.cost_vacant (h0 : st.own (i, slotOf bn) = 0) :
    nb i = bn ∧ slots (max (nb i) (bn + 1)) - slots (nb i) =
      (if bn < NDIRECT then 0 else st.vacant (i, .indirect)) + 1 := by
  have hnb : nb i = bn := by
    have hle := (not_congr (hm i ht (slotOf bn))).1 (not_not.2 h0)
    rw [first_slotOf hmax] at hle
    omega
  have hvac : st.vacant (i, .indirect) = if nb i ≤ NDIRECT then 1 else 0 := by
    refine if_congr ?_ rfl rfl
    rw [← not_iff_not, ← ne_eq, hm i ht]
    exact Nat.not_le.symm
  rw [hvac, hnb, max_eq_right (by omega), slots, slots]
  refine ⟨rfl, ?_⟩
  split_ifs <;> omega

end

section
variable {s : State} {e : Fin NINODE}

/-- `balloc` while an inode is being changed. -/
theorem balloc_flux (h : (s.flux e).Inv) :
    Sat (OutOfBlocks s 1) balloc s fun b s' =>
      (s.sb.nmeta ≤ b ∧ b < s.sb.size) ∧ b ∉ held (s.flux e).own ∧
      Touch s s' e ∧ s'.icache e = s.icache e ∧ Spent s s' 1 {s.sb.bmapstart, b} ∧ ∃ bm,
      s'.flux e = ((s.flux e).write s.sb.bmapstart bm).write b .zero ∧
      Bitmap s.sb (s'.flux e).disk (insert b (held (s.flux e).own)) := by
  have hbitmap : Bitmap s.sb s.disk (held (s.flux e).own) := h.bitmap
  refine (balloc_spent h.ok hbitmap).weaken ?_
  rintro b s' ⟨⟨hb1, hb2, hnew, hbm, bm, rfl⟩, hspent⟩
  have hok : s.sb.Ok := h.ok
  have hok' : (s.write s.sb.bmapstart bm).sb.Ok := hok
  have hle : (s.write s.sb.bmapstart bm).sb.bmapstart ≤ b := le_trans hok.bmapstart.le hb1
  refine ⟨⟨hb1, hb2⟩, hnew, ⟨rfl, ?_, rfl, fun _ _ => rfl, rfl⟩, rfl, hspent, bm, ?_, hbm⟩
  · rw [State.node_write hok' hle, State.node_write hok le_rfl]
  · rw [State.flux_write hok' hle, State.flux_write hok le_rfl]

/-- `addrs[k]` in `bmap`: it is filled where it is empty, and its block is returned. -/
theorem bmapAddr_spec (h : (s.flux e).Inv) (ht : (s.icache e).type ≠ 0)
    (k : Fin (NDIRECT + 1)) :
    Sat (OutOfBlocks s ((s.flux e).vacant ((s.icache e).inum, addrSlot k))) (bmapAddr e k) s
      fun b s' => (s.flux e).Fill (s'.flux e) (s.icache e).inum (addrSlot k) ∧ (s'.flux e).Inv ∧
        b = (s'.flux e).own ((s.icache e).inum, addrSlot k) ∧ Touch s s' e ∧
        ((s.flux e).own ((s.icache e).inum, addrSlot k) ≠ 0 → s' = s) ∧
        ((s.flux e).own ((s.icache e).inum, addrSlot k) = 0 →
          Spent s s' 1 {s.sb.bmapstart, b}) := by
  have ht' : ((s.flux e).node (s.icache e).inum).type ≠ 0 := by
    rw [State.flux_node]
    exact ht
  have hown := State.own_addrSlot ht k
  rw [bmapAddr, sat_fsState_bind]
  refine Sat.ite (fun h0 => ?_) fun h0 => ?_
  · have hfree : (s.flux e).own ((s.icache e).inum, addrSlot k) = 0 := by
      rw [hown, h0]
      rfl
    rw [Store.vacant_of_eq hfree]
    refine (balloc_flux h).bind fun b s1 hs1 => ?_
    obtain ⟨hb, hnew, htouch, hent, hspent, bm, hflux, hbm⟩ := hs1
    rw [hflux] at hbm
    rw [sat_modifyInode_bind, sat_pure, hent]
    have hinum : ((s.icache e).setAddr k (UInt32.ofNat b)).inum = (s1.icache e).inum := by
      rw [hent]
      rfl
    have hflux' : (s1.setInode e ((s.icache e).setAddr k (UInt32.ofNat b))).flux e =
        (((s.flux e).write s.sb.bmapstart bm).write b .zero).setNode (s.icache e).inum
          (((s.flux e).node (s.icache e).inum).withAddrs (update
            ((s.flux e).node (s.icache e).inum).addrs k (UInt32.ofNat b))) := by
      rw [State.flux_setInode hinum, hflux, State.flux_node]
      rfl
    obtain ⟨hfill, hinv, hval⟩ := h.fillAddr hb hnew hbm ht' hfree hflux'
    refine ⟨hfill, hinv, hval.symm, ⟨htouch.sb, htouch.node, ?_, fun e' he => ?_, htouch.console⟩,
      fun hne => absurd hfree hne, fun _ => ⟨hspent.free, hspent.log, hspent.nodup⟩⟩
    · simp only [State.setInode, update_self]
      rfl
    · simp only [State.setInode, update_of_ne he]
      exact htouch.others e' he
  · rw [sat_pure]
    have hne : (s.flux e).own ((s.icache e).inum, addrSlot k) ≠ 0 := by
      rw [hown]
      exact fun hc => h0 (u32_toNat_eq_zero.1 hc)
    exact ⟨.refl hne, h, hown.symm, .refl s e, fun _ => rfl, fun h0 => absurd h0 hne⟩

/-- The indirect part of `bmap`: it fills the indirect block and its entry where they are empty, and
returns the block of the entry. -/
theorem bmapIndirect_spec (h : (s.flux e).Inv) (ht : (s.icache e).type ≠ 0) (j : Fin NINDIRECT) :
    Sat (OutOfBlocks s ((s.flux e).vacant ((s.icache e).inum, .indirect) +
        (s.flux e).vacant ((s.icache e).inum, .entry j))) (bmapIndirect e j.val) s fun b s' =>
      ∃ st1, (s.flux e).Fill st1 (s.icache e).inum .indirect ∧
      st1.Fill (s'.flux e) (s.icache e).inum (.entry j) ∧ (s'.flux e).Inv ∧
      b = (s'.flux e).own ((s.icache e).inum, .entry j) ∧ Touch s s' e ∧
      ((s.flux e).own ((s.icache e).inum, .entry j) ≠ 0 → s' = s) ∧
      ((s.flux e).own ((s.icache e).inum, .entry j) = 0 →
        Spent s s' ((s.flux e).vacant ((s.icache e).inum, .indirect) + 1)
          {s.sb.bmapstart, b, (s'.flux e).own ((s.icache e).inum, .indirect)}) := by
  have haddr := bmapAddr_spec h ht (Fin.last NDIRECT)
  rw [addrSlot_last] at haddr
  refine (haddr.mono (fun e he => he.mono (Nat.le_add_right ..)) fun _ _ => id).bind
    fun a s1 hs1 => ?_
  obtain ⟨hfill1, hinv1, ha, htouch1, hsame1, hspent1⟩ := hs1
  have ha0 : a ≠ 0 := ha ▸ hfill1.filled
  have harea := hinv1.area _ hfill1.filled
  rw [← ha] at harea
  have hown : (s1.flux e).own ((s.icache e).inum, .entry j) =
      ((s1.disk a).read32 (4 * j.val)).toNat := by
    rw [Store.own_entry hfill1.filled, ← ha]
    rfl
  have hentry : (s1.flux e).own ((s.icache e).inum, .entry j) =
      (s.flux e).own ((s.icache e).inum, .entry j) := hfill1.other _ (by simp)
  have hpaid : ∃ X ⊆ {s.sb.bmapstart, a},
      Spent s s1 ((s.flux e).vacant ((s.icache e).inum, .indirect)) X := by
    rcases eq_or_ne ((s.flux e).own ((s.icache e).inum, .indirect)) 0 with h0 | h0
    · rw [Store.vacant_of_eq h0]
      exact ⟨_, subset_rfl, hspent1 h0⟩
    · rw [Store.vacant_of_ne h0, hsame1 h0]
      exact ⟨∅, Set.empty_subset _, .refl s⟩
  obtain ⟨X, hX, hspent1⟩ := hpaid
  rw [sat_bread_bind (lt_of_lt_of_le harea.2 hinv1.ok.size)]
  refine Sat.ite (fun h0 => ?_) fun h0 => ?_
  · have hfree : (s1.flux e).own ((s.icache e).inum, .entry j) = 0 := by
      rw [hown, h0]
      rfl
    have hfree0 := hentry ▸ hfree
    rw [Store.vacant_of_eq hfree0]
    refine ((balloc_flux hinv1).mono (fun e he => hspent1.outOfBlocks he) fun _ _ => id).bind
      fun b s2 hs2 => ?_
    obtain ⟨hb, hnew, htouch2, -, hspent2, bm, hflux, hbm⟩ := hs2
    have hbitmap : Bitmap s2.sb s2.disk (insert b (held (s1.flux e).own)) := by
      rw [htouch2.sb]
      exact hbm
    rw [hflux] at hbm
    rw [sat_logWrite_bind, sat_brelse_bind, sat_pure]
    have hok2 : s2.sb.Ok := htouch2.sb ▸ hinv1.ok
    have hle : s2.sb.bmapstart ≤ a := by
      rw [htouch2.sb]
      exact le_trans hinv1.ok.bmapstart.le harea.1
    have hflux' : (s2.write a ((s1.disk a).write32 (4 * j.val) (UInt32.ofNat b))).flux e =
        (((s1.flux e).write s1.sb.bmapstart bm).write b .zero).write a
          (((s1.flux e).disk a).write32 (4 * j.val) (UInt32.ofNat b)) := by
      rw [State.flux_write hok2 hle, hflux]
      rfl
    obtain ⟨hfill, hinv, hval⟩ := hinv1.fillEntry hb hnew hbm ha ha0 hfree hflux'
    have hspent3 := spent_write (c := (s1.disk a).write32 (4 * j.val) (UInt32.ofNat b)) hok2 hbitmap
      (show a ≠ s2.sb.bmapstart by
        have hlow := hinv1.ok.bmapstart
        rw [htouch2.sb]
        exact ne_of_gt (lt_of_lt_of_le hlow harea.1))
    refine ⟨_, hfill1, hfill, hinv, hval.symm, htouch1.trans (htouch2.trans ?_),
      fun he => absurd hfree0 he, fun _ => ?_⟩
    · exact ⟨rfl, State.node_write hok2 hle, rfl, fun _ _ => rfl, rfl⟩
    · refine ((hspent1.trans hspent2).trans hspent3).congr rfl ?_
      rw [hfill.other _ (by simp), ← ha, htouch1.sb, Set.union_assoc]
      refine Set.Subset.antisymm (Set.union_subset (hX.trans ?_) ?_) ?_
      · exact Set.insert_subset_insert (Set.subset_insert ..)
      · rw [Set.insert_union, Set.singleton_union]
      · rw [Set.insert_union, Set.singleton_union]
        exact Set.subset_union_right
  · rw [sat_brelse_bind, sat_pure]
    have hne : (s1.flux e).own ((s.icache e).inum, .entry j) ≠ 0 := by
      rw [hown]
      exact fun hc => h0 (u32_toNat_eq_zero.1 hc)
    refine ⟨_, hfill1, .refl hne, hinv1, hown.symm, htouch1, fun he => hsame1 fun hi => ?_,
      fun he => absurd (hentry.trans he) hne⟩
    exact he (Store.own_entry_of_none hi)

/-- `bmap` of a mapped block, or of the block after the last one: it returns the block in the slot,
and allocates only in the second case. -/
theorem bmap_spec {nb : Nat → Nat} {bn : Nat} (h : (s.flux e).Inv)
    (hm : (s.flux e).Mapped nb) (ht : (s.icache e).type ≠ 0) (hbn : bn ≤ nb (s.icache e).inum)
    (hmax : bn < MAXFILE) (off : Nat) :
    Sat (OutOfBlocks s (slots (max (nb (s.icache e).inum) (bn + 1)) -
        slots (nb (s.icache e).inum))) (bmap e bn) s fun b s' => (s'.flux e).Inv ∧
      (s'.flux e).Mapped (update nb (s.icache e).inum
        (max (nb (s.icache e).inum) (bn + 1))) ∧
      (s.flux e).Upd (s'.flux e) (s.icache e).inum off [] ∧
      b = (s'.flux e).own ((s.icache e).inum, slotOf bn) ∧ b ≠ 0 ∧ Touch s s' e ∧
      (bn < nb (s.icache e).inum → s' = s) ∧
      Spent s s' (slots (max (nb (s.icache e).inum) (bn + 1)) - slots (nb (s.icache e).inum))
        ((s'.flux e).mapLog (s.icache e).inum (nb (s.icache e).inum) bn) := by
  have ht' : ((s.flux e).node (s.icache e).inum).type ≠ 0 := by
    rw [State.flux_node]
    exact ht
  have haddr := bmapAddr_spec h ht
  have hind := bmapIndirect_spec h ht
  generalize (s.icache e).inum = i at *
  have hfilled := hm.cost_filled ht' hmax
  have hvacant := hm.cost_vacant ht' hbn hmax
  have hsame {s' : State} (hs' : (s.flux e).own (i, slotOf bn) ≠ 0 → s' = s) :
      (bn < nb i → s' = s) ∧ ((s.flux e).own (i, slotOf bn) ≠ 0 →
        Spent s s' (slots (max (nb i) (bn + 1)) - slots (nb i))
          ((s'.flux e).mapLog i (nb i) bn)) := by
    refine ⟨fun hlt => hs' ?_, fun hne => ?_⟩
    · rw [hm i ht', first_slotOf hmax]
      exact hlt
    · obtain ⟨hzero, hlt⟩ := hfilled hne
      rw [hs' hne]
      refine (Spent.refl s).congr hzero.symm (Set.eq_empty_of_forall_notMem fun b hb => ?_).symm
      exact absurd hb.1 (by omega)
  rw [bmap]
  refine Sat.ite (fun hlt => ?_) fun hge => ?_
  · have hdirect := haddr (Fin.ofNat (NDIRECT + 1) bn)
    rw [addrSlot_ofNat hlt] at hdirect
    rw [if_pos hlt] at hvacant
    refine hdirect.mono (fun _ he => he.mono ?_) fun b s' hs' => ?_
    · unfold Store.vacant
      split
      · exact (hvacant ‹_›).2.ge
      · exact Nat.zero_le _
    · obtain ⟨hfill, hinv, hb, htouch, hs', hspent⟩ := hs'
      refine ⟨hinv, hm.fillDirect hbn hmax hlt hfill, hfill.upd off, hb, hb ▸ hfill.filled, htouch,
        (hsame hs').1, ?_⟩
      rcases eq_or_ne ((s.flux e).own (i, slotOf bn)) 0 with h0 | h0
      · obtain ⟨hnb, hcost⟩ := hvacant h0
        refine (hspent h0).congr hcost.symm (Set.ext fun y => ?_)
        have : ¬ NDIRECT ≤ bn := by omega
        simp [Store.mapLog, hnb, this, ← hb, State.flux_sb, htouch.sb]
      · exact (hsame hs').2 h0
  · have hge : NDIRECT ≤ bn := by omega
    rw [if_pos (by unfold MAXFILE at hmax; omega)]
    have hentry := hind ⟨bn - NDIRECT, by unfold MAXFILE at hmax; omega⟩
    rw [← slotOf_of_le hge hmax] at hentry
    rw [if_neg (by omega)] at hvacant
    refine hentry.mono (fun _ he => he.mono ?_) fun b s' hs' => ?_
    · rcases eq_or_ne ((s.flux e).own (i, slotOf bn)) 0 with h0 | h0
      · rw [Store.vacant_of_eq h0]
        exact (hvacant h0).2.ge
      · have hne : (s.flux e).own (i, .indirect) ≠ 0 := fun hi => h0 (by
          rw [slotOf_of_le hge hmax]
          exact Store.own_entry_of_none hi)
        rw [Store.vacant_of_ne h0, Store.vacant_of_ne hne]
        exact Nat.zero_le _
    · obtain ⟨st1, hfill1, hfill, hinv, hb, htouch, hs', hspent⟩ := hs'
      have hupd := (hfill1.upd off).append (hfill.upd _) fun x hx hx' => by
        rw [List.length_nil] at hx'
        omega
      refine ⟨hinv, hm.fillIndirect hbn hmax hge hfill1 hfill, hupd, hb, hb ▸ hfill.filled, htouch,
        (hsame hs').1, ?_⟩
      rcases eq_or_ne ((s.flux e).own (i, slotOf bn)) 0 with h0 | h0
      · obtain ⟨hnb, hcost⟩ := hvacant h0
        refine (hspent h0).congr hcost.symm (Set.ext fun y => ?_)
        simp [Store.mapLog, hnb, hge, ← hb, State.flux_sb, htouch.sb]
      · exact (hsame hs').2 h0

end

end TronBoss.Fs
