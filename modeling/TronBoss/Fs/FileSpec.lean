import TronBoss.Fs.BmapSpec
import TronBoss.Fs.View

/-!
# Reading files and storing inodes

The invariant of the file system (`State.Inv`), and the specifications of `readi` and `iupdate`.
Reading returns a piece of the contents and changes nothing. An inode that is ahead of its copy on disk
(`State.FluxInv`) is stored there by `iupdate`.
-/

namespace TronBoss.Fs

open Lib Function

/-- What holds between two operations of the file system: the store is well formed, the cache entries
in use are for different inodes, and a valid one equals its inode on disk. -/
structure State.Inv (s : State) : Prop where
  store : s.store.Wf
  inum : ∀ e, 0 < (s.icache e).ref → (s.icache e).inum < s.sb.ninodes
  unique : ∀ e e', 0 < (s.icache e).ref → 0 < (s.icache e').ref →
    (s.icache e).inum = (s.icache e').inum → e = e'
  nonneg : ∀ e, 0 ≤ (s.icache e).ref
  valid : ∀ e, 0 < (s.icache e).ref → (s.icache e).valid = true →
    (s.icache e).toDinode = s.node (s.icache e).inum ∧ (s.icache e).type ≠ 0

/-- The allocated inodes on disk. -/
def State.view (s : State) : Nat → Option Vnode := s.store.view

/-- What a cache entry says apart from its copy of the inode. -/
structure Handle where
  inum : Nat
  ref : Int
  busy : Bool
  valid : Bool

/-- A cache entry without its copy of the inode. -/
def Inode.handle (ip : Inode) : Handle where
  inum := ip.inum
  ref := ip.ref
  busy := ip.busy
  valid := ip.valid

/-- The cache entries without their copies of inodes. -/
def State.handle (s : State) (e : Fin NINODE) : Handle := (s.icache e).handle

theorem State.handle_setInode (s : State) (e : Fin NINODE) (ip : Inode) :
    (s.setInode e ip).handle = update s.handle e ip.handle := by
  funext e'
  rcases eq_or_ne e' e with rfl | hne
  · simp only [handle, setInode, update_self]
  · simp only [handle, setInode, update_of_ne hne]

theorem Touch.handle {s s' : State} {e : Fin NINODE} (h : Touch s s' e) :
    s'.handle = s.handle := by
  funext e'
  rcases eq_or_ne e' e with rfl | hne
  · rw [State.handle, State.handle, h.entry]
    rfl
  · rw [State.handle, State.handle, h.others e' hne]

/-! ## Loaded inodes -/

/-- A cache entry that is in use and valid, as it is while its inode is locked. -/
structure State.Loaded (s : State) (e : Fin NINODE) : Prop where
  ref : 0 < (s.icache e).ref
  valid : (s.icache e).valid = true

section
variable {s : State} {e : Fin NINODE} (h : s.Inv) (hl : s.Loaded e)
include h hl

theorem State.Inv.node_eq : s.store.node (s.icache e).inum = (s.icache e).toDinode :=
  (h.valid e hl.ref hl.valid).1.symm

theorem State.Inv.type_ne : (s.icache e).type ≠ 0 := (h.valid e hl.ref hl.valid).2

theorem State.Inv.node_type_ne : (s.store.node (s.icache e).inum).type ≠ 0 := by
  rw [h.node_eq hl]
  exact h.type_ne hl

/-- A loaded inode is the one on disk. -/
theorem State.Inv.flux_eq : s.flux e = s.store := by
  have hn : update s.store.node (s.icache e).inum (s.icache e).toDinode =
      s.store.node := by
    rw [← h.node_eq hl, update_eq_self]
  unfold flux Store.setNode
  rw [hn]

theorem State.Inv.size_le : (s.icache e).size.toNat ≤ MAXFILE * BSIZE := by
  have hs := h.store.size _ (h.node_type_ne hl)
  rwa [h.node_eq hl] at hs

theorem State.Inv.view_of_loaded :
    s.view (s.icache e).inum =
      some ((s.icache e).vnode (s.store.data (s.icache e).inum)) := by
  rw [view, Store.view_of_type (h.node_type_ne hl), h.node_eq hl]

theorem State.Inv.length_data :
    (s.store.data (s.icache e).inum).length = (s.icache e).size.toNat := by
  rw [Store.length_data, h.node_eq hl]

end

/-! ## Reading -/

section
variable {s : State} {e : Fin NINODE} {E : Stop → Prop}

/-- The loop of `readi` returns the bytes of the file and changes nothing. -/
theorem readiLoop_spec (h : s.Inv) (hl : s.Loaded e) {k off n : Nat} (hk : n ≤ k)
    (hn : off + n ≤ (s.icache e).size.toNat) :
    Sat E (readiLoop e k off n) s fun bs s' => s' = s ∧
      bs = (List.range n).map fun j => s.store.byte (s.icache e).inum (off + j) := by
  induction k generalizing off n with
  | zero =>
    obtain rfl : n = 0 := by omega
    rw [readiLoop]
    exact ⟨rfl, rfl⟩
  | succ k ih =>
    cases n with
    | zero =>
      rw [readiLoop]
      exact ⟨rfl, rfl⟩
    | succ n =>
      have hlt : off < (s.store.node (s.icache e).inum).size.toNat := by
        rw [h.node_eq hl]
        omega
      obtain ⟨hmax, hown⟩ := h.store.own_ne_zero (h.node_type_ne hl) hlt
      have hflux := h.flux_eq hl
      have hb0 := hown
      rw [← hflux] at hown
      rw [readiLoop]
      refine (bmap_mapped (hflux ▸ h.store.inv) (div_lt_maxfile hmax) hown).bind fun b s1 hs1 => ?_
      obtain ⟨hs1, hb⟩ := hs1
      subst s1
      rw [hflux] at hb
      have hblt : b < FSSIZE := by
        rw [hb]
        exact lt_of_lt_of_le (h.store.inv.area _ hb0).2 h.store.inv.ok.size
      rw [sat_bread_bind hblt]
      rw [sat_brelse_bind]
      generalize hm : min (n + 1) (BSIZE - off % BSIZE) = m
      have hmpos : 0 < m := by
        have : off % BSIZE < BSIZE := Nat.mod_lt _ (by decide)
        omega
      refine (ih (by omega) (by omega)).bind fun rest s2 hs2 => ?_
      obtain ⟨hs2, rfl⟩ := hs2
      refine ⟨hs2, ?_⟩
      have hsplit : n + 1 = m + (n + 1 - m) := by omega
      have hread : (s.disk b).read (off % BSIZE) m =
          (List.range m).map fun j => s.store.byte (s.icache e).inum (off + j) := by
        refine List.map_congr_left fun j hj => ?_
        rw [List.mem_range] at hj
        obtain ⟨hdiv, hrem⟩ := @div_mod_of_fit off (off + j) m (by omega) (by omega) (by omega)
        rw [Store.byte, hdiv, hrem, ← hb, Nat.add_sub_cancel_left]
        rfl
      conv_rhs => rw [hsplit, List.range_add, List.map_append, List.map_map]
      rw [hread]
      congr 1
      refine List.map_congr_left fun j _ => ?_
      rw [Function.comp_apply, Nat.add_assoc]

/-- `readi` of a file or a directory returns a piece of its contents. -/
theorem readi_spec (h : s.Inv) (hl : s.Loaded e) (ht : (s.icache e).type ≠ T_DEV) (off n : Nat) :
    Sat E (readi e off n) s fun r s' => s' = s ∧
      r = if (s.icache e).size.toNat < off ∨ 2 ^ 32 ≤ off + n then none
        else some (((s.store.data (s.icache e).inum).drop off).take n) := by
  rw [readi, sat_fsState_bind]
  rw [if_neg ht]
  split
  · exact ⟨rfl, rfl⟩
  · refine (readiLoop_spec h hl (Nat.min_le_left ..) (by omega)).bind fun bs s' hs' => ?_
    obtain ⟨hs', rfl⟩ := hs'
    refine ⟨hs', ?_⟩
    rw [Store.take_drop_data, h.node_eq hl]

/-- `readi` changes nothing but what is read from the console. -/
theorem readi_frame (h : s.Inv) (hl : s.Loaded e) (off n : Nat) :
    Sat E (readi e off n) s fun _ s' => ∃ console, s' = { s with console } := by
  rcases eq_or_ne (s.icache e).type T_DEV with ht | ht
  · rw [readi, sat_fsState_bind]
    rw [if_pos ht]
    split
    · exact ⟨_, rfl⟩
    · exact ⟨_, rfl⟩
  · exact (readi_spec h hl ht off n).weaken fun _ _ hs' => ⟨_, hs'.1⟩

end

/-! ## Writing an inode back -/

/-- The state with an inode stored on disk. -/
def State.putNode (s : State) (i : Nat) (d : Dinode) : State :=
  s.write (IBLOCK i s.sb) (setDinode (s.disk (IBLOCK i s.sb)) i d)

/-- The state after `iupdate`. -/
def State.flush (s : State) (e : Fin NINODE) : State :=
  s.putNode (s.icache e).inum (s.icache e).toDinode

/-- The invariant while entry `e` is ahead of its inode on disk. -/
structure State.FluxInv (s : State) (e : Fin NINODE) : Prop where
  store : (s.flux e).Wf
  inum : ∀ e, 0 < (s.icache e).ref → (s.icache e).inum < s.sb.ninodes
  unique : ∀ e e', 0 < (s.icache e).ref → 0 < (s.icache e').ref →
    (s.icache e).inum = (s.icache e').inum → e = e'
  nonneg : ∀ e, 0 ≤ (s.icache e).ref
  valid : ∀ e' ≠ e, 0 < (s.icache e').ref → (s.icache e').valid = true →
    (s.icache e').toDinode = s.node (s.icache e').inum ∧ (s.icache e').type ≠ 0
  ref : 0 < (s.icache e).ref

section
variable {s : State} {i : Nat} {d : Dinode}

/-- Storing an inode changes that inode only. -/
theorem State.node_putNode (hok : s.sb.Ok) (hi : i < s.sb.ninodes) :
    (s.putNode i d).node = update s.node i d := by
  funext j
  change (if j < s.sb.ninodes then
      dinodeAt (update s.disk (IBLOCK i s.sb) _ (IBLOCK j s.sb)) j
    else Dinode.zero) = _
  split
  · rename_i hj
    have hblock : IBLOCK j s.sb = IBLOCK i s.sb ↔ j / IPB = i / IPB := by
      rw [(hok.iblock_eq hi).1, (hok.iblock_eq hj).1, Nat.add_right_cancel_iff]
    have hsplit : j = i ↔ j / IPB = i / IPB ∧ i % IPB = j % IPB := by
      simp only [IPB, BSIZE, dinodeSize]
      omega
    have hnode : s.node j = dinodeAt (s.disk (IBLOCK j s.sb)) j := if_pos hj
    rcases eq_or_ne (IBLOCK j s.sb) (IBLOCK i s.sb) with heq | hne
    · rw [heq, update_self, dinodeAt_setDinode]
      split
      · rename_i hmod
        rw [hsplit.2 ⟨hblock.1 heq, hmod⟩, update_self]
      · rename_i hmod
        rw [update_of_ne fun hji => hmod (hsplit.1 hji).2, hnode, heq]
    · have hji : j ≠ i := fun hji => hne (congrArg (IBLOCK · s.sb) hji)
      rw [update_of_ne hne, update_of_ne hji, hnode]
  · rename_i hj
    have hji : j ≠ i := by
      rintro rfl
      exact hj hi
    rw [update_of_ne hji, node, if_neg hj]

/-- The store after an inode was stored. -/
theorem State.putNode_store (hi : i < s.sb.ninodes) (h : (s.store.setNode i d).Wf) :
    (s.putNode i d).store.Wf ∧ (s.putNode i d).view = (s.store.setNode i d).view := by
  have hok : s.sb.Ok := h.inv.ok
  have hblock := hok.iblock_eq hi
  have hstore : (s.putNode i d).store = (s.store.setNode i d).write (IBLOCK i s.sb)
      (setDinode (s.disk (IBLOCK i s.sb)) i d) := by
    rw [store, node_putNode hok hi]
    rfl
  have hlow : IBLOCK i s.sb < (s.store.setNode i d).sb.nmeta := lt_trans hblock.2.2 hok.bmapstart
  rw [view, hstore]
  exact h.write_low hlow (by omega) (ne_of_lt hblock.2.2)

end

section
variable {s : State} {e : Fin NINODE}

variable {E : Stop → Prop}

theorem sat_iupdate {Q : Unit → State → Prop} (hok : s.sb.Ok)
    (hi : (s.icache e).inum < s.sb.ninodes) : Sat E (iupdate e) s Q ↔ Q () (s.flush e) := by
  rw [iupdate, sat_fsState_bind]
  rw [sat_bread_bind (hok.iblock_lt hi)]
  rfl

/-- After `iupdate` the store on disk is the one with the inode from the cache, and no other entry
has fallen behind. -/
theorem State.FluxInv.flush_store (h : s.FluxInv e) :
    (s.flush e).store.Wf ∧ (s.flush e).view = (s.flux e).view ∧
      (s.icache e).toDinode = (s.flush e).node (s.icache e).inum ∧
      ∀ e' ≠ e, 0 < (s.icache e').ref → (s.icache e').valid = true →
        (s.icache e').toDinode = (s.flush e).node (s.icache e').inum ∧
          (s.icache e').type ≠ 0 := by
  have hi := h.inum e h.ref
  obtain ⟨hwf, hview⟩ := putNode_store hi h.store
  have hnode : (s.flush e).node = update s.node (s.icache e).inum (s.icache e).toDinode :=
    node_putNode h.store.inv.ok hi
  rw [hnode]
  refine ⟨hwf, hview, by rw [update_self], fun e' hne hr hv => ?_⟩
  rw [update_of_ne fun heq => hne (h.unique e' e hr h.ref heq)]
  exact h.valid e' hne hr hv

theorem State.FluxInv.flush (h : s.FluxInv e) (ht : (s.icache e).type ≠ 0) :
    (s.flush e).Inv ∧ (s.flush e).view = (s.flux e).view := by
  obtain ⟨hwf, hview, hnode, hothers⟩ := h.flush_store
  refine ⟨⟨hwf, h.inum, h.unique, h.nonneg, fun e' hr hv => ?_⟩, hview⟩
  rcases eq_or_ne e' e with rfl | hne
  · exact ⟨hnode, ht⟩
  · exact hothers e' hne hr hv

/-- What entry `e` has kept, when no other entry has changed, every entry has kept. -/
theorem State.entries_eq {β : Type} {s' : State} (g : Inode → β)
    (hothers : ∀ e' ≠ e, s'.icache e' = s.icache e') (hself : g (s'.icache e) = g (s.icache e))
    (e' : Fin NINODE) : g (s'.icache e') = g (s.icache e') := by
  rcases eq_or_ne e' e with rfl | hne
  · exact hself
  · rw [hothers e' hne]

/-- Entry `e` is the only one that may be ahead of the disk. -/
theorem State.Inv.fluxInv {s' : State} (h : s.Inv) (hr : 0 < (s.icache e).ref)
    (hsb : s'.sb = s.sb) (hnode : s'.node = s.node)
    (hothers : ∀ e' ≠ e, s'.icache e' = s.icache e')
    (hinum : (s'.icache e).inum = (s.icache e).inum) (href : (s'.icache e).ref = (s.icache e).ref)
    (hwf : (s'.flux e).Wf) : s'.FluxInv e := by
  have hinums := entries_eq Inode.inum hothers hinum
  have hrefs := entries_eq Inode.ref hothers href
  refine ⟨hwf, ?_, ?_, ?_, fun e' hne hr' hv => ?_, href ▸ hr⟩
  · simp only [hinums, hrefs, hsb]
    exact h.inum
  · simp only [hinums, hrefs]
    exact h.unique
  · simp only [hrefs]
    exact h.nonneg
  · rw [hothers e' hne] at hr' hv ⊢
    rw [hnode]
    exact h.valid e' hr' hv

/-- Entry `e` is set to what `iupdate` is to store, after blocks that hold no inodes have changed. -/
theorem State.Inv.fluxInv_setInode {s' : State} {ip : Inode} (h : s.Inv)
    (hr : 0 < (s.icache e).ref) (hsb : s'.sb = s.sb) (hnode : s'.node = s.node)
    (hothers : ∀ e' ≠ e, s'.icache e' = s.icache e') (hh : ip.handle = (s.icache e).handle)
    (hwf : ((s'.setInode e ip).flux e).Wf) :
    (s'.setInode e ip).FluxInv e ∧ (s'.setInode e ip).handle = s.handle := by
  have hcache : (s'.setInode e ip).icache e = ip := update_self ..
  have hother : ∀ e' ≠ e, (s'.setInode e ip).icache e' = s.icache e' := fun e' hne =>
    (update_of_ne hne ..).trans (hothers e' hne)
  refine ⟨h.fluxInv hr hsb hnode hother ?_ ?_ hwf, funext (entries_eq Inode.handle hother ?_)⟩
  · rw [hcache]
    exact congrArg Handle.inum hh
  · rw [hcache]
    exact congrArg Handle.ref hh
  · rw [hcache, hh]

/-- An entry that is not ahead of the disk after all. -/
theorem State.FluxInv.inv (h : s.FluxInv e) (ht : (s.icache e).type ≠ 0)
    (hsync : (s.icache e).toDinode = s.node (s.icache e).inum) :
    s.Inv ∧ s.view = (s.flux e).view := by
  have hn : update s.store.node (s.icache e).inum (s.icache e).toDinode =
      s.store.node := by
    rw [hsync]
    exact update_eq_self ..
  have hflux : s.flux e = s.store := by
    unfold flux Store.setNode
    rw [hn]
  refine ⟨⟨hflux ▸ h.store, h.inum, h.unique, h.nonneg, fun e' hr hv => ?_⟩, by rw [hflux]; rfl⟩
  rcases eq_or_ne e' e with rfl | hne
  · exact ⟨hsync, ht⟩
  · exact h.valid e' hne hr hv

/-- Assignments to attributes of a loaded inode, followed by `iupdate`. -/
theorem updateInode_spec (h : s.Inv) (hl : s.Loaded e) {f : Inode → Inode}
    (hattr : (f (s.icache e)).type = (s.icache e).type ∧
      (f (s.icache e)).addrs = (s.icache e).addrs ∧ (f (s.icache e)).size = (s.icache e).size)
    (hh : (f (s.icache e)).handle = (s.icache e).handle) :
    Sat E (updateInode e f) s fun _ s' => s'.Inv ∧ s'.sb = s.sb ∧ s'.free = s.free ∧
      s'.handle = s.handle ∧ s'.view = update s.view (s.icache e).inum
        (some ((f (s.icache e)).vnode (s.store.data (s.icache e).inum))) := by
  have hnode := h.node_eq hl
  have hinum : (f (s.icache e)).inum = (s.icache e).inum := congrArg Handle.inum hh
  have hcache : (s.setInode e (f (s.icache e))).icache e = f (s.icache e) :=
    update_self ..
  have hflux : (s.setInode e (f (s.icache e))).flux e =
      s.store.setNode (s.icache e).inum (f (s.icache e)).toDinode := by
    rw [State.flux_setInode hinum, h.flux_eq hl, hinum]
  obtain ⟨hwf, hview⟩ := h.store.setNode (d := (f (s.icache e)).toDinode)
    (by rw [hnode]; exact hattr.1) (by rw [hnode]; exact hattr.2.1) (h.node_type_ne hl)
    (by rw [hnode]; exact hattr.2.2)
  rw [← hflux] at hwf hview
  obtain ⟨hfi, hhandle⟩ := h.fluxInv_setInode hl.ref rfl rfl (fun _ _ => rfl) hh hwf
  rw [updateInode, sat_modifyInode_bind, sat_iupdate hfi.store.inv.ok (hfi.inum e hfi.ref)]
  obtain ⟨hinv, hview'⟩ := hfi.flush (by rw [hcache, hattr.1]; exact h.type_ne hl)
  have hok : s.sb.Ok := hfi.store.inv.ok
  refine ⟨hinv, rfl, (spent_write (s := s.setInode e (f (s.icache e))) hok h.store.inv.bitmap ?_).free,
    hhandle, hview'.trans hview⟩
  exact ne_of_lt (hok.iblock_eq (hfi.inum e hfi.ref)).2.2

end

end TronBoss.Fs
