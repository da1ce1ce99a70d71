import TronBoss.Fs.WriteSpec

/-!
# The inode cache and the life of an inode

The specifications of `iget`, `idup`, `ilock`, `iunlock`, which only change cache entries, and of
`ialloc` and `iput`, which allocate and free inodes. What a routine does to the cache is stated on
the entries without their copies of inodes (`State.handle`), what it does to files on `State.view`.
-/

namespace TronBoss.Fs

open Lib List Function

/-! ## Cache entries -/

section
variable {s : State} {e : Fin NINODE}

/-- Replacing a cache entry. -/
theorem State.Inv.setInode {ip : Inode} (h : s.Inv) (hn : 0 ≤ ip.ref)
    (hi : 0 < ip.ref → ip.inum < s.sb.ninodes)
    (hu : 0 < ip.ref → ∀ e' ≠ e, 0 < (s.icache e').ref → (s.icache e').inum ≠ ip.inum)
    (hv : 0 < ip.ref → ip.valid = true → ip.toDinode = s.node ip.inum ∧ ip.type ≠ 0) :
    (s.setInode e ip).Inv := by
  have hself : (s.setInode e ip).icache e = ip := update_self ..
  have hother : ∀ e' ≠ e, (s.setInode e ip).icache e' = s.icache e' := fun e' hne =>
    update_of_ne hne ..
  refine ⟨h.store, fun e' hr => ?_, fun e' e'' hr hr' heq => ?_, fun e' => ?_, fun e' hr hv' => ?_⟩
  · rcases eq_or_ne e' e with rfl | hne
    · rw [hself] at hr ⊢
      exact hi hr
    · rw [hother e' hne] at hr ⊢
      exact h.inum e' hr
  · rcases eq_or_ne e' e with rfl | hne <;> rcases eq_or_ne e'' e' with heq' | hne'
    · exact heq'.symm
    · rw [hself] at hr heq
      rw [hother e'' hne'] at hr' heq
      exact absurd heq.symm (hu hr e'' hne' hr')
    · exact heq'.symm
    · rw [hother e' hne] at hr heq
      rcases eq_or_ne e'' e with rfl | hne''
      · rw [hself] at hr' heq
        exact absurd heq (hu hr' e' hne hr)
      · rw [hother e'' hne''] at hr' heq
        exact h.unique e' e'' hr hr' heq
  · rcases eq_or_ne e' e with rfl | hne
    · rw [hself]
      exact hn
    · rw [hother e' hne]
      exact h.nonneg e'
  · rcases eq_or_ne e' e with rfl | hne
    · rw [hself] at hr hv' ⊢
      exact hv hr hv'
    · rw [hother e' hne] at hr hv' ⊢
      exact h.valid e' hr hv'

/-- Changing the reference count of an entry in use, or its lock. -/
theorem State.Inv.setHandle {ip : Inode} (h : s.Inv) (hr : 0 < (s.icache e).ref) (hn : 0 ≤ ip.ref)
    (hinum : ip.inum = (s.icache e).inum) (hvalid : ip.valid = (s.icache e).valid)
    (hd : ip.toDinode = (s.icache e).toDinode) : (s.setInode e ip).Inv := by
  refine h.setInode hn (fun _ => hinum ▸ h.inum e hr) (fun _ e' hne hr' heq => ?_) fun _ hv => ?_
  · exact hne (h.unique e' e hr' hr (heq.trans hinum))
  · have hve := h.valid e hr (hvalid ▸ hv)
    rw [hd, hinum]
    exact hve

variable {E : Stop → Prop}

/-- What `iget` does to the cache. -/
structure Got (s s' : State) (e : Fin NINODE) (inum : Nat) : Prop where
  others : ∀ e' ≠ e, s'.handle e' = s.handle e'
  old : 0 < (s.handle e).ref → (s.handle e).inum = inum ∧
    s'.handle e = { s.handle e with ref := (s.handle e).ref + 1 }
  new : ¬ 0 < (s.handle e).ref → (s.handle e).ref = 0 ∧ s'.handle e = ⟨inum, 1, false, false⟩

/-- The cache has an entry for inode `i`, or a free one. -/
def State.CacheRoom (s : State) (i : Nat) : Prop :=
  ∃ e, (s.icache e).ref = 0 ∨ 0 < (s.icache e).ref ∧ (s.icache e).inum = i

/-- The entry that `iget` returns, and the state after it. -/
inductive Iget (s : State) (inum : Nat) : Fin NINODE → State → Prop
  | old {e : Fin NINODE} (hr : 0 < (s.icache e).ref) (hi : (s.icache e).inum = inum) :
    Iget s inum e (s.setInode e { s.icache e with ref := (s.icache e).ref + 1 })
  | new {e : Fin NINODE} (hr : (s.icache e).ref = 0)
    (hno : ∀ e', 0 < (s.icache e').ref → (s.icache e').inum ≠ inum) :
    Iget s inum e
      (s.setInode e { s.icache e with inum, ref := 1, busy := false, valid := false })

/-- `iget` finds the entry of an inode or makes one, and panics when there is no room for it. -/
theorem iget_exact (inum : Nat) :
    Sat (fun err => err = .panic "iget: no inodes" ∧ ¬ s.CacheRoom inum) (iget inum) s
      (Iget s inum) := by
  rw [iget, sat_fsState_bind]
  split
  · rename_i e hfind
    have he := find?_some hfind
    rw [decide_eq_true_eq] at he
    rw [sat_modifyInode_bind, sat_pure]
    exact .old he.1 he.2
  · rename_i hnone
    have hno : ∀ e', 0 < (s.icache e').ref → (s.icache e').inum ≠ inum := by
      intro e' hr' heq
      have hno := find?_eq_none.1 hnone e' (mem_finRange e')
      rw [decide_eq_true_eq] at hno
      exact hno ⟨hr', heq⟩
    split
    · rename_i e hfind
      have he := find?_some hfind
      rw [decide_eq_true_eq] at he
      rw [sat_modifyInode_bind, sat_pure]
      exact .new he hno
    · rename_i hfull
      refine ⟨rfl, ?_⟩
      rintro ⟨e, he | ⟨hr, hi⟩⟩
      · exact find?_eq_none.1 hfull e (mem_finRange e) (decide_eq_true he)
      · exact hno e hr hi

/-- `iget` of an inode of the disk. -/
theorem Iget.got {inum : Nat} {s' : State} (hg : Iget s inum e s') (h : s.Inv)
    (hi : inum < s.sb.ninodes) :
    s'.Inv ∧ s'.sb = s.sb ∧ s'.view = s.view ∧ Got s s' e inum := by
  cases hg with
  | old hr hinum =>
    have hhandle := s.handle_setInode e { s.icache e with ref := (s.icache e).ref + 1 }
    refine ⟨h.setHandle hr (by dsimp only; omega) rfl rfl rfl, rfl, rfl,
      ⟨fun e' hne => ?_, fun _ => ⟨hinum, ?_⟩, fun hr' => absurd hr hr'⟩⟩
    · rw [hhandle, update_of_ne hne]
    · rw [hhandle, update_self]
      rfl
  | new hr hno =>
    have hhandle := s.handle_setInode e
      { s.icache e with inum, ref := 1, busy := false, valid := false }
    refine ⟨h.setInode Int.one_nonneg (fun _ => hi) (fun _ e' _ hr' heq => hno e' hr' heq)
      (fun _ hv => absurd hv (by simp)), rfl, rfl,
      ⟨fun e' hne => ?_, fun hr' => ?_, fun _ => ⟨hr, ?_⟩⟩⟩
    · rw [hhandle, update_of_ne hne]
    · have hr' : 0 < (s.icache e).ref := hr'
      omega
    · rw [hhandle, update_self]
      rfl

theorem iget_of_room {inum : Nat} (hE : s.CacheRoom inum ∨ E (.panic "iget: no inodes"))
    (h : s.Inv) (hi : inum < s.sb.ninodes) :
    Sat E (iget inum) s fun e s' => s'.Inv ∧ s'.sb = s.sb ∧ s'.view = s.view ∧ Got s s' e inum := by
  refine (iget_exact inum).mono ?_ fun e s' hs' => hs'.got h hi
  rintro _ ⟨rfl, hfull⟩
  exact hE.resolve_left hfull

theorem iget_spec {inum : Nat} (hE : ∀ e, OutOfSpace e → E e) (h : s.Inv)
    (hi : inum < s.sb.ninodes) :
    Sat E (iget inum) s fun e s' => s'.Inv ∧ s'.sb = s.sb ∧ s'.view = s.view ∧ Got s s' e inum :=
  iget_of_room (.inr (hE _ (.inr (.inr rfl)))) h hi

/-- `idup` of an entry in use. -/
theorem idup_spec (h : s.Inv) (hr : 0 < (s.icache e).ref) :
    Sat E (idup e) s fun e' s' => e' = e ∧ s'.Inv ∧ s'.sb = s.sb ∧ s'.view = s.view ∧
      s'.handle = update s.handle e { s.handle e with ref := (s.handle e).ref + 1 } := by
  rw [idup, sat_modifyInode_bind, sat_pure]
  refine ⟨rfl, h.setHandle hr (by dsimp only; omega) rfl rfl rfl, rfl, rfl, ?_⟩
  exact s.handle_setInode e { s.icache e with ref := (s.icache e).ref + 1 }

/-- What `ilock` does with an entry whose copy is not valid. -/
theorem iload_spec (h : s.Inv) (hr : 0 < (s.icache e).ref)
    (ha : (s.node (s.icache e).inum).type ≠ 0 ∨ E (.panic "ilock: no type")) :
    Sat E (iload e) s fun _ s' => s'.Inv ∧ s'.sb = s.sb ∧ s'.view = s.view ∧ s'.Loaded e ∧
      s'.handle = update s.handle e { s.handle e with valid := true } := by
  have hi := h.inum e hr
  have hok : s.sb.Ok := h.store.inv.ok
  have hnode : dinodeAt (s.disk (IBLOCK (s.icache e).inum s.sb)) (s.icache e).inum =
      s.node (s.icache e).inum := (if_pos hi).symm
  rw [iload, sat_fsState_bind]
  rw [sat_bread_bind (hok.iblock_lt hi), hnode, sat_modifyInode_bind, sat_brelse_bind, sat_panicIf]
  refine ⟨fun ht => ha.resolve_left fun hne => hne ht, fun ht => ?_⟩
  generalize hip : { s.icache e with toDinode := s.node (s.icache e).inum, valid := true } = ip
  have hself : (s.setInode e ip).icache e = ip := update_self ..
  refine ⟨h.setInode ?_ ?_ ?_ ?_, rfl, rfl, ⟨?_, ?_⟩, ?_⟩
  · rw [← hip]
    exact h.nonneg e
  · rw [← hip]
    exact fun _ => hi
  · rw [← hip]
    exact fun _ e' hne hr' heq => hne (h.unique e' e hr' hr heq)
  · rw [← hip]
    exact fun _ _ => ⟨rfl, ht⟩
  · rw [hself, ← hip]
    exact hr
  · rw [hself, ← hip]
  · rw [State.handle_setInode, ← hip]
    rfl

/-- `ilock` loads the inode. It needs an entry in use, that nobody has locked, for an inode that is
allocated; where one of these is not known, the stop must be allowed. -/
theorem ilock_spec (h : s.Inv) (hr : 0 < (s.icache e).ref ∨ E (.panic "ilock"))
    (hb : (s.icache e).busy = false ∨ E .diverge)
    (ha : (s.node (s.icache e).inum).type ≠ 0 ∨ E (.panic "ilock: no type")) :
    Sat E (ilock e) s fun _ s' => s'.Inv ∧ s'.sb = s.sb ∧ s'.view = s.view ∧ s'.Loaded e ∧
      0 < (s.icache e).ref ∧ (s.icache e).busy = false ∧
      s'.handle = update s.handle e { s.handle e with busy := true, valid := true } := by
  rw [ilock, sat_fsState_bind]
  rw [sat_panicIf_bind]
  refine ⟨fun hlt => hr.resolve_left (by omega), fun hge => ?_⟩
  have hr : 0 < (s.icache e).ref := by omega
  refine Sat.ite (fun hbusy => ?_) fun hbusy => ?_
  · exact hb.resolve_left (by simp [hbusy])
  · have hbusy : (s.icache e).busy = false := by simpa using hbusy
    rw [sat_setBusy_bind]
    have hinv : (s.setInode e { s.icache e with busy := true }).Inv :=
      h.setHandle hr (h.nonneg e) rfl rfl rfl
    have hhandle := s.handle_setInode e { s.icache e with busy := true }
    have hself : (s.setInode e { s.icache e with busy := true }).icache e =
      { s.icache e with busy := true } := update_self ..
    refine Sat.ite (fun hv => ?_) fun hv => ?_
    · rw [sat_pure]
      refine ⟨hinv, rfl, rfl, ⟨?_, ?_⟩, hr, hbusy, ?_⟩
      · rw [hself]
        exact hr
      · rw [hself]
        exact hv
      · rw [hhandle]
        congr 1
        simp only [Inode.handle, State.handle, hv]
    · have hinum : ((s.setInode e { s.icache e with busy := true }).icache e).inum =
          (s.icache e).inum := by rw [hself]
      refine (iload_spec hinv (by rw [hself]; exact hr) (by rw [hinum]; exact ha)).weaken
        fun _ s' hs' => ?_
      obtain ⟨hinv', hsb, hview, hl, hh⟩ := hs'
      refine ⟨hinv', hsb, hview, hl, hr, hbusy, ?_⟩
      rw [hh, hhandle, update_self, update_idem]
      rfl

/-- `iunlock` by the holder of the lock. -/
theorem iunlock_spec (h : s.Inv) (hr : 0 < (s.icache e).ref) (hb : (s.icache e).busy = true) :
    Sat E (iunlock e) s fun _ s' => s'.Inv ∧ s'.sb = s.sb ∧ s'.view = s.view ∧
      s'.handle = update s.handle e { s.handle e with busy := false } := by
  rw [iunlock, sat_fsState_bind]
  rw [sat_panicIf_bind]
  refine ⟨fun hbad => ?_, fun _ => ?_⟩
  · rcases hbad with hbad | hbad
    · rw [hb] at hbad
      cases hbad
    · omega
  · rw [sat_setBusy]
    exact ⟨h.setHandle hr (h.nonneg e) rfl rfl rfl, rfl, rfl,
      s.handle_setInode e { s.icache e with busy := false }⟩

end

/-! ## Truncation -/

/-- The blocks that inode `i` holds in the slots `S`. -/
def Store.blocks (st : Store) (i : Nat) (S : Set Slot) : Set Nat := (fun σ => st.own (i, σ)) '' S

/-- While `itrunc` runs: the blocks in the slots `S` of entry `e` have been given back. -/
structure Trunc (s s' : State) (e : Fin NINODE) (S : Set Slot) : Prop where
  sb : s'.sb = s.sb
  disk : ∀ b ≠ s.sb.bmapstart, s'.disk b = s.disk b
  bitmap : Bitmap s.sb s'.disk (held s.store.own \ s.store.blocks (s.icache e).inum S)
  entry : s'.icache e =
    { s.icache e with toDinode := (s.icache e).toDinode.withAddrs (s'.icache e).addrs }
  freed : ∀ k, addrSlot k ∈ S → (s'.icache e).addrs k = 0
  kept : ∀ k, addrSlot k ∉ S → (s'.icache e).addrs k = (s.icache e).addrs k
  others : ∀ e' ≠ e, s'.icache e' = s.icache e'

section
variable {s s' : State} {e : Fin NINODE} {S : Set Slot} {σ : Slot} {E : Stop → Prop}

theorem Store.blocks_insert (st : Store) (i : Nat) :
    held st.own \ st.blocks i (insert σ S) = (held st.own \ st.blocks i S) \ {st.own (i, σ)} := by
  rw [Store.blocks, Set.image_insert_eq, ← Set.union_singleton]
  exact Set.sdiff_sdiff.symm

variable (h : s.Inv)
include h

theorem Trunc.empty : Trunc s s e ∅ := by
  refine ⟨rfl, fun _ _ => rfl, ?_, rfl, fun k hk => absurd hk (Set.notMem_empty _),
    fun _ _ => rfl, fun _ _ => rfl⟩
  rw [Store.blocks, Set.image_empty, Set.sdiff_empty]
  exact h.store.inv.bitmap

/-- Giving back blocks changes no inode on disk. -/
theorem Trunc.node (ht : Trunc s s' e S) : s'.node = s.node := by
  funext i
  rw [State.node, State.node, ht.sb]
  split
  · rename_i hi
    have hne : IBLOCK i s.sb ≠ s.sb.bmapstart := ne_of_lt (h.store.inv.ok.iblock_eq hi).2.2
    rw [ht.disk _ hne]
  · rfl

/-- The call of `bfree` for a slot. -/
theorem Trunc.bfree (ht : Trunc s s' e S) (hσ : σ ∉ S)
    (h0 : s.store.own ((s.icache e).inum, σ) ≠ 0) :
    Sat E (bfree (s.store.own ((s.icache e).inum, σ))) s' fun _ s'' =>
      Bitmap s.sb s''.disk (held s.store.own \ s.store.blocks (s.icache e).inum (insert σ S)) ∧
      ∃ bm, s'' = s'.write s.sb.bmapstart bm := by
  have hinv := h.store.inv
  have hmem : s.store.own ((s.icache e).inum, σ) ∈
      held s.store.own \ s.store.blocks (s.icache e).inum S := by
    refine ⟨mem_held h0, ?_⟩
    rintro ⟨τ, hτ, heq⟩
    have hτσ := hinv.excl _ _ h0 heq.symm
    rw [Prod.mk.injEq] at hτσ
    exact hσ (hτσ.2 ▸ hτ)
  have hsuper : Superblock.decode (s'.disk 1) = s'.sb := by
    rw [ht.disk 1 hinv.one_low.2, ht.sb]
    exact hinv.super
  refine (bfree_spec (s := s') (ht.sb ▸ hinv.ok) (ht.sb ▸ ht.bitmap) hsuper hmem
    (ht.sb ▸ hinv.area _ h0)).weaken fun _ s'' hs'' => ?_
  rw [ht.sb, ← Store.blocks_insert] at hs''
  exact hs''

variable (hl : s.Loaded e)
include hl

theorem State.Inv.own_addrSlot (k : Fin (NDIRECT + 1)) :
    s.store.own ((s.icache e).inum, addrSlot k) = ((s.icache e).addrs k).toNat := by
  rw [Store.own_of_type (h.node_type_ne hl), Dinode.block_addrSlot, h.node_eq hl]

variable (ht : Trunc s s' e S)
include ht

/-- Empty slots need no work. -/
theorem Trunc.skip {T : Set Slot} (hST : S ⊆ T)
    (h0 : ∀ σ ∈ T, σ ∈ S ∨ s.store.own ((s.icache e).inum, σ) = 0) : Trunc s s' e T := by
  refine ⟨ht.sb, ht.disk, ?_, ht.entry, fun k hk => ?_, fun k hk => ht.kept k fun hS => hk (hST hS),
    ht.others⟩
  · have hsame : held s.store.own \ s.store.blocks (s.icache e).inum T =
        held s.store.own \ s.store.blocks (s.icache e).inum S := by
      refine Set.Subset.antisymm (Set.sdiff_subset_sdiff_right (Set.image_mono hST)) ?_
      rintro b ⟨hb, hS⟩
      refine ⟨hb, ?_⟩
      rintro ⟨σ, hσ, rfl⟩
      exact (h0 σ hσ).elim (fun hσS => hS ⟨σ, hσS, rfl⟩) hb.1
    rw [hsame]
    exact ht.bitmap
  · rcases Classical.em (addrSlot k ∈ S) with hS | hS
    · exact ht.freed k hS
    · have hz := (h0 _ hk).resolve_left hS
      rw [h.own_addrSlot hl] at hz
      rw [ht.kept k hS, u32_toNat_eq_zero.1 hz]

theorem Trunc.skip_one (h0 : s.store.own ((s.icache e).inum, σ) = 0) :
    Trunc s s' e (insert σ S) := by
  refine ht.skip h hl (Set.subset_insert ..) ?_
  rintro τ (rfl | hτ)
  · exact .inr h0
  · exact .inl hτ

/-- The block in `addrs[k]` given back. -/
theorem itruncDirect_spec {k : Fin (NDIRECT + 1)} (hk : addrSlot k ∉ S) :
    Sat E (itruncDirect e k) s' fun _ s'' => Trunc s s'' e (insert (addrSlot k) S) := by
  have hown := h.own_addrSlot hl k
  rw [itruncDirect, sat_fsState_bind]
  rw [ht.kept k hk]
  refine Sat.ite (fun h0 => ?_) fun h0 => ?_
  · exact ht.skip_one h hl (by rw [hown, h0]; rfl)
  · rw [← hown]
    refine (ht.bfree h hk fun hc => h0 (u32_toNat_eq_zero.1 (hown ▸ hc))).bind fun _ s'' hs'' => ?_
    obtain ⟨hbm, bm, rfl⟩ := hs''
    rw [sat_modifyInode]
    have hself : ((s'.write s.sb.bmapstart bm).setInode e
        (((s'.write s.sb.bmapstart bm).icache e).setAddr k 0)).icache e =
        (s'.icache e).setAddr k 0 := update_self ..
    refine ⟨ht.sb, fun b hb => ?_, hbm, ?_, fun k' hk' => ?_, fun k' hk' => ?_, fun e' he => ?_⟩
    · exact (update_of_ne hb ..).trans (ht.disk b hb)
    · rw [hself, Inode.setAddr, ht.entry]
      rfl
    · rw [hself]
      rcases eq_or_ne k' k with rfl | hne
      · exact update_self ..
      · rcases hk' with hk' | hk'
        · exact absurd (addrSlot_inj hk') hne
        · exact (update_of_ne hne ..).trans (ht.freed k' hk')
    · rw [hself]
      have hne : k' ≠ k := by
        rintro rfl
        exact hk' (.inl rfl)
      exact (update_of_ne hne ..).trans (ht.kept k' fun hS => hk' (.inr hS))
    · exact (update_of_ne he ..).trans (ht.others e' he)

end

/-- The slots of some of the `addrs`. -/
def addrSlots (ks : List (Fin (NDIRECT + 1))) : Set Slot := {σ | ∃ k ∈ ks, σ = addrSlot k}

theorem addrSlots_append (ks : List (Fin (NDIRECT + 1))) (k : Fin (NDIRECT + 1)) :
    addrSlots (ks ++ [k]) = insert (addrSlot k) (addrSlots ks) := by
  ext σ
  simp only [addrSlots, Set.mem_ofPred_eq, mem_append, mem_singleton, Set.mem_insert_iff]
  constructor
  · rintro ⟨k', hk | rfl, rfl⟩
    · exact .inr ⟨k', hk, rfl⟩
    · exact .inl rfl
  · rintro (rfl | ⟨k', hk, rfl⟩)
    · exact ⟨k, .inr rfl, rfl⟩
    · exact ⟨k', .inl hk, rfl⟩

/-- The slots of entries of the indirect block. -/
def entrySlots (js : List Nat) : Set Slot := {σ | ∃ j : Fin NINDIRECT, j.val ∈ js ∧ σ = .entry j}

theorem entrySlots_append {S : Set Slot} {js : List Nat} (j : Fin NINDIRECT) :
    S ∪ entrySlots (js ++ [j.val]) = insert (.entry j) (S ∪ entrySlots js) := by
  ext σ
  simp only [entrySlots, Set.mem_union, Set.mem_ofPred_eq, mem_append, mem_singleton,
    Set.mem_insert_iff]
  constructor
  · rintro (hS | ⟨j', hj | hj, rfl⟩)
    · exact .inr (.inl hS)
    · exact .inr (.inr ⟨j', hj, rfl⟩)
    · exact .inl (by rw [Fin.ext hj])
  · rintro (rfl | hS | ⟨j', hj, rfl⟩)
    · exact .inr ⟨j, .inr rfl, rfl⟩
    · exact .inl hS
    · exact .inr ⟨j', .inl hj, rfl⟩

theorem addrSlot_ne_entry (k : Fin (NDIRECT + 1)) (j : Fin NINDIRECT) : addrSlot k ≠ .entry j := by
  unfold addrSlot
  split <;> simp

section
variable {s s' : State} {e : Fin NINODE} {S : Set Slot} {E : Stop → Prop} (h : s.Inv)
  (hl : s.Loaded e)
include h hl

/-- The blocks in the entries of the indirect block given back. -/
theorem itruncEntries_spec (hS : ∀ j, .entry j ∉ S) (ht : Trunc s s' e S)
    (h0 : (s.icache e).addrs (Fin.last NDIRECT) ≠ 0) :
    Sat E (itruncEntries (s.disk ((s.icache e).addrs (Fin.last NDIRECT)).toNat)) s' fun _ s'' =>
      Trunc s s'' e (S ∪ entrySlots (List.range NINDIRECT)) := by
  have hind := h.own_addrSlot hl (Fin.last NDIRECT)
  rw [addrSlot_last] at hind
  have hind0 : s.store.own ((s.icache e).inum, .indirect) ≠ 0 := fun hc =>
    h0 (u32_toNat_eq_zero.1 (hind ▸ hc))
  have hentry (j : Fin NINDIRECT) : s.store.own ((s.icache e).inum, .entry j) =
      ((s.disk ((s.icache e).addrs (Fin.last NDIRECT)).toNat).read32 (4 * j.val)).toNat := by
    rw [Store.own_entry hind0, hind]
    rfl
  refine Sat.forM (I := fun js s'' => Trunc s s'' e (S ∪ entrySlots js)) ?_ ?_
  · intro js j post s1 hrange ht1
    have hnodup := hrange ▸ nodup_range (n := NINDIRECT)
    have hmem : j ∈ List.range NINDIRECT := by simp [hrange]
    have hj : .entry ⟨j, mem_range.1 hmem⟩ ∉ S ∪ entrySlots js := by
      rintro (hj | ⟨j', hj', heq⟩)
      · exact hS _ hj
      · cases heq
        exact (nodup_append.1 hnodup).2.2 j hj' j (mem_cons_self ..) rfl
    have hold := hentry ⟨j, mem_range.1 hmem⟩
    rw [entrySlots_append ⟨j, mem_range.1 hmem⟩]
    refine Sat.ite (fun hz => ?_) fun hz => ?_
    · exact ht1.skip_one h hl (by rw [hold, hz]; rfl)
    · rw [← hold]
      refine (ht1.bfree h hj fun hc => hz (u32_toNat_eq_zero.1 (hold ▸ hc))).weaken
        fun _ s2 hs2 => ?_
      obtain ⟨hbm, bm, rfl⟩ := hs2
      refine ⟨ht1.sb, fun b hb => ?_, hbm, ht1.entry, fun k hk => ?_, fun k hk => ?_, ht1.others⟩
      · exact (update_of_ne hb ..).trans (ht1.disk b hb)
      · exact ht1.freed k (hk.resolve_left (addrSlot_ne_entry k _))
      · exact ht1.kept k fun hk' => hk (.inr hk')
  · have hnil : entrySlots [] = ∅ := by simp [entrySlots]
    rw [hnil, Set.union_empty]
    exact ht

/-- What `itrunc` does with the indirect block. -/
theorem itruncIndirect_spec (hS : ∀ j, .entry j ∉ S) (hS' : .indirect ∉ S) (ht : Trunc s s' e S) :
    Sat E (itruncIndirect e) s' fun _ s'' =>
      Trunc s s'' e (insert .indirect (S ∪ entrySlots (List.range NINDIRECT))) := by
  have hind := h.own_addrSlot hl (Fin.last NDIRECT)
  rw [addrSlot_last] at hind
  rw [itruncIndirect, sat_fsState_bind]
  rw [ht.kept (Fin.last NDIRECT) (by rw [addrSlot_last]; exact hS')]
  refine Sat.ite (fun h0 => ?_) fun h0 => ?_
  · have hnone : s.store.own ((s.icache e).inum, .indirect) = 0 := by
      rw [hind, h0]
      rfl
    refine ht.skip h hl (Set.subset_union_left.trans (Set.subset_insert ..)) ?_
    rintro σ (rfl | hσ | ⟨j, -, rfl⟩)
    · exact .inr hnone
    · exact .inl hσ
    · exact .inr (Store.own_entry_of_none hnone)
  · have hind0 : s.store.own ((s.icache e).inum, .indirect) ≠ 0 := fun hc =>
      h0 (u32_toNat_eq_zero.1 (hind ▸ hc))
    have harea := h.store.inv.area _ hind0
    have hne := h.store.inv.own_ne hind0 h.store.inv.ok.bmapstart
    rw [hind] at harea hne
    rw [sat_bread_bind (lt_of_lt_of_le harea.2 h.store.inv.ok.size), ht.disk _ hne]
    refine (itruncEntries_spec h hl hS ht h0).bind fun _ s1 ht1 => sat_brelse_bind.2 ?_
    have hS1 : addrSlot (Fin.last NDIRECT) ∉ S ∪ entrySlots (List.range NINDIRECT) := by
      rintro (hc | ⟨j, -, hc⟩)
      · exact hS' (addrSlot_last ▸ hc)
      · exact addrSlot_ne_entry _ _ hc
    have hlast := itruncDirect_spec (E := E) h hl ht1 hS1
    rwa [addrSlot_last] at hlast

/-- The loop over the direct blocks. -/
theorem itruncDirects_spec {ks : List (Fin (NDIRECT + 1))} (hks : ks.Nodup) :
    Sat E (ks.forM (itruncDirect e)) s fun _ s' => Trunc s s' e (addrSlots ks) := by
  refine Sat.forM (I := fun ks s' => Trunc s s' e (addrSlots ks)) ?_ ?_
  · intro pre k post s1 hsplit ht1
    rw [addrSlots_append]
    refine itruncDirect_spec h hl ht1 ?_
    rintro ⟨k', hk', heq⟩
    rw [hsplit, nodup_append] at hks
    exact hks.2.2 k' hk' k (mem_cons_self ..) (addrSlot_inj heq.symm)
  · have hnil : addrSlots [] = ∅ := by simp [addrSlots]
    rw [hnil]
    exact .empty h

/-- `itrunc` gives back all blocks of a loaded inode. -/
theorem itrunc_spec :
    Sat E (itrunc e) s fun _ s' => s'.Inv ∧ s'.sb = s.sb ∧ s'.handle = s.handle ∧
      (s'.icache e).toDinode = ((s.icache e).toDinode.withAddrs fun _ => 0).withSize 0 ∧
      s'.view = update s.view (s.icache e).inum (some ((s.icache e).vnode [])) := by
  have hnodup : ((finRange NDIRECT).map Fin.castSucc).Nodup := by decide
  refine (itruncDirects_spec h hl hnodup).bind fun _ s1 ht1 => ?_
  have hdirect {σ : Slot} (hσ : σ ∈ addrSlots ((finRange NDIRECT).map Fin.castSucc)) :
      ∃ k, σ = .direct k := by
    obtain ⟨k, hk, rfl⟩ := hσ
    obtain ⟨k', -, rfl⟩ := mem_map.1 hk
    exact ⟨k', addrSlot_castSucc k'⟩
  refine (itruncIndirect_spec h hl (fun j hj => ?_) (fun hj => ?_) ht1).bind fun _ s2 ht2 => ?_
  · obtain ⟨k, hk⟩ := hdirect hj
    cases hk
  · obtain ⟨k, hk⟩ := hdirect hj
    cases hk
  have hall : insert .indirect (addrSlots ((finRange NDIRECT).map Fin.castSucc) ∪
      entrySlots (List.range NINDIRECT)) = Set.univ := by
    refine Set.eq_univ_of_forall fun σ => ?_
    cases σ with
    | direct k =>
      exact .inr (.inl ⟨k.castSucc, mem_map_of_mem (mem_finRange k),
        (addrSlot_castSucc k).symm⟩)
    | indirect => exact .inl rfl
    | entry j => exact .inr (.inr ⟨j, mem_range.2 j.isLt, rfl⟩)
  rw [hall] at ht2
  have hblocks : s.store.blocks (s.icache e).inum Set.univ =
      s.store.own '' {x | x.1 = (s.icache e).inum} := by
    ext b
    constructor
    · rintro ⟨σ, -, rfl⟩
      exact ⟨_, rfl, rfl⟩
    · rintro ⟨⟨j, σ⟩, rfl, rfl⟩
      exact ⟨σ, trivial, rfl⟩
  have haddrs : (s2.icache e).addrs = fun _ => 0 := funext fun k => ht2.freed k (Set.mem_univ _)
  have hnode2 := ht2.node h
  generalize hip : (fun ip : Inode => { ip with size := 0 }) = f
  have hinum : (f (s2.icache e)).inum = (s2.icache e).inum := by rw [← hip]
  have hinum2 : (s2.icache e).inum = (s.icache e).inum := by rw [ht2.entry]
  have hdin : (f (s2.icache e)).toDinode =
      ((s.icache e).toDinode.withAddrs fun _ => 0).withSize 0 := by
    rw [← hip, ← haddrs, ht2.entry]
    rfl
  have hcache : (s2.setInode e (f (s2.icache e))).icache e = f (s2.icache e) :=
    update_self ..
  have hf : (f (s2.icache e)).handle = (s.icache e).handle := by
    rw [← hip, ht2.entry]
    rfl
  have hnode : ((s2.setInode e (f (s2.icache e))).flux e).node =
      update s.store.node (s.icache e).inum
        (((s.icache e).toDinode.withAddrs fun _ => 0).withSize 0) := by
    rw [State.flux, hcache, hinum, hinum2, hdin]
    exact congrArg (update · _ _) hnode2
  obtain ⟨hwf, hview⟩ := @Store.Wf.truncate s.store ((s2.setInode e (f (s2.icache e))).flux e)
    (s.icache e).inum (((s.icache e).toDinode.withAddrs fun _ => 0).withSize 0) (fun _ => rfl) rfl
    h.store ht2.sb hnode ht2.disk (hblocks ▸ ht2.bitmap)
  obtain ⟨hfi, hhandle⟩ := h.fluxInv_setInode hl.ref ht2.sb hnode2 ht2.others hf hwf
  rw [updateInode, sat_modifyInode_bind, sat_iupdate hfi.store.inv.ok (hfi.inum e hfi.ref)]
  obtain ⟨hinv, hview'⟩ := hfi.flush (by
    rw [hcache, hdin]
    exact h.type_ne hl)
  refine ⟨hinv, ht2.sb, hhandle, ?_, ?_⟩
  · exact (congrArg Inode.toDinode hcache).trans hdin
  · rw [hview', hview, if_neg]
    · rfl
    · exact h.type_ne hl

end

/-! ## Freeing and allocating inodes -/

section
variable {s : State} {e : Fin NINODE} {E : Stop → Prop}

/-- An inode stored for the last time: its cache entry is not valid any more. -/
theorem State.FluxInv.flush_invalid {ip : Inode} (h : s.FluxInv e) (hv : ip.valid = false)
    (hinum : ip.inum = (s.icache e).inum) (href : ip.ref = (s.icache e).ref) :
    ((s.flush e).setInode e ip).Inv ∧ ((s.flush e).setInode e ip).view = (s.flux e).view := by
  obtain ⟨hwf, hview, -, hothers⟩ := h.flush_store
  have hself : ((s.flush e).setInode e ip).icache e = ip := update_self ..
  have hother : ∀ e' ≠ e, ((s.flush e).setInode e ip).icache e' = s.icache e' := fun e' hne =>
    update_of_ne hne ..
  have hinums := State.entries_eq Inode.inum hother (by rw [hself, hinum])
  have hrefs := State.entries_eq Inode.ref hother (by rw [hself, href])
  refine ⟨⟨hwf, ?_, ?_, ?_, fun e' hr' hv' => ?_⟩, hview⟩
  · simp only [hinums, hrefs]
    exact h.inum
  · simp only [hinums, hrefs]
    exact h.unique
  · simp only [hrefs]
    exact h.nonneg
  · rcases eq_or_ne e' e with rfl | hne
    · rw [hself, hv] at hv'
      cases hv'
    · rw [hother e' hne] at hr' hv' ⊢
      exact hothers e' hne hr' hv'

/-- `iput` frees an inode. -/
theorem ifree_spec (h : s.Inv) (hl : s.Loaded e)
    (hb : (s.icache e).busy = false ∨ E (.panic "iput busy")) :
    Sat E (ifree e) s fun _ s' => s'.Inv ∧ s'.sb = s.sb ∧
      s'.handle = update s.handle e { s.handle e with busy := false, valid := false } ∧
      s'.view = update s.view (s.icache e).inum none := by
  rw [ifree, sat_fsState_bind]
  rw [sat_panicIf_bind]
  refine ⟨fun hbusy => hb.resolve_left (by rw [hbusy]; simp), fun _ => ?_⟩
  rw [sat_setBusy_bind]
  generalize hs1 : s.setInode e { s.icache e with busy := true } = s1
  have hcache1 : s1.icache e = { s.icache e with busy := true } := by
    rw [← hs1]
    exact update_self ..
  have hinv1 : s1.Inv := hs1 ▸ h.setHandle hl.ref (h.nonneg e) rfl rfl rfl
  have hl1 : s1.Loaded e := ⟨by rw [hcache1]; exact hl.ref, by rw [hcache1]; exact hl.valid⟩
  have hinum1 : (s1.icache e).inum = (s.icache e).inum := by rw [hcache1]
  have hsb1 : s1.sb = s.sb := by
    rw [← hs1]
    rfl
  have hview1 : s1.view = s.view := by
    rw [← hs1]
    rfl
  have hhandle1 : s1.handle = update s.handle e { s.handle e with busy := true } := by
    rw [← hs1, State.handle_setInode]
    rfl
  refine (itrunc_spec hinv1 hl1).bind fun _ s2 hs2 => ?_
  obtain ⟨hinv2, hsb2, hhandle2, hdin2, hview2⟩ := hs2
  have hentry2 := congrFun hhandle2 e
  have hinum2 : (s2.icache e).inum = (s1.icache e).inum := congrArg Handle.inum hentry2
  have href2 : (s2.icache e).ref = (s1.icache e).ref := congrArg Handle.ref hentry2
  have hl2 : s2.Loaded e := ⟨href2 ▸ hl1.ref, (congrArg Handle.valid hentry2).trans hl1.valid⟩
  generalize hip : (fun ip : Inode => { ip with type := 0 }) = f
  have hinum : (f (s2.icache e)).inum = (s2.icache e).inum := by rw [← hip]
  have hempty := hinv2.store.own_of_size (i := (s2.icache e).inum) (by
    rw [hinv2.node_eq hl2, hdin2]
    rfl)
  have haddrs (k : Fin (NDIRECT + 1)) : (f (s2.icache e)).addrs k = 0 := by
    have hk : (f (s2.icache e)).addrs = (s2.icache e).toDinode.addrs := by rw [← hip]
    rw [hk, hdin2]
    rfl
  have hsize : (f (s2.icache e)).size = 0 := by
    have hk : (f (s2.icache e)).size = (s2.icache e).toDinode.size := by rw [← hip]
    rw [hk, hdin2]
    rfl
  have htype : (f (s2.icache e)).type = 0 := by rw [← hip]
  obtain ⟨hwf, hview⟩ := hinv2.store.setEmpty haddrs hsize hempty
  rw [if_pos htype] at hview
  have hflux : (s2.setInode e (f (s2.icache e))).flux e =
      s2.store.setNode (s2.icache e).inum (f (s2.icache e)).toDinode := by
    rw [State.flux_setInode hinum, hinv2.flux_eq hl2, hinum]
  rw [← hflux] at hwf hview
  obtain ⟨hfi, hhandle⟩ := hinv2.fluxInv_setInode hl2.ref rfl rfl (fun _ _ => rfl)
    (by rw [← hip]; rfl) hwf
  rw [updateInode, sat_bind, sat_modifyInode_bind,
    sat_iupdate hfi.store.inv.ok (hfi.inum e hfi.ref), sat_modifyInode_bind, sat_setBusy,
    State.setInode_setInode, State.icache_setInode]
  obtain ⟨hinv, hview'⟩ := @State.FluxInv.flush_invalid _ _ { ((s2.setInode e
    (f (s2.icache e))).flush e).icache e with busy := false, valid := false } hfi rfl rfl rfl
  refine ⟨hinv, hsb2.trans hsb1, ?_, ?_⟩
  · have hflush : ((s2.setInode e (f (s2.icache e))).flush e).handle =
        update s.handle e { s.handle e with busy := true } :=
      hhandle.trans (hhandle2.trans hhandle1)
    have hentry := congrFun hflush e
    rw [update_self] at hentry
    rw [State.handle_setInode, hflush, update_idem]
    exact congrArg (fun t => update s.handle e { t with busy := false, valid := false }) hentry
  · rw [hview', hview]
    change update s2.view _ _ = _
    rw [hview2, hinum2, update_idem, hview1, hinum1]

/-- `iput` gives up a reference, and frees the inode if that was the last one and there are no
links. -/
theorem iput_spec (h : s.Inv) (hr : 0 < (s.icache e).ref)
    (hb : (s.icache e).ref = 1 → (s.icache e).busy = false ∨ E (.panic "iput busy")) :
    Sat E (iput e) s fun _ s' => s'.Inv ∧ s'.sb = s.sb ∧
      ((s'.view = s.view ∧
          s'.handle = update s.handle e { s.handle e with ref := (s.handle e).ref - 1 }) ∨
        ∃ v, s.view (s.icache e).inum = some v ∧ v.nlink = 0 ∧ (s.handle e).ref = 1 ∧
          s'.view = update s.view (s.icache e).inum none ∧
          s'.handle = update s.handle e ⟨(s.icache e).inum, 0, false, false⟩) := by
  rw [iput, sat_fsState_bind]
  refine Sat.ite (fun hfree => ?_) fun _ => ?_
  · obtain ⟨href, hv, hn⟩ := hfree
    have hl : s.Loaded e := ⟨hr, hv⟩
    refine (ifree_spec h hl (hb href)).bind fun _ s1 hs1 => ?_
    obtain ⟨hinv1, hsb1, hhandle1, hview1⟩ := hs1
    have hentry : (s1.icache e).handle = ⟨(s.icache e).inum, 1, false, false⟩ := by
      have he := congrFun hhandle1 e
      rw [update_self] at he
      rw [← href]
      exact he
    have href1 : (s1.icache e).ref = 1 := congrArg Handle.ref hentry
    rw [sat_modifyInode]
    refine ⟨hinv1.setHandle (by omega) (by dsimp only; omega) rfl rfl rfl, hsb1, .inr
      ⟨_, h.view_of_loaded hl, hn, href, hview1, ?_⟩⟩
    rw [State.handle_setInode, hhandle1, update_idem]
    congr 1
    have hi : (s1.icache e).inum = (s.icache e).inum := congrArg Handle.inum hentry
    have hbusy : (s1.icache e).busy = false := congrArg Handle.busy hentry
    have hvalid : (s1.icache e).valid = false := congrArg Handle.valid hentry
    simp only [Inode.handle, hi, hbusy, hvalid, href1]
    rfl
  · rw [sat_modifyInode]
    exact ⟨h.setHandle hr (by dsimp only; omega) rfl rfl rfl, rfl,
      .inl ⟨rfl, State.handle_setInode ..⟩⟩

/-- The inode that `ialloc` hands out. -/
structure Allocated (s s' : State) (e : Fin NINODE) (type : Int16) (i : Nat) : Prop where
  pos : 1 ≤ i
  lt : i < s.sb.ninodes
  free : s.view i = none
  view : s'.view = update s.view i (some ({ Dinode.zero with type }.vnode []))
  got : Got s s' e i

/-- The loop of `ialloc`. -/
theorem iallocFrom_spec {type : Int16} (hE : ∀ e, OutOfSpace e → E e) (h : s.Inv)
    (htype : type ≠ 0) {k inum : Nat} (hpos : 1 ≤ inum)
    (hk : ∀ i, inum ≤ i → i < inum + k → i < s.sb.ninodes) :
    Sat E (iallocFrom type k inum) s fun e s' => s'.Inv ∧ s'.sb = s.sb ∧
      ∃ i, Allocated s s' e type i := by
  induction k generalizing inum with
  | zero => exact hE _ (.inr (.inl rfl))
  | succ k ih =>
    have hi : inum < s.sb.ninodes := hk inum le_rfl (by omega)
    have hok : s.sb.Ok := h.store.inv.ok
    have hnode : dinodeAt (s.disk (IBLOCK inum s.sb)) inum = s.node inum := (if_pos hi).symm
    rw [iallocFrom, sat_fsState_bind]
    rw [sat_bread_bind (hok.iblock_lt hi), hnode]
    refine Sat.ite (fun ht => ?_) fun ht =>
      sat_brelse_bind.2 (ih (by omega) fun i hle hlt => hk i (by omega) (by omega))
    rw [sat_logWrite_bind, sat_brelse_bind]
    generalize hd : { Dinode.zero with type } = d
    have haddrs (k : Fin (NDIRECT + 1)) : d.addrs k = 0 := by
      rw [← hd]
      rfl
    obtain ⟨hwf, hview⟩ := h.store.setEmpty (i := inum) haddrs (by rw [← hd]; rfl)
      fun σ => Store.own_of_free ht
    obtain ⟨hwf', hview'⟩ := State.putNode_store hi hwf
    have hinv : (s.putNode inum d).Inv := by
      refine ⟨hwf', h.inum, h.unique, h.nonneg, fun e hr hv => ?_⟩
      rw [State.node_putNode hok hi]
      have hne : (s.icache e).inum ≠ inum := by
        rintro rfl
        have hve := h.valid e hr hv
        exact hve.2 (hve.1 ▸ ht)
      exact (update_of_ne hne ..).symm ▸ h.valid e hr hv
    refine (iget_spec hE hinv hi).weaken fun e s' hs' => ?_
    obtain ⟨hinv', hsb', hview'', hgot⟩ := hs'
    refine ⟨hinv', hsb', inum, hpos, hi, Store.view_of_free ht, ?_, ⟨hgot.others, hgot.old, hgot.new⟩⟩
    have hdtype : d.type ≠ 0 := by
      rw [← hd]
      exact htype
    rw [hview'', hview', hview, if_neg hdtype, hd]
    rfl

/-- `ialloc` allocates a free inode. -/
theorem ialloc_spec {type : Int16} (hE : ∀ e, OutOfSpace e → E e) (h : s.Inv)
    (htype : type ≠ 0) :
    Sat E (ialloc type) s fun e s' => s'.Inv ∧ s'.sb = s.sb ∧ ∃ i, Allocated s s' e type i := by
  rw [ialloc, sat_fsState_bind]
  exact iallocFrom_spec hE h htype le_rfl fun i hle hlt => by omega

end

end TronBoss.Fs
