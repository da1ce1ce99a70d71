import TronBoss.Mkfs.Build

/-!
# The finished image

What the kernel finds on an image that `main` has built. When the entries of the root directory do
not end at the end of a block, rounding its size adds free entries in the last block, and the kernel
reads back the directory and every file. When they do, the size covers a block that is not there.
-/

namespace TronBoss.Mkfs

open Lib List Fs Function

/-! ## Entries of the root directory -/

/-- An entry that is not in use. -/
def freeEntry : Dirent where
  inum := 0
  name := List.replicate DIRSIZ 0

/-- Decoding gives back the entries that were encoded. -/
theorem dirents_flatMap_encode {des : List Dirent} (h : ∀ de ∈ des, de.name.length = DIRSIZ) :
    dirents (des.flatMap Dirent.encode) = des := by
  induction des using reverseRecOn with
  | nil => rfl
  | append_singleton des de ih =>
    rw [forall_mem_append] at h
    have hde := h.2 de mem_cons_self
    have hoverlay : des.flatMap Dirent.encode ++ de.encode =
        Fs.overlay (des.flatMap Dirent.encode) (des.flatMap Dirent.encode).length de.encode := by
      rw [Fs.overlay, take_length, drop_eq_nil_of_le (Nat.le_add_right ..),
        append_nil]
    have hdvd : direntSize ∣ (des.flatMap Dirent.encode).length :=
      ⟨_, length_flatMap_encode h.1⟩
    rw [flatMap_append, flatMap_singleton, hoverlay, dirents_append hde hdvd, ih h.1]

theorem flatMap_freeEntry (k : Nat) :
    (List.replicate k freeEntry).flatMap Dirent.encode = List.replicate (direntSize * k) 0 := by
  induction k with
  | zero => rfl
  | succ k ih =>
    have henc : freeEntry.encode = List.replicate direntSize 0 := by decide
    rw [replicate_succ, flatMap_cons, ih, henc, replicate_append_replicate]
    congr 1
    ring

/-- The entries of the padded root directory. -/
theorem dirents_rootData (files : List Input) (k : Nat) :
    dirents (rootData files ++ List.replicate (direntSize * k) 0) =
      rootEntries files ++ List.replicate k freeEntry := by
  rw [rootData, ← flatMap_freeEntry, ← flatMap_append]
  refine dirents_flatMap_encode fun de hde => ?_
  rw [mem_append] at hde
  rcases hde with hde | hde
  · exact length_name_rootEntries files de hde
  · rw [eq_of_mem_replicate hde]
    rfl

theorem inum_entry {i : Nat} (hi : i < NINODES) (name : List UInt8) :
    (entry i name).inum.toNat = i := by
  have : NINODES = 200 := rfl
  rw [entry, UInt16.toNat_ofNat']
  exact Nat.mod_eq_of_lt (by omega)

/-- All entries of the root directory are in use. -/
theorem inum_rootEntries {files : List Input} (hinodes : files.length + 2 ≤ NINODES) :
    ∀ de ∈ rootEntries files, de.inum ≠ 0 := by
  have hne {i : Nat} (hi : i < NINODES) (h0 : i ≠ 0) (name : List UInt8) :
      (entry i name).inum ≠ 0 := by
    intro hc
    have := inum_entry hi name
    rw [hc] at this
    exact h0 this.symm
  intro de hde
  simp only [rootEntries, mem_cons, mem_mapIdx] at hde
  obtain rfl | rfl | ⟨j, hj, rfl⟩ := hde
  · exact hne (by decide) (by decide) _
  · exact hne (by decide) (by decide) _
  · exact hne (by omega) (by omega) _

/-- Free entries do not count. -/
theorem filter_dirents_rootData {files : List Input} (hinodes : files.length + 2 ≤ NINODES)
    (k : Nat) :
    (dirents (rootData files ++ List.replicate (direntSize * k) 0)).filter
      (fun de => de.inum ≠ 0) = rootEntries files := by
  rw [dirents_rootData, filter_append, filter_replicate_of_neg (by decide),
    append_nil, filter_eq_self]
  exact fun de hde => decide_eq_true (inum_rootEntries hinodes de hde)

/-! ## Rounding -/

section
variable {m : Image} {files : List Input} (h : Built m files)
include h

theorem Built.view_root :
    m.state.store.view ROOTINO = some (vnodeOf T_DIR (rootData files)) :=
  congrFun h.view ROOTINO

theorem Built.root :
    (m.state.store.node ROOTINO).type ≠ 0 ∧
      (m.state.store.node ROOTINO).size.toNat = direntSize * (files.length + 2) := by
  obtain ⟨ht, -, hlen⟩ := view_eq_some h.view_root
  exact ⟨ht, hlen.symm.trans (length_rootData files)⟩

omit h in
/-- Rounding keeps the ownership of blocks. -/
theorem Image.Ok.rounded (h : m.Ok) :
    m.rounded.state.store.Inv ∧ m.rounded.state.store.own = m.state.store.own := by
  have hlow := iblock_low (i := ROOTINO) (by decide)
  have hmeta : IBLOCK ROOTINO sb < sb.nmeta := lt_trans hlow.2 sb_ok.bmapstart
  generalize hd : (m.state.node ROOTINO).withSize
    (roundedSize (m.state.node ROOTINO).size.toNat) = d
  have htype : d.type = (m.state.store.node ROOTINO).type := by rw [← hd]; rfl
  have haddrs : d.addrs = (m.state.store.node ROOTINO).addrs := by rw [← hd]; rfl
  have hstore : m.rounded.state.store = (m.state.store.setNode ROOTINO d).write (IBLOCK ROOTINO sb)
      (setDinode (m.state.disk (IBLOCK ROOTINO sb)) ROOTINO d) := by
    rw [Image.rounded, hd, Image.state_putNode (by decide), State.store_commit, State.store,
      State.node_putNode (s := m.state) sb_ok (show ROOTINO < sb.ninodes by decide)]
    rfl
  have hinv := h.store.inv.setNode htype haddrs
  rw [hstore]
  exact ⟨hinv.write_low hmeta (by omega) hlow.2.ne,
    (hinv.own_write_low hmeta).trans (Store.own_setNode htype haddrs)⟩

omit h in
/-- Rounding the size of a directory that ends inside a block appends zeroes, which are there
already. -/
theorem Image.Ok.pad {off : Nat} (h : m.Ok) (ht : (m.state.store.node ROOTINO).type ≠ 0)
    (hsize : (m.state.store.node ROOTINO).size.toNat = off) (hfit : off % BSIZE ≠ 0)
    (hmax : roundedSize off ≤ MAXFILE * BSIZE) :
    m.rounded.Ok ∧ m.rounded.state.view = update m.state.view ROOTINO
      (some ((m.state.store.node ROOTINO).vnode
        (m.state.store.data ROOTINO ++ List.replicate (roundedSize off - off) 0))) := by
  have hblocks : blocksFor (roundedSize off) = blocksFor off := by
    simp only [blocksFor, roundedSize, BSIZE] at hfit ⊢
    omega
  generalize hsrc : List.replicate (roundedSize off - off) (0 : UInt8) = src
  have hlen : off + src.length = roundedSize off := by
    rw [← hsrc, length_replicate]
    simp only [roundedSize, BSIZE]
    omega
  have hupd : m.state.store.Upd m.state.store ROOTINO (m.state.store.node ROOTINO).size.toNat
      src := by
    refine ⟨rfl, fun _ _ => rfl, rfl, fun _ _ _ => rfl, fun _ _ => rfl, fun x hx hx' => ?_,
      fun _ _ _ _ _ => rfl, fun _ _ h0 hne _ => absurd h0 hne⟩
    rw [hsize] at hx hx'
    rw [hlen] at hx'
    have hx₁ : x < MAXFILE * BSIZE := by omega
    have hown : m.state.store.own (ROOTINO, slotOf (x / BSIZE)) ≠ 0 := by
      rw [h.store.mapped ROOTINO ht, first_slotOf (div_lt_maxfile hx₁)]
      dsimp only
      rw [hsize, ← hblocks]
      exact div_lt_blocksFor hx'
    refine ⟨hown, ?_⟩
    rw [h.clean ROOTINO ht x (by omega) hx₁ hown, hsize, ← hsrc, getD_replicate _ (by omega)]
  have hlen : (m.state.store.node ROOTINO).size.toNat + src.length = roundedSize off := by
    rw [hsize, hlen]
  have hmap : m.state.store.Mapped (update
      (fun j => blocksFor (m.state.store.node j).size.toNat) ROOTINO
      (blocksFor ((m.state.store.node ROOTINO).size.toNat + src.length))) := by
    rw [hlen, hblocks, ← hsize, update_eq_self]
    exact h.store.mapped
  have hle : (m.state.store.node ROOTINO).size.toNat ≤
      (m.state.store.node ROOTINO).size.toNat + src.length := Nat.le_add_right ..
  generalize hst : m.state.store.setNode ROOTINO ((m.state.node ROOTINO).withSize
    (roundedSize (m.state.node ROOTINO).size.toNat)) = st
  have hnew : st = m.state.store.setNode ROOTINO ((m.state.store.node ROOTINO).withSize
      ((m.state.store.node ROOTINO).size.toNat + src.length)) := by
    rw [← hst, hlen, show m.state.node ROOTINO = m.state.store.node ROOTINO from rfl, hsize]
  have hnew' := hnew
  rw [← max_eq_right hle] at hnew'
  rw [← hlen] at hmax
  obtain ⟨hwf, hview⟩ := h.store.upd hupd h.store.inv ht
    (by rw [max_eq_right (blocksFor_mono hle)]; exact hmap) le_rfl hmax hnew'
  have hclean := h.clean.upd h.store hupd ht hmap hmax hnew
  rw [Store.overlay_data] at hview
  have hroot : ROOTINO < m.freeinode := h.lt_freeinode (Store.view_of_type ht)
  subst st
  obtain ⟨hok, hview'⟩ := Image.Ok.putNode (by decide) hwf hclean h.fresh fun j hj => by
    rw [hview, update_of_ne (by omega)]
    exact h.free j hj
  exact ⟨hok, hview'.trans hview⟩

/-- Entries that end inside a block: the rest of the block becomes free entries. -/
theorem Built.padded (hinodes : files.length + 2 ≤ NINODES)
    (hfit : (direntSize * (files.length + 2)) % BSIZE ≠ 0) :
    m.rounded.Ok ∧ ∃ k, m.rounded.state.view = update (builtView files) ROOTINO
      (some (vnodeOf T_DIR (rootData files ++ List.replicate (direntSize * k) 0))) := by
  obtain ⟨ht, hsize⟩ := h.root
  obtain ⟨-, hv, -⟩ := view_eq_some h.view_root
  have hnodes : NINODES = 200 := rfl
  generalize hoff : direntSize * (files.length + 2) = off at hsize hfit
  have hmax : roundedSize off ≤ MAXFILE * BSIZE := by
    simp only [roundedSize, direntSize, BSIZE, MAXFILE, NDIRECT, NINDIRECT] at hoff ⊢
    omega
  have hk : roundedSize off - off = direntSize * ((roundedSize off - off) / direntSize) := by
    simp only [roundedSize, direntSize, BSIZE] at hoff ⊢
    omega
  obtain ⟨hok, hview⟩ := h.ok.pad ht hsize hfit hmax
  refine ⟨hok, (roundedSize off - off) / direntSize, ?_⟩
  rw [hview, ← hk, h.view]
  generalize List.replicate (roundedSize off - off) (0 : UInt8) = pad
  have hv' : (m.state.store.node ROOTINO).vnode (m.state.store.data ROOTINO ++ pad) =
      vnodeOf T_DIR (rootData files ++ pad) := by
    change { (m.state.store.node ROOTINO).vnode (m.state.store.data ROOTINO) with
      data := ((m.state.store.node ROOTINO).vnode (m.state.store.data ROOTINO)).data ++ pad } = _
    rw [← hv]
    rfl
  rw [hv']

/-- Entries that end with a block: the size covers a block without an address. -/
theorem Built.hole (hinodes : files.length + 2 ≤ NINODES)
    (hfull : (direntSize * (files.length + 2)) % BSIZE = 0) :
    (m.rounded.state.node ROOTINO).type ≠ 0 ∧ ∃ bn,
      bn < blocksFor (m.rounded.state.node ROOTINO).size.toNat ∧
      m.rounded.state.store.own (ROOTINO, slotOf bn) = 0 := by
  obtain ⟨ht, hsize⟩ := h.root
  have hnodes : NINODES = 200 := rfl
  generalize hoff : direntSize * (files.length + 2) = off at hsize hfull
  have hnode : m.rounded.state.node ROOTINO =
      (m.state.node ROOTINO).withSize (roundedSize off) := by
    rw [Image.rounded, Image.state_putNode (by decide), State.node_commit,
      State.node_putNode (s := m.state) sb_ok (show ROOTINO < sb.ninodes by decide),
      update_self, show (m.state.node ROOTINO).size.toNat = off from hsize]
  have hsmall : roundedSize off ≤ 8 * BSIZE := by
    simp only [roundedSize, direntSize, BSIZE] at hoff ⊢
    omega
  have h32 : (UInt32.ofNat (roundedSize off)).toNat = roundedSize off := by
    rw [UInt32.toNat_ofNat']
    exact Nat.mod_eq_of_lt (lt_of_le_of_lt hsmall (by decide))
  have hdiv : off / BSIZE < MAXFILE := by
    simp only [roundedSize, BSIZE, MAXFILE, NDIRECT, NINDIRECT] at hsmall ⊢
    omega
  rw [hnode, (Image.Ok.rounded h.ok).2]
  refine ⟨ht, off / BSIZE, ?_, ?_⟩
  · change off / BSIZE < blocksFor (UInt32.ofNat (roundedSize off)).toNat
    rw [h32]
    simp only [blocksFor, roundedSize, BSIZE]
    omega
  · refine Classical.byContradiction fun hne => ?_
    have hlt := (h.ok.store.mapped ROOTINO ht _).1 hne
    rw [first_slotOf hdiv] at hlt
    dsimp only at hlt
    rw [hsize] at hlt
    simp only [blocksFor, BSIZE] at hlt hfull
    omega

end

/-! ## What the kernel finds -/

/-- The kernel reads a whole file, given its inode number. -/
def readFile (inum : Nat) : FsM (Option (List UInt8)) := do
  let e ← iget inum
  ilock e
  readi e 0 ((← get).icache e).size.toNat

/-- A file system without holes that holds the given files. -/
structure WellFormed (files : List Input) (s : State) : Prop where
  /-- The root directory has these entries. -/
  root : ∃ data s', readFile ROOTINO s = .ok (some data, s') ∧
    (dirents data).filter (fun de => de.inum ≠ 0) = rootEntries files
  /-- Each file can be read through its entry. -/
  contents : ∀ p ∈ files.zip ((rootEntries files).drop 2), ∃ s',
    readFile p.2.inum.toNat s = .ok (some p.1.contents, s')
  /-- Each block below the size of an inode has an address. -/
  mapped : ∀ i, (s.node i).type ≠ 0 → ∀ bn < blocksFor (s.node i).size.toNat,
    s.store.own (i, slotOf bn) ≠ 0
  /-- The metadata and the blocks with an address are marked. -/
  bitmap : Bitmap s.sb s.disk (held s.store.own)

/-- Reading a file from a file system that has just been started. -/
theorem readFile_spec {s : State} {i : Nat} {v : Vnode} (h : s.Inv)
    (hfree : ∀ e, (s.icache e).ref = 0) (hv : s.view i = some v) (hi : i < s.sb.ninodes)
    (hdev : v.type ≠ T_DEV) : ∃ s', readFile i s = .ok (some v.data, s') := by
  suffices hsat : Sat (fun _ => False) (readFile i) s fun r _ => r = some v.data by
    obtain ⟨r, s', hr, rfl⟩ := hsat.returns
    exact ⟨s', hr⟩
  rw [readFile]
  refine (iget_of_room (.inl ⟨rootEntry, .inl (hfree _)⟩) h hi).bind fun e s1 hs1 => ?_
  obtain ⟨hinv1, hsb1, hview1, hgot⟩ := hs1
  have hnew := (hgot.new fun hr => absurd ((hfree e).symm ▸ hr) (lt_irrefl _)).2
  have hinum : (s1.icache e).inum = i := congrArg Handle.inum hnew
  have hv1 : s1.view i = some v := by rw [hview1, hv]
  refine (ilock_spec hinv1 (.inl ?_) (.inl (congrArg Handle.busy hnew)) (.inl ?_)).bind
    fun _ s2 hs2 => ?_
  · rw [show (s1.icache e).ref = 1 from congrArg Handle.ref hnew]
    decide
  · rw [hinum]
    exact (view_eq_some hv1).1
  · obtain ⟨hinv2, -, hview2, hload, -, -, hhandle⟩ := hs2
    have hinum2 : (s2.icache e).inum = i := by
      have := congrArg Handle.inum (congrFun hhandle e)
      rw [update_self] at this
      exact this.trans hinum
    have hv2 := hinv2.view_of_loaded hload
    rw [hinum2, hview2, hv1] at hv2
    obtain rfl : v = _ := Option.some.inj hv2
    have hlen := hinv2.length_data hload
    have h32 := (s2.icache e).size.toNat_lt
    rw [hinum2] at hlen
    rw [sat_get_bind]
    refine (readi_spec hinv2 hload hdev 0 _).weaken fun r _ hr => ?_
    rw [hr.2, if_neg (by omega), hinum2, drop_zero, take_of_length_le hlen.le]
    rfl

section
variable {files : List Input} {m : Image} {console : Nat → Option (List UInt8)}

/-- The kernel starts with the store of the image. -/
theorem iinit_store (h : m.state.store.Inv) :
    (iinit m.state.disk console).store = m.state.store := by
  have hsb : Superblock.decode (m.state.disk 1) = sb := h.super
  have hnode : (iinit m.state.disk console).node = m.state.node := by
    funext i
    simp only [State.node, iinit, hsb]
    rfl
  unfold State.store
  rw [hnode]
  simp only [iinit, hsb]
  rfl

/-- The image is well formed when the entries of the root directory do not fill its blocks. -/
theorem Built.wellFormed (h : Built m files) (hinodes : files.length + 2 ≤ NINODES)
    (hfit : (direntSize * (files.length + 2)) % BSIZE ≠ 0) :
    WellFormed files (iinit m.rounded.state.disk console) := by
  obtain ⟨hok, k, hview⟩ := h.padded hinodes hfit
  have hstore : (iinit m.rounded.state.disk console).store = m.rounded.state.store :=
    iinit_store hok.store.inv
  generalize hs : iinit m.rounded.state.disk console = s at hstore
  have hfree : ∀ e, (s.icache e).ref = 0 := fun e => by
    rw [← hs]
    rfl
  have hsb : s.sb = sb := congrArg Store.sb hstore
  have hv : s.view = _ := (congrArg Store.view hstore).trans hview
  have hpos (e : Fin NINODE) : ¬ 0 < (s.icache e).ref := by
    rw [hfree e]
    decide
  have hinv : s.Inv := ⟨hstore ▸ hok.store, fun e hr => absurd hr (hpos e),
    fun e _ hr => absurd hr (hpos e), fun e => (hfree e).ge, fun e hr => absurd hr (hpos e)⟩
  refine ⟨?_, ?_, fun i hi bn hbn => ?_, hinv.store.inv.bitmap⟩
  · have hroot : s.view ROOTINO = some (vnodeOf T_DIR (rootData files ++
        List.replicate (direntSize * k) 0)) := by rw [hv, update_self]
    obtain ⟨s', hs'⟩ := readFile_spec hinv hfree hroot (by rw [hsb]; decide)
      (by decide : T_DIR ≠ T_DEV)
    exact ⟨_, s', hs', filter_dirents_rootData hinodes k⟩
  · intro p hp
    obtain ⟨j, hj, rfl⟩ := mem_iff_getElem.1 hp
    have hj' : j < files.length := by
      simp [length_rootEntries] at hj
      exact hj
    have hfile : s.view (j + 2) = some (vnodeOf T_FILE files[j].contents) := by
      rw [hv, update_of_ne (by simp [ROOTINO])]
      simp [builtView, hj']
    simp only [getElem_zip, rootEntries, drop_succ_cons, drop_zero,
      getElem_mapIdx]
    rw [inum_entry (by omega)]
    exact readFile_spec hinv hfree hfile (by rw [hsb]; exact (by omega : j + 2 < NINODES))
      (by decide : T_FILE ≠ T_DEV)
  · have hsize := hinv.store.size i hi
    have hmax : bn < MAXFILE := by
      simp only [blocksFor, BSIZE] at hbn hsize
      have : (s.node i).size.toNat = (s.store.node i).size.toNat := rfl
      omega
    rw [hinv.store.mapped i hi, first_slotOf hmax]
    exact hbn

/-- When the entries fill their blocks, the rounded root directory has a hole. -/
theorem Built.not_wellFormed (h : Built m files) (hinodes : files.length + 2 ≤ NINODES)
    (hfull : (direntSize * (files.length + 2)) % BSIZE = 0) :
    ¬ WellFormed files (iinit m.rounded.state.disk console) := by
  intro hw
  obtain ⟨ht, bn, hbn, hown⟩ := h.hole hinodes hfull
  have hstore : (iinit m.rounded.state.disk console).store = m.rounded.state.store :=
    iinit_store h.ok.rounded.1
  have hnode : (iinit m.rounded.state.disk console).node = m.rounded.state.node :=
    congrArg Store.node hstore
  refine hw.mapped ROOTINO (by rw [hnode]; exact ht) bn (by rw [hnode]; exact hbn) ?_
  rw [hstore]
  exact hown

end

/-- `main` returns an image for every list of files that fits, and the kernel finds exactly these
files on it, without holes and with the right free map, if and only if the entries of the root
directory do not fill its blocks to the end. -/
theorem mkfs_wellFormed_iff (files : List Input) (console : Nat → Option (List UInt8))
    (hname : ∀ f ∈ files, slash ∉ f.name)
    (hlen : ∀ f ∈ files, f.contents.length ≤ MAXFILE * BSIZE)
    (hinodes : files.length + 2 ≤ NINODES) (hblocks : blocksNeeded files ≤ FSSIZE) :
    ∃ m, main files zeroed = .ok ((), m) ∧
      (WellFormed files (iinit m.img console) ↔ (files.length + 2) % (BSIZE / direntSize) ≠ 0) := by
  obtain ⟨_, m', hm', m, hb, -, himg⟩ := (main_spec (E := fun _ => False) hinodes
    (.inl ⟨hname, hlen, hblocks⟩)).returns
  refine ⟨m', hm', ?_⟩
  have hmod : (direntSize * (files.length + 2)) % BSIZE ≠ 0 ↔
      (files.length + 2) % (BSIZE / direntSize) ≠ 0 := by
    simp only [direntSize, BSIZE]
    omega
  rw [himg, ← hmod]
  constructor
  · exact fun hw hfull => hb.not_wellFormed hinodes hfull hw
  · exact hb.wellFormed hinodes

/-- A file of three bytes. -/
def smallInput : Input where
  name := [97]
  reads := [[1, 2, 3]]

theorem mkfs_wellFormed_iff_smallInput :
    ∃ m, main [smallInput] zeroed = .ok ((), m) ∧
      (WellFormed [smallInput] (iinit m.img fun _ => none) ↔
        ([smallInput].length + 2) % (BSIZE / direntSize) ≠ 0) :=
  mkfs_wellFormed_iff [smallInput] _ (by decide) (by decide) (by decide) (by decide)

/-- `README` and 29 programs, as the `Makefile` has it, here with empty files. -/
def thirtyInputs : List Input :=
  (List.range 30).map fun j => ⟨[97, UInt8.ofNat (97 + j)], []⟩

/-- With 32 entries, the size of the root directory is two blocks, and its second block has no
address. -/
theorem mkfs_hole_thirtyInputs :
    ∃ m, main thirtyInputs zeroed = .ok ((), m) ∧
      ¬ WellFormed thirtyInputs (iinit m.img fun _ => none) := by
  have hrun : ∃ a m, main thirtyInputs zeroed = .ok (a, m) ∧
      (((iinit m.img fun _ => none).node ROOTINO).type ≠ 0 ∧
        1 < blocksFor ((iinit m.img fun _ => none).node ROOTINO).size.toNat ∧
        (iinit m.img fun _ => none).store.own (ROOTINO, slotOf 1) = 0) :=
    Sat.returns (by decide +kernel)
  obtain ⟨_, m, hm, ht, hbn, hown⟩ := hrun
  exact ⟨m, hm, fun hw => hw.mapped ROOTINO ht 1 hbn hown⟩

end TronBoss.Mkfs
