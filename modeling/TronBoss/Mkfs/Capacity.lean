import TronBoss.Lib.Accounts
import TronBoss.Mkfs.Rounding

/-!
# What `mkfs` checks

`freeinode` and `freeblock` are counters that nothing compares with the size of the image. A block
past the end is noticed all the same, because `iappend` reads each block that it takes before it
writes it. An inode number past `sb.ninodes` is not noticed.
-/

namespace TronBoss.Mkfs

open Lib Fs Function

/-! ## Inode numbers -/

/-- With the account `n`, the next inode number is `n`. -/
abbrev Counts {α : Type} (n : Nat) (f : MkfsM α) (n' : Nat) : Prop :=
  Moves (fun n (m : Image) => m.freeinode = n) (fun _ => True) n f fun _ => n'

section
variable {n : Nat}

theorem counts_wsect (sec : Nat) (buf : Block) : Counts n (wsect sec buf) n :=
  .modify fun _ h => h

theorem counts_rsect (sec : Nat) : Counts n (rsect sec) n :=
  .bind (.panicIf trivial) fun _ => .get_bind fun _ => .pure

theorem counts_winode (inum : Nat) (ip : Dinode) : Counts n (winode inum ip) n :=
  .bind (counts_rsect _) fun _ => counts_wsect _ _

theorem counts_rinode (inum : Nat) : Counts n (rinode inum) n :=
  .bind (counts_rsect _) fun _ => .pure

theorem counts_takeblock : Counts n takeblock n :=
  .get_bind fun _ => .bind (.modify fun _ h => h) fun _ => .pure

theorem counts_iappendAddr (din : Dinode) (k : Fin (NDIRECT + 1)) :
    Counts n (iappendAddr din k) n :=
  .ite (.bind counts_takeblock fun _ => .pure) .pure

theorem counts_iappendMap (din : Dinode) (fbn : Nat) : Counts n (iappendMap din fbn) n := by
  refine .bind (.panicIf trivial) fun _ => .ite ?_ ?_
  · exact .bind (counts_iappendAddr _ _) fun _ => .pure
  · refine .bind (counts_iappendAddr _ _) fun din' => .bind (counts_rsect _) fun indirect => ?_
    exact .ite (.bind counts_takeblock fun b => .bind (counts_wsect _ _) fun _ => .pure) .pure

theorem counts_iappendLoop (k : Nat) (din : Dinode) (off : Nat) (p : List UInt8) :
    Counts n (iappendLoop k din off p) n := by
  induction k generalizing din off p with
  | zero =>
    cases p with
    | nil => exact .pure
    | cons c cs => exact .throw trivial
  | succ k ih =>
    cases p with
    | nil => exact .pure
    | cons c cs =>
      refine .bind (counts_iappendMap _ _) fun r => .bind (counts_rsect _) fun buf => ?_
      exact .bind (counts_wsect _ _) fun _ => ih _ _ _

theorem counts_iappend (inum : Nat) (p : List UInt8) : Counts n (iappend inum p) n :=
  .bind (counts_rinode _) fun _ => .bind (counts_iappendLoop _ _ _ _) fun _ => counts_winode _ _

theorem counts_ialloc (type : Int16) : Counts n (ialloc type) (n + 1) := by
  intro m hm
  rw [ialloc, sat_get_bind, hm]
  rw [sat_modify_bind]
  exact Moves.bind (counts_winode _ _) (fun _ => .pure) _ rfl

theorem counts_addFile (rootino : Nat) (f : Input) : Counts n (addFile rootino f) (n + 1) := by
  refine .bind (.panicIf trivial) fun _ => .bind (counts_ialloc _) fun inum => ?_
  exact .bind (counts_iappend _ _) fun _ => .forM fun p => counts_iappend _ _

theorem counts_addFiles (rootino : Nat) (files : List Input) :
    Counts n (files.forM (addFile rootino)) (n + files.length) := by
  induction files generalizing n with
  | nil => exact .pure
  | cons f files ih =>
    rw [List.length_cons, Nat.add_comm files.length, ← Nat.add_assoc]
    exact .bind (counts_addFile _ _) fun _ => ih

/-- Every run of `main` that returns has used one inode for the root directory and one for each
file. -/
theorem counts_main (files : List Input) : Counts n (main files) (n + 1 + files.length) := by
  refine .bind (counts_wsect _ _) fun _ => .bind (counts_ialloc _) fun rootino => ?_
  refine .bind (.panicIf trivial) fun _ => .bind (counts_iappend _ _) fun _ => ?_
  refine .bind (counts_iappend _ _) fun _ => .bind (counts_addFiles _ _) fun _ => ?_
  refine .bind (.bind (counts_rinode _) fun _ => counts_winode _ _) fun _ => .get_bind fun _ => ?_
  exact .bind (.panicIf trivial) fun _ => counts_wsect _ _

end

/-! ## The image -/

/-- The inode as it is in the image. -/
def Image.dinode (m : Image) (inum : Nat) : Dinode := dinodeAt (m.img (IBLOCK inum sb)) inum

/-- Nothing that the inodes in use refer to is out of range. The inode numbers in use are those that
`ialloc` has given out. -/
structure InRange (m : Image) : Prop where
  inum : ∀ i, 0 < i → i < m.freeinode → i < sb.ninodes
  /-- The sectors that `winode` writes are inode blocks. -/
  inodeBlock : ∀ i, 0 < i → i < m.freeinode →
    sb.inodestart ≤ IBLOCK i sb ∧ IBLOCK i sb < sb.bmapstart
  addrs : ∀ i, 0 < i → i < m.freeinode → ∀ k, ((m.dinode i).addrs k).toNat < sb.size
  indirect : ∀ i, 0 < i → i < m.freeinode → (m.dinode i).addrs (Fin.last NDIRECT) ≠ 0 →
    ∀ j < NINDIRECT, ((m.img ((m.dinode i).addrs (Fin.last NDIRECT)).toNat).read32
      (4 * j)).toNat < sb.size

section
variable {m m' : Image} {files : List Input}

/-- Rounding changes nothing but a size. -/
theorem Image.rounded_type (m : Image) (i : Nat) :
    (m.rounded.state.node i).type = (m.state.node i).type := by
  have hroot : ROOTINO < sb.ninodes := by decide
  rw [rounded, state_putNode hroot, State.node_commit, State.node_putNode (s := m.state) sb_ok hroot]
  rcases eq_or_ne i ROOTINO with rfl | hi
  · rw [update_self]
    rfl
  · rw [update_of_ne hi]

theorem Built.type_ne_zero (h : Built m files) {i : Nat} (hpos : 0 < i)
    (hi : i < files.length + 2) : (m.state.node i).type ≠ 0 := by
  have hview : ∃ v, m.state.view i = some v := by
    rw [h.view]
    match i with
    | 1 => exact ⟨_, rfl⟩
    | j + 2 =>
      have hj : j < files.length := by omega
      exact ⟨_, congrArg (Option.map _) (List.getElem?_eq_getElem hj)⟩
  obtain ⟨v, hv⟩ := hview
  exact (view_eq_some hv).1

/-- The image is in range when the inodes were enough. -/
theorem Built.inRange (h : Built m files) (hinodes : files.length + 2 ≤ NINODES)
    (hfree : m'.freeinode = files.length + 2) (himg : m'.img = m.rounded.state.disk) :
    InRange m' := by
  have hlt {i : Nat} (hi : i < m'.freeinode) : i < NINODES := by omega
  obtain ⟨hinv, -⟩ := h.ok.rounded
  have hnode {i : Nat} (hi : i < m'.freeinode) : m'.dinode i = m.rounded.state.store.node i := by
    rw [Image.dinode, himg]
    exact (if_pos (hlt hi)).symm
  have htype {i : Nat} (hpos : 0 < i) (hi : i < m'.freeinode) :
      (m.rounded.state.store.node i).type ≠ 0 := by
    rw [show m.rounded.state.store.node i = m.rounded.state.node i from rfl, Image.rounded_type]
    exact h.type_ne_zero hpos (hfree ▸ hi)
  have hown (x : Nat × Fs.Slot) : m.rounded.state.store.own x < sb.size := by
    rcases eq_or_ne (m.rounded.state.store.own x) 0 with h0 | h0
    · rw [h0]
      decide
    · exact (hinv.area x h0).2
  refine ⟨fun i _ hi => hlt hi, fun i _ hi => ?_, fun i hpos hi k => ?_,
    fun i hpos hi h0 j hj => ?_⟩
  · refine ⟨?_, (iblock_low (hlt hi)).2⟩
    rw [(sb_ok.iblock_eq (hlt hi)).1]
    exact Nat.le_add_left ..
  · have := hown (i, addrSlot k)
    rw [Store.own_of_type (htype hpos hi), Dinode.block_addrSlot] at this
    rw [hnode hi]
    exact this
  · have := hown (i, .entry ⟨j, hj⟩)
    rw [Store.own_of_type (htype hpos hi), Dinode.block, if_neg (hnode hi ▸ h0)] at this
    rw [hnode hi, himg]
    exact this

end

theorem main_returns {files : List Input} (hname : ∀ f ∈ files, slash ∉ f.name)
    (hlen : ∀ f ∈ files, f.contents.length ≤ MAXFILE * BSIZE)
    (hinodes : files.length + 2 ≤ NINODES) (hblocks : blocksNeeded files ≤ FSSIZE) :
    ∃ m, main files zeroed = .ok ((), m) := by
  obtain ⟨_, m, hm, -⟩ := (main_spec (E := fun _ => False) hinodes
    (.inl ⟨hname, hlen, hblocks⟩)).returns
  exact ⟨m, hm⟩

/-- If `mkfs` exits with status 0, everything in the image is in range if and only if there were
enough inodes for the root directory and the files. -/
theorem mkfs_inRange_iff (files : List Input) {m : Image}
    (h : main files zeroed = .ok ((), m)) : InRange m ↔ files.length + 2 ≤ NINODES := by
  have hfree : m.freeinode = files.length + 2 := by
    have hcount := (counts_main files zeroed rfl).of_ok h
    change m.freeinode = 1 + 1 + files.length at hcount
    omega
  constructor
  · intro hr
    have hlast : files.length + 1 < NINODES := hr.inum _ (Nat.succ_pos _) (by omega)
    omega
  · intro hinodes
    obtain ⟨m₀, hb, hfree', himg⟩ :=
      (main_spec (E := fun _ => True) hinodes (.inr fun _ => trivial)).of_ok h
    exact hb.inRange hinodes hfree' himg

theorem mkfs_inRange_iff_smallInput :
    ∃ m, main [smallInput] zeroed = .ok ((), m) ∧ InRange m := by
  have hrun : ∃ m, main [smallInput] zeroed = .ok ((), m) := by
    refine main_returns ?_ ?_ ?_ ?_ <;> decide
  obtain ⟨m, hm⟩ := hrun
  exact ⟨m, hm, (mkfs_inRange_iff _ hm).2 (by decide)⟩

/-! ## One file too many -/

section
variable {m : Image} {d : Dinode}

/-- The first inode past the end still lies in the last inode block, where the kernel does not look
for it. -/
theorem Image.store_putSpare : (m.putNode NINODES d).state.store =
    m.state.store.write (IBLOCK NINODES sb) (setDinode (m.img (IBLOCK NINODES sb)) NINODES d) := by
  have hbm : IBLOCK NINODES sb ≠ sb.bmapstart := by decide
  have hnode : (m.putNode NINODES d).state.node = m.state.node := by
    funext j
    unfold putNode State.node
    rw [state_wsect hbm]
    refine ite_congr rfl (fun hj => ?_) fun _ => rfl
    have hne : IBLOCK j sb ≠ IBLOCK NINODES sb := by
      have hstart : sb.inodestart = 32 := by decide
      have hspare : IBLOCK NINODES sb = 57 := by decide
      have hj' : j < 200 := hj
      rw [(sb_ok.iblock_eq hj).1, hstart, hspare, show IPB = 8 from rfl]
      omega
    exact congrArg (dinodeAt · j) (update_of_ne hne ..)
  rw [State.store, hnode, putNode, state_wsect hbm]
  rfl

/-- Inode `NINODES`, behind the last one, is no part of the file system. -/
theorem Image.Ok.putSpare (h : m.Ok) :
    (m.putNode NINODES d).Ok ∧ (m.putNode NINODES d).state.view = m.state.view := by
  have hmeta : IBLOCK NINODES sb < sb.nmeta := by decide
  have hbm : IBLOCK NINODES sb ≠ sb.bmapstart := by decide
  obtain ⟨hwf, hview⟩ := @Store.Wf.write_low _ h.store (IBLOCK NINODES sb)
    (setDinode (m.img (IBLOCK NINODES sb)) NINODES d) hmeta (by decide) hbm
  rw [← store_putSpare] at hwf hview
  refine ⟨⟨hwf, fun j hj x hx hmax hown => ?_, ⟨h.fresh.low, fun b hb => ?_⟩, fun j hj => ?_⟩,
    hview⟩
  · rw [store_putSpare] at hj hx hown ⊢
    rw [h.store.inv.own_write_low hmeta] at hown
    rw [h.store.inv.byte_write_low hmeta hown]
    exact h.clean j hj x hx hmax hown
  · have hb' : m.freeblock ≤ b := hb
    have hlow := h.fresh.low
    exact (update_of_ne (by omega) ..).trans (h.fresh.zero b hb)
  · exact (congrFun hview j).trans (h.free j hj)

/-- With all inodes in use, `main` takes one more file. -/
theorem Built.addSpare {E : Stop → Prop} {files : List Input} {f : Input} (h : Built m files)
    (hfull : files.length + 2 = NINODES) (hname : slash ∉ f.name) (hempty : f.reads = [])
    (hroom : blocksNeeded files ≤ FSSIZE) :
    Sat E (addFile ROOTINO f) m fun _ m' => m'.freeblock ≤ FSSIZE := by
  have hspare : IBLOCK NINODES sb < FSSIZE := by decide
  have hfi : m.freeinode = NINODES := h.freeinode.trans hfull
  have hok : { m with freeinode := NINODES + 1 }.Ok :=
    ⟨h.ok.store, h.ok.clean, ⟨h.ok.fresh.low, h.ok.fresh.zero⟩, fun i hi => h.ok.free i (by
      rw [hfi]
      exact Nat.le_of_succ_le hi)⟩
  rw [addFile, sat_panicIf_bind]
  refine ⟨fun hc => absurd hc hname, fun _ => ?_⟩
  rw [ialloc, sat_bind, sat_get_bind, hfi]
  rw [sat_modify_bind, sat_bind, winode, sat_rsect_bind hspare, sat_wsect, sat_pure]
  generalize hd : ({ Dinode.zero with
    type := T_FILE, nlink := 1, uid := DEFAULT_UID, gid := DEFAULT_GID,
    mode := DEFAULT_MODE } : Dinode) = d
  obtain ⟨hok1, hview1⟩ := hok.putSpare (d := d)
  have hv1 : ({ m with freeinode := NINODES + 1 }.putNode NINODES d).state.view ROOTINO =
      some (vnodeOf T_DIR (rootData files)) := by
    rw [hview1]
    exact congrFun h.view ROOTINO
  have hD : (rootData files).length = 3200 := by
    rw [length_rootData, hfull]
    rfl
  have hde : (entry NINODES f.entryName).encode.length = 16 :=
    Dirent.length_encode (length_strncpy ..)
  have hneed : need (blocksFor 3216) = need (blocksFor 3200) := by decide
  refine (@iappend_spec _ ROOTINO _ _ hok1 (by decide) hv1 (entry NINODES f.entryName).encode
    (h.freeblock ▸ hroom) (.inl ⟨?_, ?_⟩)).bind fun _ m2 hs2 => ?_
  · dsimp only [vnodeOf]
    rw [hD, hde]
    decide
  · dsimp only [vnodeOf, Image.putNode]
    rw [hD, hde, hneed, h.freeblock]
    exact Nat.add_le_add_right hroom _
  · rw [hempty]
    exact hs2.le

/-- `main` returns for files that use all inodes, followed by an empty one. -/
theorem main_spare_returns {files : List Input} {f : Input}
    (hname : ∀ g ∈ files, slash ∉ g.name)
    (hlen : ∀ g ∈ files, g.contents.length ≤ MAXFILE * BSIZE) (hfull : files.length + 2 = NINODES)
    (hblocks : blocksNeeded files ≤ FSSIZE) (hname' : slash ∉ f.name) (hempty : f.reads = []) :
    ∃ m, main (files ++ [f]) zeroed = .ok ((), m) := by
  have hrun : Sat (fun _ => False) (main (files ++ [f])) zeroed fun _ _ => True := by
    refine main_start fun m0 hb0 => ?_
    have happ : (files ++ [f]).forM (addFile ROOTINO) =
        files.forM (addFile ROOTINO) >>= fun _ => [f].forM (addFile ROOTINO) := List.forM_append
    rw [happ, bind_assoc]
    refine (hb0.addFiles hfull.le (.inl ⟨hname, hlen, hblocks⟩)).bind fun _ m hb => ?_
    have hspare : Sat (fun _ => False) ([f].forM (addFile ROOTINO)) m
        fun _ m' => m'.freeblock ≤ FSSIZE :=
      (hb.1.addSpare hfull hname' hempty hblocks).bind fun _ _ hle => hle
    refine hspare.bind fun _ m' hle => ?_
    rw [fixRoot, sat_bind, sat_rinode_bind (by decide), sat_winode (by decide), sat_get_bind,
      balloc, sat_panicIf_bind]
    exact ⟨fun hc => absurd (hc.trans hle) (by decide), fun _ => trivial⟩
  obtain ⟨_, m, hm, -⟩ := hrun.returns
  exact ⟨m, hm⟩

end

/-- An empty file. -/
def emptyInput : Input where
  name := [97]
  reads := []

/-- `mkfs` gets one empty file more than it has inodes for. It exits with status 0 and has used inode
200 of an image with 200 inodes. -/
theorem mkfs_inode_outOfRange :
    ∃ m, main (List.replicate 198 emptyInput ++ [emptyInput]) zeroed = .ok ((), m) ∧
      m.freeinode = sb.ninodes + 1 ∧ ¬ InRange m := by
  have hmem : ∀ f ∈ List.replicate 198 emptyInput, f = emptyInput :=
    fun _ hf => List.eq_of_mem_replicate hf
  have hcount : (List.replicate 198 emptyInput).length + 2 = sb.ninodes := by
    rw [List.length_replicate]
    rfl
  have hrun : ∃ m, main (List.replicate 198 emptyInput ++ [emptyInput]) zeroed = .ok ((), m) := by
    refine main_spare_returns (fun f hf => ?_) (fun f hf => ?_) hcount (by decide +kernel)
      (by decide) rfl
    · rw [hmem f hf]
      decide
    · rw [hmem f hf]
      decide
  obtain ⟨m, hm⟩ := hrun
  have hlast : m.freeinode = sb.ninodes + 1 := by
    have hused := (counts_main _ zeroed rfl).of_ok hm
    rw [List.length_append, List.length_replicate] at hused
    exact hused
  refine ⟨m, hm, hlast, fun hr => ?_⟩
  exact absurd (hr.inum sb.ninodes (by decide) (by omega)) (lt_irrefl _)

end TronBoss.Mkfs
