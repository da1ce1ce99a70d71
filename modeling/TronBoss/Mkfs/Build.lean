import TronBoss.Fs.Dirents
import TronBoss.Fs.InodeSpec
import TronBoss.Mkfs.ImageSpec

/-!
# What `mkfs` builds

The contents that `main` gives to the image, input file by input file (`Built`). The last step
rounds the size of the root directory up; when the entries end at the end of a block, the size then
covers a block that the directory does not have.
-/

namespace TronBoss.Mkfs

open Lib List Fs Function

/-! ## What goes into the image -/

/-- The entries of the root directory. -/
def rootEntries (files : List Input) : List Dirent :=
  entry ROOTINO dot :: entry ROOTINO dotdot :: files.mapIdx fun j f => entry (j + 2) f.entryName

/-- An inode as `ialloc` of `mkfs` makes it. -/
def vnodeOf (type : Int16) (data : List UInt8) : Vnode where
  type := type
  major := 0
  minor := 0
  nlink := 1
  uid := DEFAULT_UID
  gid := DEFAULT_GID
  mode := DEFAULT_MODE
  data := data

/-- The contents of the root directory, before its size is rounded. -/
def rootData (files : List Input) : List UInt8 := (rootEntries files).flatMap Dirent.encode

/-- The inodes of the image, before the size of the root directory is rounded. -/
def builtView (files : List Input) : Nat → Option Vnode
  | 0 => none
  | 1 => some (vnodeOf T_DIR (rootData files))
  | j + 2 => (files[j]?).map fun f => vnodeOf T_FILE f.contents

/-- The blocks that the image needs, metadata included. -/
def blocksNeeded (files : List Input) : Nat :=
  sb.nmeta + need (blocksFor (direntSize * (files.length + 2))) +
    (files.map fun f => need (blocksFor f.contents.length)).sum

section
variable (files : List Input)

theorem length_name_rootEntries : ∀ de ∈ rootEntries files, de.name.length = DIRSIZ := by
  intro de hde
  simp only [rootEntries, mem_cons, mem_mapIdx] at hde
  obtain rfl | rfl | ⟨j, hj, rfl⟩ := hde
  · exact length_strncpy ..
  · exact length_strncpy ..
  · exact length_strncpy ..

theorem length_rootEntries : (rootEntries files).length = files.length + 2 := by
  simp [rootEntries]

theorem rootEntries_concat (f : Input) :
    rootEntries (files ++ [f]) = rootEntries files ++ [entry (files.length + 2) f.entryName] := by
  simp [rootEntries, mapIdx_append]

theorem length_flatMap_encode {des : List Dirent} (h : ∀ de ∈ des, de.name.length = DIRSIZ) :
    (des.flatMap Dirent.encode).length = direntSize * des.length := by
  induction des with
  | nil => rfl
  | cons de des ih =>
    rw [forall_mem_cons] at h
    rw [flatMap_cons, length_append, Dirent.length_encode h.1, ih h.2,
      length_cons, Nat.mul_succ, Nat.add_comm]

theorem length_rootData : (rootData files).length = direntSize * (files.length + 2) := by
  rw [rootData, length_flatMap_encode (length_name_rootEntries files), length_rootEntries]

theorem rootData_concat (f : Input) : rootData (files ++ [f]) =
    rootData files ++ (entry (files.length + 2) f.entryName).encode := by
  rw [rootData, rootEntries_concat, flatMap_append, flatMap_singleton]
  rfl

/-- What one more file adds to the blocks that the image needs. -/
theorem blocksNeeded_concat (f : Input) :
    blocksNeeded (files ++ [f]) + need (blocksFor (direntSize * (files.length + 2))) =
      blocksNeeded files + need (blocksFor (direntSize * (files.length + 2) + direntSize)) +
        need (blocksFor f.contents.length) := by
  have hlen : direntSize * ((files ++ [f]).length + 2) =
      direntSize * (files.length + 2) + direntSize := by
    rw [length_append, length_singleton]
    ring
  simp only [blocksNeeded, hlen, map_append, sum_append, map_cons, map_nil,
    sum_cons, sum_nil]
  omega

theorem blocksNeeded_le_append (more : List Input) :
    blocksNeeded files ≤ blocksNeeded (files ++ more) := by
  have hmono : need (blocksFor (direntSize * (files.length + 2))) ≤
      need (blocksFor (direntSize * ((files ++ more).length + 2))) := by
    refine need_mono (blocksFor_mono (Nat.mul_le_mul_left _ ?_))
    rw [length_append]
    omega
  simp only [blocksNeeded, map_append, sum_append]
  omega

end

/-! ## Adding the files -/

/-- The image with these files in it. -/
structure Built (m : Image) (files : List Input) : Prop where
  ok : m.Ok
  freeinode : m.freeinode = files.length + 2
  view : m.state.view = builtView files
  freeblock : m.freeblock = blocksNeeded files

section
variable {m : Image} {i : Nat} {v : Vnode} {E : Stop → Prop}

/-- A file appended piece by piece. -/
theorem appendAll_spec {reads : List (List UInt8)} (h : m.Ok) (hi : i < NINODES)
    (hv : m.state.view i = some v) (hlen : v.data.length ≤ MAXFILE * BSIZE)
    (hle : m.freeblock ≤ FSSIZE) (hE : m.Room v.data.length reads.flatten.length ∨ ∀ e, E e) :
    Sat E (reads.forM (iappend i)) m fun _ m' => Grown m m' i v reads.flatten := by
  induction reads generalizing m v with
  | nil =>
    refine ⟨⟨hlen, Nat.add_le_add_right hle _⟩, h, hle, ?_, rfl, rfl⟩
    rw [flatten_nil, append_nil, ← hv, update_eq_self]
  | cons src reads ih =>
    have hmono := need_mono (blocksFor_mono
      (show v.data.length + src.length ≤ v.data.length + (src.length + reads.flatten.length) by
        omega))
    rw [flatten_cons, length_append] at hE
    refine (iappend_spec h hi hv hle (hE.imp_left fun hroom => ?_)).bind fun _ m1 hs1 => ?_
    · obtain ⟨hsize, hblocks⟩ := hroom
      exact ⟨by omega, by omega⟩
    have hv1 : m1.state.view i = some { v with data := v.data ++ src } := by
      rw [hs1.view, update_self]
    have hcount := hs1.count
    have hlen1 : (v.data ++ src).length + reads.flatten.length =
        v.data.length + (src.length + reads.flatten.length) := by
      rw [length_append]
      omega
    have hrest : m1.Room (v.data ++ src).length reads.flatten.length ↔
        m.Room v.data.length (src.length + reads.flatten.length) := by
      refine ⟨fun hroom => ?_, fun hroom => ?_⟩
      · obtain ⟨hsize, hblocks⟩ := hroom
        rw [hlen1] at hsize hblocks
        rw [length_append] at hblocks
        exact ⟨hsize, by omega⟩
      · obtain ⟨hsize, hblocks⟩ := hroom
        refine ⟨by omega, ?_⟩
        rw [hlen1, length_append]
        omega
    refine (ih hs1.ok hv1 (by rw [length_append]; exact hs1.room.size) hs1.le
      (hE.imp_left hrest.2)).weaken fun _ m2 hs2 => ?_
    have hcount2 := hs2.count
    rw [hlen1, length_append] at hcount2
    rw [flatten_cons]
    refine ⟨?_, hs2.ok, hs2.le, ?_, hs2.freeinode.trans hs1.freeinode, ?_⟩
    · rw [length_append]
      exact hrest.1 hs2.room
    · rw [hs2.view, hs1.view, update_idem, append_assoc]
    · rw [length_append]
      omega

end

/-- `mkfs` takes the input files: no name has a slash, no file is too large, and there is room for their
blocks. -/
structure Taken (files : List Input) : Prop where
  name : ∀ f ∈ files, slash ∉ f.name
  length : ∀ f ∈ files, f.contents.length ≤ MAXFILE * BSIZE
  blocks : blocksNeeded files ≤ FSSIZE

section
variable {m : Image} {E : Stop → Prop}

/-- One more file is one more entry of the root directory and one more inode. -/
theorem builtView_concat (files : List Input) (f : Input) :
    builtView (files ++ [f]) = update (update (builtView files) ROOTINO
      (some (vnodeOf T_DIR (rootData (files ++ [f])))))
      (files.length + 2) (some (vnodeOf T_FILE f.contents)) := by
  funext i
  match i with
  | 0 => simp [builtView, ROOTINO]
  | 1 => simp [builtView, ROOTINO]
  | j + 2 =>
    rcases eq_or_ne j files.length with rfl | hj
    · simp [builtView]
    · rw [update_of_ne (by omega), update_of_ne (by simp [ROOTINO])]
      simp only [builtView]
      rcases Nat.lt_or_gt_of_ne hj with hlt | hgt
      · rw [getElem?_append_left hlt]
      · rw [getElem?_eq_none (by simp; omega), getElem?_eq_none (by omega)]

/-- One turn of the loop over the input files. -/
theorem addFile_spec {files : List Input} {f : Input} (h : Built m files) (ht : Taken files)
    (hinodes : files.length + 3 ≤ NINODES) (hE : Taken (files ++ [f]) ∨ ∀ e, E e) :
    Sat E (addFile ROOTINO f) m fun _ m' => Built m' (files ++ [f]) ∧ Taken (files ++ [f]) := by
  have hmem : f ∈ files ++ [f] := mem_append_right _ (mem_singleton_self f)
  have hcount := blocksNeeded_concat files f
  have hnodes : NINODES = 200 := rfl
  have hlt : m.freeinode < NINODES := by
    rw [h.freeinode]
    omega
  rw [addFile, sat_panicIf_bind]
  refine ⟨fun hc => hE.resolve_left (fun ht' => ht'.name f hmem hc) _, fun hname => ?_⟩
  refine (ialloc_spec h.ok hlt (by decide)).bind fun i m1 hs1 => ?_
  obtain ⟨rfl, hok1, hfi1, hfb1, hview1⟩ := hs1
  rw [h.freeinode, h.view] at hview1
  rw [h.freeinode] at hfi1 hlt ⊢
  rw [h.freeblock] at hfb1
  have hroot : ROOTINO ≠ files.length + 2 := by
    simp only [ROOTINO]
    omega
  have hv1 : m1.state.view ROOTINO = some (vnodeOf T_DIR (rootData files)) := by
    rw [hview1, update_of_ne hroot]
    rfl
  have hD := length_rootData files
  have hde : (entry (files.length + 2) f.entryName).encode.length = direntSize :=
    Dirent.length_encode (length_strncpy ..)
  have hsmall : direntSize * (files.length + 2) + direntSize ≤ MAXFILE * BSIZE := by
    simp only [direntSize, MAXFILE, NDIRECT, NINDIRECT, BSIZE]
    omega
  refine (@iappend_spec _ ROOTINO _ _ hok1 (by decide) hv1 (entry (files.length + 2) f.entryName).encode
    (hfb1 ▸ ht.blocks) (hE.imp_left fun ht' => ?_)).bind fun _ m2 hs2 => ?_
  · have hblocks := ht'.blocks
    dsimp only [vnodeOf]
    rw [hD, hde]
    exact ⟨hsmall, by omega⟩
  have hfb2 := hs2.count
  dsimp only [vnodeOf] at hfb2
  rw [hD, hde, hfb1] at hfb2
  have hv2 : m2.state.view (files.length + 2) = some (vnodeOf T_FILE []) := by
    rw [hs2.view, update_of_ne hroot.symm, hview1, update_self]
    rfl
  have hflat : (vnodeOf T_FILE []).data.length + f.reads.flatten.length = f.contents.length :=
    Nat.zero_add _
  have hzero : need (blocksFor (vnodeOf T_FILE []).data.length) = 0 := rfl
  refine (appendAll_spec hs2.ok hlt hv2 (Nat.zero_le _) hs2.le (hE.imp_left fun ht' => ?_)).weaken
    fun _ m3 hs3 => ?_
  · have hblocks := ht'.blocks
    refine ⟨hflat.trans_le (ht'.length f hmem), ?_⟩
    rw [hflat, hzero]
    omega
  obtain ⟨⟨hlen, -⟩, hok3, hle3, hview3, hfi3, hfb3⟩ := hs3
  rw [hflat, hzero] at hfb3
  rw [hflat] at hlen
  refine ⟨⟨hok3, ?_, ?_, by omega⟩, ?_, ?_, by omega⟩
  · rw [hfi3, hs2.freeinode, hfi1, length_append, length_singleton]
  · rw [hview3, hs2.view, hview1, builtView_concat, rootData_concat,
      update_comm hroot.symm, update_idem]
    rfl
  · exact forall_mem_append.2 ⟨ht.name, forall_mem_singleton.2 hname⟩
  · exact forall_mem_append.2 ⟨ht.length, forall_mem_singleton.2 hlen⟩

end

/-! ## The empty image -/

theorem dinodeAt_zero (i : Nat) : (dinodeAt .zero i).type = 0 := by
  have hread : (Bytes.zero : Block).read (dinodeSize * (i % IPB)) dinodeSize =
      List.replicate dinodeSize 0 := by
    rw [eq_replicate_iff]
    simp [Bytes.read, Bytes.get_zero]
  rw [dinodeAt, hread]
  decide

/-- The image of zeroes with the super block. -/
theorem zeroed_ok {m : Image}
    (hm : { zeroed with
      img := update zeroed.img 1 (Bytes.zero.write 0 sb.encode) } = m) :
    m.Ok ∧ m.state.view = fun _ => none := by
  have himg {b : Nat} (hb : b ≠ 1) : m.img b = .zero := by
    rw [← hm]
    exact update_of_ne hb ..
  have htype (i : Nat) : (m.state.node i).type = 0 := by
    unfold State.node
    split
    · rename_i hi
      have hlow := iblock_low hi
      rw [show m.state.sb = sb from rfl, Image.disk_eq hlow.2.ne, himg hlow.1.ne']
      exact dinodeAt_zero i
    · rfl
  have hown (x : Nat × Fs.Slot) : m.state.store.own x = 0 := Store.own_of_free (htype x.1)
  have hfree : m.freeblock = sb.nmeta := by
    rw [← hm]
    decide
  refine ⟨⟨⟨⟨sb_ok, ?_, fun x _ hx => absurd (hown x) hx, fun x hx => absurd (hown x) hx, ?_⟩,
    fun i hi => absurd (htype i) hi, fun i hi => absurd (htype i) hi⟩,
    fun i hi => absurd (htype i) hi, ⟨hfree.ge, fun b hb => himg ?_⟩,
    fun i _ => Store.view_of_free (htype i)⟩, funext fun i => Store.view_of_free (htype i)⟩
  · have hdisk : m.state.disk 1 = Bytes.zero.write 0 sb.encode := by
      rw [Image.disk_eq (by decide), ← hm]
      exact update_self 1 _ zeroed.img
    have hdecode : Superblock.decode (Bytes.zero.write 0 sb.encode) = sb := by decide +kernel
    change Superblock.decode (m.state.disk 1) = sb
    rw [hdisk, hdecode]
  · intro b hb
    have hempty : b ∉ held m.state.store.own := fun ⟨h0, x, hx⟩ => h0 (hx ▸ hown x)
    have hb' : b < 8 * BSIZE := lt_trans (show b < sb.size from hb) (by decide)
    change (update m.img sb.bmapstart (usedMap m.freeblock) sb.bmapstart).bit b = true ↔
      b < sb.nmeta ∨ _
    rw [update_self, bit_usedMap hb', decide_eq_true_eq, hfree]
    exact ⟨.inl, fun h => h.resolve_right hempty⟩
  · have : 1 < sb.nmeta := by decide
    omega

/-! ## `main` -/

/-- The size of the root directory after `main` has rounded it. -/
def roundedSize (off : Nat) : Nat := (off / BSIZE + 1) * BSIZE

/-- The image after `fixRoot`. -/
def Image.rounded (m : Image) : Image :=
  m.putNode ROOTINO ((m.state.node ROOTINO).withSize
    (roundedSize (m.state.node ROOTINO).size.toNat))

/-- The part of `main` before its loop makes the root directory. -/
theorem main_start {E : Stop → Prop} {files : List Input} {Q : Unit → Image → Prop}
    (hrest : ∀ m, Built m [] → Sat E (do
      files.forM (addFile ROOTINO)
      fixRoot ROOTINO
      balloc (← get).freeblock) m Q) : Sat E (main files) zeroed Q := by
  have hneed : need (blocksFor 16) = 1 ∧ need (blocksFor 32) = 1 := by decide
  rw [main, sat_wsect_bind]
  generalize hm : { zeroed with
    img := update zeroed.img 1 (Bytes.zero.write 0 sb.encode) } = m
  obtain ⟨hz, hnone⟩ := zeroed_ok hm
  have hfi : m.freeinode = 1 := by
    rw [← hm]
    rfl
  have hfb : m.freeblock = sb.nmeta := by
    rw [← hm]
    decide
  have hmeta : sb.nmeta = 59 := by decide
  have hsize : FSSIZE = 2000 := rfl
  refine (ialloc_spec hz (by rw [hfi]; decide) (by decide)).bind fun i m1 hs1 => ?_
  obtain ⟨rfl, hok1, hfi1, hfb1, hview1⟩ := hs1
  rw [hfi] at hfi1 hview1 ⊢
  rw [sat_panicIf_bind]
  refine ⟨fun hc => absurd rfl hc, fun _ => ?_⟩
  have hv1 : m1.state.view ROOTINO = some (vnodeOf T_DIR []) := by
    rw [hview1]
    exact update_self ..
  refine (@iappend_spec _ ROOTINO _ _ hok1 (by decide) hv1 (entry ROOTINO dot).encode (by omega)
    (.inl ⟨by decide, ?_⟩)).bind fun _ m2 hs2 => ?_
  · change m1.freeblock + need (blocksFor 16) ≤ FSSIZE + 0
    omega
  obtain ⟨-, hok2, hle2, hview2, hfi2, hfb2⟩ := hs2
  have hv2 : m2.state.view ROOTINO = some (vnodeOf T_DIR (entry ROOTINO dot).encode) := by
    rw [hview2]
    exact update_self ..
  refine (@iappend_spec _ ROOTINO _ _ hok2 (by decide) hv2 (entry ROOTINO dotdot).encode hle2
    (.inl ⟨by decide, ?_⟩)).bind fun _ m3 hs3 => ?_
  · change m2.freeblock + need (blocksFor 32) ≤ FSSIZE + need (blocksFor 16)
    change m2.freeblock + 0 = m1.freeblock + need (blocksFor 16) at hfb2
    omega
  obtain ⟨-, hok3, -, hview3, hfi3, hfb3⟩ := hs3
  refine hrest m3 ⟨hok3, by rw [hfi3, hfi2, hfi1]; rfl, ?_, ?_⟩
  · rw [hview3, hview2, hview1, hnone]
    funext i
    match i with
    | 0 => rfl
    | 1 => rfl
    | j + 2 => rfl
  · change m2.freeblock + 0 = m1.freeblock + need (blocksFor 16) at hfb2
    change m3.freeblock + need (blocksFor 16) = m2.freeblock + need (blocksFor 32) at hfb3
    change m3.freeblock = sb.nmeta + need (blocksFor 32) + 0
    omega

theorem Taken.append_left {files more : List Input} (h : Taken (files ++ more)) : Taken files :=
  ⟨fun f hf => h.name f (mem_append_left _ hf), fun f hf => h.length f (mem_append_left _ hf),
    (blocksNeeded_le_append ..).trans h.blocks⟩

/-- The loop of `main` puts every file into the image, if `mkfs` takes them. -/
theorem Built.addFiles {E : Stop → Prop} {files : List Input} {m : Image} (h : Built m [])
    (hinodes : files.length + 2 ≤ NINODES) (hE : Taken files ∨ ∀ e, E e) :
    Sat E (files.forM (addFile ROOTINO)) m fun _ m' => Built m' files ∧ Taken files := by
  refine Sat.forM (I := fun done m' => Built m' done ∧ Taken done) (fun pre f post m' hl hb => ?_)
    ⟨h, forall_mem_nil _, forall_mem_nil _, by decide⟩
  have hl' : files = (pre ++ [f]) ++ post := by simp [hl]
  have hcount : pre.length + 1 ≤ files.length := by simp [hl]
  exact addFile_spec hb.1 hb.2 (by omega) (hE.imp_left fun ht => (hl' ▸ ht).append_left)

/-- The part of `main` after its loop rounds the size of the root directory and writes the free
map. -/
theorem Built.finish {E : Stop → Prop} {files : List Input} {m : Image} (h : Built m files)
    (hblocks : blocksNeeded files ≤ FSSIZE) :
    Sat E (do
      fixRoot ROOTINO
      balloc (← get).freeblock) m fun _ m' =>
        m'.freeinode = files.length + 2 ∧ m'.img = m.rounded.state.disk := by
  have hused : m.rounded.freeblock < BSIZE * 8 := by
    have hle : m.rounded.freeblock ≤ FSSIZE := h.freeblock ▸ hblocks
    exact lt_of_le_of_lt hle (by decide)
  rw [fixRoot, sat_bind, sat_rinode_bind (by decide), sat_winode (by decide), sat_get_bind, balloc]
  change Sat E _ m.rounded _
  rw [sat_panicIf_bind]
  exact ⟨fun hc => absurd hc (Nat.not_le.2 hused), fun _ => ⟨h.freeinode, rfl⟩⟩

/-- `main` puts every file into the image, rounds the size of the root directory and writes the free
map, if `mkfs` takes the files. -/
theorem main_spec {E : Stop → Prop} {files : List Input} (hinodes : files.length + 2 ≤ NINODES)
    (hE : Taken files ∨ ∀ e, E e) :
    Sat E (main files) zeroed fun _ m' => ∃ m, Built m files ∧
      m'.freeinode = files.length + 2 ∧ m'.img = m.rounded.state.disk := by
  refine main_start fun m0 hbuilt => ?_
  refine (hbuilt.addFiles hinodes hE).bind fun _ m hb => ?_
  exact (hb.1.finish hb.2.blocks).weaken fun _ m' hm' => ⟨m, hb.1, hm'⟩

end TronBoss.Mkfs
