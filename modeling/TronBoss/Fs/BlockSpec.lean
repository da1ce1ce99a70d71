import TronBoss.Fs.Fs

/-!
# Blocks and the free map

A super block with a consistent layout (`Superblock.Ok`), what the free map says (`Bitmap`), and the
specifications of `balloc` and `bfree`: they hand out and take back blocks of the data area and
touch nothing else but the free map.
-/

namespace TronBoss.Fs

open Lib Function

/-- The panics that only say that a table or the disk is full. -/
def OutOfSpace (e : Stop) : Prop :=
  e = .panic "balloc: out of blocks" ∨ e = .panic "ialloc: no inodes" ∨
    e = .panic "iget: no inodes"

/-! ## Layout -/

/-- The number of metadata blocks, which come before the data blocks. -/
def Superblock.nmeta (sb : Superblock) : Nat := sb.size - sb.nblocks

/-- The parts of the disk follow each other, and the disk fits into what `ide.c` serves. One block
holds the free map then. -/
structure Superblock.Ok (sb : Superblock) : Prop where
  inodestart : 2 ≤ sb.inodestart
  inodes : sb.inodestart + (sb.ninodes + IPB - 1) / IPB ≤ sb.bmapstart
  bmapstart : sb.bmapstart < sb.nmeta
  nblocks : sb.nblocks ≤ sb.size
  size : sb.size ≤ FSSIZE

section
variable {sb : Superblock}

theorem Superblock.nmeta_le (sb : Superblock) : sb.nmeta ≤ sb.size := Nat.sub_le ..

variable (h : sb.Ok)
include h

theorem Superblock.Ok.iblock_eq {i : Nat} (hi : i < sb.ninodes) :
    IBLOCK i sb = i / IPB + sb.inodestart ∧ 2 ≤ IBLOCK i sb ∧ IBLOCK i sb < sb.bmapstart := by
  have h1 := h.inodestart
  have h2 := h.inodes
  have h3 := h.bmapstart
  have h4 := sb.nmeta_le
  have h5 := h.size
  simp only [IPB, dinodeSize, BSIZE, FSSIZE] at h2 h5
  simp only [IBLOCK, IPB, dinodeSize, BSIZE]
  omega

theorem Superblock.Ok.iblock_lt {i : Nat} (hi : i < sb.ninodes) : IBLOCK i sb < FSSIZE := by
  have h1 := h.iblock_eq hi
  have h2 := h.bmapstart
  have h3 := sb.nmeta_le
  have h4 := h.size
  omega

theorem Superblock.Ok.bblock_eq {b : Nat} (hb : b < sb.size) : BBLOCK b sb = sb.bmapstart := by
  have h1 := h.bmapstart
  have h2 := sb.nmeta_le
  have h3 := h.size
  simp only [FSSIZE] at h3
  rw [BBLOCK, Nat.div_eq_of_lt (by simp only [BPB, BSIZE]; omega), Nat.zero_add,
    Nat.mod_eq_of_lt (by omega)]

end

/-! ## Routines on the logical disk -/

theorem State.icache_setInode (s : State) (e : Fin NINODE) (ip : Inode) :
    (s.setInode e ip).icache e = ip := update_self ..

theorem State.setInode_setInode (s : State) (e : Fin NINODE) (ip ip' : Inode) :
    (s.setInode e ip).setInode e ip' = s.setInode e ip' := by
  rw [setInode, setInode, update_idem, setInode]

section
variable {α : Type} {E : Stop → Prop} {s : State} {Q : α → State → Prop} {f : Unit → FsM α}
  {e : Fin NINODE} {b : Nat}

theorem sat_bread_bind_iff {f : Block → FsM α} :
    Sat E (bread b >>= f) s Q ↔ (FSSIZE ≤ b → E (.panic "incorrect blockno")) ∧
      (¬ FSSIZE ≤ b → Sat E (f (s.disk b)) s Q) := by
  unfold bread instLayersState
  rw [sat_bind, sat_panicIf_bind]
  rfl

theorem sat_bread_bind {f : Block → FsM α} (hb : b < FSSIZE) :
    Sat E (bread b >>= f) s Q ↔ Sat E (f (s.disk b)) s Q := by
  rw [sat_bread_bind_iff]
  exact ⟨fun h => h.2 (by omega), fun h => ⟨fun hc => absurd hc (by omega), fun _ => h⟩⟩

@[simp] theorem sat_fsState_bind {f : State → FsM α} :
    Sat E (fsState >>= f) s Q ↔ Sat E (f s) s Q := Iff.rfl

@[simp] theorem sat_modifyFs_bind {g : State → State} :
    Sat E (modifyFs g >>= f) s Q ↔ Sat E (f ()) (g s) Q := Iff.rfl

@[simp] theorem sat_brelse_bind : Sat E (brelse b >>= f) s Q ↔ Sat E (f ()) s Q := Iff.rfl

@[simp] theorem sat_logWrite_bind {c : Block} :
    Sat E (logWrite b c >>= f) s Q ↔ Sat E (f ()) (s.write b c) Q := Iff.rfl

@[simp] theorem sat_setBusy_bind {busy : Bool} : Sat E (setBusy e busy >>= f) s Q ↔
      Sat E (f ()) (s.setInode e { s.icache e with busy }) Q := Iff.rfl

@[simp] theorem sat_modifyInode_bind {g : Inode → Inode} :
    Sat E (modifyInode e g >>= f) s Q ↔ Sat E (f ()) (s.setInode e (g (s.icache e))) Q := Iff.rfl

@[simp] theorem sat_beginOp_bind : Sat E (beginOp >>= f) s Q ↔ Sat E (f ()) s Q := Iff.rfl

@[simp] theorem sat_endOp_bind : Sat E (endOp >>= f) s Q ↔ Sat E (f ()) s Q := Iff.rfl

variable {Q : Unit → State → Prop}

@[simp] theorem sat_brelse : Sat E (brelse b) s Q ↔ Q () s := Iff.rfl

@[simp] theorem sat_setBusy {busy : Bool} :
    Sat E (setBusy e busy) s Q ↔ Q () (s.setInode e { s.icache e with busy }) := Iff.rfl

@[simp] theorem sat_modifyInode {g : Inode → Inode} :
    Sat E (modifyInode e g) s Q ↔ Q () (s.setInode e (g (s.icache e))) := Iff.rfl

end

/-! ## The free map -/

/-- The free map marks the metadata blocks and the blocks in `U`. -/
def Bitmap (sb : Superblock) (disk : Nat → Block) (U : Set Nat) : Prop :=
  ∀ b < sb.size, (disk sb.bmapstart).bit b = true ↔ b < sb.nmeta ∨ b ∈ U

/-- Every data block is in `U`. -/
def Full (sb : Superblock) (U : Set Nat) : Prop := ∀ b, sb.nmeta ≤ b → b < sb.size → b ∈ U

theorem Bitmap.congr {sb : Superblock} {disk disk' : Nat → Block} {U : Set Nat}
    (h : Bitmap sb disk U) (hd : disk' sb.bmapstart = disk sb.bmapstart) : Bitmap sb disk' U := by
  intro b hb
  rw [hd]
  exact h b hb

section
variable {E : Stop → Prop} {s : State} {U : Set Nat} (hok : s.sb.Ok) (hbm : Bitmap s.sb s.disk U)
include hok hbm

/-- `balloc` hands out a zeroed data block that is not in use, or finds the disk full. -/
theorem balloc_spec :
    Sat (fun e => e = .panic "balloc: out of blocks" ∧ Full s.sb U) balloc s fun b s' =>
      s.sb.nmeta ≤ b ∧ b < s.sb.size ∧ b ∉ U ∧ Bitmap s.sb s'.disk (insert b U) ∧
      ∃ bm, s' = (s.write s.sb.bmapstart bm).write b .zero := by
  have hsize := hok.size
  have hmeta := s.sb.nmeta_le
  have hbms := hok.bmapstart
  have hdiv : s.sb.size / BPB = 0 := Nat.div_eq_of_lt (by
    simp only [FSSIZE] at hsize
    simp only [BPB, BSIZE]
    omega)
  rw [balloc, sat_fsState_bind]
  dsimp only
  rw [hdiv, ballocFrom, sat_fsState_bind]
  refine Sat.ite (fun hpos => ?_) fun hpos => ⟨rfl, fun b _ hb => absurd hb (by omega)⟩
  rw [sat_bread_bind (by rw [hok.bblock_eq hpos]; omega), hok.bblock_eq hpos]
  split
  · rename_i b hfind
    obtain ⟨hbit, hmem, -⟩ := List.find?_range_eq_some.1 hfind
    have hb : b < s.sb.size := by
      rw [List.mem_range] at hmem
      omega
    have hfree : ¬ (b < s.sb.nmeta ∨ b ∈ U) := by
      rw [← hbm b hb]
      simpa using hbit
    rw [not_or, not_lt] at hfree
    rw [Nat.zero_add, sat_logWrite_bind, sat_brelse_bind, bzero, sat_bind, sat_bread_bind (by omega)]
    refine ⟨hfree.1, hb, hfree.2, fun c hc => ?_, _, rfl⟩
    have hne : s.sb.bmapstart ≠ b := by omega
    have hc' : c < 8 * BSIZE := by
      simp only [FSSIZE] at hsize
      simp only [BSIZE]
      omega
    simp only [State.write, update_of_ne hne, update_self, Bytes.bit_setBit hc',
      Bool.or_eq_true, decide_eq_true_eq, hbm c hc, Set.mem_insert_iff]
    rw [eq_comm]
    exact or_left_comm
  · -- the second turn of the loop is past the end of the disk
    rename_i hfind
    have hend : ¬ 0 + BPB < s.sb.size := by
      simp only [FSSIZE] at hsize
      simp only [BPB, BSIZE]
      omega
    rw [sat_brelse_bind, ballocFrom, sat_fsState_bind, if_neg hend]
    refine ⟨rfl, fun b hb hlt => ?_⟩
    have hmem : b ∈ List.range (min BPB (s.sb.size - 0)) := by
      rw [List.mem_range]
      omega
    have hbit := List.find?_eq_none.1 hfind b hmem
    rw [Bool.not_eq_true', Bool.not_eq_false] at hbit
    exact ((hbm b hlt).1 hbit).resolve_left (by omega)

/-- `bfree` takes back a data block in use. -/
theorem bfree_spec (hsb : Superblock.decode (s.disk 1) = s.sb) {b : Nat} (hb : b ∈ U)
    (harea : s.sb.nmeta ≤ b ∧ b < s.sb.size) :
    Sat E (bfree b) s fun _ s' => Bitmap s.sb s'.disk (U \ {b}) ∧
      ∃ bm, s' = s.write s.sb.bmapstart bm := by
  have hsize := hok.size
  have hbms := hok.bmapstart
  simp only [FSSIZE] at hsize
  have hmod : b % BPB = b := Nat.mod_eq_of_lt (by simp only [BPB, BSIZE]; omega)
  have hset : (s.disk s.sb.bmapstart).bit b = true := (hbm b harea.2).2 (.inr hb)
  rw [bfree, sat_bind, readsb, sat_bread_bind (by simp only [FSSIZE]; omega), hsb,
    sat_brelse_bind, sat_pure, sat_modifyFs_bind, hok.bblock_eq harea.2, sat_bread_bind (by simp only [FSSIZE]; omega),
    sat_panicIf_bind, hmod]
  refine ⟨fun hc => absurd hset (by rw [hc]; decide), fun _ => ⟨fun c hc => ?_, _, rfl⟩⟩
  have hc' : c < 8 * BSIZE := by
    simp only [BSIZE]
    omega
  simp only [State.write, update_self, Bytes.bit_clearBit hc', Bool.and_eq_true,
    Bool.not_eq_true', decide_eq_false_iff_not, hbm c hc, Set.mem_sdiff, Set.mem_singleton_iff]
  constructor
  · rintro ⟨hne, h | h⟩
    · exact .inl h
    · exact .inr ⟨h, fun hcb => hne hcb.symm⟩
  · rintro (h | ⟨h, hne⟩)
    · exact ⟨by omega, .inl h⟩
    · exact ⟨fun hcb => hne hcb.symm, .inr h⟩

end

end TronBoss.Fs
