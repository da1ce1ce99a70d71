import Mathlib.Data.Set.Card
import TronBoss.Fs.BlockSpec

/-!
# Free blocks and logged blocks

What a routine costs. It takes blocks from the free map, and it puts block numbers into the header of
the log, where a block that is written again counts once. `Spent s s' n X` says that `n` blocks were
taken and that the blocks in `X` were logged; a routine that needs `n` blocks stops in `balloc` when
fewer are free (`OutOfBlocks`). Both are added up over a sequence of routines.
-/

namespace TronBoss.Fs

open Lib Finset

/-- The blocks that the free map has as free. -/
def State.freeSet (s : State) : Finset Nat :=
  (Finset.range s.sb.size).filter fun b => (s.disk (BBLOCK b s.sb)).bit (b % BPB) = false

/-- The number of free blocks. -/
def State.free (s : State) : Nat := s.freeSet.card

/-- From `s` to `s'`, `n` blocks were taken and the blocks in `X` were logged. -/
structure Spent (s s' : State) (n : Nat) (X : Set Nat) : Prop where
  free : s'.free + n = s.free
  log : ∀ b, b ∈ s'.log ↔ b ∈ s.log ∨ b ∈ X
  nodup : s.log.Nodup → s'.log.Nodup

/-- `balloc` stops with a panic, and fewer than `n` blocks are free. -/
def OutOfBlocks (s : State) (n : Nat) (e : Stop) : Prop :=
  e = .panic "balloc: out of blocks" ∧ s.free < n

/-! ## Adding up -/

section
variable {s s₁ s' : State} {n n' : Nat} {X X' : Set Nat}

theorem Spent.refl (s : State) : Spent s s 0 ∅ :=
  ⟨rfl, fun b => by rw [Set.mem_empty_iff_false, or_false], id⟩

theorem Spent.trans (h : Spent s s₁ n X) (h' : Spent s₁ s' n' X') :
    Spent s s' (n + n') (X ∪ X') where
  free := by
    have hfree := h.free
    have hfree' := h'.free
    omega
  log b := by rw [h'.log, h.log, Set.mem_union, or_assoc]
  nodup hs := h'.nodup (h.nodup hs)

/-- The same amounts under other names. -/
theorem Spent.congr (h : Spent s s' n X) (hn : n = n') (hX : X = X') : Spent s s' n' X' :=
  hX ▸ hn ▸ h

theorem OutOfBlocks.mono {e : Stop} (h : OutOfBlocks s n e) (hn : n ≤ n') : OutOfBlocks s n' e :=
  ⟨h.1, lt_of_lt_of_le h.2 hn⟩

/-- A change of the cache costs nothing. -/
theorem Spent.setInode {e : Fin NINODE} {ip : Inode} (h : Spent s s' n X) :
    Spent s (s'.setInode e ip) n X :=
  ⟨h.free, h.log, h.nodup⟩

/-- The length of the log of a routine that starts with an empty one. -/
theorem Spent.length_log (h : Spent s s' n X) (hs : s.log = []) : s'.log.length = X.ncard := by
  have hnodup := h.nodup (by rw [hs]; exact List.nodup_nil)
  have hX : X = s'.log.toFinset := by
    ext b
    rw [mem_coe, List.mem_toFinset, h.log, hs]
    simp
  rw [hX, Set.ncard_coe_finset, List.toFinset_card_of_nodup hnodup]

/-- The log grows by no more than the blocks that are logged. -/
theorem Spent.length_le (h : Spent s s' n X) (hs : s.log.Nodup) (hX : X.Finite) :
    s'.log.length ≤ s.log.length + X.ncard := by
  have hset : s'.log.toFinset = s.log.toFinset ∪ hX.toFinset := by
    ext b
    rw [mem_union, List.mem_toFinset, List.mem_toFinset, Set.Finite.mem_toFinset, h.log]
  have hcard := card_union_le s.log.toFinset hX.toFinset
  rwa [← hset, List.toFinset_card_of_nodup (h.nodup hs), List.toFinset_card_of_nodup hs,
    ← Set.ncard_eq_toFinset_card X hX] at hcard

/-- Running out of blocks in the rest of a routine. -/
theorem Spent.outOfBlocks {e : Stop} (h : Spent s s₁ n X) (he : OutOfBlocks s₁ n' e) :
    OutOfBlocks s (n + n') e := by
  obtain ⟨he, hlt⟩ := he
  have hfree := h.free
  exact ⟨he, by omega⟩

end

/-! ## Blocks -/

section
variable {s : State} {U : Set Nat} (hok : s.sb.Ok) (hbm : Bitmap s.sb s.disk U)
include hok hbm

/-- The free blocks are those of the data area that nothing uses. -/
theorem mem_freeSet {b : Nat} :
    b ∈ s.freeSet ↔ s.sb.nmeta ≤ b ∧ b < s.sb.size ∧ b ∉ U := by
  have hsize := hok.size
  rw [State.freeSet, mem_filter, mem_range]
  constructor
  · rintro ⟨hb, hbit⟩
    have hmod : b % BPB = b := Nat.mod_eq_of_lt (by
      simp only [FSSIZE] at hsize
      simp only [BPB, BSIZE]
      omega)
    rw [hok.bblock_eq hb, hmod, ← Bool.not_eq_true, hbm b hb] at hbit
    exact ⟨by omega, hb, fun hU => hbit (.inr hU)⟩
  · rintro ⟨hmeta, hb, hU⟩
    have hmod : b % BPB = b := Nat.mod_eq_of_lt (by
      simp only [FSSIZE] at hsize
      simp only [BPB, BSIZE]
      omega)
    rw [hok.bblock_eq hb, hmod, ← Bool.not_eq_true, hbm b hb]
    exact ⟨hb, fun hc => hc.elim (Nat.not_lt.2 hmeta) hU⟩

/-- A block that is written apart from the free map is logged, and nothing else happens. -/
theorem spent_write {b : Nat} {c : Block} (hb : b ≠ s.sb.bmapstart) :
    Spent s (s.write b c) 0 {b} := by
  have hbm' : Bitmap (s.write b c).sb (s.write b c).disk U :=
    hbm.congr (Function.update_of_ne hb.symm ..)
  have hok' : (s.write b c).sb.Ok := hok
  have hfree : (s.write b c).freeSet = s.freeSet := by
    ext x
    rw [mem_freeSet hok' hbm', mem_freeSet hok hbm]
    rfl
  exact ⟨congrArg card hfree, fun _ => mem_absorb, nodup_absorb⟩

/-- `balloc` takes one block, and logs the free map and the block. -/
theorem balloc_spent :
    Sat (OutOfBlocks s 1) balloc s fun b s' =>
      (s.sb.nmeta ≤ b ∧ b < s.sb.size ∧ b ∉ U ∧ Bitmap s.sb s'.disk (insert b U) ∧
        ∃ bm, s' = (s.write s.sb.bmapstart bm).write b .zero) ∧
      Spent s s' 1 {s.sb.bmapstart, b} := by
  refine (balloc_spec hok hbm).mono (fun e he => ⟨he.1, ?_⟩) fun b s' hs' => ⟨hs', ?_⟩
  · have hempty : s.freeSet = ∅ := by
      ext b
      rw [mem_freeSet hok hbm]
      exact ⟨fun hb => absurd (he.2 b hb.1 hb.2.1) hb.2.2, fun hb => absurd hb (by simp)⟩
    rw [State.free, hempty, card_empty]
    exact Nat.one_pos
  · obtain ⟨hmeta, hlt, hnew, hbm', bm, rfl⟩ := hs'
    have hfree : ((s.write s.sb.bmapstart bm).write b .zero).freeSet = s.freeSet.erase b := by
      ext c
      have hmem : c ∈ ((s.write s.sb.bmapstart bm).write b .zero).freeSet ↔
          s.sb.nmeta ≤ c ∧ c < s.sb.size ∧ c ∉ insert b U :=
        mem_freeSet (show ((s.write s.sb.bmapstart bm).write b .zero).sb.Ok from hok) hbm'
      rw [hmem, mem_erase, mem_freeSet hok hbm, Set.mem_insert_iff, not_or]
      exact ⟨fun ⟨h1, h2, h3, h4⟩ => ⟨h3, h1, h2, h4⟩, fun ⟨h3, h1, h2, h4⟩ => ⟨h1, h2, h3, h4⟩⟩
    refine ⟨?_, fun c => ?_, fun hs => nodup_absorb (nodup_absorb hs)⟩
    · rw [State.free, hfree]
      exact card_erase_add_one ((mem_freeSet hok hbm).2 ⟨hmeta, hlt, hnew⟩)
    · rw [Set.mem_insert_iff, Set.mem_singleton_iff, ← or_assoc]
      exact mem_absorb.trans (or_congr_left mem_absorb)

end

/-! ## Locks -/

section
variable {s : State} {e : Fin NINODE}

/-- `ilock` uses no block and logs none. -/
theorem ilock_spent : Sat (fun _ => True) (ilock e) s fun _ s' => Spent s s' 0 ∅ := by
  rw [ilock, sat_fsState_bind]
  rw [sat_panicIf_bind]
  refine ⟨fun _ => trivial, fun _ => Sat.ite (fun _ => trivial) fun _ => ?_⟩
  rw [sat_setBusy_bind]
  refine Sat.ite (fun _ => (Spent.refl s).setInode) fun _ => ?_
  rw [iload, sat_fsState_bind]
  rw [sat_bread_bind_iff]
  refine ⟨fun _ => trivial, fun _ => ?_⟩
  rw [sat_modifyInode_bind, sat_brelse_bind, sat_panicIf]
  exact ⟨fun _ => trivial, fun _ => (Spent.refl s).setInode.setInode⟩

theorem iunlock_spent : Sat (fun _ => True) (iunlock e) s fun _ s' => Spent s s' 0 ∅ := by
  rw [iunlock, sat_fsState_bind]
  rw [sat_panicIf_bind]
  exact ⟨fun _ => trivial, fun _ => (Spent.refl s).setInode⟩

end

end TronBoss.Fs
