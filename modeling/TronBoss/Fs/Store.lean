import TronBoss.Fs.BlockSpec
import TronBoss.Lib.Ownership

/-!
# The block store

Which block numbers the allocated inodes hold. An inode holds block numbers in its direct slots, in
the slot of the indirect block, and in the entries of that block (`Slot`). A `Store` is a disk
together with the inodes that are current, which are those on disk except for one that is being
changed in the cache. `Store.own` is the assignment of blocks to slots, and the invariant
`Store.Inv` says that it is exclusive, stays in the data area, and is what the free map shows.
-/

namespace TronBoss.Fs

open Lib Function

/-! ## Slots -/

/-- A place where an inode holds a block number. -/
inductive Slot where
  | direct (k : Fin NDIRECT)
  | indirect
  | entry (j : Fin NINDIRECT)
  deriving DecidableEq

/-- The first file block that needs the slot. -/
def Slot.first : Slot → Nat
  | .direct k => k.val
  | .indirect => NDIRECT
  | .entry j => NDIRECT + j.val

/-- The slot with the block number of a file block. -/
def slotOf (bn : Nat) : Slot :=
  if h : bn < NDIRECT then .direct ⟨bn, h⟩
  else .entry ⟨(bn - NDIRECT) % NINDIRECT, Nat.mod_lt _ (by decide)⟩

/-- The block number in a slot of an inode. -/
def Dinode.block (d : Dinode) (disk : Nat → Block) : Slot → Nat
  | .direct k => (d.addrs k.castSucc).toNat
  | .indirect => (d.addrs (Fin.last NDIRECT)).toNat
  | .entry j =>
    if d.addrs (Fin.last NDIRECT) = 0 then 0
    else ((disk (d.addrs (Fin.last NDIRECT)).toNat).read32 (4 * j.val)).toNat

@[simp] theorem Dinode.addrs_withAddrs (d : Dinode) (addrs : Fin (NDIRECT + 1) → UInt32) :
    (d.withAddrs addrs).addrs = addrs := rfl

theorem u32_toNat_eq_zero {x : UInt32} : x.toNat = 0 ↔ x = 0 := UInt32.toNat_inj (b := 0)

theorem slotOf_of_lt {bn : Nat} (h : bn < NDIRECT) : slotOf bn = .direct ⟨bn, h⟩ := dif_pos h

theorem slotOf_of_le {bn : Nat} (h : NDIRECT ≤ bn) (h' : bn < MAXFILE) :
    slotOf bn = .entry ⟨bn - NDIRECT, by unfold MAXFILE at h'; omega⟩ := by
  rw [slotOf, dif_neg (by omega)]
  congr 1
  exact Fin.ext (Nat.mod_eq_of_lt (by unfold MAXFILE at h'; omega))

theorem slotOf_ne_indirect (bn : Nat) : slotOf bn ≠ .indirect := by
  unfold slotOf
  split <;> simp

theorem first_slotOf {bn : Nat} (h : bn < MAXFILE) : (slotOf bn).first = bn := by
  rcases Nat.lt_or_ge bn NDIRECT with hlt | hge
  · rw [slotOf_of_lt hlt, Slot.first]
  · rw [slotOf_of_le hge h]
    exact Nat.add_sub_cancel' hge

/-- Only the indirect block shares its first file block with another slot. -/
theorem Slot.eq_slotOf_first {σ : Slot} (h : σ ≠ .indirect) : σ = slotOf σ.first := by
  cases σ with
  | direct k => rw [first, slotOf_of_lt k.isLt]
  | indirect => exact absurd rfl h
  | entry j =>
    rw [first, slotOf_of_le (by omega) (by unfold MAXFILE; omega)]
    simp

theorem slotOf_inj {bn bn' : Nat} (h : bn < MAXFILE) (h' : bn' < MAXFILE)
    (heq : slotOf bn = slotOf bn') : bn = bn' := by
  rw [← first_slotOf h, heq, first_slotOf h']

/-! ## Stores -/

/-- A disk, with the current inodes. -/
structure Store where
  sb : Superblock
  disk : Nat → Block
  node : Nat → Dinode

/-- The block in each slot of each allocated inode. -/
def Store.own (st : Store) (x : Nat × Slot) : Nat :=
  if (st.node x.1).type = 0 then 0 else (st.node x.1).block st.disk x.2

/-- Every block in a slot is a data block and in no other slot, and the free map marks the metadata
and the blocks in slots. -/
structure Store.Inv (st : Store) : Prop where
  ok : st.sb.Ok
  super : Superblock.decode (st.disk 1) = st.sb
  excl : Exclusive st.own
  area : ∀ x, st.own x ≠ 0 → st.sb.nmeta ≤ st.own x ∧ st.own x < st.sb.size
  bitmap : Bitmap st.sb st.disk (held st.own)

/-- The first `nb i` blocks of inode `i` are mapped, and none above. -/
def Store.Mapped (st : Store) (nb : Nat → Nat) : Prop :=
  ∀ i, (st.node i).type ≠ 0 → ∀ σ, st.own (i, σ) ≠ 0 ↔ σ.first < nb i

section
variable {st st' : Store} {i : Nat}

theorem Store.own_of_type {σ : Slot} (h : (st.node i).type ≠ 0) :
    st.own (i, σ) = (st.node i).block st.disk σ := if_neg h

theorem Store.own_of_free {σ : Slot} (h : (st.node i).type = 0) : st.own (i, σ) = 0 :=
  if_pos h

theorem Store.type_of_own {x : Nat × Slot} (h : st.own x ≠ 0) : (st.node x.1).type ≠ 0 :=
  fun ht => h (if_pos ht)

/-- A file block is looked up through the indirect block when its slot is an entry. -/
theorem Store.own_entry {j : Fin NINDIRECT} (h : st.own (i, .indirect) ≠ 0) :
    st.own (i, .entry j) = ((st.disk (st.own (i, .indirect))).read32 (4 * j.val)).toNat := by
  have ht := type_of_own h
  rw [own_of_type ht] at h
  rw [own_of_type ht, own_of_type ht]
  exact if_neg fun h0 => h (u32_toNat_eq_zero.2 h0)

theorem Store.own_entry_of_none {j : Fin NINDIRECT} (h : st.own (i, .indirect) = 0) :
    st.own (i, .entry j) = 0 := by
  rcases eq_or_ne (st.node i).type 0 with ht | ht
  · exact own_of_free ht
  · rw [own_of_type ht] at h ⊢
    exact if_pos (u32_toNat_eq_zero.1 h)

/-- What an inode owns depends on the disk only through its indirect block. -/
theorem Store.own_congr (hn : st'.node i = st.node i) (hd : st.own (i, .indirect) ≠ 0 →
      st'.disk (st.own (i, .indirect)) = st.disk (st.own (i, .indirect))) (σ : Slot) :
    st'.own (i, σ) = st.own (i, σ) := by
  rcases eq_or_ne (st.node i).type 0 with ht | ht
  · rw [own_of_free ht, own_of_free (hn ▸ ht)]
  · have ht' : (st'.node i).type ≠ 0 := hn ▸ ht
    have hind : st'.own (i, .indirect) = st.own (i, .indirect) := by
      rw [own_of_type ht, own_of_type ht', hn]
      rfl
    cases σ with
    | direct k => rw [own_of_type ht, own_of_type ht', hn]; rfl
    | indirect => exact hind
    | entry j =>
      rcases eq_or_ne (st.own (i, .indirect)) 0 with h0 | h0
      · rw [own_entry_of_none h0, own_entry_of_none (hind.trans h0)]
      · rw [own_entry h0, own_entry (hind ▸ h0), hind, hd h0]

/-- Blocks in slots are not metadata. -/
theorem Store.Inv.own_ne (h : st.Inv) {x : Nat × Slot} (hx : st.own x ≠ 0) {b : Nat}
    (hb : b < st.sb.nmeta) : st.own x ≠ b := by
  have := (h.area x hx).1
  omega

end

/-! ## Filling a slot -/

/-- The store with a block written. -/
def Store.write (st : Store) (b : Nat) (c : Block) : Store :=
  { st with disk := update st.disk b c }

/-- The store with an inode changed. -/
def Store.setNode (st : Store) (i : Nat) (d : Dinode) : Store :=
  { st with node := update st.node i d }

theorem Store.setNode_self (st : Store) (i : Nat) : st.setNode i (st.node i) = st := by
  rw [setNode, update_eq_self]

theorem Store.write_eq_self {st : Store} {b : Nat} {c : Block} (h : st.disk b = c) :
    st.write b c = st := by
  rw [write, ← h, update_eq_self]

/-- The slot of `addrs[k]`. -/
def addrSlot (k : Fin (NDIRECT + 1)) : Slot :=
  if h : k.val < NDIRECT then .direct ⟨k.val, h⟩ else .indirect

/-- The slot `σ` of inode `i` is filled, and all other slots and their contents are as before. -/
structure Store.Fill (st st' : Store) (i : Nat) (σ : Slot) : Prop where
  sb : st'.sb = st.sb
  node : ∀ j ≠ i, st'.node j = st.node j
  attrs : st'.node i = (st.node i).withAddrs (st'.node i).addrs
  low : ∀ b < st.sb.nmeta, b ≠ st.sb.bmapstart → st'.disk b = st.disk b
  other : ∀ x ≠ (i, σ), st'.own x = st.own x
  filled : st'.own (i, σ) ≠ 0
  keep : st.own (i, σ) ≠ 0 → st'.own (i, σ) = st.own (i, σ)
  fresh : st.own (i, σ) = 0 → st'.disk (st'.own (i, σ)) = .zero
  data : ∀ x, st.own x ≠ 0 → x.2 ≠ .indirect → st'.disk (st.own x) = st.disk (st.own x)

theorem Store.Fill.refl {st : Store} {i : Nat} {σ : Slot} (h : st.own (i, σ) ≠ 0) :
    st.Fill st i σ :=
  ⟨rfl, fun _ _ => rfl, rfl, fun _ _ _ => rfl, fun _ _ => rfl, h, fun _ => rfl,
    fun h0 => absurd h0 h, fun _ _ _ => rfl⟩

theorem Dinode.block_addrSlot (d : Dinode) (disk : Nat → Block) (k : Fin (NDIRECT + 1)) :
    d.block disk (addrSlot k) = (d.addrs k).toNat := by
  unfold addrSlot
  split
  · rfl
  · have hk : k = Fin.last NDIRECT := Fin.ext (by simp only [Fin.val_last]; omega)
    rw [hk]
    rfl

theorem addrSlot_last : addrSlot (Fin.last NDIRECT) = .indirect := dif_neg (by simp)

theorem addrSlot_castSucc (k : Fin NDIRECT) : addrSlot k.castSucc = .direct k := by
  rw [addrSlot, dif_pos (by simp)]
  rfl

theorem addrSlot_ofNat {bn : Nat} (hlt : bn < NDIRECT) :
    addrSlot (Fin.ofNat (NDIRECT + 1) bn) = slotOf bn := by
  have hval : (Fin.ofNat (NDIRECT + 1) bn).val = bn := Nat.mod_eq_of_lt (by omega)
  rw [slotOf_of_lt hlt, addrSlot, dif_pos (by rw [hval]; exact hlt)]
  simp only [hval]

theorem addrSlot_inj {k k' : Fin (NDIRECT + 1)} (h : addrSlot k = addrSlot k') : k = k' := by
  unfold addrSlot at h
  split at h <;> split at h <;> simp_all [Fin.ext_iff]
  omega

theorem read32_zero (n off : Nat) : (Bytes.zero : Bytes n).read32 off = 0 := by
  simp [Bytes.read32, Bytes.read, Bytes.get_zero, List.range_succ, leNat]

section
variable {st st' : Store} {i b : Nat} {σ : Slot}

theorem Store.low_alloc (hb : st.sb.nmeta ≤ b) {bm : Block} {c : Nat} (hc : c < st.sb.nmeta)
    (hne : c ≠ st.sb.bmapstart) :
    ((st.write st.sb.bmapstart bm).write b .zero).disk c = st.disk c := by
  have hcb : c ≠ b := by omega
  simp only [write, update_of_ne hcb, update_of_ne hne]

variable (h : st.Inv)
include h

theorem Store.Inv.one_low : 1 < st.sb.nmeta ∧ 1 ≠ st.sb.bmapstart := by
  have h1 := h.ok.inodestart
  have h2 : st.sb.inodestart ≤ st.sb.bmapstart := le_trans (Nat.le_add_right ..) h.ok.inodes
  have h3 := h.ok.bmapstart
  omega

theorem Store.Inv.ne_zero (hb : st.sb.nmeta ≤ b) : b ≠ 0 := by
  have := h.one_low
  omega

theorem Store.Inv.toNat_ofNat (hb : b < st.sb.size) : (UInt32.ofNat b).toNat = b := by
  have hsize := h.ok.size
  simp only [FSSIZE] at hsize
  rw [UInt32.toNat_ofNat']
  exact Nat.mod_eq_of_lt (by omega)

/-- An empty slot is filled with a zeroed block that was free. -/
theorem Store.Inv.fill (hsb : st'.sb = st.sb) (hnode : ∀ j ≠ i, st'.node j = st.node j)
    (hattrs : st'.node i = (st.node i).withAddrs (st'.node i).addrs)
    (hlow : ∀ c < st.sb.nmeta, c ≠ st.sb.bmapstart → st'.disk c = st.disk c)
    (hown : st'.own = update st.own (i, σ) b) (hfree : st.own (i, σ) = 0)
    (hb : st.sb.nmeta ≤ b ∧ b < st.sb.size) (hnew : b ∉ held st.own)
    (hbm : Bitmap st.sb st'.disk (insert b (held st.own))) (hzero : st'.disk b = .zero)
    (hdata : ∀ x, st.own x ≠ 0 → x.2 ≠ .indirect → st'.disk (st.own x) = st.disk (st.own x)) :
    st.Fill st' i σ ∧ st'.Inv ∧ st'.own (i, σ) = b := by
  have hb0 := h.ne_zero hb.1
  have hself : st'.own (i, σ) = b := by rw [hown, update_self]
  refine ⟨⟨hsb, hnode, hattrs, hlow, fun x hx => ?_, hself ▸ hb0, fun hx => absurd hfree hx,
    fun _ => hself ▸ hzero, hdata⟩, ⟨hsb ▸ h.ok, ?_, hown ▸ h.excl.update hnew, fun x hx => ?_, ?_⟩,
    hself⟩
  · rw [hown, update_of_ne hx]
  · rw [hlow 1 h.one_low.1 h.one_low.2, h.super, hsb]
  · rw [hown] at hx ⊢
    rw [hsb]
    rcases eq_or_ne x (i, σ) with rfl | hne
    · rwa [update_self]
    · rw [update_of_ne hne] at hx ⊢
      exact h.area x hx
  · rw [hown, held_update hfree hb0, hsb]
    exact hbm

/-- What `balloc` writes leaves the blocks in slots alone. -/
theorem Store.Inv.disk_alloc (hnew : b ∉ held st.own) {bm : Block}
    {x : Nat × Slot} (hx : st.own x ≠ 0) :
    ((st.write st.sb.bmapstart bm).write b .zero).disk (st.own x) = st.disk (st.own x) := by
  have h1 : st.own x ≠ b := fun heq => hnew (heq ▸ mem_held hx)
  have h2 : st.own x ≠ st.sb.bmapstart := h.own_ne hx h.ok.bmapstart
  simp only [write, update_of_ne h1, update_of_ne h2]

variable (hb : st.sb.nmeta ≤ b ∧ b < st.sb.size) (hnew : b ∉ held st.own) {bm : Block}
  (hbm : Bitmap st.sb ((st.write st.sb.bmapstart bm).write b .zero).disk (insert b (held st.own)))
include hb hnew hbm

/-- A free block put into `addrs[k]`. A new indirect block has no entries, since `balloc` zeroes
it. -/
theorem Store.Inv.fillAddr {k : Fin (NDIRECT + 1)} (ht : (st.node i).type ≠ 0)
    (h0 : st.own (i, addrSlot k) = 0)
    (hst' : st' = ((st.write st.sb.bmapstart bm).write b .zero).setNode i
      ((st.node i).withAddrs (update (st.node i).addrs k (UInt32.ofNat b)))) :
    st.Fill st' i (addrSlot k) ∧ st'.Inv ∧ st'.own (i, addrSlot k) = b := by
  have hdisk : st'.disk = ((st.write st.sb.bmapstart bm).write b .zero).disk := by
    rw [hst']
    rfl
  have hnode : st'.node i =
      (st.node i).withAddrs (update (st.node i).addrs k (UInt32.ofNat b)) := by
    rw [hst']
    exact update_self ..
  have hnode' : ∀ j ≠ i, st'.node j = st.node j := by
    intro j hj
    rw [hst']
    exact update_of_ne hj ..
  have ht' : (st'.node i).type ≠ 0 := by
    rw [hnode]
    exact ht
  have haddr (k' : Fin (NDIRECT + 1)) : st'.own (i, addrSlot k') =
      update st.own (i, addrSlot k) b (i, addrSlot k') := by
    rw [own_of_type ht', Dinode.block_addrSlot, hnode, Dinode.addrs_withAddrs]
    rcases eq_or_ne k' k with rfl | hk
    · rw [update_self, update_self, h.toNat_ofNat hb.2]
    · have hk' : (i, addrSlot k') ≠ (i, addrSlot k) := fun heq =>
        hk (addrSlot_inj (Prod.ext_iff.1 heq).2)
      rw [update_of_ne hk, update_of_ne hk', own_of_type ht,
        Dinode.block_addrSlot]
  have hown : st'.own = update st.own (i, addrSlot k) b := by
    funext ⟨j, τ⟩
    rcases eq_or_ne j i with rfl | hj
    · cases τ with
      | direct k' => exact addrSlot_castSucc k' ▸ haddr k'.castSucc
      | indirect => exact addrSlot_last ▸ haddr (Fin.last NDIRECT)
      | entry l =>
        have hne : (j, Slot.entry l) ≠ (j, addrSlot k) := by
          intro heq
          have := (Prod.ext_iff.1 heq).2
          unfold addrSlot at this
          split at this <;> cases this
        rw [update_of_ne hne]
        have hind := haddr (Fin.last NDIRECT)
        rw [addrSlot_last] at hind
        rcases eq_or_ne k (Fin.last NDIRECT) with rfl | hk
        · rw [addrSlot_last] at hind h0
          rw [update_self] at hind
          rw [own_entry (hind ▸ h.ne_zero hb.1), hind, hdisk, own_entry_of_none h0]
          simp only [write, update_self, read32_zero]
          rfl
        · have hk' : (j, Slot.indirect) ≠ (j, addrSlot k) := fun heq =>
            hk (addrSlot_inj (addrSlot_last ▸ (Prod.ext_iff.1 heq).2)).symm
          rw [update_of_ne hk'] at hind
          rcases eq_or_ne (st.own (j, .indirect)) 0 with hi0 | hi0
          · rw [own_entry_of_none hi0, own_entry_of_none (hind.trans hi0)]
          · rw [own_entry hi0, own_entry (hind ▸ hi0), hind, hdisk,
              h.disk_alloc hnew hi0]
    · have hne : (j, τ) ≠ (i, addrSlot k) := fun heq => hj (Prod.ext_iff.1 heq).1
      rw [update_of_ne hne]
      exact own_congr (hnode' j hj) (fun hi => hdisk ▸ h.disk_alloc hnew hi) τ
  refine h.fill (by rw [hst']; rfl) hnode' (by rw [hnode]; rfl) (fun c hc hne => ?_) hown h0 hb hnew
    (hdisk ▸ hbm) (hdisk ▸ update_self ..) fun x hx _ => ?_
  · exact hdisk ▸ low_alloc hb.1 hc hne
  · exact hdisk ▸ h.disk_alloc hnew hx

/-- A free block put into an entry of the indirect block. -/
theorem Store.Inv.fillEntry {j : Fin NINDIRECT} {a : Nat} (ha : a = st.own (i, .indirect))
    (ha0 : a ≠ 0) (h0 : st.own (i, .entry j) = 0)
    (hst' : st' = ((st.write st.sb.bmapstart bm).write b .zero).write a
      ((st.disk a).write32 (4 * j.val) (UInt32.ofNat b))) :
    st.Fill st' i (.entry j) ∧ st'.Inv ∧ st'.own (i, .entry j) = b := by
  have hi : st.own (i, .indirect) ≠ 0 := ha ▸ ha0
  have hnode : st'.node = st.node := by
    rw [hst']
    rfl
  have hdisk : ∀ x, st.own x ≠ 0 → x ≠ (i, .indirect) →
      st'.disk (st.own x) = st.disk (st.own x) := by
    intro x hx hxi
    have hxa : st.own x ≠ a := fun heq => hxi (h.excl x _ hx (heq.trans ha))
    rw [hst', ← h.disk_alloc hnew hx]
    exact update_of_ne hxa ..
  have hda : st'.disk a = (st.disk a).write32 (4 * j.val) (UInt32.ofNat b) := by
    rw [hst']
    exact update_self ..
  have hind : st'.own (i, .indirect) = st.own (i, .indirect) := by
    have ht := type_of_own hi
    rw [own_of_type ht, own_of_type (hnode ▸ ht), hnode]
    rfl
  have hown : st'.own = update st.own (i, .entry j) b := by
    funext ⟨j', τ⟩
    rcases eq_or_ne j' i with rfl | hj
    · cases τ with
      | direct k =>
        rw [update_of_ne (by simp)]
        have ht := type_of_own hi
        rw [own_of_type ht, own_of_type (hnode ▸ ht), hnode]
        rfl
      | indirect =>
        rw [update_of_ne (by simp)]
        exact hind
      | entry l =>
        have hl : 4 * l.val + 4 ≤ BSIZE := by
          have := l.isLt
          simp only [NINDIRECT, BSIZE] at this ⊢
          omega
        rw [own_entry (hind ▸ hi), hind, ← ha, hda]
        rcases eq_or_ne l j with rfl | hlj
        · rw [update_self, Bytes.read32_write32 hl, h.toNat_ofNat hb.2]
        · have hne : (j', Slot.entry l) ≠ (j', Slot.entry j) := by simpa using hlj
          rw [update_of_ne hne, Bytes.read32_write32_of_disjoint hl (by omega),
            own_entry hi, ← ha]
    · have hne : (j', τ) ≠ (i, .entry j) := fun heq => hj (Prod.ext_iff.1 heq).1
      rw [update_of_ne hne]
      refine own_congr (by rw [hnode]) (fun hi' => hdisk _ hi' fun heq => ?_) τ
      exact hj (Prod.ext_iff.1 heq).1
  have hlow {c} (hc : c < st.sb.nmeta) :
      st'.disk c = ((st.write st.sb.bmapstart bm).write b .zero).disk c := by
    rw [hst']
    exact update_of_ne (ha ▸ (h.own_ne hi hc).symm) ..
  refine h.fill (by rw [hst']; rfl) (fun _ _ => by rw [hnode]) (by rw [hnode]; rfl)
    (fun c hc hne => ?_) hown h0 hb hnew (hbm.congr (hlow h.ok.bmapstart)) ?_ fun x hx hxi => ?_
  · rw [hlow hc, low_alloc hb.1 hc hne]
  · have hba : b ≠ a := fun heq => hnew (heq ▸ ha ▸ mem_held hi)
    rw [hst']
    exact (update_of_ne hba ..).trans (update_self ..)
  · exact hdisk x hx fun heq => hxi (heq ▸ rfl)

end

/-! ## Contents -/

/-- The byte at a position of a file. -/
def Store.byte (st : Store) (i x : Nat) : UInt8 :=
  (st.disk (st.own (i, slotOf (x / BSIZE)))).get (x % BSIZE)

/-- Inode `i` may have got more blocks, and its bytes from `off` on are now `src`. The other bytes of
mapped blocks are as before, those of new blocks are zero, and the metadata apart from the free map
has not changed. -/
structure Store.Upd (st st' : Store) (i off : Nat) (src : List UInt8) : Prop where
  sb : st'.sb = st.sb
  node : ∀ j ≠ i, st'.node j = st.node j
  attrs : st'.node i = (st.node i).withAddrs (st'.node i).addrs
  low : ∀ b < st.sb.nmeta, b ≠ st.sb.bmapstart → st'.disk b = st.disk b
  keep : ∀ x, st.own x ≠ 0 → st'.own x = st.own x
  written : ∀ x, off ≤ x → x < off + src.length → st'.own (i, slotOf (x / BSIZE)) ≠ 0 ∧
    st'.byte i x = src.getD (x - off) 0
  kept : ∀ j x, x < MAXFILE * BSIZE → st.own (j, slotOf (x / BSIZE)) ≠ 0 →
    ¬ (j = i ∧ off ≤ x ∧ x < off + src.length) → st'.byte j x = st.byte j x
  fresh : ∀ x, x < MAXFILE * BSIZE → st.own (i, slotOf (x / BSIZE)) = 0 →
    st'.own (i, slotOf (x / BSIZE)) ≠ 0 → ¬ (off ≤ x ∧ x < off + src.length) → st'.byte i x = 0

section
variable {st st₁ st' : Store} {i off : Nat} {src : List UInt8}

theorem Store.Upd.refl (st : Store) (i off : Nat) : st.Upd st i off [] where
  sb := rfl
  node _ _ := rfl
  attrs := rfl
  low _ _ _ := rfl
  keep _ _ := rfl
  written x h h' := absurd h' (by rw [List.length_nil]; omega)
  kept _ _ _ _ _ := rfl
  fresh _ _ h h' _ := absurd h h'

/-- Filling a slot changes no byte of a file. -/
theorem Store.Fill.upd {σ : Slot} (h : st.Fill st' i σ) (off : Nat) : st.Upd st' i off [] := by
  have hkeep : ∀ x, st.own x ≠ 0 → st'.own x = st.own x := by
    intro x hx
    rcases eq_or_ne x (i, σ) with rfl | hne
    · exact h.keep hx
    · exact h.other x hne
  refine ⟨h.sb, h.node, h.attrs, h.low, hkeep, fun x h h' => absurd h' ?_, fun j x _ hx _ => ?_,
    fun x _ h0 hx _ => ?_⟩
  · rw [List.length_nil]
    omega
  · rw [byte, byte, hkeep _ hx, h.data _ hx (slotOf_ne_indirect _)]
  · rcases eq_or_ne (i, slotOf (x / BSIZE)) (i, σ) with heq | hne
    · rw [heq] at h0
      rw [byte, heq, h.fresh h0, Bytes.get_zero]
    · rw [h.other _ hne] at hx
      exact absurd h0 hx

/-- Writing some bytes and then the next ones. -/
theorem Store.Upd.append {more : List UInt8} (h : st.Upd st₁ i off src)
    (h' : st₁.Upd st' i (off + src.length) more)
    (hmax : ∀ x, off ≤ x → x < off + src.length → x < MAXFILE * BSIZE) :
    st.Upd st' i off (src ++ more) where
  sb := h'.sb.trans h.sb
  node j hj := (h'.node j hj).trans (h.node j hj)
  attrs := by
    rw [h'.attrs, h.attrs]
    rfl
  low b hb hne := by
    rw [h'.low b (h.sb ▸ hb) (h.sb ▸ hne), h.low b hb hne]
  keep x hx := by
    have h1 := h.keep x hx
    rw [h'.keep x (h1 ▸ hx), h1]
  written x hx hx' := by
    rw [List.length_append] at hx'
    rcases Nat.lt_or_ge x (off + src.length) with hlt | hge
    · obtain ⟨hown, hbyte⟩ := h.written x hx hlt
      refine ⟨by rw [h'.keep _ hown]; exact hown, ?_⟩
      rw [h'.kept i x (hmax x hx hlt) hown (by omega), hbyte, List.getD_append _ _ _ _ (by omega)]
    · obtain ⟨hown, hbyte⟩ := h'.written x hge (by omega)
      refine ⟨hown, ?_⟩
      rw [hbyte, List.getD_append_right _ _ _ _ (by omega), Nat.sub_add_eq]
  kept j x hmax hx hn := by
    rw [List.length_append] at hn
    have hx1 := h.keep _ hx
    rw [h'.kept j x hmax (hx1 ▸ hx) (by omega), h.kept j x hmax hx (by omega)]
  fresh x hmax h0 hx hn := by
    rw [List.length_append] at hn
    rcases eq_or_ne (st₁.own (i, slotOf (x / BSIZE))) 0 with h1 | h1
    · exact h'.fresh x hmax h1 hx (by omega)
    · rw [h'.kept i x hmax h1 (by omega)]
      exact h.fresh x hmax h0 h1 (by omega)

/-- Filling the slots of one more file block. -/
theorem Store.Mapped.grow {nb : Nat → Nat} {bn : Nat} (h : st.Mapped nb)
    (htype : ∀ j, (st'.node j).type = (st.node j).type) (hbn : bn ≤ nb i) (hmax : bn < MAXFILE)
    (hother : ∀ j ≠ i, ∀ σ, st'.own (j, σ) = st.own (j, σ))
    (hi : ∀ σ, st'.own (i, σ) ≠ 0 ↔
      st.own (i, σ) ≠ 0 ∨ σ = slotOf bn ∨ (σ = .indirect ∧ NDIRECT ≤ bn)) :
    st'.Mapped (update nb i (max (nb i) (bn + 1))) := by
  intro j hj σ
  rw [htype] at hj
  rcases eq_or_ne j i with rfl | hne
  · rw [hi, h j hj, update_self, lt_max_iff]
    rcases eq_or_ne σ .indirect with rfl | hσ
    · simp only [Slot.first, (slotOf_ne_indirect bn).symm, false_or, true_and]
      omega
    · have hs : σ = slotOf bn ↔ σ.first = bn :=
        ⟨fun heq => heq ▸ first_slotOf hmax, fun heq => heq ▸ Slot.eq_slotOf_first hσ⟩
      simp only [hs, hσ, false_and, or_false]
      omega
  · rw [hother j hne, h j hj, update_of_ne hne]

theorem Store.Fill.type {σ : Slot} (h : st.Fill st' i σ) (j : Nat) :
    (st'.node j).type = (st.node j).type := by
  rcases eq_or_ne j i with rfl | hj
  · rw [h.attrs]
    rfl
  · rw [h.node j hj]

section
variable {nb : Nat → Nat} {bn : Nat} (h : st.Mapped nb) (hbn : bn ≤ nb i) (hmax : bn < MAXFILE)
include h hbn hmax

theorem Store.Mapped.fillDirect (hlt : bn < NDIRECT) (hfill : st.Fill st' i (slotOf bn)) :
    st'.Mapped (update nb i (max (nb i) (bn + 1))) := by
  refine h.grow hfill.type hbn hmax (fun j hj σ => ?_) fun σ => ?_
  · exact hfill.other _ fun heq => hj (Prod.ext_iff.1 heq).1
  · rcases eq_or_ne σ (slotOf bn) with rfl | hσ
    · simp [hfill.filled]
    · rw [hfill.other _ fun heq => hσ (Prod.ext_iff.1 heq).2]
      have : ¬ NDIRECT ≤ bn := by omega
      simp [hσ, this]

/-- Filling the block behind the last one, through the indirect block. -/
theorem Store.Mapped.fillIndirect (hge : NDIRECT ≤ bn) (hfill1 : st.Fill st₁ i .indirect)
    (hfill : st₁.Fill st' i (slotOf bn)) :
    st'.Mapped (update nb i (max (nb i) (bn + 1))) := by
  refine h.grow (fun j => ?_) hbn hmax (fun j hj σ => ?_) fun σ => ?_
  · rw [hfill.type, hfill1.type]
  · rw [hfill.other _ fun heq => hj (Prod.ext_iff.1 heq).1,
      hfill1.other _ fun heq => hj (Prod.ext_iff.1 heq).1]
  · rcases eq_or_ne σ (slotOf bn) with rfl | hσ
    · simp [hfill.filled]
    · rw [hfill.other _ fun heq => hσ (Prod.ext_iff.1 heq).2]
      rcases eq_or_ne σ .indirect with rfl | hi
      · simp [hfill1.filled, hge]
      · rw [hfill1.other _ fun heq => hi (Prod.ext_iff.1 heq).2]
        simp [hσ, hi]

end

/-- Writes outside the free map, the super block and the indirect blocks keep the invariant. -/
theorem Store.Inv.congr (h : st.Inv) (hsb : st'.sb = st.sb) (hown : st'.own = st.own)
    (h1 : st'.disk 1 = st.disk 1) (hbm : st'.disk st.sb.bmapstart = st.disk st.sb.bmapstart) :
    st'.Inv where
  ok := hsb ▸ h.ok
  super := by rw [h1, h.super, hsb]
  excl := hown ▸ h.excl
  area x hx := by
    rw [hown] at hx ⊢
    rw [hsb]
    exact h.area x hx
  bitmap := by
    rw [hown, hsb]
    exact h.bitmap.congr hbm

theorem Store.Mapped.congr {nb : Nat → Nat} (h : st.Mapped nb)
    (htype : ∀ j, (st'.node j).type = (st.node j).type) (hown : st'.own = st.own) :
    st'.Mapped nb := by
  intro j hj σ
  rw [hown]
  exact h j (htype j ▸ hj) σ

section
variable {b : Nat} {c : Block}

/-- No slot is in a metadata block. -/
theorem Store.Inv.own_write_low (h : st.Inv) (hb : b < st.sb.nmeta) :
    (st.write b c).own = st.own := by
  funext ⟨j, σ⟩
  refine @Store.own_congr st (st.write b c) j rfl (fun hj => ?_) σ
  exact update_of_ne (h.own_ne hj hb) ..

theorem Store.Inv.write_low (h : st.Inv) (hb : b < st.sb.nmeta) (h1 : b ≠ 1)
    (hbm : b ≠ st.sb.bmapstart) : (st.write b c).Inv :=
  h.congr rfl (h.own_write_low hb) (update_of_ne h1.symm ..)
    (update_of_ne hbm.symm ..)

theorem Store.Inv.byte_write_low (h : st.Inv) (hb : b < st.sb.nmeta) {j x : Nat}
    (hx : st.own (j, slotOf (x / BSIZE)) ≠ 0) : (st.write b c).byte j x = st.byte j x := by
  rw [byte, byte, h.own_write_low hb]
  simp only [write, update_of_ne (h.own_ne hx hb)]

/-- No slot is in a block with the contents of a file. -/
theorem Store.Inv.own_write_data (h : st.Inv) {bn : Nat} (hb : b = st.own (i, slotOf bn)) :
    (st.write b c).own = st.own := by
  funext ⟨j, σ⟩
  refine @Store.own_congr st (st.write b c) j rfl (fun hj => ?_) σ
  have hne : st.own (j, .indirect) ≠ b := fun heq =>
    slotOf_ne_indirect bn (Prod.ext_iff.1 (h.excl _ _ hj (heq.trans hb))).2.symm
  exact update_of_ne hne ..

theorem Store.Inv.write_data (h : st.Inv) {bn : Nat} (hb : b = st.own (i, slotOf bn))
    (hb0 : b ≠ 0) : (st.write b c).Inv := by
  have harea := (h.area _ (hb ▸ hb0)).1
  rw [← hb] at harea
  have h1 := h.one_low
  have h2 := h.ok.bmapstart
  exact h.congr rfl (h.own_write_data hb) (update_of_ne (by omega) ..)
    (update_of_ne (by omega) ..)

/-- Positions of a file within one block. -/
theorem div_mod_of_fit {x len : Nat} (hfit : off % BSIZE + len ≤ BSIZE) (hx : off ≤ x)
    (hx' : x < off + len) : x / BSIZE = off / BSIZE ∧ x % BSIZE = off % BSIZE + (x - off) := by
  simp only [BSIZE] at *
  omega

theorem mem_range_of_div_eq {x len : Nat} (hdiv : x / BSIZE = off / BSIZE)
    (h : off % BSIZE ≤ x % BSIZE ∧ x % BSIZE < off % BSIZE + len) : off ≤ x ∧ x < off + len := by
  simp only [BSIZE] at *
  omega

/-- A write into a block of a file, from offset `off` of the file on. -/
theorem Store.Inv.upd_write (h : st.Inv) (hb : b = st.own (i, slotOf (off / BSIZE)))
    (hb0 : b ≠ 0) (hfit : off % BSIZE + src.length ≤ BSIZE) (hmax : off / BSIZE < MAXFILE) :
    st.Upd (st.write b ((st.disk b).write (off % BSIZE) src)) i off src := by
  have hown := h.own_write_data hb (c := (st.disk b).write (off % BSIZE) src)
  have harea := (h.area _ (hb ▸ hb0)).1
  rw [← hb] at harea
  have hmod (x : Nat) : x % BSIZE < BSIZE := Nat.mod_lt _ (by decide)
  refine ⟨rfl, fun _ _ => rfl, rfl, fun c hc _ => update_of_ne (by omega) ..,
    fun _ _ => by rw [hown], fun x hx hx' => ?_, fun j x hx hj hn => ?_,
    fun x _ h0 hx _ => absurd h0 (by rwa [hown] at hx)⟩
  · obtain ⟨hdiv, hrem⟩ := div_mod_of_fit hfit hx hx'
    rw [hown, byte, hown, hdiv, ← hb]
    refine ⟨hb0, ?_⟩
    simp only [write, update_self]
    rw [Bytes.get_write (hmod x), if_pos (by omega), hrem, Nat.add_sub_cancel_left]
  · rw [byte, byte, hown]
    rcases eq_or_ne (st.own (j, slotOf (x / BSIZE))) b with heq | hne
    · obtain ⟨hij, hslot⟩ := Prod.ext_iff.1 (h.excl _ _ hj (heq.trans hb))
      have hdiv : x / BSIZE = off / BSIZE :=
        slotOf_inj (Nat.div_lt_of_lt_mul (by rwa [Nat.mul_comm])) hmax hslot
      rw [heq]
      simp only [write, update_self]
      rw [Bytes.get_write (hmod x), if_neg fun hr => hn ⟨hij, mem_range_of_div_eq hdiv hr⟩]
    · simp only [write, update_of_ne hne]

end

end

end TronBoss.Fs
