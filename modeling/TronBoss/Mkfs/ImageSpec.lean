import TronBoss.Fs.FileSpec
import TronBoss.Mkfs.Mkfs

/-!
# The image while it is built

`mkfs` hands out blocks in order and writes the free map at the end, for the blocks below
`freeblock`. So the image is looked at as it would be with that map already written
(`Image.state`): then the block store of the kernel describes it, and what `iappend` does is what
`bmap` and `writei` do there.
-/

namespace TronBoss.Mkfs

open Lib Fs Function List

/-! ## The free map -/

theorem bit_usedMap {b : Nat} (hb : b < 8 * BSIZE) (used : Nat) :
    (usedMap used).bit b = decide (b < used) := by
  induction used with
  | zero => simp [usedMap, Bytes.bit]
  | succ used ih =>
    have hstep : usedMap (used + 1) = (usedMap used).setBit used := by
      simp [usedMap, range_succ]
    rw [hstep, Bytes.bit_setBit hb, ih]
    simp only [← Bool.decide_or, decide_eq_decide]
    omega

theorem sb_ok : sb.Ok := ⟨by decide, by decide, by decide, by decide, by decide⟩

/-- The kernel's view of the image, with the free map for the blocks used so far. -/
def Image.state (m : Image) : State :=
  { iinit m.img (fun _ => none) with
    disk := update m.img sb.bmapstart (usedMap m.freeblock), sb }

section
variable {m : Image} {din : Dinode} {c : Block} {i : Nat}

theorem Image.disk_eq {b : Nat} (hb : b ≠ sb.bmapstart) : m.state.disk b = m.img b :=
  update_of_ne hb ..

theorem Image.state_takeblock :
    { m with freeblock := m.freeblock + 1 }.state =
      (m.state.write sb.bmapstart (usedMap (m.freeblock + 1))).commit := by
  simp only [state, State.write, State.commit, update_idem]
  rfl

theorem Image.state_wsect {x : Nat} (hx : x ≠ sb.bmapstart) :
    { m with img := update m.img x c }.state = (m.state.write x c).commit := by
  simp only [state, State.write, State.commit, update_comm hx]
  rfl

theorem Image.node_write {b : Nat} (hb : sb.bmapstart ≤ b) :
    (m.state.write b c).node = m.state.node :=
  State.node_write (s := m.state) sb_ok hb

theorem Image.store_write {b : Nat} (hb : sb.bmapstart ≤ b) :
    (m.state.write b c).store = m.state.store.write b c :=
  State.store_write (s := m.state) sb_ok hb

/-- The store while `iappend` has the inode in memory. -/
def Image.flux (m : Image) (i : Nat) (din : Dinode) : Store := m.state.store.setNode i din

theorem Image.flux_node : (m.flux i din).node i = din :=
  update_self ..

theorem Image.flux_wsect {x : Nat} (hx : sb.bmapstart < x) :
    { m with img := update m.img x c }.flux i din = (m.flux i din).write x c := by
  unfold flux
  rw [state_wsect hx.ne', State.store_commit, store_write hx.le]
  rfl

/-- The blocks from `freeblock` on have not been written. -/
structure Image.Fresh (m : Image) : Prop where
  low : sb.nmeta ≤ m.freeblock
  zero : ∀ b, m.freeblock ≤ b → m.img b = .zero

theorem Image.flux_disk :
    (m.flux i din).disk = update m.img sb.bmapstart (usedMap m.freeblock) := rfl

/-- The store after a block was taken. -/
def Image.taken (m : Image) (i : Nat) (din : Dinode) : Store :=
  ((m.flux i din).write sb.bmapstart (usedMap (m.freeblock + 1))).write m.freeblock .zero

/-- The blocks in use are those below `freeblock`. -/
theorem Image.used_iff {b : Nat} (h : (m.flux i din).Inv) (hb : b < sb.size) :
    b < m.freeblock ↔ b < sb.nmeta ∨ b ∈ held (m.flux i din).own := by
  have hmap := h.bitmap b hb
  have hb' : b < 8 * BSIZE := lt_trans hb (by decide)
  rw [flux_disk] at hmap
  change (update m.img sb.bmapstart (usedMap m.freeblock) sb.bmapstart).bit b = true ↔ _
    at hmap
  rw [update_self, bit_usedMap hb', decide_eq_true_eq] at hmap
  exact hmap

/-- `freeblock++` takes a block that is free. -/
theorem Image.Fresh.take (hf : m.Fresh) (h : (m.flux i din).Inv) (hlt : m.freeblock < FSSIZE) :
    (sb.nmeta ≤ m.freeblock ∧ m.freeblock < sb.size) ∧ m.freeblock ∉ held (m.flux i din).own ∧
      { m with freeblock := m.freeblock + 1 }.flux i din = m.taken i din ∧
      Bitmap sb (m.taken i din).disk (insert m.freeblock (held (m.flux i din).own)) := by
  have hlow := hf.low
  have hbm := sb_ok.bmapstart
  have hne : m.freeblock ≠ sb.bmapstart := by omega
  refine ⟨⟨hlow, hlt⟩, fun hmem => ?_, ?_, fun b hb => ?_⟩
  · exact absurd ((m.used_iff h hlt).2 (.inr hmem)) (lt_irrefl _)
  · have hzero : ((m.flux i din).write sb.bmapstart (usedMap (m.freeblock + 1))).disk
        m.freeblock = .zero := by
      simp only [Store.write, update_of_ne hne, flux_disk, hf.zero _ le_rfl]
    rw [taken, Store.write_eq_self hzero, flux, state_takeblock,
      State.store_commit, store_write le_rfl]
    rfl
  · have hb' : b < 8 * BSIZE := lt_trans hb (by decide)
    simp only [taken, Store.write, update_of_ne hne.symm, update_self,
      bit_usedMap hb', decide_eq_true_eq, Set.mem_insert_iff]
    have hused := m.used_iff h hb
    grind

end

/-! ## `iappend` -/

theorem sat_rsect_bind {α : Type} {E : Stop → Prop} {m : Image} {sec : Nat} {f : Block → MkfsM α}
    {Q : α → Image → Prop} (h : sec < FSSIZE) :
    Sat E (rsect sec >>= f) m Q ↔ Sat E (f (m.img sec)) m Q := by
  rw [rsect, sat_bind, sat_panicIf_bind]
  constructor
  · exact fun h' => h'.2 (by omega)
  · exact fun h' => ⟨fun hc => absurd hc (by omega), fun _ => h'⟩

/-- A sector past the end of the image cannot be read. -/
theorem sat_rsect_past {α : Type} {E : Stop → Prop} {m : Image} {sec : Nat} {f : Block → MkfsM α}
    {Q : α → Image → Prop} (h : FSSIZE ≤ sec) (hE : ∀ e, E e) : Sat E (rsect sec >>= f) m Q := by
  rw [rsect, sat_bind, sat_panicIf_bind]
  exact ⟨fun _ => hE _, fun hc => absurd h hc⟩

@[simp] theorem sat_wsect {E : Stop → Prop} {m : Image} {sec : Nat} {buf : Block}
    {Q : Unit → Image → Prop} :
    Sat E (wsect sec buf) m Q ↔ Q () { m with img := update m.img sec buf } := Iff.rfl

@[simp] theorem sat_wsect_bind {α : Type} {E : Stop → Prop} {m : Image} {sec : Nat} {buf : Block}
    {f : Unit → MkfsM α} {Q : α → Image → Prop} :
    Sat E (wsect sec buf >>= f) m Q ↔
      Sat E (f ()) { m with img := update m.img sec buf } Q := Iff.rfl

@[simp] theorem sat_takeblock_bind {α : Type} {E : Stop → Prop} {m : Image} {f : Nat → MkfsM α}
    {Q : α → Image → Prop} :
    Sat E (takeblock >>= f) m Q ↔
      Sat E (f m.freeblock) { m with freeblock := m.freeblock + 1 } Q := Iff.rfl

/-- The number of blocks for `nb` file blocks, with the indirect block. -/
def need (nb : Nat) : Nat := nb + if NDIRECT < nb then 1 else 0

/-- What `iappend` leaves alone. -/
structure Frame (m m' : Image) : Prop where
  node : m'.state.node = m.state.node
  freeinode : m'.freeinode = m.freeinode
  fresh : m'.Fresh

section
variable {m : Image} {i : Nat} {din : Dinode} {E : Stop → Prop}

theorem Frame.refl (h : m.Fresh) : Frame m m := ⟨rfl, rfl, h⟩

theorem Frame.trans {m₁ m2 : Image} (h : Frame m m₁) (h' : Frame m₁ m2) : Frame m m2 :=
  ⟨h'.node.trans h.node, h'.freeinode.trans h.freeinode, h'.fresh⟩

theorem Frame.take (h : m.Fresh) : Frame m { m with freeblock := m.freeblock + 1 } := by
  refine ⟨?_, rfl, ⟨Nat.le_succ_of_le h.low, fun b hb => h.zero b (Nat.le_of_succ_le hb)⟩⟩
  rw [Image.state_takeblock, State.node_commit, Image.node_write le_rfl]

/-- A write to a block that was taken. -/
theorem Frame.wsect (h : m.Fresh) {x : Nat} {c : Block} (hx : sb.bmapstart < x)
    (hlt : x < m.freeblock) : Frame m { m with img := update m.img x c } := by
  refine ⟨?_, rfl, ⟨h.low, fun b hb => ?_⟩⟩
  · rw [Image.state_wsect hx.ne', State.node_commit, Image.node_write hx.le]
  · have hb' : m.freeblock ≤ b := hb
    exact (update_of_ne (by omega) ..).trans (h.zero b hb)

/-- Blocks in use are below `freeblock`. -/
theorem Image.own_lt_freeblock (h : (m.flux i din).Inv) {x : Nat × Fs.Slot}
    (hx : (m.flux i din).own x ≠ 0) : (m.flux i din).own x < m.freeblock := by
  exact (m.used_iff h (h.area x hx).2).2 (.inr (mem_held hx))

variable (hf : m.Fresh) (h : (m.flux i din).Inv) (ht : din.type ≠ 0)
include hf h ht

/-- An address that is missing becomes the next block, which may be the one past the end. -/
theorem iappendAddr_spec (k : Fin (NDIRECT + 1)) (hle : m.freeblock ≤ FSSIZE) :
    Sat E (iappendAddr din k) m fun din' m' =>
      ((m.flux i din).own (i, addrSlot k) = 0 ∧ m.freeblock = FSSIZE ∧
        (din'.addrs k).toNat = FSSIZE) ∨
      (m.flux i din).Fill (m'.flux i din') i (addrSlot k) ∧ (m'.flux i din').Inv ∧
      (din'.addrs k).toNat = (m'.flux i din').own (i, addrSlot k) ∧ Frame m m' ∧
      m'.freeblock ≤ FSSIZE ∧
      (m'.freeblock = m.freeblock +
        if (m.flux i din).own (i, addrSlot k) = 0 then 1 else 0) := by
  have hown : (m.flux i din).own (i, addrSlot k) = (din.addrs k).toNat := by
    rw [Store.own_of_type (by rw [Image.flux_node]; exact ht), Dinode.block_addrSlot,
      Image.flux_node]
  rw [iappendAddr]
  refine Sat.ite (fun h0 => ?_) fun h0 => ?_
  · have hfree : (m.flux i din).own (i, addrSlot k) = 0 := by
      rw [hown, h0]
      rfl
    rw [sat_takeblock_bind, sat_pure]
    rcases Nat.eq_or_lt_of_le hle with hend | hlt
    · refine .inl ⟨hfree, hend, ?_⟩
      rw [hend]
      exact congrArg UInt32.toNat (update_self k (UInt32.ofNat FSSIZE) din.addrs)
    obtain ⟨hb, hnew, hflux, hbm⟩ := hf.take h hlt
    generalize hdin' : din.withAddrs (update din.addrs k (UInt32.ofNat m.freeblock)) = din'
    have hflux' : { m with freeblock := m.freeblock + 1 }.flux i din' =
        (((m.flux i din).write sb.bmapstart (usedMap (m.freeblock + 1))).write m.freeblock
          .zero).setNode i (((m.flux i din).node i).withAddrs (update
            ((m.flux i din).node i).addrs k (UInt32.ofNat m.freeblock))) := by
      rw [Image.flux_node, hdin']
      change _ = (m.taken i din).setNode i din'
      rw [← hflux]
      simp only [Image.flux, Store.setNode, update_idem]
    obtain ⟨hfill, hinv, hval⟩ := h.fillAddr hb hnew hbm (by rw [Image.flux_node]; exact ht) hfree
      hflux'
    refine .inr ⟨hfill, hinv, ?_, .take hf, hlt, by rw [if_pos hfree]⟩
    rw [Store.own_of_type (by rw [Image.flux_node, ← hdin']; exact ht), Dinode.block_addrSlot,
      Image.flux_node]
  · have hne : (m.flux i din).own (i, addrSlot k) ≠ 0 := by
      rw [hown]
      exact fun hc => h0 (u32_toNat_eq_zero.1 hc)
    exact .inr ⟨.refl hne, h, hown.symm, .refl hf, hle, by rw [if_neg hne]; rfl⟩

/-- The indirect part of `iappend` fills the indirect block and its entry where they are empty. -/
theorem iappendIndirect_spec (j : Fin NINDIRECT) (hle : m.freeblock ≤ FSSIZE)
    (hE : m.freeblock + (if (m.flux i din).own (i, .indirect) = 0 then 1 else 0) +
      (if (m.flux i din).own (i, .entry j) = 0 then 1 else 0) ≤ FSSIZE ∨ ∀ e, E e) :
    Sat E (iappendIndirect din j.val) m fun r m' => (r.1 = FSSIZE ∧ ∀ e, E e) ∨ ∃ st1,
      (m.flux i din).Fill st1 i .indirect ∧ st1.Fill (m'.flux i r.2) i (.entry j) ∧
      (m'.flux i r.2).Inv ∧ r.1 = (m'.flux i r.2).own (i, .entry j) ∧ Frame m m' ∧
      m'.freeblock ≤ FSSIZE ∧
      m'.freeblock = m.freeblock + (if (m.flux i din).own (i, .indirect) = 0 then 1 else 0) +
        if (m.flux i din).own (i, .entry j) = 0 then 1 else 0 := by
  have hspec := @iappendAddr_spec m i din E hf h ht (Fin.last NDIRECT) hle
  rw [addrSlot_last] at hspec
  refine hspec.bind fun din₁ m₁ hs1 => ?_
  obtain ⟨h0, hend, ha⟩ | ⟨hfill1, hinv1, ha, hframe1, hle1, hcount1⟩ := hs1
  · rw [if_pos h0] at hE
    exact sat_rsect_past ha.ge (hE.resolve_left (by omega))
  have hind := hfill1.filled
  have harea := hinv1.area _ hind
  have hlt := m₁.own_lt_freeblock hinv1 hind
  rw [← ha] at harea hlt
  have hbm : sb.bmapstart < (din₁.addrs (Fin.last NDIRECT)).toNat :=
    lt_of_lt_of_le sb_ok.bmapstart harea.1
  have hentry1 : (m₁.flux i din₁).own (i, .entry j) = (m.flux i din).own (i, .entry j) :=
    hfill1.other _ (by simp)
  have hread : (m₁.flux i din₁).own (i, .entry j) =
      ((m₁.img (din₁.addrs (Fin.last NDIRECT)).toNat).read32 (4 * j.val)).toNat := by
    rw [Store.own_entry hind, ← ha, Image.flux_disk, update_of_ne hbm.ne']
  rw [sat_rsect_bind (lt_of_lt_of_le harea.2 (sb_ok.size))]
  refine Sat.ite (fun h0 => ?_) fun h0 => ?_
  · have hfree : (m₁.flux i din₁).own (i, .entry j) = 0 := by
      rw [hread, h0]
      rfl
    rw [sat_takeblock_bind, sat_wsect_bind, sat_pure]
    rcases Nat.eq_or_lt_of_le hle1 with hend | hlt1
    · rw [← hentry1, if_pos hfree] at hE
      exact .inl ⟨hend, hE.resolve_left (by omega)⟩
    obtain ⟨hb, hnew, hflux, hmap⟩ := hframe1.fresh.take hinv1 hlt1
    have hflux' : { m₁ with
          freeblock := m₁.freeblock + 1
          img := update m₁.img (din₁.addrs (Fin.last NDIRECT)).toNat
            ((m₁.img (din₁.addrs (Fin.last NDIRECT)).toNat).write32 (4 * j.val)
              (UInt32.ofNat m₁.freeblock)) }.flux i din₁ =
        (((m₁.flux i din₁).write sb.bmapstart (usedMap (m₁.freeblock + 1))).write m₁.freeblock
          .zero).write (din₁.addrs (Fin.last NDIRECT)).toNat
            (((m₁.flux i din₁).disk (din₁.addrs (Fin.last NDIRECT)).toNat).write32 (4 * j.val)
              (UInt32.ofNat m₁.freeblock)) := by
      refine (Image.flux_wsect (m := { m₁ with freeblock := m₁.freeblock + 1 }) hbm).trans ?_
      rw [hflux, Image.flux_disk, update_of_ne hbm.ne']
      rfl
    obtain ⟨hfill, hinv, hval⟩ := hinv1.fillEntry hb hnew hmap ha (ha ▸ hind) hfree hflux'
    refine .inr ⟨_, hfill1, hfill, hinv, hval.symm, hframe1.trans ((Frame.take hframe1.fresh).trans
      (.wsect (Frame.take hframe1.fresh).fresh hbm (Nat.lt_succ_of_lt hlt))), hlt1, ?_⟩
    rw [← hentry1, if_pos hfree, ← hcount1]
  · have hne : (m₁.flux i din₁).own (i, .entry j) ≠ 0 := by
      rw [hread]
      exact fun hc => h0 (u32_toNat_eq_zero.1 hc)
    refine .inr ⟨_, hfill1, .refl hne, hinv1, hread.symm, hframe1, hle1, ?_⟩
    rw [← hentry1, if_neg hne, hcount1, Nat.add_zero]

/-- `iappend` finds the sector of a block of the file, or of the block after the last one. -/
theorem iappendMap_spec {nb : Nat → Nat} {fbn : Nat} (hm : (m.flux i din).Mapped nb)
    (hn : nb i = fbn ∨ nb i = fbn + 1) (hle : m.freeblock ≤ FSSIZE)
    (hE : fbn < MAXFILE ∧ m.freeblock + need (fbn + 1) ≤ FSSIZE + need (nb i) ∨ ∀ e, E e)
    (off : Nat) :
    Sat E (iappendMap din fbn) m fun r m' => fbn < MAXFILE ∧ ((r.1 = FSSIZE ∧ ∀ e, E e) ∨
      (m'.flux i r.2).Inv ∧ (m'.flux i r.2).Mapped (update nb i (fbn + 1)) ∧
      (m.flux i din).Upd (m'.flux i r.2) i off [] ∧
      r.1 = (m'.flux i r.2).own (i, slotOf fbn) ∧ r.1 ≠ 0 ∧ Frame m m' ∧ m'.freeblock ≤ FSSIZE ∧
      m'.freeblock + need (nb i) = m.freeblock + need (fbn + 1)) := by
  rw [iappendMap, sat_panicIf_bind]
  refine ⟨fun hc => hE.resolve_left (fun hroom => absurd hroom.1 (by omega)) _, fun hmax => ?_⟩
  replace hmax : fbn < MAXFILE := by omega
  have ht' : ((m.flux i din).node i).type ≠ 0 := by
    rw [Image.flux_node]
    exact ht
  have hbn : fbn ≤ nb i := by omega
  have hnew : max (nb i) (fbn + 1) = fbn + 1 := by omega
  have hslot : (m.flux i din).own (i, slotOf fbn) = 0 ↔ nb i = fbn := by
    rw [← not_iff_not, ← ne_eq, hm i ht', first_slotOf hmax]
    omega
  refine Sat.ite (fun hlt => ?_) fun hge => ?_
  · have haddr := addrSlot_ofNat hlt
    have hneed : need (nb i) = nb i ∧ need (fbn + 1) = fbn + 1 := by
      rw [need, need, if_neg (by omega), if_neg (by omega)]
      exact ⟨rfl, rfl⟩
    refine (iappendAddr_spec hf h ht (Fin.ofNat (NDIRECT + 1) fbn) hle).bind fun din' m' hs' => ?_
    rw [haddr] at hs'
    obtain ⟨h0, hend, ha⟩ | ⟨hfill, hinv, ha, hframe, hle', hcount⟩ := hs'
    · rw [hslot] at h0
      exact ⟨hmax, .inl ⟨ha, hE.resolve_left (by omega)⟩⟩
    · refine ⟨hmax, .inr ⟨hinv, hnew ▸ hm.fillDirect hbn hmax hlt hfill, hfill.upd off, ha, ?_,
        hframe, hle', ?_⟩⟩
      · exact ha ▸ hfill.filled
      · simp only [hslot] at hcount
        rw [hneed.1, hneed.2, hcount]
        split <;> omega
  · have hge : NDIRECT ≤ fbn := by omega
    have hind : (m.flux i din).own (i, .indirect) = 0 ↔ nb i = NDIRECT := by
      rw [← not_iff_not, ← ne_eq, hm i ht', Slot.first]
      omega
    have hcount0 : (if (m.flux i din).own (i, .indirect) = 0 then 1 else 0) +
        (if (m.flux i din).own (i, slotOf fbn) = 0 then 1 else 0) + need (nb i) =
          need (fbn + 1) := by
      simp only [hind, hslot, need]
      rw [if_pos (show NDIRECT < fbn + 1 by omega)]
      split <;> split <;> split <;> omega
    have hspec := iappendIndirect_spec (E := E) hf h ht
      ⟨fbn - NDIRECT, by unfold MAXFILE at hmax; omega⟩
    rw [← slotOf_of_le hge hmax] at hspec
    refine (hspec hle (hE.imp_left fun hroom => by omega)).weaken fun r m' hs' => ?_
    obtain hend | ⟨st1, hfill1, hfill, hinv, hb, hframe, hle', hcount⟩ := hs'
    · exact ⟨hmax, .inl hend⟩
    have hupd := (hfill1.upd off).append (hfill.upd _) fun x hx hx' => by
      rw [length_nil] at hx'
      omega
    refine ⟨hmax, .inr ⟨hinv, hnew ▸ hm.fillIndirect hbn hmax hge hfill1 hfill, hupd, hb, ?_,
      hframe, hle', ?_⟩⟩
    · exact hb ▸ hfill.filled
    · omega

end

/-- There is room to append so many bytes to a file of `off` bytes. -/
structure Image.Room (m : Image) (off n : Nat) : Prop where
  size : off + n ≤ MAXFILE * BSIZE
  blocks : m.freeblock + need (blocksFor (off + n)) ≤ FSSIZE + need (blocksFor off)

/-- From `m` to `m'`, bytes were appended to a file of `off` bytes, whose inode `din` became
`din'`. -/
structure Appended (m m' : Image) (i : Nat) (din din' : Dinode) (nb : Nat → Nat) (off : Nat)
    (src : List UInt8) : Prop where
  inv : (m'.flux i din').Inv
  mapped : (m'.flux i din').Mapped (update nb i (blocksFor (off + src.length)))
  upd : (m.flux i din).Upd (m'.flux i din') i off src
  frame : Frame m m'
  count : m'.freeblock + need (blocksFor off) = m.freeblock + need (blocksFor (off + src.length))

section
variable {m m₁ m' : Image} {i off : Nat} {din din₁ din' : Dinode} {nb : Nat → Nat}
  {src : List UInt8}

theorem Appended.nil (hf : m.Fresh) (h : (m.flux i din).Inv) (hm : (m.flux i din).Mapped nb)
    (hn : nb i = blocksFor off) : Appended m m i din din nb off [] := by
  refine ⟨h, ?_, .refl .., .refl hf, rfl⟩
  rw [length_nil, Nat.add_zero, ← hn, update_eq_self]
  exact hm

/-- Two appends in a row are one. -/
theorem Appended.append {more : List UInt8} (h : Appended m m₁ i din din₁ nb off src)
    (h' : Appended m₁ m' i din₁ din' (update nb i (blocksFor (off + src.length)))
      (off + src.length) more)
    (hmax : off + src.length ≤ MAXFILE * BSIZE) :
    Appended m m' i din din' nb off (src ++ more) := by
  have hmapped := h'.mapped
  rw [update_idem, Nat.add_assoc] at hmapped
  have hcount := h'.count
  rw [Nat.add_assoc] at hcount
  refine ⟨h'.inv, ?_, h.upd.append h'.upd fun x _ hx => by omega, h.frame.trans h'.frame, ?_⟩
  · rw [length_append]
    exact hmapped
  · have := h.count
    rw [length_append]
    omega

theorem Appended.type (h : Appended m m' i din din' nb off src) : din'.type = din.type := by
  have hattrs := h.upd.attrs
  rw [Image.flux_node, Image.flux_node] at hattrs
  rw [hattrs]
  rfl

variable {E : Stop → Prop}

theorem need_mono : Monotone need := by
  intro a b hab
  simp only [need]
  split <;> split <;> omega

/-- One turn of the loop of `iappend`: bytes that fit into the block at the end of the file. -/
theorem iappendChunk_spec {f : Dinode → MkfsM (Dinode × Nat)} {Q : Dinode × Nat → Image → Prop}
    (hf : m.Fresh) (h : (m.flux i din).Inv) (ht : din.type ≠ 0) (hm : (m.flux i din).Mapped nb)
    (hn : nb i = blocksFor off) (hpos : 0 < src.length) (hfit : off % BSIZE + src.length ≤ BSIZE)
    (hle : m.freeblock ≤ FSSIZE) (hE : m.Room off src.length ∨ ∀ e, E e)
    (hrest : ∀ din' m', m.Room off src.length → m'.freeblock ≤ FSSIZE →
      Appended m m' i din din' nb off src → Sat E (f din') m' Q) :
    Sat E (iappendMap din (off / BSIZE) >>= fun r => do
      let buf ← rsect r.1
      wsect r.1 (buf.write (off - off / BSIZE * BSIZE) src)
      f r.2) m Q := by
  have hblocks : blocksFor (off + src.length) = off / BSIZE + 1 := by
    simp only [blocksFor, BSIZE] at hfit ⊢
    omega
  have hbn : nb i = off / BSIZE ∨ nb i = off / BSIZE + 1 := by
    simp only [hn, blocksFor, BSIZE]
    omega
  have hmod : off - off / BSIZE * BSIZE = off % BSIZE := by
    simp only [BSIZE]
    omega
  refine (iappendMap_spec hf h ht hm hbn hle (hE.imp_left fun hroom => ?_) off).bind
    fun r m₁ hs1 => ?_
  · have hblocks' := hroom.blocks
    rw [hblocks, ← hn] at hblocks'
    exact ⟨div_lt_maxfile (by have := hroom.size; omega), hblocks'⟩
  obtain ⟨x, din₁⟩ := r
  obtain ⟨hmax, ⟨hend, hE'⟩ | ⟨hinv, hmap, hupd, hx, hx0, hframe, hle1, hcount⟩⟩ := hs1
  · exact sat_rsect_past hend.ge hE'
  have harea := hinv.area _ (hx ▸ hx0)
  have hlt := m₁.own_lt_freeblock hinv (hx ▸ hx0)
  rw [← hx] at harea hlt
  have hbm : sb.bmapstart < x := lt_of_lt_of_le sb_ok.bmapstart harea.1
  rw [sat_rsect_bind (lt_of_lt_of_le harea.2 sb_ok.size), sat_wsect_bind, hmod]
  have hdisk : (m₁.flux i din₁).disk x = m₁.img x := by
    rw [Image.flux_disk, update_of_ne hbm.ne']
  refine hrest _ _ ⟨?_, ?_⟩ hle1 ⟨?_, ?_, ?_, hframe.trans (.wsect hframe.fresh hbm hlt), ?_⟩
  · simp only [MAXFILE, NDIRECT, NINDIRECT, BSIZE] at hfit hmax ⊢
    omega
  · rw [hblocks, ← hn]
    omega
  · rw [Image.flux_wsect hbm]
    exact hinv.write_data hx hx0
  · rw [Image.flux_wsect hbm, hblocks]
    exact hmap.congr (fun _ => rfl) (hinv.own_write_data hx)
  · rw [Image.flux_wsect hbm, ← hdisk]
    exact hupd.append (hinv.upd_write hx hx0 hfit hmax)
      fun x _ hx => absurd hx (by rw [length_nil]; omega)
  · rw [hblocks, ← hn]
    exact hcount

/-- A turn of the loop takes the bytes that fit into the block at the end of the file. -/
theorem iappendLoop_succ {k : Nat} (hpos : 0 < src.length) :
    ∃ n, 0 < n ∧ n ≤ src.length ∧ off % BSIZE + n ≤ BSIZE ∧
      iappendLoop (k + 1) din off src = (iappendMap din (off / BSIZE) >>= fun r => do
        let buf ← rsect r.1
        wsect r.1 (buf.write (off - off / BSIZE * BSIZE) (src.take n))
        iappendLoop k r.2 (off + n) (src.drop n)) := by
  have hleft : (off / BSIZE + 1) * BSIZE - off = BSIZE - off % BSIZE := by
    simp only [BSIZE]
    omega
  have hmod : off % BSIZE < BSIZE := Nat.mod_lt _ (by decide)
  refine ⟨min src.length (BSIZE - off % BSIZE), by omega, by omega, by omega, ?_⟩
  cases src with
  | nil => cases hpos
  | cons c cs =>
    rw [iappendLoop, hleft]

/-- With nothing left to append the loop ends. -/
theorem iappendLoop_nil {k : Nat} (hf : m.Fresh) (h : (m.flux i din).Inv)
    (hm : (m.flux i din).Mapped nb) (hn : nb i = blocksFor off) (hoff : off ≤ MAXFILE * BSIZE)
    (hle : m.freeblock ≤ FSSIZE) :
    Sat E (iappendLoop k din off []) m fun r m' => r.2 = off ∧ m.Room off 0 ∧
      m'.freeblock ≤ FSSIZE ∧ Appended m m' i din r.1 nb off [] := by
  rw [iappendLoop]
  exact ⟨rfl, ⟨hoff, Nat.add_le_add_right hle _⟩, hle, .nil hf h hm hn⟩

/-- The loop of `iappend` returns only if there is room for all the bytes. -/
theorem iappendLoop_spec {k : Nat} (hf : m.Fresh) (h : (m.flux i din).Inv) (ht : din.type ≠ 0)
    (hm : (m.flux i din).Mapped nb) (hn : nb i = blocksFor off) (hk : src.length ≤ k)
    (hoff : off ≤ MAXFILE * BSIZE) (hle : m.freeblock ≤ FSSIZE)
    (hE : m.Room off src.length ∨ ∀ e, E e) :
    Sat E (iappendLoop k din off src) m fun r m' => r.2 = off + src.length ∧
      m.Room off src.length ∧ m'.freeblock ≤ FSSIZE ∧ Appended m m' i din r.1 nb off src := by
  induction k generalizing m off nb src din with
  | zero =>
    obtain rfl : src = [] := length_eq_zero_iff.1 (by omega)
    exact iappendLoop_nil hf h hm hn hoff hle
  | succ k ih =>
    rcases src.length.eq_zero_or_pos with hzero | hpos
    · obtain rfl : src = [] := length_eq_zero_iff.1 hzero
      exact iappendLoop_nil hf h hm hn hoff hle
    · obtain ⟨n, hn0, hnle, hfit, hloop⟩ := @iappendLoop_succ off din src k hpos
      have htake : (src.take n).length = n := by
        rw [length_take]
        omega
      have hdrop : off + n + (src.drop n).length = off + src.length := by
        rw [length_drop]
        omega
      have hmono := need_mono (blocksFor_mono (show off + n ≤ off + src.length by omega))
      rw [hloop]
      refine iappendChunk_spec (f := fun din' => iappendLoop k din' (off + n) (src.drop n)) hf h ht
        hm hn (by omega) (by omega) hle (hE.imp_left fun hroom => ?_) fun din₁ m₁ hroom1 hle1 hs1 => ?_
      · obtain ⟨hsize, hblocks⟩ := hroom
        rw [htake]
        exact ⟨by omega, by omega⟩
      have hcount := hs1.count
      have hmapped := hs1.mapped
      rw [htake] at hcount hmapped hroom1
      have hrest : m₁.Room (off + n) (src.drop n).length ↔ m.Room off src.length := by
        refine ⟨fun hroom => ?_, fun hroom => ?_⟩
        · obtain ⟨hsize, hblocks⟩ := hroom
          rw [hdrop] at hsize hblocks
          exact ⟨hsize, by omega⟩
        · obtain ⟨hsize, hblocks⟩ := hroom
          exact ⟨by omega, by rw [hdrop]; omega⟩
      refine (ih hs1.frame.fresh hs1.inv (hs1.type ▸ ht) hmapped (update_self ..)
        (by rw [length_drop]; omega) hroom1.size hle1 (hE.imp_left hrest.2)).weaken
        fun r m2 hs2 => ?_
      obtain ⟨hlen, hroom, hle2, hs2⟩ := hs2
      have happ : Appended m m2 i din r.1 nb off (src.take n ++ src.drop n) :=
        hs1.append (by rw [htake]; exact hs2) (by rw [htake]; exact hroom1.size)
      rw [take_append_drop] at happ
      exact ⟨hlen.trans hdrop, hrest.1 hroom, hle2, happ⟩

end

/-! ## Files in the image -/

/-- The bytes of the mapped blocks past the end of a file are zero. -/
def Clean (st : Store) : Prop :=
  ∀ i, (st.node i).type ≠ 0 → ∀ x, (st.node i).size.toNat ≤ x → x < MAXFILE * BSIZE →
    st.own (i, slotOf (x / BSIZE)) ≠ 0 → st.byte i x = 0

/-- What holds of the image between two calls of `iappend` or `ialloc`. -/
structure Image.Ok (m : Image) : Prop where
  store : m.state.store.Wf
  clean : Clean m.state.store
  fresh : m.Fresh
  free : ∀ i, m.freeinode ≤ i → m.state.view i = none

/-- The image with an inode written. -/
def Image.putNode (m : Image) (i : Nat) (d : Dinode) : Image :=
  { m with img := update m.img (IBLOCK i sb) (setDinode (m.img (IBLOCK i sb)) i d) }

section
variable {m : Image} {i : Nat} {d : Dinode} {E : Stop → Prop} (hi : i < NINODES)
include hi

theorem iblock_low : 1 < IBLOCK i sb ∧ IBLOCK i sb < sb.bmapstart := by
  have := sb_ok.iblock_eq (i := i) hi
  omega

theorem sat_rinode_bind {α : Type} {f : Dinode → MkfsM α} {Q : α → Image → Prop} :
    Sat E (rinode i >>= f) m Q ↔ Sat E (f (m.state.node i)) m Q := by
  have hlow := (iblock_low hi).2
  have hnode : m.state.node i = dinodeAt (m.img (IBLOCK i sb)) i := by
    rw [← Image.disk_eq hlow.ne]
    exact if_pos hi
  rw [sat_bind, rinode, sat_rsect_bind (lt_trans hlow (by decide)), hnode]
  rfl

theorem sat_winode {Q : Unit → Image → Prop} :
    Sat E (winode i d) m Q ↔ Q () (m.putNode i d) := by
  rw [winode, sat_rsect_bind (lt_trans (iblock_low hi).2 (by decide))]
  rfl

theorem Image.state_putNode : (m.putNode i d).state = (m.state.putNode i d).commit := by
  have hne := (iblock_low hi).2.ne
  unfold putNode
  rw [state_wsect hne, ← disk_eq hne]
  rfl

/-- The image after an inode was written, when the store with that inode is as it should be. -/
theorem Image.Ok.putNode (hwf : (m.state.store.setNode i d).Wf)
    (hclean : Clean (m.state.store.setNode i d)) (hf : m.Fresh)
    (hfree : ∀ j, m.freeinode ≤ j → (m.state.store.setNode i d).view j = none) :
    (m.putNode i d).Ok ∧ (m.putNode i d).state.view = (m.state.store.setNode i d).view := by
  have hlow := iblock_low hi
  obtain ⟨hwf', hview⟩ := State.putNode_store (s := m.state) hi hwf
  have hst : (m.putNode i d).state.store = (m.state.putNode i d).store := by
    rw [state_putNode hi, State.store_commit]
  rw [State.view, ← hst] at hview
  rw [← hst] at hwf'
  change (m.putNode i d).state.view = _ at hview
  have hstore : (m.putNode i d).state.store = (m.state.store.setNode i d).write (IBLOCK i sb)
      (setDinode (m.state.disk (IBLOCK i sb)) i d) := by
    rw [state_putNode hi, State.store_commit, State.store,
      State.node_putNode (s := m.state) sb_ok hi]
    rfl
  have hmeta : IBLOCK i sb < sb.nmeta := lt_trans hlow.2 sb_ok.bmapstart
  refine ⟨⟨hwf', fun j hj x hx hmax hown => ?_, ⟨hf.low, fun b hb => ?_⟩, fun j hj => ?_⟩, hview⟩
  · rw [hstore] at hj hx hown ⊢
    have hown' := hwf.inv.own_write_low (b := IBLOCK i sb)
      (c := setDinode (m.state.disk (IBLOCK i sb)) i d) hmeta
    rw [hown'] at hown
    rw [hwf.inv.byte_write_low hmeta hown]
    exact hclean j hj x hx hmax hown
  · have hb' : m.freeblock ≤ b := hb
    have := hf.low
    exact (update_of_ne (by omega) ..).trans (hf.zero b hb)
  · rw [hview]
    exact hfree j hj

end

theorem view_eq_some {st : Store} {i : Nat} {v : Vnode} (h : st.view i = some v) :
    (st.node i).type ≠ 0 ∧ v = (st.node i).vnode (st.data i) ∧
      v.data.length = (st.node i).size.toNat := by
  rcases eq_or_ne (st.node i).type 0 with ht | ht
  · rw [Store.view_of_free ht] at h
    cases h
  · rw [Store.view_of_type ht] at h
    cases h
    exact ⟨ht, rfl, Store.length_data⟩

/-- Bytes written at the end of a file leave zeroes behind its new end. -/
theorem Clean.upd {st st1 st' : Store} {i : Nat} {src : List UInt8} (hc : Clean st) (h : st.Wf)
    (hu : st.Upd st1 i (st.node i).size.toNat src) (ht : (st.node i).type ≠ 0)
    (hm : st1.Mapped (update (fun j => blocksFor (st.node j).size.toNat) i
      (blocksFor ((st.node i).size.toNat + src.length))))
    (hmax : (st.node i).size.toNat + src.length ≤ MAXFILE * BSIZE)
    (hst' : st' = st1.setNode i
      ((st1.node i).withSize ((st.node i).size.toNat + src.length))) : Clean st' := by
  have hN : (UInt32.ofNat ((st.node i).size.toNat + src.length)).toNat =
      (st.node i).size.toNat + src.length := by
    rw [UInt32.toNat_ofNat']
    exact Nat.mod_eq_of_lt (lt_of_le_of_lt hmax (by decide))
  have hown : st'.own = st1.own := by
    rw [hst']
    exact Store.own_setNode rfl rfl
  have hbyte (j x : Nat) : st'.byte j x = st1.byte j x := by
    rw [hst']
    exact Store.byte_setNode (d := (st1.node i).withSize _) rfl rfl j x
  intro j hj x hx hx' hx1
  rw [hown] at hx1
  rw [hbyte]
  rcases eq_or_ne j i with rfl | hji
  · have hsize : (st'.node j).size.toNat = (st.node j).size.toNat + src.length := by
      have hself : st'.node j = (st1.node j).withSize ((st.node j).size.toNat + src.length) := by
        rw [hst']
        exact update_self ..
      rw [hself]
      exact hN
    rcases eq_or_ne (st.own (j, slotOf (x / BSIZE))) 0 with h0 | h0
    · exact hu.fresh x hx' h0 hx1 (by omega)
    · rw [hu.kept j x hx' h0 (by omega)]
      exact hc j ht x (by omega) hx' h0
  · have hnode : st'.node j = st.node j := by
      rw [← hu.node j hji, hst']
      exact update_of_ne hji ..
    have hj1 : (st1.node j).type ≠ 0 := by
      rw [hu.node j hji, ← hnode]
      exact hj
    rw [hnode] at hj hx
    have h0 : st.own (j, slotOf (x / BSIZE)) ≠ 0 := by
      rw [hm j hj1, update_of_ne hji] at hx1
      exact (h.mapped j hj _).2 hx1
    rw [hu.kept j x hx' h0 fun hc => hji hc.1]
    exact hc j hj x hx hx' h0

section
variable {m : Image} {i : Nat} {v : Vnode} {E : Stop → Prop}

theorem Image.Ok.lt_freeinode (h : m.Ok) (hv : m.state.view i = some v) : i < m.freeinode := by
  refine Nat.lt_of_not_ge fun hge => ?_
  rw [h.free i hge] at hv
  cases hv

/-- Bytes were appended to the file `i`, for which there was room. -/
structure Grown (m m' : Image) (i : Nat) (v : Vnode) (src : List UInt8) : Prop where
  room : m.Room v.data.length src.length
  ok : m'.Ok
  le : m'.freeblock ≤ FSSIZE
  view : m'.state.view = update m.state.view i (some { v with data := v.data ++ src })
  freeinode : m'.freeinode = m.freeinode
  count : m'.freeblock + need (blocksFor v.data.length) =
    m.freeblock + need (blocksFor (v.data.length + src.length))

/-- `iappend` appends to the contents of a file, if there is room. -/
theorem iappend_spec (h : m.Ok) (hi : i < NINODES) (hv : m.state.view i = some v)
    {src : List UInt8} (hle : m.freeblock ≤ FSSIZE)
    (hE : m.Room v.data.length src.length ∨ ∀ e, E e) :
    Sat E (iappend i src) m fun _ m' => Grown m m' i v src := by
  have hlt := h.lt_freeinode hv
  obtain ⟨ht, rfl, hlen⟩ := view_eq_some hv
  rw [hlen] at hE
  have hflux : m.flux i (m.state.node i) = m.state.store := m.state.store.setNode_self i
  have hinv : (m.flux i (m.state.node i)).Inv := by
    rw [hflux]
    exact h.store.inv
  have hmap : (m.flux i (m.state.node i)).Mapped
      fun j => blocksFor (m.state.store.node j).size.toNat := by
    rw [hflux]
    exact h.store.mapped
  rw [iappend, sat_rinode_bind hi]
  refine (iappendLoop_spec h.fresh hinv ht hmap rfl le_rfl (h.store.size i ht) hle hE).bind
    fun r m₁ hs1 => ?_
  obtain ⟨din', off⟩ := r
  obtain ⟨rfl, hroom, hle1, happ⟩ := hs1
  have hmax := hroom.size
  have hupd := happ.upd
  rw [hflux] at hupd
  have hinto : m₁.state.store.setNode i
      (din'.withSize ((m.state.store.node i).size.toNat + src.length)) =
      (m₁.flux i din').setNode i (((m₁.flux i din').node i).withSize
        (max (m.state.store.node i).size.toNat
          ((m.state.store.node i).size.toNat + src.length))) := by
    rw [max_eq_right (Nat.le_add_right ..), Image.flux_node]
    simp only [Image.flux, Store.setNode, update_idem]
  have hmapped := happ.mapped
  have hmono : blocksFor (m.state.store.node i).size.toNat ≤
      blocksFor ((m.state.store.node i).size.toNat + src.length) :=
    blocksFor_mono (Nat.le_add_right ..)
  obtain ⟨hwf, hview⟩ := h.store.upd hupd happ.inv ht (by rw [max_eq_right hmono]; exact hmapped)
    le_rfl hmax hinto
  rw [max_eq_right (Nat.le_add_right ..)] at hinto
  have hclean := h.clean.upd h.store hupd ht hmapped hmax hinto
  rw [Store.overlay_data] at hview
  rw [sat_winode hi]
  obtain ⟨hok, hview'⟩ := Image.Ok.putNode hi hwf hclean happ.frame.fresh fun j hj => by
    rw [happ.frame.freeinode] at hj
    rw [hview, update_of_ne (by omega)]
    exact h.free j hj
  refine ⟨hlen.symm ▸ hroom, hok, hle1, hview'.trans hview, happ.frame.freeinode, ?_⟩
  rw [hlen]
  exact happ.count

/-- `ialloc` makes a file without contents. -/
theorem ialloc_spec (h : m.Ok) (hlt : m.freeinode < NINODES) {type : Int16} (ht : type ≠ 0) :
    Sat E (ialloc type) m fun i m' => i = m.freeinode ∧ m'.Ok ∧ m'.freeinode = m.freeinode + 1 ∧
      m'.freeblock = m.freeblock ∧ m'.state.view = update m.state.view i
        (some { type, major := 0, minor := 0, nlink := 1, uid := DEFAULT_UID, gid := DEFAULT_GID,
                mode := DEFAULT_MODE, data := [] }) := by
  generalize hd : ({ Dinode.zero with
    type, nlink := 1, uid := DEFAULT_UID, gid := DEFAULT_GID, mode := DEFAULT_MODE } : Dinode) = d
  have hnone : (m.state.store.node m.freeinode).type = 0 := by
    refine Classical.byContradiction fun ht' => ?_
    have hv := Store.view_of_type ht'
    rw [show m.state.store.view m.freeinode = none from h.free _ le_rfl] at hv
    cases hv
  have haddrs : ∀ k, d.addrs k = 0 := fun k => by
    rw [← hd]
    rfl
  have hsize : d.size = 0 := by
    rw [← hd]
    rfl
  have htype : d.type = type := by rw [← hd]
  obtain ⟨hwf, hview⟩ := h.store.setEmpty haddrs hsize fun σ => Store.own_of_free hnone
  have hclean : Clean (m.state.store.setNode m.freeinode d) := by
    intro j hj x hx hmax hown
    have hself : (m.state.store.setNode m.freeinode d).node m.freeinode = d :=
      update_self ..
    have hji : j ≠ m.freeinode := by
      rintro rfl
      exact hown (hwf.own_of_size (by rw [hself, hsize]) _)
    have hnode : (m.state.store.setNode m.freeinode d).node j = m.state.store.node j :=
      update_of_ne hji ..
    have hsame (σ) : (m.state.store.setNode m.freeinode d).own (j, σ) = m.state.store.own (j, σ) :=
      Store.own_congr hnode (fun _ => rfl) σ
    rw [hsame] at hown
    rw [hnode] at hj hx
    rw [Store.byte, hsame]
    exact h.clean j hj x hx hmax hown
  rw [ialloc, sat_get_bind]
  rw [sat_modify_bind, hd, sat_bind, sat_winode hlt, sat_pure]
  rw [if_neg (htype ▸ ht)] at hview
  obtain ⟨hok, hview'⟩ := Image.Ok.putNode (m := { m with freeinode := m.freeinode + 1 }) hlt hwf
    hclean ⟨h.fresh.low, h.fresh.zero⟩ fun j hj => by
      have hj' : m.freeinode + 1 ≤ j := hj
      refine (congrFun hview j).trans ?_
      rw [update_of_ne (by omega)]
      exact h.free j (by omega)
  refine ⟨rfl, hok, rfl, rfl, hview'.trans (hview.trans ?_)⟩
  rw [← hd]
  rfl

end

end TronBoss.Mkfs
