import TronBoss.Fs.Store

/-!
# Files as their users see them

A store is well formed (`Store.Wf`) when, on top of the ownership of blocks, files have no holes and
no blocks past their end. Then a file is its attributes and a list of bytes (`Store.view`), and this
module says what writes to the store do to that picture: metadata writes nothing, and a completed
`Store.Upd` with the new size replaces a range of bytes.
-/

namespace TronBoss.Fs

open Lib Function List

/-- The number of blocks of a file, `ceil(size / BSIZE)`. -/
def blocksFor (size : Nat) : Nat := (size + BSIZE - 1) / BSIZE

theorem blocksFor_mono : Monotone blocksFor := fun _ _ _ => Nat.div_le_div_right (by omega)

theorem div_lt_blocksFor {x size : Nat} (h : x < size) : x / BSIZE < blocksFor size := by
  simp only [blocksFor, BSIZE]
  omega

theorem div_lt_maxfile {x : Nat} (h : x < MAXFILE * BSIZE) : x / BSIZE < MAXFILE :=
  Nat.div_lt_of_lt_mul (by rwa [Nat.mul_comm])

/-- An allocated inode as its users see it: the attributes and the contents. -/
structure Vnode where
  type : Int16
  major : Int16
  minor : Int16
  nlink : Int16
  uid : UInt16
  gid : UInt16
  mode : UInt32
  data : List UInt8

/-- An inode with the given contents. -/
def Dinode.vnode (d : Dinode) (data : List UInt8) : Vnode where
  type := d.type
  major := d.major
  minor := d.minor
  nlink := d.nlink
  uid := d.uid
  gid := d.gid
  mode := d.mode
  data := data

theorem Dinode.withSize_self (d : Dinode) : d.withSize d.size.toNat = d := by
  rw [withSize, UInt32.ofNat_toNat]

/-- The contents of a file. -/
def Store.data (st : Store) (i : Nat) : List UInt8 :=
  (List.range (st.node i).size.toNat).map (st.byte i)

/-- The allocated inodes. -/
def Store.view (st : Store) (i : Nat) : Option Vnode :=
  if (st.node i).type = 0 then none else some ((st.node i).vnode (st.data i))

/-- The contents with bytes replaced from an offset on, which may extend them. -/
def overlay (data : List UInt8) (off : Nat) (src : List UInt8) : List UInt8 :=
  data.take off ++ (src ++ data.drop (off + src.length))

/-- A well-formed store: block ownership is exclusive and agrees with the free map, and exactly the
blocks below the size of a file are mapped. -/
structure Store.Wf (st : Store) : Prop where
  inv : st.Inv
  mapped : st.Mapped fun i => blocksFor (st.node i).size.toNat
  size : ∀ i, (st.node i).type ≠ 0 → (st.node i).size.toNat ≤ MAXFILE * BSIZE

section
variable {st st' : Store} {i : Nat} {src : List UInt8}

@[simp] theorem Store.length_data : (st.data i).length = (st.node i).size.toNat := by
  simp [data]

theorem Store.view_of_type (h : (st.node i).type ≠ 0) :
    st.view i = some ((st.node i).vnode (st.data i)) := if_neg h

theorem Store.view_of_free (h : (st.node i).type = 0) : st.view i = none := if_pos h

/-- The view of an inode depends on the inode and on the bytes below its size. -/
theorem Store.view_congr (hn : st'.node i = st.node i)
    (hb : (st.node i).type ≠ 0 → ∀ x < (st.node i).size.toNat, st'.byte i x = st.byte i x) :
    st'.view i = st.view i := by
  rcases eq_or_ne (st.node i).type 0 with ht | ht
  · rw [view_of_free ht, view_of_free (hn ▸ ht)]
  · have hd : st'.data i = st.data i := by
      rw [data, data, hn]
      exact map_congr_left fun x hx => hb ht x (mem_range.1 hx)
    rw [view_of_type ht, view_of_type (hn ▸ ht), hn, hd]

/-- A range of the contents, byte by byte. -/
theorem Store.take_drop_data (off n : Nat) :
    ((st.data i).drop off).take n =
      (List.range (min n ((st.node i).size.toNat - off))).map fun j => st.byte i (off + j) := by
  refine ext_getElem (by simp) fun j h1 h2 => ?_
  simp [data]

section
variable (h : st.Wf)
include h

/-- The bytes below the size are in mapped blocks. -/
theorem Store.Wf.own_ne_zero (ht : (st.node i).type ≠ 0) {x : Nat}
    (hx : x < (st.node i).size.toNat) :
    x < MAXFILE * BSIZE ∧ st.own (i, slotOf (x / BSIZE)) ≠ 0 := by
  have hmax : x < MAXFILE * BSIZE := lt_of_lt_of_le hx (h.size i ht)
  rw [h.mapped i ht, first_slotOf (div_lt_maxfile hmax)]
  exact ⟨hmax, div_lt_blocksFor hx⟩

/-- A file without contents has no blocks. -/
theorem Store.Wf.own_of_size (h0 : (st.node i).size = 0) (σ : Slot) : st.own (i, σ) = 0 := by
  rcases eq_or_ne (st.node i).type 0 with ht | ht
  · exact own_of_free ht
  · have hmapped := h.mapped i ht σ
    dsimp only at hmapped
    rw [h0] at hmapped
    exact Classical.byContradiction fun hne => Nat.not_lt_zero _ (hmapped.1 hne)

/-- Writes to the metadata, apart from the free map and the super block, do not matter. -/
theorem Store.Wf.write_low {b : Nat} {c : Block} (hb : b < st.sb.nmeta) (h1 : b ≠ 1)
    (hbm : b ≠ st.sb.bmapstart) : (st.write b c).Wf ∧ (st.write b c).view = st.view := by
  refine ⟨⟨h.inv.write_low hb h1 hbm, h.mapped.congr (fun _ => rfl) (h.inv.own_write_low hb),
    h.size⟩, funext fun i => ?_⟩
  refine @Store.view_congr st (st.write b c) i rfl fun ht x hx => ?_
  exact h.inv.byte_write_low hb (h.own_ne_zero ht hx).2

end

/-! ## Changing an inode -/

section
variable {d : Dinode} (htype : d.type = (st.node i).type) (haddrs : d.addrs = (st.node i).addrs)
include htype haddrs

/-- Only the type and the block numbers of an inode decide what it owns. -/
theorem Store.own_setNode : (st.setNode i d).own = st.own := by
  funext ⟨j, σ⟩
  rcases eq_or_ne j i with rfl | hj
  · have hnode : (st.setNode j d).node j = d := update_self ..
    rcases eq_or_ne (st.node j).type 0 with ht | ht
    · rw [own_of_free ht, own_of_free (by rw [hnode, htype, ht])]
    · rw [own_of_type ht, own_of_type (by rw [hnode, htype]; exact ht), hnode]
      cases σ with
      | direct k | indirect => simp only [Dinode.block, haddrs]
      | entry l => simp only [Dinode.block, haddrs]; rfl
  · exact @Store.own_congr st (st.setNode i d) j (update_of_ne hj ..) (fun _ => rfl) σ

theorem Store.byte_setNode (j x : Nat) : (st.setNode i d).byte j x = st.byte j x := by
  rw [byte, byte, own_setNode htype haddrs]
  rfl

theorem Store.Inv.setNode (h : st.Inv) : (st.setNode i d).Inv :=
  h.congr rfl (own_setNode htype haddrs) rfl rfl

/-- Changing attributes of an inode. -/
theorem Store.Wf.setNode (h : st.Wf) (ht : (st.node i).type ≠ 0)
    (hsize : d.size = (st.node i).size) :
    (st.setNode i d).Wf ∧
      (st.setNode i d).view = update st.view i (some (d.vnode (st.data i))) := by
  have hnode : (st.setNode i d).node i = d := update_self ..
  have hnode' : ∀ j ≠ i, (st.setNode i d).node j = st.node j := fun j hj =>
    update_of_ne hj ..
  have htypes (j : Nat) : ((st.setNode i d).node j).type = (st.node j).type := by
    rcases eq_or_ne j i with rfl | hj
    · rw [hnode, htype]
    · rw [hnode' j hj]
  have hsizes (j : Nat) : ((st.setNode i d).node j).size = (st.node j).size := by
    rcases eq_or_ne j i with rfl | hj
    · rw [hnode, hsize]
    · rw [hnode' j hj]
  refine ⟨⟨h.inv.setNode htype haddrs, ?_, fun j hj => ?_⟩, funext fun j => ?_⟩
  · simp only [hsizes]
    exact h.mapped.congr htypes (own_setNode htype haddrs)
  · rw [hsizes]
    exact h.size j (htypes j ▸ hj)
  · rcases eq_or_ne j i with rfl | hj
    · have hd : (st.setNode j d).data j = st.data j := by
        rw [data, data, hnode, hsize]
        exact map_congr_left fun x _ => byte_setNode htype haddrs j x
      rw [update_self, view_of_type (by rw [htypes]; exact ht), hnode, hd]
    · rw [update_of_ne hj]
      exact view_congr (hnode' j hj) fun _ x _ => byte_setNode htype haddrs j x

end

section
variable {d : Dinode} (haddrs : ∀ k, d.addrs k = 0) (hsize : d.size = 0)
include haddrs hsize

/-- All blocks of an inode given back. -/
theorem Store.Wf.truncate (h : st.Wf) (hsb : st'.sb = st.sb)
    (hnode : st'.node = update st.node i d)
    (hdisk : ∀ b ≠ st.sb.bmapstart, st'.disk b = st.disk b)
    (hbm : Bitmap st.sb st'.disk (held st.own \ st.own '' {x | x.1 = i})) :
    st'.Wf ∧ st'.view =
      update st.view i (if d.type = 0 then none else some (d.vnode [])) := by
  have hself : st'.node i = d := by rw [hnode, update_self]
  have hother : ∀ j ≠ i, st'.node j = st.node j := fun j hj => by
    rw [hnode, update_of_ne hj]
  have hdata {x : Nat × Slot} (hx : st.own x ≠ 0) : st'.disk (st.own x) = st.disk (st.own x) :=
    hdisk _ (h.inv.own_ne hx h.inv.ok.bmapstart)
  have hblock (σ : Slot) : d.block st'.disk σ = 0 := by
    cases σ with
    | direct k | indirect => rw [Dinode.block, haddrs]; rfl
    | entry l => rw [Dinode.block, if_pos (haddrs _)]
  have hclear : ∀ x ∈ {x : Nat × Slot | x.1 = i}, st'.own x = 0 := by
    rintro ⟨j, σ⟩ rfl
    rcases eq_or_ne d.type 0 with ht | ht
    · exact own_of_free (hself ▸ ht)
    · rw [own_of_type (hself ▸ ht)]
      exact hself ▸ hblock σ
  have hkeep : ∀ x ∉ {x : Nat × Slot | x.1 = i}, st'.own x = st.own x := fun ⟨j, σ⟩ hj =>
    own_congr (hother j hj) hdata σ
  refine ⟨⟨⟨hsb ▸ h.inv.ok, ?_, h.inv.excl.clear hclear hkeep, fun x hx => ?_, ?_⟩,
    fun j hj σ => ?_, fun j hj => ?_⟩, funext fun j => ?_⟩
  · rw [hdisk 1 h.inv.one_low.2, h.inv.super, hsb]
  · rcases eq_or_ne x.1 i with hxi | hxi
    · exact absurd (hclear x hxi) hx
    · rw [hkeep x hxi] at hx ⊢
      exact hsb ▸ h.inv.area x hx
  · rw [h.inv.excl.held_clear hclear hkeep, hsb]
    exact hbm
  · rcases eq_or_ne j i with rfl | hji
    · dsimp only
      rw [hclear (j, σ) rfl, hself, hsize]
      exact ⟨fun h0 => absurd rfl h0, fun hlt => absurd hlt (Nat.not_lt_zero _)⟩
    · dsimp only
      rw [hkeep (j, σ) hji]
      rw [hother j hji] at hj ⊢
      exact h.mapped j hj σ
  · rcases eq_or_ne j i with rfl | hji
    · rw [hself, hsize]
      exact Nat.zero_le _
    · rw [hother j hji] at hj ⊢
      exact h.size j hj
  · rcases eq_or_ne j i with rfl | hji
    · have hempty : st'.data j = [] := by
        rw [data, hself, hsize]
        rfl
      rw [update_self, view, hself, hempty]
    · rw [update_of_ne hji]
      refine view_congr (hother j hji) fun ht x hx => ?_
      have hown := (h.own_ne_zero ht hx).2
      rw [byte, byte, hkeep (j, slotOf (x / BSIZE)) hji, hdata hown]

/-- An inode without blocks before and after: it is allocated, or freed. -/
theorem Store.Wf.setEmpty (h : st.Wf) (hown : ∀ σ, st.own (i, σ) = 0) :
    (st.setNode i d).Wf ∧ (st.setNode i d).view =
      update st.view i (if d.type = 0 then none else some (d.vnode [])) := by
  have hempty : held st.own \ st.own '' {x | x.1 = i} = held st.own := by
    rw [sdiff_eq_left, Set.disjoint_right]
    rintro b ⟨⟨j, σ⟩, rfl, rfl⟩ hb
    exact hb.1 (hown σ)
  exact @Store.Wf.truncate st (st.setNode i d) i d haddrs hsize h rfl rfl (fun _ _ => rfl)
    (hempty.symm ▸ h.inv.bitmap)

end

/-! ## Writing bytes -/

@[simp] theorem length_overlay {data : List UInt8} {off : Nat} (h : off ≤ data.length) :
    (overlay data off src).length = max data.length (off + src.length) := by
  simp only [overlay, length_append, length_take, length_drop]
  omega

/-- Bytes put at the end are appended. -/
theorem Store.overlay_data (src : List UInt8) :
    overlay (st.data i) (st.node i).size.toNat src = st.data i ++ src := by
  rw [← length_data, overlay, take_length, drop_eq_nil_of_le (Nat.le_add_right ..),
    append_nil]

/-- The bytes of a string that is written over another from `off` on. -/
theorem getD_overlay {data : List UInt8} {off x : Nat} (h : off ≤ data.length) :
    (overlay data off src).getD x 0 =
      if off ≤ x ∧ x < off + src.length then src.getD (x - off) 0 else data.getD x 0 := by
  have htake : (data.take off).length = off := by simp [h]
  unfold overlay
  rcases Nat.lt_or_ge x off with hlt | hge
  · rw [getD_append _ _ _ _ (by omega), if_neg (by omega)]
    simp [getD_eq_getElem?_getD, hlt]
  · rw [getD_append_right _ _ _ _ (by omega), htake]
    rcases Nat.lt_or_ge x (off + src.length) with hlt' | hge'
    · rw [getD_append _ _ _ _ (by omega), if_pos ⟨hge, hlt'⟩]
    · rw [getD_append_right _ _ _ _ (by omega), if_neg (by omega)]
      simp only [getD_eq_getElem?_getD, getElem?_drop]
      congr 2
      omega

/-- Once the size covers what was written, a file with bytes written is the file with these bytes
replaced. -/
theorem Store.Wf.upd {st1 : Store} {off : Nat} (h : st.Wf)
    (hu : st.Upd st1 i off src) (hinv : st1.Inv) (ht : (st.node i).type ≠ 0)
    (hm : st1.Mapped (update (fun j => blocksFor (st.node j).size.toNat) i
      (max (blocksFor (st.node i).size.toNat) (blocksFor (off + src.length)))))
    (hoff : off ≤ (st.node i).size.toNat) (hmax : off + src.length ≤ MAXFILE * BSIZE)
    (hst' : st' = st1.setNode i
      ((st1.node i).withSize (max (st.node i).size.toNat (off + src.length)))) :
    st'.Wf ∧ st'.view = update st.view i
      (some ((st.node i).vnode (overlay (st.data i) off src))) := by
  generalize hN : max (st.node i).size.toNat (off + src.length) = N at hst'
  have hNmax : N ≤ MAXFILE * BSIZE := by
    have := h.size i ht
    omega
  have hN32 : (UInt32.ofNat N).toNat = N := by
    rw [UInt32.toNat_ofNat']
    exact Nat.mod_eq_of_lt (lt_of_le_of_lt hNmax (by decide))
  have hnode : st'.node i = (st1.node i).withSize N := by
    rw [hst']
    exact update_self ..
  have hnode' : ∀ j ≠ i, st'.node j = st.node j := by
    intro j hj
    rw [← hu.node j hj, hst']
    exact update_of_ne hj ..
  have hown : st'.own = st1.own := by
    rw [hst']
    exact own_setNode rfl rfl
  have hbyte (j x : Nat) : st'.byte j x = st1.byte j x := by
    rw [hst']
    exact @Store.byte_setNode st1 i ((st1.node i).withSize N) rfl rfl j x
  have hti : (st1.node i).type = (st.node i).type := by
    rw [hu.attrs]
    rfl
  have ht' : (st'.node i).type ≠ 0 := by
    rw [hnode]
    exact hti ▸ ht
  have hsize : (st'.node i).size.toNat = N := by
    rw [hnode]
    exact hN32
  refine ⟨⟨?_, fun j hj σ => ?_, fun j hj => ?_⟩, funext fun j => ?_⟩
  · rw [hst']
    exact hinv.setNode rfl rfl
  · rw [hown]
    rcases eq_or_ne j i with rfl | hji
    · dsimp only
      rw [hm j (by rw [hti]; exact ht), update_self, hsize, ← hN, blocksFor_mono.map_max]
    · have hj1 : (st1.node j).type ≠ 0 := by
        rw [hu.node j hji, ← hnode' j hji]
        exact hj
      dsimp only
      rw [hm j hj1, update_of_ne hji, hnode' j hji]
  · rcases eq_or_ne j i with rfl | hji
    · rw [hsize]
      exact hNmax
    · rw [hnode' j hji] at hj ⊢
      exact h.size j hj
  · rcases eq_or_ne j i with rfl | hji
    · have hlen : off ≤ (st.data j).length := by rwa [length_data]
      have hdata : st'.data j = overlay (st.data j) off src := by
        refine ext_getElem (by rw [length_data, hsize, length_overlay hlen,
          length_data, hN]) fun x h1 h2 => ?_
        rw [length_data, hsize] at h1
        rw [← getD_eq_getElem _ 0 h2, getD_overlay hlen]
        simp only [data, getElem_map, getElem_range, hbyte]
        split
        · rename_i hx
          exact (hu.written x hx.1 hx.2).2
        · rename_i hx
          have hx' : x < (st.node j).size.toNat := by omega
          obtain ⟨hx1, hx2⟩ := h.own_ne_zero ht hx'
          rw [hu.kept j x hx1 hx2 fun hc => hx hc.2, getD_eq_getElem _ _ (by simpa using hx')]
          simp
      rw [update_self, view_of_type ht', hdata, hnode, hu.attrs]
      rfl
    · rw [update_of_ne hji]
      refine view_congr (hnode' j hji) fun hj x hx => ?_
      obtain ⟨hx1, hx2⟩ := h.own_ne_zero hj hx
      rw [hbyte, hu.kept j x hx1 hx2 fun hc => hji hc.1]

end

end TronBoss.Fs
