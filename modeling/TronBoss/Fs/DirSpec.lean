import TronBoss.Fs.Dirents
import TronBoss.Fs.Structure
import TronBoss.Lib.Ledger
import TronBoss.Lib.SlotMap

/-!
# Directories

A directory is a finite map from names to inode numbers: its entries are the slots of
`TronBoss.Lib.SlotMap`, with the name cut to `DIRSIZ` characters as the key, and an entry with inode
number 0 is an empty slot. `dirlookup` is `SlotMap.index`, and `dirlink` is `SlotMap.insert`.
-/

namespace TronBoss.Fs

open Lib List Function

/-- The slot of an entry. -/
def Dirent.slot (de : Dirent) : Option (List UInt8 × Nat) :=
  if de.inum = 0 then none else some (cstr DIRSIZ de.name, de.inum.toNat)

/-- The slots of a directory. -/
def dirSlots (data : List UInt8) : List (Option (List UInt8 × Nat)) := (dirents data).map Dirent.slot

/-- The reference counts. -/
def State.refs (s : State) (e : Fin NINODE) : Int := (s.icache e).ref

/-- The contents of a locked directory, which is made of whole entries. -/
structure State.IsDir (s : State) (e : Fin NINODE) (data : List UInt8) : Prop where
  loaded : s.Loaded e
  type : (s.icache e).type = T_DIR
  contents : s.store.data (s.icache e).inum = data
  whole : direntSize ∣ data.length

/-- What `dirlookup` does once it is known which entry has the name. -/
def lookupAt (data : List UInt8) : Option Nat → FsM (Option (Nat × Fin NINODE))
  | none => return none
  | some j => do
    let ip ← iget ((dirents data).getD j ⟨0, []⟩).inum.toNat
    return some (direntSize * j, ip)

/-- The offset at which `dirlink` stores a new entry. -/
def dirRoom (data : List UInt8) : Nat := direntSize * SlotMap.room (dirSlots data)

/-- The entry that `dirlink` stores. -/
def newDirent (name : List UInt8) (inum : Nat) : Dirent where
  inum := UInt16.ofNat inum
  name := strncpy DIRSIZ name

/-- At most what is left in a free cache entry has changed. -/
def State.Recycled (s s' : State) : Prop :=
  s' = s ∨ ∃ e ip, (s.icache e).ref = 0 ∧ ip.ref = 0 ∧ s' = s.setInode e ip

/-- A new entry shows its inode only when the number fits into 16 bits. -/
theorem newDirent_slot {name : List UInt8} {inum : Nat} (h0 : inum ≠ 0) :
    (newDirent name inum).slot = some (cstr DIRSIZ name, inum) ↔ inum < 2 ^ 16 := by
  have hnat : (newDirent name inum).inum.toNat = inum % 2 ^ 16 := UInt16.toNat_ofNat'
  rw [Dirent.slot, hnat, newDirent, cstr_strncpy]
  constructor
  · intro heq
    split at heq
    · cases heq
    · have hinum : inum % 2 ^ 16 = inum := congrArg Prod.snd (Option.some.inj heq)
      rw [← hinum]
      exact Nat.mod_lt _ (by decide)
  · intro hlt
    have hmod : inum % 2 ^ 16 = inum := Nat.mod_eq_of_lt hlt
    have hne : UInt16.ofNat inum ≠ 0 := by
      intro hz
      have hz' := congrArg UInt16.toNat hz
      rw [UInt16.toNat_ofNat', hmod] at hz'
      exact h0 hz'
    rw [if_neg hne, hmod]

theorem room_le_length (data : List UInt8) :
    SlotMap.room (dirSlots data) ≤ (dirents data).length := by
  rw [← length_map (f := Dirent.slot)]
  exact SlotMap.room_le

/-- The directory has new contents, and nothing else has changed. -/
structure State.Relinked (s s' : State) (dp : Fin NINODE) (data : List UInt8) : Prop where
  inv : s'.Inv
  sb : s'.sb = s.sb
  handle : s'.handle = s.handle
  dir : s'.IsDir dp data
  view : s'.view = update s.view (s.icache dp).inum (some ((s.icache dp).vnode data))

/-- `namecmp` finds the name in the slot. -/
theorem Dirent.matches_iff (de : Dirent) (name : List UInt8) :
    (de.inum ≠ 0 ∧ namecmp name de.name = 0) ↔
      de.slot.any (fun b => decide (b.1 = cstr DIRSIZ name)) = true := by
  rw [namecmp, strncmp_eq_zero, Dirent.slot]
  split
  · rename_i h0
    simp [h0]
  · rename_i h0
    simp [h0, eq_comm]

section
variable {s : State} {dp : Fin NINODE} {data : List UInt8} (h : s.Inv) (hd : s.IsDir dp data)
include h hd

theorem State.IsDir.size : (s.icache dp).size.toNat = data.length := by
  rw [← h.length_data hd.loaded, hd.contents]

omit h in
theorem State.IsDir.not_dev : (s.icache dp).type ≠ T_DEV := by
  rw [hd.type]
  decide

theorem State.IsDir.length_le : data.length ≤ MAXFILE * BSIZE := by
  rw [← hd.size h]
  exact h.size_le hd.loaded

omit h in
theorem State.IsDir.length_eq : data.length = direntSize * (dirents data).length := by
  rw [length_dirents, Nat.mul_div_cancel' hd.whole]

omit h in
theorem State.IsDir.mul_lt_length {j : Nat} :
    direntSize * j < data.length ↔ j < (dirents data).length := by
  rw [hd.length_eq]
  exact Nat.mul_lt_mul_left (by decide)

/-- The read of an entry. -/
theorem readDirent_eq {j : Nat} (hj : j < (dirents data).length) (msg : String) :
    readDirent dp (direntSize * j) msg s = .ok ((dirents data)[j], s) := by
  have hlen : direntSize * j + direntSize ≤ data.length := by
    rw [length_dirents] at hj
    simp only [direntSize] at hj ⊢
    omega
  have hmax := hd.length_le h
  have hMAX : MAXFILE * BSIZE < 2 ^ 32 := by decide
  have hsize := hd.size h
  have hread : readi dp (direntSize * j) direntSize s = .ok (some (direntBytes data j), s) := by
    refine eq_ok_of_sat ((readi_spec h hd.loaded hd.not_dev _ _).weaken fun r s' hs' => ?_)
    rw [if_neg (by omega), hd.contents] at hs'
    exact ⟨hs'.2, hs'.1⟩
  have hbytes : (direntBytes data j).length = direntSize := by
    rw [direntBytes, length_take, length_drop]
    omega
  rw [getElem_dirents]
  show (readi dp (direntSize * j) direntSize s >>= fun x => _) = _
  rw [hread, ok_bind]
  dsimp only
  rw [if_pos hbytes]
  rfl

/-- The loop of `dirlookup` from entry `j` on. -/
theorem dirlookupFrom_eq {name : List UInt8} {k j : Nat} (hk : (dirents data).length < j + k)
    (hj : j ≤ (dirents data).length) :
    dirlookupFrom dp name k (direntSize * j) s =
      lookupAt data ((SlotMap.index ((dirSlots data).drop j) (cstr DIRSIZ name)).map (j + ·)) s := by
  induction k generalizing j with
  | zero => omega
  | succ k ih =>
    rw [dirlookupFrom]
    show (if direntSize * j < (s.icache dp).size.toNat then _ else _ : FsM _) s = _
    rw [hd.size h]
    by_cases hj' : j < (dirents data).length
    · rw [if_pos (hd.mul_lt_length.2 hj')]
      show (readDirent dp (direntSize * j) _ s >>= fun x => _) = _
      rw [readDirent_eq h hd hj', ok_bind]
      have hdrop : (dirSlots data).drop j =
          (dirents data)[j].slot :: (dirSlots data).drop (j + 1) := by
        rw [dirSlots, ← map_drop, drop_eq_getElem_cons hj', map_cons, map_drop]
      rw [hdrop, SlotMap.index, findIdx?_cons]
      by_cases hm : (dirents data)[j].inum ≠ 0 ∧ namecmp name (dirents data)[j].name = 0
      · rw [if_pos hm, if_pos ((Dirent.matches_iff _ _).1 hm)]
        rw [Option.map_some, Nat.add_zero, lookupAt, getD_eq_getElem _ _ hj']
      · rw [if_neg hm, if_neg fun hc => hm ((Dirent.matches_iff _ _).2 hc)]
        have hnext : direntSize * j + direntSize = direntSize * (j + 1) := rfl
        rw [hnext, ih (by omega) (by omega), Option.map_map, SlotMap.index]
        congr 3
        funext i
        show j + 1 + i = j + (i + 1)
        omega
    · have hend : (dirSlots data).drop j = [] := by
        rw [drop_eq_nil_iff, dirSlots, length_map]
        omega
      rw [if_neg (mt hd.mul_lt_length.1 hj'), hend]
      rfl

/-- `dirlookup` finds the first entry of the name. -/
theorem dirlookup_eq (name : List UInt8) :
    dirlookup dp name s = lookupAt data (SlotMap.index (dirSlots data) (cstr DIRSIZ name)) s := by
  have hloop := @dirlookupFrom_eq s dp data h hd name ((s.icache dp).size.toNat / direntSize + 2) 0
    (by rw [hd.size h, length_dirents]; omega) (Nat.zero_le _)
  simp only [drop_zero, Nat.zero_add, Option.map_id', Nat.mul_zero] at hloop
  rw [dirlookup]
  show (panicIf ((s.icache dp).type ≠ T_DIR) "dirlookup not DIR" >>= fun _ => _ : FsM _) s = _
  rw [panicIf_neg (by rw [hd.type]; simp)]
  exact hloop

/-- The loop of `dirlink` from entry `j` on, when the ones before are in use. -/
theorem dirlinkSlot_eq {k j : Nat} (hk : (dirents data).length < j + k)
    (hj : j ≤ SlotMap.room (dirSlots data)) :
    dirlinkSlot dp k (direntSize * j) s = .ok (direntSize * SlotMap.room (dirSlots data), s) := by
  have hroom := room_le_length data
  induction k generalizing j with
  | zero => omega
  | succ k ih =>
    rw [dirlinkSlot]
    show (if direntSize * j < (s.icache dp).size.toNat then _ else _ : FsM _) s = _
    rw [hd.size h]
    by_cases hj' : j < (dirents data).length
    · have hslot : (dirSlots data)[j]? = some (dirents data)[j].slot := by
        rw [dirSlots, getElem?_map, getElem?_eq_getElem hj']
        rfl
      rw [if_pos (hd.mul_lt_length.2 hj')]
      show (readDirent dp (direntSize * j) _ s >>= fun x => _) = _
      rw [readDirent_eq h hd hj', ok_bind]
      by_cases h0 : (dirents data)[j].inum = 0
      · have heq : SlotMap.room (dirSlots data) = j := by
          refine le_antisymm (SlotMap.room_le_of_none ?_) hj
          rw [hslot, Dirent.slot, if_pos h0]
        rw [if_pos h0, heq]
        rfl
      · have hne : j ≠ SlotMap.room (dirSlots data) := by
          rintro rfl
          rw [Dirent.slot, if_neg h0] at hslot
          exact SlotMap.getElem?_room _ hslot
        rw [if_neg h0]
        exact @ih (j + 1) (by omega) (by omega)
    · have heq : SlotMap.room (dirSlots data) = j := by omega
      rw [if_neg (mt hd.mul_lt_length.1 hj'), heq]
      rfl

/-! ## Storing an entry -/

omit h in
/-- An entry stored in a slot, or behind the last one. -/
theorem dirSlots_overlay {j : Nat} {de : Dirent} (hde : de.name.length = DIRSIZ)
    (hj : j ≤ (dirents data).length) :
    dirSlots (overlay data (direntSize * j) de.encode) =
      if j < (dirSlots data).length then (dirSlots data).set j de.slot
      else dirSlots data ++ [de.slot] := by
  rw [dirSlots, dirSlots, length_map]
  split
  · rename_i hlt
    rw [dirents_set hde hlt, map_set]
  · have hend : direntSize * j = data.length := by
      rw [hd.length_eq]
      congr 1
      omega
    rw [hend, dirents_append hde hd.whole, map_append]
    rfl

/-- `writei` of an entry, which needs blocks only when the directory grows. -/
theorem writei_dirent {j : Nat} {de : Dirent} (hde : de.name.length = DIRSIZ)
    (hj : j ≤ (dirents data).length) (hmax : direntSize * j + direntSize ≤ MAXFILE * BSIZE) :
    Sat (OutOfBlocks s (growth (blocksFor data.length) (direntSize * j + direntSize)))
      (writei dp de.encode (direntSize * j)) s fun r s' => r = direntSize ∧
        growth (blocksFor data.length) (direntSize * j + direntSize) ≤ s.free ∧
        s.Relinked s' dp (overlay data (direntSize * j) de.encode) := by
  have hlen := Dirent.length_encode hde
  have hsize := hd.size h
  have hle : direntSize * j ≤ data.length := by
    rw [hd.length_eq]
    exact Nat.mul_le_mul_left _ hj
  have hmax' : direntSize * j + de.encode.length ≤ MAXFILE * BSIZE := by rwa [hlen]
  have hwrite := writei_exact h hd.loaded (hsize ▸ hle) hmax' hd.not_dev
  rw [hlen, hsize, hd.contents] at hwrite
  refine hwrite.weaken fun r s' hs' => ?_
  obtain ⟨hr, hinv, hsb, hh, hview, X, -, hspent⟩ := hs'
  have hfree := hspent.free
  have he : s'.handle dp = s.handle dp := congrFun hh dp
  have hl' : s'.Loaded dp :=
    ⟨hd.loaded.ref.trans_eq (congrArg Handle.ref he).symm,
      (congrArg Handle.valid he).trans hd.loaded.valid⟩
  have hnode := hinv.view_of_loaded hl'
  rw [show (s'.icache dp).inum = (s.icache dp).inum from congrArg Handle.inum he] at hnode
  rw [hview, update_self, Option.some_inj] at hnode
  refine ⟨hr, by omega, hinv, hsb, hh, ⟨hl', ?_, ?_, ?_⟩, hview⟩
  · exact (congrArg Vnode.type hnode).symm.trans hd.type
  · rw [show (s'.icache dp).inum = (s.icache dp).inum from congrArg Handle.inum he]
    exact (congrArg Vnode.data hnode).symm
  · rw [length_overlay hle, hlen]
    rcases le_total data.length (direntSize * j + direntSize) with hle' | hle'
    · rw [max_eq_right hle']
      exact Dvd.intro (j + 1) rfl
    · rw [max_eq_left hle']
      exact hd.whole

/-- `dirlink` of a name that the directory does not have stores the entry in the first free slot. It
panics when the directory cannot get any larger, or the disk is full. -/
theorem dirlink_new {name : List UInt8} (inum : Nat)
    (hnew : SlotMap.index (dirSlots data) (cstr DIRSIZ name) = none) :
    Sat (fun err =>
        err = .panic "dirlink" ∧ MAXFILE * BSIZE < dirRoom data + direntSize ∨
        dirRoom data + direntSize ≤ MAXFILE * BSIZE ∧
          OutOfBlocks s (growth (blocksFor data.length) (dirRoom data + direntSize)) err)
      (dirlink dp name inum) s fun r s' => r = 0 ∧
        dirRoom data + direntSize ≤ MAXFILE * BSIZE ∧
        growth (blocksFor data.length) (dirRoom data + direntSize) ≤ s.free ∧
        s.Relinked s' dp (overlay data (dirRoom data) (newDirent name inum).encode) := by
  have hlook : dirlookup dp name s = .ok (none, s) := by
    rw [dirlookup_eq h hd, hnew]
    rfl
  have hslot : dirlinkSlot dp ((s.icache dp).size.toNat / direntSize + 2) 0 s =
      .ok (dirRoom data, s) :=
    @dirlinkSlot_eq s dp data h hd _ 0 (by rw [hd.size h, length_dirents]; omega) (Nat.zero_le _)
  have hroom := room_le_length data
  have hde : (newDirent name inum).name.length = DIRSIZ := length_strncpy ..
  rw [dirlink, sat_bind, sat_of_eq_ok hlook, sat_fsState_bind]
  rw [sat_bind, sat_of_eq_ok hslot]
  rcases Nat.lt_or_ge (MAXFILE * BSIZE) (dirRoom data + direntSize) with hbig | hmax
  · have hbig' : MAXFILE * BSIZE < dirRoom data + (newDirent name inum).encode.length := by
      rwa [Dirent.length_encode hde]
    refine (writei_refuses hd.not_dev (.inr hbig')).bind ?_
    rintro _ _ ⟨rfl, rfl⟩
    rw [sat_panicIf_bind]
    exact ⟨fun _ => .inl ⟨rfl, hbig⟩, fun hr => absurd (by decide) hr⟩
  · refine Sat.bind (Sat.mono (writei_dirent h hd hde hroom hmax)
      (fun err herr => .inr ⟨hmax, herr⟩) fun _ _ hs' => hs') ?_
    rintro _ s' ⟨rfl, hfree, hs'⟩
    rw [sat_panicIf_bind, sat_pure]
    exact ⟨fun hr => absurd rfl hr, fun _ => ⟨rfl, hmax, hfree, hs'⟩⟩

end

/-! ## Names that the directory has -/

/-- Giving up a reference that is not the last one to an unlinked inode. -/
theorem iput_light {s : State} {e : Fin NINODE}
    (h : ¬ ((s.icache e).ref = 1 ∧ (s.icache e).valid = true ∧ (s.icache e).nlink = 0)) :
    iput e s = .ok ((), s.setInode e { s.icache e with ref := (s.icache e).ref - 1 }) := by
  refine eq_ok_of_sat ?_
  rw [iput, sat_fsState_bind]
  rw [if_neg h]
  exact ⟨rfl, rfl⟩

/-- A reference taken by `iget` and given up at once. -/
theorem Iget.iput {s s' : State} {inum : Nat} {e : Fin NINODE} (hg : Iget s inum e s') :
    ∃ s'', iput e s' = .ok ((), s'') ∧ s.Recycled s'' := by
  cases hg with
  | old hr hi =>
    have hself := update_self e { s.icache e with ref := (s.icache e).ref + 1 } s.icache
    refine ⟨_, iput_light ?_, .inl ?_⟩
    · rintro ⟨hone, -⟩
      have hone' : (s.icache e).ref + 1 = 1 := (congrArg Inode.ref hself).symm.trans hone
      omega
    · have hback : { s.icache e with ref := (s.icache e).ref + 1 - 1 } = s.icache e := by
        rw [Int.add_sub_cancel]
      simp only [State.setInode, update_self, update_idem, hback,
        update_eq_self]
  | new hr hno =>
    refine ⟨_, iput_light ?_,
      .inr ⟨e, { s.icache e with inum, ref := 0, busy := false, valid := false }, hr, rfl, ?_⟩⟩
    · rintro ⟨-, hv, -⟩
      simp only [State.setInode, update_self, Bool.false_eq_true] at hv
    · simp only [State.setInode, update_self, update_idem]
      rfl

theorem Iget.cacheRoom {s s' : State} {inum : Nat} {e : Fin NINODE} (h : Iget s inum e s') :
    s.CacheRoom inum := by
  cases h with
  | old hr hi => exact ⟨e, .inr ⟨hr, hi⟩⟩
  | new hr hno => exact ⟨e, .inl hr⟩

/-- Giving an entry one more reference, or one less. -/
theorem update_refs {s s' : State} {e : Fin NINODE} {g : Handle} {d : Int}
    (h : s'.handle = update s.handle e g) (hg : g.ref = (s.handle e).ref + d) :
    s'.refs = s.refs + Pi.single e d := by
  funext x
  have hx := congrArg Handle.ref (congrFun h x)
  rcases eq_or_ne x e with rfl | hne
  · rw [update_self, hg] at hx
    rw [Pi.add_apply, Pi.single_eq_same]
    exact hx
  · rw [update_of_ne hne] at hx
    rw [Pi.add_apply, Pi.single_eq_of_ne hne, add_zero]
    exact hx

theorem Iget.refs {s s' : State} {inum : Nat} {e : Fin NINODE} (h : Iget s inum e s') :
    s'.refs = s.refs + one e := by
  cases h with
  | old hr hi => exact update_refs (State.handle_setInode ..) rfl
  | new hr hno => exact update_refs (State.handle_setInode ..) (congrArg (· + 1) hr.symm)

section
variable {s : State} {dp : Fin NINODE} {data : List UInt8} (h : s.Inv) (hd : s.IsDir dp data)
include h hd

/-- `dirlookup` of a name that the directory has. -/
theorem dirlookup_found {name : List UInt8} {v : Nat}
    (hv : SlotMap.find (dirSlots data) (cstr DIRSIZ name) = some v) :
    Sat (fun err => err = .panic "iget: no inodes" ∧ ¬ s.CacheRoom v) (dirlookup dp name) s
      fun r s' => ∃ j e, r = some (direntSize * j, e) ∧
        SlotMap.index (dirSlots data) (cstr DIRSIZ name) = some j ∧ Iget s v e s' := by
  cases hj : SlotMap.index (dirSlots data) (cstr DIRSIZ name) with
  | none =>
    rw [SlotMap.find_eq_none.2 hj] at hv
    cases hv
  | some j =>
    have hinum : ((dirents data).getD j ⟨0, []⟩).inum.toNat = v := by
      obtain ⟨w, hw⟩ := SlotMap.exists_of_index hj
      rw [SlotMap.find_of_index hj hw, Option.some_inj] at hv
      rw [dirSlots, getElem?_map, Option.map_eq_some_iff] at hw
      obtain ⟨de, hde, hslot⟩ := hw
      rw [getD_eq_getElem?_getD, hde, Option.getD_some, ← hv]
      rw [Dirent.slot] at hslot
      split at hslot
      · cases hslot
      · exact congrArg Prod.snd (Option.some.inj hslot)
    rw [Sat, dirlookup_eq h hd, hj]
    show Sat _ (iget _ >>= fun ip => pure (some (direntSize * j, ip))) s _
    rw [hinum]
    exact (iget_exact v).bind fun e s' hs' => ⟨j, e, rfl, rfl, hs'⟩

/-- `dirlink` of a name that the directory has. -/
theorem dirlink_taken {name : List UInt8} (inum : Nat) {v : Nat}
    (hv : SlotMap.find (dirSlots data) (cstr DIRSIZ name) = some v) :
    Sat (fun err => err = .panic "iget: no inodes" ∧ ¬ s.CacheRoom v) (dirlink dp name inum) s
      fun r s' => r = -1 ∧ s.CacheRoom v ∧ s.Recycled s' := by
  rw [dirlink]
  refine (dirlookup_found h hd hv).bind ?_
  rintro _ s1 ⟨j, e, rfl, -, hg⟩
  obtain ⟨s2, hput, hs2⟩ := hg.iput
  rw [sat_bind, sat_of_eq_ok hput, sat_pure]
  exact ⟨rfl, hg.cacheRoom, hs2⟩

end

/-! ## A directory as a finite map -/

/-- What `dirlookup`, `dirlink` and the removal of an entry are to do with a directory. -/
structure DirOk (s : State) (dp : Fin NINODE) (data name : List UInt8) (inum : Nat) : Prop where
  absent : SlotMap.find (dirSlots data) (cstr DIRSIZ name) = none →
    dirlookup dp name s = .ok (none, s)
  found : ∀ v, SlotMap.find (dirSlots data) (cstr DIRSIZ name) = some v →
    ∃ j e s', dirlookup dp name s = .ok (some (direntSize * j, e), s') ∧
      (dirSlots data)[j]? = some (some (cstr DIRSIZ name, v)) ∧ (s'.icache e).inum = v ∧
      s'.disk = s.disk ∧ s'.view = s.view ∧ s'.refs = s.refs + one e
  taken : ∀ v, SlotMap.find (dirSlots data) (cstr DIRSIZ name) = some v →
    ∃ s', dirlink dp name inum s = .ok (-1, s') ∧
      s'.disk = s.disk ∧ s'.view = s.view ∧ s'.refs = s.refs
  linked : SlotMap.find (dirSlots data) (cstr DIRSIZ name) = none →
    SlotMap.room (dirSlots data) < (dirSlots data).length ∨
      data.length + direntSize ≤ MAXFILE * BSIZE →
    ∃ s' data', dirlink dp name inum s = .ok (0, s') ∧ s.Relinked s' dp data' ∧
      dirSlots data' = SlotMap.insert (dirSlots data) (cstr DIRSIZ name, inum) ∧
      SlotMap.find (dirSlots data') =
        update (SlotMap.find (dirSlots data)) (cstr DIRSIZ name) (some inum) ∧
      SlotMap.Distinct (dirSlots data')
  removed : ∀ j, SlotMap.index (dirSlots data) (cstr DIRSIZ name) = some j →
    ∀ t : State, t.Inv → t.IsDir dp data →
    ∃ t' data', writei dp (List.replicate direntSize 0) (direntSize * j) t =
        .ok (direntSize, t') ∧ t.Relinked t' dp data' ∧
      SlotMap.find (dirSlots data') =
        update (SlotMap.find (dirSlots data)) (cstr DIRSIZ name) none ∧
      SlotMap.Distinct (dirSlots data')

theorem State.Recycled.refs {s s' : State} (h : s.Recycled s') : s'.refs = s.refs := by
  rcases h with rfl | ⟨e, ip, hr, hr', rfl⟩
  · rfl
  · rw [update_refs (State.handle_setInode ..) (hr'.trans hr.symm |>.trans (add_zero _).symm),
      Pi.single_zero, add_zero]

theorem State.Recycled.disk {s s' : State} (h : s.Recycled s') :
    s'.disk = s.disk ∧ s'.sb = s.sb ∧ s'.view = s.view := by
  rcases h with rfl | ⟨e, ip, -, -, rfl⟩
  · exact ⟨rfl, rfl, rfl⟩
  · exact ⟨rfl, rfl, rfl⟩

theorem Iget.disk {s s' : State} {inum : Nat} {e : Fin NINODE} (h : Iget s inum e s') :
    s'.disk = s.disk ∧ s'.sb = s.sb ∧ s'.view = s.view ∧ (s'.icache e).inum = inum := by
  cases h with
  | old hr hi => exact ⟨rfl, rfl, rfl, by simp only [State.setInode, update_self, hi]⟩
  | new hr hno => exact ⟨rfl, rfl, rfl, by simp only [State.setInode, update_self]⟩

section
variable {s : State} {dp : Fin NINODE} {data : List UInt8} (h : s.Inv) (hd : s.IsDir dp data)
  (hdis : SlotMap.Distinct (dirSlots data))
include h hd hdis

/-- Zeroing the entry of a name removes its binding. It never needs a block. -/
theorem writei_remove {key : List UInt8} {j : Nat}
    (hj : SlotMap.index (dirSlots data) key = some j) :
    ∃ s' data', writei dp (List.replicate direntSize 0) (direntSize * j) s =
        .ok (direntSize, s') ∧ s.Relinked s' dp data' ∧
      SlotMap.find (dirSlots data') =
        update (SlotMap.find (dirSlots data)) key none ∧
      SlotMap.Distinct (dirSlots data') := by
  obtain ⟨v, hv⟩ := SlotMap.exists_of_index hj
  have hlt : j < (dirSlots data).length := (List.getElem?_eq_some_iff.1 hv).1
  have hlt' : j < (dirents data).length := by rwa [dirSlots, length_map] at hlt
  have hin : direntSize * j + direntSize ≤ data.length := by
    rw [length_dirents] at hlt'
    simp only [direntSize] at hlt' ⊢
    omega
  have hname : (List.replicate DIRSIZ (0 : UInt8)).length = DIRSIZ := length_replicate
  have hzero : Dirent.encode ⟨0, List.replicate DIRSIZ 0⟩ = List.replicate direntSize 0 := rfl
  have hwrite := @writei_dirent s dp data h hd j ⟨0, List.replicate DIRSIZ 0⟩ hname hlt'.le
    (hin.trans (hd.length_le h))
  have hgrow : growth (blocksFor data.length) (direntSize * j + direntSize) = 0 := by
    rw [growth, max_eq_left (blocksFor_mono hin), Nat.sub_self]
  rw [hgrow, hzero] at hwrite
  obtain ⟨_, s', hrun, rfl, -, hs'⟩ :=
    (hwrite.mono (fun _ herr => Nat.not_lt_zero _ herr.2) fun _ _ hs' => hs').returns
  have hslots := @dirSlots_overlay s dp data hd j ⟨0, List.replicate DIRSIZ 0⟩ hname hlt'.le
  rw [if_pos hlt, hzero] at hslots
  refine ⟨s', _, hrun, hs', ?_, ?_⟩
  · rw [hslots]
    exact hdis.find_erase hj
  · rw [hslots]
    exact hdis.erase j

omit h hdis in
/-- The slots after `dirlink`. -/
theorem dirSlots_link (name : List UInt8) (inum : Nat) :
    dirSlots (overlay data (dirRoom data) (newDirent name inum).encode) =
      SlotMap.put (dirSlots data) (newDirent name inum).slot :=
  @dirSlots_overlay _ _ _ hd _ (newDirent name inum) (length_strncpy ..) (room_le_length data)

omit hdis in
/-- With a free slot, or while the directory can grow, the new entry ends within the largest size. -/
theorem dirRoom_le (hroom : SlotMap.room (dirSlots data) < (dirSlots data).length ∨
      data.length + direntSize ≤ MAXFILE * BSIZE) :
    dirRoom data + direntSize ≤ MAXFILE * BSIZE := by
  have hle := room_le_length data
  have hmax := hd.length_le h
  rw [dirSlots, length_map, hd.length_eq] at hroom
  rw [hd.length_eq] at hmax
  simp only [dirRoom, direntSize] at *
  rw [dirSlots] at *
  omega

end

/-! ## A full inode cache -/

/-- A disk with more inodes than the cache has entries. -/
abbrev wideDisk : Nat → Block := blankDisk 4 64

theorem wideDisk_wf : (iinit wideDisk fun _ => none).store.Wf := Blank.wf (by decide +kernel)

/-- The contents of a directory with the entry `a` for inode 2. -/
def oneEntry : List UInt8 := (newDirent [97] 2).encode

/-- The root directory gets an entry for a new file, and then 49 files are created and kept. -/
def crowdedRun : List InodeOp :=
  [InodeOp.ialloc T_DIR, .ilock rootEntry, .iupdate rootEntry ⟨0, 0, 1, 0, 0, 0⟩, .ialloc T_FILE,
    .ilock nextEntry, .iupdate nextEntry ⟨0, 0, 1, 0, 0, 0⟩, .iunlock nextEntry, .iput nextEntry,
    .writei rootEntry oneEntry 0, .iunlock rootEntry] ++
  List.replicate 49 (InodeOp.ialloc T_FILE)

/-- Every cache entry is in use by somebody, and none is for inode 2. -/
def State.Full (s : State) : Prop :=
  ∀ e, (s.icache e).ref = 1 ∧ (s.icache e).busy = false ∧ (s.icache e).inum ≠ 2

/-- The root directory, loaded, is the only directory, and has the file `a`. -/
def State.RootOnly (s : State) : Prop :=
  (s.icache rootEntry).inum = ROOTINO ∧ (s.icache rootEntry).valid = true ∧ s.sb.ninodes = 64 ∧
    (∀ i < 64, (s.node i).type = T_DIR ↔ i = ROOTINO) ∧ (s.node ROOTINO).nlink = 1 ∧
    s.store.data ROOTINO = oneEntry ∧ (s.node 2).type = T_FILE ∧ (s.node 2).nlink = 1

instance (s : State) : Decidable s.Full := inferInstanceAs (Decidable (∀ _, _))

instance (s : State) : Decidable s.RootOnly := inferInstanceAs (Decidable (_ ∧ _))

theorem exists_crowded : ∃ s : State, s.Steady ∧ s.Full ∧ s.RootOnly := by
  have hrun : ((crowdedRun.forM InodeOp.step) (iinit wideDisk fun _ => none)).toOption.any
      (fun r => decide (r.2.Full ∧ r.2.RootOnly)) = true := by
    decide +kernel
  obtain ⟨⟨_, s⟩, hs, hf⟩ := exists_ok hrun
  exact ⟨s, (steady_run (steady_iinit wideDisk_wf) _).of_ok hs, of_decide_eq_true hf⟩

theorem State.Full.ref_pos {s : State} (h : s.Full) (e : Fin NINODE) : 0 < (s.icache e).ref := by
  rw [(h e).1]
  exact Int.one_pos

theorem State.RootOnly.isDir {s : State} (h : s.Inv) (hf : s.Full) (hr : s.RootOnly) :
    s.IsDir rootEntry oneEntry := by
  obtain ⟨hinum, hvalid, hn, hdirs, -, hdata, -⟩ := hr
  have hl : s.Loaded rootEntry := ⟨hf.ref_pos rootEntry, hvalid⟩
  refine ⟨hl, ?_, hinum ▸ hdata, ⟨1, rfl⟩⟩
  rw [← h.node_eq hl, hinum]
  exact (hdirs ROOTINO (by decide)).2 rfl

theorem dirSlots_oneEntry : dirSlots oneEntry = [some ([97], 2)] := by decide +kernel

theorem distinct_oneEntry : SlotMap.Distinct (dirSlots oneEntry) := by
  rw [dirSlots_oneEntry]
  intro i j k v w hi hj
  have hi' := (List.getElem?_eq_some_iff.1 hi).1
  have hj' := (List.getElem?_eq_some_iff.1 hj).1
  rw [length_singleton] at hi' hj'
  omega

/-- A directory is a finite map, exactly if the inode cache has room for the inode that a mapped name
stands for, and a new entry fits: `dirlink` cuts the inode number to 16 bits, and panics when the disk
has no block for the larger directory. -/
theorem dirOk_iff {s : State} {dp : Fin NINODE} {data : List UInt8} (h : s.Inv)
    (hd : s.IsDir dp data) (hdis : SlotMap.Distinct (dirSlots data)) (name : List UInt8)
    {inum : Nat} (h0 : inum ≠ 0) :
    DirOk s dp data name inum ↔
      (∀ v, SlotMap.find (dirSlots data) (cstr DIRSIZ name) = some v → s.CacheRoom v) ∧
      (SlotMap.find (dirSlots data) (cstr DIRSIZ name) = none →
        SlotMap.room (dirSlots data) < (dirSlots data).length ∨
          data.length + direntSize ≤ MAXFILE * BSIZE →
        inum < 2 ^ 16 ∧
          growth (blocksFor data.length) (dirRoom data + direntSize) ≤ s.free) := by
  constructor
  · intro hok
    refine ⟨fun v hv => ?_, fun hnone hroom => ?_⟩
    · obtain ⟨j, e, s', hrun, -⟩ := hok.found v hv
      obtain ⟨j, e, -, -, hg⟩ := (dirlookup_found h hd hv).of_ok hrun
      exact hg.cacheRoom
    · obtain ⟨s', data', hrun, hs', hslots, -⟩ := hok.linked hnone hroom
      obtain ⟨-, -, hfree, hs''⟩ :=
        (dirlink_new h hd inum (SlotMap.find_eq_none.1 hnone)).of_ok hrun
      refine ⟨(@newDirent_slot name inum h0).1 ?_, hfree⟩
      -- the slot that was written decides which number the entry has
      have hdata := hs'.dir.contents.symm.trans hs''.dir.contents
      have hput := SlotMap.getElem?_put_room (l := dirSlots data) (newDirent name inum).slot
      rw [← dirSlots_link hd, ← hdata, hslots, SlotMap.insert, SlotMap.getElem?_put_room] at hput
      exact (Option.some.inj hput).symm
  · rintro ⟨hcache, hnew⟩
    refine ⟨fun hnone => ?_, fun v hv => ?_, fun v hv => ?_, fun hnone hroom => ?_, ?_⟩
    · rw [dirlookup_eq h hd, SlotMap.find_eq_none.1 hnone]
      rfl
    · obtain ⟨_, s', hrun, j, e, rfl, hj, hg⟩ := ((dirlookup_found h hd hv).mono
        (fun _ herr => herr.2 (hcache v hv)) fun _ _ hs' => hs').returns
      obtain ⟨w, hw⟩ := SlotMap.exists_of_index hj
      rw [SlotMap.find_of_index hj hw, Option.some_inj] at hv
      obtain ⟨hdisk, -, hview, hinum⟩ := hg.disk
      exact ⟨j, e, s', hrun, hv ▸ hw, hinum, hdisk, hview, hg.refs⟩
    · obtain ⟨_, s', hrun, rfl, -, hs'⟩ := ((dirlink_taken h hd inum hv).mono
        (fun _ herr => herr.2 (hcache v hv)) fun _ _ hs' => hs').returns
      exact ⟨s', hrun, hs'.disk.1, hs'.disk.2.2, hs'.refs⟩
    · have hindex := SlotMap.find_eq_none.1 hnone
      have hmax := dirRoom_le h hd hroom
      obtain ⟨hlt, hfree⟩ := hnew hnone hroom
      have hnostop : ∀ err, (err = Stop.panic "dirlink" ∧ MAXFILE * BSIZE < dirRoom data + direntSize ∨
          dirRoom data + direntSize ≤ MAXFILE * BSIZE ∧
            OutOfBlocks s (growth (blocksFor data.length) (dirRoom data + direntSize)) err) →
          False := by
        rintro err (⟨-, hbig⟩ | ⟨-, hout⟩)
        · omega
        · exact Nat.not_lt.2 hfree hout.2
      obtain ⟨_, s', hrun, rfl, -, -, hs'⟩ :=
        ((dirlink_new h hd inum hindex).mono hnostop fun _ _ hs' => hs').returns
      have hslots := dirSlots_link hd name inum
      rw [(newDirent_slot h0).2 hlt] at hslots
      refine ⟨s', _, hrun, hs', hslots, ?_, ?_⟩
      · rw [hslots]
        exact hdis.find_insert hindex
      · rw [hslots]
        exact hdis.insert hindex
    · intro j hj t ht htd
      exact writei_remove ht htd hdis hj

/-- A second file can be linked, whatever the cache holds. -/
theorem dirOk_iff_second : ∃ s : State, s.Inv ∧ s.IsDir rootEntry oneEntry ∧
    SlotMap.Distinct (dirSlots oneEntry) ∧ DirOk s rootEntry oneEntry [98] 5 := by
  obtain ⟨s, hs, hfull, hroot⟩ := exists_crowded
  have hd := hroot.isDir hs.inv hfull
  have hnone : SlotMap.find (dirSlots oneEntry) (cstr DIRSIZ [98]) = none := by
    rw [dirSlots_oneEntry]
    rfl
  have hgrow : growth (blocksFor oneEntry.length) (dirRoom oneEntry + direntSize) = 0 := by
    rw [dirRoom, dirSlots_oneEntry]
    rfl
  refine ⟨s, hs.inv, hd, distinct_oneEntry,
    (dirOk_iff hs.inv hd distinct_oneEntry [98] (by decide)).2 ⟨fun v hv => ?_, fun _ _ => ?_⟩⟩
  · rw [hnone] at hv
    cases hv
  · rw [hgrow]
    exact ⟨by decide, Nat.zero_le _⟩

/-- With every cache entry in use, a name that the directory has cannot be looked up. -/
theorem dirlookup_panics_crowded : ∃ s : State, s.Inv ∧ s.IsDir rootEntry oneEntry ∧
    SlotMap.Distinct (dirSlots oneEntry) ∧
    SlotMap.find (dirSlots oneEntry) (cstr DIRSIZ [97]) = some 2 ∧
    dirlookup rootEntry [97] s = .error (.panic "iget: no inodes") ∧
    ¬ DirOk s rootEntry oneEntry [97] 5 := by
  obtain ⟨s, hs, hfull, hroot⟩ := exists_crowded
  have hd := hroot.isDir hs.inv hfull
  have hfind : SlotMap.find (dirSlots oneEntry) (cstr DIRSIZ [97]) = some 2 := by
    rw [dirSlots_oneEntry]
    rfl
  have hno : ¬ s.CacheRoom 2 := by
    rintro ⟨e, he | ⟨-, he⟩⟩
    · rw [(hfull e).1] at he
      cases he
    · exact (hfull e).2.2 he
  have hpanic : dirlookup rootEntry [97] s = .error (.panic "iget: no inodes") := by
    have hspec := dirlookup_found hs.inv hd hfind
    cases hrun : dirlookup rootEntry [97] s with
    | ok p =>
      obtain ⟨j, e, -, -, hg⟩ := hspec.of_ok hrun
      exact absurd hg.cacheRoom hno
    | error err => rw [(hspec.of_error hrun).1]
  refine ⟨s, hs.inv, hd, distinct_oneEntry, hfind, hpanic, fun hok => ?_⟩
  obtain ⟨j, e, s', hrun, -⟩ := hok.found 2 hfind
  rw [hpanic] at hrun
  cases hrun

end TronBoss.Fs
