import TronBoss.Fs.PathSpec

/-!
# `sys_link`

A link is made in three parts: the link count of the old file is raised, the new name is stored in its
directory, and if that fails the count is lowered again. The theorem says when this is all or nothing.
-/

namespace TronBoss.Fs

open Lib Function Finset
open Option hiding bind_assoc

variable {view : Nat → Option Vnode}

/-! ## Walks after a change that directories do not see -/

section
variable {s s' : State}

theorem SameInodes.inUse (h : SameInodes s s') (hr : s'.refs = s.refs) : s'.inUse = s.inUse := by
  ext i
  rw [State.mem_inUse, State.mem_inUse]
  constructor
  · rintro ⟨x, hx, hxi⟩
    have hx : 0 < (s.icache x).ref := hx.trans_eq (congrFun hr x)
    exact ⟨x, hx, (h x hx).symm.trans hxi⟩
  · rintro ⟨x, hx, hxi⟩
    exact ⟨x, hx.trans_eq (congrFun hr x).symm, (h x hx).trans hxi⟩

variable {held held' : Finset Nat} {parent : Bool}
  (hfits : ∀ X, s'.Fits (X ∪ held') ↔ s.Fits (X ∪ held)) (hlook : lookup s'.view = lookup s.view)
include hfits hlook

/-- The room that a walk needs depends on the cache only through what fits. -/
theorem walkRoom_congr {i : Nat} {names : List (List UInt8)} :
    s'.WalkRoom held' parent i names ↔ s.WalkRoom held parent i names := by
  induction names generalizing i with
  | nil => exact Iff.rfl
  | cons name names ih =>
    rw [State.WalkRoom, State.WalkRoom, hlook]
    exact forall₃_congr fun _ j _ => and_congr (hfits {i, j}) ih

theorem pathRoom_congr {cwd : Fin NINODE} {path : List UInt8}
    (hstart : pathStart s' cwd path = pathStart s cwd path) :
    s'.PathRoom held' cwd path parent ↔ s.PathRoom held cwd path parent := by
  rw [State.PathRoom, State.PathRoom, hstart]
  exact and_congr (hfits _) (walkRoom_congr hfits hlook)

omit hfits hlook

/-- A change of attributes of a file is not seen by walks. -/
theorem lookup_update {i : Nat} {v v' : Vnode} (hv : view i = some v)
    (ht : v.type ≠ T_DIR) (ht' : v'.type = v.type) :
    lookup (update view i (some v')) = lookup view ∧
      isDir (update view i (some v')) = isDir view := by
  refine ⟨funext fun j => funext fun name => ?_, funext fun j => ?_⟩
  · rcases eq_or_ne j i with rfl | hne
    · rw [lookup, lookup, update_self, hv, Option.bind_some, Option.bind_some, if_neg ht,
        if_neg (ht' ▸ ht)]
    · rw [lookup, lookup, update_of_ne hne]
  · rcases eq_or_ne j i with rfl | hne
    · rw [isDir, isDir, update_self, hv, Option.any_some, Option.any_some, ht']
    · rw [isDir, isDir, update_of_ne hne]

theorem isDir_iff {i : Nat} : isDir view i = true ↔ ∃ v, view i = some v ∧ v.type = T_DIR := by
  rw [isDir]
  cases view i with
  | none | some v => simp

theorem walkParent_congr {view' : Nat → Option Vnode} (h : lookup view' = lookup view)
    (hd : isDir view' = isDir view) (i : Nat) (names : List (List UInt8)) :
    walkParent view' i names = walkParent view i names := by
  have hwalk (i : Nat) (names : List (List UInt8)) : walk view' i names = walk view i names := by
    induction names generalizing i with
    | nil => rfl
    | cons name names ih =>
      rw [walk, walk, h]
      exact congrArg _ (funext ih)
  rw [walkParent, walkParent, hwalk, hd]

end

/-! ## Names and numbers of entries -/

/-- A name in a path without zero bytes fits into an entry as it is. -/
theorem cstr_of_mem_segments {path name : List UInt8} (h0 : 0 ∉ path) (h : name ∈ segments path) :
    cstr DIRSIZ name = name := by
  induction hn : path.length using Nat.strong_induction_on generalizing path with
  | _ n ih =>
    cases hskip : skipelem path with
    | none =>
      rw [skipelem_none hskip] at h
      cases h
    | some x =>
      obtain ⟨hseg, hlt, -⟩ := skipelem_some hskip
      obtain ⟨hfirst, hrest⟩ := cstr_of_skipelem hskip h0
      rw [hseg] at h
      rcases List.mem_cons.1 h with rfl | hmem
      · exact hfirst
      · exact ih _ (hn ▸ hlt) hrest hmem rfl

/-- An entry in use has a number that fits into its 16 bits. -/
theorem find_dirSlots {data name : List UInt8} {j : Nat}
    (h : SlotMap.find (dirSlots data) name = some j) : j ≠ 0 ∧ j < 2 ^ 16 := by
  cases hk : SlotMap.index (dirSlots data) name with
  | none =>
    rw [SlotMap.find_eq_none.2 hk] at h
    cases h
  | some k =>
    obtain ⟨w, hw⟩ := SlotMap.exists_of_index hk
    rw [SlotMap.find_of_index hk hw, some_inj] at h
    rw [dirSlots, List.getElem?_map, map_eq_some_iff] at hw
    obtain ⟨de, -, hslot⟩ := hw
    rw [Dirent.slot] at hslot
    split at hslot
    · cases hslot
    · rename_i hne
      have hj : de.inum.toNat = j := (congrArg Prod.snd (Option.some.inj hslot)).trans h
      refine ⟨fun hz => hne (UInt16.toNat_inj.1 (hj.trans hz)), ?_⟩
      rw [← hj]
      exact de.inum.toNat_lt

/-- A walk ends where it starts, or at the number in an entry. -/
theorem walk_number {i j : Nat} {names : List (List UInt8)}
    (h : walk view i names = some j) : j = i ∨ j ≠ 0 ∧ j < 2 ^ 16 := by
  induction names generalizing i with
  | nil => exact .inl (Option.some.inj h).symm
  | cons name names ih =>
    obtain ⟨k, hk, hj⟩ := bind_eq_some_iff.1 h
    obtain ⟨v, -, hfind⟩ := bind_eq_some_iff.1 hk
    split at hfind
    · rcases ih hj with rfl | hj
      · exact .inr (find_dirSlots hfind)
      · exact .inr hj
    · cases hfind

/-! ## The parts of `sys_link` -/

/-- `iput` gives up a reference; the inode stays when it has links or other holders. -/
theorem iput_released {s : State} {e : Fin NINODE} (h : s.Inv) (hr : 0 < (s.icache e).ref)
    (hb : (s.icache e).busy = false) :
    Sat (fun _ => False) (iput e) s fun _ s' => s'.refs = s.refs - one e ∧
      ((∀ v, s.view (s.icache e).inum = some v → v.nlink ≠ 0 ∨ 1 < (s.icache e).ref) →
        s'.view = s.view) := by
  have hrefs {s' : State} {g : Handle} (hh : s'.handle = update s.handle e g)
      (hg : g.ref = (s.handle e).ref + -1) : s'.refs = s.refs - one e := by
    rw [sub_eq_add_neg, one, ← Pi.single_neg]
    exact update_refs hh hg
  refine (iput_spec h hr fun _ => .inl hb).weaken ?_
  rintro _ s' ⟨-, -, ⟨hview, hh⟩ | ⟨v, hv, hn, hlast, -, hh⟩⟩
  · exact ⟨hrefs hh rfl, fun _ => hview⟩
  · refine ⟨hrefs hh (by rw [hlast]; rfl), fun hstay => ?_⟩
    rcases hstay v hv with hlinks | hothers
    · exact absurd hn hlinks
    · have hlast : (s.icache e).ref = 1 := hlast
      omega

section
variable {t u : State} {ip dp : Fin NINODE} {v w : Vnode} {name : List UInt8} {i p : Nat}

/-- The end of `sys_link` when the name cannot be stored. -/
theorem linkBad_spec (hs : Session t u 0 noLocks) (hr : 0 < (t.icache ip).ref)
    (hi : (t.icache ip).inum = i) (hv : t.view i = some v)
    (hstay : v.nlink - 1 ≠ 0 ∨ 1 < (t.icache ip).ref) :
    Sat (fun _ => False) (linkBad ip) u fun r u' => r = -1 ∧ u'.refs = t.refs - one ip ∧
      u'.view = update t.view i (some { v with nlink := v.nlink - 1 }) := by
  have hrefs : u.refs = t.refs := hs.refs.trans (add_zero _)
  have hru : 0 < (u.icache ip).ref := hr.trans_eq (congrFun hrefs ip).symm
  have hiu : (u.icache ip).inum = i := (hs.kept ip hr).trans hi
  refine (hs.ilock hru rfl (by rw [hiu, hv]; exact some_ne_none v)).bind ?_
  rintro _ u1 ⟨hs1, hsame1, hl1⟩
  have hi1 : (u1.icache ip).inum = i := (hsame1 ip hru).trans hiu
  have hv1 := hs1.inv.view_of_loaded hl1
  rw [hs1.view, hi1, hv, some_inj] at hv1
  refine (hs1.updateInode hl1 ⟨rfl, rfl, rfl⟩ rfl).bind ?_
  rintro _ u2 ⟨hs2, -, -, hview2⟩
  have hview2 : u2.view = update t.view i (some { v with nlink := v.nlink - 1 }) := by
    rw [hview2, hi1, hv1]
    rfl
  rw [iunlockput, bind_assoc]
  refine (hs2.iunlock (update_self ..)).bind ?_
  rintro _ u3 ⟨hs3, -⟩
  rw [update_noLocks] at hs3
  have hrefs3 : u3.refs = t.refs := hs3.refs.trans (add_zero _)
  have hr3 : 0 < (u3.icache ip).ref := hr.trans_eq (congrFun hrefs3 ip).symm
  have hi3 : (u3.icache ip).inum = i := (hs3.kept ip hr).trans hi
  refine (iput_released hs3.inv hr3 (hs3.busy ip hr3)).bind ?_
  rintro _ u4 ⟨hrefs4, hview4⟩
  have hview3 : u3.view = u2.view := hs3.view
  refine ⟨rfl, hrefs3 ▸ hrefs4, (hview4 fun v' hv' => ?_).trans (hview3.trans hview2)⟩
  rw [hview3, hview2, hi3, update_self, some_inj] at hv'
  rw [← hv', show (u3.icache ip).ref = (t.icache ip).ref from congrFun hrefs3 ip]
  exact hstay

/-- The end of `sys_link` when the name has been stored. -/
theorem linkDone_spec (hs : Session t u (one dp) (update noLocks dp true))
    (hlive : t.Live (u.icache dp).inum) (hr : 0 < (t.icache ip).ref) (hi : (t.icache ip).inum = i)
    (hv : t.view i = some v) :
    Sat (fun _ => False)
      (do
        iunlockput dp
        iput ip
        endOp
        return 0) u fun (r : Int) u' => r = 0 ∧ u'.refs = t.refs - one ip ∧
      (v.nlink ≠ 0 → u'.view = t.view) := by
  refine (hs.iunlockput (one_self_pos dp) (update_self ..) hlive).bind ?_
  rintro _ u1 ⟨hs1, -⟩
  rw [sub_self, update_noLocks] at hs1
  have hrefs1 : u1.refs = t.refs := hs1.refs.trans (add_zero _)
  have hr1 : 0 < (u1.icache ip).ref := hr.trans_eq (congrFun hrefs1 ip).symm
  refine (iput_released hs1.inv hr1 (hs1.busy ip hr1)).bind ?_
  rintro _ u2 ⟨hrefs2, hview2⟩
  refine ⟨rfl, hrefs1 ▸ hrefs2, fun hlinks => (hview2 fun v' hv' => ?_).trans hs1.view⟩
  rw [hs1.kept ip hr, hi, hs1.view, hv, some_inj] at hv'
  exact .inl (hv' ▸ hlinks)

end

/-- Besides the inodes that are held, there is room for the inode that has the name, or for a new entry
in the directory. -/
def State.EntryRoom (s : State) (held : Finset Nat) (p : Nat) (w : Vnode) (name : List UInt8) : Prop :=
  (∀ j, SlotMap.find (dirSlots w.data) name = some j → s.Fits ({p, j} ∪ held)) ∧
  (SlotMap.find (dirSlots w.data) name = none →
    dirRoom w.data + direntSize ≤ MAXFILE * BSIZE ∧
    growth (blocksFor w.data.length) (dirRoom w.data + direntSize) ≤ s.free)

section
variable {t u : State} {ip dp : Fin NINODE} {v w : Vnode} {name : List UInt8} {i p : Nat}

/-- The view after an entry has been stored in a locked directory. -/
theorem linked_view {u' : State} {L : Fin NINODE → Bool} {data : List UInt8}
    (hs : Session t u (one dp) L) (hl : u.Loaded dp) (hp : (u.icache dp).inum = p)
    (hw : t.view p = some w) (h : u.Relinked u' dp data) :
    u'.view = update t.view p (some { w with data }) := by
  have hw' := hs.inv.view_of_loaded hl
  rw [hs.view, hp, hw, some_inj] at hw'
  rw [h.view, hs.view, hp, hw']
  rfl

/-- The end of `sys_link`, once the directory has been found: the name was taken and the count is
lowered again, or there is a new entry. -/
theorem linkEntry_spec (ht : t.Tree) (hr : 0 < (t.icache ip).ref) (hi : (t.icache ip).inum = i)
    (hv : t.view i = some v) (hnot : v.type ≠ T_DIR)
    (hstay : v.nlink - 1 ≠ 0 ∨ 1 < (t.icache ip).ref) (hi0 : i ≠ 0) (hi16 : i < 2 ^ 16)
    (hs : Session t u (one dp) noLocks) (hp : (u.icache dp).inum = p) (hw : t.view p = some w)
    (hdir : w.type = T_DIR) (hlive : t.Live p) (hname : cstr DIRSIZ name = name) :
    Sat (fun _ => ¬ t.EntryRoom ∅ p w name)
      (linkEntry dp ip i name) u fun r u' =>
        t.EntryRoom ∅ p w name ∧ u'.refs = t.refs - one ip ∧
        (r = -1 ∧ SlotMap.find (dirSlots w.data) name ≠ none ∧
            u'.view = update t.view i (some { v with nlink := v.nlink - 1 }) ∨
          r = 0 ∧ SlotMap.find (dirSlots w.data) name = none ∧ (v.nlink ≠ 0 →
            ∃ data, u'.view = update t.view p (some { w with data }) ∧
              dirSlots data = SlotMap.insert (dirSlots w.data) (name, i))) := by
  have hone := one_self_pos dp
  refine (hs.ilock (hs.pos_of hone) rfl (by rw [hp, hw]; exact some_ne_none w)).never.bind ?_
  rintro _ u1 ⟨hs1, hsame1, hl1⟩
  have hp1 : (u1.icache dp).inum = p := (hsame1 dp (hs.pos_of hone)).trans hp
  have hd1 : u1.IsDir dp w.data := hs1.isDir hl1 (by rw [hp1, hw]) hdir (ht.whole p w hw hdir)
  cases hfind : SlotMap.find (dirSlots w.data) name with
  | some j =>
    have hroom : u1.CacheRoom j ↔ t.EntryRoom ∅ p w name := by
      rw [hs1.cacheRoom_iff hp1, ← union_empty {p, j}]
      refine ⟨fun hj => ⟨fun k hk => ?_, fun hnone => ?_⟩, fun hroom => hroom.1 j hfind⟩
      · rw [hfind, some_inj] at hk
        exact hk ▸ hj
      · rw [hfind] at hnone
        cases hnone
    refine ((dirlink_taken hs1.inv hd1 i (hname.symm ▸ hfind)).mono (fun _ herr hroom' =>
      herr.2 (hroom.2 hroom')) fun _ _ hpost => hpost).bind ?_
    rintro _ u2 ⟨rfl, hcache, hrec⟩
    obtain ⟨hs2, hsame2⟩ := hs1.recycled hrec
    have hp2 : (u2.icache dp).inum = p := (hsame2 dp hl1.ref).trans hp1
    rw [if_pos (by decide)]
    refine (hs2.iunlockput hone (update_self ..) (hp2 ▸ hlive)).never.bind ?_
    rintro _ u3 ⟨hs3, -⟩
    rw [sub_self, update_noLocks] at hs3
    refine (linkBad_spec hs3 hr hi hv hstay).never.weaken ?_
    rintro _ u4 ⟨rfl, hrefs, hview⟩
    exact ⟨hroom.1 hcache, hrefs, .inl ⟨rfl, some_ne_none j, hview⟩⟩
  | none =>
    have hroom : dirRoom w.data + direntSize ≤ MAXFILE * BSIZE ∧
        growth (blocksFor w.data.length) (dirRoom w.data + direntSize) ≤ t.free ↔
        t.EntryRoom ∅ p w name :=
      ⟨fun hfits => ⟨fun k hk => absurd (hfind.symm.trans hk) (some_ne_none k).symm,
        fun _ => hfits⟩, fun hroom => hroom.2 hfind⟩
    refine ((dirlink_new hs1.inv hd1 i (SlotMap.find_eq_none.1 (hname.symm ▸ hfind))).mono
      (fun _ herr hroom' => ?_) fun _ _ hpost => hpost).bind ?_
    · obtain ⟨hfits, hfree⟩ := hroom.2 hroom'
      rcases herr with ⟨-, hbig⟩ | ⟨-, hout⟩
      · omega
      · exact Nat.not_lt.2 hfree (hs1.free ▸ hout.2)
    rintro _ u2 ⟨rfl, hfits, hfree, hnew⟩
    have hview2 := linked_view hs1 hl1 hp1 hw hnew
    have hlive2 : (u2.withCache t).Live p := by
      obtain ⟨w', hw', hlinks⟩ := hlive
      rw [hw, some_inj] at hw'
      exact ⟨_, (congrFun hview2 p).trans (update_self ..), hlinks.imp_left (hw' ▸ ·)⟩
    have hp2 : (u2.icache dp).inum = p := (congrArg Handle.inum (congrFun hnew.handle dp)).trans hp1
    have hpi : i ≠ p := by
      rintro rfl
      rw [hw, some_inj] at hv
      exact hnot (hv ▸ hdir)
    have hv2 : (u2.withCache t).view i = some v :=
      (congrFun hview2 i).trans ((update_of_ne hpi ..).trans hv)
    rw [if_neg (by decide)]
    refine (linkDone_spec (hs1.rebase hnew.inv hnew.handle) (hp2 ▸ hlive2) hr hi hv2).never.weaken ?_
    rintro _ u3 ⟨rfl, hrefs, hview3⟩
    refine ⟨hroom.1 ⟨hfits, hs1.free ▸ hfree⟩, hrefs, .inr ⟨rfl, rfl, fun hlinks =>
      ⟨_, (hview3 hlinks).trans hview2, ?_⟩⟩⟩
    rw [dirSlots_link hd1, (newDirent_slot hi0).2 hi16, hname]
    rfl

end

theorem isDir_of_walkParent {i p : Nat} {names : List (List UInt8)}
    {name : List UInt8} (h : walkParent view i names = some (p, name)) : isDir view p = true := by
  obtain ⟨last, -, hwalk⟩ := bind_eq_some_iff.1 h
  obtain ⟨p', -, hend⟩ := bind_eq_some_iff.1 hwalk
  obtain ⟨hd, hpair⟩ := ite_none_right_eq_some.1 hend
  obtain ⟨rfl, -⟩ := Prod.mk.inj (Option.some.inj hpair)
  exact hd

/-- The directory that the last name of a path is looked up in. -/
structure NameIn (s : State) (cwd : Fin NINODE) (path : List UInt8) (p : Nat) (w : Vnode)
    (name : List UInt8) : Prop where
  walk : walkParent s.view (pathStart s cwd path) (segments path) = some (p, name)
  node : s.view p = some w

section
variable {t : State} {cwd ip : Fin NINODE} {new : List UInt8} {v : Vnode} {i : Nat}

theorem NameIn.unique {s : State} {p p' : Nat} {w w' : Vnode} {name name' : List UInt8}
    (h : NameIn s cwd new p w name) (h' : NameIn s cwd new p' w' name') :
    p' = p ∧ w' = w ∧ name' = name := by
  obtain ⟨rfl, rfl⟩ := Prod.mk.inj (Option.some.inj (h'.walk.symm.trans h.walk))
  exact ⟨rfl, Option.some.inj (h'.node.symm.trans h.node), rfl⟩

/-- The second part of `sys_link`, after the count has been raised: it is lowered again, or there is
a new entry. -/
theorem linkNew_spec (ht : t.Tree) (hcwd : 0 < (t.icache cwd).ref) (hnew : 0 ∉ new)
    (hr : 0 < (t.icache ip).ref) (hi : (t.icache ip).inum = i) (hv : t.view i = some v)
    (hnot : v.type ≠ T_DIR) (hstay : v.nlink - 1 ≠ 0 ∨ 1 < (t.icache ip).ref) (hi0 : i ≠ 0)
    (hi16 : i < 2 ^ 16) :
    Sat (fun _ => ¬ (t.PathRoom ∅ cwd new true ∧
          ∀ p w name, NameIn t cwd new p w name → t.EntryRoom ∅ p w name))
      (linkNew cwd ip i new) t fun r t' =>
        (t.PathRoom ∅ cwd new true ∧
          ∀ p w name, NameIn t cwd new p w name → t.EntryRoom ∅ p w name) ∧
        t'.refs = t.refs - one ip ∧
        (r = -1 ∧ (∀ p w name, NameIn t cwd new p w name →
              SlotMap.find (dirSlots w.data) name ≠ none) ∧
            t'.view = update t.view i (some { v with nlink := v.nlink - 1 }) ∨
          r = 0 ∧ ∃ p w name, NameIn t cwd new p w name ∧
            SlotMap.find (dirSlots w.data) name = none ∧ (v.nlink ≠ 0 →
              ∃ data, t'.view = update t.view p (some { w with data }) ∧
                dirSlots data = SlotMap.insert (dirSlots w.data) (name, i))) := by
  refine ((nameiparent_spec ht hcwd hnew).mono (fun _ herr hroom => herr.2 hroom.1)
    fun _ _ hpost => hpost).bind ?_
  rintro (_ | ⟨dp, name⟩) u ⟨hs, hreach, hroom⟩
  · have hno (p : Nat) (w : Vnode) (name : List UInt8) : ¬ NameIn t cwd new p w name := fun hin => by
      have hnone := hreach.trans hin.walk
      cases hnone
    refine (linkBad_spec hs hr hi hv hstay).never.weaken ?_
    rintro _ u' ⟨rfl, hrefs, hview⟩
    exact ⟨⟨hroom, fun p w name hin => absurd hin (hno p w name)⟩, hrefs,
      .inl ⟨rfl, fun p w name hin => absurd hin (hno p w name), hview⟩⟩
  · have hpar : walkParent t.view (pathStart t cwd new) (segments new) =
        some ((u.icache dp).inum, name) := hreach.symm
    obtain ⟨last, hlast, hwalk⟩ := bind_eq_some_iff.1 hpar
    obtain ⟨p, hp, hend⟩ := bind_eq_some_iff.1 hwalk
    obtain ⟨hd, hpair⟩ := ite_none_right_eq_some.1 hend
    obtain ⟨w, hw, htype⟩ := isDir_iff.1 hd
    obtain ⟨hpu, rfl⟩ := Prod.mk.inj (Option.some.inj hpair)
    have hin : NameIn t cwd new p w last := ⟨hpu ▸ hpar, hw⟩
    have hname := cstr_of_mem_segments hnew (List.mem_of_getLast? hlast)
    have hlive := ht.live_of_walk (ht.live_start hcwd) hp
    refine ((linkEntry_spec ht hr hi hv hnot hstay hi0 hi16 hs hpu.symm hw htype hlive hname).mono
      (fun _ hno hneed => hno (hneed.2 p w last hin)) ?_)
    rintro r u' ⟨hentry, hrefs, hpost⟩
    refine ⟨⟨hroom, fun p' w' name' hin' => ?_⟩, hrefs, hpost.imp (fun hbad => ?_) fun hok => ?_⟩
    · obtain ⟨rfl, rfl, rfl⟩ := hin.unique hin'
      exact hentry
    · obtain ⟨hrbad, htaken, hview⟩ := hbad
      refine ⟨hrbad, fun p' w' name' hin' => ?_, hview⟩
      obtain ⟨rfl, rfl, rfl⟩ := hin.unique hin'
      exact htaken
    · obtain ⟨hrok, hfree, hdata⟩ := hok
      exact ⟨hrok, p, w, last, hin, hfree, hdata⟩

end

/-- Where the link goes: a file under the old path, and a directory for the last name of the new
one. -/
structure LinkTo (s : State) (cwd : Fin NINODE) (old new : List UInt8) (i : Nat) (v : Vnode) (p : Nat)
    (w : Vnode) (name : List UInt8) : Prop where
  old : walk s.view (pathStart s cwd old) (segments old) = some i
  file : s.view i = some v
  notDir : v.type ≠ T_DIR
  new : NameIn s cwd new p w name

/-- There is room for what `sys_link` needs: in the inode cache for the walk along the old path, and
then, while the file at its end is held, for the other walk and the new entry. -/
def LinkRoom (s : State) (cwd : Fin NINODE) (old new : List UInt8) : Prop :=
  s.PathRoom ∅ cwd old false ∧
  ∀ i v, walk s.view (pathStart s cwd old) (segments old) = some i → s.view i = some v →
    v.type ≠ T_DIR → s.PathRoom {i} cwd new true ∧
    ∀ p w name, NameIn s cwd new p w name → s.EntryRoom {i} p w name

/-- `sys_link` is all or nothing: with 0 there is one more entry and one more link, and with -1
everything is as before. -/
def LinkOk (s : State) (cwd : Fin NINODE) (old new : List UInt8) : Prop :=
  ∃ r s', sysLink cwd old new s = .ok (r, s') ∧ s'.refs = s.refs ∧
    (r = -1 ∧ s'.view = s.view ∨
      r = 0 ∧ ∃ i v p w name data, LinkTo s cwd old new i v p w name ∧ 0 < v.nlink + 1 ∧
        s'.view = update
          (update s.view i (some { v with nlink := v.nlink + 1 })) p
          (some { w with data }) ∧
        SlotMap.find (dirSlots w.data) name = none ∧
        dirSlots data = SlotMap.insert (dirSlots w.data) (name, i))

section
variable {s s₁ : State} {cwd ip : Fin NINODE} {old new : List UInt8} {v : Vnode}

/-- The room that is needed, when the old path leads to a file. -/
theorem linkRoom_iff {i : Nat} (hwalk : walk s.view (pathStart s cwd old) (segments old) = some i)
    (hroom : s.PathRoom ∅ cwd old false) (hv : s.view i = some v) (hnot : v.type ≠ T_DIR) :
    LinkRoom s cwd old new ↔ s.PathRoom {i} cwd new true ∧
      ∀ p w name, NameIn s cwd new p w name → s.EntryRoom {i} p w name := by
  refine ⟨fun h => h.2 i v hwalk hv hnot, fun h => ⟨hroom, fun i' v' hwalk' hv' _ => ?_⟩⟩
  obtain rfl := Option.some.inj (hwalk.symm.trans hwalk')
  exact h

/-- The file of a cache entry has got one more link, in a file system at rest. -/
structure Raised (s s' : State) (ip : Fin NINODE) (v : Vnode) : Prop where
  tree : s'.Tree
  same : SameInodes s s'
  refs : s'.refs = s.refs
  free : s'.free = s.free
  view : s'.view = update s.view (s.icache ip).inum (some { v with nlink := v.nlink + 1 })

/-- The first part of `sys_link` raises the count of links. -/
theorem linkRaise_spec (ht : s.Tree)
    (hs : Session s s₁ (one ip) (update noLocks ip true)) (hl : s₁.Loaded ip)
    (hv : s.view (s₁.icache ip).inum = some v) :
    Sat (fun _ => False)
      (do
        updateInode ip fun x => { x with nlink := x.nlink + 1 }
        iunlock ip) s₁ fun _ s' => Raised s₁ s' ip v := by
  have hv1 := hs.inv.view_of_loaded hl
  rw [hs.view, hv, some_inj] at hv1
  refine (hs.updateInode hl ⟨rfl, rfl, rfl⟩ rfl).bind ?_
  rintro _ s2 ⟨hs2, hfree2, hh2, hview2⟩
  have hview2 : s2.view = update s.view (s₁.icache ip).inum
      (some { v with nlink := v.nlink + 1 }) := by
    rw [hview2, hv1]
    rfl
  have hsame2 : SameInodes s₁ s2 := fun x _ => congrArg Handle.inum (congrFun hh2 x)
  have hrefs2 : s2.refs = s₁.refs := funext fun x => congrArg Handle.ref (congrFun hh2 x)
  refine (hs2.iunlock (update_self ..)).weaken ?_
  rintro _ s3 ⟨hs3, hsame3⟩
  rw [update_noLocks] at hs3
  have hsame : SameInodes s₁ s3 := hsame2.trans hsame3 hrefs2
  have hrefs : s3.refs = s₁.refs := hs3.refs.trans hs.refs.symm
  have hi3 : (s3.icache ip).inum = (s₁.icache ip).inum := hsame ip hl.ref
  refine ⟨?_, hsame, hrefs, (hs3.free.trans hfree2).trans hs.free.symm,
    hs.view ▸ hs3.view.trans hview2⟩
  refine @Session.tree s s3 s2 (one ip) ip v ht hs3 (hl.ref.trans_eq (congrFun hrefs ip).symm)
    (hi3 ▸ hv) { v with nlink := v.nlink + 1 } rfl rfl (hi3 ▸ hview2) fun x hx => ?_
  obtain rfl : x = ip := by
    by_contra hne
    rw [one, Pi.single_eq_of_ne hne] at hx
    omega
  rw [hi3, hv]
  exact some_ne_none v

section
variable {s' : State} (hs : Session s s₁ (one ip) noLocks)
  (hwalk : walk s.view (pathStart s cwd old) (segments old) = some (s₁.icache ip).inum)
  (hcwd : 0 < (s.icache cwd).ref) (hv : s.view (s₁.icache ip).inum = some v) (hnot : v.type ≠ T_DIR)
  (h : Raised s₁ s' ip v)

include hv hnot in
omit hs in
theorem not_isDir_of_view : ¬ isDir s.view (s₁.icache ip).inum = true := by
  intro hd
  obtain ⟨v', hv', hd'⟩ := isDir_iff.1 hd
  rw [hv, some_inj] at hv'
  exact hnot (hv' ▸ hd')

include hs hcwd h in
theorem Raised.start_eq : pathStart s' cwd new = pathStart s cwd new := by
  rw [pathStart, pathStart, h.same cwd (hs.pos hcwd), hs.kept cwd hcwd]

include hs hv hnot h in
/-- Walks do not see that the count has been raised. -/
theorem Raised.lookup_eq : lookup s'.view = lookup s.view ∧ isDir s'.view = isDir s.view := by
  rw [h.view, hs.view]
  exact lookup_update hv hnot rfl

include hs hcwd hv hnot h in
/-- The new name is looked up in the same directory as before. -/
theorem Raised.nameIn_iff {p : Nat} {w : Vnode} {name : List UInt8} :
    NameIn s' cwd new p w name ↔ NameIn s cwd new p w name := by
  obtain ⟨hlook, hisdir⟩ := h.lookup_eq hs hv hnot
  have hpar := walkParent_congr hlook hisdir (pathStart s cwd new) (segments new)
  have hother (hd : isDir s.view p = true) : s'.view p = s.view p := by
    have hne : p ≠ (s₁.icache ip).inum := fun hpi => not_isDir_of_view hv hnot (hpi ▸ hd)
    rw [h.view, hs.view, update_of_ne hne]
  constructor
  · rintro ⟨hin, hnode⟩
    rw [h.start_eq hs hcwd, hpar] at hin
    rw [hother (isDir_of_walkParent hin)] at hnode
    exact ⟨hin, hnode⟩
  · rintro ⟨hin, hnode⟩
    exact ⟨by rw [h.start_eq hs hcwd, hpar, hin], by rw [hother (isDir_of_walkParent hin), hnode]⟩

include hs hwalk hcwd hv hnot h in
/-- The room that is needed, after the count has been raised. -/
theorem Raised.linkRoom_iff (hroom : s.PathRoom ∅ cwd old false) :
    LinkRoom s cwd old new ↔ s'.PathRoom ∅ cwd new true ∧
      ∀ p w name, NameIn s' cwd new p w name → s'.EntryRoom ∅ p w name := by
  have hfits (X : Finset Nat) : s'.Fits (X ∪ ∅) ↔ s.Fits (X ∪ {(s₁.icache ip).inum}) := by
    rw [union_empty, union_comm, ← insert_eq, ← hs.fits_iff rfl, State.Fits,
      State.Fits, h.same.inUse h.refs]
  rw [Fs.linkRoom_iff hwalk hroom hv hnot,
    pathRoom_congr hfits (h.lookup_eq hs hv hnot).1 (h.start_eq hs hcwd)]
  refine and_congr_right fun _ => forall₃_congr fun p w name => ?_
  rw [h.nameIn_iff hs hcwd hv hnot, State.EntryRoom, State.EntryRoom, h.free, hs.free]
  simp only [hfits]

include hs h in
/-- Lowering the count again does not free the inode. -/
theorem Raised.stays (hlinks : v.nlink ≠ 0 ∨ s.Cached (s₁.icache ip).inum) :
    v.nlink ≠ 0 ∨ 1 < (s'.icache ip).ref := by
  refine hlinks.imp_right ?_
  rintro ⟨x, hx, hxi⟩
  have hone : one ip ip = 1 := Pi.single_eq_same ip 1
  have hr : 0 < (s₁.icache ip).ref := hs.pos_of (one_self_pos ip)
  obtain rfl : x = ip := hs.inv.unique x ip (hs.pos hx) hr ((hs.kept x hx).trans hxi)
  have href := hs.ref x
  have href' : (s'.icache x).ref = (s₁.icache x).ref := congrFun h.refs x
  omega

include hwalk hv hnot in
omit hs in
/-- The number of the file goes into a directory entry. -/
theorem number_of_walk (hdir : isDir s.view (s.icache cwd).inum = true) :
    (s₁.icache ip).inum ≠ 0 ∧ (s₁.icache ip).inum < 2 ^ 16 := by
  rcases walk_number hwalk with hstart | hnumber
  · rw [pathStart] at hstart
    split at hstart
    · rw [hstart]
      decide
    · exact absurd (hstart ▸ hdir) (not_isDir_of_view hv hnot)
  · exact hnumber

end

/-- `sys_link` stops only for want of room, and what it does depends on whether the name is taken. -/
theorem sysLink_spec (ht : s.Tree) (hcwd : 0 < (s.icache cwd).ref)
    (hdir : isDir s.view (s.icache cwd).inum = true) (hold : 0 ∉ old) (hnew : 0 ∉ new) :
    Sat (fun _ => ¬ LinkRoom s cwd old new) (sysLink cwd old new) s fun r s' =>
      LinkRoom s cwd old new ∧ s'.refs = s.refs ∧
      (r = -1 ∧ s'.view = s.view ∧ (∀ i v p w name, LinkTo s cwd old new i v p w name →
          SlotMap.find (dirSlots w.data) name ≠ none) ∨
        r = 0 ∧ ∃ i v p w name, LinkTo s cwd old new i v p w name ∧
          SlotMap.find (dirSlots w.data) name = none ∧ (v.nlink + 1 ≠ 0 →
            ∃ data, s'.view = update
                (update s.view i (some { v with nlink := v.nlink + 1 })) p
                (some { w with data }) ∧
              dirSlots data = SlotMap.insert (dirSlots w.data) (name, i))) := by
  rw [sysLink, sat_beginOp_bind]
  refine ((namei_spec ht hcwd hold).mono (fun _ herr hroom => herr.2 hroom.1)
    fun _ _ hpost => hpost).bind ?_
  rintro (_ | ip) s₁ ⟨hs1, hwalk, hroom1⟩
  · have hwalk : walk s.view (pathStart s cwd old) (segments old) = none := hwalk.symm
    refine ⟨⟨hroom1, fun i v hi => absurd (hwalk.symm.trans hi) (some_ne_none i).symm⟩,
      hs1.refs.trans (add_zero _), .inl ⟨rfl, hs1.view, fun i v p w name hto => ?_⟩⟩
    exact absurd (hwalk.symm.trans hto.old) (some_ne_none i).symm
  have hwalk : walk s.view (pathStart s cwd old) (segments old) = some (s₁.icache ip).inum :=
    hwalk.symm
  obtain ⟨v, hv, hlinks⟩ := ht.live_of_walk (ht.live_start hcwd) hwalk
  have hone := one_self_pos ip
  have hr1 : 0 < (s₁.icache ip).ref := hs1.pos_of hone
  refine (hs1.ilock hr1 rfl (by rw [hv]; exact some_ne_none v)).never.bind ?_
  rintro _ s2 ⟨hs2, hsame2, hl2⟩
  have hi2 : (s2.icache ip).inum = (s₁.icache ip).inum := hsame2 ip hr1
  have hv2 := hs2.inv.view_of_loaded hl2
  rw [hs2.view, hi2, hv, some_inj] at hv2
  have htype : (s2.icache ip).type = v.type := (congrArg Vnode.type hv2).symm
  rw [sat_fsState_bind]
  refine Sat.ite (fun hd => ?_) fun hnot => ?_
  · -- a directory is not linked
    have hd : v.type = T_DIR := htype.symm.trans hd
    have hlive2 : s.Live (s2.icache ip).inum := hi2.symm ▸ ⟨v, hv, hlinks⟩
    refine (hs2.iunlockput hone (update_self ..) hlive2).never.bind ?_
    rintro _ s3 ⟨hs3, -⟩
    rw [owned, sub_self] at hs3
    refine ⟨⟨hroom1, fun i' v' hwalk' hv' hnot' => ?_⟩, hs3.refs.trans (add_zero _),
      .inl ⟨rfl, hs3.view, fun i' v' p w name hto => ?_⟩⟩
    · obtain rfl := Option.some.inj (hwalk'.symm.trans hwalk)
      obtain rfl := Option.some.inj (hv'.symm.trans hv)
      exact absurd hd hnot'
    · obtain rfl := Option.some.inj (hto.old.symm.trans hwalk)
      obtain rfl := Option.some.inj (hto.file.symm.trans hv)
      exact absurd hd hto.notDir
  have hnot : v.type ≠ T_DIR := htype ▸ hnot
  rw [← bind_assoc]
  refine (linkRaise_spec ht hs2 hl2 (hi2 ▸ hv)).never.bind ?_
  rintro _ s3 hraised2
  have hrefs2 : s2.refs = s₁.refs := hs2.refs.trans hs1.refs.symm
  have hraised : Raised s₁ s3 ip v :=
    ⟨hraised2.tree, hsame2.trans hraised2.same hrefs2, hraised2.refs.trans hrefs2,
      hraised2.free.trans (hs2.free.trans hs1.free.symm),
      by rw [hraised2.view, hs2.view, hs1.view, hi2]⟩
  have hview := hraised.view
  rw [hs1.view, ← hi2] at hview
  have hneed : LinkRoom s cwd old new ↔ _ :=
    hraised.linkRoom_iff hs1 hwalk hcwd hv hnot hroom1
  have hstays := hraised.stays hs1 hlinks
  have hback : v.nlink + 1 - 1 = v.nlink := Int16.add_sub_cancel ..
  obtain ⟨hi0, hi16⟩ := number_of_walk hwalk hv hnot hdir
  refine (@linkNew_spec s3 cwd ip new { v with nlink := v.nlink + 1 } (s2.icache ip).inum
    hraised.tree ((hs1.pos hcwd).trans_eq (congrFun hraised.refs cwd).symm) hnew
    (hr1.trans_eq (congrFun hraised.refs ip).symm) (hraised2.same ip hl2.ref)
    (by rw [hview, update_self]) hnot (hback.symm ▸ hstays) (hi2 ▸ hi0)
    (hi2 ▸ hi16)).mono (fun _ => mt hneed.1) ?_
  rintro r s' ⟨hroom, hrefs, hpost⟩
  refine ⟨hneed.2 hroom, by rw [hrefs, hraised.refs, hs1.refs]; exact add_sub_cancel_right .., ?_⟩
  refine hpost.imp ?_ ?_
  · rintro ⟨hr, htaken, hview'⟩
    refine ⟨hr, ?_, fun i v' p w name hto => ?_⟩
    · -- the count is what it was
      rw [hview', hview, update_idem, hi2]
      rw [hback, update_eq_self_iff, hv]
    · exact htaken p w name ((hraised.nameIn_iff hs1 hcwd hv hnot).2 hto.new)
  · rintro ⟨hr, p, w, name, hin, hfind, hdata⟩
    rw [hview, hi2] at hdata
    have hin := (hraised.nameIn_iff hs1 hcwd hv hnot).1 hin
    exact ⟨hr, _, v, p, w, name, ⟨hwalk, hv, hnot, hin⟩, hfind, hdata⟩

theorem LinkTo.unique {i i' p p' : Nat} {v' w w' : Vnode} {name name' : List UInt8}
    (h : LinkTo s cwd old new i v p w name) (h' : LinkTo s cwd old new i' v' p' w' name') :
    v' = v := by
  obtain rfl := Option.some.inj (h'.old.symm.trans h.old)
  exact Option.some.inj (h'.file.symm.trans h.file)

end

/-- The count of links of the file can be raised: it stays positive. -/
def LinkCount (s : State) (cwd : Fin NINODE) (old new : List UInt8) : Prop :=
  ∀ i v p w name, LinkTo s cwd old new i v p w name →
    SlotMap.find (dirSlots w.data) name = none → 0 < v.nlink + 1

/-- `sys_link` is all or nothing, exactly if there is room in the inode cache, in the new directory and
on the disk, and the count of links is not at its largest value. -/
theorem linkOk_iff {s : State} {cwd : Fin NINODE} {old new : List UInt8} (ht : s.Tree)
    (hcwd : 0 < (s.icache cwd).ref) (hdir : isDir s.view (s.icache cwd).inum = true) (hold : 0 ∉ old)
    (hnew : 0 ∉ new) :
    LinkOk s cwd old new ↔ LinkRoom s cwd old new ∧ LinkCount s cwd old new := by
  have hspec := sysLink_spec ht hcwd hdir hold hnew
  constructor
  · rintro ⟨r, s', hrun, -, hok⟩
    obtain ⟨hroom, -, hpost⟩ := hspec.of_ok hrun
    refine ⟨hroom, fun i v p w name hto hnone => ?_⟩
    rcases hpost with ⟨-, -, htaken⟩ | ⟨hr, -⟩
    · exact absurd hnone (htaken i v p w name hto)
    · rcases hok with ⟨hbad, -⟩ | ⟨-, i', v', p', w', name', data, hto', hpos, -⟩
      · exact absurd (hr.symm.trans hbad) (by decide)
      · rw [hto'.unique hto]
        exact hpos
  · rintro ⟨hroom, hcount⟩
    obtain ⟨r, s', hrun, -, hrefs, hpost⟩ :=
      (hspec.mono (fun _ hno => hno hroom) fun _ _ hpost => hpost).returns
    refine ⟨r, s', hrun, hrefs, ?_⟩
    rcases hpost with ⟨hr, hview, -⟩ | ⟨hr, i, v, p, w, name, hto, hnone, hdata⟩
    · exact .inl ⟨hr, hview⟩
    · have hpos := hcount i v p w name hto hnone
      obtain ⟨data, hview, hslots⟩ := hdata fun hz => absurd (hz ▸ hpos) (by decide)
      exact .inr ⟨hr, i, v, p, w, name, data, hto, hpos, hview, hnone, hslots⟩

/-- The root directory gets an entry for a new file with the given count of links. -/
def fileRun (nlink : Int16) : List InodeOp :=
  [.ialloc T_DIR, .ilock rootEntry, .iupdate rootEntry ⟨0, 0, 1, 0, 0, 0⟩, .ialloc T_FILE,
    .ilock nextEntry, .iupdate nextEntry ⟨0, 0, nlink, 0, 0, 0⟩, .iunlock nextEntry, .iput nextEntry,
    .writei rootEntry oneEntry 0, .iunlock rootEntry]

/-- The state after `fileRun`. -/
def State.OneFile (nlink : Int16) (s : State) : Prop :=
  (∀ e, (s.icache e).busy = false ∧ (s.icache e).ref = if e = rootEntry then 1 else 0) ∧
    (s.icache rootEntry).inum = ROOTINO ∧ s.sb.ninodes = 64 ∧
    (∀ i < 64, (s.node i).type = T_DIR ↔ i = ROOTINO) ∧ (s.node ROOTINO).nlink ≠ 0 ∧
    s.store.data ROOTINO = oneEntry ∧ (s.node 2).type = T_FILE ∧ (s.node 2).nlink = nlink

instance (nlink : Int16) (s : State) : Decidable (s.OneFile nlink) :=
  inferInstanceAs (Decidable (_ ∧ _))

/-- What is known of the file after it has been linked under another name. -/
theorem exists_linked {nlink nlink' : Int16}
    (hrun : (((fileRun nlink).forM InodeOp.step) (iinit wideDisk fun _ => none)).toOption.any
      (fun r => decide (r.2.OneFile nlink) &&
        (sysLink rootEntry [slash, 97] [slash, 98] r.2).toOption.any fun r' =>
          decide (r'.1 = 0 ∧ (r'.2.node 2).type = T_FILE ∧ (r'.2.node 2).nlink = nlink')) = true) :
    ∃ s s' : State, s.Steady ∧ s.OneFile nlink ∧
      sysLink rootEntry [slash, 97] [slash, 98] s = .ok (0, s') ∧ (s'.node 2).type = T_FILE ∧
      (s'.node 2).nlink = nlink' := by
  obtain ⟨⟨_, s⟩, hs, hf⟩ := exists_ok hrun
  rw [Bool.and_eq_true] at hf
  obtain ⟨⟨_, s'⟩, hlink, hpost⟩ := exists_ok hf.2
  obtain ⟨rfl, hpost⟩ := of_decide_eq_true hpost
  exact ⟨s, s', (steady_run (steady_iinit wideDisk_wf) _).of_ok hs, of_decide_eq_true hf.1, hlink,
    hpost⟩

section
variable {nlink : Int16} {s : State} (h : s.OneFile nlink)
include h

theorem State.OneFile.ref_pos : 0 < (s.icache rootEntry).ref := by
  rw [(h.1 rootEntry).2, if_pos rfl]
  exact Int.one_pos

theorem State.OneFile.tree (hs : s.Steady) (hn : nlink ≠ 0) : s.Tree := by
  obtain ⟨hidle, -, hinodes, hdirs, hroot, hdata, htype, hnlink⟩ := h
  exact tree_of_oneEntry hs (fun e _ => (hidle e).1) hinodes hdirs hroot hdata htype (hnlink ▸ hn)

/-- The root directory, with its one entry. -/
theorem State.OneFile.root : ∃ w, s.view ROOTINO = some w ∧ w.type = T_DIR ∧ w.data = oneEntry := by
  obtain ⟨-, -, -, hdirs, -, hdata, -⟩ := h
  have htype := (hdirs ROOTINO (by decide)).2 rfl
  exact ⟨_, Store.view_of_type (ne_of_eq_of_ne htype (by decide)), htype, hdata⟩

theorem State.OneFile.isDir : isDir s.view (s.icache rootEntry).inum = true := by
  obtain ⟨w, hw, htype, -⟩ := h.root
  rw [h.2.1]
  exact isDir_iff.2 ⟨w, hw, htype⟩

/-- The file. -/
theorem State.OneFile.file : ∃ v, s.view 2 = some v ∧ v.type = T_FILE ∧ v.nlink = nlink := by
  obtain ⟨-, -, -, -, -, -, htype, hnlink⟩ := h
  exact ⟨_, Store.view_of_type (ne_of_eq_of_ne htype (by decide)), htype, hnlink⟩

theorem State.OneFile.lookup (name : List UInt8) :
    lookup s.view ROOTINO name = SlotMap.find [some ([97], 2)] name := by
  obtain ⟨w, hw, htype, hdata⟩ := h.root
  rw [Fs.lookup, hw, Option.bind_some, if_pos htype, hdata, dirSlots_oneEntry]

/-- Nearly the whole cache is free. -/
theorem State.OneFile.fits {held : Finset Nat} (hheld : held.card ≤ 2) : s.Fits held := by
  have huse : s.inUse ⊆ {ROOTINO} := by
    intro i hi
    obtain ⟨e, he, hei⟩ := State.mem_inUse.1 hi
    rw [(h.1 e).2] at he
    obtain rfl : e = rootEntry := by
      by_contra hne
      rw [if_neg hne] at he
      omega
    rw [mem_singleton, ← hei, h.2.1]
  have hone : s.inUse.card ≤ 1 := card_le_card huse
  refine (card_union_le ..).trans ((Nat.add_le_add hheld hone).trans (by decide))

/-- There is room for a link to the file. -/
theorem State.OneFile.linkRoom : LinkRoom s rootEntry [slash, 97] [slash, 98] := by
  refine ⟨⟨h.fits (by simp), fun _ j _ => ⟨h.fits ?_, trivial⟩⟩, fun i v hi hv _ => ?_⟩
  · rw [union_empty]
    exact card_le_two
  · refine ⟨⟨h.fits ?_, fun hmore => absurd ⟨rfl, rfl⟩ hmore⟩, fun p w name hin => ?_⟩
    · rw [← insert_eq]
      exact card_le_two
    obtain ⟨w', hw', htype, hdata⟩ := h.root
    have hpar := hin.walk
    have hroot : Fs.isDir s.view ROOTINO = true := isDir_iff.2 ⟨w', hw', htype⟩
    change (if Fs.isDir s.view ROOTINO then some (ROOTINO, [98]) else none) = some (p, name) at hpar
    rw [if_pos hroot, some_inj, Prod.mk.injEq] at hpar
    obtain ⟨rfl, rfl⟩ := hpar
    obtain rfl := Option.some.inj (hw'.symm.trans hin.node)
    have hnone : SlotMap.find (dirSlots oneEntry) [98] = none := by
      rw [dirSlots_oneEntry]
      rfl
    have hgrowth : dirRoom oneEntry + direntSize ≤ MAXFILE * BSIZE ∧
        growth (blocksFor oneEntry.length) (dirRoom oneEntry + direntSize) = 0 := by
      decide +kernel
    rw [State.EntryRoom, hdata, hnone]
    exact ⟨fun j hj => absurd hj (some_ne_none j).symm,
      fun _ => ⟨hgrowth.1, hgrowth.2.trans_le (Nat.zero_le _)⟩⟩

end

/-- A file gets a second name. -/
theorem linkOk_iff_second : ∃ s s' : State, s.Tree ∧ 0 < (s.icache rootEntry).ref ∧
    isDir s.view (s.icache rootEntry).inum = true ∧
    sysLink rootEntry [slash, 97] [slash, 98] s = .ok (0, s') ∧
    LinkOk s rootEntry [slash, 97] [slash, 98] := by
  obtain ⟨s, s', hsteady, hfile, hrun, -⟩ := @exists_linked 1 2 (by decide +kernel)
  have ht := hfile.tree hsteady (by decide)
  refine ⟨s, s', ht, hfile.ref_pos, hfile.isDir, hrun,
    (linkOk_iff ht hfile.ref_pos hfile.isDir (by decide) (by decide)).2
      ⟨hfile.linkRoom, fun i v p w name hto _ => ?_⟩⟩
  obtain ⟨v', hv', -, hnlink⟩ := hfile.file
  obtain ⟨hwalk, hv, -⟩ := hto
  change (lookup s.view ROOTINO [97]).bind (fun j => walk s.view j []) = some i at hwalk
  rw [hfile.lookup] at hwalk
  obtain rfl : 2 = i := Option.some.inj hwalk
  obtain rfl := Option.some.inj (hv'.symm.trans hv)
  rw [hnlink]
  decide

/-- `sys_link` makes the largest count of links negative, and returns 0. -/
theorem sysLink_wraps_nlink : ∃ s s' : State, s.Tree ∧ 0 < (s.icache rootEntry).ref ∧
    isDir s.view (s.icache rootEntry).inum = true ∧ (s.node 2).nlink = 32767 ∧
    sysLink rootEntry [slash, 97] [slash, 98] s = .ok (0, s') ∧ (s'.node 2).nlink = -32768 ∧
    ¬ LinkOk s rootEntry [slash, 97] [slash, 98] := by
  obtain ⟨s, s', hsteady, hfile, hrun, htype', hnlink'⟩ :=
    @exists_linked 32767 (-32768) (by decide +kernel)
  obtain ⟨v₂, hview, -, hnlink₂⟩ := hfile.file
  have hview' : s'.view 2 = some ((s'.node 2).vnode (s'.store.data 2)) :=
    Store.view_of_type (ne_of_eq_of_ne htype' (by decide))
  -- the count of inode 2 is not what it was, but a link to it would leave it positive
  have hlinks {u : Vnode} (hu : s.view 2 = some u) : u.nlink = 32767 := by
    rw [hview, some_inj] at hu
    exact hu ▸ hnlink₂
  refine ⟨s, s', hfile.tree hsteady (by decide), hfile.ref_pos, hfile.isDir, hfile.2.2.2.2.2.2.2, hrun,
    hnlink', ?_⟩
  rintro ⟨r, s'', hrun'', -, hok⟩
  rw [hrun] at hrun''
  obtain ⟨rfl, rfl⟩ := Prod.mk.inj (Except.ok.inj hrun'')
  rcases hok with ⟨hbad, -⟩ | ⟨-, i, v, p, w, name, data, hto, hpos, hafter, -⟩
  · cases hbad
  · have hafter₂ := congrFun hafter 2
    rw [hview'] at hafter₂
    rcases eq_or_ne 2 p with rfl | hp
    · rw [update_self, some_inj] at hafter₂
      have hw : w.nlink = -32768 := (congrArg Vnode.nlink hafter₂).symm.trans hnlink'
      exact absurd ((hlinks hto.new.node).symm.trans hw) (by decide)
    · rw [update_of_ne hp] at hafter₂
      rcases eq_or_ne 2 i with rfl | hi
      · rw [hlinks hto.file] at hpos
        exact absurd hpos (by decide)
      · rw [update_of_ne hi] at hafter₂
        exact absurd ((hlinks hafter₂.symm).symm.trans hnlink') (by decide)

end TronBoss.Fs
