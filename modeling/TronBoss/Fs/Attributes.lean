import TronBoss.Fs.Kernel
import TronBoss.Fs.PathSpec

/-!
# Mode, owner and group of a file

`chmod`, `chown` and `chgrp` store their argument in the inode that the path leads to, and `fstat` reads
it back, from the cache or, after the inode has left the cache, from the disk. The mode has the width of
the argument; owner and group are 16 bits wide.
-/

namespace TronBoss.Fs

open Lib Function

/-- The attributes that have a system call of their own. -/
inductive Attr where
  | mode
  | uid
  | gid
  deriving DecidableEq

/-- One of the three values, as an `int`. -/
def Attr.pick (mode : UInt32) (uid gid : UInt16) : Attr → UInt32
  | .mode => mode
  | .uid => uid.toUInt32
  | .gid => gid.toUInt32

/-- The assignment to the field of the inode. -/
def Attr.assign (v : Int32) (ip : Inode) : Attr → Inode
  | .mode => { ip with mode := v.toUInt32 }
  | .uid => { ip with uid := v.toUInt32.toUInt16 }
  | .gid => { ip with gid := v.toUInt32.toUInt16 }

/-- `chmod`, `chown` or `chgrp`. -/
def Attr.call (cwd : Fin NINODE) (path : List UInt8) (v : Int32) : Attr → FsM Int
  | .mode => chmod cwd path v.toUInt32
  | .uid => chown cwd path v.toUInt32.toUInt16
  | .gid => chgrp cwd path v.toUInt32.toUInt16

/-- The file with the attribute changed, and nothing else. -/
def Attr.set (v : Int32) (w : Vnode) : Attr → Vnode
  | .mode => { w with mode := v.toUInt32 }
  | .uid => { w with uid := v.toUInt32.toUInt16 }
  | .gid => { w with gid := v.toUInt32.toUInt16 }

/-- The field is wide enough for the value. -/
def Attr.Fits (v : Int32) : Attr → Prop
  | .mode => True
  | .uid => 0 ≤ v ∧ v ≤ 65535
  | .gid => 0 ≤ v ∧ v ≤ 65535

/-- The value of the attribute of a file. -/
def Attr.value (a : Attr) (w : Vnode) : UInt32 := a.pick w.mode w.uid w.gid

/-- Later operations on inodes, among which none removes the file of inode `i` or gives the attribute
another value. -/
inductive Attr.Until (a : Attr) (i : Nat) (s : State) : State → Prop
  | refl : a.Until i s s
  | step {t t' : State} {op : InodeOp} : a.Until i s t → op.step t = .ok ((), t') →
    t'.view i ≠ none →
    (∀ e x w, op = .iupdate e x → (t.icache e).inum = i → t.view i = some w →
      a.pick x.mode x.uid x.gid = a.value w) →
    a.Until i s t'

/-- The call stores the value and nothing else, and every `fstat` of the file reports it. -/
def AttrOk (a : Attr) (s : State) (cwd : Fin NINODE) (path : List UInt8) (v : Int32) : Prop :=
  ∀ s', a.call cwd path v s = .ok (0, s') →
    ∃ i w, walk s.view (pathStart s cwd path) (segments path) = some i ∧ s.view i = some w ∧
      s'.view = update s.view i (some (a.set v w)) ∧
      ∀ t, a.Until i s' t → ∀ (k : Kernel State) (f : Fin NFILE) (st : Stat) (k' : Kernel State), k.fs = t →
        (k.file f).type = .inode → 0 < (t.icache (k.file f).ip).ref →
        (t.icache (k.file f).ip).inum = i → filestat f k = .ok (some st, k') →
        a.pick st.mode st.uid st.gid = v.toUInt32

theorem Attr.call_eq (a : Attr) (cwd : Fin NINODE) (path : List UInt8) (v : Int32) :
    a.call cwd path v = chattr cwd path (a.assign v) := by
  cases a <;> rfl

/-- An attribute reads back as it was set when it fits its field. -/
theorem Attr.fits_iff (a : Attr) (v : Int32) (w : Vnode) :
    a.value (a.set v w) = v.toUInt32 ↔ a.Fits v := by
  have h16 : v.toUInt32.toUInt16.toUInt32 = v.toUInt32 ↔ 0 ≤ v ∧ v ≤ 65535 := by
    have hint : v.toInt = v.toUInt32.toBitVec.toInt := rfl
    have hlt := v.toUInt32.toNat_lt
    rw [BitVec.toInt_eq_toNat_cond, UInt32.toNat_toBitVec] at hint
    rw [← UInt32.toNat_inj, Int32.le_iff_toInt_le, Int32.le_iff_toInt_le, hint, UInt16.toNat_toUInt32,
      UInt32.toNat_toUInt16]
    show _ ↔ (0 : Int) ≤ _ ∧ _ ≤ (65535 : Int)
    split <;> omega
  cases a with
  | mode => exact iff_of_true rfl trivial
  | uid | gid => exact h16

section
variable {s t : State} {a : Attr} {i : Nat} {w : Vnode}

/-- `fstat` shows the attributes of the file. -/
theorem filestat_shows (h : t.Inv) {k k' : Kernel State} {f : Fin NFILE} {st : Stat} (hk : k.fs = t)
    (hi : (t.icache (k.file f).ip).inum = i)
    (hw : t.view i = some w) (hrun : filestat f k = .ok (some st, k')) :
    a.pick st.mode st.uid st.gid = a.value w := by
  have hspec : Sat (fun _ => True) (filestat f) k fun r _ =>
      ∀ st, r = some st → a.pick st.mode st.uid st.gid = a.value w := by
    rw [filestat, sat_get_bind]
    refine Sat.ite (fun _ => ?_) fun _ => ?_
    · rw [sat_bind, liftFs, sat_zoom, hk]
      refine (ilock_spec h (.inr trivial) (.inr trivial) (.inr trivial)).weaken ?_
      rintro _ t1 ⟨hinv, -, hview, hl, -, -, hh⟩
      have hi1 : (t1.icache (k.file f).ip).inum = i := by
        have he := congrFun hh (k.file f).ip
        rw [update_self] at he
        exact (congrArg Handle.inum he).trans hi
      have hnode := hinv.view_of_loaded hl
      rw [hview, hi1, hw, Option.some_inj] at hnode
      rw [sat_bind, liftFs, sat_zoom, stati, sat_fsState_bind, sat_pure, sat_bind]
      refine Sat.of_returns fun _ k2 _ => ?_
      rw [sat_pure, hnode]
      rintro st hst
      rw [← Option.some.inj hst]
      rfl
    · rw [sat_pure]
      rintro st hst
      cases hst
  exact hspec.of_ok hrun st rfl

/-- `fstat` returns when nobody has locked the inode. -/
theorem filestat_returns (h : t.Steady) {k : Kernel State} {f : Fin NFILE} (hk : k.fs = t)
    (htype : (k.file f).type = .inode) (hr : 0 < (t.icache (k.file f).ip).ref)
    (hb : (t.icache (k.file f).ip).busy = false) :
    ∃ st k', filestat f k = .ok (some st, k') := by
  have ha := State.node_type_ne_of_view (h.live _ hr)
  have hspec : Sat (fun _ => False) (filestat f) k fun r _ => ∃ st, r = some st := by
    rw [filestat, sat_get_bind, if_pos htype, sat_bind, liftFs, sat_zoom, hk]
    refine (ilock_spec h.inv (.inl hr) (.inl hb) (.inl ha)).weaken ?_
    rintro _ t1 ⟨hinv, -, -, hl, -, -, hh⟩
    have he := congrFun hh (k.file f).ip
    rw [update_self] at he
    rw [sat_bind, liftFs, sat_zoom, stati, sat_fsState_bind, sat_pure, sat_bind, liftFs, sat_zoom]
    exact (iunlock_spec hinv hl.ref (congrArg Handle.busy he)).weaken fun _ _ _ => ⟨_, rfl⟩
  obtain ⟨_, k', hrun, st, rfl⟩ := hspec.returns
  exact ⟨st, k', hrun⟩

/-- The attribute keeps its value. -/
theorem Attr.Until.value (hu : a.Until i s t) (hs : s.Steady) (hw : s.view i = some w) :
    t.Steady ∧ ∃ w', t.view i = some w' ∧ a.value w' = a.value w := by
  induction hu with
  | refl => exact ⟨hs, w, hw, rfl⟩
  | @step t t' op _ hrun hne hkeep ih =>
    obtain ⟨ht, w', hw', hval⟩ := ih
    obtain ⟨ht', hleaves⟩ := (op.step_steady ht).of_ok hrun
    refine ⟨ht', ?_⟩
    obtain hgone | ⟨x, hx, hattrs | ⟨e, hop, he⟩⟩ := hleaves i w' hw'
    · exact absurd hgone hne
    · refine ⟨x, hx, Eq.trans ?_ hval⟩
      exact congrArg (fun y : Attrs => a.pick y.mode y.uid y.gid) hattrs
    · exact ⟨x, hx, (hkeep e x.attrs w' hop he hw').trans hval⟩

variable {cwd : Fin NINODE} {path : List UInt8} {v : Int32} (ht : s.Tree)
  (hcwd : 0 < (s.icache cwd).ref) (h0 : 0 ∉ path)
include ht hcwd h0

/-- What the call does. -/
theorem Attr.call_spec :
    Sat (fun err => err = .panic "iget: no inodes" ∧ ¬ s.PathRoom ∅ cwd path false)
      (a.call cwd path v) s fun r s' => s.PathRoom ∅ cwd path false ∧
        match walk s.view (pathStart s cwd path) (segments path) with
        | none => r = -1
        | some i => r = 0 ∧ s'.Steady ∧ ∃ w e, s.view i = some w ∧
            s'.view = update s.view i (some (a.set v w)) ∧
            (s'.icache e).inum = i ∧ 0 < (s'.icache e).ref ∧ (s'.icache e).busy = false := by
  rw [Attr.call_eq, chattr, sat_beginOp_bind]
  refine (namei_spec ht hcwd h0).bind ?_
  rintro r s1 ⟨h1, hwalk, hroom⟩
  rw [← hwalk]
  cases r with
  | none => exact ⟨hroom, rfl⟩
  | some e =>
    have hr1 : 0 < (s1.icache e).ref := h1.pos_of (one_self_pos e)
    obtain ⟨w, hw, -⟩ := ht.live_of_walk (ht.live_start hcwd) hwalk.symm
    have hw : s.view (s1.icache e).inum = some w := hw
    have hlive (x : Fin NINODE) (hx : 0 < (s1.icache x).ref) : s.view (s1.icache x).inum ≠ none := by
      refine h1.alloc ht (fun x hx => ?_) x hx
      rcases eq_or_ne x e with rfl | hne
      · rw [hw]
        exact Option.some_ne_none w
      · rw [owned, one, Pi.single_eq_of_ne hne] at hx
        cases hx
    refine (h1.ilock hr1 rfl (hlive e hr1)).never.bind ?_
    rintro _ s2 ⟨h2, hsame2, hl2⟩
    have hupd := h2.updateInode (f := (a.assign v ·)) hl2
      (by cases a <;> exact ⟨rfl, rfl, rfl⟩) (by cases a <;> rfl)
    refine hupd.never.bind ?_
    rintro _ s3 ⟨h3, -, hh3, hview3⟩
    refine (h3.iunlock (update_self ..)).never.bind ?_
    rintro _ s4 ⟨h4, hsame4⟩
    rw [update_noLocks] at h4
    rw [sat_endOp_bind, sat_pure]
    have hi2 : (s2.icache e).inum = (s1.icache e).inum := hsame2 e hr1
    have he3 : s3.handle e = s2.handle e := congrFun hh3 e
    have hr3 : 0 < (s3.icache e).ref := hl2.ref.trans_eq (congrArg Handle.ref he3).symm
    have hi4 : (s4.icache e).inum = (s1.icache e).inum :=
      (hsame4 e hr3).trans ((congrArg Handle.inum he3).trans hi2)
    have hr4 : 0 < (s4.icache e).ref := h4.pos_of (one_self_pos e)
    have hnode := h2.inv.view_of_loaded hl2
    rw [h2.view, hi2, hw, Option.some_inj] at hnode
    have hset : (a.assign v (s2.icache e)).vnode (s2.store.data (s2.icache e).inum) = a.set v w := by
      rw [hnode, hi2]
      cases a <;> rfl
    rw [hset, hi2, ← hi4] at hview3
    rw [← hi4] at hw
    have htree := h4.tree ht hr4 hw (by cases a <;> rfl) (by cases a <;> rfl) hview3 fun x hx => ?_
    · rw [Option.map_some, ← hi4]
      exact ⟨hroom, rfl, htree.steady, w, e, hw, h4.view.trans hview3, rfl, hr4, h4.busy e hr4⟩
    · rcases eq_or_ne x e with rfl | hne
      · rw [hw]
        exact Option.some_ne_none w
      · rw [owned, one, Pi.single_eq_of_ne hne] at hx
        cases hx

/-- A value that every `fstat` is to report fits. -/
theorem AttrOk.fits (hok : AttrOk a s cwd path v) (hroom : s.PathRoom ∅ cwd path false)
    (hwalk : walk s.view (pathStart s cwd path) (segments path) ≠ none) : a.Fits v := by
  obtain ⟨i, hi⟩ := Option.ne_none_iff_exists'.1 hwalk
  obtain ⟨r, s', hrun, -, hmatch⟩ := ((Attr.call_spec ht hcwd h0).mono
    (fun _ herr => herr.2 hroom) fun _ _ hs' => hs').returns
  rw [hi] at hmatch
  obtain ⟨rfl, hsteady, w, e, hw, hview, hinum, hr, hb⟩ := hmatch
  obtain ⟨i', w', hi', hw', -, hfstat⟩ := hok s' hrun
  obtain rfl : i = i' := Option.some.inj (hi.symm.trans hi')
  -- a file that refers to the inode shows what was stored
  let k : Kernel State := { Kernel.start s' (fun _ => File.freePage) firstSlot with
    file := fun _ => ⟨.inode, 1, true, true, 0, e, 0⟩ }
  obtain ⟨r, k', hstat⟩ := filestat_returns hsteady (k := k) (f := ⟨0, by decide⟩) rfl rfl hr hb
  rw [← a.fits_iff v w, ← hfstat s' .refl k _ r k' rfl rfl hr hinum hstat]
  exact (filestat_shows hsteady.inv rfl hinum (by rw [hview, update_self]) hstat).symm

end

/-- `chmod`, `chown` and `chgrp` do what they are to do, exactly if the value fits into the field of
the inode, where the call gets to store it. -/
theorem attrOk_iff {a : Attr} {s : State} {cwd : Fin NINODE} {path : List UInt8} {v : Int32}
    (ht : s.Tree) (hcwd : 0 < (s.icache cwd).ref) (h0 : 0 ∉ path) :
    AttrOk a s cwd path v ↔
      (s.PathRoom ∅ cwd path false →
        walk s.view (pathStart s cwd path) (segments path) ≠ none → a.Fits v) := by
  constructor
  · exact AttrOk.fits ht hcwd h0
  · intro hfits s' hrun
    obtain ⟨hroom, hmatch⟩ := (Attr.call_spec ht hcwd h0).of_ok hrun
    cases hwalk : walk s.view (pathStart s cwd path) (segments path) with
    | none =>
      rw [hwalk] at hmatch
      cases hmatch
    | some i =>
      rw [hwalk] at hmatch
      obtain ⟨-, hsteady, w, -, hw, hview, -⟩ := hmatch
      refine ⟨i, w, rfl, hw, hview, fun t hu k f st k' hk _ _ hinum hstat => ?_⟩
      obtain ⟨ht', w', hw', hval⟩ := hu.value hsteady (by rw [hview, update_self])
      rw [filestat_shows ht'.inv hk hinum hw' hstat, hval]
      exact (a.fits_iff v w).2 (hfits hroom (by rw [hwalk]; exact Option.some_ne_none i))

/-- The root directory can be given to user 5. -/
theorem attrOk_iff_root : ∃ s : State, s.Tree ∧ 0 < (s.icache rootEntry).ref ∧
    AttrOk .uid s rootEntry [slash] 5 := by
  obtain ⟨s, hs, hfull, hroot⟩ := exists_crowded
  have ht := hroot.tree hs hfull
  have hcwd := hfull.ref_pos rootEntry
  exact ⟨s, ht, hcwd, (attrOk_iff ht hcwd (by decide)).2 fun _ _ => ⟨by decide, by decide⟩⟩

/-- `chown` to 65536 returns 0 and makes the file belong to user 0. -/
theorem chown_cuts_owner : ∃ s s' : State, s.Tree ∧ 0 < (s.icache rootEntry).ref ∧
    Attr.uid.call rootEntry [slash] 65536 s = .ok (0, s') ∧
    (∃ w, s'.view ROOTINO = some w ∧ w.uid = 0) ∧ ¬ AttrOk .uid s rootEntry [slash] 65536 := by
  obtain ⟨s, hs, hfull, hroot⟩ := exists_crowded
  have ht := hroot.tree hs hfull
  have hcwd := hfull.ref_pos rootEntry
  have hroom : s.PathRoom ∅ rootEntry [slash] false :=
    ⟨hs.inv.cacheRoom_iff.1 ⟨rootEntry, .inr ⟨hcwd, hroot.1⟩⟩, trivial⟩
  obtain ⟨r, s', hrun, -, hmatch⟩ := ((Attr.call_spec (a := .uid) (v := 65536) ht hcwd
    (by decide)).mono (fun _ herr => herr.2 hroom) fun _ _ hs' => hs').returns
  obtain ⟨rfl, -, w, e, -, hview, -⟩ := hmatch
  refine ⟨s, s', ht, hcwd, hrun, ⟨_, by rw [hview]; exact update_self .., rfl⟩, fun hok => ?_⟩
  have hfits := hok.fits ht hcwd (by decide) hroom (by exact Option.some_ne_none ROOTINO)
  exact absurd hfits.2 (by decide)

end TronBoss.Fs
