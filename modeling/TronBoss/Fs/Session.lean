import TronBoss.Fs.DirSpec

/-!
# A process at work in a resting tree

While a system call walks through the tree, it has references to some inodes and has locked some of
them. `Session s₀ s δ L` says that the state `s` differs from the state `s₀` at rest only in that: there
are `δ` more references, the locks `L` are held, and no file has changed. Each of `iget`, `ilock`,
`iunlock` and `iput` takes a session to the next one. In a tree (`State.Tree`) none of them can fail,
apart from `iget` when the inode cache is full.
-/

namespace TronBoss.Fs

open Lib Function Finset

/-- The inode has a cache entry in use. -/
def State.Cached (s : State) (i : Nat) : Prop := ∃ e, 0 < (s.icache e).ref ∧ (s.icache e).inum = i

/-- An inode that is allocated and stays so while it is visited: it has links, or there is a reference
to it. -/
def State.Live (s : State) (i : Nat) : Prop := ∃ v, s.view i = some v ∧ (v.nlink ≠ 0 ∨ s.Cached i)

/-- A file system at rest: nobody has locked an inode, directories are made of whole entries, and
their entries name allocated inodes. -/
structure State.Tree (s : State) : Prop where
  inv : s.Inv
  idle : ∀ e, 0 < (s.icache e).ref → (s.icache e).busy = false
  alloc : ∀ e, 0 < (s.icache e).ref → s.view (s.icache e).inum ≠ none
  root : s.Live ROOTINO
  whole : ∀ i v, s.view i = some v → v.type = T_DIR → direntSize ∣ v.data.length
  entries : ∀ i v name j, s.view i = some v → v.type = T_DIR →
    SlotMap.find (dirSlots v.data) name = some j → s.Live j

/-- The state `s` is `s₀` with the references `δ` and the locks `L`. -/
structure Session (s₀ s : State) (δ : Fin NINODE → Int) (L : Fin NINODE → Bool) : Prop where
  inv : s.Inv
  sb : s.sb = s₀.sb
  view : s.view = s₀.view
  free : s.free = s₀.free
  base : ∀ e, 0 ≤ (s₀.icache e).ref
  nonneg : ∀ e, 0 ≤ δ e
  refs : s.refs = s₀.refs + δ
  kept : ∀ e, 0 < (s₀.icache e).ref → (s.icache e).inum = (s₀.icache e).inum
  busy : ∀ e, 0 < (s.icache e).ref → (s.icache e).busy = L e
  locked : ∀ e, L e = true → 0 < (s.icache e).ref

/-- No locks. -/
def noLocks : Fin NINODE → Bool := fun _ => false

/-- Entries in use are for the same inodes as before. -/
def SameInodes (s s' : State) : Prop :=
  ∀ e, 0 < (s.icache e).ref → (s'.icache e).inum = (s.icache e).inum

theorem State.Tree.session {s : State} (h : s.Tree) : Session s s 0 noLocks where
  inv := h.inv
  sb := rfl
  view := rfl
  free := rfl
  base := h.inv.nonneg
  nonneg := fun _ => le_rfl
  refs := (add_zero _).symm
  kept := fun _ _ => rfl
  busy := h.idle
  locked := fun _ hL => Bool.noConfusion hL

section
variable {s₀ s s' : State} {δ : Fin NINODE → Int} {L : Fin NINODE → Bool} {e : Fin NINODE}

theorem SameInodes.trans {s1 : State} (h : SameInodes s s1) (h' : SameInodes s1 s')
    (hr : s1.refs = s.refs) : SameInodes s s' := by
  intro x hx
  have hx' : 0 < (s1.icache x).ref := hx.trans_eq (congrFun hr x).symm
  rw [h' x hx', h x hx]

variable (h : Session s₀ s δ L)
include h

theorem Session.ref (e : Fin NINODE) : (s.icache e).ref = (s₀.icache e).ref + δ e :=
  congrFun h.refs e

/-- An entry that the session has a reference to is in use. -/
theorem Session.pos_of (hδ : 0 < δ e) : 0 < (s.icache e).ref := by
  have hbase := h.base e
  have href := h.ref e
  omega

/-- An entry that was in use still is. -/
theorem Session.pos (hr : 0 < (s₀.icache e).ref) : 0 < (s.icache e).ref := by
  have hnn := h.nonneg e
  have href := h.ref e
  omega

/-- A routine that changes one cache entry: by `d` references, and with the lock as in `g`. -/
theorem Session.change (hinv : s'.Inv) (hsb : s'.sb = s.sb)
    (hview : s'.view = s.view) (hfree : s'.free = s.free) {g : Handle} {d : Int}
    (hh : s'.handle = update s.handle e g) (hd : g.ref = (s.icache e).ref + d)
    (hinum : 0 < (s.icache e).ref → g.inum = (s.icache e).inum) (hnn : 0 ≤ δ e + d)
    (hL : g.busy = true → 0 < g.ref) :
    Session s₀ s' (δ + Pi.single e d) (update L e g.busy) ∧ SameInodes s s' := by
  have hother (x : Fin NINODE) (hne : x ≠ e) : s'.handle x = s.handle x := by
    rw [hh, update_of_ne hne]
  have hself : s'.handle e = g := by rw [hh, update_self]
  have hself' : (s'.icache e).ref = g.ref := congrArg Handle.ref hself
  have hsame : SameInodes s s' := by
    intro x hx
    rcases eq_or_ne x e with rfl | hne
    · exact (congrArg Handle.inum hself).trans (hinum hx)
    · exact congrArg Handle.inum (hother x hne)
  refine ⟨⟨hinv, hsb.trans h.sb, hview.trans h.view, hfree.trans h.free, h.base, fun x => ?_, ?_,
    fun x hx => ?_, fun x hx => ?_, fun x hx => ?_⟩, hsame⟩
  · rcases eq_or_ne x e with rfl | hne
    · rw [Pi.add_apply, Pi.single_eq_same]
      exact hnn
    · rw [Pi.add_apply, Pi.single_eq_of_ne hne, add_zero]
      exact h.nonneg x
  · rw [← add_assoc, ← h.refs]
    exact update_refs hh hd
  · rw [hsame x (h.pos hx), h.kept x hx]
  · rcases eq_or_ne x e with rfl | hne
    · rw [update_self]
      exact congrArg Handle.busy hself
    · rw [update_of_ne hne]
      have href : (s'.icache x).ref = (s.icache x).ref := congrArg Handle.ref (hother x hne)
      exact (congrArg Handle.busy (hother x hne)).trans (h.busy x (href ▸ hx))
  · rcases eq_or_ne x e with rfl | hne
    · rw [update_self] at hx
      rw [hself']
      exact hL hx
    · rw [update_of_ne hne] at hx
      have href : (s'.icache x).ref = (s.icache x).ref := congrArg Handle.ref (hother x hne)
      rw [href]
      exact h.locked x hx

/-- `ilock` of an allocated inode that is not locked. -/
theorem Session.ilock (hr : 0 < (s.icache e).ref) (hb : L e = false)
    (ha : s₀.view (s.icache e).inum ≠ none) :
    Sat (fun _ => False) (ilock e) s fun _ s' => Session s₀ s' δ (update L e true) ∧
      SameInodes s s' ∧ s'.Loaded e := by
  have ha' : (s.node (s.icache e).inum).type ≠ 0 := State.node_type_ne_of_view (h.view ▸ ha)
  refine ((ilock_spec h.inv (.inl hr) (.inl ((h.busy e hr).trans hb)) (.inl ha')).and
    ilock_spent).weaken ?_
  rintro _ s' ⟨⟨hinv, hsb, hview, hl, -, -, hh⟩, hspent⟩
  obtain ⟨hs', hsame⟩ := @Session.change s₀ s s' δ L e h hinv hsb hview hspent.free _ 0 hh
    (add_zero _).symm
    (fun _ => rfl) ((add_zero (δ e)).symm ▸ h.nonneg e) fun _ => hr
  rw [Pi.single_zero, add_zero] at hs'
  exact ⟨hs', hsame, hl⟩

/-- `iunlock` by the holder of the lock. -/
theorem Session.iunlock (hb : L e = true) :
    Sat (fun _ => False) (iunlock e) s fun _ s' => Session s₀ s' δ (update L e false) ∧
      SameInodes s s' := by
  have hr := h.locked e hb
  refine ((iunlock_spec h.inv hr ((h.busy e hr).trans hb)).and iunlock_spent).weaken ?_
  rintro _ s' ⟨⟨hinv, hsb, hview, hh⟩, hspent⟩
  obtain ⟨hs', hsame⟩ := @Session.change s₀ s s' δ L e h hinv hsb hview hspent.free _ 0 hh
    (add_zero _).symm
    (fun _ => rfl) ((add_zero (δ e)).symm ▸ h.nonneg e) fun hc => Bool.noConfusion hc
  rw [Pi.single_zero, add_zero] at hs'
  exact ⟨hs', hsame⟩

/-- `iput` of a reference taken in the session, to an inode that stays. -/
theorem Session.iput (hδ : 0 < δ e) (hb : L e = false) (hlive : s₀.Live (s.icache e).inum) :
    Sat (fun _ => False) (iput e) s fun _ s' => Session s₀ s' (δ - one e) L ∧ SameInodes s s' := by
  have href := h.ref e
  have hr := h.pos_of hδ
  have hstays : ¬ ((s.icache e).ref = 1 ∧ (s.icache e).valid = true ∧ (s.icache e).nlink = 0) := by
    rintro ⟨hlast, hv, hn⟩
    obtain ⟨w, hw, hlinks | ⟨x, hx, hxe⟩⟩ := hlive
    · have hview := h.inv.view_of_loaded ⟨hr, hv⟩
      rw [h.view, hw, Option.some_inj] at hview
      exact hlinks (hview ▸ hn)
    · have hxe' : x = e := h.inv.unique x e (h.pos hx) hr ((h.kept x hx).trans hxe)
      rw [hxe'] at hx
      omega
  rw [sat_of_eq_ok (iput_light hstays)]
  have hh := s.handle_setInode e { s.icache e with ref := (s.icache e).ref - 1 }
  have hinv := @State.Inv.setHandle s e { s.icache e with ref := (s.icache e).ref - 1 } h.inv hr
    (by dsimp only; omega) rfl rfl rfl
  obtain ⟨hs', hsame⟩ := @Session.change s₀ s _ δ L e h hinv rfl rfl rfl _ (-1) hh rfl
    (fun _ => rfl) (by omega) fun hc => absurd ((h.busy e hr).symm.trans hc) (by simp [hb])
  have hlock : update L e (s.icache e).busy = L := by
    rw [h.busy e hr, update_eq_self]
  rw [Inode.handle, hlock, Pi.single_neg, ← sub_eq_add_neg] at hs'
  exact ⟨hs', hsame⟩

/-- `idup` of an entry in use. -/
theorem Session.idup (hr : 0 < (s.icache e).ref) :
    Sat (fun _ => False) (idup e) s fun e' s' => e' = e ∧ Session s₀ s' (δ + one e) L ∧
      SameInodes s s' := by
  rw [Fs.idup, sat_modifyInode_bind, sat_pure]
  have hh := s.handle_setInode e { s.icache e with ref := (s.icache e).ref + 1 }
  have hinv := @State.Inv.setHandle s e { s.icache e with ref := (s.icache e).ref + 1 } h.inv hr
    (by dsimp only; omega) rfl rfl rfl
  have hnn := h.nonneg e
  obtain ⟨hs', hsame⟩ := @Session.change s₀ s _ δ L e h hinv rfl rfl rfl _ 1 hh rfl
    (fun _ => rfl) (by omega) fun _ => Int.lt_add_one_of_le hr.le
  have hlock : update L e (s.icache e).busy = L := by
    rw [h.busy e hr, update_eq_self]
  rw [Inode.handle, hlock] at hs'
  exact ⟨rfl, hs', hsame⟩

/-- The session after `iget`. -/
theorem Session.iget {i : Nat} (hg : Iget s i e s') (hi : s₀.view i ≠ none) :
    Session s₀ s' (δ + one e) L ∧ SameInodes s s' ∧ (s'.icache e).inum = i := by
  have hi' : i < s.sb.ninodes :=
    State.lt_ninodes_of_type (State.node_type_ne_of_view (h.view ▸ hi))
  obtain ⟨hinv, hsb, hview, hgot⟩ := hg.got h.inv hi'
  have hfree : s'.free = s.free := by cases hg <;> rfl
  have hnn := h.nonneg e
  have hh : s'.handle = update s.handle e (s'.handle e) := by
    funext x
    rcases eq_or_ne x e with rfl | hne
    · rw [update_self]
    · rw [update_of_ne hne, hgot.others x hne]
  rcases Classical.em (0 < (s.handle e).ref) with hr | hr
  · obtain ⟨hinum, hself⟩ := hgot.old hr
    rw [hself] at hh
    obtain ⟨hs', hsame⟩ := @Session.change s₀ s s' δ L e h hinv hsb hview hfree _ 1 hh rfl
      (fun _ => rfl) (by omega) fun _ => Int.lt_add_one_of_le hr.le
    have hlock : update L e (s.handle e).busy = L := by
      rw [show (s.handle e).busy = L e from h.busy e hr, update_eq_self]
    rw [hlock] at hs'
    exact ⟨hs', hsame, (congrArg Handle.inum hself).trans hinum⟩
  · obtain ⟨hzero, hself⟩ := hgot.new hr
    rw [hself] at hh
    have hopen : L e = false := Bool.eq_false_iff.2 fun hL => hr (h.locked e hL)
    obtain ⟨hs', hsame⟩ := @Session.change s₀ s s' δ L e h hinv hsb hview hfree _ 1 hh
      (by rw [show (s.icache e).ref = 0 from hzero]; rfl) (fun hr' => absurd hr' hr) (by omega)
      fun hc => Bool.noConfusion hc
    have hlock : update L e false = L := by rw [← hopen, update_eq_self]
    rw [hlock] at hs'
    exact ⟨hs', hsame, congrArg Handle.inum hself⟩

/-- Entries in use are for allocated inodes. -/
theorem Session.alloc (ht : s₀.Tree)
    (hδ : ∀ x, 0 < δ x → s₀.view (s.icache x).inum ≠ none) (x : Fin NINODE)
    (hx : 0 < (s.icache x).ref) : s₀.view (s.icache x).inum ≠ none := by
  rcases Int.lt_or_eq_of_le (h.base x) with hr | hr
  · rw [h.kept x hr]
    exact ht.alloc x hr
  · refine hδ x ?_
    have href := h.ref x
    omega

/-- `iunlockput` gives back both the lock and the reference. -/
theorem Session.iunlockput (hδ : 0 < δ e) (hb : L e = true) (hlive : s₀.Live (s.icache e).inum) :
    Sat (fun _ => False) (iunlockput e) s fun _ s' =>
      Session s₀ s' (δ - one e) (update L e false) ∧ SameInodes s s' := by
  have hr := h.locked e hb
  refine h.iunlock hb |>.bind ?_
  rintro _ s1 ⟨h1, hsame1⟩
  rw [← hsame1 e hr] at hlive
  refine (h1.iput hδ (update_self ..) hlive).weaken ?_
  rintro _ s2 ⟨h2, hsame2⟩
  exact ⟨h2, hsame1.trans hsame2 (h1.refs.trans h.refs.symm)⟩

/-- Free cache entries do not matter to a session. -/
theorem Session.recycled (hrec : s.Recycled s') : Session s₀ s' δ L ∧ SameInodes s s' := by
  rcases hrec with rfl | ⟨x, ip, hx, hip, rfl⟩
  · exact ⟨h, fun _ _ => rfl⟩
  have hself : (s.setInode x ip).icache x = ip := update_self ..
  have hother (y : Fin NINODE) (hne : y ≠ x) : (s.setInode x ip).icache y = s.icache y :=
    update_of_ne hne ..
  have hne {y : Fin NINODE} (hy : 0 < (s.icache y).ref) : y ≠ x := by
    rintro rfl
    omega
  have href (y : Fin NINODE) : ((s.setInode x ip).icache y).ref = (s.icache y).ref := by
    rcases eq_or_ne y x with rfl | hyx
    · rw [hself, hip, hx]
    · rw [hother y hyx]
  have hidle : ¬ 0 < ip.ref := by omega
  refine ⟨⟨h.inv.setInode hip.ge (absurd · hidle) (absurd · hidle) (absurd · hidle), h.sb, h.view,
    h.free, h.base, h.nonneg, (funext href).trans h.refs, fun y hy => ?_, fun y hy => ?_,
    fun y hy => ?_⟩, fun y hy => ?_⟩
  · rw [hother y (hne (h.pos hy)), h.kept y hy]
  · rw [href] at hy
    rw [hother y (hne hy), h.busy y hy]
  · rw [href]
    exact h.locked y hy
  · rw [hother y (hne hy)]

/-- A directory that has been locked. -/
theorem Session.isDir (hl : s.Loaded e) {v : Vnode}
    (hv : s₀.view (s.icache e).inum = some v) (ht : v.type = T_DIR)
    (hwhole : direntSize ∣ v.data.length) : s.IsDir e v.data := by
  have hview := h.inv.view_of_loaded hl
  rw [h.view, hv, Option.some_inj] at hview
  exact ⟨hl, (congrArg Vnode.type hview).symm.trans ht, (congrArg Vnode.data hview).symm, hwhole⟩

end

/-! ## Changing attributes -/

section
variable {s₀ s s' : State} {δ : Fin NINODE → Int} {L : Fin NINODE → Bool} {e : Fin NINODE} {w : Vnode}

theorem State.Tree.steady (h : s.Tree) : s.Steady :=
  ⟨h.inv, h.alloc, fun e hr hb => absurd ((h.idle e hr).symm.trans hb) (by simp)⟩

/-- The state at rest that goes with a session after a change of files. -/
def State.withCache (s s₀ : State) : State := { s with icache := s₀.icache }

/-- A session goes on after files have changed and the cache has not. -/
theorem Session.rebase (h : Session s₀ s δ L) (hinv : s'.Inv) (hh : s'.handle = s.handle) :
    Session (s'.withCache s₀) s' δ L := by
  have hhandle (x : Fin NINODE) : s'.handle x = s.handle x := congrFun hh x
  have href (x : Fin NINODE) : (s'.icache x).ref = (s.icache x).ref := congrArg Handle.ref (hhandle x)
  refine ⟨hinv, rfl, rfl, rfl, h.base, h.nonneg, (funext href).trans h.refs, fun x hx => ?_,
    fun x hx => ?_, fun x hx => ?_⟩
  · exact (congrArg Handle.inum (hhandle x)).trans (h.kept x hx)
  · exact (congrArg Handle.busy (hhandle x)).trans (h.busy x (href x ▸ hx))
  · rw [href]
    exact h.locked x hx

/-- `updateInode` of a locked inode. -/
theorem Session.updateInode (h : Session s₀ s δ L) (hl : s.Loaded e) {f : Inode → Inode}
    (hattr : (f (s.icache e)).type = (s.icache e).type ∧
      (f (s.icache e)).addrs = (s.icache e).addrs ∧ (f (s.icache e)).size = (s.icache e).size)
    (hh : (f (s.icache e)).handle = (s.icache e).handle) :
    Sat (fun _ => False) (updateInode e f) s fun _ s' => Session (s'.withCache s₀) s' δ L ∧
      s'.free = s₀.free ∧ s'.handle = s.handle ∧
      s'.view = update s₀.view (s.icache e).inum
        (some ((f (s.icache e)).vnode (s.store.data (s.icache e).inum))) := by
  refine (updateInode_spec h.inv hl hattr hh).weaken ?_
  rintro _ s' ⟨hinv, -, hfree, hhandle, hview⟩
  exact ⟨h.rebase hinv hhandle, hfree.trans h.free, hhandle, h.view ▸ hview⟩

/-- A tree is still one after the attributes of a file in use have changed. -/
theorem Session.tree (ht : s₀.Tree) (h : Session (s'.withCache s₀) s δ noLocks)
    (hr : 0 < (s.icache e).ref) (hw : s₀.view (s.icache e).inum = some w) {w' : Vnode}
    (htype : w'.type = w.type) (hdata : w'.data = w.data)
    (hview : s'.view = update s₀.view (s.icache e).inum (some w'))
    (hδ : ∀ x, 0 < δ x → s₀.view (s.icache x).inum ≠ none) : s.Tree := by
  have hview' : s.view = update s₀.view (s.icache e).inum (some w') := h.view.trans hview
  have hsome (i : Nat) (hi : s₀.view i ≠ none) : s.view i ≠ none := by
    rw [hview']
    rcases eq_or_ne i (s.icache e).inum with rfl | hne
    · rw [update_self]
      exact Option.some_ne_none w'
    · rwa [update_of_ne hne]
  have hlive (i : Nat) (hi : s₀.Live i) : s.Live i := by
    rcases eq_or_ne i (s.icache e).inum with rfl | hne
    · exact ⟨w', by rw [hview', update_self], .inr ⟨e, hr, rfl⟩⟩
    · obtain ⟨v, hv, hlinks | ⟨x, hx, hxi⟩⟩ := hi
      · exact ⟨v, by rw [hview', update_of_ne hne, hv], .inl hlinks⟩
      · exact ⟨v, by rw [hview', update_of_ne hne, hv],
          .inr ⟨x, h.pos hx, (h.kept x hx).trans hxi⟩⟩
  have hdir {i : Nat} {v : Vnode} (hv : s.view i = some v) :
      ∃ v0, s₀.view i = some v0 ∧ v0.type = v.type ∧ v0.data = v.data := by
    rw [hview'] at hv
    rcases eq_or_ne i (s.icache e).inum with rfl | hne
    · rw [update_self, Option.some_inj] at hv
      exact ⟨w, hw, hv ▸ htype.symm, hv ▸ hdata.symm⟩
    · rw [update_of_ne hne] at hv
      exact ⟨v, hv, rfl, rfl⟩
  refine ⟨h.inv, h.busy, fun x hx => ?_, hlive _ ht.root, fun i v hv hd => ?_,
    fun i v name j hv hd hj => ?_⟩
  · refine hsome _ ?_
    rcases Int.lt_or_eq_of_le (h.base x) with hpos | hzero
    · rw [h.kept x hpos]
      exact ht.alloc x hpos
    · refine hδ x ?_
      have href := h.ref x
      omega
  · obtain ⟨v0, hv0, ht0, hd0⟩ := hdir hv
    exact hd0 ▸ ht.whole i v0 hv0 (ht0.trans hd)
  · obtain ⟨v0, hv0, ht0, hd0⟩ := hdir hv
    exact hlive j (ht.entries i v0 name j hv0 (ht0.trans hd) (hd0 ▸ hj))

end

/-! ## Room in the cache -/

/-- The inodes in the cache. -/
def State.inUse (s : State) : Finset Nat :=
  (Finset.univ.filter fun e => 0 < (s.icache e).ref).image fun e => (s.icache e).inum

/-- The cache has room for these inodes, all at the same time. -/
def State.Fits (s : State) (held : Finset Nat) : Prop := (held ∪ s.inUse).card ≤ NINODE

theorem State.mem_inUse {s : State} {i : Nat} : i ∈ s.inUse ↔ s.Cached i := by
  simp only [State.inUse, mem_image, mem_filter, mem_univ, true_and]
  rfl

theorem State.Fits.mono {s : State} {held held' : Finset Nat} (h : s.Fits held) (hsub : held' ⊆ held) :
    s.Fits held' :=
  (card_le_card (union_subset_union_left hsub)).trans h

/-- `iget` of an inode finds an entry. -/
theorem State.Inv.cacheRoom_iff {s : State} (h : s.Inv) {i : Nat} : s.CacheRoom i ↔ s.Fits {i} := by
  have hcard : s.inUse.card = (univ.filter fun e => 0 < (s.icache e).ref).card := by
    refine card_image_of_injOn fun x hx y hy => h.unique x y ?_ ?_
    · exact (mem_filter.1 hx).2
    · exact (mem_filter.1 hy).2
  have hall : (univ : Finset (Fin NINODE)).card = NINODE := card_fin NINODE
  rw [State.Fits, singleton_union]
  by_cases hi : i ∈ s.inUse
  · obtain ⟨x, hx⟩ := State.mem_inUse.1 hi
    rw [insert_eq_of_mem hi, hcard]
    exact iff_of_true ⟨x, .inr hx⟩ ((card_filter_le ..).trans_eq hall)
  · rw [card_insert_of_notMem hi, hcard, Nat.succ_le_iff]
    constructor
    · rintro ⟨x, hx | hx⟩
      · refine (card_lt_card (filter_ssubset.2 ⟨x, mem_univ x, ?_⟩)).trans_eq
          hall
        omega
      · exact absurd (State.mem_inUse.2 ⟨x, hx⟩) hi
    · intro hlt
      by_contra hno
      refine hlt.ne ?_
      rw [filter_true_of_mem fun x _ => ?_, hall]
      have hx : (s.icache x).ref ≠ 0 := fun hx => hno ⟨x, .inl hx⟩
      have hnn := h.nonneg x
      omega

/-- A session with one reference to inode `a` takes up room for `a`. -/
theorem Session.fits_iff {s₀ s : State} {L : Fin NINODE → Bool} {e : Fin NINODE} {a : Nat}
    (h : Session s₀ s (one e) L) (ha : (s.icache e).inum = a) (held : Finset Nat) :
    s.Fits held ↔ s₀.Fits (insert a held) := by
  have huse : s.inUse = insert a s₀.inUse := by
    ext i
    rw [mem_insert, State.mem_inUse, State.mem_inUse]
    constructor
    · rintro ⟨x, hx, hxi⟩
      rcases eq_or_ne x e with rfl | hne
      · exact .inl (hxi.symm.trans ha)
      · rw [h.ref, one, Pi.single_eq_of_ne hne, add_zero] at hx
        exact .inr ⟨x, hx, (h.kept x hx).symm.trans hxi⟩
    · rintro (rfl | ⟨x, hx, hxi⟩)
      · exact ⟨e, h.pos_of (one_self_pos e), ha⟩
      · exact ⟨x, h.pos hx, (h.kept x hx).trans hxi⟩
  rw [State.Fits, State.Fits, huse, union_insert, insert_union]

/-- With a reference to inode `a` taken, the cache has room for inode `b`. -/
theorem Session.cacheRoom_iff {s₀ s : State} {L : Fin NINODE → Bool} {e : Fin NINODE} {a b : Nat}
    (h : Session s₀ s (one e) L) (ha : (s.icache e).inum = a) :
    s.CacheRoom b ↔ s₀.Fits {a, b} :=
  h.inv.cacheRoom_iff.trans (h.fits_iff ha {b})

end TronBoss.Fs
