import TronBoss.Fs.InodeSpec
import TronBoss.Fs.Sysfile
import TronBoss.Log.Log

/-!
# The structure of the file system

The operations on inodes as steps of a machine, in any order their callers may use them: an inode is
read, written and updated while it is locked, and a reference is put by who holds it. From a
well-formed disk every run keeps the disk well formed and the cache in step with it.
-/

namespace TronBoss.Fs

open Lib Function

/-- The fields of an inode that callers assign before `iupdate`. -/
structure Attrs where
  major : Int16
  minor : Int16
  nlink : Int16
  uid : UInt16
  gid : UInt16
  mode : UInt32

/-- Assignments to the fields of an inode. -/
def Attrs.assign (a : Attrs) (ip : Inode) : Inode :=
  { ip with major := a.major, minor := a.minor, nlink := a.nlink,
            uid := a.uid, gid := a.gid, mode := a.mode }

/-- The attributes of a file. -/
def Vnode.attrs (v : Vnode) : Attrs := ⟨v.major, v.minor, v.nlink, v.uid, v.gid, v.mode⟩

/-- An operation on inodes. -/
inductive InodeOp where
  | ialloc (type : Int16)
  | iget (inum : Nat)
  | idup (e : Fin NINODE)
  | ilock (e : Fin NINODE)
  | iunlock (e : Fin NINODE)
  | readi (e : Fin NINODE) (off n : Nat)
  | writei (e : Fin NINODE) (src : List UInt8) (off : Nat)
  | iupdate (e : Fin NINODE) (attrs : Attrs)
  | iput (e : Fin NINODE)

/-- The entry is in use and locked. -/
def State.Locked (s : State) (e : Fin NINODE) : Prop :=
  0 < (s.icache e).ref ∧ (s.icache e).busy = true

instance (s : State) (e : Fin NINODE) : Decidable (s.Locked e) := inferInstanceAs (Decidable (_ ∧ _))

/-- What a caller has to see to before the operation. Inode numbers come from directory entries,
which name allocated inodes. Who puts a locked inode is not who locked it, so there is another
reference. -/
def InodeOp.Enabled (s : State) : InodeOp → Prop
  | .ialloc type => type ≠ 0
  | .iget inum => (s.node inum).type ≠ 0
  | .idup e => 0 < (s.icache e).ref
  | .ilock e => 0 < (s.icache e).ref ∧ (s.icache e).busy = false
  | .iunlock e => s.Locked e
  | .readi e _ _ => s.Locked e
  | .writei e _ _ => s.Locked e
  | .iupdate e _ => s.Locked e
  | .iput e => 0 < (s.icache e).ref ∧ ((s.icache e).busy = true → 1 < (s.icache e).ref)

instance (s : State) : (op : InodeOp) → Decidable (op.Enabled s)
  | .ialloc type => inferInstanceAs (Decidable (type ≠ 0))
  | .iget inum => inferInstanceAs (Decidable ((s.node inum).type ≠ 0))
  | .idup e => inferInstanceAs (Decidable (0 < (s.icache e).ref))
  | .ilock _ => inferInstanceAs (Decidable (_ ∧ _))
  | .iunlock e => inferInstanceAs (Decidable (s.Locked e))
  | .readi e _ _ => inferInstanceAs (Decidable (s.Locked e))
  | .writei e _ _ => inferInstanceAs (Decidable (s.Locked e))
  | .iupdate e _ => inferInstanceAs (Decidable (s.Locked e))
  | .iput _ => inferInstanceAs (Decidable (_ ∧ (_ → _)))

/-- The operation. -/
def InodeOp.run : InodeOp → FsM Unit
  | .ialloc type => discard (Fs.ialloc type)
  | .iget inum => discard (Fs.iget inum)
  | .idup e => discard (Fs.idup e)
  | .ilock e => Fs.ilock e
  | .iunlock e => Fs.iunlock e
  | .readi e off n => discard (Fs.readi e off n)
  | .writei e src off => discard (Fs.writei e src off)
  | .iupdate e attrs => updateInode e attrs.assign
  | .iput e => Fs.iput e

/-- A step of the machine. -/
def InodeOp.step (op : InodeOp) : FsM Unit := do
  let s ← get
  require (op.Enabled s)
  op.run

/-! ## The invariant of runs -/

/-- The invariant, and what the callers' discipline adds: entries in use are for allocated inodes,
and a locked inode has been loaded. -/
structure State.Steady (s : State) : Prop where
  inv : s.Inv
  live : ∀ e, 0 < (s.handle e).ref → s.view (s.handle e).inum ≠ none
  loaded : ∀ e, 0 < (s.handle e).ref → (s.handle e).busy = true → (s.handle e).valid = true

section
variable {s s' : State} {e : Fin NINODE} {E : Stop → Prop}

theorem State.Steady.of_locked (h : s.Steady) (hl : s.Locked e) : s.Loaded e :=
  ⟨hl.1, h.loaded e hl.1 hl.2⟩

theorem State.node_type_ne_of_view {i : Nat} (h : s.view i ≠ none) : (s.node i).type ≠ 0 :=
  fun ht => h (Store.view_of_free ht)

theorem State.lt_ninodes_of_type {i : Nat} (h : (s.node i).type ≠ 0) : i < s.sb.ninodes :=
  Classical.byContradiction fun hge => h (congrArg Dinode.type (if_neg hge))

/-- Entry `e` changes, and no inode goes away. -/
theorem State.Steady.assign {x : Handle} (h : s.Steady) (hinv : s'.Inv)
    (hview : ∀ i, s.view i ≠ none → s'.view i ≠ none)
    (hhandle : s'.handle = update s.handle e x)
    (hlive : 0 < x.ref → s'.view x.inum ≠ none)
    (hloaded : 0 < x.ref → x.busy = true → x.valid = true) : s'.Steady := by
  refine ⟨hinv, fun e' => ?_, fun e' => ?_⟩
  · rw [hhandle]
    rcases eq_or_ne e' e with rfl | hne
    · rw [update_self]
      exact hlive
    · rw [update_of_ne hne]
      exact fun hr => hview _ (h.live e' hr)
  · rw [hhandle]
    rcases eq_or_ne e' e with rfl | hne
    · rw [update_self]
      exact hloaded
    · rw [update_of_ne hne]
      exact h.loaded e'

/-- The entry that `iget` returns is for an allocated inode. -/
theorem State.Steady.got {i : Nat} (h : s.Steady) (hinv : s'.Inv)
    (hview : ∀ i, s.view i ≠ none → s'.view i ≠ none) (hgot : Got s s' e i)
    (hi : s'.view i ≠ none) : s'.Steady := by
  have hhandle : s'.handle = update s.handle e (s'.handle e) := by
    funext e'
    rcases eq_or_ne e' e with rfl | hne
    · rw [update_self]
    · rw [update_of_ne hne, hgot.others e' hne]
  rcases Classical.em (0 < (s.handle e).ref) with hr | hr
  · obtain ⟨hinum, hold⟩ := hgot.old hr
    rw [hold] at hhandle
    exact h.assign hinv hview hhandle (fun _ => hinum ▸ hi) fun _ => h.loaded e hr
  · rw [(hgot.new hr).2] at hhandle
    exact h.assign hinv hview hhandle (fun _ => hi) fun _ hb => absurd hb (by simp)

/-- What an operation leaves of a file: its attributes, unless it is an `iupdate`, or nothing. -/
def InodeOp.Leaves (op : InodeOp) (s s' : State) : Prop :=
  ∀ i v, s.view i = some v → s'.view i = none ∨ ∃ v', s'.view i = some v' ∧
    (v'.attrs = v.attrs ∨ ∃ e, op = .iupdate e v'.attrs ∧ (s.icache e).inum = i)

theorem InodeOp.leaves_of_eq {op : InodeOp} (hview : s'.view = s.view) : op.Leaves s s' :=
  fun _ v hv => .inr ⟨v, hview ▸ hv, .inl rfl⟩

/-- An operation that changes one file leaves the others as they are. -/
theorem InodeOp.leaves_of_update {op : InodeOp} {i : Nat} {x : Option Vnode}
    (hview : s'.view = update s.view i x)
    (hx : ∀ v, s.view i = some v → x = none ∨ ∃ v', x = some v' ∧
      (v'.attrs = v.attrs ∨ ∃ e, op = .iupdate e v'.attrs ∧ (s.icache e).inum = i)) :
    op.Leaves s s' := by
  intro j v hv
  rw [hview]
  rcases eq_or_ne j i with rfl | hne
  · rw [update_self]
    exact hx v hv
  · rw [update_of_ne hne]
    exact .inr ⟨v, hv, .inl rfl⟩

/-- Every operation keeps the invariant, and stops only for lack of space. -/
theorem InodeOp.run_steady {op : InodeOp} (h : s.Steady) (hop : op.Enabled s) :
    Sat OutOfSpace op.run s fun _ s' => s'.Steady ∧ op.Leaves s s' := by
  have hE : ∀ e, OutOfSpace e → OutOfSpace e := fun _ he => he
  have hput {s' : State} {e : Fin NINODE} {v : Vnode} (hinv : s'.Inv)
      (hhandle : s'.handle = s.handle)
      (hview : s'.view = update s.view (s.icache e).inum (some v)) : s'.Steady := by
    have hviews (i : Nat) (hi : s.view i ≠ none) : s'.view i ≠ none := by
      rw [hview]
      rcases eq_or_ne i (s.icache e).inum with rfl | hne
      · rw [update_self]
        simp
      · rwa [update_of_ne hne]
    refine ⟨hinv, fun e' hr => ?_, fun e' => ?_⟩
    · rw [hhandle] at hr ⊢
      exact hviews _ (h.live e' hr)
    · rw [hhandle]
      exact h.loaded e'
  cases op with
  | ialloc type =>
    refine sat_discard.2 ((ialloc_spec hE h.inv hop).weaken fun e s' hs' => ?_)
    obtain ⟨hinv, -, i, hi⟩ := hs'
    have hself : s'.view i ≠ none := by
      rw [hi.view, update_self]
      simp
    refine ⟨h.got hinv (fun j hj => ?_) hi.got hself, leaves_of_update hi.view fun v hv => ?_⟩
    · rcases eq_or_ne j i with rfl | hne
      · exact hself
      · rwa [hi.view, update_of_ne hne]
    · rw [hi.free] at hv
      cases hv
  | iget inum =>
    refine sat_discard.2 ((iget_spec hE h.inv (State.lt_ninodes_of_type hop)).weaken fun e s' hs' => ?_)
    obtain ⟨hinv, -, hview, hgot⟩ := hs'
    refine ⟨h.got hinv (fun j hj => hview ▸ hj) hgot ?_, leaves_of_eq hview⟩
    have hsome : s.view inum = _ := Store.view_of_type hop
    rw [hview, hsome]
    simp
  | idup e =>
    refine sat_discard.2 ((idup_spec h.inv hop).weaken fun e' s' hs' => ?_)
    obtain ⟨-, hinv, -, hview, hhandle⟩ := hs'
    refine ⟨h.assign hinv (fun j hj => hview ▸ hj) hhandle (fun _ => ?_) fun _ => h.loaded e hop,
      leaves_of_eq hview⟩
    exact hview ▸ h.live e hop
  | ilock e =>
    have ha := State.node_type_ne_of_view (h.live e hop.1)
    refine (ilock_spec h.inv (.inl hop.1) (.inl hop.2) (.inl ha)).weaken fun _ s' hs' => ?_
    obtain ⟨hinv, -, hview, -, -, -, hhandle⟩ := hs'
    refine ⟨h.assign hinv (fun j hj => hview ▸ hj) hhandle (fun hr => ?_) fun _ _ => rfl,
      leaves_of_eq hview⟩
    exact hview ▸ h.live e hr
  | iunlock e =>
    refine (iunlock_spec h.inv hop.1 hop.2).weaken fun _ s' hs' => ?_
    obtain ⟨hinv, -, hview, hhandle⟩ := hs'
    refine ⟨h.assign hinv (fun j hj => hview ▸ hj) hhandle (fun hr => ?_)
      (fun _ hb => Bool.noConfusion hb), leaves_of_eq hview⟩
    exact hview ▸ h.live e hr
  | readi e off n =>
    refine sat_discard.2 ((readi_frame h.inv (h.of_locked hop) off n).weaken fun _ s' hs' => ?_)
    obtain ⟨console, rfl⟩ := hs'
    exact ⟨⟨⟨h.inv.store, h.inv.inum, h.inv.unique, h.inv.nonneg, h.inv.valid⟩, h.live, h.loaded⟩,
      leaves_of_eq rfl⟩
  | writei e src off =>
    have hl := h.of_locked hop
    refine sat_discard.2 ((writei_inv hE h.inv hl).weaken fun _ s' hs' => ?_)
    obtain ⟨hinv, -, hhandle, data, hview⟩ := hs'
    refine ⟨hput hinv hhandle hview, leaves_of_update hview fun v hv => .inr ⟨_, rfl, .inl ?_⟩⟩
    rw [h.inv.view_of_loaded hl] at hv
    rw [← Option.some.inj hv]
    rfl
  | iupdate e attrs =>
    have hl := h.of_locked hop
    refine (updateInode_spec h.inv hl ⟨rfl, rfl, rfl⟩ rfl).weaken fun _ s' hs' => ?_
    obtain ⟨hinv, -, -, hhandle, hview⟩ := hs'
    exact ⟨hput hinv hhandle hview, leaves_of_update hview fun v hv =>
      .inr ⟨_, rfl, .inr ⟨e, rfl, rfl⟩⟩⟩
  | iput e =>
    have hb : (s.icache e).ref = 1 → (s.icache e).busy = false := fun h1 =>
      Bool.eq_false_iff.2 fun hb => absurd (hop.2 hb) (by omega)
    refine (iput_spec h.inv hop.1 fun h1 => .inl (hb h1)).weaken fun _ s' hs' => ?_
    obtain ⟨hinv, -, ⟨hview, hhandle⟩ | ⟨v, -, -, -, hview, hhandle⟩⟩ := hs'
    · refine ⟨h.assign hinv (fun j hj => hview ▸ hj) hhandle (fun _ => ?_) fun _ => h.loaded e hop.1,
        leaves_of_eq hview⟩
      exact hview ▸ h.live e hop.1
    · refine ⟨⟨hinv, fun e' hr => ?_, fun e' => ?_⟩, leaves_of_update hview fun _ _ => .inl rfl⟩
      · rcases eq_or_ne e' e with rfl | hne
        · rw [hhandle, update_self] at hr
          cases hr
        · rw [hhandle, update_of_ne hne] at hr ⊢
          have hi : (s.handle e').inum ≠ (s.icache e).inum := fun heq =>
            hne (h.inv.unique e' e hr hop.1 heq)
          rw [hview, update_of_ne hi]
          exact h.live e' hr
      · rw [hhandle]
        rcases eq_or_ne e' e with rfl | hne
        · rw [update_self]
          intro hr
          cases hr
        · rw [update_of_ne hne]
          exact h.loaded e'

end

/-- A well-formed disk with an empty cache. -/
theorem steady_iinit {disk : Nat → Block} {console : Nat → Option (List UInt8)}
    (h : (iinit disk console).store.Wf) : (iinit disk console).Steady := by
  have hfree : ∀ e, ¬ 0 < ((iinit disk console).handle e).ref := fun _ hr => by cases hr
  exact ⟨⟨h, fun e hr => absurd hr (hfree e), fun e _ hr => absurd hr (hfree e),
    fun _ => le_rfl, fun e hr => absurd hr (hfree e)⟩, fun e hr => absurd hr (hfree e),
    fun e hr => absurd hr (hfree e)⟩

theorem InodeOp.step_steady (op : InodeOp) {s : State} (hs : s.Steady) :
    Sat (fun e => OutOfSpace e ∨ e = .disabled) op.step s fun _ s' => s'.Steady ∧ op.Leaves s s' := by
  rw [InodeOp.step, sat_get_bind, sat_require_bind]
  exact ⟨fun _ => .inr rfl, fun hop => (op.run_steady hs hop).mono (fun _ => .inl) fun _ _ => id⟩

/-- Every sequence of operations keeps a steady state. -/
theorem steady_run {s : State} (h : s.Steady) (ops : List InodeOp) :
    Sat (fun e => OutOfSpace e ∨ e = .disabled) (ops.forM InodeOp.step) s fun _ s' => s'.Steady :=
  Sat.run (fun op _ hs => (op.step_steady hs).weaken fun _ _ hs' => hs'.1) h

/-- From a well-formed disk, every sequence of operations on inodes stops only for lack of space (or
because it is not one that callers make). In every state it leads to, the block numbers that
allocated inodes hold are data blocks and held once, the free map marks the metadata and these
blocks, exactly the blocks below the size of a file are mapped, and valid cache entries equal the
inodes on disk. So reading never allocates: it returns, and leaves disk and cache alone. -/
theorem file_system_structure {disk : Nat → Block} {console : Nat → Option (List UInt8)}
    (h : (iinit disk console).store.Wf) (ops : List InodeOp) :
    (∀ e, (ops.forM InodeOp.step) (iinit disk console) = .error e →
      OutOfSpace e ∨ e = .disabled) ∧
    ∀ s, (ops.forM InodeOp.step) (iinit disk console) = .ok ((), s) →
      (∀ x, s.store.own x ≠ 0 → s.sb.nmeta ≤ s.store.own x ∧ s.store.own x < s.sb.size) ∧
      Exclusive s.store.own ∧
      Bitmap s.sb s.disk (held s.store.own) ∧
      (s.store.Mapped fun i => blocksFor (s.node i).size.toNat) ∧
      (∀ e, 0 < (s.icache e).ref → (s.icache e).valid = true →
        (s.icache e).toDinode = s.node (s.icache e).inum) ∧
      ∀ e off n, s.Locked e → ∃ r console, readi e off n s = .ok (r, { s with console }) := by
  have hrun := steady_run (steady_iinit h) ops
  refine ⟨fun e he => hrun.of_error he, fun s hs => ?_⟩
  have hsteady := hrun.of_ok hs
  have hinv := hsteady.inv
  refine ⟨hinv.store.inv.area, hinv.store.inv.excl, hinv.store.inv.bitmap, hinv.store.mapped,
    fun e hr hv => (hinv.valid e hr hv).1, fun e off n hl => ?_⟩
  obtain ⟨r, s', hr, console, rfl⟩ :=
    Sat.returns (readi_frame hinv (hsteady.of_locked hl) off n)
  exact ⟨r, console, hr⟩

/-! ## A small disk -/

/-- A disk without allocated inodes is well formed if the free map marks the metadata. -/
theorem wf_of_blank {disk : Nat → Block} {console : Nat → Option (List UInt8)} {sb : Superblock}
    (hsb : (iinit disk console).sb = sb) (hok : sb.Ok)
    (hfree : ∀ i < sb.ninodes, ((iinit disk console).node i).type = 0)
    (hmap : ∀ b < sb.size, (disk sb.bmapstart).bit b = true ↔ b < sb.nmeta) :
    (iinit disk console).store.Wf := by
  have htype (i : Nat) : ((iinit disk console).store.node i).type = 0 := by
    rcases Nat.lt_or_ge i sb.ninodes with hi | hi
    · exact hfree i hi
    · have hge : ¬ i < (iinit disk console).sb.ninodes := by
        rw [hsb]
        exact Nat.not_lt.2 hi
      exact congrArg Dinode.type (if_neg hge)
  have hown (x : Nat × Slot) : (iinit disk console).store.own x = 0 :=
    Store.own_of_free (htype x.1)
  refine ⟨⟨?_, rfl, fun x _ hx => absurd (hown x) hx, fun x hx => absurd (hown x) hx, ?_⟩,
    fun i hi => absurd (htype i) hi, fun i hi => absurd (htype i) hi⟩
  · show (iinit disk console).sb.Ok
    rw [hsb]
    exact hok
  · show Bitmap (iinit disk console).sb disk _
    rw [hsb]
    intro b hb
    refine (hmap b hb).trans ⟨.inl, fun hb' => hb'.resolve_right ?_⟩
    rintro ⟨h0, x, hx⟩
    exact h0 (hx.symm.trans (hown x))

/-- The super block of a disk with the parts that `mkfs` gives it and so many data blocks and
inodes. -/
def laidOut (nblocks ninodes : Nat) : Superblock where
  size := LOGSIZE + ninodes / IPB + 4 + nblocks
  nblocks := nblocks
  ninodes := ninodes
  nlog := LOGSIZE
  logstart := 2
  inodestart := 2 + LOGSIZE
  bmapstart := LOGSIZE + ninodes / IPB + 3

/-- That disk: every inode and every data block is free. -/
def blankDisk (nblocks ninodes b : Nat) : Block :=
  let sb := laidOut nblocks ninodes
  if b = 1 then Bytes.zero.write 0 sb.encode
  else if b = sb.bmapstart then
    Bytes.zero.write 0 (List.replicate (sb.nmeta / 8) 0xff ++ [UInt8.ofNat (2 ^ (sb.nmeta % 8) - 1)])
  else .zero

/-- `iinit` finds what `blankDisk` says. -/
def Blank (nblocks ninodes : Nat) : Prop :=
  let sb := laidOut nblocks ninodes
  let s := iinit (blankDisk nblocks ninodes) fun _ => none
  s.sb = sb ∧ sb.size ≤ FSSIZE ∧ (∀ i < ninodes, (s.node i).type = 0) ∧
    ∀ b < sb.size, (s.disk sb.bmapstart).bit b = true ↔ b < sb.nmeta

instance (nblocks ninodes : Nat) : Decidable (Blank nblocks ninodes) :=
  inferInstanceAs (Decidable (_ ∧ _))

theorem Blank.wf {nblocks ninodes : Nat} (h : Blank nblocks ninodes) :
    (iinit (blankDisk nblocks ninodes) fun _ => none).store.Wf := by
  obtain ⟨hsb, hsize, hfree, hmap⟩ := h
  refine wf_of_blank hsb ⟨Nat.le_add_right 2 LOGSIZE, ?_, ?_, Nat.le_add_left .., hsize⟩ hfree hmap
  · have hIPB : IPB = 8 := rfl
    simp only [laidOut, hIPB]
    omega
  · simp only [laidOut, Superblock.nmeta]
    omega

/-- A file is created, gets contents and a link, is read, and is freed when it is put without a
link. -/
def smallRun : List InodeOp :=
  [.ialloc T_FILE, .ilock rootEntry, .writei rootEntry [1, 2, 3] 0,
    .iupdate rootEntry ⟨0, 0, 0, 0, 0, 0⟩, .readi rootEntry 1 2, .iunlock rootEntry,
    .iput rootEntry]

/-- The run is one that callers make, and the disk is not full. -/
theorem file_system_structure_smallRun :
    stop? ((smallRun.forM InodeOp.step) (iinit (blankDisk 4 8) fun _ => none)) = none ∧
    ∀ s, (smallRun.forM InodeOp.step) (iinit (blankDisk 4 8) fun _ => none) = .ok ((), s) →
      Exclusive s.store.own :=
  ⟨by decide +kernel, fun s hs =>
    ((file_system_structure (Blank.wf (by decide +kernel)) smallRun).2 s hs).2.1⟩

/-- The cache entry after the one of the root directory. -/
def nextEntry : Fin NINODE := ⟨1, one_lt_NINODE⟩

/-- The second of two new files is linked and put, and so is the first; then the second is got again,
in the first entry, and gets another link. -/
def staleRun : List InodeOp :=
  [.ialloc T_FILE, .ialloc T_FILE, .ilock nextEntry, .iupdate nextEntry ⟨0, 0, 1, 0, 0, 0⟩,
    .iunlock nextEntry, .iput nextEntry, .iput rootEntry, .iget 2, .ilock rootEntry,
    .iupdate rootEntry ⟨0, 0, 2, 0, 0, 0⟩, .iunlock rootEntry]

/-- The entry that was put still has `I_VALID`, and not the inode that is on disk. -/
theorem entry_stale_staleRun : ∃ s,
    (staleRun.forM InodeOp.step) (iinit (blankDisk 4 8) fun _ => none) = .ok ((), s) ∧
    (s.icache nextEntry).ref = 0 ∧ (s.icache nextEntry).valid = true ∧
    (s.icache nextEntry).inum = 2 ∧ (s.icache nextEntry).toDinode ≠ s.node 2 := by
  have hrun : ((staleRun.forM InodeOp.step) (iinit (blankDisk 4 8) fun _ => none)).toOption.any
      (fun r => decide ((r.2.icache nextEntry).ref = 0 ∧ (r.2.icache nextEntry).valid = true ∧
        (r.2.icache nextEntry).inum = 2 ∧ (r.2.icache nextEntry).toDinode.nlink = 1 ∧
        (r.2.node 2).nlink = 2)) = true := by
    decide +kernel
  obtain ⟨⟨_, s⟩, hs, hf⟩ := exists_ok hrun
  obtain ⟨href, hvalid, hinum, hold, hnew⟩ := of_decide_eq_true hf
  refine ⟨s, hs, href, hvalid, hinum, fun he => ?_⟩
  rw [he, hnew] at hold
  exact absurd hold (by decide)

end TronBoss.Fs
