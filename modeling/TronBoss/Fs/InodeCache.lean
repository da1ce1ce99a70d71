import TronBoss.Fs.Fs

/-!
# The inode cache under interleavings

`icache` of `fs.c` for any number of processes. A step is a section under `icache.lock`, or an access
to a dinode, which the lock of its buffer makes atomic. `iput` gives up `icache.lock` while it frees an
inode, and `ialloc` takes a dinode before it looks for a cache entry; these are steps of their own. The
processes keep to the protocol of the file system: they change an inode only while they hold it,
call `iupdate` before `iunlock`, and nobody gives up the last reference to an inode that someone
holds. `holds` and `changed` record this; the source has only the flag `I_BUSY`.
-/

namespace TronBoss.Icache

open Lib Function
open Fs (NINODE Dinode NDIRECT)

/-- `struct inode`. The fields that are copied from the disk are a dinode. -/
structure Inode where
  dev : UInt32
  inum : UInt32
  ref : Int
  busy : Bool
  valid : Bool
  din : Dinode

/-- What `iget` makes of an entry that it recycles. -/
def Inode.recycled (ip : Inode) (dev inum : UInt32) : Inode :=
  { ip with dev := dev, inum := inum, ref := 1, busy := false, valid := false }

/-- Where a process is. -/
inductive Pc where
  | run
  /-- In `ilock`, with `I_BUSY` set. -/
  | locking (e : Fin NINODE)
  /-- In `iput`, before `itrunc`. -/
  | truncating (e : Fin NINODE)
  /-- In `iput`, after `itrunc`. -/
  | zeroing (e : Fin NINODE)
  /-- In `iput`, after `iupdate`. -/
  | freed (e : Fin NINODE)
  /-- In the loop of `ialloc`. -/
  | scanning (dev : UInt32) (type : Int16) (inum : UInt32)
  /-- In `ialloc`, before `iget`. -/
  | allocated (dev inum : UInt32)
  deriving DecidableEq

/-- The cache, the dinodes, and what the processes do. -/
structure Sys (T : Type) where
  inode : Fin NINODE → Inode
  disk : UInt32 → UInt32 → Dinode
  ninodes : Nat
  holds : T → Fin NINODE → Bool
  changed : Fin NINODE → Bool
  pc : T → Pc

/-- The zeroed cache over a disk. -/
def Sys.boot (T : Type) (disk : UInt32 → UInt32 → Dinode) (ninodes : Nat) : Sys T where
  inode _ := { dev := 0, inum := 0, ref := 0, busy := false, valid := false, din := .zero }
  disk := disk
  ninodes := ninodes
  holds _ _ := false
  changed _ := false
  pc _ := .run

/-- What a process does. -/
inductive Act (T : Type) where
  | iget (t : T) (dev inum : UInt32)
  | idup (t : T) (e : Fin NINODE)
  | ilock (t : T) (e : Fin NINODE)
  | load (t : T)
  | modify (t : T) (e : Fin NINODE) (din : Dinode)
  | iupdate (t : T) (e : Fin NINODE)
  | iunlock (t : T) (e : Fin NINODE)
  | iput (t : T) (e : Fin NINODE)
  | itrunc (t : T)
  | izero (t : T)
  | iputEnd (t : T)
  | ialloc (t : T) (dev : UInt32) (type : Int16)
  | scan (t : T)
  | iallocGet (t : T)

section
variable {T : Type} [DecidableEq T]

def Sys.setInode (s : Sys T) (e : Fin NINODE) (x : Inode) : Sys T :=
  { s with inode := update s.inode e x }

def Sys.setPc (s : Sys T) (t : T) (pc : Pc) : Sys T :=
  { s with pc := update s.pc t pc }

/-- The process gets an inode or gives it up. -/
def Sys.setHolds (s : Sys T) (t : T) (e : Fin NINODE) (v : Bool) : Sys T :=
  { s with holds := update s.holds t (update (s.holds t) e v) }

/-- The dinode of a number is written. -/
def Sys.setDisk (s : Sys T) (dev inum : UInt32) (d : Dinode) : Sys T :=
  { s with disk := update s.disk dev (update (s.disk dev) inum d) }

def Sys.setChanged (s : Sys T) (e : Fin NINODE) (v : Bool) : Sys T :=
  { s with changed := update s.changed e v }

def iget (dev inum : UInt32) (s : Sys T) : Except Stop (Fin NINODE × Sys T) :=
  match (List.finRange NINODE).find? fun e =>
      0 < (s.inode e).ref ∧ (s.inode e).dev = dev ∧ (s.inode e).inum = inum with
  | some e => .ok (e, s.setInode e { s.inode e with ref := (s.inode e).ref + 1 })
  | none =>
    match (List.finRange NINODE).find? fun e => (s.inode e).ref = 0 with
    | some e => .ok (e, s.setInode e ((s.inode e).recycled dev inum))
    | none => .error (.panic "iget: no inodes")

/-- `iupdate`: the inode goes to the disk. -/
def iupdate (e : Fin NINODE) (s : Sys T) : Sys T :=
  (s.setDisk (s.inode e).dev (s.inode e).inum (s.inode e).din).setChanged e false

/-- `itrunc`, as far as it changes the inode. -/
def truncated (d : Dinode) : Dinode := { d with addrs := fun _ => 0, size := 0 }

/-- The first section of `ilock`, when the inode is not busy. -/
def ilock (t : T) (e : Fin NINODE) (s : Sys T) : Except Stop (Sys T) := do
  require (s.pc t = .run)
  panicIf ((s.inode e).ref < 1) "ilock"
  require ((s.inode e).busy = false)
  return ((s.setInode e { s.inode e with busy := true }).setHolds t e true).setPc t (.locking e)

/-- The rest of `ilock`. -/
def load (t : T) (s : Sys T) : Except Stop (Sys T) :=
  match s.pc t with
  | .locking e =>
    if (s.inode e).valid then return s.setPc t .run
    else do
      let ip := s.inode e
      let ip := { ip with din := s.disk ip.dev ip.inum, valid := true }
      panicIf (ip.din.type = 0) "ilock: no type"
      return ((s.setInode e ip).setChanged e false).setPc t .run
  | _ => throw .disabled

def iunlock (t : T) (e : Fin NINODE) (s : Sys T) : Except Stop (Sys T) := do
  require (s.pc t = .run ∧ s.holds t e = true ∧ s.changed e = false)
  panicIf ((s.inode e).busy = false ∨ (s.inode e).ref < 1) "iunlock"
  return (s.setInode e { s.inode e with busy := false }).setHolds t e false

/-- The first section of `iput`. -/
def iput (t : T) (e : Fin NINODE) (s : Sys T) : Except Stop (Sys T) := do
  require (s.pc t = .run ∧ 0 < (s.inode e).ref)
  let ip := s.inode e
  if ip.ref = 1 ∧ ip.valid = true ∧ ip.din.nlink = 0 then
    panicIf (ip.busy = true) "iput busy"
    return ((s.setInode e { ip with busy := true }).setHolds t e true).setPc t (.truncating e)
  else
    -- whoever holds the inode has a reference of their own
    require (ip.busy = true → 1 < ip.ref)
    return s.setInode e { ip with ref := ip.ref - 1 }

/-- The call of `itrunc` in `iput`. -/
def itrunc (t : T) (s : Sys T) : Except Stop (Sys T) :=
  match s.pc t with
  | .truncating e =>
    return (iupdate e (s.setInode e { s.inode e with din := truncated (s.inode e).din })).setPc t
      (.zeroing e)
  | _ => throw .disabled

/-- `ip->type = 0` and `iupdate` in `iput`. -/
def izero (t : T) (s : Sys T) : Except Stop (Sys T) :=
  match s.pc t with
  | .zeroing e =>
    let ip := s.inode e
    return (iupdate e (s.setInode e { ip with din := { ip.din with type := 0 } })).setPc t (.freed e)
  | _ => throw .disabled

/-- The last section of `iput`, after it has freed the inode. -/
def iputEnd (t : T) (s : Sys T) : Except Stop (Sys T) :=
  match s.pc t with
  | .freed e =>
    let ip := s.inode e
    let ip := { ip with busy := false, valid := false, ref := ip.ref - 1 }
    return ((s.setInode e ip).setHolds t e false).setPc t .run
  | _ => throw .disabled

/-- One turn of the loop of `ialloc`. -/
def scan (t : T) (s : Sys T) : Except Stop (Sys T) :=
  match s.pc t with
  | .scanning dev type inum => do
    panicIf (s.ninodes ≤ inum.toNat) "ialloc: no inodes"
    if (s.disk dev inum).type = 0 then
      return (s.setDisk dev inum { Dinode.zero with type }).setPc t (.allocated dev inum)
    else return s.setPc t (.scanning dev type (inum + 1))
  | _ => throw .disabled

/-- One step. -/
def Sys.step (s : Sys T) : Act T → Except Stop (Sys T)
  | .iget t dev inum => do
    require (s.pc t = .run)
    let (_, s) ← iget dev inum s
    return s
  | .idup t e => do
    require (s.pc t = .run ∧ 0 < (s.inode e).ref)
    return s.setInode e { s.inode e with ref := (s.inode e).ref + 1 }
  | .ilock t e => ilock t e s
  | .load t => load t s
  | .modify t e din => do
    require (s.pc t = .run ∧ s.holds t e = true ∧ din.type ≠ 0)
    return (s.setInode e { s.inode e with din }).setChanged e true
  | .iupdate t e => do
    require (s.pc t = .run ∧ s.holds t e = true)
    return iupdate e s
  | .iunlock t e => iunlock t e s
  | .iput t e => iput t e s
  | .itrunc t => itrunc t s
  | .izero t => izero t s
  | .iputEnd t => iputEnd t s
  | .ialloc t dev type => do
    require (s.pc t = .run)
    return s.setPc t (.scanning dev type 1)
  | .scan t => scan t s
  | .iallocGet t =>
    match s.pc t with
    | .allocated dev inum => do
      let (_, s) ← iget dev inum s
      return s.setPc t .run
    | _ => throw .disabled

/-- The states of the interleavings. -/
inductive Sys.Reachable : Sys T → Prop where
  | boot (disk : UInt32 → UInt32 → Dinode) (ninodes : Nat) : Reachable (.boot T disk ninodes)
  | step {s s' : Sys T} {a : Act T} : Reachable s → s.step a = .ok s' → Reachable s'

end

/-! ## The invariant -/

section
variable {T : Type}

/-- What a valid entry says about the dinode `d`: both are allocated, and they are the same when the
holder has not changed the entry since the last `iupdate`. -/
structure Good (din d : Dinode) (changed : Bool) : Prop where
  alloc : din.type ≠ 0
  disk : d.type ≠ 0
  same : changed = false → din = d

/-- What holds of an entry. -/
structure Sys.EntryOk (s : Sys T) (e : Fin NINODE) : Prop where
  nonneg : 0 ≤ (s.inode e).ref
  busy : (s.inode e).busy = true ↔ ∃ t, s.holds t e = true
  one : ∀ t t', s.holds t e = true → s.holds t' e = true → t = t'
  held : ∀ t, s.holds t e = true → 0 < (s.inode e).ref
  clean : (s.inode e).busy = false → s.changed e = false
  good : 0 < (s.inode e).ref → (s.inode e).valid = true → (∀ t, s.pc t ≠ .freed e) →
    Good (s.inode e).din (s.disk (s.inode e).dev (s.inode e).inum) (s.changed e)

/-- What holds of a process in the middle of a call. -/
def Sys.PcOk (s : Sys T) (t : T) : Pc → Prop
  | .locking e => s.holds t e = true
  | .truncating e | .zeroing e =>
    s.holds t e = true ∧ s.changed e = false ∧ (s.inode e).valid = true
  | .freed e => s.holds t e = true ∧ s.changed e = false
  | _ => True

/-- An inode has one entry that is in use. -/
def Sys.Unique (s : Sys T) : Prop :=
  ∀ e e', 0 < (s.inode e).ref → 0 < (s.inode e').ref → (s.inode e).dev = (s.inode e').dev →
    (s.inode e).inum = (s.inode e').inum → e = e'

/-- What holds in every state. -/
structure Sys.Inv (s : Sys T) : Prop where
  entry : ∀ e, s.EntryOk e
  pc : ∀ t, s.PcOk t (s.pc t)
  unique : s.Unique

theorem Sys.Inv.boot (disk : UInt32 → UInt32 → Dinode) (ninodes : Nat) :
    (Sys.boot T disk ninodes).Inv where
  entry _ := ⟨le_rfl, ⟨nofun, fun ⟨_, h⟩ => (nomatch h)⟩, fun _ _ h => (nomatch h),
    fun _ h => (nomatch h), fun _ => rfl, fun h => absurd h (lt_irrefl 0)⟩
  pc _ := trivial
  unique _ _ h := absurd h (lt_irrefl 0)

variable {s s' : Sys T} {t : T} {e : Fin NINODE} {x : Inode}

/-- The same of an entry that is known to be `x`. -/
theorem Sys.EntryOk.of_eq (hx : s.inode e = x) (nonneg : 0 ≤ x.ref)
    (busy : x.busy = true ↔ ∃ t, s.holds t e = true)
    (one : ∀ t t', s.holds t e = true → s.holds t' e = true → t = t')
    (held : ∀ t, s.holds t e = true → 0 < x.ref) (clean : x.busy = false → s.changed e = false)
    (good : 0 < x.ref → x.valid = true → (∀ t, s.pc t ≠ .freed e) →
      Good x.din (s.disk x.dev x.inum) (s.changed e)) : s.EntryOk e := by
  subst hx
  exact ⟨nonneg, busy, one, held, clean, good⟩

/-- An entry that a step leaves alone. -/
theorem Sys.EntryOk.frame (h : s.EntryOk e) (hinode : s'.inode e = s.inode e)
    (hholds : ∀ t, s'.holds t e = s.holds t e) (hchanged : s'.changed e = s.changed e)
    (hdisk : 0 < (s.inode e).ref → (s.inode e).valid = true → (∀ t, s.pc t ≠ .freed e) →
      s'.disk (s.inode e).dev (s.inode e).inum = s.disk (s.inode e).dev (s.inode e).inum)
    (hpc : (s.inode e).valid = true → (∀ t, s'.pc t ≠ .freed e) → ∀ t, s.pc t ≠ .freed e) :
    s'.EntryOk e := by
  refine .of_eq hinode h.nonneg ?_ ?_ ?_ ?_ fun hr hv hf => ?_
  · simp only [hholds]
    exact h.busy
  · simp only [hholds]
    exact h.one
  · simp only [hholds]
    exact h.held
  · rw [hchanged]
    exact h.clean
  · rw [hchanged, hdisk hr hv (hpc hv hf)]
    exact h.good hr hv (hpc hv hf)

/-- A process that a step leaves alone. -/
theorem Sys.PcOk.frame {pc : Pc} (h : s.PcOk t pc)
    (hkeep : ∀ e, s.holds t e = true → s'.holds t e = true ∧
      (s.changed e = false → s'.changed e = false) ∧
      (s'.inode e).valid = (s.inode e).valid) : s'.PcOk t pc := by
  cases pc with
  | locking e => exact (hkeep e h).1
  | truncating e | zeroing e =>
    obtain ⟨hh, hc, hv⟩ := hkeep e h.1
    exact ⟨hh, hc h.2.1, hv.trans h.2.2⟩
  | freed e =>
    obtain ⟨hh, hc, -⟩ := hkeep e h.1
    exact ⟨hh, hc h.2⟩
  | _ => trivial

/-! ## Kinds of changes -/

/-- A step that changes one entry, and where its holder is. -/
theorem Sys.Inv.change (h : s.Inv) (hinode : s'.inode = update s.inode e x)
    (hholds : ∀ t, ∀ e' ≠ e, s'.holds t e' = s.holds t e')
    (hchanged : ∀ e' ≠ e, s'.changed e' = s.changed e')
    (hpc : ∀ t, s'.pc t = s.pc t ∨ s.holds t e = true ∧ ∀ e' ≠ e, s.pc t ≠ .freed e')
    (hdisk : ∀ e' ≠ e, 0 < (s.inode e').ref →
      s'.disk (s.inode e').dev (s.inode e').inum = s.disk (s.inode e').dev (s.inode e').inum)
    (hentry : s'.EntryOk e) (hok : ∀ t, s.holds t e = true → s'.PcOk t (s'.pc t))
    (hunique : ∀ e' ≠ e, 0 < x.ref → 0 < (s.inode e').ref → (s.inode e').dev = x.dev →
      (s.inode e').inum ≠ x.inum) : s'.Inv := by
  have hself : s'.inode e = x := by rw [hinode, update_self]
  have hother : ∀ e' ≠ e, s'.inode e' = s.inode e' := fun e' hne => by
    rw [hinode, update_of_ne hne]
  refine ⟨fun e' => ?_, fun t => ?_, fun e1 e2 h1 h2 hd hi => ?_⟩
  · rcases eq_or_ne e' e with rfl | hne
    · exact hentry
    · exact (h.entry e').frame (hother e' hne) (fun t => hholds t e' hne) (hchanged e' hne)
        (fun hr _ _ => hdisk e' hne hr) fun _ hf t => (hpc t).elim (· ▸ hf t) fun hc => hc.2 e' hne
  · cases hheld : s.holds t e with
    | true => exact hok t hheld
    | false =>
      have hsame := (hpc t).resolve_right fun hc => Bool.false_ne_true (hheld.symm.trans hc.1)
      rw [hsame]
      refine (h.pc t).frame fun e' he' => ?_
      have hne : e' ≠ e := by
        rintro rfl
        exact Bool.false_ne_true (hheld.symm.trans he')
      exact ⟨(hholds t e' hne).trans he', (hchanged e' hne).trans, by rw [hother e' hne]⟩
  · rcases eq_or_ne e1 e with hne1 | hne1 <;> rcases eq_or_ne e2 e with hne2 | hne2
    · exact hne1.trans hne2.symm
    · rw [hne1, hself] at h1 hd hi
      rw [hother e2 hne2] at h2 hd hi
      exact absurd hi.symm (hunique e2 hne2 h1 h2 hd.symm)
    · rw [hne2, hself] at h2 hd hi
      rw [hother e1 hne1] at h1 hd hi
      exact absurd hi (hunique e1 hne1 h2 h1 hd)
    · rw [hother e1 hne1] at h1 hd hi
      rw [hother e2 hne2] at h2 hd hi
      exact h.unique e1 e2 h1 h2 hd hi

theorem Sys.Inv.at {pc : Pc} (h : s.Inv) (ht : s.pc t = pc) : s.PcOk t pc := ht ▸ h.pc t

/-- No other entry in use is the one of the same inode. -/
theorem Sys.Inv.others (h : s.Inv) (hpos : 0 < (s.inode e).ref) : ∀ e' ≠ e, 0 < (s.inode e').ref →
    (s.inode e').dev = (s.inode e).dev → (s.inode e').inum ≠ (s.inode e).inum :=
  fun e' hne hr hd hi => hne (h.unique e' e hr hpos hd hi)

/-- What a valid entry says while its holder is not freeing it. -/
theorem Sys.Inv.heldGood (h : s.Inv) (hheld : s.holds t e = true) (hnot : s.pc t ≠ .freed e)
    (hvalid : (s.inode e).valid = true) :
    Good (s.inode e).din (s.disk (s.inode e).dev (s.inode e).inum) (s.changed e) := by
  refine (h.entry e).good ((h.entry e).held t hheld) hvalid fun t' ht' => ?_
  obtain rfl := (h.entry e).one t' t (h.at ht').1 hheld
  exact hnot ht'

theorem Sys.valid_update (hx : x.valid = (s.inode e).valid) (e' : Fin NINODE) :
    (update s.inode e x e').valid = (s.inode e').valid := by
  rcases eq_or_ne e' e with rfl | hne
  · rw [update_self, hx]
  · rw [update_of_ne hne]

/-- References to an entry come and go. -/
theorem Sys.Inv.setRef (h : s.Inv) {r : Int} (hpos : 0 < (s.inode e).ref) (hr : 0 ≤ r)
    (hbusy : (s.inode e).busy = true → 0 < r) :
    (s.setInode e { s.inode e with ref := r }).Inv := by
  have hok := h.entry e
  refine h.change rfl (fun _ _ _ => rfl) (fun _ _ => rfl) (fun _ => .inl rfl) (fun _ _ _ => rfl)
    (.of_eq (update_self ..) hr hok.busy hok.one (fun t ht => hbusy (hok.busy.2 ⟨t, ht⟩)) hok.clean
      fun _ => hok.good hpos)
    (fun t _ => ?_) fun e' hne _ => h.others hpos e' hne
  exact (h.pc t).frame fun e' he' => ⟨he', id, valid_update (x := { s.inode e with ref := r }) rfl e'⟩

/-- The holder of an entry changes what it says about the inode, or the dinode. -/
theorem Sys.Inv.assign (h : s.Inv) {din d : Dinode} {v c : Bool} (hheld : s.holds t e = true)
    (hinode : s'.inode = update s.inode e { s.inode e with din, valid := v })
    (hdisk : ∀ dev inum, s'.disk dev inum =
      if dev = (s.inode e).dev ∧ inum = (s.inode e).inum then d else s.disk dev inum)
    (hholds : s'.holds = s.holds) (hchanged : s'.changed = update s.changed e c)
    (hpc : s'.pc = s.pc) (hgood : v = true → s.pc t ≠ .freed e → Good din d c)
    (hok : s'.PcOk t (s.pc t)) : s'.Inv := by
  have hentry := h.entry e
  have hpos := hentry.held t hheld
  have hself : s'.inode e = { s.inode e with din, valid := v } := by rw [hinode, update_self]
  refine h.change hinode (fun _ _ _ => by rw [hholds]) (fun e' hne => ?_)
    (fun _ => .inl (by rw [hpc])) (fun e' hne hr => ?_) ?_ (fun t' ht' => ?_)
    fun e' hne _ => h.others hpos e' hne
  · rw [hchanged, update_of_ne hne]
  · rw [hdisk, if_neg]
    exact fun hc => hne (h.unique e' e hr hpos hc.1 hc.2)
  · refine .of_eq hself hentry.nonneg ?_ ?_ ?_ (fun hfree => ?_) fun _ hv hf => ?_
    · rw [hholds]
      exact hentry.busy
    · rw [hholds]
      exact hentry.one
    · rw [hholds]
      exact hentry.held
    · exact absurd ((hentry.busy.2 ⟨t, hheld⟩).symm.trans hfree) (by simp)
    · rw [hdisk, if_pos ⟨rfl, rfl⟩, hchanged, update_self]
      exact hgood hv (hpc ▸ hf t)
  · obtain rfl := hentry.one t t' hheld ht'
    rw [hpc]
    exact hok

variable [DecidableEq T]

/-- A process goes on; if it was about to leave the freeing branch of `iput`, the entry is not valid
any more. -/
theorem Sys.Inv.setPc (h : s.Inv) {pc : Pc} (hpc : s.PcOk t pc)
    (hfreed : ∀ e, s.pc t = .freed e → pc ≠ .freed e → (s.inode e).valid = false) :
    (s.setPc t pc).Inv := by
  refine ⟨fun e => ?_, fun t' => ?_, h.unique⟩
  · refine (h.entry e).frame rfl (fun _ => rfl) rfl (fun _ _ _ => rfl) fun hv hf t' => ?_
    have ht' := hf t'
    rcases eq_or_ne t' t with rfl | hne
    · simp only [Sys.setPc, update_self] at ht'
      exact fun hc => Bool.false_ne_true ((hfreed e hc ht').symm.trans hv)
    · simpa only [Sys.setPc, update_of_ne hne] using ht'
  · rcases eq_or_ne t' t with rfl | hne
    · simp only [Sys.setPc, update_self]
      exact hpc.frame fun e he => ⟨he, id, rfl⟩
    · simp only [Sys.setPc, update_of_ne hne]
      exact (h.pc t').frame fun e he => ⟨he, id, rfl⟩

theorem Sys.setHolds_apply (v : Bool) (t' : T) (e' : Fin NINODE) :
    (s.setHolds t e v).holds t' e' = if t' = t ∧ e' = e then v else s.holds t' e' := by
  rcases eq_or_ne t' t with rfl | ht
  · rcases eq_or_ne e' e with rfl | he
    · simp [setHolds]
    · simp [setHolds, he]
  · simp [setHolds, ht]

/-- A process sets `I_BUSY` of an entry that is not busy. -/
theorem Sys.Inv.take (h : s.Inv) (hfree : (s.inode e).busy = false) (hpos : 0 < (s.inode e).ref) :
    ((s.setInode e { s.inode e with busy := true }).setHolds t e true).Inv := by
  have hentry := h.entry e
  have hnot : ∀ t', s.holds t' e ≠ true := fun t' hc =>
    Bool.false_ne_true (hfree.symm.trans (hentry.busy.2 ⟨t', hc⟩))
  have hmine : ∀ t', ((s.setInode e { s.inode e with busy := true }).setHolds t e true).holds t' e =
      true ↔ t' = t := by
    intro t'
    rw [setHolds_apply]
    split
    · next hc => exact iff_of_true rfl hc.1
    · next hc => exact iff_of_false (hnot t') fun ht => hc ⟨ht, rfl⟩
  refine h.change rfl (fun t' e' hne => ?_) (fun _ _ => rfl) (fun _ => .inl rfl) (fun _ _ _ => rfl) ?_
    (fun t' ht' => absurd ht' (hnot t')) fun e' hne _ => h.others hpos e' hne
  · rw [setHolds_apply, if_neg fun hc => hne hc.2]
    rfl
  · exact .of_eq (update_self ..) hentry.nonneg (iff_of_true rfl ⟨t, (hmine t).2 rfl⟩)
      (fun t1 t2 h1 h2 => ((hmine t1).1 h1).trans ((hmine t2).1 h2).symm) (fun _ _ => hpos) nofun
      hentry.good

/-- The holder of an entry clears `I_BUSY`, and perhaps `I_VALID` and a reference. From the freeing
branch of `iput` the entry must not stay valid. -/
theorem Sys.Inv.release (h : s.Inv) (hheld : s.holds t e = true)
    (hclean : s.changed e = false) (hx : x.dev = (s.inode e).dev ∧ x.inum = (s.inode e).inum ∧
      x.din = (s.inode e).din ∧ x.busy = false ∧ 0 ≤ x.ref)
    (hpc : ∀ e', s.pc t = .freed e' → e' = e)
    (hvalid : x.valid = true → (s.inode e).valid = true ∧ s.pc t ≠ .freed e) :
    (((s.setInode e x).setHolds t e false).setPc t .run).Inv := by
  have hentry := h.entry e
  obtain ⟨hdev, hinum, hdin, hbusy, hnonneg⟩ := hx
  have hpos := hentry.held t hheld
  have hnone : ∀ t', (((s.setInode e x).setHolds t e false).setPc t .run).holds t' e ≠ true := by
    intro t'
    change ((s.setInode e x).setHolds t e false).holds t' e ≠ true
    rw [setHolds_apply]
    split
    · exact Bool.false_ne_true
    · next hc => exact fun ht' => hc ⟨hentry.one t' t ht' hheld, rfl⟩
  have hmoved : ∀ t', t' ≠ t → (((s.setInode e x).setHolds t e false).setPc t .run).pc t' = s.pc t' :=
    fun t' hne => update_of_ne hne ..
  refine h.change rfl (fun t' e' hne => ?_) (fun _ _ => rfl) (fun t' => ?_) (fun _ _ _ => rfl) ?_
    (fun t' ht' => ?_) fun e' hne _ => hdev ▸ hinum ▸ h.others hpos e' hne
  · exact (setHolds_apply ..).trans (if_neg fun hc => hne hc.2)
  · rcases eq_or_ne t' t with rfl | hne
    · exact .inr ⟨hheld, fun e' hne hc => hne (hpc e' hc)⟩
    · exact .inl (hmoved t' hne)
  · refine .of_eq (update_self ..) hnonneg ?_ (fun t1 _ h1 => absurd h1 (hnone t1))
      (fun t' ht' => absurd ht' (hnone t')) (fun _ => hclean) ?_
    · rw [hbusy]
      exact iff_of_false Bool.false_ne_true fun ⟨t', ht'⟩ => hnone t' ht'
    · rw [hdev, hinum, hdin]
      exact fun _ hv _ => h.heldGood hheld (hvalid hv).2 (hvalid hv).1
  · obtain rfl := hentry.one t' t ht' hheld
    have hrun : (((s.setInode e x).setHolds t' e false).setPc t' .run).pc t' = .run :=
      update_self ..
    rw [hrun]
    trivial

omit [DecidableEq T] in
theorem Sys.setDisk_apply (dev inum dev' inum' : UInt32) (d : Dinode) :
    (s.setDisk dev inum d).disk dev' inum' =
      if dev' = dev ∧ inum' = inum then d else s.disk dev' inum' := by
  rcases eq_or_ne dev' dev with rfl | hd
  · rcases eq_or_ne inum' inum with rfl | hi
    · simp [setDisk]
    · simp [setDisk, hi]
  · simp [setDisk, hd]

omit [DecidableEq T] in
/-- A dinode that is free is written. No valid entry speaks about it. -/
theorem Sys.Inv.alloc (h : s.Inv) {dev inum : UInt32} (d : Dinode)
    (hfree : (s.disk dev inum).type = 0) : (s.setDisk dev inum d).Inv := by
  refine ⟨fun e => ?_, fun t => (h.pc t).frame fun e he => ⟨he, id, rfl⟩, h.unique⟩
  refine (h.entry e).frame rfl (fun _ => rfl) rfl (fun hr hv hf => ?_) fun _ hf => hf
  rw [setDisk_apply, if_neg]
  rintro ⟨rfl, rfl⟩
  exact ((h.entry e).good hr hv hf).disk hfree

omit [DecidableEq T] in
/-- `iget` finds the entry of the inode, or takes one that is not in use. -/
theorem Sys.Inv.iget {dev inum : UInt32} (h : s.Inv) (hs : iget dev inum s = .ok (e, s')) :
    s'.Inv ∧ s'.pc = s.pc := by
  rw [Icache.iget] at hs
  split at hs
  · rename_i e' hfind
    have hhit := List.find?_some hfind
    obtain ⟨hpos, -, -⟩ := of_decide_eq_true hhit
    cases hs
    exact ⟨h.setRef hpos (by omega) fun _ => by omega, rfl⟩
  · rename_i hmiss
    split at hs
    · rename_i e' hfind
      have hzero := List.find?_some hfind
      have href : (s.inode e').ref = 0 := of_decide_eq_true hzero
      cases hs
      have hentry := h.entry e
      have hnone : ∀ t, s.holds t e ≠ true := fun t ht => by
        have hpos := hentry.held t ht
        omega
      have hfree : (s.inode e).busy = false := by
        rw [Bool.eq_false_iff]
        intro hc
        obtain ⟨t, ht⟩ := hentry.busy.1 hc
        exact hnone t ht
      refine ⟨h.change rfl (fun _ _ _ => rfl) (fun _ _ => rfl) (fun _ => .inl rfl) (fun _ _ _ => rfl) ?_
        (fun t ht => absurd ht (hnone t)) fun e' _ _ hr hd hi => ?_, rfl⟩
      · exact .of_eq (update_self ..) Int.one_nonneg
          (iff_of_false Bool.false_ne_true fun ⟨t, ht⟩ => hnone t ht) hentry.one
          (fun t ht => absurd ht (hnone t)) (fun _ => hentry.clean hfree) nofun
      · exact List.find?_eq_none.1 hmiss e' (List.mem_finRange e') (decide_eq_true ⟨hr, hd, hi⟩)
    · cases hs

/-! ## Steps -/

/-- A process that is not in the freeing branch of `iput` goes on. -/
theorem Sys.Inv.goOn (h : s.Inv) {pc old : Pc} (hpc : s.PcOk t pc) (ht : s.pc t = old)
    (hnot : ∀ e, old ≠ .freed e) : (s.setPc t pc).Inv :=
  h.setPc hpc fun e he => absurd (ht.symm.trans he) (hnot e)

theorem Sys.Inv.ilock (h : s.Inv) (hs : ilock t e s = .ok s') : s'.Inv := by
  obtain ⟨hrun, hs⟩ := require_bind_eq_ok hs
  obtain ⟨href, hs⟩ := panicIf_bind_eq_ok hs
  obtain ⟨hfree, hs⟩ := require_bind_eq_ok hs
  cases hs
  refine (h.take hfree (by omega)).goOn ?_ hrun nofun
  change ((s.setInode e _).setHolds t e true).holds t e = true
  rw [setHolds_apply, if_pos ⟨rfl, rfl⟩]

/-- `ilock` reads the inode from its block. -/
theorem Sys.Inv.load (h : s.Inv) (hs : load t s = .ok s') : s'.Inv := by
  rw [Icache.load] at hs
  split at hs
  · rename_i e hpc
    have hheld : s.holds t e = true := h.at hpc
    split at hs
    · cases hs
      exact h.goOn trivial hpc nofun
    · obtain ⟨htype, hs⟩ := panicIf_bind_eq_ok hs
      cases hs
      refine goOn (s := (s.setInode e _).setChanged e false) ?_ trivial hpc nofun
      refine h.assign (d := s.disk (s.inode e).dev (s.inode e).inum) hheld rfl (fun dev inum => ?_)
        rfl rfl rfl (fun _ _ => ⟨htype, htype, fun _ => rfl⟩) ?_
      · split
        · next hc => rw [hc.1, hc.2]; rfl
        · rfl
      · rw [hpc]
        exact hheld
  · cases hs

/-- `iunlock` gives up an inode that is written back. -/
theorem Sys.Inv.iunlock (h : s.Inv) (hs : iunlock t e s = .ok s') : s'.Inv := by
  obtain ⟨⟨hrun, hheld, hclean⟩, hs⟩ := require_bind_eq_ok hs
  obtain ⟨-, hs⟩ := panicIf_bind_eq_ok hs
  cases hs
  have hnot : ∀ e', s.pc t ≠ .freed e' := fun e' => hrun.trans_ne nofun
  have hrel := h.release (x := { s.inode e with busy := false }) hheld hclean
    ⟨rfl, rfl, rfl, rfl, (h.entry e).nonneg⟩ (fun e' he' => absurd he' (hnot e'))
    fun hv => ⟨hv, hnot e⟩
  rw [Sys.setPc, update_eq_self_iff.2 hrun.symm] at hrel
  exact hrel

/-- `iput` drops a reference, or takes the entry to free the inode. -/
theorem Sys.Inv.iput (h : s.Inv) (hs : iput t e s = .ok s') : s'.Inv := by
  obtain ⟨⟨hrun, hpos⟩, hs⟩ := require_bind_eq_ok hs
  dsimp only at hs
  split at hs
  · rename_i hlast
    obtain ⟨hbusy, hs⟩ := panicIf_bind_eq_ok hs
    cases hs
    rw [Bool.not_eq_true] at hbusy
    refine (h.take hbusy hpos).goOn ⟨?_, (h.entry e).clean hbusy, ?_⟩ hrun nofun
    · rw [setHolds_apply, if_pos ⟨rfl, rfl⟩]
    · change (update s.inode e _ e).valid = true
      rw [update_self]
      exact hlast.2.1
  · obtain ⟨hkeep, hs⟩ := require_bind_eq_ok hs
    cases hs
    exact h.setRef hpos (by omega) fun hb => by have := hkeep hb; omega

omit [DecidableEq T] in
/-- The holder writes an inode to the disk with `iupdate`. -/
theorem Sys.Inv.write (h : s.Inv) (din : Dinode) (hheld : s.holds t e = true)
    (htype : s.pc t ≠ .freed e → (s.inode e).valid = true → din.type ≠ 0) :
    (iupdate e (s.setInode e { s.inode e with din })).Inv := by
  have hself : (s.setInode e { s.inode e with din }).inode e = { s.inode e with din } :=
    update_self ..
  refine h.assign (d := din) (v := (s.inode e).valid) (c := false) hheld rfl (fun dev inum => ?_) rfl
    rfl rfl (fun hv hf => ⟨htype hf hv, htype hf hv, fun _ => rfl⟩) ?_
  · rw [Icache.iupdate, hself]
    exact setDisk_apply ..
  · refine (h.pc t).frame fun e' he' => ⟨he', fun hc => ?_, ?_⟩
    · change update s.changed e false e' = false
      rcases eq_or_ne e' e with rfl | hne
      · rw [update_self]
      · rw [update_of_ne hne, hc]
    · exact valid_update (x := { s.inode e with din }) rfl e'

/-- The holder frees the blocks and writes the inode back. -/
theorem Sys.Inv.itrunc (h : s.Inv) (hs : itrunc t s = .ok s') : s'.Inv := by
  rw [Icache.itrunc] at hs
  split at hs
  · rename_i e hpc
    cases hs
    obtain ⟨hheld, hclean, hvalid⟩ := h.at hpc
    have hgood := h.heldGood hheld (hpc.trans_ne nofun) hvalid
    have hwrite := h.write (truncated (s.inode e).din) hheld fun _ _ => hgood.alloc
    refine hwrite.goOn (?_ : Sys.PcOk _ t (.zeroing e)) hpc nofun
    refine ⟨hheld, update_self .., ?_⟩
    change (update s.inode e _ e).valid = true
    rw [update_self]
    exact hvalid
  · cases hs

/-- The dinode is free from now on, and nothing is asked of the entry. -/
theorem Sys.Inv.izero (h : s.Inv) (hs : izero t s = .ok s') : s'.Inv := by
  rw [Icache.izero] at hs
  split at hs
  · rename_i e hpc
    cases hs
    obtain ⟨hheld, hclean, -⟩ := h.at hpc
    -- the process is past the point from which nothing is asked of the entry
    have hfreed : (s.setPc t (.freed e)).Inv := h.goOn ⟨hheld, hclean⟩ hpc nofun
    exact hfreed.write { (s.inode e).din with type := 0 } hheld fun hc =>
      absurd (update_self ..) hc
  · cases hs

theorem Sys.Inv.iputEnd (h : s.Inv) (hs : iputEnd t s = .ok s') : s'.Inv := by
  rw [Icache.iputEnd] at hs
  split at hs
  · rename_i e hpc
    cases hs
    obtain ⟨hheld, hclean⟩ := h.at hpc
    have hpos := (h.entry e).held t hheld
    refine h.release hheld hclean ⟨rfl, rfl, rfl, rfl, ?_⟩ (fun e' he' => ?_) nofun
    · dsimp only
      omega
    · exact (Pc.freed.inj (hpc.symm.trans he')).symm
  · cases hs

theorem Sys.Inv.scan (h : s.Inv) (hs : scan t s = .ok s') : s'.Inv := by
  rw [Icache.scan] at hs
  split at hs
  · rename_i dev type inum hpc
    obtain ⟨_, -, hs⟩ := bind_eq_ok.1 hs
    split at hs
    · rename_i hfree
      cases hs
      exact (h.alloc _ hfree).goOn trivial hpc nofun
    · cases hs
      exact h.goOn trivial hpc nofun
  · cases hs

/-- One step keeps the invariant. -/
theorem Sys.Inv.step {a : Act T} (h : s.Inv) (hs : s.step a = .ok s') : s'.Inv := by
  cases a with
  | iget t dev inum =>
    obtain ⟨_, -, hs⟩ := bind_eq_ok.1 hs
    obtain ⟨⟨e, s1⟩, h1, hs⟩ := bind_eq_ok.1 hs
    cases hs
    exact (h.iget h1).1
  | idup t e =>
    obtain ⟨⟨-, hpos⟩, hs⟩ := require_bind_eq_ok hs
    cases hs
    exact h.setRef hpos (by omega) fun _ => by omega
  | ilock t e => exact h.ilock hs
  | load t => exact h.load hs
  | modify t e din =>
    obtain ⟨⟨hrun, hheld, htype⟩, hs⟩ := require_bind_eq_ok hs
    cases hs
    refine h.assign (d := s.disk (s.inode e).dev (s.inode e).inum) hheld rfl (fun dev inum => ?_)
      rfl rfl rfl (fun hv hnot => ⟨htype, (h.heldGood hheld hnot hv).disk, nofun⟩) ?_
    · split
      · next hc => rw [hc.1, hc.2]; rfl
      · rfl
    · rw [hrun]
      trivial
  | iupdate t e =>
    obtain ⟨⟨-, hheld⟩, hs⟩ := require_bind_eq_ok hs
    cases hs
    have hwrite := h.write (s.inode e).din hheld fun hnot hv => (h.heldGood hheld hnot hv).alloc
    rw [setInode, update_eq_self] at hwrite
    exact hwrite
  | iunlock t e => exact h.iunlock hs
  | iput t e => exact h.iput hs
  | itrunc t => exact h.itrunc hs
  | izero t => exact h.izero hs
  | iputEnd t => exact h.iputEnd hs
  | ialloc t dev type =>
    obtain ⟨hrun, hs⟩ := require_bind_eq_ok hs
    cases hs
    exact h.goOn trivial hrun nofun
  | scan t => exact h.scan hs
  | iallocGet t =>
    rw [Sys.step.eq_def] at hs
    dsimp only at hs
    split at hs
    · rename_i dev inum hpc
      obtain ⟨⟨e, s1⟩, h1, hs⟩ := bind_eq_ok.1 hs
      cases hs
      obtain ⟨hinv, hpc1⟩ := h.iget h1
      exact hinv.goOn trivial ((congrFun hpc1 t).trans hpc) nofun
    · cases hs

theorem Sys.Reachable.inv (h : s.Reachable) : s.Inv := by
  induction h with
  | boot disk ninodes => exact .boot disk ninodes
  | step _ hs ih => exact ih.step hs

/-- In every interleaving: an inode has at most one entry in use, a busy entry has one holder, and a
valid entry in use that nobody holds is the dinode allocated under its number. -/
theorem icache_identity (h : s.Reachable) :
    (∀ e e', 0 < (s.inode e).ref → 0 < (s.inode e').ref → (s.inode e).dev = (s.inode e').dev →
      (s.inode e).inum = (s.inode e').inum → e = e') ∧
    (∀ e, (s.inode e).busy = true ↔ ∃ t, s.holds t e = true) ∧
    (∀ e t t', s.holds t e = true → s.holds t' e = true → t = t') ∧
    ∀ e, 0 < (s.inode e).ref → (s.inode e).valid = true → (s.inode e).busy = false →
      (s.inode e).din = s.disk (s.inode e).dev (s.inode e).inum ∧
      (s.disk (s.inode e).dev (s.inode e).inum).type ≠ 0 := by
  have hinv := h.inv
  refine ⟨hinv.unique, fun e => (hinv.entry e).busy, fun e => (hinv.entry e).one,
    fun e hr hv hfree => ?_⟩
  have hentry := hinv.entry e
  have hgood := hentry.good hr hv fun t ht =>
    Bool.false_ne_true (hfree.symm.trans (hentry.busy.2 ⟨t, (hinv.at ht).1⟩))
  exact ⟨hgood.same (hentry.clean hfree), hgood.disk⟩

/-- What a list of steps reaches. -/
theorem Sys.Reachable.run {as : List (Act T)} (h : s.Reachable)
    (hr : as.foldlM Sys.step s = .ok s') : s'.Reachable :=
  foldlM_keeps (fun _ h hs => h.step hs) h hr

end

/-! ## An entry that is not in use -/

/-- A disk on which every inode is a file with one link. -/
def filesDisk : UInt32 → UInt32 → Dinode := fun _ _ => { Dinode.zero with type := 2, nlink := 1 }

/-- Inodes 7 and 5 get the first two entries and give them up. Inode 5 then gets the first entry and
is changed there. -/
def staleRun : List (Act Unit) :=
  let e₀ : Fin NINODE := ⟨0, Fs.NINODE_pos⟩
  let e₁ : Fin NINODE := ⟨1, Fs.one_lt_NINODE⟩
  [.iget () 1 7, .iget () 1 5, .ilock () e₁, .load (), .iunlock () e₁, .iput () e₁, .iput () e₀,
    .iget () 1 5, .ilock () e₀, .load (), .modify () e₀ { Dinode.zero with type := 2, nlink := 2 },
    .iupdate () e₀, .iunlock () e₀]

/-- The second entry is still valid, nobody holds it, and it is not what the disk has. -/
theorem icache_identity_stale : ∃ (s : Sys Unit) (e : Fin NINODE), s.Reachable ∧
    (s.inode e).valid = true ∧ (s.inode e).busy = false ∧ (s.inode e).ref = 0 ∧
    (s.inode e).din ≠ s.disk (s.inode e).dev (s.inode e).inum := by
  have hrun : ((staleRun.foldlM Sys.step (.boot Unit filesDisk 200)).toOption.any fun s =>
      decide ((s.inode ⟨1, by decide⟩).valid = true ∧ (s.inode ⟨1, by decide⟩).busy = false ∧
        (s.inode ⟨1, by decide⟩).ref = 0 ∧ (s.inode ⟨1, by decide⟩).din.nlink ≠
          (s.disk (s.inode ⟨1, by decide⟩).dev (s.inode ⟨1, by decide⟩).inum).nlink)) = true := by
    decide +kernel
  obtain ⟨s, hs, hf⟩ := exists_ok hrun
  obtain ⟨hvalid, hbusy, href, hne⟩ := of_decide_eq_true hf
  exact ⟨s, _, (Sys.Reachable.boot filesDisk 200).run hs, hvalid, hbusy, href,
    fun hc => hne (congrArg Dinode.nlink hc)⟩

/-- One process frees inode 1, whose last link is gone, while another allocates it again. -/
def reuseRun : List (Act Bool) :=
  let e : Fin NINODE := ⟨0, Fs.NINODE_pos⟩
  [.iget false 1 1, .ilock false e, .load false, .modify false e { Dinode.zero with type := 2 },
    .iupdate false e, .iunlock false e, .iput false e, .itrunc false, .izero false,
    .ialloc true 1 3, .scan true, .iallocGet true, .iputEnd false, .ilock true e, .load true,
    .iunlock true e]

/-- The second process finds the inode that it has allocated. -/
theorem icache_identity_reuseRun : ∃ s : Sys Bool, s.Reachable ∧
    (s.inode ⟨0, by decide⟩).din = s.disk 1 1 ∧ (s.disk 1 1).type = 3 := by
  have hrun : ((reuseRun.foldlM Sys.step (.boot Bool filesDisk 200)).toOption.any fun s =>
      decide ((s.inode ⟨0, by decide⟩).valid = true ∧ (s.inode ⟨0, by decide⟩).busy = false ∧
        0 < (s.inode ⟨0, by decide⟩).ref ∧ (s.inode ⟨0, by decide⟩).dev = 1 ∧
        (s.inode ⟨0, by decide⟩).inum = 1 ∧ (s.disk 1 1).type = 3)) = true := by
    decide +kernel
  obtain ⟨s, hs, hf⟩ := exists_ok hrun
  obtain ⟨hvalid, hbusy, href, hdev, hinum, htype⟩ := of_decide_eq_true hf
  have hreach := (Sys.Reachable.boot filesDisk 200).run hs
  obtain ⟨-, -, -, hgood⟩ := icache_identity hreach
  have hsame := (hgood _ href hvalid hbusy).1
  rw [hdev, hinum] at hsame
  exact ⟨s, hreach, hsame, htype⟩

end TronBoss.Icache
