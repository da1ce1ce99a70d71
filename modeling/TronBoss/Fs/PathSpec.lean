import Mathlib.Data.List.TakeWhile
import TronBoss.Fs.Session

/-!
# Path resolution

A path stands for a list of names, the maximal pieces without a slash (`segments`), and `namei` walks
along them through the directories (`walk`). The abstract walk is over the files alone; the theorem
at the end says that `namei` and `nameiparent` are the abstract walk, with one reference to the inode at
its end, as long as the inode cache has room for the two inodes that a step has a reference to.
-/

namespace TronBoss.Fs

open Lib List Function Option

/-! ## Paths as lists of names -/

/-- The names in a path. -/
def segments (path : List UInt8) : List (List UInt8) :=
  ((path.splitOn slash).filter (· ≠ [])).map (·.take DIRSIZ)

theorem segments_slash (path : List UInt8) : segments (slash :: path) = segments path := by
  have hsplit : (slash :: path).splitOn slash = [] :: path.splitOn slash :=
    splitOn_append_cons_self_of_not_mem not_mem_nil path
  rw [segments, hsplit, filter_cons_of_neg (by simp)]
  rfl

theorem segments_dropWhile (path : List UInt8) :
    segments (path.dropWhile (· = slash)) = segments path := by
  induction path with
  | nil => rfl
  | cons c path ih =>
    rcases eq_or_ne c slash with rfl | hc
    · rw [dropWhile_cons_of_pos (by simp), segments_slash]
      exact ih
    · rw [dropWhile_cons_of_neg (by simp [hc])]

/-- A name, up to the next slash or the end. -/
theorem segments_name {c : UInt8} {path : List UInt8} (hc : c ≠ slash) :
    segments (c :: path) = ((c :: path).takeWhile (· ≠ slash)).take DIRSIZ ::
      segments ((c :: path).dropWhile (· ≠ slash)) := by
  have hname : slash ∉ (c :: path).takeWhile (· ≠ slash) := by
    intro hmem
    have hne := mem_takeWhile_imp hmem
    simp at hne
  have hne : (c :: path).takeWhile (· ≠ slash) ≠ [] := by
    rw [takeWhile_cons_of_pos (by simp [hc])]
    exact cons_ne_nil _ _
  have hsplit := takeWhile_append_dropWhile (p := fun x : UInt8 => decide (x ≠ slash))
    (l := c :: path)
  generalize (c :: path).takeWhile (· ≠ slash) = name at *
  generalize hrest : (c :: path).dropWhile (· ≠ slash) = rest at *
  rw [← hsplit]
  cases rest with
  | nil =>
    rw [append_nil, segments, splitOn_eq_singleton hname,
      filter_cons_of_pos (by simpa using hne)]
    rfl
  | cons d rest =>
    have hd : d = slash := by
      have hhead := head?_dropWhile_not (fun x : UInt8 => decide (x ≠ slash)) (c :: path)
      rw [hrest] at hhead
      simpa using hhead
    rw [hd, segments, splitOn_append_cons_self_of_not_mem hname,
      filter_cons_of_pos (by simpa using hne), segments_slash]
    rfl

theorem head_dropWhile_slash {path p : List UInt8} {c : UInt8}
    (h : path.dropWhile (· = slash) = c :: p) : c ≠ slash := by
  have hhead := head?_dropWhile_not (fun x : UInt8 => decide (x = slash)) path
  rw [h] at hhead
  simpa using hhead

theorem skipelem_none {path : List UInt8} (h : skipelem path = none) : segments path = [] := by
  rw [skipelem] at h
  split at h
  · rename_i hnil
    rw [← segments_dropWhile, hnil]
    rfl
  · cases h

/-- `skipelem` takes the first name off a path. -/
theorem skipelem_some {path name rest : List UInt8} (h : skipelem path = some (name, rest)) :
    segments path = name :: segments rest ∧ rest.length < path.length ∧
      (rest = [] ↔ segments rest = []) := by
  rw [skipelem] at h
  split at h
  · cases h
  · rename_i c p hcons
    have hc := head_dropWhile_slash hcons
    obtain ⟨rfl, rfl⟩ := Prod.mk.inj (Option.some.inj h)
    refine ⟨?_, ?_, ?_⟩
    · rw [← segments_dropWhile, hcons, segments_name hc, segments_dropWhile]
    · have h1 := (List.dropWhile_suffix (l := path) (· = slash)).length_le
      have h2 := (List.dropWhile_suffix (l := p) (· ≠ slash)).length_le
      have h3 := (List.dropWhile_suffix (l := p.dropWhile (· ≠ slash)) (· = slash)).length_le
      rw [hcons, length_cons] at h1
      rw [dropWhile_cons_of_pos (by simp [hc])]
      omega
    · constructor
      · intro hnil
        rw [hnil]
        rfl
      · intro hnil
        cases hrest : ((c :: p).dropWhile (· ≠ slash)).dropWhile (· = slash) with
        | nil => rfl
        | cons d q =>
          rw [hrest, segments_name (head_dropWhile_slash hrest)] at hnil
          cases hnil

/-- A name in a path without zero bytes is what `namecmp` sees of it. -/
theorem cstr_of_skipelem {path name rest : List UInt8} (h : skipelem path = some (name, rest))
    (h0 : 0 ∉ path) : cstr DIRSIZ name = name ∧ 0 ∉ rest := by
  rw [skipelem] at h
  split at h
  · cases h
  · rename_i c p hcons
    obtain ⟨rfl, rfl⟩ := Prod.mk.inj (Option.some.inj h)
    have hsub : ∀ x ∈ c :: p, x ∈ path := fun x hx =>
      (List.dropWhile_suffix (· = slash)).subset (hcons ▸ hx)
    refine ⟨?_, fun hmem => ?_⟩
    · rw [cstr, take_take, min_self, takeWhile_eq_self_iff]
      intro x hx
      have hx' := hsub x ((List.takeWhile_prefix _).subset (mem_of_mem_take hx))
      rw [decide_eq_true_eq]
      rintro rfl
      exact h0 hx'
    · have h1 := (List.dropWhile_suffix _).subset hmem
      exact h0 (hsub 0 ((List.dropWhile_suffix _).subset h1))

/-! ## The abstract walk -/

/-- The inode is a directory. -/
def isDir (view : Nat → Option Vnode) (i : Nat) : Bool := (view i).any fun v => decide (v.type = T_DIR)

/-- The inode that a name stands for in a directory. -/
def lookup (view : Nat → Option Vnode) (i : Nat) (name : List UInt8) : Option Nat :=
  (view i).bind fun v => if v.type = T_DIR then SlotMap.find (dirSlots v.data) name else none

/-- The walk from inode `i` along the names. -/
def walk (view : Nat → Option Vnode) : Nat → List (List UInt8) → Option Nat
  | i, [] => some i
  | i, name :: names => (lookup view i name).bind fun j => walk view j names

/-- The walk to the directory of the last name. -/
def walkParent (view : Nat → Option Vnode) (i : Nat) (names : List (List UInt8)) :
    Option (Nat × List UInt8) :=
  names.getLast?.bind fun last =>
    (walk view i names.dropLast).bind fun p => if isDir view p then some (p, last) else none

/-- Both walks, one step at a time. -/
def resolve (view : Nat → Option Vnode) (parent : Bool) :
    Nat → List (List UInt8) → Option (Nat × List UInt8)
  | i, [] => if parent then none else some (i, [])
  | i, name :: names =>
    if isDir view i then
      if parent ∧ names = [] then some (i, name)
      else (lookup view i name).bind fun j => resolve view parent j names
    else none

/-- Besides the inodes that are held, the cache has room for the two inodes of every step of the
walk. -/
def State.WalkRoom (s : State) (held : Finset Nat) (parent : Bool) : Nat → List (List UInt8) → Prop
  | _, [] => True
  | i, name :: names => ¬ (parent = true ∧ names = []) →
    ∀ j, lookup s.view i name = some j → s.Fits ({i, j} ∪ held) ∧ s.WalkRoom held parent j names

section
variable {view : Nat → Option Vnode} {i : Nat}

theorem lookup_of_not_isDir (h : ¬ isDir view i = true) (name : List UInt8) :
    lookup view i name = none := by
  rw [lookup]
  cases hv : view i with
  | none => rfl
  | some v =>
    rw [isDir, hv, any_some, decide_eq_true_eq] at h
    rw [bind_some, if_neg h]

theorem resolve_false (names : List (List UInt8)) :
    resolve view false i names = (walk view i names).map fun j => (j, []) := by
  induction names generalizing i with
  | nil => rfl
  | cons name names ih =>
    rw [resolve, walk]
    split
    · rw [if_neg (by simp), map_bind]
      exact congrArg _ (funext fun j => ih)
    · rename_i hdir
      rw [lookup_of_not_isDir hdir]
      rfl

/-- `nameiparent` resolves to the directory of the last name. -/
theorem resolve_true (names : List (List UInt8)) :
    resolve view true i names = walkParent view i names := by
  induction names generalizing i with
  | nil => rfl
  | cons name names ih =>
    cases names with
    | nil =>
      rw [resolve, walkParent]
      simp only [and_self, if_true, getLast?_singleton, dropLast_singleton, walk,
        bind_some]
    | cons name' names =>
      rw [resolve, walkParent, getLast?_cons_cons, dropLast_cons_cons, walk]
      simp only [reduceCtorEq, and_false, if_false, ih, walkParent]
      split
      · cases lookup view i name with
        | none => cases getLast? (name' :: names) <;> rfl
        | some j => rfl
      · rename_i hdir
        rw [lookup_of_not_isDir hdir]
        cases getLast? (name' :: names) <;> rfl

/-- The walk to the parent visits no inode that the whole walk does not visit. -/
theorem State.WalkRoom.parent {s : State} {held : Finset Nat} {names : List (List UInt8)}
    (h : s.WalkRoom held false i names) : s.WalkRoom held true i names := by
  induction names generalizing i with
  | nil => trivial
  | cons name names ih =>
    intro _ j hj
    obtain ⟨hroom, hrest⟩ := h (by simp) j hj
    exact ⟨hroom, ih hrest⟩

end

/-! ## `namex` -/

/-- What the walk has found, in terms of inodes. -/
def reached (s : State) (r : Option (Fin NINODE × List UInt8)) : Option (Nat × List UInt8) :=
  r.map fun x => ((s.icache x.1).inum, x.2)

theorem update_noLocks (e : Fin NINODE) :
    update (update noLocks e true) e false = noLocks := by
  rw [update_idem]
  exact update_eq_self e noLocks

/-- The rest of a walk, from inode `a` along some names, leads where the names lead. It stops only when
the cache has no room. -/
abbrev Walks (s₀ : State) (parent : Bool) (a : Nat) (names : List (List UInt8))
    (m : FsM (Option (Fin NINODE × List UInt8))) (s : State) : Prop :=
  Sat (fun err => err = .panic "iget: no inodes" ∧ ¬ s₀.WalkRoom ∅ parent a names) m s fun r s' =>
    Session s₀ s' (owned (r.map Prod.fst)) noLocks ∧
    reached s' r = resolve s₀.view parent a names ∧ s₀.WalkRoom ∅ parent a names

section
variable {s₀ s : State} {e : Fin NINODE} {a : Nat} {parent : Bool}

/-- There are no more names: `nameiparent` has none to return. -/
theorem walks_done (h : Session s₀ s (one e) noLocks) (ha : (s.icache e).inum = a)
    (hlive : s₀.Live a) :
    Walks s₀ parent a []
      (if parent then do
        iput e
        return none
      else return some (e, [])) s := by
  refine Sat.ite (fun hparent => ?_) fun hparent => ⟨h, ?_, trivial⟩
  · refine (h.iput (one_self_pos e) rfl (ha ▸ hlive)).never.bind ?_
    rintro _ s' ⟨hs', -⟩
    rw [sub_self] at hs'
    exact ⟨hs', (if_pos hparent).symm, trivial⟩
  · rw [reached, map_some, ha]
    exact (if_neg hparent).symm

section
variable {name : List UInt8} {names : List (List UInt8)}
  (h : Session s₀ s (one e) (update noLocks e true)) (ha : (s.icache e).inum = a)
include h ha

/-- The walk ends at a name that is not there. -/
theorem walks_fail (hlive : s₀.Live a) (hno : lookup s₀.view a name = none)
    (hres : resolve s₀.view parent a (name :: names) = none) :
    Walks s₀ parent a (name :: names)
      (do
        iunlockput e
        return none) s := by
  refine (h.iunlockput (one_self_pos e) (update_self ..) (ha ▸ hlive)).never.bind ?_
  rintro _ s' ⟨hs', -⟩
  rw [update_noLocks, sub_self] at hs'
  exact ⟨hs', hres.symm, fun _ j hj => absurd (hno.symm.trans hj) (by simp)⟩

/-- The last name of `nameiparent` is not looked up. -/
theorem walks_end (hdir : isDir s₀.view a = true) (hlast : parent = true ∧ names = []) :
    Walks s₀ parent a (name :: names)
      (do
        iunlock e
        return some (e, name)) s := by
  refine (h.iunlock (update_self ..)).never.bind ?_
  rintro _ s' ⟨hs', hsame⟩
  rw [update_noLocks] at hs'
  refine ⟨hs', ?_, fun hmore => absurd hlast hmore⟩
  rw [resolve, if_pos hdir, if_pos hlast, reached, map_some,
    hsame e (h.locked e (update_self ..)), ha]

/-- The next inode is taken before the directory is given up. -/
theorem walks_next {s1 : State} {e' : Fin NINODE} {b : Nat} (hlive : s₀.Live a)
    (hliveb : s₀.Live b) (hg : Iget s b e' s1) :
    Sat (fun _ => False) (iunlockput e) s1 fun _ s' =>
      Session s₀ s' (one e') noLocks ∧ (s'.icache e').inum = b := by
  obtain ⟨w, hw, -⟩ := id hliveb
  obtain ⟨h1, hsame1, hb1⟩ := h.iget hg (by rw [hw]; exact some_ne_none w)
  have hr1 : 0 < (s1.icache e').ref := h1.pos_of (by
    rw [Pi.add_apply]
    exact Int.add_pos_of_nonneg_of_pos (h.nonneg e') (one_self_pos e'))
  have hlive1 : s₀.Live (s1.icache e).inum := by
    rw [hsame1 e (h.locked e (update_self ..)), ha]
    exact hlive
  have hδ : 0 < (one e + one e') e := by
    rw [Pi.add_apply]
    exact Int.add_pos_of_pos_of_nonneg (one_self_pos e) (one_apply_nonneg e' e)
  refine (h1.iunlockput hδ (update_self ..) hlive1).weaken ?_
  rintro _ s' ⟨hs', hsame'⟩
  rw [update_noLocks, add_sub_cancel_left] at hs'
  exact ⟨hs', (hsame' e' hr1).trans hb1⟩

end

variable {path : List UInt8}

/-- The loop of `namex` walks along the names in the path. -/
theorem namexFrom_spec (ht : s₀.Tree) {k : Nat} (hk : path.length < k) (h0 : 0 ∉ path)
    (h : Session s₀ s (one e) noLocks) (ha : (s.icache e).inum = a) (hlive : s₀.Live a) :
    Walks s₀ parent a (segments path) (namexFrom parent k e path) s := by
  induction k generalizing s e a path with
  | zero => omega
  | succ k ih =>
    rw [namexFrom]
    cases hskip : skipelem path with
    | none =>
      rw [skipelem_none hskip]
      exact walks_done h ha hlive
    | some p =>
      obtain ⟨name, rest⟩ := p
      obtain ⟨hseg, hlen, hnil⟩ := skipelem_some hskip
      obtain ⟨hname, h0'⟩ := cstr_of_skipelem hskip h0
      obtain ⟨v, hv, -⟩ := id hlive
      have hr := h.pos_of (one_self_pos e)
      rw [hseg]
      refine (h.ilock hr rfl (by rw [ha, hv]; exact some_ne_none v)).never.bind ?_
      rintro _ s1 ⟨h1, hsame1, hl1⟩
      have ha1 : (s1.icache e).inum = a := (hsame1 e hr).trans ha
      have htype : (s1.icache e).type = v.type := by
        have hview := h1.inv.view_of_loaded hl1
        rw [h1.view, ha1, hv, some_inj] at hview
        exact (congrArg Vnode.type hview).symm
      have hdir : isDir s₀.view a = decide (v.type = T_DIR) := by
        rw [isDir, hv, any_some]
      rw [sat_fsState_bind]
      dsimp only
      rw [htype]
      refine Sat.ite (fun hnot => ?_) fun hisdir => ?_
      · -- a name is looked up in a file
        have hfile : ¬ isDir s₀.view a = true := by
          rw [hdir, decide_eq_true_eq]
          exact hnot
        exact walks_fail h1 ha1 hlive (lookup_of_not_isDir hfile name) (if_neg hfile)
      have hisdir : v.type = T_DIR := not_not.1 hisdir
      have hdir : isDir s₀.view a = true := hdir.trans (decide_eq_true hisdir)
      refine Sat.ite (fun hlast => walks_end h1 ha1 hdir ⟨hlast.1, hnil.1 hlast.2⟩) fun hmore => ?_
      have hmore' : ¬ (parent = true ∧ segments rest = []) := fun hc => hmore ⟨hc.1, hnil.2 hc.2⟩
      have hd : s1.IsDir e v.data := h1.isDir hl1 (ha1 ▸ hv) hisdir (ht.whole a v hv hisdir)
      have hfind : lookup s₀.view a name = SlotMap.find (dirSlots v.data) (cstr DIRSIZ name) := by
        rw [lookup, hv, bind_some, if_pos hisdir, hname]
      have hres : resolve s₀.view parent a (name :: segments rest) =
          (lookup s₀.view a name).bind fun j => resolve s₀.view parent j (segments rest) := by
        rw [resolve, if_pos hdir, if_neg hmore']
      cases hlook : lookup s₀.view a name with
      | none =>
        have hrun : dirlookup e name s1 = .ok (none, s1) := by
          rw [dirlookup_eq h1.inv hd, SlotMap.find_eq_none.1 (hfind.symm.trans hlook)]
          rfl
        rw [hlook] at hres
        rw [sat_bind, sat_of_eq_ok hrun]
        exact walks_fail h1 ha1 hlive hlook hres
      | some b =>
        have hliveb : s₀.Live b := ht.entries a v _ b hv hisdir (hfind.symm.trans hlook)
        have hroom : s1.CacheRoom b ↔ s₀.Fits ({a, b} ∪ ∅) := by
          rw [Finset.union_empty]
          exact h1.cacheRoom_iff ha1
        refine Sat.bind ((dirlookup_found h1.inv hd (hfind.symm.trans hlook)).mono ?_
          fun _ _ hs' => hs') ?_
        · rintro _ ⟨rfl, hfull⟩
          exact ⟨rfl, fun hw => hfull (hroom.2 (hw hmore' b hlook).1)⟩
        rintro _ s2 ⟨j, e', rfl, -, hg⟩
        refine (walks_next h1 ha1 hlive hliveb hg).never.bind ?_
        rintro _ s3 ⟨h3, hb3⟩
        refine (@ih s3 e' b rest (by omega) h0' h3 hb3 hliveb).mono ?_ ?_
        · rintro _ ⟨rfl, hfull⟩
          exact ⟨rfl, fun hw => hfull (hw hmore' b hlook).2⟩
        · rintro r s' ⟨hs', hreach, hw⟩
          refine ⟨hs', ?_, fun _ j hj => ?_⟩
          · rw [hres, hlook, bind_some, hreach]
          · obtain rfl : b = j := Option.some.inj (hlook.symm.trans hj)
            exact ⟨hroom.1 hg.cacheRoom, hw⟩

/-- The inode at which a walk starts. -/
def pathStart (s : State) (cwd : Fin NINODE) (path : List UInt8) : Nat :=
  if path.head? = some slash then ROOTINO else (s.icache cwd).inum

/-- Besides the inodes that are held, the cache has room for the whole walk. -/
def State.PathRoom (s : State) (held : Finset Nat) (cwd : Fin NINODE) (path : List UInt8)
    (parent : Bool) : Prop :=
  s.Fits ({pathStart s cwd path} ∪ held) ∧
    s.WalkRoom held parent (pathStart s cwd path) (segments path)

/-- A walk in a tree leads to inodes that stay. -/
theorem State.Tree.live_of_walk (ht : s.Tree) {i j : Nat} {names : List (List UInt8)} (hi : s.Live i)
    (h : walk s.view i names = some j) : s.Live j := by
  induction names generalizing i with
  | nil => exact Option.some.inj h ▸ hi
  | cons name names ih =>
    obtain ⟨k, hk, hj⟩ := bind_eq_some_iff.1 h
    obtain ⟨v, hv, hfind⟩ := bind_eq_some_iff.1 hk
    split at hfind
    · exact ih (ht.entries i v name k hv ‹_› hfind) hj
    · cases hfind

theorem State.Tree.live_start (ht : s.Tree) {cwd : Fin NINODE} (hcwd : 0 < (s.icache cwd).ref) :
    s.Live (pathStart s cwd path) := by
  unfold pathStart
  split
  · exact ht.root
  · obtain ⟨v, hv⟩ := ne_none_iff_exists'.1 (ht.alloc cwd hcwd)
    exact ⟨v, hv, .inr ⟨cwd, hcwd, rfl⟩⟩

/-- `namex` resolves the path, and stops only when the inode cache has no room. -/
theorem namex_spec {cwd : Fin NINODE} (ht : s.Tree) (hcwd : 0 < (s.icache cwd).ref) (h0 : 0 ∉ path) :
    Sat (fun err => err = .panic "iget: no inodes" ∧ ¬ s.PathRoom ∅ cwd path parent)
      (namex cwd path parent) s fun r s' =>
        Session s s' (owned (r.map Prod.fst)) noLocks ∧
        reached s' r = resolve s.view parent (pathStart s cwd path) (segments path) ∧
        s.PathRoom ∅ cwd path parent := by
  have hwalk {e : Fin NINODE} {s1 : State} (h1 : Session s s1 (one e) noLocks)
      (ha : (s1.icache e).inum = pathStart s cwd path) (hroom : s.CacheRoom (pathStart s cwd path)) :
      Sat (fun err => err = .panic "iget: no inodes" ∧ ¬ s.PathRoom ∅ cwd path parent)
        (namexFrom parent (path.length + 1) e path) s1 fun r s' =>
          Session s s' (owned (r.map Prod.fst)) noLocks ∧
          reached s' r = resolve s.view parent (pathStart s cwd path) (segments path) ∧
          s.PathRoom ∅ cwd path parent := by
    have hlive : s.Live (pathStart s cwd path) := ht.live_start hcwd
    refine (namexFrom_spec ht (Nat.lt_succ_self path.length) h0 h1 ha hlive).mono ?_ ?_
    · rintro _ ⟨rfl, hfull⟩
      exact ⟨rfl, fun hroom => hfull hroom.2⟩
    · rintro r s' ⟨hs', hreach, hw⟩
      exact ⟨hs', hreach, ht.inv.cacheRoom_iff.1 hroom, hw⟩
  rw [namex, namexStart]
  by_cases hslash : path.head? = some slash
  · have hstart : pathStart s cwd path = ROOTINO := if_pos hslash
    rw [if_pos hslash]
    refine Sat.bind ((iget_exact ROOTINO).mono ?_ fun _ _ hs' => hs') fun e s1 hg => ?_
    · rintro _ ⟨rfl, hfull⟩
      exact ⟨rfl, fun hroom => hfull (ht.inv.cacheRoom_iff.2 (hstart ▸ hroom.1))⟩
    · obtain ⟨v, hv, -⟩ := id ht.root
      obtain ⟨h1, -, ha⟩ := ht.session.iget hg (by rw [hv]; exact some_ne_none v)
      rw [zero_add] at h1
      exact hwalk h1 (ha.trans hstart.symm) (hstart ▸ hg.cacheRoom)
  · have hstart : pathStart s cwd path = (s.icache cwd).inum := if_neg hslash
    rw [if_neg hslash]
    refine (ht.session.idup hcwd).never.bind ?_
    rintro _ s1 ⟨rfl, h1, hsame⟩
    rw [zero_add] at h1
    refine hwalk h1 ((hsame _ hcwd).trans hstart.symm) ?_
    rw [hstart]
    exact ⟨_, .inr ⟨hcwd, rfl⟩⟩

end

/-! ## `namei` and `nameiparent` -/

/-- The root directory with one file is a tree. -/
theorem tree_of_oneEntry {s : State} (hs : s.Steady)
    (hidle : ∀ e, 0 < (s.icache e).ref → (s.icache e).busy = false) (hn : s.sb.ninodes = 64)
    (hdirs : ∀ i < 64, (s.node i).type = T_DIR ↔ i = ROOTINO) (hlink : (s.node ROOTINO).nlink ≠ 0)
    (hdata : s.store.data ROOTINO = oneEntry) (hfile : (s.node 2).type = T_FILE)
    (hflink : (s.node 2).nlink ≠ 0) : s.Tree := by
  have hview {i : Nat} {v : Vnode} (hv : s.view i = some v) :
      (s.node i).type ≠ 0 ∧ v = (s.node i).vnode (s.store.data i) := by
    have ht : (s.node i).type ≠ 0 := State.node_type_ne_of_view (by rw [hv]; exact some_ne_none v)
    exact ⟨ht, (Option.some.inj ((Store.view_of_type ht).symm.trans hv)).symm⟩
  have hroot {i : Nat} {v : Vnode} (hv : s.view i = some v) (ht : v.type = T_DIR) :
      v.data = oneEntry := by
    obtain ⟨hne, rfl⟩ := hview hv
    rw [(hdirs i (hn ▸ State.lt_ninodes_of_type hne)).1 ht]
    exact hdata
  have hlive {i : Nat} (ht : (s.node i).type ≠ 0) (hl : (s.node i).nlink ≠ 0) : s.Live i :=
    ⟨_, Store.view_of_type ht, .inl hl⟩
  refine ⟨hs.inv, hidle, hs.live, hlive ?_ hlink, fun i v hv ht => ?_, fun i v name j hv ht hj => ?_⟩
  · rw [(hdirs ROOTINO (by decide)).2 rfl]
    decide
  · rw [hroot hv ht]
    exact ⟨1, rfl⟩
  · rw [hroot hv ht, distinct_oneEntry.find_eq_some, dirSlots_oneEntry] at hj
    obtain ⟨k, hk⟩ := hj
    have hmem := mem_of_getElem? hk
    rw [mem_singleton, some_inj, Prod.mk.injEq] at hmem
    rw [hmem.2]
    exact hlive (by rw [hfile]; decide) hflink

/-- The root directory with one file, while the inode cache is full. -/
theorem State.RootOnly.tree {s : State} (hs : s.Steady) (hf : s.Full) (hr : s.RootOnly) : s.Tree := by
  obtain ⟨-, -, hn, hdirs, hlink, hdata, hfile, hflink⟩ := hr
  exact tree_of_oneEntry hs (fun e _ => (hf e).2.1) hn hdirs (by rw [hlink]; decide) hdata hfile
    (by rw [hflink]; decide)

theorem State.RootOnly.lookup {s : State} (h : s.Inv) (hf : s.Full) (hr : s.RootOnly)
    (name : List UInt8) :
    lookup s.view ROOTINO name = SlotMap.find [some ([97], 2)] name := by
  have hd := hr.isDir h hf
  have hview := h.view_of_loaded hd.loaded
  rw [hd.contents, hr.1] at hview
  rw [Fs.lookup, hview, bind_some, ← dirSlots_oneEntry]
  exact if_pos hd.type

section
variable {s : State} {cwd : Fin NINODE} {path : List UInt8} (ht : s.Tree)
  (hcwd : 0 < (s.icache cwd).ref) (h0 : 0 ∉ path)
include ht hcwd h0

/-- `namei` goes where the names of the path lead. -/
theorem namei_spec :
    Sat (fun err => err = .panic "iget: no inodes" ∧ ¬ s.PathRoom ∅ cwd path false)
      (namei cwd path) s fun r s' => Session s s' (owned r) noLocks ∧
        r.map (fun e => (s'.icache e).inum) = walk s.view (pathStart s cwd path) (segments path) ∧
        s.PathRoom ∅ cwd path false := by
  refine (namex_spec ht hcwd h0).bind ?_
  rintro r s' ⟨hs', hreach, hroom⟩
  refine ⟨hs', ?_, hroom⟩
  have hfst := congrArg (Option.map Prod.fst) (hreach.trans (resolve_false _))
  rw [reached, Option.map_map, Option.map_map] at hfst
  rw [Option.map_map]
  exact hfst.trans map_id'

/-- `nameiparent` goes to the directory of the last name. -/
theorem nameiparent_spec :
    Sat (fun err => err = .panic "iget: no inodes" ∧ ¬ s.PathRoom ∅ cwd path true)
      (nameiparent cwd path) s fun r s' => Session s s' (owned (r.map Prod.fst)) noLocks ∧
        reached s' r = walkParent s.view (pathStart s cwd path) (segments path) ∧
        s.PathRoom ∅ cwd path true := by
  refine (namex_spec ht hcwd h0).weaken ?_
  rintro r s' ⟨hs', hreach, hroom⟩
  exact ⟨hs', hreach.trans (resolve_true _), hroom⟩

end

/-- What `namei` and `nameiparent` are to do with a path. -/
structure PathOk (s : State) (cwd : Fin NINODE) (path : List UInt8) : Prop where
  namei : ∃ r s', Fs.namei cwd path s = .ok (r, s') ∧
    r.map (fun e => (s'.icache e).inum) = walk s.view (pathStart s cwd path) (segments path) ∧
    s'.refs = s.refs + owned r ∧ s'.view = s.view
  nameiparent : ∃ r s', Fs.nameiparent cwd path s = .ok (r, s') ∧
    r.map (fun x => ((s'.icache x.1).inum, x.2)) =
      walkParent s.view (pathStart s cwd path) (segments path) ∧
    s'.refs = s.refs + owned (r.map Prod.fst) ∧ s'.view = s.view

/-- `namei` and `nameiparent` resolve a path as the walk along its names does, exactly if the inode
cache has room for the start of the walk and for the two inodes of every step of it. Without that they
panic; they never run on. -/
theorem pathOk_iff {s : State} {cwd : Fin NINODE} {path : List UInt8} (ht : s.Tree)
    (hcwd : 0 < (s.icache cwd).ref) (h0 : 0 ∉ path) :
    PathOk s cwd path ↔ s.PathRoom ∅ cwd path false := by
  constructor
  · intro hok
    obtain ⟨r, s', hrun, -⟩ := hok.namei
    exact ((namei_spec ht hcwd h0).of_ok hrun).2.2
  · intro hroom
    obtain ⟨r, s', hrun, hs', hwalk, -⟩ := ((namei_spec ht hcwd h0).mono
      (fun _ herr => herr.2 hroom) fun _ _ hs' => hs').returns
    obtain ⟨r', s'', hrun', hs'', hwalk', -⟩ := ((nameiparent_spec ht hcwd h0).mono
      (fun _ herr => herr.2 ⟨hroom.1, hroom.2.parent⟩) fun _ _ hs' => hs').returns
    exact ⟨⟨r, s', hrun, hwalk, hs'.refs, hs'.view⟩,
      ⟨r', s'', hrun', hwalk', hs''.refs, hs''.view⟩⟩

/-- A name that the root directory does not have is looked up, though the cache is full. -/
theorem pathOk_iff_absent : ∃ s : State, s.Tree ∧ 0 < (s.icache rootEntry).ref ∧
    PathOk s rootEntry [slash, 98] := by
  obtain ⟨s, hs, hfull, hroot⟩ := exists_crowded
  have ht := hroot.tree hs hfull
  have hcwd := hfull.ref_pos rootEntry
  refine ⟨s, ht, hcwd, (pathOk_iff ht hcwd (by decide)).2
    ⟨hs.inv.cacheRoom_iff.1 ⟨rootEntry, .inr ⟨hcwd, hroot.1⟩⟩, ?_⟩⟩
  intro _ j hj
  have hlook : lookup s.view ROOTINO [98] = none := hroot.lookup hs.inv hfull _
  exact absurd (hlook.symm.trans hj) (by simp)

/-- With every cache entry in use, the path `/a` cannot be resolved, though the file exists. -/
theorem namei_panics_crowded : ∃ s : State, s.Tree ∧ 0 < (s.icache rootEntry).ref ∧
    walk s.view ROOTINO (segments [slash, 97]) = some 2 ∧
    namei rootEntry [slash, 97] s = .error (.panic "iget: no inodes") ∧
    ¬ PathOk s rootEntry [slash, 97] := by
  obtain ⟨s, hs, hfull, hroot⟩ := exists_crowded
  have ht := hroot.tree hs hfull
  have hcwd := hfull.ref_pos rootEntry
  have hlook : lookup s.view ROOTINO [97] = some 2 := hroot.lookup hs.inv hfull _
  have hno : ¬ s.PathRoom ∅ rootEntry [slash, 97] false := by
    rintro ⟨-, hwalk⟩
    have hfits : s.Fits {2} := (hwalk (by simp) 2 hlook).1.mono (by simp)
    obtain ⟨e, hf | ⟨-, he⟩⟩ := hs.inv.cacheRoom_iff.2 hfits
    · rw [(hfull e).1] at hf
      cases hf
    · exact (hfull e).2.2 he
  have hpanic : namei rootEntry [slash, 97] s = .error (.panic "iget: no inodes") := by
    have hspec := @namei_spec s rootEntry [slash, 97] ht hcwd (by decide)
    cases hrun : namei rootEntry [slash, 97] s with
    | ok p => exact absurd (hspec.of_ok hrun).2.2 hno
    | error err => rw [(hspec.of_error hrun).1]
  refine ⟨s, ht, hcwd, ?_, hpanic, fun hok => ?_⟩
  · show (lookup s.view ROOTINO [97]).bind (fun j => walk s.view j []) = _
    rw [hlook]
    rfl
  · obtain ⟨r, s', hrun, -⟩ := hok.namei
    rw [hpanic] at hrun
    cases hrun

end TronBoss.Fs
